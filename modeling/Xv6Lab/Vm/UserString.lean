import Xv6Lab.Vm.UserAccess

/-! `copyinstr` with all that it touches: besides what it returns and what is in `dst`, which bytes of
the user it reads and where it stores.  A string of the user is given by the page table of the calling
process, page by page. -/

namespace Xv6Lab.Vm.UserString

open Rv64 Sv39

/-- A copy under way: its buffer, the addresses of the bytes of the user that it has read, and the
indices to which it has stored. -/
structure Copy where
  dst : Nat → BitVec 8
  reads : List Word
  stores : List Nat

namespace Copy

def read (w : Copy) (va : Word) : Copy := { w with reads := w.reads ++ [va] }

/-- `dst[i] = c` -/
def store (w : Copy) (i : Nat) (c : BitVec 8) : Copy :=
  { w with dst := Function.update w.dst i c, stores := w.stores ++ [i] }

end Copy

/-! ### `vm.c` -/

/-- `copyin` from byte `i` on, with `left` bytes to go.  `p` is `myproc()`. -/
def copyinFrom (s : Kernel) (p : Slot) (srcva : Word) : (left i : Nat) → Copy → Int × Copy
  | 0, _, w => (0, w)
  | left + 1, i, w =>
    let va := srcva + BitVec.ofNat 64 i
    let pa := userVa2pa s.mem (s.procs p).pagetable va
    if pa = 0 then (-1, w)
    else
      let w := (w.read va).store i (loadByte s.mem pa)
      if w.dst i = 0 then (0, w) else copyinFrom s p srcva left (i + 1) w

def copyin (s : Kernel) (p : Slot) (w : Copy) (srcva : Word) (maxlen : Nat) : Int × Copy :=
  copyinFrom s p srcva maxlen 0 w

/-- `copyinstr` from byte `i` on, with `left` of `max` bytes to go.  `junk` is what `c` holds before
`copyin`. -/
def copyinstrFrom (s : Kernel) (p : Slot) (junk : Nat → BitVec 8) (srcva : Word) (max : Nat) :
    (left i : Nat) → Copy → Int × Copy
  | 0, _, w => (-1, w.store (max - 1) 0)
  | left + 1, i, w =>
    let (r, c) := copyin s p ⟨junk, w.reads, []⟩ (srcva + BitVec.ofNat 64 i) 1
    let w := { w with reads := c.reads }
    if r < 0 then (-1, w)
    else
      let w := w.store i (c.dst 0)
      if c.dst 0 = 0 then (0, w) else copyinstrFrom s p junk srcva max left (i + 1) w

/-- `copyinstr`, which does not look at `pagetable`. -/
def copyinstr (s : Kernel) (p : Slot) (junk dst : Nat → BitVec 8) (_pagetable srcva : Word)
    (max : Nat) : Int × Copy :=
  copyinstrFrom s p junk srcva max max 0 ⟨dst, [], []⟩

/-- What `user_va2pa` leads to. -/
def fetched (s : Kernel) (p : Slot) (va : Word) : Option (BitVec 8) :=
  let pa := userVa2pa s.mem (s.procs p).pagetable va
  if pa = 0 then none else some (loadByte s.mem pa)

section Turns

variable {s : Kernel} {p : Slot} {junk : Nat → BitVec 8} {srcva : Word} {max i : Nat} {w : Copy}

theorem copyin_missing {va : Word} (missing : fetched s p va = none) (w : Copy) :
    copyin s p w va 1 = (-1, w) := by
  have zero : userVa2pa s.mem (s.procs p).pagetable va = 0 := by simpa [fetched] using missing
  rw [copyin, copyinFrom, BitVec.add_zero]
  exact if_pos zero

theorem copyin_found {va : Word} {c : BitVec 8} (found : fetched s p va = some c) (w : Copy) :
    copyin s p w va 1 = (0, (w.read va).store 0 c) := by
  obtain ⟨nonzero, rfl⟩ : userVa2pa s.mem (s.procs p).pagetable va ≠ 0 ∧
      loadByte s.mem (userVa2pa s.mem (s.procs p).pagetable va) = c := by
    simpa [fetched] using found
  rw [copyin, copyinFrom, BitVec.add_zero]
  exact (if_neg nonzero).trans (ite_self _)

theorem copyinstrFrom_missing (missing : fetched s p (srcva + BitVec.ofNat 64 i) = none)
    (left : Nat) : copyinstrFrom s p junk srcva max (left + 1) i w = (-1, w) := by
  rw [copyinstrFrom, copyin_missing missing]
  rfl

theorem copyinstrFrom_zero (found : fetched s p (srcva + BitVec.ofNat 64 i) = some 0) (left : Nat) :
    copyinstrFrom s p junk srcva max (left + 1) i w =
      (0, (w.read (srcva + BitVec.ofNat 64 i)).store i 0) := by
  rw [copyinstrFrom, copyin_found found]
  rfl

theorem copyinstrFrom_next {c : BitVec 8}
    (found : fetched s p (srcva + BitVec.ofNat 64 i) = some c) (visible : c ≠ 0) (left : Nat) :
    copyinstrFrom s p junk srcva max (left + 1) i w =
      copyinstrFrom s p junk srcva max left (i + 1)
        ((w.read (srcva + BitVec.ofNat 64 i)).store i c) := by
  rw [copyinstrFrom, copyin_found found]
  exact if_neg visible

/-- The result is that of `Vm.copyinstr`. -/
theorem copyinstrFrom_agrees (s : Kernel) (p : Slot) (junk : Nat → BitVec 8) (srcva : Word)
    (max left i : Nat) (w : Copy) :
    let out := copyinstrFrom s p junk srcva max left i w
    (out.1, out.2.dst) = Vm.copyinstrFrom s.mem (s.procs p).pagetable srcva max left i w.dst := by
  dsimp only
  induction left generalizing i w with
  | zero => rfl
  | succ left ih =>
    rw [Vm.copyinstrFrom, Vm.copyin, Vm.copyinFrom, BitVec.add_zero]
    dsimp only
    by_cases zero : userVa2pa s.mem (s.procs p).pagetable (srcva + BitVec.ofNat 64 i) = 0
    · have missing : fetched s p (srcva + BitVec.ofNat 64 i) = none := if_pos zero
      rw [copyinstrFrom_missing missing, if_pos zero]
      rfl
    · have found : fetched s p (srcva + BitVec.ofNat 64 i) = some (loadByte s.mem
          (userVa2pa s.mem (s.procs p).pagetable (srcva + BitVec.ofNat 64 i))) := if_neg zero
      rw [if_neg zero]
      generalize loadByte s.mem (userVa2pa s.mem (s.procs p).pagetable
        (srcva + BitVec.ofNat 64 i)) = c at found
      rw [Vm.copyinFrom, ite_self]
      by_cases ends : c = 0
      · rw [ends] at found
        rw [copyinstrFrom_zero found, ends]
        rfl
      · rw [copyinstrFrom_next found ends, ih]
        exact (if_neg ends).symm

end Turns

/-- `copyinstr` returns and stores what `Vm.copyinstr` does with the page table of the caller. -/
theorem copyinstr_agrees (s : Kernel) (p : Slot) (junk dst : Nat → BitVec 8)
    (pagetable srcva : Word) (max : Nat) :
    ((copyinstr s p junk dst pagetable srcva max).1, (copyinstr s p junk dst pagetable srcva max).2.dst) =
      Vm.copyinstr s.mem (s.procs p).pagetable dst srcva max :=
  copyinstrFrom_agrees s p junk srcva max max 0 ⟨dst, [], []⟩

/-! ### The loop -/

section Loop

variable {byte : Nat → Option (BitVec 8)} {addr : Nat → Word} {dst : Nat → BitVec 8} {n : Nat}
  {w : Copy}

/-- The first `n` bytes are copied, and nothing else is done. -/
structure Copied (byte : Nat → Option (BitVec 8)) (addr : Nat → Word) (dst : Nat → BitVec 8) (n : Nat)
    (w : Copy) : Prop where
  bytes : ∀ i < n, byte i = some (w.dst i)
  kept : ∀ i, n ≤ i → w.dst i = dst i
  reads : w.reads = (List.range n).map addr
  stores : w.stores = List.range n

theorem Copied.start : Copied byte addr dst 0 ⟨dst, [], []⟩ :=
  ⟨nofun, fun _ _ => rfl, rfl, rfl⟩

theorem Copied.next (copied : Copied byte addr dst n w) {c : BitVec 8} (found : byte n = some c) :
    Copied byte addr dst (n + 1) ((w.read (addr n)).store n c) := by
  refine ⟨fun i less => ?_, fun i past => ?_, ?_, ?_⟩
  · show byte i = some (Function.update w.dst n c i)
    by_cases last : i = n
    · rw [last, Function.update_self, found]
    · rw [Function.update_of_ne last, copied.bytes i (by omega)]
  · show Function.update w.dst n c i = dst i
    rw [Function.update_of_ne (by omega), copied.kept i (by omega)]
  · show w.reads ++ [addr n] = _
    rw [copied.reads, List.range_succ, List.map_append, List.map_singleton]
  · show w.stores ++ [n] = _
    rw [copied.stores, List.range_succ]

theorem Copied.mapped (copied : Copied byte addr dst n w) {i : Nat} (less : i < n) : byte i ≠ none := by
  rw [copied.bytes i less]
  exact Option.some_ne_none _

theorem Copied.inside (copied : Copied byte addr dst n w) {i : Nat} (stored : i ∈ w.stores) : i < n := by
  rwa [copied.stores, List.mem_range] at stored

theorem Copied.untouched (copied : Copied byte addr dst n w) {i : Nat} (outside : i ∉ w.stores) :
    w.dst i = dst i := by
  rw [copied.stores, List.mem_range] at outside
  exact copied.kept i (by omega)

/-- Where the loop ends: behind the zero, at a byte that is missing, or at `max`. -/
inductive Ended (byte : Nat → Option (BitVec 8)) (addr : Nat → Word) (dst : Nat → BitVec 8)
    (max : Nat) : Int × Copy → Prop
  | zero {k : Nat} {w : Copy} (within : k < max) (zero : byte k = some 0)
      (copied : Copied byte addr dst (k + 1) w) (visible : ∀ i < k, byte i ≠ some 0) :
      Ended byte addr dst max (0, w)
  | missing {n : Nat} {w : Copy} (within : n < max) (missing : byte n = none)
      (copied : Copied byte addr dst n w) (visible : ∀ i < n, byte i ≠ some 0) :
      Ended byte addr dst max (-1, w)
  | full {w : Copy} (copied : Copied byte addr dst max w) (visible : ∀ i < max, byte i ≠ some 0) :
      Ended byte addr dst max (-1, w.store (max - 1) 0)

theorem copyinstrFrom_ended {s : Kernel} {p : Slot} {srcva : Word} (junk : Nat → BitVec 8)
    (left : Nat) (copied : Copied (fun i => fetched s p (srcva + BitVec.ofNat 64 i))
      (fun i => srcva + BitVec.ofNat 64 i) dst n w)
    (visible : ∀ i < n, fetched s p (srcva + BitVec.ofNat 64 i) ≠ some 0) :
    Ended (fun i => fetched s p (srcva + BitVec.ofNat 64 i)) (fun i => srcva + BitVec.ofNat 64 i) dst
      (n + left) (copyinstrFrom s p junk srcva (n + left) left n w) := by
  induction left generalizing n w with
  | zero => exact .full copied visible
  | succ left ih =>
    cases found : fetched s p (srcva + BitVec.ofNat 64 n) with
    | none =>
      rw [copyinstrFrom_missing found]
      exact .missing (by omega) found copied visible
    | some c =>
      by_cases zero : c = 0
      · subst zero
        rw [copyinstrFrom_zero found]
        exact .zero (by omega) found (copied.next found) visible
      · have rest := ih (copied.next found) fun i less => by
          by_cases last : i = n
          · rw [last, found]
            exact fun same => zero (Option.some.inj same)
          · exact visible i (by omega)
        rw [copyinstrFrom_next found zero, show n + (left + 1) = n + 1 + left by omega]
        exact rest

end Loop

/-! ### Strings of the user -/

/-- The string of the bytes ends with byte `k`. -/
def Ends (byte : Nat → Option (BitVec 8)) (k : Nat) : Prop :=
  byte k = some 0 ∧ ∀ i < k, ∃ c, byte i = some c ∧ c ≠ 0

/-- A copy of a string of at most `max` bytes, and nothing else. -/
structure Exact (byte : Nat → Option (BitVec 8)) (addr : Nat → Word) (max : Nat)
    (dst : Nat → BitVec 8) (out : Int × Copy) : Prop where
  returns : out.1 = 0 ↔ ∃ k < max, Ends byte k
  fails : out.1 = 0 ∨ out.1 = -1
  copied : ∀ k < max, Ends byte k → ∀ i ≤ k, byte i = some (out.2.dst i)
  within : ∀ i ∈ out.2.stores, i < max
  kept : ∀ i, i ∉ out.2.stores → out.2.dst i = dst i
  reads : ∃ n ≤ max, out.2.reads = (List.range n).map addr ∧ (∀ i < n, byte i ≠ none) ∧
    ∀ i, i + 1 < n → byte i ≠ some 0

section Strings

variable {byte : Nat → Option (BitVec 8)} {addr : Nat → Word} {dst : Nat → BitVec 8} {max : Nat}
  {out : Int × Copy}

/-- A string ends once. -/
theorem Ends.unique {k k' : Nat} (ends : Ends byte k) (zero : byte k' = some 0)
    (visible : ∀ i < k', byte i ≠ some 0) : k = k' := by
  rcases Nat.lt_trichotomy k k' with less | same | more
  · exact absurd ends.1 (visible k less)
  · exact same
  · obtain ⟨c, found, nonzero⟩ := ends.2 k' more
    exact absurd (Option.some.inj (found.symm.trans zero)) nonzero

theorem Ended.exact (some : 1 ≤ max) (ended : Ended byte addr dst max out) :
    Exact byte addr max dst out := by
  cases ended with
  | @zero k w within zero copied visible =>
    have ends : Ends byte k := by
      refine ⟨zero, fun i less => ⟨w.dst i, copied.bytes i (by omega), fun isZero => ?_⟩⟩
      exact visible i less (by rw [copied.bytes i (by omega), isZero])
    refine ⟨⟨fun _ => ⟨k, within, ends⟩, fun _ => rfl⟩, .inl rfl, fun k' _ ends' i upTo => ?_,
      fun i stored => ?_, fun i => copied.untouched, k + 1, within, copied.reads,
      fun i => copied.mapped, fun i less => visible i (by omega)⟩
    · obtain rfl := ends'.unique zero visible
      exact copied.bytes i (by omega)
    · have := copied.inside stored
      omega
  | @missing n w within missing copied visible =>
    have never : ¬ ∃ k < max, Ends byte k := by
      rintro ⟨k, -, ends⟩
      rcases Nat.lt_trichotomy k n with less | same | more
      · exact visible k less ends.1
      · have zero := ends.1
        rw [same, missing] at zero
        cases zero
      · obtain ⟨c, found, -⟩ := ends.2 n more
        rw [missing] at found
        cases found
    refine ⟨iff_of_false (show ¬ (-1 : Int) = 0 by decide) never, .inr rfl,
      fun k less ends => absurd ⟨k, less, ends⟩ never, fun i stored => ?_,
      fun i => copied.untouched, n, within.le, copied.reads, fun i => copied.mapped,
      fun i less => visible i (by omega)⟩
    exact (copied.inside stored).trans within
  | @full w copied visible =>
    have never : ¬ ∃ k < max, Ends byte k := fun ⟨k, less, ends⟩ => visible k less ends.1
    have stores : (w.store (max - 1) 0).stores = List.range max ++ [max - 1] := by
      rw [← copied.stores]
      rfl
    refine ⟨iff_of_false (show ¬ (-1 : Int) = 0 by decide) never, .inr rfl,
      fun k less ends => absurd ⟨k, less, ends⟩ never, fun i inside => ?_, fun i outside => ?_,
      max, le_rfl, copied.reads, fun i => copied.mapped, fun i less => visible i (by omega)⟩
    · rw [stores, List.mem_append, List.mem_range, List.mem_singleton] at inside
      omega
    · rw [stores, List.mem_append, List.mem_range, List.mem_singleton] at outside
      show Function.update w.dst (max - 1) 0 i = dst i
      rw [Function.update_of_ne (by omega), copied.kept i (by omega)]

end Strings

/-- The byte of the user at an address: its bits 38 to 12 lead to a valid entry that has `U`, and the
others below to a byte of the page that the entry names. -/
def userByte (s : Kernel) (p : Slot) (va : Word) : Option (BitVec 8) :=
  (translate s.mem (s.procs p).pagetable va).bind fun e =>
    if e &&& U = 0 then none else some (byteAt (s.mem (pte2pa e)) (va.toNat % 4096))

/-- In a user process, `user_va2pa` leads to the bytes that its page table has for the user. -/
theorem fetched_eq {s : Kernel} {p : Slot} (reach : Reachable s) (live : s.live p)
    (user : (s.procs p).isUser = true) (va : Word) : fetched s p va = userByte s p va := by
  obtain ⟨o, inv⟩ := reach.inv
  have space := ((inv.alive p live).user user).space
  have maps := translate_of_walkLookup inv.owns space.root va
  unfold userByte
  rw [maps]
  cases walk : walkLookup s.mem (s.procs p).pagetable va with
  | none =>
    rw [fetched, userVa2pa_none walk]
    rfl
  | some pte =>
    have place : userVa2pa s.mem (s.procs p).pagetable va =
        if pte.read s.mem &&& V = 0 then 0 else if pte.read s.mem &&& U = 0 then 0
        else pte2pa (pte.read s.mem) ||| (va &&& 0xfff) := by
      rw [userVa2pa, walk]
    rw [Option.bind_some]
    by_cases valid : pte.read s.mem &&& V = 0
    · rw [if_pos valid] at place ⊢
      exact if_pos place
    rw [if_neg valid] at place ⊢
    rw [Option.bind_some]
    by_cases forUser : pte.read s.mem &&& U = 0
    · rw [if_pos forUser] at place ⊢
      exact if_pos place
    rw [if_neg forUser] at place ⊢
    -- the page is memory, so its bytes do not lie at the null pointer
    have page := space.user_page inv.owns walk valid forUser
    have found : userVa2pa s.mem (s.procs p).pagetable va ≠ 0 := by
      intro zero
      rw [place] at zero
      exact inv.owns.ne_zero (by simp [page]) (BitVec.or_eq_zero_iff.mp zero).1
    obtain ⟨pte', walk', -, -, frame⟩ := userVa2pa_page found
    obtain ⟨pte'', walk'', -, -, number⟩ := userVa2pa_eq found
    obtain rfl := Option.some.inj (walk.symm.trans walk')
    obtain rfl := Option.some.inj (walk.symm.trans walk'')
    have aligned : (pte2pa (pte.read s.mem)).toNat % 4096 = 0 := by
      rw [toNat_pte2pa]
      omega
    have offset : (userVa2pa s.mem (s.procs p).pagetable va).toNat % 4096 = va.toNat % 4096 := by
      omega
    refine (if_neg found).trans ?_
    rw [loadByte, frame, offset]

/-- `copyinstr` copies a string of the user exactly if it ends within `max` bytes: it returns 0 if
all bytes up to a zero are mapped for the user, and then `dst` has them.  It stores only within
`max` bytes, and reads neither behind the first zero nor behind the first byte that is missing. -/
theorem copyinstr_exact {s : Kernel} {p : Slot} (reach : Reachable s) (current : s.current = some p)
    (user : (s.procs p).isUser = true) (junk dst : Nat → BitVec 8) (pagetable srcva : Word)
    {max : Nat} (some : 1 ≤ max) :
    Exact (fun i => userByte s p (srcva + BitVec.ofNat 64 i)) (fun i => srcva + BitVec.ofNat 64 i)
      max dst (copyinstr s p junk dst pagetable srcva max) := by
  obtain ⟨o, inv⟩ := reach.inv
  have live : s.live p := by
    unfold Kernel.live
    rw [inv.current p current]
    decide
  have start : Copied (fun i => fetched s p (srcva + BitVec.ofNat 64 i))
      (fun i => srcva + BitVec.ofNat 64 i) dst 0 ⟨dst, [], []⟩ := .start
  have ended := copyinstrFrom_ended junk max start nofun
  rw [Nat.zero_add] at ended
  have all := funext fun i => fetched_eq reach live user (srcva + BitVec.ofNat 64 i)
  rw [all] at ended
  exact ended.exact some

theorem copyinstr_exact_program : Reachable sampleStarted ∧ sampleStarted.current = some 0 ∧
    (sampleStarted.procs 0).isUser = true ∧ 1 ≤ 128 ∧
    Exact (fun i => userByte sampleStarted 0 (USER_TEXT_START + BitVec.ofNat 64 i))
      (fun i => USER_TEXT_START + BitVec.ofNat 64 i) 128 (fun _ => 0)
      (copyinstr sampleStarted 0 (fun _ => 0) (fun _ => 0) (sampleStarted.procs 0).pagetable
        USER_TEXT_START 128) := by
  have reach : Reachable sampleStarted := ⟨_, sampleBoot_booted, sampleStarted_run⟩
  have current : sampleStarted.current = some 0 := by decide +kernel
  have user : (sampleStarted.procs 0).isUser = true := by decide +kernel
  exact ⟨reach, current, user, by decide, copyinstr_exact reach current user _ _ _ _ (by decide)⟩

end Xv6Lab.Vm.UserString

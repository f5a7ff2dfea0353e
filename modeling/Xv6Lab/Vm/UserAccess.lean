import Xv6Lab.Vm.Faults

/-! The addresses that the kernel accepts from user processes: `check_user_addr`, the walk of
`walk_lookup` at addresses that the hardware rejects, and the copies between the kernel and user
memory. -/

namespace Xv6Lab.Vm

open Rv64 Sv39 Exec Relation
open Trap (PGSIZE TRAMPOLINE TRAPFRAME)

/-! ### `memlayout.h` -/

def USER_HEAP_START : Word := 0x400000
def USER_STACK_TOP : Word := MAXVA - PGSIZE * 2
def USER_STACK_BOTTOM : Word := USER_STACK_TOP - USER_STACK_SIZE
def USER_HEAP_MAX : Word := USER_STACK_BOTTOM

/-- `IS_USER_ADDR` -/
def isUserAddr (va : Word) : Bool := USER_TEXT_START ≤ va && va < MAXVA

/-- `IS_USER_STACK` -/
def isUserStack (va : Word) : Bool := USER_STACK_BOTTOM ≤ va && va < USER_STACK_TOP

/-- `IS_USER_HEAP` -/
def isUserHeap (va : Word) : Bool := USER_HEAP_START ≤ va && va < USER_HEAP_MAX

/-! ### `vm.c` -/

/-- `check_user_addr`, which does not look at `write`. -/
def checkUserAddr (addr size : Word) (_write : Int) : Int :=
  if !isUserAddr addr || !isUserAddr (addr + size - 1) then -1
  else if isUserStack addr then
    if !isUserStack (addr + size - 1) then -1 else 0
  else if isUserHeap addr then
    if !isUserHeap (addr + size - 1) then -1 else 0
  else if addr < USER_HEAP_START then
    if USER_HEAP_START < addr + size then -1 else 0
  else
    -1

/-- `copyout` from byte `i` on, with `left` bytes to go: what it returns, and how many bytes it has
stored. -/
def copyoutFrom (pt dstva : Word) (src : Nat → BitVec 8) : (left i : Nat) → K (Int × Nat)
  | 0, i => pure (0, i)
  | left + 1, i => do
    let s ← get
    let pa := userVa2pa s.mem pt (dstva + BitVec.ofNat 64 i)
    if pa = 0 then
      pure (-1, i)
    else
      storeByte pa (src i)
      copyoutFrom pt dstva src left (i + 1)

/-- `copyout`, with the number of bytes that it has stored. -/
def copyout (pt dstva : Word) (src : Nat → BitVec 8) (len : Nat) : K (Int × Nat) :=
  copyoutFrom pt dstva src len 0

/-- `copyinstr` from byte `i` on, with `left` of `max` bytes to go; `max` is positive. -/
def copyinstrFrom (mem : Mem) (pt srcva : Word) (max : Nat) : (left i : Nat) →
    (dst : Nat → BitVec 8) → Int × (Nat → BitVec 8)
  | 0, _, dst => (-1, Function.update dst (max - 1) 0)
  | left + 1, i, dst =>
    let (r, c) := copyin mem pt (fun _ => dst i) (srcva + BitVec.ofNat 64 i) 1
    if r < 0 then (-1, dst)
    else
      let dst := Function.update dst i (c 0)
      if c 0 = 0 then (0, dst) else copyinstrFrom mem pt srcva max left (i + 1) dst

/-- `copyinstr` -/
def copyinstr (mem : Mem) (pt : Word) (dst : Nat → BitVec 8) (srcva : Word) (max : Nat) :
    Int × (Nat → BitVec 8) :=
  copyinstrFrom mem pt srcva max max 0 dst

/-! ### Ranges of addresses -/

/-- The regions of user memory. -/
inductive Region
  | text | heap | stack
  deriving DecidableEq, Repr

/-- The first address of a region. -/
def Region.start : Region → Word
  | .text => USER_TEXT_START
  | .heap => USER_HEAP_START
  | .stack => USER_STACK_BOTTOM

/-- The first address past a region. -/
def Region.limit : Region → Word
  | .text => USER_HEAP_START
  | .heap => USER_HEAP_MAX
  | .stack => USER_STACK_TOP

/-- The region has the address. -/
def Region.Has (r : Region) (va : Word) : Prop := r.start ≤ va ∧ va < r.limit

/-- The range does not wrap, and exactly one region has all of its addresses. -/
def InOneRegion (addr size : Word) : Prop :=
  addr.toNat + size.toNat < 2 ^ 64 ∧
    ∃! r : Region, ∀ i < size.toNat, r.Has (addr + BitVec.ofNat 64 i)

section Ranges

variable {addr size va : Word} {r r' : Region}

theorem Region.has_iff : r.Has va ↔ r.start.toNat ≤ va.toNat ∧ va.toNat < r.limit.toNat := Iff.rfl

/-- The bounds as numbers. -/
theorem Region.bounds : (Region.text.start.toNat = 0x10000 ∧ Region.text.limit.toNat = 0x400000) ∧
    (Region.heap.start.toNat = 0x400000 ∧ Region.heap.limit.toNat = 0x7fffffe000 - 0x20000) ∧
    (Region.stack.start.toNat = 0x7fffffe000 - 0x20000 ∧ Region.stack.limit.toNat = 0x7fffffe000) := by
  decide

/-- The regions do not overlap. -/
theorem Region.Has.unique (has : r.Has va) (has' : r'.Has va) : r = r' := by
  rw [Region.has_iff] at has has'
  have bounds := Region.bounds
  cases r <;> cases r' <;> first | rfl | omega

/-- Above the middle of the address space there is no user memory. -/
theorem Region.Has.small (has : r.Has va) : va.toNat < 2 ^ 39 := by
  rw [Region.has_iff] at has
  have bounds := Region.bounds
  cases r <;> omega

theorem isUserStack_iff : isUserStack va = true ↔ Region.stack.Has va := by
  rw [isUserStack, Bool.and_eq_true, decide_eq_true_eq, decide_eq_true_eq]
  exact Iff.rfl

theorem isUserHeap_iff : isUserHeap va = true ↔ Region.heap.Has va := by
  rw [isUserHeap, Bool.and_eq_true, decide_eq_true_eq, decide_eq_true_eq]
  exact Iff.rfl

theorem isUserAddr_iff : isUserAddr va = true ↔ 0x10000 ≤ va.toNat ∧ va.toNat < 2 ^ 39 := by
  rw [isUserAddr, Bool.and_eq_true, decide_eq_true_eq, decide_eq_true_eq]
  exact Iff.rfl

/-- Every region is user memory. -/
theorem Region.Has.user (has : r.Has va) : isUserAddr va = true := by
  have small := has.small
  rw [Region.has_iff] at has
  have bounds := Region.bounds
  refine isUserAddr_iff.mpr ⟨?_, small⟩
  cases r <;> omega

/-- `check_user_addr` asks whether one region has both ends of the range. -/
theorem checkUserAddr_eq_zero {w : Int} : checkUserAddr addr size w = 0 ↔
    ∃ r : Region, r.Has addr ∧ r.Has (addr + size - 1) := by
  have next : addr + size = addr + size - 1 + 1 := (BitVec.sub_add_cancel _ _).symm
  unfold checkUserAddr
  rw [next]
  generalize addr + size - 1 = last
  rw [BitVec.add_sub_cancel]
  have bounds := Region.bounds
  have limit := last.isLt
  have past : (last + 1).toNat = (last.toNat + 1) % 2 ^ 64 := by
    rw [BitVec.toNat_add]
    rfl
  have heap : USER_HEAP_START.toNat = 0x400000 := by decide
  constructor
  · intro accepted
    split at accepted
    · cases accepted
    next user =>
    rw [Bool.or_eq_true, Bool.not_eq_true', Bool.not_eq_true', not_or, Bool.not_eq_false,
      Bool.not_eq_false, isUserAddr_iff, isUserAddr_iff] at user
    split at accepted
    · next stack =>
      split at accepted
      · cases accepted
      · next inside =>
        rw [Bool.not_eq_true', Bool.not_eq_false] at inside
        exact ⟨.stack, isUserStack_iff.mp stack, isUserStack_iff.mp inside⟩
    split at accepted
    · next heap =>
      split at accepted
      · cases accepted
      · next inside =>
        rw [Bool.not_eq_true', Bool.not_eq_false] at inside
        exact ⟨.heap, isUserHeap_iff.mp heap, isUserHeap_iff.mp inside⟩
    split at accepted
    · next low =>
      split at accepted
      · cases accepted
      · next inside =>
        rw [BitVec.lt_def] at low inside
        refine ⟨.text, Region.has_iff.mpr ?_, Region.has_iff.mpr ?_⟩ <;> omega
    · cases accepted
  · rintro ⟨r, first, second⟩
    rw [if_neg (by rw [first.user, second.user]; decide)]
    cases r with
    | stack =>
      rw [if_pos (isUserStack_iff.mpr first), isUserStack_iff.mpr second]
      rfl
    | heap =>
      have other : ¬ isUserStack addr = true := fun stack =>
        absurd (first.unique (isUserStack_iff.mp stack)) (by decide)
      rw [if_neg other, if_pos (isUserHeap_iff.mpr first), isUserHeap_iff.mpr second]
      rfl
    | text =>
      have other : ¬ isUserStack addr = true := fun stack =>
        absurd (first.unique (isUserStack_iff.mp stack)) (by decide)
      have other' : ¬ isUserHeap addr = true := fun heap =>
        absurd (first.unique (isUserHeap_iff.mp heap)) (by decide)
      rw [Region.has_iff] at first second
      rw [if_neg other, if_neg other', if_pos (by rw [BitVec.lt_def]; omega),
        if_neg (by rw [BitVec.lt_def]; omega)]

/-- A range that does not wrap lies between its ends. -/
theorem InOneRegion.of_ends (some : 1 ≤ size.toNat) (first : r.Has addr)
    (last : r.Has (addr + size - 1)) (order : addr ≤ addr + size - 1) : InOneRegion addr size := by
  have small := last.small
  have limit := addr.isLt
  have limit' := size.isLt
  have ends : (addr + size - 1).toNat = (addr.toNat + size.toNat + (2 ^ 64 - 1)) % 2 ^ 64 := by
    rw [BitVec.toNat_sub, BitVec.toNat_add]
    have one : (1 : Word).toNat = 1 := rfl
    omega
  rw [BitVec.le_def] at order
  have sum : addr.toNat + size.toNat < 2 ^ 64 := by omega
  refine ⟨sum, r, fun i less => ?_, fun r' all => ?_⟩
  · have at' : (addr + BitVec.ofNat 64 i).toNat = addr.toNat + i := by
      rw [BitVec.toNat_add, BitVec.toNat_ofNat]
      omega
    rw [Region.has_iff] at first last ⊢
    omega
  · have here := all 0 some
    rw [BitVec.add_zero] at here
    exact Region.Has.unique here first

end Ranges

/-- The ranges that `check_user_addr` accepts lie in one region, except those that wrap and still end
in the region where they start. -/
theorem check_user_addr_sound_iff (addr size : Word) (write : Int) (some : 1 ≤ size.toNat) :
    (checkUserAddr addr size write = 0 → InOneRegion addr size) ↔
      ¬ ∃ r : Region, r.Has addr ∧ r.Has (addr + size - 1) ∧ addr + size - 1 < addr := by
  rw [checkUserAddr_eq_zero]
  constructor
  · rintro sound ⟨r, first, last, wraps⟩
    obtain ⟨sum, -⟩ := sound ⟨r, first, last⟩
    have limit := addr.isLt
    have one : (1 : Word).toNat = 1 := rfl
    rw [BitVec.lt_def, BitVec.toNat_sub, BitVec.toNat_add] at wraps
    omega
  · rintro never ⟨r, first, last⟩
    refine .of_ends some first last (BitVec.not_lt.mp fun wraps => ?_)
    exact never ⟨r, first, last, wraps⟩

theorem check_user_addr_sound_iff_page :
    (checkUserAddr 0x400000 0x1000 1 = 0 → InOneRegion 0x400000 0x1000) ↔
      ¬ ∃ r : Region, r.Has 0x400000 ∧ r.Has (0x400000 + 0x1000 - 1) ∧
        (0x400000 : Word) + 0x1000 - 1 < 0x400000 :=
  check_user_addr_sound_iff 0x400000 0x1000 1 (by decide)

/-- A count of -4 passes for a range in the heap. -/
theorem check_user_addr_wraps : checkUserAddr 0x400008 (BitVec.ofInt 64 (-4)) 1 = 0 ∧
    ¬ InOneRegion 0x400008 (BitVec.ofInt 64 (-4)) := by
  refine ⟨by decide, fun inside => ?_⟩
  have sum := inside.1
  exact absurd sum (by decide)

/-! ### Canonical addresses -/

/-- The tables for the address are there, and neither lies at address 0. -/
def Reaches (mem : Mem) (pt va : Word) : Prop :=
  ∃ pg pg', child mem pt (index 2 va) = some pg ∧ pg ≠ 0 ∧
    child mem pg (index 1 va) = some pg' ∧ pg' ≠ 0

/-- The kernel's own translation fails at the address, and so do the copies. -/
structure Rejected (s : Kernel) (pt va : Word) : Prop where
  lookup : walkLookup s.mem pt va = none
  va2pa : userVa2pa s.mem pt va = 0
  copyin : ∀ dst maxlen, 0 < maxlen → (copyin s.mem pt dst va maxlen).1 = -1
  copyout : ∀ src len, 0 < len → copyout pt va src len s = .ok (-1, 0) s
  copyinstr : ∀ dst max, 0 < max → (copyinstr s.mem pt dst va max).1 = -1

section Walks

variable {mem : Mem} {s : Kernel} {pt pg va va' : Word} {i : Index} {p p' : PteRef}

/-- `walk_lookup` finds an entry wherever the tables for it are. -/
theorem walkLookup_eq_none : walkLookup mem pt va = none ↔ ¬ Reaches mem pt va := by
  rw [Option.eq_none_iff_forall_ne_some]
  constructor
  · rintro none' ⟨pg, pg', first, some, second, some'⟩
    exact none' ⟨pg', index 0 va⟩ (walkLookup_eq_some.mpr ⟨pg, first, some, second, some', rfl⟩)
  · rintro missing p found
    obtain ⟨pg, first, some, second, some', -⟩ := walkLookup_eq_some.mp found
    exact missing ⟨pg, p.table, first, some, second, some'⟩

theorem userVa2pa_none (none' : walkLookup mem pt va = none) : userVa2pa mem pt va = 0 := by
  rw [userVa2pa, none']

theorem copyin_none (zero : userVa2pa mem pt va = 0) (dst : Nat → BitVec 8) {maxlen : Nat}
    (some : 0 < maxlen) : (copyin mem pt dst va maxlen).1 = -1 := by
  obtain ⟨left, rfl⟩ := Nat.exists_eq_succ_of_ne_zero some.ne'
  unfold copyin copyinFrom
  rw [BitVec.add_zero, if_pos zero]

theorem copyout_none (zero : userVa2pa s.mem pt va = 0) (src : Nat → BitVec 8) {len : Nat}
    (some : 0 < len) : copyout pt va src len s = .ok (-1, 0) s := by
  obtain ⟨left, rfl⟩ := Nat.exists_eq_succ_of_ne_zero some.ne'
  unfold copyout copyoutFrom
  rw [bind_get, BitVec.add_zero, if_pos zero]
  rfl

theorem copyinstr_none (zero : userVa2pa mem pt va = 0) (dst : Nat → BitVec 8) {max : Nat}
    (some : 0 < max) : (copyinstr mem pt dst va max).1 = -1 := by
  obtain ⟨left, rfl⟩ := Nat.exists_eq_succ_of_ne_zero some.ne'
  have failed := copyin_none zero (fun _ => dst 0) Nat.one_pos
  unfold copyinstr copyinstrFrom
  rw [BitVec.add_zero]
  generalize copyin mem pt (fun _ => dst 0) va 1 = out at failed ⊢
  obtain ⟨r, c⟩ := out
  cases failed
  rfl

theorem rejected_iff : Rejected s pt va ↔ ¬ Reaches s.mem pt va := by
  rw [← walkLookup_eq_none]
  refine ⟨Rejected.lookup, fun none' => ?_⟩
  have zero := userVa2pa_none none'
  exact ⟨none', zero, fun dst _ some => copyin_none zero dst some,
    fun src _ some => copyout_none zero src some, fun dst _ some => copyinstr_none zero dst some⟩

/-- In a tree of tables, `walk_lookup` ends at one entry for two addresses exactly if these have the
same indices. -/
theorem walkLookup_same {label : Label} (tree : Labelled mem label) (root : label pt = some [])
    (found : walkLookup mem pt va = some p) (found' : walkLookup mem pt va' = some p') :
    p = p' ↔ path va = path va' := by
  obtain ⟨pg, first, -, second, -, idx⟩ := walkLookup_eq_some.mp found
  obtain ⟨pg', first', -, second', -, idx'⟩ := walkLookup_eq_some.mp found'
  constructor
  · rintro rfl
    have one := tree pt [] _ _ root (by simp) first
    have one' := tree pt [] _ _ root (by simp) first'
    have two := tree pg _ _ _ one (by simp) second
    have two' := tree pg' _ _ _ one' (by simp) second'
    rw [two] at two'
    simp only [List.nil_append, List.cons_append, Option.some.injEq, List.cons.injEq, and_true] at two'
    rw [path, path, two'.1, two'.2, ← idx, idx']
  · intro same
    simp only [path, List.cons.injEq, and_true] at same
    obtain ⟨high, middle, low⟩ := same
    rw [high, first'] at first
    cases first
    rw [middle, second'] at second
    obtain ⟨table, i⟩ := p
    obtain ⟨table', i'⟩ := p'
    cases second
    rw [show i = i' from idx.trans (low.trans idx'.symm)]

/-- The addresses that the hardware accepts: bits 63 to 39 repeat bit 38. -/
theorem canonical_iff : Canonical va ↔ ∀ k, 39 ≤ k → k < 64 → va.getLsbD k = va.getLsbD 38 := by
  -- the number, or its complement, has no bit from bit 38 on
  have small : ∀ w : Word, w.toNat < 2 ^ 38 ↔ ∀ k, 38 ≤ k → k < 64 → w.getLsbD k = false := by
    intro w
    constructor
    · intro less k above _
      exact Nat.testBit_lt_two_pow (less.trans_le (Nat.pow_le_pow_right (by decide) above))
    · intro clear
      refine Nat.lt_pow_two_of_testBit _ fun k above => ?_
      by_cases inside : k < 64
      · exact clear k above inside
      · exact BitVec.getLsbD_of_ge w k (by omega)
  have complement : 2 ^ 64 - 2 ^ 38 ≤ va.toNat ↔ (~~~va).toNat < 2 ^ 38 := by
    have limit := va.isLt
    rw [BitVec.toNat_not]
    omega
  rw [Canonical, complement, small, small]
  have flip : ∀ k < 64, ((~~~va).getLsbD k = false ↔ va.getLsbD k = true) := by
    intro k inside
    rw [BitVec.getLsbD_not, decide_eq_true inside, Bool.true_and, Bool.not_eq_false']
  constructor
  · rintro (clear | set) k above inside
    · rw [clear k (by omega) inside, clear 38 (by decide) (by decide)]
    · rw [(flip k inside).mp (set k (by omega) inside),
        (flip 38 (by decide)).mp (set 38 (by decide) (by decide))]
  · intro same
    have all : ∀ k, 38 ≤ k → k < 64 → va.getLsbD k = va.getLsbD 38 := by
      intro k above inside
      by_cases this : k = 38
      · rw [this]
      · exact same k (by omega) inside
    cases top : va.getLsbD 38 with
    | false => exact .inl fun k above inside => (all k above inside).trans top
    | true => exact .inr fun k above inside => (flip k inside).mpr ((all k above inside).trans top)

end Walks

/-- Outside the canonical addresses the kernel's own translation fails exactly where the tables for
the address are missing; and two addresses in different pages lead to different entries exactly if
they differ in an index, as canonical ones do. -/
theorem walk_lookup_rejects_iff (s : Kernel) (pt : Word) :
    (∀ va, ¬ Canonical va → (Rejected s pt va ↔ ¬ Reaches s.mem pt va)) ∧
    ∀ label, Labelled s.mem label → label pt = some [] → ∀ va va' p p',
      walkLookup s.mem pt va = some p → walkLookup s.mem pt va' = some p' →
      va.toNat / 4096 ≠ va'.toNat / 4096 →
        (p ≠ p' ↔ path va ≠ path va') ∧ (Canonical va → Canonical va' → p ≠ p') := by
  refine ⟨fun va _ => rejected_iff, fun label tree root va va' p p' found found' apart => ?_⟩
  have same := walkLookup_same tree root found found'
  refine ⟨not_congr same, fun canonical canonical' is => ?_⟩
  exact apart ((path_eq_iff_canonical canonical canonical').mp (same.mp is))

/-- The address `0x10000`, where programs start, with bit 39 set. -/
def farText : Word := 0x8000010000

theorem farText_not_canonical : ¬ Canonical farText := by
  unfold Canonical
  decide

theorem walk_lookup_rejects_iff_far :
    Rejected sampleStarted (sampleStarted.procs 0).pagetable farText ↔
      ¬ Reaches sampleStarted.mem (sampleStarted.procs 0).pagetable farText :=
  (walk_lookup_rejects_iff sampleStarted (sampleStarted.procs 0).pagetable).1 farText
    farText_not_canonical

/-- The kernel takes the address for that of the program. -/
theorem far_address_accepted : Reachable sampleStarted ∧ ¬ Canonical farText ∧
    userVa2pa sampleStarted.mem (sampleStarted.procs 0).pagetable farText ≠ 0 ∧
    (walkLookup sampleStarted.mem (sampleStarted.procs 0).pagetable farText).map
        (fun pte => (pte.table, pte.idx)) =
      (walkLookup sampleStarted.mem (sampleStarted.procs 0).pagetable USER_TEXT_START).map
        fun pte => (pte.table, pte.idx) :=
  ⟨⟨_, sampleBoot_booted, sampleStarted_run⟩, farText_not_canonical, by decide +kernel,
    by decide +kernel⟩

/-! ### Copies to the user -/

/-- Memory after `storeByte`. -/
def putAt (mem : Mem) (pa : Word) (b : BitVec 8) : Mem :=
  let page : Word := BitVec.ofNat 64 (pa.toNat / 4096 * 4096)
  let off : Word := BitVec.ofNat 64 (pa.toNat % 4096 / 8 * 8)
  mem.store page off (putByte (mem page off) (pa.toNat % 8) b)

/-- Memory with the first `n` bytes of the range in place, each where the tables as they then are
lead to. -/
def filled (mem : Mem) (pt dstva : Word) (src : Nat → BitVec 8) : (n : Nat) → Mem
  | 0 => mem
  | n + 1 =>
    let mem := filled mem pt dstva src n
    putAt mem (userVa2pa mem pt (dstva + BitVec.ofNat 64 n)) (src n)

/-- The page of the address is valid, the user's, and writable. -/
def Writable (mem : Mem) (pt va : Word) : Prop :=
  ∃ pte, walkLookup mem pt va = some pte ∧ pte.read mem &&& V ≠ 0 ∧ pte.read mem &&& U ≠ 0 ∧
    pte.read mem &&& W ≠ 0

/-- No page of the user is one of the tables. -/
def Separate (mem : Mem) (pt : Word) : Prop :=
  ∀ va pte, walkLookup mem pt va = some pte → pte.read mem &&& V ≠ 0 → pte.read mem &&& U ≠ 0 →
    ∀ ds pg, ds.length ≤ 2 → node mem pt ds = some pg → pte2pa (pte.read mem) ≠ pg

/-- Every byte that `copyout` stores lies in a page that the user could write to when it is stored,
and `copyout` fails if some byte of the range does not. -/
def Respects (s : Kernel) (pt dstva : Word) (src : Nat → BitVec 8) (len : Nat) : Prop :=
  let writable (i : Nat) : Prop :=
    Writable (filled s.mem pt dstva src i) pt (dstva + BitVec.ofNat 64 i)
  wp (copyout pt dstva src len)
    (fun (r, n) _ => (∀ i < n, writable i) ∧ ((∃ i < len, ¬ writable i) → r = -1))
    (fun _ _ => False) s

section Copies

variable {s t : Kernel} {pt va : Word}

/-- A byte of memory after another one is stored. -/
theorem loadByte_putAt (mem : Mem) (pa pa' : Word) (b : BitVec 8) :
    loadByte (Vm.putAt mem pa b) pa' = if pa' = pa then b else loadByte mem pa' := by
  have limit := pa.isLt
  have limit' := pa'.isLt
  unfold loadByte Vm.putAt
  by_cases samePage : pa'.toNat / 4096 = pa.toNat / 4096
  · have word : pa.toNat % 8 = pa.toNat % 4096 % 8 := by omega
    have same : pa'.toNat % 4096 = pa.toNat % 4096 ↔ pa' = pa := by
      rw [← BitVec.toNat_inj]
      omega
    rw [samePage, Mem.store, Function.update_self, word,
      byteAt_putByte _ (Nat.mod_lt _ (by decide)) (Nat.mod_lt _ (by decide))]
    exact if_congr same rfl rfl
  · have apart : (BitVec.ofNat 64 (pa'.toNat / 4096 * 4096) : Word) ≠
        BitVec.ofNat 64 (pa.toNat / 4096 * 4096) := by
      intro same
      have eq := congrArg BitVec.toNat same
      rw [BitVec.toNat_ofNat, BitVec.toNat_ofNat] at eq
      omega
    have other : pa' ≠ pa := fun same => samePage (by rw [same])
    rw [if_neg other, Mem.store, Function.update_of_ne apart]

/-- How far `copyout` gets: to the first byte that `user_va2pa` does not find. -/
theorem copyoutFrom_wp {mem : Mem} (dstva : Word) (src : Nat → BitVec 8) (left i : Nat)
    (here : s.mem = filled mem pt dstva src i) : wp (copyoutFrom pt dstva src left i)
      (fun (r, n) t => t.mem = filled mem pt dstva src n ∧ i ≤ n ∧ n ≤ i + left ∧
        (∀ j, i ≤ j → j < n →
          userVa2pa (filled mem pt dstva src j) pt (dstva + BitVec.ofNat 64 j) ≠ 0) ∧
        (r = 0 ∧ n = i + left ∨ r = -1 ∧ n < i + left ∧
          userVa2pa (filled mem pt dstva src n) pt (dstva + BitVec.ofNat 64 n) = 0))
      (fun _ _ => False) s := by
  induction left generalizing i s with
  | zero =>
    refine ⟨here, Nat.le_refl _, Nat.le_refl _, fun j above below => ?_, .inl ⟨rfl, rfl⟩⟩
    exact absurd below (Nat.not_lt.mpr above)
  | succ left ih =>
    unfold copyoutFrom
    rw [wp_bind, wp_get]
    dsimp only
    rw [here]
    split
    · next zero =>
      refine ⟨here, Nat.le_refl _, Nat.le_add_right _ _, fun j above below => ?_, .inr ⟨rfl, ?_, zero⟩⟩
      · exact absurd below (Nat.not_lt.mpr above)
      · omega
    · next found =>
      rw [wp_bind]
      show wp (copyoutFrom pt dstva src left (i + 1)) _ _ (s.setMem (putAt s.mem _ (src i)))
      have next : (s.setMem (putAt s.mem (userVa2pa (filled mem pt dstva src i) pt
          (dstva + BitVec.ofNat 64 i)) (src i))).mem = filled mem pt dstva src (i + 1) := by
        rw [setMem_mem, here, filled]
      apply wp_conseq (ih (i + 1) next)
      rintro ⟨r, n⟩ t ⟨after, lower, upper, all, ends⟩
      refine ⟨after, by omega, by omega, fun j above below => ?_, ?_⟩
      · by_cases this : j = i
        · rw [this]
          exact found
        · exact all j (by omega) below
      · rcases ends with ⟨ok, whole⟩ | ⟨failed, less, zero⟩
        · exact .inl ⟨ok, by omega⟩
        · exact .inr ⟨failed, by omega, zero⟩

theorem TableKept.writable (kept : TableKept pt s t) (va : Word) :
    Writable t.mem pt va ↔ Writable s.mem pt va := by
  unfold Writable
  rw [kept.walkLookup]
  refine exists_congr fun pte => and_congr_right fun found => ?_
  rw [kept.read found]

theorem TableKept.separate (kept : TableKept pt s t) (separate : Separate s.mem pt) :
    Separate t.mem pt := by
  intro va pte found valid user ds pg short walk
  rw [kept.walkLookup] at found
  rw [kept.read found] at valid user ⊢
  rw [kept.nodes (by omega)] at walk
  exact separate va pte found valid user ds pg short walk

/-- Where `user_va2pa` finds an address. -/
theorem userVa2pa_eq (found : userVa2pa s.mem pt va ≠ 0) : ∃ pte, walkLookup s.mem pt va = some pte ∧
    pte.read s.mem &&& V ≠ 0 ∧ pte.read s.mem &&& U ≠ 0 ∧
    (userVa2pa s.mem pt va).toNat = (pte2pa (pte.read s.mem)).toNat + va.toNat % 4096 := by
  unfold userVa2pa at found ⊢
  cases walk : walkLookup s.mem pt va with
  | none =>
    rw [walk] at found
    exact absurd rfl found
  | some pte =>
    rw [walk] at found
    dsimp only at found ⊢
    by_cases valid : pte.read s.mem &&& V = 0
    · rw [if_pos valid] at found
      exact absurd rfl found
    rw [if_neg valid] at found ⊢
    by_cases user : pte.read s.mem &&& U = 0
    · rw [if_pos user] at found
      exact absurd rfl found
    rw [if_neg user]
    refine ⟨pte, rfl, valid, user, ?_⟩
    have aligned : (pte2pa (pte.read s.mem)).toNat % 4096 = 0 := by
      rw [toNat_pte2pa]
      omega
    have offset : (va &&& 0xfff).toNat = va.toNat % 2 ^ 12 := by
      rw [BitVec.toNat_and]
      exact Nat.and_two_pow_sub_one_eq_mod _ 12
    have small : va.toNat % 2 ^ 12 < 2 ^ 12 := Nat.mod_lt _ (by decide)
    -- the offset within the page does not reach into the frame's number
    have sum := Nat.two_pow_add_eq_or_of_lt small ((pte2pa (pte.read s.mem)).toNat / 4096)
    rw [show 2 ^ 12 * ((pte2pa (pte.read s.mem)).toNat / 4096) = (pte2pa (pte.read s.mem)).toNat by
      omega] at sum
    rw [BitVec.toNat_or, offset, ← sum]
    omega

/-- The page in which `user_va2pa` finds an address. -/
theorem userVa2pa_page (found : userVa2pa s.mem pt va ≠ 0) : ∃ pte, walkLookup s.mem pt va = some pte ∧
    pte.read s.mem &&& V ≠ 0 ∧ pte.read s.mem &&& U ≠ 0 ∧
    (BitVec.ofNat 64 ((userVa2pa s.mem pt va).toNat / 4096 * 4096) : Word) =
      pte2pa (pte.read s.mem) := by
  obtain ⟨pte, walk, valid, user, place⟩ := userVa2pa_eq found
  refine ⟨pte, walk, valid, user, BitVec.eq_of_toNat_eq ?_⟩
  have aligned : (pte2pa (pte.read s.mem)).toNat % 4096 = 0 := by
    rw [toNat_pte2pa]
    omega
  have limit := (pte2pa (pte.read s.mem)).isLt
  rw [BitVec.toNat_ofNat, place]
  omega

/-- A byte that `user_va2pa` finds is stored outside the tables. -/
theorem Separate.putAt (separate : Separate s.mem pt) (found : userVa2pa s.mem pt va ≠ 0)
    (b : BitVec 8) : TableKept pt s (s.setMem (putAt s.mem (userVa2pa s.mem pt va) b)) := by
  obtain ⟨pte, walk, valid, user, page⟩ := userVa2pa_page found
  intro ds pg short walk'
  rw [setMem_mem, Vm.putAt, page]
  have apart := separate va pte walk valid user ds pg short walk'
  exact funext fun off => Mem.store_page _ _ _ _ apart.symm

/-- As long as the bytes are found, the tables stay. -/
theorem Separate.filled (separate : Separate s.mem pt) (dstva : Word) (src : Nat → BitVec 8)
    (n : Nat) (found : ∀ i < n, userVa2pa s.mem pt (dstva + BitVec.ofNat 64 i) ≠ 0) :
    TableKept pt s (s.setMem (filled s.mem pt dstva src n)) := by
  induction n with
  | zero => exact fun _ _ _ _ => rfl
  | succ n ih =>
    have kept := ih fun i less => found i (by omega)
    have next := (kept.separate separate).putAt
      (by rw [kept.userVa2pa]; exact found n (Nat.lt_succ_self n)) (src n)
    intro ds pg short walk
    have walk' : Sv39.node (s.setMem (Vm.filled s.mem pt dstva src n)).mem pt ds = some pg := by
      rw [kept.nodes (by omega)]
      exact walk
    exact (next ds pg short walk').trans (kept ds pg short walk)

theorem Separate.found_iff (separate : Separate s.mem pt) (dstva : Word) (src : Nat → BitVec 8)
    (n : Nat) : (∀ i < n, userVa2pa (Vm.filled s.mem pt dstva src i) pt
        (dstva + BitVec.ofNat 64 i) ≠ 0) ↔
      ∀ i < n, userVa2pa s.mem pt (dstva + BitVec.ofNat 64 i) ≠ 0 := by
  induction n with
  | zero => exact iff_of_true nofun nofun
  | succ n ih =>
    rw [Nat.forall_lt_succ_right, Nat.forall_lt_succ_right, ih]
    refine and_congr_right fun found => ?_
    rw [← (separate.filled dstva src n found).userVa2pa]
    exact Iff.rfl

/-- A page of the user is owned under the path of its addresses. -/
theorem Space.user_page {o : Owners} {p : Slot} {pte : PteRef} (owns : Owns s o)
    (space : Space s.mem o p pt) (walk : walkLookup s.mem pt va = some pte)
    (valid : pte.read s.mem &&& V ≠ 0) (user : pte.read s.mem &&& U ≠ 0) :
    o (pte2pa (pte.read s.mem)) = .frame (some p) (path va) := by
  have maps : translate s.mem pt va = some (pte.read s.mem) := by
    rw [translate_of_walkLookup owns space.root, walk, Option.bind_some, if_neg valid]
  by_cases low : Low va
  · exact (space.low va _ maps low).1
  · exact absurd (space.high va _ maps low).1 user

/-- The tables of a user process are apart from its pages. -/
theorem Inv.separate {o : Owners} {p : Slot} (inv : Inv s o) (live : s.live p)
    (user : (s.procs p).isUser = true) : Separate s.mem (s.procs p).pagetable := by
  have space := ((inv.alive p live).user user).space
  intro va pte found valid user ds pg short walk is
  have table := label_eq.mp ((inv.owns.tree (some p)).node (label_eq.mpr space.root)
    (show 0 + ds.length ≤ 2 by omega) walk)
  have frame := space.user_page inv.owns found valid user
  rw [is, table] at frame
  cases frame

theorem separate_of_reachable {p : Slot} (reach : Reachable s) (live : s.live p)
    (user : (s.procs p).isUser = true) : Separate s.mem (s.procs p).pagetable := by
  obtain ⟨o, inv⟩ := reach.inv
  exact inv.separate live user

/-- In a user process, no byte of memory has two addresses that the hardware accepts. -/
theorem userVa2pa_injective {p : Slot} {va' : Word} (reach : Reachable s) (live : s.live p)
    (user : (s.procs p).isUser = true) (canonical : Canonical va) (canonical' : Canonical va')
    (found : userVa2pa s.mem (s.procs p).pagetable va ≠ 0)
    (same : userVa2pa s.mem (s.procs p).pagetable va = userVa2pa s.mem (s.procs p).pagetable va') :
    va = va' := by
  obtain ⟨o, inv⟩ := reach.inv
  have space := ((inv.alive p live).user user).space
  obtain ⟨pte, walk, valid, user, place⟩ := userVa2pa_eq found
  obtain ⟨pte', walk', valid', user', place'⟩ := userVa2pa_eq (same ▸ found)
  have aligned : (pte2pa (pte.read s.mem)).toNat % 4096 = 0 := by
    rw [toNat_pte2pa]
    omega
  have aligned' : (pte2pa (pte'.read s.mem)).toNat % 4096 = 0 := by
    rw [toNat_pte2pa]
    omega
  rw [same, place'] at place
  have page : pte2pa (pte.read s.mem) = pte2pa (pte'.read s.mem) :=
    BitVec.eq_of_toNat_eq (by omega)
  have frame := space.user_page inv.owns walk valid user
  rw [page, space.user_page inv.owns walk' valid' user', Owner.frame.injEq] at frame
  have pages := (path_eq_iff_canonical canonical canonical').mp frame.2.symm
  exact BitVec.eq_of_toNat_eq (by omega)

theorem respects_iff (s : Kernel) (pt dstva : Word) (src : Nat → BitVec 8) (len : Nat) :
    Respects s pt dstva src len ↔ ∀ i < len,
      (∀ j ≤ i, userVa2pa (Vm.filled s.mem pt dstva src j) pt (dstva + BitVec.ofNat 64 j) ≠ 0) →
        Writable (Vm.filled s.mem pt dstva src i) pt (dstva + BitVec.ofNat 64 i) := by
  apply wp_decides
  have ends : wp (copyoutFrom pt dstva src len 0) _ _ s := copyoutFrom_wp dstva src len 0 rfl
  refine wp_mono ends ?_ fun _ _ never => never.elim
  rintro ⟨r, n⟩ t ⟨-, -, upper, all, how⟩
  constructor
  · rintro ⟨writable, -⟩ i less before
    apply writable i
    rcases how with ⟨-, whole⟩ | ⟨-, -, zero⟩
    · omega
    · by_contra past
      exact before n (by omega) zero
  · intro writable
    have stored : ∀ i < n, Writable (Vm.filled s.mem pt dstva src i) pt
        (dstva + BitVec.ofNat 64 i) := fun i less =>
      writable i (by omega) fun j upTo => all j (Nat.zero_le _) (by omega)
    refine ⟨stored, ?_⟩
    rintro ⟨i, less, other⟩
    rcases how with ⟨-, whole⟩ | ⟨failed, -, -⟩
    · exact absurd (stored i (by omega)) other
    · exact failed

end Copies

/-- `copyout` respects the permissions of the user exactly if every byte that comes before the first
one that is not the user's lies in a writable page; and where the user's pages are apart from the
tables, it is the same whether the tables are read before the copy or as each byte is stored. -/
theorem copyout_respects_iff (s : Kernel) (pt dstva : Word) (src : Nat → BitVec 8) (len : Nat) :
    (Respects s pt dstva src len ↔ ∀ i < len,
      (∀ j ≤ i, userVa2pa (filled s.mem pt dstva src j) pt (dstva + BitVec.ofNat 64 j) ≠ 0) →
        Writable (filled s.mem pt dstva src i) pt (dstva + BitVec.ofNat 64 i)) ∧
    (Separate s.mem pt → (Respects s pt dstva src len ↔ ∀ i < len,
      (∀ j ≤ i, userVa2pa s.mem pt (dstva + BitVec.ofNat 64 j) ≠ 0) →
        Writable s.mem pt (dstva + BitVec.ofNat 64 i))) := by
  refine ⟨respects_iff s pt dstva src len, fun separate =>
    (respects_iff s pt dstva src len).trans ?_⟩
  refine forall_congr' fun i => forall_congr' fun _ => ?_
  have upTo := separate.found_iff dstva src (i + 1)
  simp only [Nat.lt_succ_iff] at upTo
  rw [upTo]
  refine forall_congr' fun found => ?_
  exact (separate.filled dstva src i fun j less => found j less.le).writable _

/-- Process 0 has read from its heap. -/
@[irreducible] def sampleLoaded : Kernel := after (handlePageFault 0x400000 .load) sampleStarted

theorem sampleLoaded_reachable : Reachable sampleLoaded := by
  have handled : value (handlePageFault 0x400000 .load) sampleStarted = some 1 := by decide +kernel
  unfold sampleLoaded
  exact ⟨_, sampleBoot_booted, sampleStarted_run.tail (step_of_value (.pageFault _ _) handled)⟩

theorem copyout_respects_iff_sample :
    Respects sampleLoaded (sampleLoaded.procs 0).pagetable 0x400000 (fun _ => 1) 1 ↔ ∀ i < 1,
      (∀ j ≤ i, userVa2pa sampleLoaded.mem (sampleLoaded.procs 0).pagetable
        (0x400000 + BitVec.ofNat 64 j) ≠ 0) →
        Writable sampleLoaded.mem (sampleLoaded.procs 0).pagetable
          (0x400000 + BitVec.ofNat 64 i) :=
  (copyout_respects_iff _ _ _ _ _).2 (separate_of_reachable sampleLoaded_reachable
    (by unfold Kernel.live; decide +kernel) (by decide +kernel))

/-- The kernel stores a byte to a page that the process may only read. -/
theorem copyout_ignores_permission : Reachable sampleLoaded ∧
    value (copyout (sampleLoaded.procs 0).pagetable 0x400000 (fun _ => 1) 1) sampleLoaded =
      some (0, 1) ∧
    ¬ Respects sampleLoaded (sampleLoaded.procs 0).pagetable 0x400000 (fun _ => 1) 1 := by
  have found : userVa2pa sampleLoaded.mem (sampleLoaded.procs 0).pagetable 0x400000 ≠ 0 ∧
      (walkLookup sampleLoaded.mem (sampleLoaded.procs 0).pagetable 0x400000).all (fun pte =>
        pte.read sampleLoaded.mem &&& W = 0) = true := by
    decide +kernel
  refine ⟨sampleLoaded_reachable, by decide +kernel, fun respects => ?_⟩
  obtain ⟨pte, walk, -, -, writable⟩ := (respects_iff _ _ _ _ _).mp respects 0 Nat.one_pos
    fun j upTo => by
      obtain rfl := Nat.le_zero.mp upTo
      exact found.1
  have none' := found.2
  rw [show (0x400000 : Word) = 0x400000 + BitVec.ofNat 64 0 from rfl] at none'
  rw [show filled sampleLoaded.mem _ 0x400000 (fun _ => 1) 0 = sampleLoaded.mem from rfl] at walk writable
  rw [walk, Option.all_some, decide_eq_true_eq] at none'
  exact writable none'

end Xv6Lab.Vm

import Xv6Lab.Vm.Faults
import Xv6Lab.Vm.Shortage

/-! The binary of a new process: `create_user_proc` maps one page for it and copies all of it there.
A binary that fits the page arrives whole, and nothing else is written to; of a longer one the rest
lands in the physical pages that follow. -/

namespace Xv6Lab.Vm

open Rv64 Sv39 Exec
open Trap (PGSIZE TRAMPOLINE TRAPFRAME)

/-- What `create_user_proc` promises of process `q`: the binary at its place, two pages of stack,
the two special pages, and no page written to but the ones it took off the free list. -/
structure Loaded (userBin : Nat → BitVec 8) (binSize : Nat) (s t : Kernel) (q : Slot) : Prop where
  text : ∀ i < binSize, userByte t q (USER_TEXT_START + BitVec.ofNat 64 i) = some (userBin i)
  stack : ∀ i < 2, ∃ e, translate t.mem (t.procs q).pagetable (stackVa i) = some e ∧ e &&& U ≠ 0
  trapframe : translate t.mem (t.procs q).pagetable TRAPFRAME ≠ none
  trampoline : translate t.mem (t.procs q).pagetable TRAMPOLINE ≠ none
  kept : ∃ l l', Chain s.mem s.freelist l ∧ Chain t.mem t.freelist l' ∧
    ∀ pg, ¬ (pg ∈ l ∧ pg ∉ l') → t.mem pg = s.mem pg
  others : Only q s t

/-- Every binary of the size is loaded, whenever `create_user_proc` returns a pid. -/
def Loads (binSize : Nat) (usertrap kernelvec : Word) (s : Kernel) : Prop :=
  ∀ userBin r t, createUserProc userBin binSize usertrap kernelvec s = .ok r t → r ≠ -1 →
    ∃ q : Slot, r = q.val ∧ Loaded userBin binSize s t q

variable {s t u v : Kernel} {o o' : Owners} {q : Slot} {l : List Word} {binSize : Nat}
  {usertrap kernelvec : Word}

/-! ### Binaries that fit -/

/-- The addresses of a binary that fits lie in the first page. -/
theorem text_path {i : Nat} (inside : i < 4096) :
    path USER_TEXT_START = path (USER_TEXT_START + BitVec.ofNat 64 i) ∧
      (USER_TEXT_START + BitVec.ofNat 64 i).toNat % 4096 = i := by
  have sum : (USER_TEXT_START + BitVec.ofNat 64 i).toNat = 65536 + i := by
    rw [BitVec.toNat_add, BitVec.toNat_ofNat, show USER_TEXT_START.toNat = 65536 from rfl]
    omega
  refine ⟨?_, by omega⟩
  simp only [path, List.cons.injEq, and_true, ← BitVec.toNat_inj, toNat_index, sum,
    show USER_TEXT_START.toNat = 65536 from rfl]
  omega

theorem pagesByte_text (userBin : Nat → BitVec 8) {i : Nat} (inside : i < binSize)
    (fits : binSize ≤ 4096) : pagesByte (freshPages userBin binSize l)
      (USER_TEXT_START + BitVec.ofNat 64 i) = some (userBin i) := by
  obtain ⟨here, off⟩ := text_path (show i < 4096 by omega)
  simp only [freshPages, pagesByte_cons, stackPage, codePage, ← here, off, if_true, if_pos inside,
    if_neg (text_apart 0 (by decide)).symm, if_neg (text_apart 1 (by decide)).symm]

/-- The first page is the only one. -/
theorem pagesByte_past (userBin : Nat → BitVec 8) :
    pagesByte (freshPages userBin binSize l) (USER_TEXT_START + 4096) = none := by
  have stack : ∀ i < 2, path (stackVa i) ≠ path (USER_TEXT_START + 4096) := by decide
  have code : path USER_TEXT_START ≠ path (USER_TEXT_START + 4096) := by decide
  rw [freshPages, pagesByte_cons, pagesByte_cons, pagesByte_cons]
  exact (if_neg (stack 1 (by decide))).trans ((if_neg (stack 0 (by decide))).trans (if_neg code))

theorem pagesByte_stack (userBin : Nat → BitVec 8) : ∀ i < 2,
    pagesByte (freshPages userBin binSize l) (stackVa i) ≠ none
  | 0, _ => by
    rw [freshPages, pagesByte_cons, pagesByte_cons]
    simp [stackPage, stacks_apart.symm]
  | 1, _ => by
    rw [freshPages, pagesByte_cons]
    simp [stackPage]

/-- The pages of a new process come off the free list, and no other page is written to. -/
theorem Created.kept (inv : Inv s o) {user : Bool} (created : Created q user s o t o')
    (adds : Adds (some q) s o t o') : ∃ l l', Chain s.mem s.freelist l ∧
      Chain t.mem t.freelist l' ∧ ∀ pg, ¬ (pg ∈ l ∧ pg ∉ l') → t.mem pg = s.mem pg := by
  obtain ⟨l, chain, -, members⟩ := inv.owns.free
  obtain ⟨l', chain', -, members'⟩ := created.inv.owns.free
  refine ⟨l, l', chain, chain', fun pg old => ?_⟩
  rcases adds pg with ⟨free, own⟩ | ⟨-, own | kept⟩
  · refine absurd ⟨(members pg).mpr free, fun inside => ?_⟩ old
    rw [(members' pg).mp inside] at own
    exact own
  · exact absurd own (inv.unused q (nextSlot_unused created.chosen) pg)
  · exact kept

theorem Inv.loads (inv : Inv s o) (fits : binSize ≤ 4096) : Loads binSize usertrap kernelvec s := by
  intro userBin r t run returned
  obtain ⟨l, chain, -, -⟩ := inv.owns.free
  rcases wp_ok (createUserProc_adds inv userBin fits usertrap kernelvec) run with
    ⟨failed, -⟩ | ⟨q, rfl, o', created, adds⟩
  · exact absurd failed returned
  rcases wp_ok (createUserProc_exact inv chain userBin fits usertrap kernelvec) run with
    ⟨failed, -⟩ | ⟨-, q', -, same, reads⟩
  · exact absurd failed returned
  obtain rfl : q = q' := Fin.ext (by omega)
  have user := (created.inv.alive q (by simp [created.runnable])).user created.isUser
  refine ⟨q, rfl, fun i inside => ?_, fun i small => ?_, user.trapframe, user.trampoline,
    created.kept inv adds, created.only⟩
  · rw [reads]
    exact pagesByte_text userBin inside fits
  · have read : userByte t q (stackVa i) ≠ none := by
      rw [reads]
      exact pagesByte_stack userBin i small
    unfold userByte at read
    cases is : translate t.mem (t.procs q).pagetable (stackVa i) with
    | none => simp [is] at read
    | some e =>
      refine ⟨e, rfl, fun zero => ?_⟩
      simp [is, zero] at read

/-- With no slot there is no new process. -/
theorem Inv.loads_full (inv : Inv s o) (full : s.nextSlot = none) :
    Loads binSize usertrap kernelvec s := by
  intro userBin r t run returned
  obtain ⟨slot, u, alloc, rest⟩ := ok_of_bind (show (allocProc true >>= _) s = _ from run)
  rcases wp_ok (allocProc_wp inv.owns true) alloc with ⟨rfl, rfl⟩ | ⟨q, o', rfl, a⟩
  · cases rest
    exact absurd rfl returned
  · have chosen := a.chosen
    rw [full] at chosen
    cases chosen

/-! ### Binaries that do not fit -/

/-- `create_user_proc` up to the copy: the slot and the code page, or why it fails. -/
def placeCode : K (Option (Slot × Word)) := do
  match ← allocProc true with
  | none => pure none
  | some p =>
    let page ← allocPage
    if page = 0 then
      pure (some (p, page))
    else
      let s ← get
      let _ ← mapPage (s.procs p).pagetable USER_TEXT_START page (R ||| W ||| X ||| U)
      pure (some (p, page))

/-- `create_user_proc` from the copy on. -/
def loadCode (userBin : Nat → BitVec 8) (binSize : Nat) (usertrap kernelvec : Word) :
    Option (Slot × Word) → K Int
  | none => pure (-1)
  | some (p, page) => do
    if page = 0 then
      failProc p
    else
      memcpy page userBin binSize
      mapStack p (finishUserProc p usertrap kernelvec) (List.range 2)

theorem createUserProc_eq (userBin : Nat → BitVec 8) (binSize : Nat) (usertrap kernelvec : Word) :
    createUserProc userBin binSize usertrap kernelvec =
      placeCode >>= loadCode userBin binSize usertrap kernelvec := by
  unfold createUserProc placeCode
  rw [bind_assoc]
  refine congrArg (allocProc true >>= ·) (funext fun r => ?_)
  cases r with
  | none => rw [pure_bind]; rfl
  | some p =>
    simp only [bind_assoc]
    refine congrArg (allocPage >>= ·) (funext fun page => ?_)
    split
    · next zero =>
      rw [pure_bind]
      exact (if_pos zero).symm
    · next nonzero =>
      simp only [bind_assoc, pure_bind, loadCode, if_neg nonzero]

/-- Copies that come to the same make processes that are the same. -/
theorem createUserProc_congr {userBin : Nat → BitVec 8} {m n : Nat}
    (same : ∀ p page t, placeCode s = .ok (some (p, page)) t →
      memcpy page userBin m t = memcpy page userBin n t) :
    createUserProc userBin m usertrap kernelvec s = createUserProc userBin n usertrap kernelvec s := by
  rw [createUserProc_eq, createUserProc_eq]
  refine bind_alike fun r t placed => ?_
  match r with
  | none => rfl
  | some (p, page) =>
    dsimp only [loadCode]
    split
    · rfl
    · show EStateM.bind _ _ t = EStateM.bind _ _ t
      unfold EStateM.bind
      rw [same p page t placed]

theorem putByte_same (w : Word) (k : Nat) :
    putByte w k ((w >>> (8 * k)).setWidth 8) = w := by
  apply BitVec.eq_of_getLsbD_eq
  intro m inside
  rw [putByte_bit _ _ _ inside]
  split
  · next here =>
    rw [BitVec.getLsbD_setWidth, BitVec.getLsbD_ushiftRight, decide_eq_true (by omega),
      show 8 * k + (m - 8 * k) = m by omega]
    rfl
  · rfl

/-- A byte stored where it already is. -/
theorem storeByte_same (t : Kernel) (pa : Word) : storeByte pa (loadByte t.mem pa) t = .ok ⟨⟩ t := by
  have same : t.mem.store (BitVec.ofNat 64 (pa.toNat / 4096 * 4096))
      (BitVec.ofNat 64 (pa.toNat % 4096 / 8 * 8))
      (putByte (t.mem (BitVec.ofNat 64 (pa.toNat / 4096 * 4096))
        (BitVec.ofNat 64 (pa.toNat % 4096 / 8 * 8))) (pa.toNat % 8) (loadByte t.mem pa)) = t.mem := by
    unfold loadByte byteAt
    rw [show pa.toNat % 8 = pa.toNat % 4096 % 8 by omega, putByte_same, Mem.store,
      Function.update_eq_self, Function.update_eq_self]
  show EStateM.Result.ok _ (t.setMem _) = _
  rw [same]
  rfl

theorem memcpy_succ (dst : Word) (src : Nat → BitVec 8) (n : Nat) : memcpy dst src (n + 1) =
    memcpy dst src n >>= fun _ => storeByte (dst + BitVec.ofNat 64 n) (src n) := by
  unfold memcpy
  rw [List.range_succ]
  simp

/-- The byte after the page of a copy is already in place. -/
theorem memcpy_spill {dst : Word} (aligned : dst.toNat % 4096 = 0) (src : Nat → BitVec 8) {n : Nat}
    (full : n = 4096) (there : loadByte t.mem (dst + BitVec.ofNat 64 n) = src n) :
    memcpy dst src (n + 1) t = memcpy dst src n t := by
  have below := dst.isLt
  rw [memcpy_succ]
  show EStateM.bind _ _ t = _
  unfold EStateM.bind
  cases run : memcpy dst src n t with
  | error e u => rfl
  | ok r u =>
    obtain ⟨mem, rfl, away, -⟩ :=
      wp_ok (memcpy_wp (E := fun _ _ => True) aligned src (Nat.le_of_eq full)) run
    have apart : (BitVec.ofNat 64 ((dst + BitVec.ofNat 64 n).toNat / 4096 * 4096) : Word) ≠ dst := by
      intro same
      have eq := congrArg BitVec.toNat same
      rw [BitVec.toNat_ofNat, BitVec.toNat_add, BitVec.toNat_ofNat] at eq
      omega
    have kept : loadByte mem (dst + BitVec.ofNat 64 n) = src n := by
      rw [← there]
      unfold loadByte
      rw [away _ apart]
    rw [← kept]
    exact storeByte_same (t.setMem mem) _

/-- A binary of what is there already changes nothing. -/
theorem memcpy_same (t : Kernel) (dst : Word) (n : Nat) :
    memcpy dst (fun i => loadByte t.mem (dst + BitVec.ofNat 64 i)) n t = .ok ⟨⟩ t := by
  induction n with
  | zero => rfl
  | succ n ih =>
    rw [memcpy_succ, bind_ok ih]
    exact storeByte_same t _

/-- For every size there is a binary that `create_user_proc` cannot tell from an empty one. -/
theorem createUserProc_unchanged (s : Kernel) (binSize : Nat) (usertrap kernelvec : Word) :
    ∃ userBin, createUserProc userBin binSize usertrap kernelvec s =
      createUserProc userBin 0 usertrap kernelvec s := by
  cases placed : placeCode s with
  | error e t =>
    refine ⟨fun _ => 0, createUserProc_congr fun p page t is => ?_⟩
    rw [placed] at is
    cases is
  | ok r t =>
    rcases r with _ | ⟨p, page⟩
    · refine ⟨fun _ => 0, createUserProc_congr fun p page t is => ?_⟩
      rw [placed] at is
      cases is
    · refine ⟨fun i => loadByte t.mem (page + BitVec.ofNat 64 i),
        createUserProc_congr fun p' page' t' is => ?_⟩
      rw [placed] at is
      cases is
      rw [memcpy_same, memcpy_same]

/-- With a slot and the pages for it, some binary that does not fit is not loaded. -/
theorem Inv.overruns (inv : Inv s o) (chain : Chain s.mem s.freelist l) (slot : s.nextSlot ≠ none)
    (enough : createCost ≤ l.length) (long : 4096 < binSize) : ¬ Loads binSize usertrap kernelvec s := by
  intro loads
  obtain ⟨p, is⟩ := Option.ne_none_iff_exists'.mp slot
  obtain ⟨userBin, same⟩ := createUserProc_unchanged s binSize usertrap kernelvec
  obtain ⟨pid, reads⟩ := createUserProc_creates inv chain is enough userBin (Nat.zero_le _)
    usertrap kernelvec
  have run := same.trans (run_of_value pid)
  obtain ⟨q, here, loaded⟩ := loads userBin _ _ run (by omega)
  obtain rfl : p = q := Fin.ext (by omega)
  have text := loaded.text 4096 long
  rw [reads] at text
  exact absurd text (by rw [show (BitVec.ofNat 64 4096 : Word) = 4096 from rfl, pagesByte_past]; simp)

/-- `create_user_proc` loads every binary of a size if that size fits one page, and, with the pages
that it takes on the free list, only then or if it has no slot for it. -/
theorem create_user_proc_loads_iff (reach : Reachable s) (chain : Chain s.mem s.freelist l)
    (binSize : Nat) (usertrap kernelvec : Word) :
    (binSize ≤ 4096 ∨ s.nextSlot = none → Loads binSize usertrap kernelvec s) ∧
    (createCost ≤ l.length → (Loads binSize usertrap kernelvec s ↔
      binSize ≤ 4096 ∨ s.nextSlot = none)) := by
  obtain ⟨o, inv⟩ := reach.inv
  have loads : binSize ≤ 4096 ∨ s.nextSlot = none → Loads binSize usertrap kernelvec s := by
    rintro (fits | full)
    · exact inv.loads fits
    · exact inv.loads_full full
  refine ⟨loads, fun enough => ⟨fun all => ?_, loads⟩⟩
  by_contra neither
  obtain ⟨long, slot⟩ := not_or.mp neither
  exact inv.overruns chain slot enough (Nat.lt_of_not_le long) all

theorem create_user_proc_loads_iff_sample : Loads 16 0x80001000 0x80002000 sampleBoot ∧
    ¬ Loads 5000 0x80001000 0x80002000 sampleBoot := by
  have chain := sampleBoot_shuffled.chain
  refine ⟨(create_user_proc_loads_iff sampleBoot_reachable chain 16 _ _).1 (.inl (by decide)),
    fun loads => ?_⟩
  have fits := ((create_user_proc_loads_iff sampleBoot_reachable chain 5000 _ _).2
    (by decide)).mp loads
  revert fits
  decide +kernel

/-- One byte too many: 4097 bytes that are all 1, of which the last lands in a page table. -/
theorem binary_overruns : Reachable sampleBoot ∧
    ∃ t, createUserProc (fun _ => 1) 4097 0x80001000 0x80002000 sampleBoot = .ok 0 t ∧
      userByte t 0 (USER_TEXT_START + BitVec.ofNat 64 4096) = none ∧
      ¬ Loads 4097 0x80001000 0x80002000 sampleBoot := by
  obtain ⟨o, inv⟩ := sampleBoot_reachable.inv
  have placed : value placeCode sampleBoot = some (some (0, 0x87003000)) := by decide +kernel
  -- the byte that is there is the low byte of the entry for the table of the lowest level
  obtain ⟨v, run, there⟩ : ∃ v, placeCode sampleBoot = .ok (some (0, 0x87003000)) v ∧
      loadByte v.mem (0x87003000 + BitVec.ofNat 64 4096) = 1 :=
    ⟨_, run_of_value placed, by decide +kernel⟩
  have same : createUserProc (fun _ => 1) 4097 0x80001000 0x80002000 sampleBoot =
      createUserProc (fun _ => 1) 4096 0x80001000 0x80002000 sampleBoot := by
    refine createUserProc_congr fun p page t is => ?_
    rw [run] at is
    cases is
    exact memcpy_spill (by decide) _ rfl there
  obtain ⟨pid, reads⟩ := createUserProc_creates inv sampleBoot_shuffled.chain (p := 0) (by decide)
    (by decide) (fun _ => 1) (Nat.le_refl 4096) 0x80001000 0x80002000
  have run := same.trans (run_of_value pid)
  have past : userByte (after (createUserProc (fun _ => 1) 4096 0x80001000 0x80002000) sampleBoot) 0
      (USER_TEXT_START + BitVec.ofNat 64 4096) = none := (reads _).trans (pagesByte_past _)
  refine ⟨sampleBoot_reachable, _, run, past, fun loads => ?_⟩
  obtain ⟨q, here, loaded⟩ := loads _ _ _ run (by decide)
  obtain rfl : (0 : Slot) = q := Fin.ext (by exact_mod_cast here)
  have text := loaded.text 4096 (by decide)
  rw [past] at text
  cases text

end Xv6Lab.Vm

import Xv6Lab.Vm.Fork
import Xv6Lab.Vm.Copying

/-! `uvmcopy` makes a deep copy: the pages below the size are mapped to frames of their own. -/

namespace Xv6Lab.Vm

open Rv64 Sv39 Exec
open Trap (PGSIZE TRAMPOLINE TRAPFRAME)

/-- The table at `new` maps the pages below `sz` as the table at `old` did, to copies of their
frames. -/
structure DeepCopy (s : Kernel) (o : Owners) (c : Slot) (old new sz : Word) (t : Kernel) : Prop where
  unmapped : ∀ va, PageBelow va sz → lookup s old va = none → lookup t new va = none
  copied : ∀ va e, PageBelow va sz → lookup s old va = some e → ∃ e', lookup t new va = some e' ∧
    flags e' = flags e ||| U ∧ t.mem (pte2pa e') = s.mem (pte2pa e) ∧ o (pte2pa e') = .free ∧
    (∀ va' e'', lookup t new va' = some e'' → path va' ≠ path va → pte2pa e'' ≠ pte2pa e') ∧
    ∀ va' e'', lookup s old va' = some e'' → o (pte2pa e'') ≠ .free → pte2pa e'' ≠ pte2pa e'
  above : ∀ va, va.toNat < 2 ^ 39 ∨ Canonical va → ¬ PageBelow va sz → lookup t new va = none
  source : ∀ va, lookup t old va = lookup s old va
  kept : ∀ pg, Apart o c pg → t.mem pg = s.mem pg

variable {s t : Kernel} {o o' : Owners} {c : Slot} {old new sz va : Word}

/-- The pages of a size have the addresses that lie below it. -/
theorem pageBelow_iff (small : sz ≤ USER_LIMIT) (inside : va.toNat < 2 ^ 39 ∨ Canonical va) :
    PageBelow va sz ↔ ∃ i ∈ pagesBelow sz, path i = path va := by
  have limit : sz.toNat ≤ 2147483648 := BitVec.le_def.mp small
  constructor
  · intro below
    unfold PageBelow at below
    have value : (BitVec.ofNat 64 (va.toNat / 4096 * 4096)).toNat = va.toNat / 4096 * 4096 := by
      rw [BitVec.toNat_ofNat]
      omega
    refine ⟨BitVec.ofNat 64 (va.toNat / 4096 * 4096), ?_, ?_⟩
    · rw [mem_pagesBelow, value]
      omega
    · rw [path_eq_iff (by omega) (by omega), value]
      omega
  · rintro ⟨i, inside', same⟩
    obtain ⟨aligned, below⟩ := mem_pagesBelow.mp inside'
    have page : i.toNat / 4096 = va.toNat / 4096 := by
      rcases inside with short | canonical
      · exact (path_eq_iff (by omega) short).mp same
      · exact (path_eq_iff_canonical (.inl (by omega)) canonical).mp same
    unfold PageBelow
    omega

theorem PageBelow.small (below : PageBelow va sz) (small : sz ≤ USER_LIMIT) : va.toNat < 2 ^ 39 := by
  have limit : sz.toNat ≤ 2147483648 := BitVec.le_def.mp small
  unfold PageBelow at below
  omega

theorem Carried.deepCopy {l : List Word} (carried : Carried c old new l s o t o')
    (source : Source s o c old sz) (root : o new = .table (some c) [])
    (empty : ∀ va, translate s.mem new va = none)
    (pages : ∀ va, va.toNat < 2 ^ 39 ∨ Canonical va → (PageBelow va sz ↔ ∃ i ∈ l, path i = path va))
    (short : ∀ va, PageBelow va sz → va.toNat < 2 ^ 39) : DeepCopy s o c old new sz t := by
  have maps : ∀ va, lookup t new va = translate t.mem new va := fun va =>
    (translate_of_walkLookup carried.owns (carried.grows.table root) va).symm
  -- what is mapped in the copy is a frame that the loop took
  have frames : ∀ va e', lookup t new va = some e' → o' (pte2pa e') = .frame (some c) (path va) := by
    intro va e' is
    rw [maps] at is
    by_cases listed : ∃ i ∈ l, path i = path va
    · obtain ⟨i, inside, same⟩ := listed
      rw [← translate_congr_path same] at is
      cases was : lookup s old i with
      | none =>
        rw [carried.unmapped i inside was] at is
        cases is
      | some e =>
        obtain ⟨e₁, is₁, -, -, -, owner⟩ := carried.copied i inside e was
        rw [is] at is₁
        rw [Option.some.inj is₁, owner, same]
    · rw [carried.others va fun i inside same => listed ⟨i, inside, same⟩, empty] at is
      cases is
  refine ⟨fun va below none' => ?_, fun va e below is => ?_, fun va inside past => ?_,
    (source.tableKept carried.grows).lookup, fun pg apart => (apart.kept carried.grows).2⟩
  · obtain ⟨i, inside, same⟩ := (pages va (.inl (short va below))).mp below
    rw [maps, ← translate_congr_path same]
    exact carried.unmapped i inside ((lookup_congr_path same).trans none')
  · obtain ⟨i, inside, same⟩ := (pages va (.inl (short va below))).mp below
    obtain ⟨e', is', flags', contents, free, owner⟩ :=
      carried.copied i inside e ((lookup_congr_path same).trans is)
    have here : lookup t new va = some e' := by
      rw [maps, ← translate_congr_path same]
      exact is'
    refine ⟨e', here, flags', contents, free, fun va' e'' other ne eq => ?_,
      fun va' e'' _ used eq => used (eq ▸ free)⟩
    have owner' := frames va' e'' other
    rw [eq, owner, same] at owner'
    exact ne (by injection owner' with _ paths; exact paths.symm)
  · rw [maps, carried.others va fun i listed same => past ((pages va inside).mpr ⟨i, listed, same⟩)]
    exact empty va

/-- The table of a live user process is in use, whatever other slot the copy is for. -/
theorem Inv.source {p : Slot} (inv : Inv s o) (live : s.live p) (user : (s.procs p).isUser = true)
    (other : p ≠ c) (small : sz ≤ USER_LIMIT) : Source s o c (s.procs p).pagetable sz :=
  ((inv.alive p live).user user).space.source inv.owns other small

/-- The state of `sampleStarted` with an empty table for process 1. -/
@[irreducible] def sampleEmpty : Kernel := after createPagetable sampleStarted

@[irreducible] def sampleNew : Word := sampleStarted.freelist

theorem sampleEmpty_runs : createPagetable sampleStarted = .ok sampleNew sampleEmpty ∧
    value (uvmcopy (sampleStarted.procs 0).pagetable sampleNew 0x20000) sampleEmpty = some 0 := by
  have created : value createPagetable sampleStarted = some sampleNew := by decide +kernel
  refine ⟨?_, by decide +kernel⟩
  unfold sampleEmpty
  exact run_of_value created

end Xv6Lab.Vm

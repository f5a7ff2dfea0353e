import Xv6Lab.Vm.Mapping

/-! A page table that `create_pagetable` and `map_page` have built is a finite map from pages to
frames and flags: `walk_lookup` reads the map, and `map_page` changes it at one page. -/

namespace Xv6Lab.Vm

open Rv64 Sv39 Exec
open Trap (TRAMPOLINE TRAPFRAME)

/-- Bits 63 to 38 of the address are equal. -/
def Canonical (va : Word) : Prop := va.toNat < 2 ^ 38 ∨ 2 ^ 64 - 2 ^ 38 ≤ va.toNat

/-- The arguments of `map_page` under which it is a map's update. -/
structure MapArgs (va pa perm : Word) : Prop where
  canonical : Canonical va
  aligned : va.toNat % 4096 = 0
  frame : Frame pa
  flags : perm.toNat < 1024
  leaf : perm &&& (R ||| W ||| X) ≠ 0

/-- The free list is in order, so that `alloc_page` supplies fresh pages. -/
structure Supplied (s : Kernel) : Prop where
  base : KERNBASE ≤ s.kernelEnd
  free : ∃ l, Chain s.mem s.freelist l ∧ l.Nodup ∧ ∀ pg ∈ l, Managed s pg

/-- The table `pt` in a state to which `create_pagetable` and calls of `map_page` have led. -/
inductive Built (pt : Word) : Kernel → Prop
  | create {s t : Kernel} (supplied : Supplied s) (run : createPagetable s = .ok pt t) : Built pt t
  | map {s t : Kernel} {va pa perm : Word} {r : Int} (built : Built pt s) (args : MapArgs va pa perm)
      (run : mapPage pt va pa perm s = .ok r t) : Built pt t

/-- The valid entry that `walk_lookup` finds. -/
def lookup (s : Kernel) (pt va : Word) : Option Word :=
  (walkLookup s.mem pt va).bind fun pte =>
    if pte.read s.mem &&& V = 0 then none else some (pte.read s.mem)

/-- The flags that a page gets, from the flags it had if it was mapped. -/
def grantedFlags (va perm : Word) : Option Word → Word
  | none => mapPerm va perm ||| V
  | some old => mapPerm va (flags old ||| perm) ||| V

variable {s t : Kernel} {pt va va' pa perm : Word} {r : Int}

/-! ### Addresses and flags -/

/-- Canonical addresses lead to the same entry when they lie in the same page. -/
theorem path_eq_iff_canonical (canonical : Canonical va) (canonical' : Canonical va') :
    path va = path va' ↔ va.toNat / 4096 = va'.toNat / 4096 := by
  have bound := va.isLt
  have bound' := va'.isLt
  unfold Canonical at canonical canonical'
  simp only [path, List.cons.injEq, and_true, ← BitVec.toNat_inj, toNat_index]
  omega

theorem mapPerm_lt (va : Word) (small : perm.toNat < 1024) : (mapPerm va perm).toNat < 1024 := by
  unfold mapPerm
  split
  · rw [BitVec.toNat_and]
    exact lt_of_le_of_lt Nat.and_le_left small
  · exact small

theorem or_lt_flags {x y : Word} (first : x.toNat < 1024) (second : y.toNat < 1024) :
    (x ||| y).toNat < 1024 := by
  rw [BitVec.toNat_or]
  exact Nat.or_lt_two_pow (n := 10) first second

/-- Flags that go through the mask of `map_page` twice. -/
theorem mapPerm_merge (va : Word) {old : Word} (wide : old.toNat < 1024)
    (small : perm.toNat < 1024) :
    mapPerm va ((old ||| mapPerm va perm) &&& 0x3ff) = mapPerm va (old ||| perm) := by
  have mask : ∀ x : Word, x.toNat < 1024 → x &&& 0x3ff = x := fun x small => flags_small small
  rw [mask _ (or_lt_flags wide (mapPerm_lt va small))]
  unfold mapPerm
  split
  · apply BitVec.eq_of_getLsbD_eq
    intro i hi
    simp only [BitVec.getLsbD_and, BitVec.getLsbD_or, BitVec.getLsbD_not]
    cases old.getLsbD i <;> cases perm.getLsbD i <;> cases U.getLsbD i <;> simp
  · rfl

/-- The entry that `map_page` stores. -/
theorem mapEntry_eq (va pa : Word) (small : perm.toNat < 1024) (old : Option Word) :
    mapEntry va pa perm old = pa2pte pa ||| grantedFlags va perm old := by
  cases old with
  | none => exact BitVec.or_assoc ..
  | some e => rw [mapEntry, mapPerm_merge va (flags_lt e) small, BitVec.or_assoc, grantedFlags]

theorem grantedFlags_lt (va : Word) (small : perm.toNat < 1024) (old : Option Word) :
    (grantedFlags va perm old).toNat < 1024 := by
  cases old with
  | none => exact or_lt_flags (mapPerm_lt va small) (by decide)
  | some e => exact or_lt_flags (mapPerm_lt va (or_lt_flags (flags_lt e) small)) (by decide)

/-! ### The invariant of a table -/

theorem exitProc_never {α : Type} (status : Int) :
    wp (exitProc status : K α) (fun _ _ => False) (fun _ _ => True) s := by
  unfold exitProc
  simp only [wp_bind, wp_get]
  split
  · trivial
  · simp only [wp_bind, wp_set]
    split <;> trivial

/-- A call of `map_page` that returns was allowed to map. -/
theorem mayMap_of_run (run : mapPage pt va pa perm s = .ok r t) : MayMap s va := by
  by_contra denied
  have outside : s.userCurrent ∧ USER_LIMIT ≤ va ∧ va ≠ TRAMPOLINE ∧ va ≠ TRAPFRAME := by
    unfold MayMap at denied
    push Not at denied
    exact ⟨denied.1, BitVec.not_lt.mp denied.2.1, denied.2.2⟩
  have spec : wp (mapPage pt va pa perm) (fun _ _ => False) (fun _ _ => True) s := by
    unfold mapPage
    simp only [wp_bind, wp_get, if_pos outside]
    exact wp_conseq (exitProc_never (-1)) fun _ _ impossible => impossible.elim
  exact wp_ok spec run

/-- Before the first table every page is free or of no concern. -/
theorem Supplied.owns (supplied : Supplied s) : ∃ o, Owns s o := by
  obtain ⟨l, chain, nodup, managed⟩ := supplied.free
  have none : ∀ h pg, label (fun pg => if pg ∈ l then .free else .other) h pg = none := by
    intro h pg
    by_contra some
    obtain ⟨ds, is⟩ := Option.ne_none_iff_exists'.mp some
    have table := label_eq.mp is
    split at table <;> cases table
  refine ⟨fun pg => if pg ∈ l then .free else .other, supplied.base, ⟨l, chain, nodup, fun pg => ?_⟩,
    fun pg known => ?_, fun h pg ds i next at_pg => ?_, fun pg h ds i at_pg => ?_⟩
  · by_cases inside : pg ∈ l <;> simp [inside]
  · by_cases inside : pg ∈ l
    · exact managed pg inside
    · simp [inside] at known
  · rw [none] at at_pg
    cases at_pg
  · split at at_pg <;> cases at_pg

theorem Built.owns (built : Built pt s) : ∃ o, Owns s o ∧ o pt = .table none [] := by
  induction built with
  | create supplied run =>
    obtain ⟨o, owns⟩ := supplied.owns
    obtain ⟨o', owns', -, -, root, -⟩ := wp_ok (createPagetable_wp owns none) run
    exact ⟨o', owns', root⟩
  | map built args run ih =>
    obtain ⟨o, owns, root⟩ := ih
    obtain ⟨-, o', mapped⟩ := wp_ok (mapPage_wp owns root (mayMap_of_run run) args.leaf) run
    exact ⟨o', mapped.owns, mapped.grows.table root⟩

/-- The first table of the small memory, and the state in which it is made. -/
@[irreducible] def sampleTable : Kernel := after createPagetable sampleBoot

theorem sampleBoot_supplied : Supplied sampleBoot := by
  refine ⟨by decide, samplePages, by decide +kernel, by decide +kernel, fun pg inside => ?_⟩
  exact (of_decide_eq_true (List.all_eq_true.mp samplePages_managed pg inside)).1

theorem sampleTable_created : createPagetable sampleBoot = .ok 0x87000000 sampleTable := by
  have run : value createPagetable sampleBoot = some 0x87000000 := by decide +kernel
  unfold sampleTable
  exact run_of_value run

theorem sampleTable_built : Built 0x87000000 sampleTable :=
  .create sampleBoot_supplied sampleTable_created

end Xv6Lab.Vm

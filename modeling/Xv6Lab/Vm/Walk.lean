import Xv6Lab.Vm.FiniteMap

/-! Walks through the tables that need no ownership map, and tables that are left alone. -/

namespace Xv6Lab.Vm

open Rv64 Sv39 Exec

/-- The page table at `pt` is as it was: no page of it has changed. -/
def TableKept (pt : Word) (s t : Kernel) : Prop :=
  ∀ ds pg, ds.length ≤ 2 → node s.mem pt ds = some pg → t.mem pg = s.mem pg

variable {mem : Mem} {s t : Kernel} {pt pg va : Word} {i : Index} {p : PteRef}

theorem node_append (mem : Mem) (pt : Word) (ds : List Index) (i : Index) :
    node mem pt (ds ++ [i]) = (node mem pt ds).bind (child mem · i) := by
  induction ds generalizing pt with
  | nil => simp [node]
  | cons j rest ih =>
    rw [List.cons_append, node, node]
    cases child mem pt j with
    | none => rfl
    | some pg => exact ih pg

theorem descend_eq_some : descend mem pt i = some pg ↔ child mem pt i = some pg ∧ pg ≠ 0 := by
  unfold descend child
  by_cases valid : entry mem pt i &&& V = 0
  · rw [if_neg (not_not.mpr valid), if_pos valid]
    exact iff_of_false nofun fun h => nomatch h.1
  · rw [if_pos valid, if_neg valid]
    have aligned : (pte2pa (entry mem pt i)).toNat % 4096 = 0 := by
      rw [toNat_pte2pa]
      omega
    by_cases zero : pte2pa (entry mem pt i) = 0
    · rw [if_pos (.inl zero)]
      refine iff_of_false nofun ?_
      rintro ⟨is, positive⟩
      cases is
      exact positive zero
    · rw [if_neg (not_or.mpr ⟨zero, not_not.mpr aligned⟩)]
      constructor
      · intro is
        cases is
        exact ⟨rfl, zero⟩
      · exact And.left

theorem walkLookup_eq_some : walkLookup mem pt va = some p ↔
    ∃ pg, child mem pt (index 2 va) = some pg ∧ pg ≠ 0 ∧
      child mem pg (index 1 va) = some p.table ∧ p.table ≠ 0 ∧ p.idx = index 0 va := by
  unfold walkLookup
  simp (disch := decide) only [checkValid_signExtend, if_true, index_signExtend, Option.bind_eq_bind,
    Option.bind_eq_some_iff, descend_eq_some]
  constructor
  · rintro ⟨pg, ⟨first, some⟩, pg', ⟨second, some'⟩, is⟩
    cases is
    exact ⟨pg, first, some, second, some', rfl⟩
  · rintro ⟨pg, first, some, second, some', is⟩
    refine ⟨pg, ⟨first, some⟩, p.table, ⟨second, some'⟩, ?_⟩
    rw [← is]
    rfl

theorem lookup_congr_path {va' : Word} (same : path va = path va') :
    lookup s pt va = lookup s pt va' := by
  simp only [path, List.cons.injEq, and_true] at same
  obtain ⟨high, middle, low⟩ := same
  have walks : walkLookup s.mem pt va = walkLookup s.mem pt va' := by
    apply Option.ext
    intro pte
    rw [walkLookup_eq_some, walkLookup_eq_some, high, middle, low]
  rw [lookup, lookup, walks]

theorem lookup_valid {e : Word} (is : lookup s pt va = some e) : e &&& V ≠ 0 := by
  rw [lookup, Option.bind_eq_some_iff] at is
  obtain ⟨pte, -, last⟩ := is
  split at last
  · cases last
  · next valid =>
    cases last
    exact valid

/-- The tables are as they were, and so are the walks. -/
theorem TableKept.child (kept : TableKept pt s t) {before : List Index} {pg : Word}
    (walk : node s.mem pt before = some pg) (short : before.length ≤ 2) (i : Index) :
    child t.mem pg i = child s.mem pg i := by
  rw [Sv39.child, Sv39.child, entry, entry, kept before pg short walk]

theorem TableKept.nodes (kept : TableKept pt s t) {ds : List Index} (short : ds.length ≤ 3) :
    Sv39.node t.mem pt ds = Sv39.node s.mem pt ds :=
  node_kept fun q pg less => kept q pg (by omega)

theorem TableKept.walkLookup (kept : TableKept pt s t) (va : Word) :
    walkLookup t.mem pt va = walkLookup s.mem pt va := by
  have root : Sv39.node s.mem pt [] = some pt := rfl
  have high := kept.child root (Nat.zero_le _) (index 2 va)
  apply Option.ext
  intro pte
  rw [walkLookup_eq_some, walkLookup_eq_some, high]
  refine exists_congr fun pg => and_congr_right fun first => ?_
  have walk : Sv39.node s.mem pt [index 2 va] = some pg := by
    rw [Sv39.node, first]
    rfl
  rw [kept.child walk (Nat.le_succ 1)]

theorem TableKept.read (kept : TableKept pt s t) {pte : PteRef}
    (found : Vm.walkLookup s.mem pt va = some pte) : pte.read t.mem = pte.read s.mem := by
  obtain ⟨pg, first, -, second, -⟩ := walkLookup_eq_some.mp found
  have walk : Sv39.node s.mem pt [index 2 va, index 1 va] = some pte.table := by
    rw [Sv39.node, first, Option.bind_some, Sv39.node, second]
    rfl
  rw [PteRef.read, PteRef.read, entry, entry, kept _ _ (by simp) walk]

theorem TableKept.userVa2pa (kept : TableKept pt s t) (va : Word) :
    userVa2pa t.mem pt va = userVa2pa s.mem pt va := by
  unfold Vm.userVa2pa
  rw [kept.walkLookup]
  split
  · rfl
  · next pte found => rw [kept.read found]

theorem TableKept.lookup (kept : TableKept pt s t) (va : Word) : lookup t pt va = lookup s pt va := by
  rw [Vm.lookup, Vm.lookup, kept.walkLookup]
  cases found : Vm.walkLookup s.mem pt va with
  | none => rfl
  | some pte => rw [Option.bind_some, Option.bind_some, kept.read found]

end Xv6Lab.Vm

import Xv6Lab.Vm.Ownership

/-! Specifications of the allocator and of the page-table code under an ownership map. -/

namespace Xv6Lab.Vm

open Rv64 Sv39 Exec
open Trap (PGSIZE TRAMPOLINE TRAPFRAME)

variable {s t u : Kernel} {o o' o'' : Owners} {h : Holder} {pg pt va : Word}

/-! ### Pages -/

/-- `alloc_page` takes a page from the free list. -/
theorem allocPage_wp (w : Owns s o) :
    wp allocPage (fun r t => o r = .free ∧ Owns t (Function.update o r .other) ∧ Quiet s t ∧
      ∀ pg ≠ r, t.mem pg = s.mem pg) Panics s := by
  unfold allocPage
  simp only [wp_bind, wp_get]
  split
  · next nonempty =>
    simp only [wp_bind, wp_set, wp_pure]
    obtain ⟨l, chain, nodup, members⟩ := w.free
    cases l with
    | nil => exact absurd chain nonempty
    | cons r rest =>
      obtain ⟨first, nonzero, tail⟩ := chain
      rw [first] at *
      obtain ⟨fresh, nodup⟩ := List.nodup_cons.mp nodup
      have free : o r = .free := (members r).mp (by simp)
      have away : ∀ pg ≠ r, Function.update s.mem r
          (fun off => if off = 0 then s.mem r 0 else fives) pg = s.mem pg :=
        fun pg ne => Function.update_of_ne ne _ _
      refine ⟨free, ?_, ⟨rfl, rfl, rfl, rfl, rfl⟩, away⟩
      have labels : ∀ h, label (Function.update o r .other) h = label o h := fun h =>
        label_update o h (by simp [free]) (by simp)
      exact {
        base := w.base
        free := by
          refine ⟨rest, tail.congr fun pg inside => away pg ?_, nodup, fun pg => ?_⟩
          · rintro rfl
            exact fresh inside
          · by_cases same : pg = r
            · subst same
              simpa using fresh
            · simp [same, ← members]
        managed := fun pg known => by
          have ne : pg ≠ r := by
            rintro rfl
            simp at known
          have old := w.managed pg (by simpa [ne] using known)
          exact ⟨old.1, old.2, old.3⟩
        tree := fun h => by
          rw [labels h]
          refine (w.tree h).congr fun pg ds at_pg _ => away pg ?_
          rintro rfl
          rw [label_eq, free] at at_pg
          cases at_pg
        solid := fun pg h ds i at_pg len valid => by
          have ne : pg ≠ r := by
            rintro rfl
            simp at at_pg
          have kept := away pg ne
          simp only [entry, setMem_mem, kept] at valid ⊢
          exact w.solid pg h ds i (by simpa [ne] using at_pg) len valid }
  · exact ⟨_, rfl⟩

/-- A new page with contents of its own, for `h`. -/
structure Filled (h : Holder) (pg : Word) (own : Owner) (s : Kernel) (o : Owners) (t : Kernel) :
    Prop where
  owns : Owns t (Function.update o pg own)
  quiet : Quiet s t
  grows : Grows h s o t (Function.update o pg own)
  others : ∀ pg' ≠ pg, t.mem pg' = s.mem pg'
  translate : ∀ h' pt, o pt = .table h' [] → ∀ va, translate t.mem pt va = translate s.mem pt va

theorem Owns.fill (w : Owns s o) (w' : Owns t (Function.update o pg .other)) (free : o pg = .free)
    (quiet : Quiet s t) (away : ∀ pg' ≠ pg, t.mem pg' = s.mem pg') (contents : Word → Word)
    {own : Owner} (mine : own.of h) (plain : ∀ h ds, own ≠ .table h ds) :
    Filled h pg own s o (t.setMem (Function.update t.mem pg contents)) := by
  have used : own ≠ .free := by
    rintro rfl
    exact mine
  have m : Managed s pg := w.managed pg (by simp [free])
  have given := w'.give (by simp) ⟨m.1, quiet.kernelEnd ▸ m.2, m.3⟩ used plain
  rw [Function.update_idem] at given
  have others : ∀ pg' ≠ pg, Function.update t.mem pg contents pg' = s.mem pg' :=
    fun pg' ne => (Function.update_of_ne ne _ _).trans (away pg' ne)
  refine ⟨given.setMem _ fun pg' owned => ?_, quiet.trans (.setMem t _), fun pg' => ?_, others, ?_⟩
  · have ne : pg' ≠ pg := by
      rintro rfl
      rcases owned with eq | ⟨h, ds, eq⟩
      · exact used (by simpa using eq)
      · exact plain h ds (by simpa using eq)
    exact Function.update_of_ne ne _ _
  · by_cases same : pg' = pg
    · subst same
      exact .inl ⟨free, by simpa using mine⟩
    · exact .inr ⟨by simp [same], .inr (others pg' same)⟩
  · intro h' pt root va
    refine (w.tree h').translate_congr (fun pg' ds at_pg => others pg' ?_) (label_eq.mpr root) va
    rintro rfl
    rw [label_eq, free] at at_pg
    cases at_pg

/-- `alloc_page` on behalf of `h`, for a page that is not to be a table. -/
theorem allocPage_for (w : Owns s o) (own : Owner) (mine : own.of h)
    (plain : ∀ h ds, own ≠ .table h ds) :
    wp allocPage (fun r t => o r = .free ∧ Filled h r own s o t) Panics s := by
  refine wp_conseq (allocPage_wp w) fun r t ⟨free, w', quiet, away⟩ => ⟨free, ?_⟩
  have filled := w.fill w' free quiet away (t.mem r) mine plain
  rw [Function.update_eq_self] at filled
  exact filled

/-! ### Tables -/

/-- The bits that make an entry a leaf. -/
theorem rwx_or {x : Word} (y : Word) (solid : x &&& (R ||| W ||| X) ≠ 0) :
    (x ||| y) &&& (R ||| W ||| X) ≠ 0 := by
  rw [BitVec.and_or_distrib_right]
  intro zero
  exact solid (BitVec.or_eq_zero_iff.mp zero).1

theorem link_valid (pg : Word) : (pa2pte pg ||| V) &&& V ≠ 0 := by
  rw [BitVec.and_or_distrib_right]
  intro zero
  exact absurd (BitVec.or_eq_zero_iff.mp zero).2 (by decide)

theorem label_hang (o : Owners) (pg : Word) (h : Holder) (ds : List Index) :
    label (Function.update o pg (.table h ds)) h = Function.update (label o h) pg (some ds) := by
  funext pg'
  by_cases same : pg' = pg
  · subst same
    simp [label]
  · simp [label, same]

theorem label_hang_ne (o : Owners) {h h' : Holder} (ds : List Index) (free : o pg = .free)
    (ne : h' ≠ h) : label (Function.update o pg (.table h ds)) h' = label o h' := by
  funext pg'
  by_cases same : pg' = pg
  · subst same
    simp [label, free, ne.symm]
  · simp [label, same]

/-- A page in hand becomes a table: what is left to show is that the trees are right. -/
theorem Owns.relabel {new : Word} {own : Owner} (w : Owns t (Function.update o new .other))
    (m : Managed t new) (used : own ≠ .free) {mem : Mem}
    (same : ∀ pg ≠ new, o pg = .free → mem pg = t.mem pg)
    (tree : ∀ h, Labelled mem (label (Function.update o new own) h))
    (solid : ∀ pg h ds i, Function.update o new own pg = .table h ds → ds.length = 2 →
      entry mem pg i &&& V ≠ 0 → entry mem pg i &&& (R ||| W ||| X) ≠ 0) :
    Owns (t.setMem mem) (Function.update o new own) where
  base := w.base
  free := by
    obtain ⟨l, chain, nodup, members⟩ := w.free
    refine ⟨l, chain.congr fun pg inside => ?_, nodup, fun pg => ?_⟩
    · have at_pg := (members pg).mp inside
      have ne : pg ≠ new := by
        rintro rfl
        simp at at_pg
      exact same pg ne (by simpa [ne] using at_pg)
    · rw [members]
      by_cases eq : pg = new
      · simp [eq, used]
      · simp [eq]
  managed pg known := by
    by_cases eq : pg = new
    · subst eq
      exact ⟨m.1, m.2, m.3⟩
    · have old := w.managed pg (by simpa [eq] using known)
      exact ⟨old.1, old.2, old.3⟩
  tree := tree
  solid := solid

/-- The page `new`, just allocated and cleared, becomes the table below entry `i` of `pt`. -/
theorem Owns.hang {new : Word} {ds : List Index} {i : Index} (w : Owns s o)
    (w' : Owns t (Function.update o new .other)) (at_pt : o pt = .table h ds)
    (short : ds.length < 2) (free : o new = .free) (m : Managed t new)
    (away : ∀ pg ≠ new, t.mem pg = s.mem pg) {mem : Mem}
    (is : mem = Mem.store (Function.update t.mem new fun _ => 0) pt (slot i) (pa2pte new ||| V)) :
    Linked s.mem mem pt i new ∧
      Owns (t.setMem mem) (Function.update o new (.table h (ds ++ [i]))) := by
  have apart : pt ≠ new := by
    rintro rfl
    rw [free] at at_pt
    cases at_pt
  have elsewhere : ∀ pg, pg ≠ new → pg ≠ pt → mem pg = s.mem pg := by
    intro pg ne ne'
    rw [is, ← away pg ne]
    funext off
    rw [Mem.store_page _ _ _ _ ne', Function.update_of_ne ne]
  have linked : Linked s.mem mem pt i new := by
    refine ⟨fun pg' j ne off => ?_, ?_, fun j => ?_⟩
    · by_cases same : pg' = pt
      · subst same
        have other : slot j ≠ slot i := fun eq => off.resolve_left (by simp) (slot_injective eq)
        rw [entry, entry, is, Mem.store_off _ _ _ other, Function.update_of_ne ne, away _ ne]
      · rw [entry, entry, elsewhere pg' ne same]
    · have store : entry mem pt i = pa2pte new ||| V := by rw [entry, is, Mem.store_same]
      rw [child, store, if_neg (link_valid new), pte2pa_make m.toFrame (by decide)]
    · rw [entry, is, Mem.store_page _ _ _ _ apart.symm, Function.update_self]
  refine ⟨linked, w'.relabel m (by simp) (fun pg ne free => ?_) (fun h' => ?_) ?_⟩
  · have ne' : pg ≠ pt := by
      rintro rfl
      rw [free] at at_pt
      cases at_pt
    exact (elsewhere pg ne ne').trans (away pg ne).symm
  · by_cases mine : h' = h
    · subst mine
      rw [label_hang]
      refine linked.labelled (w.tree h') (label_eq.mpr at_pt) ?_
      simp [label, free]
    · rw [label_hang_ne o _ free mine]
      refine (w.tree h').congr fun pg ds' at_pg _ => elsewhere pg ?_ ?_
      · rintro rfl
        rw [label_eq, free] at at_pg
        cases at_pg
      · rintro rfl
        rw [label_eq, at_pt] at at_pg
        exact mine (by injection at_pg with eq; exact eq.symm)
  · intro pg h' ds' j at_pg len valid
    by_cases same : pg = new
    · subst same
      exact absurd (by simp [linked.empty j]) valid
    · have old : o pg = .table h' ds' := by simpa [same] using at_pg
      have ne : pg ≠ pt := by
        rintro rfl
        rw [at_pt] at old
        injection old with _ eq
        rw [← eq] at len
        omega
      rw [entry, elsewhere pg same ne] at valid ⊢
      exact w.solid pg h' ds' j old len valid

/-- One level of `walk_create` ends at the table of that level. -/
structure Descended (h : Holder) (pt : Word) (ds : List Index) (i : Index) (s : Kernel) (o : Owners)
    (t : Kernel) (o' : Owners) (pg : Word) : Prop where
  owns : Owns t o'
  quiet : Quiet s t
  grows : Grows h s o t o'
  table : o' pg = .table h (ds ++ [i])
  step : child t.mem pt i = some pg
  others : ∀ pg' j, o pg' ≠ .free → (pg' ≠ pt ∨ j ≠ i) → entry t.mem pg' j = entry s.mem pg' j
  translate : ∀ root, o root = .table h [] → ∀ va, translate t.mem root va = translate s.mem root va

theorem descendCreate_wp (w : Owns s o) {ds : List Index} (at_pt : o pt = .table h ds)
    (short : ds.length < 2) (i : Index) :
    wp (descendCreate pt i) (fun r t => ∃ pg o', r = some pg ∧ Descended h pt ds i s o t o' pg)
      Panics s := by
  unfold descendCreate
  simp only [wp_bind, wp_get]
  split
  · next valid =>
    rw [wp_pure]
    have step : child s.mem pt i = some (pte2pa (entry s.mem pt i)) := if_neg valid
    refine ⟨_, o, rfl, w, .refl s, .refl h s o, ?_, step, fun _ _ _ _ => rfl, fun _ _ _ => rfl⟩
    exact label_eq.mp (w.tree h pt ds i _ (label_eq.mpr at_pt) short step)
  · next invalid =>
    have unset : child s.mem pt i = none := if_pos (not_not.mp invalid)
    rw [wp_bind]
    refine wp_conseq (allocPage_wp w) fun new t ⟨free, w', quiet, away⟩ => ?_
    have m : Managed s new := w.managed new (by simp [free])
    rw [if_neg (m.ne_zero w.base)]
    simp only [wp_bind, clearPage, storeWord, wp_modify, wp_pure]
    have m' : Managed t new := ⟨m.1, quiet.kernelEnd ▸ m.2, m.3⟩
    obtain ⟨linked, owns⟩ := w.hang w' at_pt short free m' away rfl
    have fresh : label o h new = none := by simp [label, free]
    refine ⟨new, _, rfl, owns, quiet.trans (.setMem t _), fun pg => ?_, by simp, linked.link,
      fun pg j known off => linked.others pg j (fun eq => known (eq ▸ free)) off, fun root at_root va =>
        linked.translate (w.tree h) unset (label_eq.mpr at_pt) short fresh (label_eq.mpr at_root) va⟩
    by_cases same : pg = new
    · subst same
      exact .inl ⟨free, by rw [Function.update_self]; exact rfl⟩
    · refine .inr ⟨by simp [same], ?_⟩
      by_cases here : pg = pt
      · exact .inl ⟨ds, here ▸ at_pt⟩
      · refine .inr ?_
        rw [← away pg same]
        funext off
        simp only [setMem_mem]
        rw [Mem.store_page _ _ _ _ here, Function.update_of_ne same]

/-- `create_pagetable` makes a root for a holder. -/
theorem createPagetable_wp (w : Owns s o) (h : Holder) :
    wp createPagetable (fun r t => ∃ o', Owns t o' ∧ Quiet s t ∧ Grows h s o t o' ∧
      o' r = .table h [] ∧ ∀ va, translate t.mem r va = none) Panics s := by
  unfold createPagetable
  rw [wp_bind]
  refine wp_conseq (allocPage_wp w) fun new t ⟨free, w', quiet, away⟩ => ?_
  have m : Managed s new := w.managed new (by simp [free])
  have m' : Managed t new := ⟨m.1, quiet.kernelEnd ▸ m.2, m.3⟩
  rw [if_neg (m.ne_zero w.base)]
  simp only [wp_bind, clearPage, wp_modify, wp_pure]
  have elsewhere : ∀ pg ≠ new, Function.update t.mem new (fun _ => 0) pg = s.mem pg :=
    fun pg ne => (Function.update_of_ne ne _ _).trans (away pg ne)
  have empty : ∀ j, entry (Function.update t.mem new fun _ => 0) new j = 0 := by
    intro j
    rw [entry, Function.update_self]
  refine ⟨Function.update o new (.table h []), w'.relabel m' (by simp) (fun pg ne _ => ?_)
    (fun h' => ?_) ?_, quiet.trans (.setMem t _), fun pg => ?_, by simp, fun va => ?_⟩
  · rw [Function.update_of_ne ne]
  · intro pg ds i next at_pg short step
    rw [label_eq] at at_pg ⊢
    by_cases same : pg = new
    · subst same
      rw [child, empty i] at step
      simp at step
    · rw [Function.update_of_ne same] at at_pg
      rw [child, entry, elsewhere pg same] at step
      have target := label_eq.mp (w.tree h' pg ds i next (label_eq.mpr at_pg) short step)
      have ne : next ≠ new := by
        rintro rfl
        rw [free] at target
        cases target
      rw [Function.update_of_ne ne, target]
  · intro pg h' ds i at_pg len valid
    by_cases same : pg = new
    · subst same
      rw [empty i] at valid
      exact absurd (by decide) valid
    · rw [Function.update_of_ne same] at at_pg
      rw [entry, elsewhere pg same] at valid ⊢
      exact w.solid pg h' ds i at_pg len valid
  · by_cases same : pg = new
    · subst same
      exact .inl ⟨free, by rw [Function.update_self]; exact rfl⟩
    · exact .inr ⟨by simp [same], .inr (elsewhere pg same)⟩
  · have none : child (Function.update t.mem new fun _ => 0) new (index 2 va) = none := by
      rw [child, empty, if_pos (by decide)]
    rw [setMem_mem, Sv39.translate, node, none]
    rfl

/-! ### Walks -/

theorem low39_bit {k : Nat} (low : k < 39) : (((1 : Word) <<< 39) - 1).getLsbD k = true := by
  have all : ∀ j : Fin 39, (((1 : Word) <<< 39) - 1).getLsbD j = true := by decide
  exact all ⟨k, low⟩

/-- Sign extension keeps the bits that index the tables. -/
theorem index_signExtend (va : Word) {level : Nat} (inside : level ≤ 2) :
    index level (sv39SignExtend va) = index level va := by
  apply BitVec.eq_of_getLsbD_eq
  intro k hk
  have bit := @low39_bit (12 + 9 * level + k) (by omega)
  unfold sv39SignExtend
  split
  · simp only [index, BitVec.getLsbD_setWidth, BitVec.getLsbD_ushiftRight, BitVec.getLsbD_or,
      BitVec.getLsbD_not, bit]
    simp
  · simp only [index, BitVec.getLsbD_setWidth, BitVec.getLsbD_ushiftRight, BitVec.getLsbD_and, bit,
      Bool.and_true]

/-- An address that has been sign-extended passes the range check. -/
theorem checkValid_signExtend (va : Word) : sv39CheckValid (sv39SignExtend va) = true := by
  unfold sv39SignExtend sv39CheckValid
  simp only [Bool.or_eq_true, decide_eq_true_eq]
  split
  · right
    rw [BitVec.le_def, BitVec.toNat_or]
    exact Nat.right_le_or
  · left
    rw [BitVec.lt_def, BitVec.toNat_and]
    exact lt_of_le_of_lt Nat.and_le_right (by decide)

/-- `walk_create` ends at the entry of `va`, and moves no translation. -/
structure Walked (h : Holder) (pt va : Word) (s : Kernel) (o : Owners) (t : Kernel) (o' : Owners)
    (pte : PteRef) : Prop where
  owns : Owns t o'
  quiet : Quiet s t
  grows : Grows h s o t o'
  walk : node t.mem pt [index 2 va, index 1 va] = some pte.table
  idx : pte.idx = index 0 va
  translate : ∀ va', translate t.mem pt va' = translate s.mem pt va'

theorem Grows.table (g : Grows h s o t o') {ds : List Index} (at_pg : o pg = .table h ds) :
    o' pg = .table h ds := by
  rcases g pg with ⟨free, _⟩ | ⟨same, _⟩
  · rw [free] at at_pg
    cases at_pg
  · exact same.trans at_pg

theorem walkCreate_wp (w : Owns s o) (root : o pt = .table h []) (va : Word) :
    wp (walkCreate pt va) (fun r t => ∃ pte o', r = some pte ∧ Walked h pt va s o t o' pte)
      Panics s := by
  unfold walkCreate
  simp (disch := decide) only [checkValid_signExtend, if_true, index_signExtend, wp_bind]
  refine wp_conseq (descendCreate_wp w root (by simp) (index 2 va)) fun r t ⟨pg, o₁, is, first⟩ => ?_
  subst is
  rw [wp_bind]
  refine wp_conseq (descendCreate_wp first.owns first.table (by simp) (index 1 va))
    fun r u ⟨pg', o₂, is, second⟩ => ?_
  subst is
  rw [wp_pure]
  have apart : pt ≠ pg := by
    rintro rfl
    have same := (first.grows.table root).symm.trans first.table
    simp at same
  have kept : child u.mem pt (index 2 va) = some pg := by
    have known : o₁ pt ≠ .free := by simp [first.grows.table root]
    rw [← first.step, child, child, second.others pt _ known (.inl apart)]
  refine ⟨_, o₂, rfl, second.owns, first.quiet.trans second.quiet, first.grows.trans second.grows,
    ?_, rfl, fun va' => ?_⟩
  · simp [node, kept, second.step]
  · rw [second.translate pt (first.grows.table root), first.translate pt root]

/-- `walk_lookup` reads the tree. -/
theorem walkLookup_eq (w : Owns s o) (root : o pt = .table h []) (va : Word) :
    walkLookup s.mem pt va =
      (node s.mem pt [index 2 va, index 1 va]).map fun pg => ⟨pg, index 0 va⟩ := by
  have down : ∀ {pg ds} i, o pg = .table h ds → ds.length < 2 →
      descend s.mem pg i = child s.mem pg i := by
    intro pg ds i at_pg short
    unfold descend
    by_cases valid : entry s.mem pg i &&& V = 0
    · rw [child, if_pos valid]
      simp [valid]
    · have step : child s.mem pg i = some (pte2pa (entry s.mem pg i)) := if_neg valid
      have owner := label_eq.mp (w.tree h pg ds i _ (label_eq.mpr at_pg) short step)
      have m := w.managed _ (by rw [owner]; simp)
      rw [step]
      have real : ¬ (pte2pa (entry s.mem pg i) = 0 ∨ (pte2pa (entry s.mem pg i)).toNat % 4096 ≠ 0) := by
        rintro (zero | unaligned)
        · exact m.ne_zero w.base zero
        · exact unaligned m.aligned
      simp only [ne_eq, valid, not_false_eq_true, if_true]
      rw [if_neg real]
  unfold walkLookup
  simp (disch := decide) only [checkValid_signExtend, if_true, index_signExtend]
  rw [down _ root (by simp)]
  cases first : child s.mem pt (index 2 va) with
  | none =>
    rw [node, first]
    rfl
  | some pg =>
    have at_pg := label_eq.mp (w.tree h pt [] _ _ (label_eq.mpr root) (by simp) first)
    simp only [Option.bind_eq_bind, Option.bind_some]
    rw [down _ at_pg (by simp)]
    rw [node, first, Option.bind_some, node]
    cases child s.mem pg (index 1 va) <;> rfl

/-- What `walk_lookup` finds is the translation, once the entry is checked for validity. -/
theorem translate_of_walkLookup (w : Owns s o) (root : o pt = .table h []) (va : Word) :
    translate s.mem pt va = (walkLookup s.mem pt va).bind fun pte =>
      if pte.read s.mem &&& V = 0 then none else some (pte.read s.mem) := by
  rw [walkLookup_eq w root, Sv39.translate]
  cases node s.mem pt [index 2 va, index 1 va] <;> rfl

/-! ### Mappings -/

/-- A store of a valid leaf entry into a table of the last level. -/
theorem Owns.storeLeaf (w : Owns s o) (root : o pt = .table h []) {i₂ i₁ : Index}
    (walk : node s.mem pt [i₂, i₁] = some pg) (i₀ : Index) {e : Word} (valid : e &&& V ≠ 0)
    (solid : e &&& (R ||| W ||| X) ≠ 0) :
    Owns (s.setMem (s.mem.store pg (slot i₀) e)) o ∧
      Grows h s o (s.setMem (s.mem.store pg (slot i₀) e)) o ∧
      ∀ va, translate (s.mem.store pg (slot i₀) e) pt va =
        if path va = [i₂, i₁, i₀] then some e else translate s.mem pt va := by
  have at_pg : o pg = .table h [i₂, i₁] :=
    label_eq.mp ((w.tree h).node (label_eq.mpr root) (by simp) walk)
  have elsewhere : ∀ pg' ≠ pg, s.mem.store pg (slot i₀) e pg' = s.mem pg' :=
    fun pg' ne => funext fun off => Mem.store_page _ _ _ _ ne
  refine ⟨?_, fun pg' => .inr ⟨rfl, ?_⟩,
    (w.tree h).translate_store (label_eq.mpr root) walk valid⟩
  · exact {
      base := w.base
      free := by
        obtain ⟨l, chain, nodup, members⟩ := w.free
        refine ⟨l, chain.congr fun pg' inside => elsewhere pg' ?_, nodup, members⟩
        rintro rfl
        rw [members, at_pg] at inside
        cases inside
      managed := fun pg' known => ⟨(w.managed pg' known).1, (w.managed pg' known).2,
        (w.managed pg' known).3⟩
      tree := fun h' => by
        by_cases mine : h' = h
        · subst mine
          exact (w.tree h').store_leaf (label_eq.mpr at_pg) _ _
        · refine (w.tree h').congr fun pg' ds at_pg' _ => elsewhere pg' ?_
          rintro rfl
          rw [label_eq, at_pg] at at_pg'
          exact mine (by injection at_pg' with eq; exact eq.symm)
      solid := fun pg' h' ds j at_pg' len valid' => by
        by_cases same : pg' = pg ∧ j = i₀
        · obtain ⟨rfl, rfl⟩ := same
          simpa [entry] using solid
        · have kept : entry (s.mem.store pg (slot i₀) e) pg' j = entry s.mem pg' j := by
            by_cases here : pg' = pg
            · have off : slot j ≠ slot i₀ := fun eq => same ⟨here, slot_injective eq⟩
              rw [here, entry, entry, Mem.store_off _ _ _ off]
            · rw [entry, entry, elsewhere pg' here]
          rw [setMem_mem, kept] at valid' ⊢
          exact w.solid pg' h' ds j at_pg' len valid' }
  · by_cases here : pg' = pg
    · exact .inl ⟨_, here ▸ at_pg⟩
    · exact .inr (elsewhere pg' here)

/-- The permissions that `map_page` gives. -/
def mapPerm (va perm : Word) : Word := if USER_LIMIT ≤ va then perm &&& ~~~U else perm

/-- The entry that `map_page` stores, from the one it finds. -/
def mapEntry (va pa perm : Word) : Option Word → Word
  | none => pa2pte pa ||| mapPerm va perm ||| V
  | some old => pa2pte pa ||| mapPerm va ((flags old ||| mapPerm va perm) &&& 0x3ff) ||| V

theorem mask_rwx (x : Word) {m : Word} (wide : m &&& (R ||| W ||| X) = R ||| W ||| X) :
    x &&& m &&& (R ||| W ||| X) = x &&& (R ||| W ||| X) := by
  rw [BitVec.and_assoc, wide]

theorem mapPerm_rwx (va perm : Word) :
    mapPerm va perm &&& (R ||| W ||| X) = perm &&& (R ||| W ||| X) := by
  unfold mapPerm
  split
  · exact mask_rwx perm (by decide)
  · rfl

theorem or_rwx {x : Word} (y : Word) (solid : x &&& (R ||| W ||| X) ≠ 0) :
    (y ||| x) &&& (R ||| W ||| X) ≠ 0 := by
  rw [BitVec.or_comm]
  exact rwx_or y solid

theorem mapEntry_solid (va pa : Word) {perm : Word} (solid : perm &&& (R ||| W ||| X) ≠ 0)
    (old : Option Word) : mapEntry va pa perm old &&& (R ||| W ||| X) ≠ 0 := by
  have given : mapPerm va perm &&& (R ||| W ||| X) ≠ 0 := mapPerm_rwx va perm ▸ solid
  cases old with
  | none => exact rwx_or _ (or_rwx _ given)
  | some e =>
    refine rwx_or _ (or_rwx _ ?_)
    rw [mapPerm_rwx, mask_rwx _ (by decide)]
    exact or_rwx _ given

theorem mapEntry_valid (va pa perm : Word) (old : Option Word) :
    mapEntry va pa perm old &&& V ≠ 0 := by
  have set : ∀ x : Word, (x ||| V) &&& V ≠ 0 := by
    intro x
    rw [BitVec.and_or_distrib_right]
    intro zero
    exact absurd (BitVec.or_eq_zero_iff.mp zero).2 (by decide)
  cases old <;> exact set _

/-- Where the current process may map: a user process only below the kernel's half, and its two
special pages. -/
def MayMap (s : Kernel) (va : Word) : Prop :=
  s.userCurrent → va < USER_LIMIT ∨ va = TRAMPOLINE ∨ va = TRAPFRAME

theorem MayMap.allowed (may : MayMap s va) :
    ¬ (s.userCurrent ∧ USER_LIMIT ≤ va ∧ va ≠ TRAMPOLINE ∧ va ≠ TRAPFRAME) := by
  rintro ⟨user, high, notTramp, notFrame⟩
  rcases may user with low | tramp | frame
  · exact absurd low (BitVec.not_lt.mpr high)
  · exact notTramp tramp
  · exact notFrame frame

/-- `map_page` sets the translation of one page. -/
structure Mapped (h : Holder) (pt va e : Word) (s : Kernel) (o : Owners) (t : Kernel) (o' : Owners) :
    Prop where
  owns : Owns t o'
  quiet : Quiet s t
  grows : Grows h s o t o'
  translate : ∀ va', translate t.mem pt va' =
    if path va' = path va then some e else translate s.mem pt va'

theorem mapPage_wp (w : Owns s o) (root : o pt = .table h []) (may : MayMap s va) {pa perm : Word}
    (solid : perm &&& (R ||| W ||| X) ≠ 0) :
    wp (mapPage pt va pa perm) (fun r t => r = 0 ∧ ∃ o',
      Mapped h pt va (mapEntry va pa perm (translate s.mem pt va)) s o t o') Panics s := by
  unfold mapPage
  simp only [wp_bind, wp_get, if_neg may.allowed]
  split
  · exact ⟨_, rfl⟩
  · simp only [wp_bind]
    refine wp_conseq (walkCreate_wp w root va) fun r t ⟨pte, o₁, is, walked⟩ => ?_
    subst is
    simp only [wp_bind, wp_get]
    have old : translate s.mem pt va = leaf t.mem pte.idx pte.table := by
      rw [← walked.translate va, Sv39.translate, walked.walk, walked.idx]
      rfl
    have root₁ := walked.grows.table root
    have stored := fun e valid rwx =>
      walked.owns.storeLeaf root₁ walked.walk pte.idx (e := e) valid rwx
    have finish : ∀ e, e = mapEntry va pa perm (translate s.mem pt va) →
        ∃ o', Mapped h pt va (mapEntry va pa perm (translate s.mem pt va)) s o
          (t.setMem (t.mem.store pte.table (slot pte.idx) e)) o' := by
      rintro e rfl
      obtain ⟨owns, grows, moved⟩ :=
        stored _ (mapEntry_valid va pa perm _) (mapEntry_solid va pa solid _)
      refine ⟨o₁, owns, walked.quiet.trans (.setMem t _), walked.grows.trans grows, fun va' => ?_⟩
      rw [setMem_mem, moved va', walked.translate va', walked.idx]
      rfl
    split
    · next valid =>
      have found : translate s.mem pt va = some (pte.read t.mem) := old.trans (if_neg valid)
      split
      · exact ⟨rfl, finish _ (by rw [found]; rfl)⟩
      · exact ⟨_, rfl⟩
    · next invalid =>
      have missing : translate s.mem pt va = none := old.trans (if_pos (not_not.mp invalid))
      exact ⟨rfl, finish _ (by rw [missing]; rfl)⟩

end Xv6Lab.Vm

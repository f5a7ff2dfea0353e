import Xv6Lab.Vm.AddressSpace

/-! How `free_pagetable` takes a table apart.  While it runs, the tree is in pieces, so the
specification speaks of the map as it was before: every page it frees is a table of the tree, each
once, and no other page changes. -/

namespace Xv6Lab.Vm

open Rv64 Sv39 Exec

/-- Nothing stops the program. -/
def Never : Halt → Kernel → Prop := fun _ _ => False

variable {s t u : Kernel} {o : Owners} {h : Holder} {pg pt : Word} {l : List Word}

/-- `free_page` puts a page in front of the free list. -/
theorem freePage_wp (chain : Chain s.mem s.freelist l) (base : KERNBASE ≤ s.kernelEnd)
    (m : Managed s pg) (fresh : pg ∉ l) :
    wp (freePage pg) (fun _ t => Chain t.mem t.freelist (pg :: l) ∧ Quiet s t ∧
      ∀ pg' ≠ pg, t.mem pg' = s.mem pg') Never s := by
  have good : ¬ (pg.toNat % 4096 ≠ 0 ∨ pg < s.kernelEnd ∨ PHYSTOP ≤ pg) := by
    rintro (unaligned | below | above)
    · exact unaligned m.aligned
    · exact absurd m.above (BitVec.not_le.mpr below)
    · exact absurd m.below (BitVec.not_lt.mpr above)
  unfold freePage
  simp only [wp_bind, wp_get, if_neg good, wp_set]
  have elsewhere : ∀ pg' ≠ pg, s.mem.store pg 0 s.freelist pg' = s.mem pg' :=
    fun pg' ne => funext fun off => Mem.store_page _ _ _ _ ne
  refine ⟨⟨rfl, m.ne_zero base, ?_⟩, ⟨rfl, rfl, rfl, rfl, rfl⟩, elsewhere⟩
  have first : s.mem.store pg 0 s.freelist pg 0 = s.freelist := Mem.store_same _ _ _ _
  show Chain (s.mem.store pg 0 s.freelist) (s.mem.store pg 0 s.freelist pg 0) l
  rw [first]
  refine chain.congr fun pg' inside => elsewhere pg' ?_
  rintro rfl
  exact fresh inside

/-- The tables of `h` at or below the node `ds`. -/
def Below (o : Owners) (h : Holder) (ds : List Index) (pg : Word) : Prop :=
  ∃ q, o pg = .table h (ds ++ q)

theorem Below.of_child {ds : List Index} {i : Index} (b : Below o h (ds ++ [i]) pg) :
    Below o h ds pg := by
  obtain ⟨q, eq⟩ := b
  exact ⟨i :: q, by simpa using eq⟩

/-- What taking apart the tables below `ds` has done. -/
structure Freed (o : Owners) (h : Holder) (ds : List Index) (l l' : List Word) (s t : Kernel) :
    Prop where
  chain : Chain t.mem t.freelist (l' ++ l)
  nodup : l'.Nodup
  below : ∀ pg ∈ l', Below o h ds pg
  quiet : Quiet s t
  outside : ∀ pg, ¬ Below o h ds pg → t.mem pg = s.mem pg

/-- The loop of `free_pagetable` when the indices of `rest` are left. -/
structure Freeing (s₀ : Kernel) (o : Owners) (h : Holder) (pt : Word) (ds : List Index)
    (l : List Word) (s : Kernel) (rest : List Index) (l' : List Word) (t : Kernel) : Prop where
  chain : Chain t.mem t.freelist (l' ++ l)
  nodup : l'.Nodup
  below : ∀ pg ∈ l', ∃ i q, i ∉ rest ∧ o pg = .table h (ds ++ i :: q)
  quiet : Quiet s t
  outside : ∀ pg, ¬ Below o h ds pg → t.mem pg = s.mem pg
  intact : ∀ pg i q, i ∈ rest → o pg = .table h (ds ++ i :: q) → t.mem pg = s₀.mem pg
  entries : ∀ i ∈ rest, entry t.mem pt i = entry s₀.mem pt i

variable {s₀ : Kernel} {ds : List Index} {rest : List Index} {l' : List Word} {i : Index}

theorem Freeing.fresh_root (f : Freeing s₀ o h pt ds l s rest l' t) (at_pt : o pt = .table h ds)
    (away : ∀ pg ∈ l, ¬ Below o h ds pg) : pt ∉ l' ++ l := by
  intro inside
  rcases List.mem_append.mp inside with inside | inside
  · obtain ⟨j, q, -, eq⟩ := f.below pt inside
    rw [at_pt] at eq
    simp at eq
  · exact away pt inside ⟨[], by simpa using at_pt⟩

/-- The entry of a subtree that is gone, or of a leaf, is cleared. -/
theorem Freeing.clear (f : Freeing s₀ o h pt ds l s rest l' t) (at_pt : o pt = .table h ds)
    (away : ∀ pg ∈ l, ¬ Below o h ds pg) (fresh : i ∉ rest) :
    Freeing s₀ o h pt ds l s rest l' (t.setMem (t.mem.store pt (slot i) 0)) := by
  have elsewhere : ∀ pg ≠ pt, t.mem.store pt (slot i) 0 pg = t.mem pg :=
    fun pg ne => funext fun off => Mem.store_page _ _ _ _ ne
  have root := f.fresh_root at_pt away
  refine ⟨f.chain.congr fun pg inside => elsewhere pg ?_, f.nodup, f.below,
    f.quiet.trans (.setMem t _), fun pg out => ?_, fun pg j q inside eq => ?_, fun j inside => ?_⟩
  · rintro rfl
    exact root inside
  · refine (elsewhere pg ?_).trans (f.outside pg out)
    rintro rfl
    exact out ⟨[], by simpa using at_pt⟩
  · refine (elsewhere pg ?_).trans (f.intact pg j q inside eq)
    rintro rfl
    rw [at_pt] at eq
    simp at eq
  · have off : slot j ≠ slot i := by
      intro same
      exact fresh (slot_injective same ▸ inside)
    rw [← f.entries j inside, entry, entry, setMem_mem, Mem.store_off _ _ _ off]

/-- An index whose subtree needs no work. -/
theorem Freeing.pass (f : Freeing s₀ o h pt ds l s (i :: rest) l' t) :
    Freeing s₀ o h pt ds l s rest l' t where
  chain := f.chain
  nodup := f.nodup
  below pg inside := by
    obtain ⟨j, q, fresh, eq⟩ := f.below pg inside
    exact ⟨j, q, fun inside => fresh (by simp [inside]), eq⟩
  quiet := f.quiet
  outside := f.outside
  intact pg j q inside eq := f.intact pg j q (by simp [inside]) eq
  entries j inside := f.entries j (by simp [inside])

/-- The subtree of index `i` is taken apart. -/
theorem Freeing.subtree (f : Freeing s₀ o h pt ds l s (i :: rest) l' t)
    (at_pt : o pt = .table h ds) (fresh : i ∉ rest) {l'' : List Word}
    (more : Freed o h (ds ++ [i]) (l' ++ l) l'' t u) :
    Freeing s₀ o h pt ds l s rest (l'' ++ l') u where
  chain := by
    rw [List.append_assoc]
    exact more.chain
  nodup := by
    refine List.nodup_append.mpr ⟨more.nodup, f.nodup, fun pg inside pg' inside' => ?_⟩
    rintro rfl
    obtain ⟨q, eq⟩ := more.below pg inside
    obtain ⟨j, q', ne, eq'⟩ := f.below pg inside'
    rw [eq] at eq'
    simp at eq'
    exact ne (by simp [eq'.1])
  below pg inside := by
    rcases List.mem_append.mp inside with inside | inside
    · obtain ⟨q, eq⟩ := more.below pg inside
      exact ⟨i, q, fresh, by simpa using eq⟩
    · exact f.pass.below pg inside
  quiet := f.quiet.trans more.quiet
  outside pg out := (more.outside pg fun b => out b.of_child).trans (f.outside pg out)
  intact pg j q inside eq := by
    refine (more.outside pg ?_).trans (f.intact pg j q (by simp [inside]) eq)
    rintro ⟨q', eq'⟩
    rw [eq] at eq'
    simp at eq'
    exact fresh (eq'.1 ▸ inside)
  entries j inside := by
    have root : ¬ Below o h (ds ++ [i]) pt := by
      rintro ⟨q, eq⟩
      rw [at_pt] at eq
      simp at eq
    rw [← f.entries j (by simp [inside]), entry, entry, more.outside pt root]

theorem indices_nodup : indices.Nodup := by
  unfold indices
  refine List.Nodup.map_on ?_ List.nodup_range
  intro j inside k inside' same
  have value := congrArg BitVec.toNat same
  rw [List.mem_range] at inside inside'
  simp only [BitVec.toNat_ofNat] at value
  omega

/-- The table that `free_pagetable` sees behind an entry: one that is valid and permits nothing. -/
def subtable (mem : Mem) (pt : Word) (i : Index) : Option Word :=
  if entry mem pt i &&& V ≠ 0 ∧ entry mem pt i &&& (R ||| W ||| X) = 0 then
    some (pte2pa (entry mem pt i))
  else
    none

/-- The table to which the indices lead by way of such entries. -/
def tableAt (mem : Mem) : Word → List Index → Option Word
  | pt, [] => some pt
  | pt, i :: rest => (subtable mem pt i).bind (tableAt mem · rest)

/-- What has become of the tables below `pt`, which are those of `s₀`. -/
structure Dismantled (s₀ : Kernel) (o : Owners) (h : Holder) (pt : Word) (ds : List Index)
    (l l' : List Word) (s t : Kernel) : Prop extends Freed o h ds l l' s t where
  tables : ∀ pg, pg ∈ l' ↔ ∃ q, tableAt s₀.mem pt q = some pg
  kept : ∀ pg, pg ∉ l' → t.mem pg = s.mem pg

/-- The loop when the indices of `rest` are left, with what it has freed. -/
structure Dismantling (s₀ : Kernel) (o : Owners) (h : Holder) (pt : Word) (ds : List Index)
    (l : List Word) (s : Kernel) (rest : List Index) (l' : List Word) (t : Kernel) : Prop
    extends Freeing s₀ o h pt ds l s rest l' t where
  tables : ∀ pg, pg ∈ l' ↔ ∃ i q, i ∉ rest ∧ tableAt s₀.mem pt (i :: q) = some pg
  kept : ∀ pg, pg ≠ pt → pg ∉ l' → t.mem pg = s.mem pg

theorem Dismantling.clear (f : Dismantling s₀ o h pt ds l s rest l' t) (at_pt : o pt = .table h ds)
    (away : ∀ pg ∈ l, ¬ Below o h ds pg) (fresh : i ∉ rest) :
    Dismantling s₀ o h pt ds l s rest l' (t.setMem (t.mem.store pt (slot i) 0)) where
  toFreeing := f.toFreeing.clear at_pt away fresh
  tables := f.tables
  kept pg other unfreed := (funext fun _ => Mem.store_page _ _ _ _ other).trans (f.kept pg other unfreed)

/-- An entry behind which there is no table. -/
theorem Dismantling.pass (f : Dismantling s₀ o h pt ds l s (i :: rest) l' t)
    (plain : subtable s₀.mem pt i = none) : Dismantling s₀ o h pt ds l s rest l' t where
  toFreeing := f.toFreeing.pass
  tables pg := by
    rw [f.tables pg]
    constructor
    · rintro ⟨j, q, left, found⟩
      exact ⟨j, q, fun inside => left (List.mem_cons_of_mem i inside), found⟩
    · rintro ⟨j, q, left, found⟩
      refine ⟨j, q, fun inside => ?_, found⟩
      rcases List.mem_cons.mp inside with rfl | inside
      · rw [tableAt, plain] at found
        cases found
      · exact left inside
  kept := f.kept

theorem Dismantling.subtree {child : Word} (f : Dismantling s₀ o h pt ds l s (i :: rest) l' t)
    (at_pt : o pt = .table h ds) (fresh : i ∉ rest) (down : subtable s₀.mem pt i = some child)
    {l'' : List Word} (more : Dismantled s₀ o h child (ds ++ [i]) (l' ++ l) l'' t u) :
    Dismantling s₀ o h pt ds l s rest (l'' ++ l') u where
  toFreeing := f.toFreeing.subtree at_pt fresh more.toFreed
  tables pg := by
    have here : ∀ q, tableAt s₀.mem pt (i :: q) = tableAt s₀.mem child q := by
      intro q
      rw [tableAt, down]
      rfl
    rw [List.mem_append, more.tables pg, f.tables pg]
    constructor
    · rintro (⟨q, found⟩ | ⟨j, q, left, found⟩)
      · exact ⟨i, q, fresh, (here q).trans found⟩
      · exact ⟨j, q, fun inside => left (List.mem_cons_of_mem i inside), found⟩
    · rintro ⟨j, q, left, found⟩
      by_cases same : j = i
      · subst same
        exact .inl ⟨q, (here q).symm.trans found⟩
      · refine .inr ⟨j, q, fun inside => ?_, found⟩
        rcases List.mem_cons.mp inside with eq | inside
        · exact same eq
        · exact left inside
  kept pg other unfreed := by
    rw [List.mem_append, not_or] at unfreed
    exact (more.kept pg unfreed.1).trans (f.kept pg other unfreed.2)

theorem mem_indices (i : Index) : i ∈ indices := by
  unfold indices
  refine List.mem_map.mpr ⟨i.toNat, List.mem_range.mpr i.isLt, ?_⟩
  rw [BitVec.ofNat_toNat, BitVec.setWidth_eq]

/-- The loop when it is done. -/
theorem Dismantling.tables_done (f : Dismantling s₀ o h pt ds l s [] l' t) (pg : Word) :
    pg ∈ pt :: l' ↔ ∃ q, tableAt s₀.mem pt q = some pg := by
  rw [List.mem_cons, f.tables pg]
  constructor
  · rintro (rfl | ⟨i, q, -, found⟩)
    · exact ⟨[], rfl⟩
    · exact ⟨i :: q, found⟩
  · rintro ⟨q, found⟩
    cases q with
    | nil => exact .inl (Option.some.inj found).symm
    | cons i q => exact .inr ⟨i, q, List.not_mem_nil, found⟩

/-- `free_pagetable` frees the tables that it sees below `pt`, each once, and changes no other
page. -/
theorem freePagetable_dismantles (w : Owns s₀ o) (depth : Nat) (at_pt : o pt = .table h ds)
    (deep : levels ≤ depth + ds.length) (short : ds.length < levels)
    (same : s.kernelEnd = s₀.kernelEnd) (chain : Chain s.mem s.freelist l)
    (away : ∀ pg ∈ l, ¬ Below o h ds pg)
    (intact : ∀ pg, Below o h ds pg → s.mem pg = s₀.mem pg) :
    wp (freePagetable depth pt) (fun _ t => ∃ l', Dismantled s₀ o h pt ds l l' s t) Never s := by
  induction depth generalizing pt ds s l with
  | zero => omega
  | succ depth ih =>
    simp only [levels] at deep short
    unfold freePagetable
    rw [wp_bind]
    have start : Dismantling s₀ o h pt ds l s indices [] s := {
      chain := chain
      nodup := List.nodup_nil
      below := by simp
      quiet := .refl s
      outside := fun _ _ => rfl
      intact := fun pg i q _ eq => intact pg ⟨i :: q, eq⟩
      entries := fun i _ => by rw [entry, entry, intact pt ⟨[], by simpa using at_pt⟩]
      tables := fun pg => by simp [mem_indices]
      kept := fun _ _ _ => rfl }
    refine wp_conseq (wp_forM (fun rest t => rest.Nodup ∧
      ∃ l', Dismantling s₀ o h pt ds l s rest l' t) ?_ indices ⟨indices_nodup, [], start⟩) ?_
    · rintro i rest t ⟨distinct, l', f⟩
      obtain ⟨fresh, distinct⟩ := List.nodup_cons.mp distinct
      have here := f.entries i (by simp)
      simp only [wp_bind, wp_get]
      split
      · next inner =>
        rw [here] at inner
        have inside : ds.length < 2 := by
          by_contra long
          exact w.solid pt h ds i at_pt (by omega) inner.1 inner.2
        have step : child s₀.mem pt i = some (pte2pa (entry s₀.mem pt i)) := if_neg inner.1
        have target := label_eq.mp (w.tree h pt ds i _ (label_eq.mpr at_pt) inside step)
        have one : (ds ++ [i]).length = ds.length + 1 := by simp
        rw [here, wp_bind]
        refine wp_conseq (ih target (by simp only [one, levels]; omega)
          (by simp only [one, levels]; omega) (f.quiet.kernelEnd.trans same) f.chain
          (fun pg inside b => ?_) (fun pg b => ?_)) ?_
        · rcases List.mem_append.mp inside with inside | inside
          · obtain ⟨j, q, ne, eq⟩ := f.below pg inside
            obtain ⟨q', eq'⟩ := b
            rw [eq] at eq'
            simp at eq'
            exact ne (by simp [eq'.1])
          · exact away pg inside b.of_child
        · obtain ⟨q, eq⟩ := b
          exact f.intact pg i q (by simp) (by simpa using eq)
        · rintro - u ⟨l'', more⟩
          exact ⟨distinct, _, (f.subtree at_pt fresh (if_pos inner) more).clear at_pt away fresh⟩
      · next other =>
        rw [here] at other
        have plain : subtable s₀.mem pt i = none := if_neg other
        split
        · exact ⟨distinct, _, (f.pass plain).clear at_pt away fresh⟩
        · exact ⟨distinct, _, f.pass plain⟩
    · rintro - t ⟨-, l', f⟩
      have m : Managed t pt := by
        have old := w.managed pt (by simp [at_pt])
        exact ⟨old.1, by rw [f.quiet.kernelEnd, same]; exact old.2, old.3⟩
      have base : KERNBASE ≤ t.kernelEnd := by
        rw [f.quiet.kernelEnd, same]
        exact w.base
      have root := f.fresh_root at_pt away
      refine wp_conseq (freePage_wp f.chain base m root) ?_
      rintro - u ⟨chain', quiet', elsewhere⟩
      refine ⟨pt :: l', ⟨chain', ?_, ?_, f.quiet.trans quiet', fun pg out => ?_⟩, f.tables_done,
        fun pg unfreed => ?_⟩
      · exact List.nodup_cons.mpr ⟨fun inside => root (by simp [inside]), f.nodup⟩
      · intro pg inside
        rcases List.mem_cons.mp inside with rfl | inside
        · exact ⟨[], by simpa using at_pt⟩
        · obtain ⟨i, q, -, eq⟩ := f.below pg inside
          exact ⟨i :: q, eq⟩
      · refine (elsewhere pg ?_).trans (f.outside pg out)
        rintro rfl
        exact out ⟨[], by simpa using at_pt⟩
      · rw [List.mem_cons, not_or] at unfreed
        exact (elsewhere pg unfreed.1).trans (f.kept pg unfreed.1 unfreed.2)

/-- `free_pagetable` frees every table of the tree once and changes no other page. -/
theorem freePagetable_wp (w : Owns s₀ o) (depth : Nat) (at_pt : o pt = .table h ds)
    (deep : depth + ds.length = levels) (short : ds.length < levels) 
    (same : s.kernelEnd = s₀.kernelEnd) (chain : Chain s.mem s.freelist l)
    (away : ∀ pg ∈ l, ¬ Below o h ds pg)
    (intact : ∀ pg, Below o h ds pg → s.mem pg = s₀.mem pg) :
    wp (freePagetable depth pt) (fun _ t => ∃ l', Freed o h ds l l' s t) Never s :=
  wp_conseq (freePagetable_dismantles w depth at_pt deep.ge short same chain away intact)
    fun _ _ ⟨l', done⟩ => ⟨l', done.toFreed⟩

end Xv6Lab.Vm

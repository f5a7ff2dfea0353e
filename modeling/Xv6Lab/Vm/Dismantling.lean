import Xv6Lab.Vm.FiniteMap
import Xv6Lab.Vm.Teardown
import Xv6Lab.Vm.Walk

/-! What `free_pagetable` frees of a table that `create_pagetable` and `map_page` have built.  It
tells tables from leaves by their permissions alone: an entry that permits nothing leads to a table.
`walk_create` makes such entries above the last level and `map_page` others below it, so what the
function sees is the tree. -/

namespace Xv6Lab.Vm

open Rv64 Sv39 Exec

/-! ### Entries above the last level -/

/-- Above the last level, valid entries permit nothing. -/
def Plain (mem : Mem) (pt : Word) : Prop :=
  ∀ ds pg i, ds.length < 2 → node mem pt ds = some pg → entry mem pg i &&& V ≠ 0 →
    entry mem pg i &&& (R ||| W ||| X) = 0

section Entries

variable {s t u : Kernel} {o : Owners} {h : Holder} {pt pg : Word} {ds : List Index} {i : Index}
  {mem mem' : Mem}

theorem Plain.kept (plain : Plain mem pt)
    (same : ∀ q pg, q.length < 2 → node mem pt q = some pg → mem' pg = mem pg) :
    Plain mem' pt := by
  intro ds pg i short walk valid
  rw [node_kept fun q pg less => same q pg (by omega)] at walk
  rw [entry, same ds pg short walk] at valid ⊢
  exact plain ds pg i short walk valid

/-- A new table hangs from an entry that permits nothing. -/
theorem Plain.linked {label : Label} {new : Word} (plain : Plain mem pt)
    (linked : Linked mem mem' pg i new) (tree : Labelled mem label) (root : label pt = some [])
    (unset : child mem pg i = none) (fresh : label new = none)
    (bare : entry mem' pg i &&& (R ||| W ||| X) = 0) : Plain mem' pt := by
  intro ds pg' j short walk valid
  have inside : ([] : List Index).length + ds.length ≤ 2 := by
    rw [List.length_nil]
    omega
  rcases linked.node tree unset fresh root inside with same | ⟨-, none' | here⟩
  · rw [same] at walk
    have old : pg' ≠ new := by
      rintro rfl
      rw [tree.node root inside walk] at fresh
      cases fresh
    by_cases hung : pg' = pg ∧ j = i
    · rw [hung.1, hung.2]
      exact bare
    · rw [linked.others pg' j old (by tauto)] at valid ⊢
      exact plain ds pg' j short walk valid
  · rw [none'] at walk
    cases walk
  · rw [here] at walk
    obtain rfl := Option.some.inj walk
    rw [linked.empty j] at valid
    exact absurd rfl valid

theorem link_bare (pg : Word) : (pa2pte pg ||| V) &&& (R ||| W ||| X) = 0 := by
  have low : (pa2pte pg ||| V) &&& 0x3ff = V := flags_make pg (by decide)
  rw [← mask_rwx (pa2pte pg ||| V) (m := 0x3ff) (by decide), low]
  decide

/-- One level of `walk_create`. -/
theorem descendCreate_plain (w : Owns s o) (at_pg : o pg = .table h ds) (short : ds.length < 2)
    (root : o pt = .table h []) (plain : Plain s.mem pt) (i : Index) :
    wp (descendCreate pg i) (fun _ t => Plain t.mem pt) Panics s := by
  unfold descendCreate
  simp only [wp_bind, wp_get]
  split
  · exact plain
  · next invalid =>
    have unset : child s.mem pg i = none := if_pos (not_not.mp invalid)
    rw [wp_bind]
    refine wp_conseq (allocPage_wp w) fun new t ⟨free, w', quiet, away⟩ => ?_
    have m : Managed s new := w.managed new (by simp [free])
    rw [if_neg (m.ne_zero w.base)]
    simp only [wp_bind, clearPage, storeWord, wp_modify, wp_pure]
    have m' : Managed t new := ⟨m.1, quiet.kernelEnd ▸ m.2, m.3⟩
    obtain ⟨linked, -⟩ := w.hang w' at_pg short free m' away rfl
    have fresh : label o h new = none := by simp [label, free]
    refine plain.linked linked (w.tree h) (label_eq.mpr root) unset fresh ?_
    rw [entry, setMem_mem, Mem.store_same]
    exact link_bare new

/-- `walk_create` hangs new tables from entries that permit nothing. -/
theorem walkCreate_plain (w : Owns s o) (root : o pt = .table h []) (plain : Plain s.mem pt)
    (va : Word) : wp (walkCreate pt va) (fun _ t => Plain t.mem pt) Panics s := by
  unfold walkCreate
  simp (disch := decide) only [checkValid_signExtend, if_true, index_signExtend, wp_bind]
  refine wp_mono (wp_and (descendCreate_wp w root (by simp) (index 2 va))
    (descendCreate_plain w root (by simp) root plain (index 2 va))) ?_ fun _ _ stopped => stopped.1
  rintro r t ⟨⟨pg, o₁, rfl, first⟩, plain₁⟩
  rw [wp_bind]
  refine wp_mono (wp_and (descendCreate_wp first.owns first.table (by simp) (index 1 va))
    (descendCreate_plain first.owns first.table (by simp) (first.grows.table root) plain₁
      (index 1 va))) ?_ fun _ _ stopped => stopped.1
  rintro r' u ⟨⟨pg', o₂, rfl, second⟩, plain₂⟩
  exact plain₂

/-- A store into a table of the last level. -/
theorem Plain.storeLeaf (plain : Plain s.mem pt) (w : Owns s o) (root : o pt = .table h [])
    {i₂ i₁ : Index} (walk : node s.mem pt [i₂, i₁] = some pg) (off e : Word) :
    Plain (s.mem.store pg off e) pt := by
  refine plain.kept fun q pg' short walk' => funext fun off' => Mem.store_page _ _ _ _ ?_
  rintro rfl
  have last := (w.tree h).node (label_eq.mpr root) (by simp) walk
  have inner := (w.tree h).node (label_eq.mpr root) (by simp only [List.length_nil]; omega) walk'
  rw [last, List.nil_append, List.nil_append] at inner
  rw [← Option.some.inj inner] at short
  exact absurd short (by simp)

theorem mapPage_plain (w : Owns s o) (root : o pt = .table h []) (plain : Plain s.mem pt)
    {va : Word} (may : MayMap s va) (pa perm : Word) :
    wp (mapPage pt va pa perm) (fun _ t => Plain t.mem pt) Panics s := by
  unfold mapPage
  simp only [wp_bind, wp_get, if_neg may.allowed]
  split
  · exact ⟨_, rfl⟩
  · simp only [wp_bind]
    refine wp_mono (wp_and (walkCreate_wp w root va) (walkCreate_plain w root plain va)) ?_
      fun _ _ stopped => stopped.1
    rintro r t ⟨⟨pte, o₁, rfl, walked⟩, plain₁⟩
    have stored := fun e =>
      plain₁.storeLeaf walked.owns (walked.grows.table root) walked.walk (slot pte.idx) e
    simp only [wp_bind, wp_get]
    split
    · split
      · exact stored _
      · exact ⟨_, rfl⟩
    · exact stored _

/-- A new table has no entries. -/
theorem createPagetable_plain (w : Owns s o) :
    wp createPagetable (fun pt t => Plain t.mem pt) Panics s := by
  unfold createPagetable
  rw [wp_bind]
  refine wp_conseq (allocPage_wp w) fun new t ⟨free, _, _, _⟩ => ?_
  have m : Managed s new := w.managed new (by simp [free])
  rw [if_neg (m.ne_zero w.base)]
  simp only [wp_bind, clearPage, wp_modify, wp_pure]
  have empty : ∀ j, entry (Function.update t.mem new fun _ => 0) new j = 0 := by
    intro j
    rw [entry, Function.update_self]
  intro ds pg i _ walk valid
  rw [setMem_mem] at walk valid
  cases ds with
  | nil =>
    obtain rfl := Option.some.inj walk
    rw [empty i] at valid
    exact absurd rfl valid
  | cons j ds =>
    rw [node, child, empty j] at walk
    cases walk

end Entries

/-! ### What `free_pagetable` sees -/

section Tables

variable {s t : Kernel} {o : Owners} {h : Holder} {pt pg root : Word} {ds : List Index}

/-- In such a tree, the entries that permit nothing lead to its tables, and to nothing else. -/
theorem Plain.tableAt_iff (plain : Plain s.mem root) (w : Owns s o) (at_root : o root = .table h [])
    (q : List Index) (walk : node s.mem root ds = some pt) (short : ds.length ≤ 2) :
    tableAt s.mem pt q = some pg ↔ ds.length + q.length ≤ 2 ∧ node s.mem pt q = some pg := by
  induction q generalizing ds pt with
  | nil => exact ⟨fun here => ⟨short, here⟩, fun here => here.2⟩
  | cons i q ih =>
    rw [tableAt, node, List.length_cons]
    by_cases inner : ds.length < 2
    · have seen : subtable s.mem pt i = child s.mem pt i := by
        unfold subtable child
        by_cases valid : entry s.mem pt i &&& V = 0
        · rw [if_pos valid, if_neg fun both => both.1 valid]
        · rw [if_neg valid, if_pos ⟨valid, plain ds pt i inner walk valid⟩]
      rw [seen]
      cases next : child s.mem pt i with
      | none => simp
      | some pg' =>
        have along : node s.mem root (ds ++ [i]) = some pg' := by
          rw [node_append, walk]
          exact next
        have further := ih along
          (by simp only [List.length_append, List.length_singleton]; omega)
        rw [List.length_append, List.length_singleton] at further
        rw [Option.bind_some, Option.bind_some, further]
        exact and_congr_left fun _ => by omega
    · have at_pt := label_eq.mp ((w.tree h).node (label_eq.mpr at_root)
        (by simp only [List.length_nil]; omega) walk)
      have last : subtable s.mem pt i = none := if_neg fun both =>
        w.solid pt h _ i at_pt (by simp only [List.nil_append]; omega) both.1 both.2
      rw [last]
      exact iff_of_false (fun here => by cases here) fun both => by omega

/-- No page is reached in two ways. -/
theorem Owns.node_unique (w : Owns s o) (at_root : o root = .table h []) {ds' : List Index}
    (short : ds.length ≤ 2) (short' : ds'.length ≤ 2) (walk : node s.mem root ds = some pg)
    (walk' : node s.mem root ds' = some pg) : ds = ds' := by
  have one := (w.tree h).node (label_eq.mpr at_root) (by simpa using short) walk
  have two := (w.tree h).node (label_eq.mpr at_root) (by simpa using short') walk'
  rw [one, List.nil_append, List.nil_append] at two
  exact Option.some.inj two

open Classical in
/-- The tables of one tree have their owner, the pages of a list are free, and the rest is of no
concern. -/
noncomputable def treeOwners (mem : Mem) (root : Word) (l : List Word) : Owners := fun pg =>
  if found : ∃ ds, ds.length ≤ 2 ∧ node mem root ds = some pg then .table none found.choose
  else if pg ∈ l then .free else .other

theorem treeOwners_table (w : Owns s o) (at_root : o root = .table h []) (l : List Word)
    {h' : Holder} : treeOwners s.mem root l pg = .table h' ds ↔
      h' = none ∧ ds.length ≤ 2 ∧ node s.mem root ds = some pg := by
  unfold treeOwners
  split
  · next found =>
    obtain ⟨short, walk⟩ := found.choose_spec
    rw [Owner.table.injEq]
    constructor
    · rintro ⟨rfl, rfl⟩
      exact ⟨rfl, short, walk⟩
    · rintro ⟨rfl, short', walk'⟩
      exact ⟨rfl, w.node_unique at_root short short' walk walk'⟩
  · next missing =>
    refine iff_of_false ?_ fun ⟨_, short, walk⟩ => missing ⟨ds, short, walk⟩
    split <;> nofun

theorem treeOwners_free {mem : Mem} {l : List Word}
    (away : ∀ ds, ds.length ≤ 2 → node mem root ds = some pg → pg ∉ l) :
    treeOwners mem root l pg = .free ↔ pg ∈ l := by
  unfold treeOwners
  split
  · next found =>
    obtain ⟨ds, short, walk⟩ := found
    exact iff_of_false nofun (away ds short walk)
  · by_cases inside : pg ∈ l <;> simp [inside]

/-- Whatever happens to other pages, the tree stays one. -/
theorem Owns.prune (w : Owns s o) (at_root : o root = .table h []) (kept : TableKept root s t)
    (ends : t.kernelEnd = s.kernelEnd) {l : List Word} (chain : Chain t.mem t.freelist l)
    (nodup : l.Nodup) (managed : ∀ pg ∈ l, Managed t pg)
    (away : ∀ ds pg, ds.length ≤ 2 → node s.mem root ds = some pg → pg ∉ l) :
    Owns t (treeOwners s.mem root l) where
  base := ends ▸ w.base
  free := ⟨l, chain, nodup, fun pg => (treeOwners_free fun ds => away ds pg).symm⟩
  managed pg known := by
    by_cases inside : pg ∈ l
    · exact managed pg inside
    · have table : ∃ ds, ds.length ≤ 2 ∧ node s.mem root ds = some pg := by
        by_contra missing
        exact known ((dif_neg missing).trans (if_neg inside))
      obtain ⟨ds, short, walk⟩ := table
      have owned := label_eq.mp ((w.tree h).node (label_eq.mpr at_root) (by simpa using short) walk)
      have m := w.managed pg (by simp [owned])
      exact ⟨m.aligned, ends ▸ m.above, m.below⟩
  tree h' pg ds i next at_pg inner step := by
    obtain ⟨rfl, short, walk⟩ := (treeOwners_table w at_root l).mp (label_eq.mp at_pg)
    rw [child, entry, kept ds pg short walk] at step
    refine label_eq.mpr ((treeOwners_table w at_root l).mpr ⟨rfl, ?_, ?_⟩)
    · rw [List.length_append, List.length_singleton]
      omega
    · rw [node_append, walk]
      exact step
  solid pg h' ds i at_pg len valid := by
    obtain ⟨rfl, short, walk⟩ := (treeOwners_table w at_root l).mp at_pg
    rw [entry, kept ds pg short walk] at valid ⊢
    have owned := label_eq.mp ((w.tree h).node (label_eq.mpr at_root) (by simpa using short) walk)
    exact w.solid pg h _ i owned (by simpa using len) valid

end Tables

/-! ### Tables that are built and freed -/

/-- The table `pt` in a state to which `create_pagetable` and calls of `map_page` for leaves have
led, with other code in between, which stores nothing to the tables and does not free them. -/
inductive Grown (pt : Word) : Kernel → Prop
  | create {s t : Kernel} (supplied : Supplied s) (run : createPagetable s = .ok pt t) : Grown pt t
  | map {s t : Kernel} {va pa perm : Word} {r : Int} (grown : Grown pt s)
      (leaf : perm &&& (R ||| W ||| X) ≠ 0) (run : mapPage pt va pa perm s = .ok r t) : Grown pt t
  | other {s t : Kernel} (grown : Grown pt s) (kept : TableKept pt s t)
      (ends : t.kernelEnd = s.kernelEnd) (supplied : Supplied t)
      (away : ∀ l, Chain t.mem t.freelist l → ∀ ds pg, ds.length ≤ 2 →
        node s.mem pt ds = some pg → pg ∉ l) : Grown pt t

section Frees

variable {s t : Kernel} {pt : Word}

theorem Grown.owns (grown : Grown pt s) : ∃ o, Owns s o ∧ o pt = .table none [] ∧ Plain s.mem pt := by
  induction grown with
  | create supplied run =>
    obtain ⟨o, owns⟩ := supplied.owns
    obtain ⟨o', owns', -, -, root, -⟩ := wp_ok (createPagetable_wp owns none) run
    have plain := wp_ok (createPagetable_plain owns) run
    exact ⟨o', owns', root, plain⟩
  | map grown leaf run ih =>
    obtain ⟨o, owns, root, plain⟩ := ih
    have may := mayMap_of_run run
    obtain ⟨-, o', mapped⟩ := wp_ok (mapPage_wp owns root may leaf) run
    have plain' := wp_ok (mapPage_plain owns root plain may _ _) run
    exact ⟨o', mapped.owns, mapped.grows.table root, plain'⟩
  | @other s t grown kept ends supplied away ih =>
    obtain ⟨o, owns, root, plain⟩ := ih
    obtain ⟨l, chain, nodup, managed⟩ := supplied.free
    refine ⟨_, owns.prune root kept ends chain nodup managed (away l chain), ?_,
      plain.kept fun q pg short walk => kept q pg (by omega) walk⟩
    exact (treeOwners_table owns root l).mpr ⟨rfl, Nat.zero_le _, rfl⟩

/-- `free_pagetable` ends, however deep it may recurse from three levels on.  The pages that it
passes to `free_page`, which are those in front of the free list afterwards, are the tables of the
tree, each once; and no other page has changed. -/
theorem free_pagetable_frees_tables (grown : Grown pt s) (depth : Nat) (deep : levels ≤ depth) :
    ∃ t freed, freePagetable depth pt s = .ok ⟨⟩ t ∧
      (∀ l, Chain s.mem s.freelist l → Chain t.mem t.freelist (freed ++ l)) ∧ freed.Nodup ∧
      (∀ pg, pg ∈ freed ↔ ∃ ds, ds.length ≤ 2 ∧ node s.mem pt ds = some pg) ∧
      ∀ pg, pg ∉ freed → t.mem pg = s.mem pg := by
  obtain ⟨o, owns, root, plain⟩ := grown.owns
  obtain ⟨l, chain, nodup, members⟩ := owns.free
  have away : ∀ pg ∈ l, ¬ Below o none [] pg := by
    rintro pg inside ⟨q, table⟩
    rw [(members pg).mp inside] at table
    cases table
  have spec := freePagetable_dismantles owns depth root (by simpa using deep) (by decide) rfl chain
    away fun _ _ => rfl
  cases run : freePagetable depth pt s with
  | error e t => exact (wp_error spec run).elim
  | ok a t =>
    obtain ⟨freed, done⟩ := wp_ok spec run
    refine ⟨t, freed, rfl, fun l' chain' => ?_, done.nodup, fun pg => ?_, done.kept⟩
    · rw [← chain.unique chain']
      exact done.chain
    · rw [done.tables pg]
      refine exists_congr fun q => ?_
      rw [plain.tableAt_iff owns root q (show node s.mem pt [] = some pt from rfl) (by simp),
        List.length_nil, Nat.zero_add]

end Frees

/-- The first table of the small memory, with the program's first page. -/
theorem free_pagetable_frees_tables_sample :
    let s := after (mapPage 0x87000000 0x10000 0x87010000 (R ||| U)) sampleTable
    ∃ t freed, freePagetable 3 0x87000000 s = .ok ⟨⟩ t ∧
      (∀ l, Chain s.mem s.freelist l → Chain t.mem t.freelist (freed ++ l)) ∧ freed.Nodup ∧
      (∀ pg, pg ∈ freed ↔ ∃ ds, ds.length ≤ 2 ∧ node s.mem 0x87000000 ds = some pg) ∧
      ∀ pg, pg ∉ freed → t.mem pg = s.mem pg := by
  have mapped : value (mapPage 0x87000000 0x10000 0x87010000 (R ||| U)) sampleTable = some 0 := by
    decide +kernel
  have first : Grown 0x87000000 sampleTable := .create sampleBoot_supplied sampleTable_created
  exact free_pagetable_frees_tables (.map first (by decide) (run_of_value mapped)) 3 (by decide)

end Xv6Lab.Vm

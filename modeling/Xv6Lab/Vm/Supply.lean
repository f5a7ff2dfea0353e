import Xv6Lab.Vm.Mapping

/-! The pages that allocation takes from the free list: in the order of the list, one for each table
that is missing, and with the link of the list still in the first word. -/

namespace Xv6Lab.Vm

open Rv64 Sv39 Exec
open Trap (PGSIZE TRAMPOLINE TRAPFRAME)

/-- One if the entry leads nowhere yet. -/
def lacks (mem : Mem) (pt : Word) (i : Index) : Nat := if entry mem pt i &&& V = 0 then 1 else 0

/-- The tables that are missing on the way to the entry of `va`. -/
def missing (mem : Mem) (pt va : Word) : Nat :=
  match child mem pt (index 2 va) with
  | none => 2
  | some pg => lacks mem pg (index 1 va)

/-- A page as `alloc_page` returns it, when `rest` is left on the free list. -/
def leftover (rest : List Word) : Word → Word := fun off => if off = 0 then rest.headD 0 else fives

/-- A panic for want of pages: the list has fewer than `n`. -/
def Short (n : Nat) (l : List Word) : Halt → Kernel → Prop := fun e t => Panics e t ∧ l.length < n

variable {s t u : Kernel} {o o' o'' : Owners} {h : Holder} {pg pt va : Word} {l : List Word}

/-- Pages that were taken before count, too. -/
theorem Short.more {n m k : Nat} (sum : n + k ≤ m) {e : Halt} (short : Short n (l.drop k) e t) :
    Short m l e t := by
  obtain ⟨panics, few⟩ := short
  rw [List.length_drop] at few
  exact ⟨panics, by omega⟩

theorem Short.head {n : Nat} {r : Word} {rest : List Word} {e : Halt} (short : Short n rest e t) :
    Short (n + 1) (r :: rest) e t :=
  ⟨short.1, by rw [List.length_cons]; exact Nat.succ_lt_succ short.2⟩

theorem Short.never {e : Halt} (short : Short 0 l e t) {P : Prop} : P :=
  absurd short.2 (Nat.not_lt_zero _)

theorem Chain.head {mem : Mem} {head : Word} (chain : Chain mem head l) : head = l.headD 0 := by
  cases l with
  | nil => exact chain
  | cons pg rest => exact chain.1

/-- Stores to pages that are not free leave the free list. -/
theorem Owns.chain_setMem (w : Owns s o) (chain : Chain s.mem s.freelist l) {mem : Mem}
    (same : ∀ pg, o pg = .free → mem pg = s.mem pg) : Chain mem s.freelist l := by
  obtain ⟨l', chain', -, members⟩ := w.free
  rw [chain'.unique chain] at members
  exact chain.congr fun pg inside => same pg ((members pg).mp inside)

/-- The pages on the list are the free ones. -/
theorem Owns.mem_chain (w : Owns s o) (chain : Chain s.mem s.freelist l) :
    l.Nodup ∧ ∀ pg, pg ∈ l ↔ o pg = .free := by
  obtain ⟨l', chain', nodup, members⟩ := w.free
  rw [chain'.unique chain] at nodup members
  exact ⟨nodup, members⟩

theorem allocPage_chain (w : Owns s o) (chain : Chain s.mem s.freelist l) :
    wp allocPage (fun r t => ∃ rest, l = r :: rest ∧ Chain t.mem t.freelist rest ∧
      t.mem r = leftover rest) (fun e t => Panics e t ∧ l = []) s := by
  obtain ⟨nodup, -⟩ := w.mem_chain chain
  unfold allocPage
  simp only [wp_bind, wp_get]
  cases l with
  | nil =>
    have none : s.freelist = 0 := chain
    rw [if_neg (not_not.mpr none)]
    exact ⟨⟨_, rfl⟩, rfl⟩
  | cons r rest =>
    obtain ⟨first, nonzero, tail⟩ := chain
    rw [first, if_pos nonzero]
    simp only [wp_bind, wp_set, wp_pure]
    refine ⟨rest, rfl, tail.congr fun pg inside => ?_, ?_⟩
    · refine Function.update_of_ne ?_ ..
      rintro rfl
      exact (List.nodup_cons.mp nodup).1 inside
    · rw [setMem_mem, Function.update_self, tail.head]
      rfl

/-- One level of `walk_create` takes a page exactly if it lacks the table; the table it ends at
has the entries of the one that was there, or none. -/
theorem descendCreate_chain (w : Owns s o) {ds : List Index} (at_pt : o pt = .table h ds) (i : Index)
    (chain : Chain s.mem s.freelist l) :
    wp (descendCreate pt i) (fun r t => ∃ pg, r = some pg ∧ lacks s.mem pt i ≤ l.length ∧
        Chain t.mem t.freelist (l.drop (lacks s.mem pt i)) ∧
        ∀ j, lacks t.mem pg j = (child s.mem pt i).elim 1 fun pg => lacks s.mem pg j)
      (fun e t => Panics e t ∧ l.length < lacks s.mem pt i) s := by
  unfold descendCreate
  simp only [wp_bind, wp_get]
  split
  · next valid =>
    have step : child s.mem pt i = some (pte2pa (entry s.mem pt i)) := if_neg valid
    have zero : lacks s.mem pt i = 0 := if_neg valid
    rw [wp_pure, zero]
    exact ⟨_, rfl, Nat.zero_le _, chain, fun j => by rw [step, Option.elim_some]⟩
  · next invalid =>
    have unset : child s.mem pt i = none := if_pos (not_not.mp invalid)
    have one : lacks s.mem pt i = 1 := if_pos (not_not.mp invalid)
    rw [wp_bind, one]
    refine wp_mono (wp_and (allocPage_wp w) (allocPage_chain w chain)) ?_ ?_
    · rintro new t ⟨⟨free, w', quiet, away⟩, rest, rfl, chain', -⟩
      have apart : pt ≠ new := by
        rintro rfl
        rw [free] at at_pt
        cases at_pt
      rw [if_neg (w.ne_zero (by simp [free]))]
      simp only [wp_bind, clearPage, storeWord, wp_modify, wp_pure]
      refine ⟨new, rfl, by simp, w'.chain_setMem chain' fun pg unused => ?_, fun j => ?_⟩
      · have ne : pg ≠ new := by
          rintro rfl
          simp at unused
        have ne' : pg ≠ pt := by
          rintro rfl
          rw [Function.update_of_ne ne, at_pt] at unused
          cases unused
        funext off
        simp only [setMem_mem]
        rw [Mem.store_page _ _ _ _ ne', Function.update_of_ne ne]
      · have empty : entry (Mem.store (Function.update t.mem new fun _ => 0) pt (slot i)
            (pa2pte new ||| V)) new j = 0 := by
          rw [entry, Mem.store_page _ _ _ _ apart.symm, Function.update_self]
        rw [unset, Option.elim_none]
        exact if_pos (by simp only [setMem_mem, empty]; decide)
    · rintro e t ⟨-, panics, rfl⟩
      exact ⟨panics, Nat.zero_lt_one⟩

theorem missing_eq (mem : Mem) (pt va : Word) : missing mem pt va = lacks mem pt (index 2 va) +
    (child mem pt (index 2 va)).elim 1 fun pg => lacks mem pg (index 1 va) := by
  unfold missing
  by_cases valid : entry mem pt (index 2 va) &&& V = 0
  · rw [show child mem pt (index 2 va) = none from if_pos valid, lacks, if_pos valid]
    rfl
  · rw [show child mem pt (index 2 va) = some _ from if_neg valid, lacks, if_neg valid, Nat.zero_add]
    rfl

/-- No table is missing next to a page that is mapped. -/
theorem missing_of_translate {mem : Mem} {va' e : Word} (is : translate mem pt va = some e)
    (same : index 2 va' = index 2 va ∧ index 1 va' = index 1 va) : missing mem pt va' = 0 := by
  rw [Sv39.translate, Option.bind_eq_some_iff] at is
  obtain ⟨pg, walk, -⟩ := is
  simp only [node, Option.bind_eq_some_iff] at walk
  obtain ⟨pg', first, pg'', second, -⟩ := walk
  unfold missing
  rw [same.1, first, same.2]
  unfold child at second
  split at second
  · cases second
  · next valid => exact if_neg valid

theorem walkCreate_chain (w : Owns s o) (root : o pt = .table h []) (va : Word)
    (chain : Chain s.mem s.freelist l) :
    wp (walkCreate pt va) (fun _ t => missing s.mem pt va ≤ l.length ∧
        Chain t.mem t.freelist (l.drop (missing s.mem pt va)))
      (fun e t => Panics e t ∧ l.length < missing s.mem pt va) s := by
  have split := missing_eq s.mem pt va
  unfold walkCreate
  simp (disch := decide) only [checkValid_signExtend, if_true, index_signExtend, wp_bind]
  refine wp_mono (wp_and (descendCreate_wp w root (by simp) (index 2 va))
    (descendCreate_chain w root (index 2 va) chain)) ?_ ?_
  · rintro r t ⟨⟨pg, o₁, is, first⟩, pg', is', enough, chain', entries⟩
    subst is
    obtain rfl := Option.some.inj is'
    rw [wp_bind]
    refine wp_mono (wp_and (descendCreate_wp first.owns first.table (by simp) (index 1 va))
      (descendCreate_chain first.owns first.table (index 1 va) chain')) ?_ ?_
    · rintro r u ⟨-, pg', is, enough', chain'', -⟩
      subst is
      rw [wp_pure]
      rw [entries, List.length_drop] at enough'
      rw [entries, List.drop_drop, ← split] at chain''
      exact ⟨by omega, chain''⟩
    · rintro e u ⟨-, panics, short⟩
      rw [entries, List.length_drop] at short
      exact ⟨panics, by omega⟩
  · rintro e t ⟨-, panics, short⟩
    exact ⟨panics, by omega⟩

/-- `map_page` at a page that is not mapped succeeds exactly if there are pages for its tables. -/
theorem mapPage_chain (w : Owns s o) (root : o pt = .table h []) (may : MayMap s va)
    (aligned : va.toNat % 4096 = 0) (unset : translate s.mem pt va = none) (pa perm : Word)
    (chain : Chain s.mem s.freelist l) :
    wp (mapPage pt va pa perm) (fun _ t => missing s.mem pt va ≤ l.length ∧
        Chain t.mem t.freelist (l.drop (missing s.mem pt va)))
      (fun e t => Panics e t ∧ l.length < missing s.mem pt va) s := by
  unfold mapPage
  simp only [wp_bind, wp_get, if_neg may.allowed, if_neg (not_not.mpr aligned)]
  refine wp_mono (wp_and (walkCreate_wp w root va) (walkCreate_chain w root va chain)) ?_ ?_
  · rintro r t ⟨⟨pte, o₁, is, walked⟩, enough, chain'⟩
    subst is
    have old : leaf t.mem pte.idx pte.table = none := by
      rw [← unset, ← walked.translate va, Sv39.translate, walked.walk, walked.idx]
      rfl
    have invalid : ¬ pte.read t.mem &&& V ≠ 0 := by
      intro valid
      exact absurd ((if_neg valid).symm.trans old) (by simp)
    simp only [wp_bind, wp_get, if_neg invalid, PteRef.write, storeWord, wp_modify, wp_pure]
    refine ⟨enough, walked.owns.chain_setMem chain' fun pg free => ?_⟩
    have table := label_eq.mp ((walked.owns.tree h).node
      (label_eq.mpr (walked.grows.table root)) (by simp) walked.walk)
    refine funext fun off => Mem.store_page _ _ _ _ ?_
    rintro rfl
    rw [free] at table
    cases table
  · rintro e t ⟨-, stopped⟩
    exact stopped

/-- One level of `walk_create` stores to no other entry of the tables that are there. -/
theorem walkCreate_root (w : Owns s o) (root : o pt = .table h []) (va : Word) :
    wp (walkCreate pt va) (fun _ t => ∀ j ≠ index 2 va, entry t.mem pt j = entry s.mem pt j)
      (fun _ _ => True) s := by
  unfold walkCreate
  simp (disch := decide) only [checkValid_signExtend, if_true, index_signExtend, wp_bind]
  refine wp_mono (descendCreate_wp w root (by simp) (index 2 va)) ?_ fun _ _ _ => trivial
  rintro r t ⟨pg, o₁, rfl, first⟩
  rw [wp_bind]
  refine wp_mono (descendCreate_wp first.owns first.table (by simp) (index 1 va)) ?_
    fun _ _ _ => trivial
  rintro r u ⟨pg', o₂, rfl, second⟩
  rw [wp_pure]
  have root₁ := first.grows.table root
  have apart : pt ≠ pg := by
    rintro rfl
    have same := root₁.symm.trans first.table
    simp at same
  intro j other
  rw [second.others pt j (by simp [root₁]) (.inl apart)]
  exact first.others pt j (by simp [root]) (.inr other)

/-- `map_page` leaves the other entries of the root. -/
theorem mapPage_root (w : Owns s o) (root : o pt = .table h []) (may : MayMap s va) (pa perm : Word) :
    wp (mapPage pt va pa perm) (fun _ t => ∀ j ≠ index 2 va, entry t.mem pt j = entry s.mem pt j)
      (fun _ _ => True) s := by
  unfold mapPage
  simp only [wp_bind, wp_get, if_neg may.allowed]
  split
  · exact trivial
  rw [wp_bind]
  refine wp_mono (wp_and (walkCreate_wp w root va) (walkCreate_root w root va)) ?_ fun _ _ _ => trivial
  rintro r t ⟨⟨pte, o₁, rfl, walked⟩, kept⟩
  have table := label_eq.mp ((walked.owns.tree h).node
    (label_eq.mpr (walked.grows.table root)) (by simp) walked.walk)
  have apart : pt ≠ pte.table := by
    rintro rfl
    have same := (walked.grows.table root).symm.trans table
    simp at same
  have stored : ∀ e, ∀ j ≠ index 2 va,
      entry (t.mem.store pte.table (slot pte.idx) e) pt j = entry s.mem pt j := by
    intro e j other
    rw [← kept j other, entry, entry, Mem.store_page _ _ _ _ apart]
  simp only [wp_bind, wp_get]
  split
  · split
    · exact stored _
    · exact trivial
  · exact stored _

/-- The tables that are missing are the same when no table has changed. -/
theorem Owns.missing_congr (w : Owns s o) (root : o pt = .table h []) {mem : Mem}
    (same : ∀ pg ds, o pg = .table h ds → mem pg = s.mem pg) (va : Word) :
    missing mem pt va = missing s.mem pt va := by
  have entries : ∀ pg ds i, o pg = .table h ds → entry mem pg i = entry s.mem pg i := by
    intro pg ds i at_pg
    rw [entry, entry, same pg ds at_pg]
  have first : child mem pt (index 2 va) = child s.mem pt (index 2 va) := by
    rw [child, child, entries pt [] _ root]
  unfold missing
  rw [first]
  cases step : child s.mem pt (index 2 va) with
  | none => rfl
  | some pg =>
    have at_pg := label_eq.mp (w.tree h pt [] _ _ (label_eq.mpr root) (by simp) step)
    simp only [lacks]
    rw [entries pg _ _ at_pg]

end Xv6Lab.Vm

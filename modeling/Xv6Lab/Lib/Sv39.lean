import Xv6Lab.Lib.Rv64

/-! Sv39 page tables in physical memory: entries, the indices of an address, the walk from a root
and the translation it gives.  A *labelling* names each page of one tree by the indices that lead
to it; as long as the labels are right, a store into one table page moves exactly the translations
that go through the entry it changes. -/

namespace Sv39

open Rv64

/-! ### Entries -/

def V : Word := 1
def R : Word := 2
def W : Word := 4
def X : Word := 8
def U : Word := 16

/-- The bits of an entry below its frame number. -/
def flags (e : Word) : Word := e &&& 0x3ff

/-- The frame of an entry. -/
def pte2pa (e : Word) : Word := (e >>> 10) <<< 12

/-- An entry without flags for a frame. -/
def pa2pte (pa : Word) : Word := (pa >>> 12) <<< 10

/-- A physical page that an entry can name. -/
structure Frame (pa : Word) : Prop where
  aligned : pa.toNat % 4096 = 0
  small : pa.toNat < 2 ^ 56

theorem high_bit {fl : Word} (small : fl.toNat < 1024) {i : Nat} (h : 10 ≤ i) :
    fl.getLsbD i = false := by
  have wide : 2 ^ 10 ≤ 2 ^ i := Nat.pow_le_pow_right (by omega) h
  exact Nat.testBit_lt_two_pow (lt_of_lt_of_le small wide)

/-- Adding flags to an entry does not move its frame. -/
theorem pte2pa_or (e : Word) {fl : Word} (small : fl.toNat < 1024) :
    pte2pa (e ||| fl) = pte2pa e := by
  apply BitVec.eq_of_getLsbD_eq
  intro i hi
  by_cases low : i < 12
  · simp [pte2pa, low]
  · have high : fl.getLsbD (10 + (i - 12)) = false := high_bit small (by omega)
    simp [pte2pa, low, high]

theorem toNat_pte2pa (e : Word) : (pte2pa e).toNat = e.toNat / 1024 * 4096 % 2 ^ 64 := by
  simp [pte2pa, Nat.shiftLeft_eq, Nat.shiftRight_eq_div_pow]

theorem toNat_pa2pte (pa : Word) : (pa2pte pa).toNat = pa.toNat / 4096 * 1024 % 2 ^ 64 := by
  simp [pa2pte, Nat.shiftLeft_eq, Nat.shiftRight_eq_div_pow]

theorem pte2pa_pa2pte {pa : Word} (h : Frame pa) : pte2pa (pa2pte pa) = pa := by
  apply BitVec.eq_of_toNat_eq
  have aligned := h.aligned
  have small := h.small
  rw [toNat_pte2pa, toNat_pa2pte]
  omega

/-- The frame of an entry made for `pa`. -/
theorem pte2pa_make {pa fl : Word} (h : Frame pa) (small : fl.toNat < 1024) :
    pte2pa (pa2pte pa ||| fl) = pa := by
  rw [pte2pa_or _ small, pte2pa_pa2pte h]

theorem flags_pa2pte (pa : Word) : flags (pa2pte pa) = 0 := by
  apply BitVec.eq_of_getLsbD_eq
  intro i hi
  by_cases low : i < 10
  · simp [flags, pa2pte, low]
  · have mask : BitVec.getLsbD 1023#64 i = false := high_bit (by decide) (by omega)
    simp [flags, mask]

theorem flags_or (e fl : Word) : flags (e ||| fl) = flags e ||| flags fl := by
  apply BitVec.eq_of_getLsbD_eq
  intro i hi
  simp [flags, Bool.and_or_distrib_right]

theorem flags_small {fl : Word} (small : fl.toNat < 1024) : flags fl = fl := by
  apply BitVec.eq_of_getLsbD_eq
  intro i hi
  by_cases low : i < 10
  · have mask : ∀ j : Fin 10, BitVec.getLsbD 1023#64 j = true := by decide
    simp [flags, mask ⟨i, low⟩]
  · simp [flags, high_bit small (by omega : 10 ≤ i)]

/-- The flags of an entry made with `fl`. -/
theorem flags_make (pa : Word) {fl : Word} (small : fl.toNat < 1024) :
    flags (pa2pte pa ||| fl) = fl := by
  rw [flags_or, flags_pa2pte, flags_small small]
  exact BitVec.zero_or

/-- A bit that is set may be set again. -/
theorem or_bit {e : Word} {k : Nat} (set : e &&& BitVec.twoPow 64 k ≠ 0) :
    e ||| BitVec.twoPow 64 k = e := by
  have bit : e.getLsbD k = true := by
    by_contra clear
    exact set (by rw [BitVec.and_twoPow, if_neg clear]; rfl)
  apply BitVec.eq_of_getLsbD_eq
  intro i hi
  rw [BitVec.getLsbD_or, BitVec.getLsbD_twoPow]
  by_cases same : k = i
  · subst same
    rw [bit, Bool.true_or]
  · simp [same]

theorem flags_or_bit {e : Word} {k : Nat} (low : k < 10) (set : e &&& BitVec.twoPow 64 k ≠ 0) :
    flags e ||| BitVec.twoPow 64 k = flags e := by
  have small : (BitVec.twoPow 64 k).toNat < 1024 := by
    rw [BitVec.toNat_twoPow]
    exact lt_of_le_of_lt (Nat.mod_le _ _) (Nat.pow_lt_pow_right (by decide) low)
  rw [← flags_small small, ← flags_or, or_bit set]

theorem flags_lt (e : Word) : (flags e).toNat < 1024 := by
  have le : e.toNat &&& 0x3ff ≤ 0x3ff := Nat.and_le_right
  show (e.toNat &&& 0x3ff) < 1024
  omega

/-! ### Indices -/

abbrev Index := BitVec 9

/-- The index of `va` into a table of the given level. -/
def index (level : Nat) (va : Word) : Index := (va >>> (12 + 9 * level)).setWidth 9

/-- The indices that lead from a root to the entry of `va`. -/
def path (va : Word) : List Index := [index 2 va, index 1 va, index 0 va]

/-- Where an entry stands in its table. -/
def slot (i : Index) : Word := i.setWidth 64 <<< 3

theorem toNat_slot (i : Index) : (slot i).toNat = 8 * i.toNat := by
  have small := i.isLt
  simp only [slot, BitVec.toNat_shiftLeft, BitVec.toNat_setWidth, Nat.shiftLeft_eq]
  omega

theorem slot_injective {i j : Index} (h : slot i = slot j) : i = j := by
  apply BitVec.eq_of_toNat_eq
  have same := congrArg BitVec.toNat h
  rw [toNat_slot, toNat_slot] at same
  omega

theorem toNat_index (level : Nat) (va : Word) :
    (index level va).toNat = va.toNat / 2 ^ (12 + 9 * level) % 512 := by
  simp [index, Nat.shiftRight_eq_div_pow]

/-- Addresses below 2^39 with the same indices lie in the same page. -/
theorem path_eq_iff {va va' : Word} (h : va.toNat < 2 ^ 39) (h' : va'.toNat < 2 ^ 39) :
    path va = path va' ↔ va.toNat / 4096 = va'.toNat / 4096 := by
  simp only [path, List.cons.injEq, and_true, ← BitVec.toNat_inj, toNat_index]
  omega

/-! ### Walks -/

def entry (mem : Mem) (pt : Word) (i : Index) : Word := mem pt (slot i)

/-- The table or the frame that a valid entry names. -/
def child (mem : Mem) (pt : Word) (i : Index) : Option Word :=
  if entry mem pt i &&& V = 0 then none else some (pte2pa (entry mem pt i))

/-- The page to which the given indices lead. -/
def node (mem : Mem) : Word → List Index → Option Word
  | pt, [] => some pt
  | pt, i :: rest => (child mem pt i).bind (node mem · rest)

/-- A walk through tables that stay as they are. -/
theorem node_kept {mem mem' : Mem} {pt : Word} {ds : List Index}
    (same : ∀ q pg, q.length < ds.length → node mem pt q = some pg → mem' pg = mem pg) :
    node mem' pt ds = node mem pt ds := by
  induction ds generalizing pt with
  | nil => rfl
  | cons i ds ih =>
    have first : child mem' pt i = child mem pt i := by
      rw [child, child, entry, entry, same [] pt (Nat.succ_pos _) rfl]
    rw [node, node, first]
    cases next : child mem pt i with
    | none => rfl
    | some pg =>
      refine ih fun q pg' short walk => same (i :: q) pg' (Nat.succ_lt_succ short) ?_
      rw [node, next]
      exact walk

/-- The entry at index `i`, when it is valid. -/
def leaf (mem : Mem) (i : Index) (pt : Word) : Option Word :=
  if entry mem pt i &&& V = 0 then none else some (entry mem pt i)

/-- The entry that translates `va` under the table at `pt`. -/
def translate (mem : Mem) (pt va : Word) : Option Word :=
  (node mem pt [index 2 va, index 1 va]).bind (leaf mem (index 0 va))

/-! ### Labelled trees -/

/-- `label pg = some ds` says that the indices `ds` lead from the root to the table `pg`. -/
abbrev Label := Word → Option (List Index)

/-- Valid entries of inner tables lead to the tables that their labels announce. -/
def Labelled (mem : Mem) (label : Label) : Prop :=
  ∀ pg ds i pg', label pg = some ds → ds.length < 2 → child mem pg i = some pg' →
    label pg' = some (ds ++ [i])

section Labelled

variable {mem mem' : Mem} {label : Label} {pt pg : Word} {ds rest : List Index}

theorem Labelled.node (h : Labelled mem label) (start : label pt = some ds)
    (short : ds.length + rest.length ≤ 2) (walk : node mem pt rest = some pg) :
    label pg = some (ds ++ rest) := by
  induction rest generalizing pt ds with
  | nil =>
    obtain rfl : pt = pg := Option.some.inj walk
    simpa using start
  | cons i rest ih =>
    rw [Sv39.node, Option.bind_eq_some_iff] at walk
    obtain ⟨next, first, walk⟩ := walk
    simp only [List.length_cons] at short
    have step := ih (h pt ds i next start (by omega) first)
      (by simp only [List.length_append, List.length_singleton]; omega) walk
    simpa using step

/-- A walk reads inner tables only. -/
theorem Labelled.node_congr (h : Labelled mem label)
    (same : ∀ pg ds, label pg = some ds → ds.length < 2 → mem' pg = mem pg)
    (start : label pt = some ds) (short : ds.length + rest.length ≤ 2) :
    Sv39.node mem' pt rest = Sv39.node mem pt rest := by
  induction rest generalizing pt ds with
  | nil => rfl
  | cons i rest ih =>
    simp only [List.length_cons] at short
    have first : child mem' pt i = child mem pt i := by
      rw [child, child, entry, entry, same pt ds start (by omega)]
    rw [Sv39.node, Sv39.node, first]
    cases next : child mem pt i with
    | none => rfl
    | some pg =>
      exact ih (h pt ds i pg start (by omega) next)
        (by simp only [List.length_append, List.length_singleton]; omega)

theorem Labelled.congr (h : Labelled mem label)
    (same : ∀ pg ds, label pg = some ds → ds.length < 2 → mem' pg = mem pg) :
    Labelled mem' label := by
  intro pg ds i pg' at_pg short next
  rw [child, entry, same pg ds at_pg short] at next
  exact h pg ds i pg' at_pg short next

/-- Stores outside the tables of a tree do not move its translations. -/
theorem Labelled.translate_congr (h : Labelled mem label)
    (same : ∀ pg ds, label pg = some ds → mem' pg = mem pg) (root : label pt = some [])
    (va : Word) : translate mem' pt va = translate mem pt va := by
  rw [Sv39.translate, Sv39.translate, h.node_congr (fun pg ds at_pg _ => same pg ds at_pg) root (by simp)]
  cases walk : Sv39.node mem pt [index 2 va, index 1 va] with
  | none => rfl
  | some pg =>
    have at_pg := h.node root (by simp) walk
    rw [Option.bind_some, Option.bind_some, leaf, leaf, entry, entry, same pg _ at_pg]

/-- A store into a table of the last level moves the one translation that ends there. -/
theorem Labelled.translate_store (h : Labelled mem label) (root : label pt = some [])
    {i₂ i₁ i₀ : Index} (walk : Sv39.node mem pt [i₂, i₁] = some pg) {e : Word}
    (valid : e &&& V ≠ 0) (va : Word) :
    translate (mem.store pg (slot i₀) e) pt va =
      if path va = [i₂, i₁, i₀] then some e else translate mem pt va := by
  have at_pg := h.node root (by simp) walk
  have inner : ∀ pg' ds, label pg' = some ds → ds.length < 2 →
      mem.store pg (slot i₀) e pg' = mem pg' := by
    intro pg' ds at_pg' short
    have ne : pg' ≠ pg := by
      rintro rfl
      rw [at_pg'] at at_pg
      simp [Option.some.inj at_pg] at short
    funext off
    exact Mem.store_page _ _ _ _ ne
  rw [Sv39.translate, Sv39.translate, h.node_congr inner root (by simp)]
  cases other : Sv39.node mem pt [index 2 va, index 1 va] with
  | none =>
    have away : path va ≠ [i₂, i₁, i₀] := by
      intro same
      simp only [path, List.cons.injEq, and_true] at same
      rw [same.1, same.2.1, walk] at other
      exact Option.some_ne_none _ other
    rw [if_neg away]
    rfl
  | some pg' =>
    rw [Option.bind_some, Option.bind_some]
    have at_pg' := h.node root (by simp) other
    by_cases same : pg' = pg
    · subst same
      rw [at_pg] at at_pg'
      simp only [List.nil_append, Option.some.injEq, List.cons.injEq, and_true] at at_pg'
      by_cases last : index 0 va = i₀
      · rw [if_pos (by simp [path, at_pg', last]), leaf, entry, last, Mem.store_same, if_neg valid]
      · have off : slot (index 0 va) ≠ slot i₀ := fun same => last (slot_injective same)
        rw [if_neg (by simp [path, last]), leaf, leaf, entry, entry, Mem.store_off _ _ _ off]
    · have away : path va ≠ [i₂, i₁, i₀] := by
        intro whole
        simp only [path, List.cons.injEq, and_true] at whole
        rw [whole.1, whole.2.1, walk] at other
        exact same (Option.some.inj other).symm
      rw [if_neg away, leaf, leaf, entry, entry, Mem.store_page _ _ _ _ same]

theorem Labelled.store_leaf (h : Labelled mem label) {pg : Word} {i₂ i₁ : Index}
    (at_pg : label pg = some [i₂, i₁]) (off e : Word) : Labelled (mem.store pg off e) label := by
  refine h.congr fun pg' ds at_pg' short => ?_
  have ne : pg' ≠ pg := by
    rintro rfl
    rw [at_pg'] at at_pg
    simp [Option.some.inj at_pg] at short
  funext off'
  exact Mem.store_page _ _ _ _ ne

end Labelled

/-! ### A new table -/

/-- `mem'` is `mem` with the empty table `new` hung below entry `i` of the table `pg`. -/
structure Linked (mem mem' : Mem) (pg : Word) (i : Index) (new : Word) : Prop where
  others : ∀ pg' j, pg' ≠ new → (pg' ≠ pg ∨ j ≠ i) → entry mem' pg' j = entry mem pg' j
  link : child mem' pg i = some new
  empty : ∀ j, entry mem' new j = 0

section Linked

variable {mem mem' : Mem} {label : Label} {pt pg new : Word} {i : Index} {ds rest : List Index}

theorem Linked.child_new (l : Linked mem mem' pg i new) (j : Index) : child mem' new j = none := by
  simp [child, l.empty j]

theorem Linked.child_other (l : Linked mem mem' pg i new) {pg' : Word} {j : Index}
    (ne : pg' ≠ new) (away : pg' ≠ pg ∨ j ≠ i) : child mem' pg' j = child mem pg' j := by
  rw [child, child, l.others pg' j ne away]

theorem Linked.labelled (l : Linked mem mem' pg i new) (h : Labelled mem label)
    (at_pg : label pg = some ds) (fresh : label new = none) :
    Labelled mem' (Function.update label new (some (ds ++ [i]))) := by
  intro pg' ds' j next at_pg' short step
  by_cases same : pg' = new
  · subst same
    rw [l.child_new] at step
    cases step
  · rw [Function.update_of_ne same] at at_pg'
    by_cases here : pg' = pg ∧ j = i
    · obtain ⟨rfl, rfl⟩ := here
      rw [l.link] at step
      obtain rfl := Option.some.inj step
      rw [Function.update_self, ← Option.some.inj (at_pg.symm.trans at_pg')]
    · rw [l.child_other same (by tauto)] at step
      have target := h pg' ds' j next at_pg' short step
      have ne : next ≠ new := by
        rintro rfl
        rw [fresh] at target
        cases target
      rw [Function.update_of_ne ne, target]

/-- Walks end where they did, or newly reach the new table. -/
theorem Linked.node (l : Linked mem mem' pg i new) (h : Labelled mem label)
    (unset : child mem pg i = none) (fresh : label new = none) (start : label pt = some ds)
    (short : ds.length + rest.length ≤ 2) :
    node mem' pt rest = node mem pt rest ∨ node mem pt rest = none ∧
      (node mem' pt rest = none ∨ node mem' pt rest = some new) := by
  induction rest generalizing pt ds with
  | nil => exact .inl rfl
  | cons j rest ih =>
    have ne : pt ≠ new := by
      rintro rfl
      rw [fresh] at start
      cases start
    simp only [List.length_cons] at short
    by_cases here : pt = pg ∧ j = i
    · obtain ⟨rfl, rfl⟩ := here
      refine .inr ⟨by rw [Sv39.node, unset]; rfl, ?_⟩
      rw [Sv39.node, l.link, Option.bind_some]
      cases rest with
      | nil => exact .inr rfl
      | cons k rest => exact .inl (by rw [Sv39.node, l.child_new]; rfl)
    · rw [Sv39.node, Sv39.node, l.child_other ne (by tauto)]
      cases next : child mem pt j with
      | none => exact .inl rfl
      | some pg' =>
        exact ih (h pt ds j pg' start (by omega) next)
          (by simp only [List.length_append, List.length_singleton]; omega)

/-- A new table changes no translation. -/
theorem Linked.translate (l : Linked mem mem' pg i new) (h : Labelled mem label)
    (unset : child mem pg i = none) (at_pg : label pg = some ds) (short : ds.length < 2)
    (fresh : label new = none) (root : label pt = some []) (va : Word) :
    translate mem' pt va = translate mem pt va := by
  rw [Sv39.translate, Sv39.translate]
  have short' : ([] : List Index).length + [index 2 va, index 1 va].length ≤ 2 := by simp
  rcases l.node h unset fresh root short' with same | ⟨before, after | after⟩
  · rw [same]
    cases walk : Sv39.node mem pt [index 2 va, index 1 va] with
    | none => rfl
    | some pg' =>
      have at_pg' := h.node root (by simp) walk
      have old : pg' ≠ new := by
        rintro rfl
        rw [fresh] at at_pg'
        cases at_pg'
      have away : pg' ≠ pg := by
        rintro rfl
        rw [at_pg] at at_pg'
        simp [Option.some.inj at_pg'] at short
      rw [Option.bind_some, Option.bind_some, leaf, leaf, l.others _ _ old (.inl away)]
  · rw [before, after]
    rfl
  · rw [before, after]
    simp [leaf, l.empty]

end Linked

end Sv39

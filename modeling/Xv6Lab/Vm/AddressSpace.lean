import Xv6Lab.Vm.Mapping

/-! User address spaces: the table of a process translates addresses of the lower half to frames of
that process, and of the upper half only its trapframe and the trampoline.  `uvmcopy` fills a new
space with copies. -/

namespace Xv6Lab.Vm

open Rv64 Sv39 Exec
open Trap (PGSIZE TRAMPOLINE TRAPFRAME)

/-- The user's half of the address space, in terms of the first index. -/
def Low (va : Word) : Prop := (index 2 va).toNat < 2

instance (va : Word) : Decidable (Low va) := inferInstanceAs (Decidable (_ < _))

theorem low_of_lt {va : Word} (h : va < USER_LIMIT) : Low va := by
  have small : va.toNat < 2147483648 := BitVec.lt_def.mp h
  rw [Low, toNat_index]
  omega

theorem low_congr {va va' : Word} (same : path va = path va') : Low va ↔ Low va' := by
  simp only [path, List.cons.injEq] at same
  rw [Low, Low, same.1]

/-- The table at `pt` is the address space of process `p`, or a part of it under construction. -/
structure Space (mem : Mem) (o : Owners) (p : Slot) (pt : Word) : Prop where
  root : o pt = .table (some p) []
  low : ∀ va e, translate mem pt va = some e → Low va →
    o (pte2pa e) = .frame (some p) (path va) ∧ e &&& U ≠ 0
  high : ∀ va e, translate mem pt va = some e → ¬ Low va →
    e &&& U = 0 ∧ (path va = path TRAPFRAME ∨ path va = path TRAMPOLINE)

variable {s t u : Kernel} {o o' o'' : Owners} {h : Holder} {p c : Slot} {pg pt va : Word}

theorem translate_valid {mem : Mem} {e : Word} (is : translate mem pt va = some e) :
    e &&& V ≠ 0 := by
  rw [Sv39.translate, Option.bind_eq_some_iff] at is
  obtain ⟨pg, -, last⟩ := is
  rw [leaf] at last
  split at last
  · cases last
  · next valid => exact Option.some.inj last ▸ valid

theorem Owns.translate_solid (w : Owns s o) (root : o pt = .table h []) {e : Word}
    (is : translate s.mem pt va = some e) : e &&& (R ||| W ||| X) ≠ 0 := by
  have valid := translate_valid is
  rw [Sv39.translate, Option.bind_eq_some_iff] at is
  obtain ⟨pg, walk, last⟩ := is
  have at_pg := label_eq.mp ((w.tree h).node (label_eq.mpr root) (by simp) walk)
  rw [leaf] at last
  split at last
  · cases last
  · obtain rfl := Option.some.inj last
    exact w.solid pg h _ _ at_pg (by simp) valid

/-- What happens on behalf of others does not touch a space. -/
theorem Spares.translate (sp : Spares h s o t o') (w : Owns s o) {h' : Holder} (ne : h' ≠ h)
    (root : o pt = .table h' []) (va : Word) : translate t.mem pt va = translate s.mem pt va :=
  (w.tree h').translate_congr (fun pg ds at_pg =>
    (sp pg h' ne (.inl (by rw [label_eq.mp at_pg]; exact rfl))).2) (label_eq.mpr root) va

theorem Space.spared (sp : Space s.mem o p pt) (w : Owns s o) (spares : Spares h s o t o')
    (ne : some p ≠ h) : Space t.mem o' p pt where
  root := (spares pt (some p) ne (.inl (by rw [sp.root]; exact rfl))).1.trans sp.root
  low va e is low := by
    rw [spares.translate w ne sp.root] at is
    obtain ⟨owner, user⟩ := sp.low va e is low
    exact ⟨(spares _ (some p) ne (.inl (by rw [owner]; exact rfl))).1.trans owner, user⟩
  high va e is high := by
    rw [spares.translate w ne sp.root] at is
    exact sp.high va e is high

theorem Grows.known (g : Grows h s o t o') (known : o pg ≠ .free) : o' pg = o pg := by
  rcases g pg with ⟨free, _⟩ | ⟨same, _⟩
  · exact absurd free known
  · exact same

/-- Frames are left alone by what extends the tables of their process. -/
theorem Grows.frame (g : Grows h s o t o') {h' : Holder} {ds : List Index}
    (frame : o pg = .frame h' ds) : o' pg = .frame h' ds ∧ t.mem pg = s.mem pg := by
  rcases g pg with ⟨free, _⟩ | ⟨same, ⟨ds', table⟩ | kept⟩
  · rw [frame] at free
    cases free
  · rw [frame] at table
    cases table
  · exact ⟨same.trans frame, kept⟩

/-- A space under which one more page is mapped. -/
theorem Space.mapped (sp : Space s.mem o p pt) {e : Word} (m : Mapped (some p) pt va e s o t o')
    (low : Low va → o' (pte2pa e) = .frame (some p) (path va) ∧ e &&& U ≠ 0)
    (high : ¬ Low va → e &&& U = 0 ∧ (path va = path TRAPFRAME ∨ path va = path TRAMPOLINE)) :
    Space t.mem o' p pt where
  root := m.grows.table sp.root
  low va' e' is isLow := by
    rw [m.translate va'] at is
    split at is
    · next same =>
      obtain rfl := Option.some.inj is
      rw [same]
      exact low ((low_congr same).mp isLow)
    · obtain ⟨owner, user⟩ := sp.low va' e' is isLow
      exact ⟨(m.grows.known (by simp [owner])).trans owner, user⟩
  high va' e' is isHigh := by
    rw [m.translate va'] at is
    split at is
    · next same =>
      obtain rfl := Option.some.inj is
      rw [same]
      exact high fun isLow => isHigh ((low_congr same).mpr isLow)
    · exact sp.high va' e' is isHigh

/-- New pages do not change a space. -/
theorem Space.filled (sp : Space s.mem o p pt) {own : Owner} (f : Filled h pg own s o t) :
    Space t.mem (Function.update o pg own) p pt where
  root := (f.grows.known (by simp [sp.root])).trans sp.root
  low va e is low := by
    rw [f.translate _ _ sp.root] at is
    obtain ⟨owner, user⟩ := sp.low va e is low
    exact ⟨(f.grows.known (by simp [owner])).trans owner, user⟩
  high va e is high := by
    rw [f.translate _ _ sp.root] at is
    exact sp.high va e is high

/-! ### New frames -/

theorem pa2pte_bit (pa : Word) {b : Word} (flag : 0x3ff &&& b = b) : pa2pte pa &&& b = 0 := by
  have none := congrArg (· &&& b) (flags_pa2pte pa)
  simp only [flags, BitVec.and_assoc, flag] at none
  rw [none]
  exact BitVec.zero_and

theorem make_bit (pa fl : Word) {b : Word} (flag : 0x3ff &&& b = b) :
    (pa2pte pa ||| fl) &&& b = fl &&& b := by
  rw [BitVec.and_or_distrib_right, pa2pte_bit pa flag]
  exact BitVec.zero_or

/-- The new page `page` is mapped at `va` for process `p`; `t` is the state in which the page has
its contents, and `u` the one in which it is mapped. -/
structure Framed (p : Slot) (pt va page fl : Word) (s : Kernel) (o : Owners) (t u : Kernel)
    (o' : Owners) : Prop where
  owns : Owns u o'
  quiet : Quiet s u
  grows : Grows (some p) s o u o'
  space : Space u.mem o' p pt
  owner : o' page = .frame (some p) (path va)
  contents : u.mem page = t.mem page
  frame : pte2pa (pa2pte page ||| fl) = page
  translate : ∀ va', translate u.mem pt va' =
    if path va' = path va then some (pa2pte page ||| fl) else translate s.mem pt va'

/-- `map_page` of a new frame in the user's half. -/
theorem mapFrame_wp {page perm : Word} (w : Owns s o) (free : o page = .free)
    (filled : Filled (some p) page (.frame (some p) (path va)) s o t) (sp : Space s.mem o p pt)
    (low : va < USER_LIMIT) (unset : translate s.mem pt va = none)
    (solid : perm &&& (R ||| W ||| X) ≠ 0) (user : perm &&& U ≠ 0) (small : perm.toNat < 1024) :
    wp (mapPage pt va page perm)
      (fun r u => r = 0 ∧ ∃ o', Framed p pt va page (perm ||| V) s o t u o') Panics t := by
  have sp₁ := sp.filled filled
  have unset₁ := (filled.translate _ _ sp.root va).trans unset
  refine wp_conseq (mapPage_wp filled.owns sp₁.root (fun _ => .inl low) solid) ?_
  rintro r u ⟨zero, o', mapped⟩
  have perms : mapPerm va perm = perm := if_neg (BitVec.not_le.mpr low)
  rw [unset₁, mapEntry, perms, BitVec.or_assoc] at mapped
  have small' : (perm ||| V).toNat < 1024 := by
    rw [BitVec.toNat_or]
    exact Nat.or_lt_two_pow (n := 10) small (by decide)
  have frame := pte2pa_make (w.managed page (by simp [free])).toFrame small'
  have owner : o' page = .frame (some p) (path va) := (mapped.grows.known (by simp)).trans (by simp)
  refine ⟨zero, o', mapped.owns, filled.quiet.trans mapped.quiet, filled.grows.trans mapped.grows,
    sp₁.mapped mapped (fun _ => ⟨by rw [frame]; exact owner, ?_⟩)
      (fun isHigh => absurd (low_of_lt low) isHigh), owner, ?_, frame, fun va' => ?_⟩
  · rw [make_bit _ _ (by decide)]
    rw [BitVec.and_or_distrib_right]
    intro zero
    exact user (BitVec.or_eq_zero_iff.mp zero).1
  · rcases mapped.grows page with ⟨impossible, _⟩ | ⟨_, ⟨ds, impossible⟩ | same⟩
    · simp at impossible
    · simp at impossible
    · exact same
  · rw [mapped.translate va', filled.translate _ _ sp.root]

/-! ### Copies -/

/-- The page of `va` in the child is a copy of the parent's, or both are unmapped. -/
def Copied (before after : Mem) (o' : Owners) (c : Slot) (old new va : Word) : Prop :=
  match translate before old va with
  | none => translate after new va = none
  | some e => ∃ e', translate after new va = some e' ∧ flags e' = flags e ∧
      after (pte2pa e') = before (pte2pa e) ∧ o' (pte2pa e') = .frame (some c) (path va)

/-- What `uvmcopy` has done to the new space after the pages of a list. -/
structure UvmCopied (p c : Slot) (old new : Word) (l : List Word) (s : Kernel) (o : Owners)
    (t : Kernel) (o' : Owners) : Prop where
  owns : Owns t o'
  quiet : Quiet s t
  grows : Grows (some c) s o t o'
  space : Space t.mem o' c new
  others : ∀ va, (∀ i ∈ l, path i ≠ path va) → translate t.mem new va = translate s.mem new va
  copies : ∀ i ∈ l, Copied s.mem t.mem o' c old new i

theorem translate_congr_path {mem : Mem} {va va' : Word} (same : path va = path va') :
    translate mem pt va = translate mem pt va' := by
  simp only [path, List.cons.injEq, and_true] at same
  rw [Sv39.translate, Sv39.translate, same.1, same.2.1, same.2.2]

/-! ### The pages of a size -/

theorem mem_pagesBelow {sz i : Word} :
    i ∈ pagesBelow sz ↔ i.toNat % 4096 = 0 ∧ i.toNat < sz.toNat := by
  simp only [pagesBelow, List.mem_map, List.mem_range]
  have bound := sz.isLt
  constructor
  · rintro ⟨k, below, rfl⟩
    rw [BitVec.toNat_ofNat]
    omega
  · rintro ⟨aligned, below⟩
    refine ⟨i.toNat / 4096, by omega, ?_⟩
    apply BitVec.eq_of_toNat_eq
    rw [BitVec.toNat_ofNat]
    omega

theorem pagesBelow_distinct {sz : Word} (small : sz.toNat ≤ 2 ^ 39) :
    (pagesBelow sz).Pairwise fun i j => path j ≠ path i := by
  rw [pagesBelow, List.pairwise_map]
  refine (List.pairwise_lt_range).imp_of_mem fun {j k} inside inside' less => ?_
  rw [List.mem_range] at inside inside'
  have small₁ : (BitVec.ofNat 64 (4096 * j)).toNat = 4096 * j := by
    rw [BitVec.toNat_ofNat]
    omega
  have small₂ : (BitVec.ofNat 64 (4096 * k)).toNat = 4096 * k := by
    rw [BitVec.toNat_ofNat]
    omega
  rw [Ne, path_eq_iff (by omega) (by omega), small₁, small₂]
  omega

/-- Every address below a size lies in one of its pages. -/
theorem exists_pagesBelow {sz va : Word} (small : sz.toNat ≤ 2 ^ 39) (below : va < sz) :
    ∃ i ∈ pagesBelow sz, path i = path va := by
  have below' := BitVec.lt_def.mp below
  have value : (BitVec.ofNat 64 (va.toNat / 4096 * 4096)).toNat = va.toNat / 4096 * 4096 := by
    rw [BitVec.toNat_ofNat]
    omega
  refine ⟨BitVec.ofNat 64 (va.toNat / 4096 * 4096), ?_, ?_⟩
  · rw [mem_pagesBelow, value]
    omega
  · rw [path_eq_iff (by omega) (by omega), value]
    omega

end Xv6Lab.Vm

import Xv6Lab.Lib.Transition
import Xv6Lab.Vm.Teardown

/-! The page allocator of `pm.c` over whole histories: `pmm_init` puts the pages of RAM on the free
list, callers take pages, write to them and give them back.  The links of the free list lie in the
free pages, so nothing that callers write to pages of their own changes them. -/

namespace Xv6Lab.Vm

open Rv64 Exec Relation

/-- `PGROUNDUP(sz)` -/
def pgRoundUp (sz : Word) : Word := pageStart (sz + 4095)

/-- The loop of `freerange` from `p` on. -/
def freerangeFrom (paEnd : Word) : Nat → Word → K Unit
  | 0, _ => pure ()
  | fuel + 1, p =>
    if p + 4096 ≤ paEnd then do
      freePage p
      freerangeFrom paEnd fuel (p + 4096)
    else
      pure ()

theorem freerangeFrom_succ (paEnd : Word) (fuel : Nat) (p : Word) :
    freerangeFrom paEnd (fuel + 1) p =
      if p + 4096 ≤ paEnd then freePage p >>= fun _ => freerangeFrom paEnd fuel (p + 4096)
      else pure () := rfl

def freerange (paStart paEnd : Word) : K Unit :=
  freerangeFrom paEnd (paEnd.toNat / 4096 + 1) (pgRoundUp paStart)

def pmmInit : K Unit := do
  let s ← get
  freerange s.kernelEnd PHYSTOP

/-- The whole pages between `PGROUNDUP(end)` and `PHYSTOP`. -/
structure Whole (s : Kernel) (pg : Word) : Prop where
  aligned : pg.toNat % 4096 = 0
  above : (pgRoundUp s.kernelEnd).toNat ≤ pg.toNat
  below : pg.toNat + 4096 ≤ PHYSTOP.toNat

/-- What callers do: `held` are the pages that they were given and have not given back. -/
inductive PageStep : Kernel × Set Word → Kernel × Set Word → Prop
  | alloc {s t : Kernel} {held : Set Word} {pg : Word} (run : allocPage s = .ok pg t) :
      PageStep (s, held) (t, insert pg held)
  | free {s t : Kernel} {held : Set Word} {pg : Word} (mine : pg ∈ held)
      (run : freePage pg s = .ok () t) : PageStep (s, held) (t, held \ {pg})
  | write {s : Kernel} {held : Set Word} {pg : Word} (mine : pg ∈ held) (data : Word → Word) :
      PageStep (s, held) (s.setMem (Function.update s.mem pg data), held)

/-- The free list and the held pages are the whole pages, each once. -/
structure Shared (s₀ : Kernel) (s : Kernel) (held : Set Word) (l : List Word) : Prop where
  kernelEnd : s.kernelEnd = s₀.kernelEnd
  chain : Chain s.mem s.freelist l
  nodup : l.Nodup
  apart : ∀ pg ∈ l, pg ∉ held
  all : ∀ pg, pg ∈ l ∨ pg ∈ held ↔ Whole s₀ pg

section Init

variable {s₀ s : Kernel} {p pg paEnd : Word} {l : List Word}

theorem toNat_phystop : PHYSTOP.toNat = 2281701376 := by decide

theorem toNat_pgRoundUp (inRam : s.kernelEnd ≤ PHYSTOP) :
    (pgRoundUp s.kernelEnd).toNat = (s.kernelEnd.toNat + 4095) / 4096 * 4096 := by
  have bound := BitVec.le_def.mp inRam
  rw [toNat_phystop] at bound
  rw [pgRoundUp, pageStart, BitVec.toNat_ofNat, BitVec.toNat_add]
  show (s.kernelEnd.toNat + 4095) % 2 ^ 64 / 4096 * 4096 % 2 ^ 64 = _
  omega

/-- `free_page` accepts exactly the whole pages. -/
theorem managed_iff_whole (inRam : s.kernelEnd ≤ PHYSTOP) : Managed s pg ↔ Whole s pg := by
  have bound := BitVec.le_def.mp inRam
  have round := toNat_pgRoundUp inRam
  rw [toNat_phystop] at bound
  constructor
  · rintro ⟨aligned, above, below⟩
    rw [BitVec.le_def] at above
    rw [BitVec.lt_def, toNat_phystop] at below
    refine ⟨aligned, ?_, ?_⟩
    · rw [round]
      omega
    · rw [toNat_phystop]
      omega
  · rintro ⟨aligned, above, below⟩
    rw [round] at above
    rw [toNat_phystop] at below
    refine ⟨aligned, ?_, ?_⟩
    · rw [BitVec.le_def]
      omega
    · rw [BitVec.lt_def, toNat_phystop]
      omega

/-- The whole pages below `p` are on the free list. -/
structure Swept (s₀ s : Kernel) (p : Word) (l : List Word) : Prop where
  kernelEnd : s.kernelEnd = s₀.kernelEnd
  chain : Chain s.mem s.freelist l
  nodup : l.Nodup
  members : ∀ pg, pg ∈ l ↔ Whole s₀ pg ∧ pg.toNat < p.toNat

theorem Swept.shared (h : Swept s₀ s p l) (top : PHYSTOP.toNat < p.toNat + 4096) :
    Shared s₀ s ∅ l where
  kernelEnd := h.kernelEnd
  chain := h.chain
  nodup := h.nodup
  apart pg _ := Set.notMem_empty pg
  all pg := by
    rw [h.members, Set.mem_empty_iff_false, or_false]
    refine ⟨fun inside => inside.1, fun whole => ⟨whole, ?_⟩⟩
    have below := whole.below
    omega

theorem toNat_next (room : p.toNat ≤ PHYSTOP.toNat) : (p + 4096).toNat = p.toNat + 4096 := by
  rw [toNat_phystop] at room
  rw [BitVec.toNat_add]
  show (p.toNat + 4096) % 2 ^ 64 = _
  omega

/-- One turn of the loop. -/
theorem Swept.next (base : KERNBASE ≤ s₀.kernelEnd) (inRam : s₀.kernelEnd ≤ PHYSTOP)
    (h : Swept s₀ s p l) (whole : Whole s₀ p) (room : p.toNat ≤ PHYSTOP.toNat) :
    ∃ t, freePage p s = .ok () t ∧ Swept s₀ t (p + 4096) (p :: l) := by
  have managed := (managed_iff_whole inRam).mpr whole
  have fresh : p ∉ l := fun inside => absurd ((h.members p).mp inside).2 (Nat.lt_irrefl _)
  have spec := freePage_wp h.chain (h.kernelEnd ▸ base)
    ⟨managed.aligned, h.kernelEnd ▸ managed.above, managed.below⟩ fresh
  unfold wp at spec
  split at spec
  · next t run =>
    obtain ⟨chain, quiet, -⟩ := spec
    refine ⟨t, run, quiet.kernelEnd.trans h.kernelEnd, chain, List.nodup_cons.mpr ⟨fresh, h.nodup⟩,
      fun pg => ?_⟩
    rw [List.mem_cons, h.members, toNat_next room]
    constructor
    · rintro (rfl | ⟨inside, before⟩)
      · exact ⟨whole, by omega⟩
      · exact ⟨inside, by omega⟩
    · rintro ⟨inside, before⟩
      by_cases here : pg = p
      · exact .inl here
      · have apart : pg.toNat ≠ p.toNat := fun eq => here (BitVec.eq_of_toNat_eq eq)
        have aligned := inside.aligned
        have aligned' := whole.aligned
        exact .inr ⟨inside, by omega⟩
  · exact spec.elim

theorem freerangeFrom_fills (base : KERNBASE ≤ s₀.kernelEnd) (inRam : s₀.kernelEnd ≤ PHYSTOP)
    (fuel : Nat) (h : Swept s₀ s p l) (aligned : p.toNat % 4096 = 0)
    (above : (pgRoundUp s₀.kernelEnd).toNat ≤ p.toNat) (upTo : p.toNat ≤ PHYSTOP.toNat)
    (enough : PHYSTOP.toNat < p.toNat + fuel * 4096 + 4096) :
    ∃ t l', freerangeFrom PHYSTOP fuel p s = .ok () t ∧ Shared s₀ t ∅ l' := by
  induction fuel generalizing s p l with
  | zero => exact ⟨s, l, rfl, h.shared (by omega)⟩
  | succ fuel ih =>
    have next := toNat_next upTo
    rw [freerangeFrom_succ]
    by_cases room : p + 4096 ≤ PHYSTOP
    · have more := BitVec.le_def.mp room
      rw [next] at more
      obtain ⟨t, run, filled⟩ := h.next base inRam ⟨aligned, above, more⟩ upTo
      rw [if_pos room, bind_ok run]
      apply ih filled <;> omega
    · have last : ¬ p.toNat + 4096 ≤ PHYSTOP.toNat := by
        rw [← next]
        exact fun fits => room (BitVec.le_def.mpr fits)
      rw [if_neg room]
      exact ⟨s, l, rfl, h.shared (by omega)⟩

theorem pmmInit_eq (s : Kernel) : pmmInit s = freerange s.kernelEnd PHYSTOP s := by
  unfold pmmInit
  rw [bind_get]

/-- After `pmm_init` the free list has all pages. -/
theorem pmmInit_shares (base : KERNBASE ≤ s.kernelEnd) (inRam : s.kernelEnd ≤ PHYSTOP)
    (empty : s.freelist = 0) : ∃ t l, pmmInit s = .ok () t ∧ Shared s t ∅ l := by
  have bound := BitVec.le_def.mp inRam
  have limit := toNat_phystop
  have round := toNat_pgRoundUp inRam
  have filled : Swept s s (pgRoundUp s.kernelEnd) [] := by
    refine ⟨rfl, empty, List.nodup_nil, fun pg => ?_⟩
    refine ⟨fun inside => absurd inside List.not_mem_nil, fun ⟨whole, before⟩ => ?_⟩
    exact absurd whole.above (Nat.not_le.mpr before)
  have enough : PHYSTOP.toNat <
      (pgRoundUp s.kernelEnd).toNat + (PHYSTOP.toNat / 4096 + 1) * 4096 + 4096 := by
    omega
  obtain ⟨t, l, run, shared⟩ := freerangeFrom_fills base inRam _ filled (by omega) (Nat.le_refl _)
    (by omega) enough
  refine ⟨t, l, ?_, shared⟩
  rw [pmmInit_eq, freerange, run]

end Init

section Runs

variable {s₀ s t : Kernel} {held held' : Set Word} {pg : Word} {l : List Word}

/-- `alloc_page` takes the first page of the list. -/
theorem allocPage_takes (run : allocPage s = .ok pg t) (chain : Chain s.mem s.freelist l) :
    ∃ rest, l = pg :: rest ∧ t.freelist = s.mem pg 0 ∧ Chain s.mem t.freelist rest ∧
      t.kernelEnd = s.kernelEnd ∧ ∀ pg' ≠ pg, t.mem pg' = s.mem pg' := by
  cases l with
  | nil =>
    have none : s.freelist = 0 := chain
    unfold allocPage at run
    rw [bind_get] at run
    simp only [none, ne_eq, not_true_eq_false, if_false] at run
    cases run
  | cons first rest =>
    obtain ⟨head, nonzero, tail⟩ := chain
    unfold allocPage at run
    rw [bind_get] at run
    simp only [head, ne_eq, nonzero, not_false_eq_true, if_true] at run
    cases run
    exact ⟨rest, rfl, rfl, tail, rfl, fun pg' other => Function.update_of_ne other ..⟩

theorem Shared.step (base : KERNBASE ≤ s₀.kernelEnd) (inRam : s₀.kernelEnd ≤ PHYSTOP)
    (h : Shared s₀ s held l) (step : PageStep (s, held) (t, held')) :
    ∃ l', Shared s₀ t held' l' := by
  cases step with
  | @alloc _ _ _ pg run =>
    obtain ⟨rest, rfl, -, chain, same, elsewhere⟩ := allocPage_takes run h.chain
    obtain ⟨fresh, nodup⟩ := List.nodup_cons.mp h.nodup
    refine ⟨rest, same.trans h.kernelEnd, chain.congr fun pg' inside => elsewhere pg' ?_, nodup,
      fun pg' inside => ?_, fun pg' => ?_⟩
    · rintro rfl
      exact fresh inside
    · rintro (rfl | other)
      · exact fresh inside
      · exact h.apart pg' (.tail _ inside) other
    · rw [← h.all pg', List.mem_cons, Set.mem_insert_iff]
      tauto
  | @free _ _ _ pg mine run =>
    have managed := (managed_iff_whole inRam).mpr ((h.all pg).mp (.inr mine))
    have fresh : pg ∉ l := fun inside => h.apart pg inside mine
    obtain ⟨chain, quiet, -⟩ := wp_ok (freePage_wp h.chain (h.kernelEnd ▸ base)
      ⟨managed.aligned, h.kernelEnd ▸ managed.above, managed.below⟩ fresh) run
    refine ⟨pg :: l, quiet.kernelEnd.trans h.kernelEnd, chain, List.nodup_cons.mpr ⟨fresh, h.nodup⟩,
      fun pg' inside => ?_, fun pg' => ?_⟩
    · rintro ⟨before, other⟩
      rcases List.mem_cons.mp inside with rfl | inside
      · exact other rfl
      · exact h.apart pg' inside before
    · rw [← h.all pg', List.mem_cons, Set.mem_sdiff, Set.mem_singleton_iff]
      by_cases here : pg' = pg
      · subst here
        simp [mine]
      · simp [here]
  | @write _ _ pg mine data =>
    refine ⟨l, h.kernelEnd, h.chain.congr fun pg' inside => ?_, h.nodup, h.apart, h.all⟩
    refine Function.update_of_ne ?_ ..
    rintro rfl
    exact h.apart pg' inside mine

/-- After `pmm_init` and any calls of `alloc_page` and `free_page`, with any writes to held pages
between them, the free list and the held pages are the whole pages, each once. -/
theorem pages_partitioned (base : KERNBASE ≤ s₀.kernelEnd) (inRam : s₀.kernelEnd ≤ PHYSTOP)
    (empty : s₀.freelist = 0) (init : pmmInit s₀ = .ok () s)
    (run : ReflTransGen PageStep (s, ∅) (t, held)) :
    (∃ l, Chain t.mem t.freelist l ∧ l.Nodup ∧
      (∀ pg ∈ l, pg.toNat % 4096 = 0 ∧ s₀.kernelEnd ≤ pg ∧ pg < PHYSTOP) ∧
      (∀ pg ∈ l, pg ∉ held) ∧ ∀ pg, pg ∈ l ∨ pg ∈ held ↔ Whole s₀ pg) ∧
    ∀ pg u, allocPage t = .ok pg u → pg ∉ held := by
  obtain ⟨s', l₀, init', start⟩ := pmmInit_shares base inRam empty
  obtain rfl : s = s' := by
    rw [init] at init'
    cases init'
    rfl
  obtain ⟨l, h⟩ := Transition.invariant (I := fun x : Kernel × Set Word => ∃ l, Shared s₀ x.1 x.2 l)
    (fun _ _ ⟨_, h⟩ step => h.step base inRam step) ⟨l₀, start⟩ run
  refine ⟨⟨l, h.chain, h.nodup, fun pg inside => ?_, h.apart, h.all⟩, fun pg u taken => ?_⟩
  · have managed := (managed_iff_whole inRam).mpr ((h.all pg).mp (.inl inside))
    exact ⟨managed.aligned, managed.above, managed.below⟩
  · obtain ⟨rest, rfl, -⟩ := allocPage_takes taken h.chain
    exact h.apart pg List.mem_cons_self

/-- RAM with two whole pages, before `pmm_init`. -/
def bareBoot : Kernel := { sampleBoot with kernelEnd := 0x87ffd123, freelist := 0 }

/-- The pages of `bareBoot` after `pmm_init`, none of them taken yet. -/
theorem pages_partitioned_bare : ∃ s, pmmInit bareBoot = .ok () s ∧
    (∃ l, Chain s.mem s.freelist l ∧ l.Nodup ∧
      (∀ pg ∈ l, pg.toNat % 4096 = 0 ∧ bareBoot.kernelEnd ≤ pg ∧ pg < PHYSTOP) ∧
      (∀ pg ∈ l, pg ∉ (∅ : Set Word)) ∧
      ∀ pg, pg ∈ l ∨ pg ∈ (∅ : Set Word) ↔ Whole bareBoot pg) ∧
    ∀ pg u, allocPage s = .ok pg u → pg ∉ (∅ : Set Word) := by
  have base : KERNBASE ≤ bareBoot.kernelEnd := by decide
  have inRam : bareBoot.kernelEnd ≤ PHYSTOP := by decide
  obtain ⟨s, l, init, -⟩ := pmmInit_shares base inRam rfl
  exact ⟨s, init, pages_partitioned base inRam rfl init .refl⟩

end Runs

end Xv6Lab.Vm

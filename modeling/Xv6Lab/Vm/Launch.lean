import Xv6Lab.Vm.Boot

/-! The boot succeeds: each of its functions does its part, whatever RAM holds, when there are pages
enough behind the kernel's image; and the state in which it ends is one from which the machine runs. -/

namespace Xv6Lab.Vm

open Rv64 Sv39 Exec Relation
open Trap (PGSIZE TRAMPOLINE TRAPFRAME)

/-! ### The parts of the boot -/

section Parts

variable {s₀ s t : Kernel} {o o' : Owners} {pg pt : Word} {maps : List Mapping} {l : List Word}
  {etext trampoline : Word} {k n : Nat}

/-- `free_page` writes to no page of the kernel's image. -/
theorem freePage_image : wp (freePage pg) (fun _ t => Quiet s t ∧
    ∀ pg', ¬ Managed s pg' → t.mem pg' = s.mem pg') Any s := by
  unfold freePage
  rw [wp_bind, wp_get]
  split
  · exact trivial
  · next good =>
    rw [not_or, not_or, not_not, BitVec.not_lt, BitVec.not_le] at good
    refine ⟨⟨rfl, rfl, rfl, rfl, rfl⟩, fun pg' image => ?_⟩
    refine funext fun off => Mem.store_page _ _ _ _ ?_
    rintro rfl
    exact image ⟨good.1, good.2.1, good.2.2⟩

theorem freerangeFrom_image {paEnd p : Word} {fuel : Nat} (run : freerangeFrom paEnd fuel p s = .ok () t) :
    Quiet s t ∧ ∀ pg, ¬ Managed s pg → t.mem pg = s.mem pg := by
  induction fuel generalizing s p with
  | zero =>
    cases run
    exact ⟨.refl _, fun _ _ => rfl⟩
  | succ fuel ih =>
    rw [freerangeFrom_succ] at run
    by_cases room : p + 4096 ≤ paEnd
    · rw [if_pos room] at run
      obtain ⟨_, u, first, rest⟩ := ok_of_bind run
      obtain ⟨quiet, image⟩ := wp_ok freePage_image first
      obtain ⟨quiet', image'⟩ := ih rest
      refine ⟨quiet.trans quiet', fun pg out => (image' pg fun inside => out ?_).trans (image pg out)⟩
      exact ⟨inside.1, quiet.kernelEnd ▸ inside.2, inside.3⟩
    · rw [if_neg room] at run
      cases run
      exact ⟨.refl _, fun _ _ => rfl⟩

/-- The pages on the list are free, and the others are the kernel's own. -/
def freeOwners (l : List Word) : Owners := fun pg => if pg ∈ l then .free else .other

theorem freeOwners_free : pg ∈ l ↔ freeOwners l pg = .free := by
  unfold freeOwners
  split
  · next inside => exact iff_of_true inside rfl
  · next outside =>
    refine iff_of_false outside fun is => ?_
    cases is

theorem freeOwners_table {h : Holder} {ds : List Index} : freeOwners l pg ≠ .table h ds := by
  unfold freeOwners
  split <;> exact fun is => by cases is

theorem Shared.owns (base : KERNBASE ≤ s₀.kernelEnd) (inRam : s₀.kernelEnd ≤ PHYSTOP)
    (h : Shared s₀ s ∅ l) : Owns s (freeOwners l) where
  base := h.kernelEnd ▸ base
  free := ⟨l, h.chain, h.nodup, fun _ => freeOwners_free⟩
  managed pg known := by
    have inside : pg ∈ l := by
      by_contra outside
      exact known (if_neg outside)
    have managed := (managed_iff_whole inRam).mpr ((h.all pg).mp (.inl inside))
    exact ⟨managed.aligned, h.kernelEnd ▸ managed.above, managed.below⟩
  tree h pg ds i next at_pg := absurd (label_eq.mp at_pg) freeOwners_table
  solid pg h ds i at_pg := absurd at_pg freeOwners_table

/-- There are as many pages as fit. -/
theorem Shared.length (inRam : s₀.kernelEnd ≤ PHYSTOP) (h : Shared s₀ s ∅ l)
    (room : (pgRoundUp s₀.kernelEnd).toNat + n * 4096 ≤ PHYSTOP.toNat) : n ≤ l.length := by
  have round := toNat_pgRoundUp inRam
  rw [toNat_phystop] at room
  have page : ∀ j < n, (pgRoundUp s₀.kernelEnd + BitVec.ofNat 64 (4096 * j)).toNat =
      (pgRoundUp s₀.kernelEnd).toNat + 4096 * j := by
    intro j less
    rw [BitVec.toNat_add, BitVec.toNat_ofNat]
    omega
  have nodup : ((List.range n).map fun j => pgRoundUp s₀.kernelEnd + BitVec.ofNat 64 (4096 * j)).Nodup := by
    refine List.Nodup.map_on (fun i here j there same => ?_) List.nodup_range
    have eq := congrArg BitVec.toNat same
    rw [page i (List.mem_range.mp here), page j (List.mem_range.mp there)] at eq
    omega
  have inside : ((List.range n).map fun j => pgRoundUp s₀.kernelEnd + BitVec.ofNat 64 (4096 * j)) ⊆ l := by
    intro pg is
    obtain ⟨j, here, rfl⟩ := List.mem_map.mp is
    have less := List.mem_range.mp here
    have at_page := page j less
    refine ((h.all _).mpr ⟨?_, ?_, ?_⟩).resolve_right (Set.notMem_empty _)
    · omega
    · omega
    · rw [toNat_phystop]
      omega
  have counted := (List.subperm_of_subset nodup inside).length_le
  rwa [List.length_map, List.length_range] at counted

/-- `pmm_init` puts all pages on the free list and leaves the image of the kernel. -/
theorem pmmInit_fills (base : KERNBASE ≤ s.kernelEnd) (inRam : s.kernelEnd ≤ PHYSTOP)
    (empty : s.freelist = 0) (room : (pgRoundUp s.kernelEnd).toNat + n * 4096 ≤ PHYSTOP.toNat) :
    ∃ t l, pmmInit s = .ok () t ∧ Quiet s t ∧ (∀ pg, ¬ Managed s pg → t.mem pg = s.mem pg) ∧
      Owns t (freeOwners l) ∧ Chain t.mem t.freelist l ∧ n ≤ l.length ∧ ∀ pg ∈ l, Managed s pg := by
  obtain ⟨t, l, run, shared⟩ := pmmInit_shares base inRam empty
  obtain ⟨quiet, image⟩ := freerangeFrom_image ((pmmInit_eq s).symm.trans run)
  refine ⟨t, l, run, quiet, image, shared.owns base inRam, shared.chain, shared.length inRam room,
    fun pg inside => ?_⟩
  exact (managed_iff_whole inRam).mpr ((shared.all pg).mp (.inl inside))

/-- The kernel's table before anything is mapped. -/
theorem createPagetable_building (w : Owns s o) (chain : Chain s.mem s.freelist l)
    (idle : s.current = none) (enough : k + 1 ≤ l.length) :
    wp createPagetable (fun r t => r ≠ 0 ∧ Quiet s t ∧ ∃ o' l', Undisturbed s o t o' ∧
      Building r [] t o' l' ∧ k ≤ l'.length) (fun _ _ => False) s := by
  refine wp_mono (wp_and (createPagetable_wp w none) (createPagetable_chain w chain)) ?_ ?_
  · rintro r t ⟨⟨o', owns, quiet, grows, root, none⟩, -, chain', -⟩
    refine ⟨owns.ne_zero (by simp [root]), quiet, o', l.drop 1, grows.undisturbed,
      ⟨owns, root, chain', quiet.current.trans idle, none⟩, ?_⟩
    rw [List.length_drop]
    omega
  · rintro e t ⟨-, -, short⟩
    omega

theorem Undisturbed.write (kept : Undisturbed s o t o') (fresh : o pg = .free) {mem : Mem}
    (away : ∀ pg' ≠ pg, mem pg' = t.mem pg') : Undisturbed s o (t.setMem mem) o' := by
  refine fun pg' other => ⟨(kept pg' other).1, (away pg' ?_).trans (kept pg' other).2⟩
  rintro rfl
  rw [fresh] at other
  cases other

/-- The mappings up to those of the devices. -/
def memoryMappings (etext : Word) : List Mapping :=
  heapMappings etext ++ uartMappings ++ plicMappings ++ clintMappings ++ virtioMappings

theorem memoryMappings_fits {m : Mapping} (inside : m ∈ memoryMappings etext) :
    m.Fits kernelTables := by
  have all : m ∈ kernelMappings etext 0 0 :=
    List.mem_append_left _ (List.mem_append_left _ inside)
  exact kernelMappings_fits all

theorem memoryMappings_distinct (etext : Word) : Distinct (memoryMappings etext) :=
  (kernelMappings_distinct etext 0 0).before.before

theorem uncovered_nil : (uncovered kernelTables []).card ≤ 72 :=
  (Finset.card_filter_le ..).trans kernelTables_card

theorem mapMemory_yields (b : Building pt [] s o l) (enough : 72 + k ≤ l.length) :
    Yields (mapMemory etext pt)
      (fun _ t => Quiet s t ∧ ∃ o' l', Undisturbed s o t o' ∧ Building pt (memoryMappings etext) t o' l' ∧
        (uncovered kernelTables (memoryMappings etext)).card + k ≤ l'.length) s := by
  have distinct := memoryMappings_distinct etext
  have fits : ∀ m ∈ memoryMappings etext, m.Fits kernelTables := fun m inside => memoryMappings_fits inside
  have none := uncovered_nil
  unfold memoryMappings at distinct fits ⊢
  unfold mapMemory
  simp only [List.mem_append] at fits
  generalize heapMappings etext = heap at distinct fits ⊢
  generalize uartMappings = uart at distinct fits ⊢
  generalize plicMappings = plic at distinct fits ⊢
  generalize clintMappings = clint at distinct fits ⊢
  generalize virtioMappings = virtio at distinct fits ⊢
  have pages : (uncovered kernelTables []).card + k ≤ l.length := by omega
  refine (yields_of_wp (b.mapAll distinct.before.before.before.before
    (fun m inside => fits m (.inl (.inl (.inl (.inl inside))))) pages)).bind ?_
  rintro _ t ⟨quiet₁, o₁, l₁, kept₁, b₁, left₁⟩
  refine (yields_of_wp (b₁.mapAll distinct.before.before.before
    (fun m inside => fits m (.inl (.inl (.inl (.inr inside))))) left₁)).bind ?_
  rintro _ t ⟨quiet₂, o₂, l₂, kept₂, b₂, left₂⟩
  refine (yields_of_wp (b₂.mapAll distinct.before.before
    (fun m inside => fits m (.inl (.inl (.inr inside)))) left₂)).bind ?_
  rintro _ t ⟨quiet₃, o₃, l₃, kept₃, b₃, left₃⟩
  refine (yields_of_wp (b₃.mapAll distinct.before
    (fun m inside => fits m (.inl (.inr inside))) left₃)).bind ?_
  rintro _ t ⟨quiet₄, o₄, l₄, kept₄, b₄, left₄⟩
  obtain ⟨_, t, run, quiet₅, o₅, l₅, kept₅, b₅, left₅⟩ :=
    yields_of_wp (b₄.mapAll distinct (fun m inside => fits m (.inr inside)) left₄)
  exact ⟨_, t, run, (((quiet₁.trans quiet₂).trans quiet₃).trans quiet₄).trans quiet₅, o₅, l₅,
    (((kept₁.trans kept₂).trans kept₃).trans kept₄).trans kept₅, b₅, left₅⟩

/-- The bytes of the kernel's image from `trampoline` on are the kernel's own. -/
def CodeAt (o : Owners) (trampoline : Word) : Prop := ∀ i < 4096,
  o (BitVec.ofNat 64 ((trampoline + BitVec.ofNat 64 i).toNat / 4096 * 4096)) = .other

/-- `memcpy` of a whole page. -/
theorem memcpyPage_yields {dst : Word} (aligned : dst.toNat % 4096 = 0) (src : Nat → BitVec 8)
    (whole : n = 4096) : Yields (memcpy dst src n) (fun _ t => ∃ mem, t = s.setMem mem ∧
      (∀ pg ≠ dst, mem pg = s.mem pg) ∧ ∀ i < 4096, byteAt (mem dst) i = src i) s := by
  refine yields_of_wp (wp_conseq (memcpy_wp aligned src (Nat.le_of_eq whole)) ?_)
  rintro _ t ⟨mem, is, away, bytes⟩
  refine ⟨mem, is, away, fun i inside => ?_⟩
  rw [bytes i inside, if_pos (whole ▸ inside)]

/-- The trampoline page, with the code, and the trapframe page. -/
theorem mapTrampoline_yields (b : Building pt (memoryMappings etext) s o l) (code : CodeAt o trampoline)
    (enough : (uncovered kernelTables (memoryMappings etext)).card + (k + 2) ≤ l.length) :
    Yields (mapTrampoline trampoline pt)
      (fun trapframe t => ∃ u tramp o' l', t = { u with trampolinePhysAddr := tramp } ∧ Quiet s u ∧
        Undisturbed s o u o' ∧ Building pt (kernelMappings etext tramp trapframe) u o' l' ∧ k ≤ l'.length ∧
        o' tramp = .other ∧ ∀ i < 4096, byteAt (u.mem tramp) i =
          loadByte s.mem (trampoline + BitVec.ofNat 64 i)) s := by
  refine (yields_of_wp (b.alloc (Nat.le_trans (Nat.le_add_left _ _) enough))).bind ?_
  rintro tramp t ⟨some, free, quiet, o₁, l₁, mine, kept, b₁, taken⟩
  rw [if_neg some]
  have used : o tramp ≠ .other := by
    rw [free]
    nofun
  have page : tramp.toNat % 4096 = 0 := (b.owns.managed tramp used).aligned
  refine yields_get ?_
  refine (memcpyPage_yields page _ rfl).bind ?_
  rintro _ u ⟨mem, rfl, away, bytes⟩
  have b₂ := b₁.write mine away
  have kept₂ := kept.write free away
  have one : 0 + 1 ≤ l₁.length := by omega
  refine (yields_of_wp (b₂.alloc one)).bind ?_
  rintro trapframe u ⟨some', free', quiet', o₃, l₃, mine', kept₃, b₃, taken'⟩
  rw [if_neg some']
  have away' : ∀ pg ≠ trapframe, Function.update u.mem trapframe (fun _ => 0) pg = u.mem pg :=
    fun pg other => Function.update_of_ne other ..
  have b₄ := b₃.write mine' away'
  have kept₄ := kept₃.write free' away'
  refine yields_modify ?_
  have distinct : Distinct (memoryMappings etext ++ [⟨TRAMPOLINE, tramp, R ||| X⟩] ++
      [⟨TRAPFRAME, trapframe, R ||| W⟩]) := kernelMappings_distinct etext tramp trapframe
  have fits : ∀ m ∈ kernelMappings etext tramp trapframe, m.Fits kernelTables :=
    fun m inside => kernelMappings_fits inside
  have left : (uncovered kernelTables (memoryMappings etext)).card + k ≤ l₃.length := by omega
  refine (yields_of_wp (b₄.mapAll distinct.before (fun m inside => fits m ?_) left)).bind ?_
  · exact List.mem_append_left _ (List.mem_append_right _ inside)
  rintro _ v ⟨quiet₅, o₅, l₅, kept₅, b₅, left₅⟩
  refine (yields_of_wp (b₅.mapAll distinct (fun m inside => fits m ?_) left₅)).bind ?_
  · exact List.mem_append_right _ inside
  rintro _ w ⟨quiet₆, o₆, l₆, kept₆, b₆, left₆⟩
  have rest := (kept₄.trans kept₅).trans kept₆
  refine yields_modify (yields_pure ⟨w, tramp, o₆, l₆, rfl, ?_, kept₂.trans rest, b₆, by omega,
    (rest tramp mine).1, fun i inside => ?_⟩)
  · exact (quiet.trans (.setMem t mem)).trans (quiet'.trans (.trans (.setMem u _) (quiet₅.trans quiet₆)))
  · rw [(rest tramp mine).2]
    refine (bytes i inside).trans ?_
    rw [loadByte, loadByte, (kept _ (code i inside)).2]

/-- `kvminit` with `k` pages to spare. -/
theorem kvminit_yields (w : Owns s o) (chain : Chain s.mem s.freelist l) (idle : s.current = none)
    (code : CodeAt o trampoline) (enough : 75 + k ≤ l.length) :
    Yields (kvminit etext trampoline)
      (fun trapframe t => ∃ u pt tramp o' l',
        t = { u with trampolinePhysAddr := tramp, kernelPagetable := pt } ∧ Quiet s u ∧
        Undisturbed s o u o' ∧ Building pt (kernelMappings etext tramp trapframe) u o' l' ∧ k ≤ l'.length ∧
        o' tramp = .other ∧ ∀ i < 4096, byteAt (u.mem tramp) i =
          loadByte s.mem (trampoline + BitVec.ofNat 64 i)) s := by
  have one : (74 + k) + 1 ≤ l.length := by omega
  have made : Yields (kvmmake etext trampoline)
      (fun r t => ∃ u tramp o' l', t = { u with trampolinePhysAddr := tramp } ∧ Quiet s u ∧
        Undisturbed s o u o' ∧ Building r.1 (kernelMappings etext tramp r.2) u o' l' ∧ k ≤ l'.length ∧
        o' tramp = .other ∧ ∀ i < 4096, byteAt (u.mem tramp) i =
          loadByte s.mem (trampoline + BitVec.ofNat 64 i)) s := by
    refine (yields_of_wp (createPagetable_building w chain idle one)).bind ?_
    rintro pt t ⟨some, quiet₁, o₁, l₁, kept₁, b₁, enough₁⟩
    rw [if_neg some]
    have pages : 72 + (k + 2) ≤ l₁.length := by omega
    refine (mapMemory_yields b₁ pages).bind ?_
    rintro _ u ⟨quiet₂, o₂, l₂, kept₂, b₂, enough₂⟩
    have kept := kept₁.trans kept₂
    refine (mapTrampoline_yields b₂ (fun i inside => (kept _ (code i inside)).1) enough₂).bind ?_
    rintro trapframe v ⟨u, tramp, o₃, l₃, rfl, quiet₃, kept₃, b₃, enough₃, mine, bytes⟩
    refine yields_pure ⟨u, tramp, o₃, l₃, rfl, quiet₁.trans (quiet₂.trans quiet₃), kept.trans kept₃, b₃,
      enough₃, mine, fun i inside => ?_⟩
    rw [bytes i inside, loadByte, loadByte, (kept _ (code i inside)).2]
  refine made.bind ?_
  rintro ⟨pt, trapframe⟩ t ⟨u, tramp, o', l', rfl, rest⟩
  exact yields_modify (yields_pure ⟨u, pt, tramp, o', l', rfl, rest⟩)

theorem Building.setProc (b : Building pt maps s o l) (p : Slot) (proc : Proc) :
    Building pt maps (s.setProc p proc) o l :=
  ⟨b.owns.setProc p proc, b.root, b.chain, b.idle, b.translate⟩

/-- What `init_proc` leaves of the rest of the state, and of the slots. -/
structure Emptied (slots : List Slot) (table table' : Slot → Word) (s t : Kernel) (o' : Owners) :
    Prop where
  kernelPagetable : t.kernelPagetable = s.kernelPagetable
  trampolinePhysAddr : t.trampolinePhysAddr = s.trampolinePhysAddr
  cleared : ∀ i ∈ slots, t.procs i = emptyProc ∧ o' (table' i) = .other
  others : ∀ i, i ∉ slots → t.procs i = s.procs i ∧ table' i = table i

theorem initProcs_yields (slots : List Slot) (table : Slot → Word) (b : Building pt maps s o l)
    (enough : slots.length ≤ l.length) :
    Yields (initProcs slots table) (fun table' t => ∃ o' l', Undisturbed s o t o' ∧
      Building pt maps t o' l' ∧ Emptied slots table table' s t o') s := by
  induction slots generalizing s o l table with
  | nil =>
    exact yields_pure ⟨o, l, fun pg other => ⟨other, rfl⟩, b, rfl, rfl,
      fun i none => absurd none List.not_mem_nil, fun i _ => ⟨rfl, rfl⟩⟩
  | cons i rest ih =>
    refine (yields_of_wp (b.alloc (Nat.le_trans (Nat.le_add_left 1 rest.length) enough))).bind ?_
    rintro page t ⟨some, free, quiet, o₁, l₁, mine, kept₁, b₁, taken⟩
    rw [if_neg some]
    refine yields_get (yields_set (yields_modify ?_))
    have away : ∀ pg ≠ page, Function.update t.mem page
        (fun off => if off < PROC_SIZE then 0 else t.mem page off) pg = t.mem pg :=
      fun pg other => Function.update_of_ne other ..
    have b₂ := (b₁.write mine away).setProc i emptyProc
    have kept₂ := kept₁.write free away
    rw [List.length_cons] at enough
    have left : rest.length ≤ l₁.length := by omega
    obtain ⟨table', u, run, o₃, l₃, kept₃, b₃, emptied⟩ := ih (Function.update table i page) b₂ left
    refine ⟨table', u, run, o₃, l₃, kept₂.trans kept₃, b₃,
      emptied.kernelPagetable.trans quiet.kernelPagetable,
      emptied.trampolinePhysAddr.trans quiet.trampolinePhysAddr, fun j inside => ?_, fun j outside => ?_⟩
    · by_cases later : j ∈ rest
      · exact emptied.cleared j later
      · obtain rfl := (List.mem_cons.mp inside).resolve_right later
        obtain ⟨proc, slot⟩ := emptied.others j later
        rw [Function.update_self] at slot
        exact ⟨proc.trans (Function.update_self ..), slot ▸ (kept₃ page mine).1⟩
    · rw [List.mem_cons, not_or] at outside
      obtain ⟨proc, slot⟩ := emptied.others j outside.2
      rw [Function.update_of_ne outside.1] at slot
      refine ⟨proc.trans ?_, slot⟩
      exact (Function.update_of_ne outside.1 _ _).trans (congrFun quiet.procs j)

end Parts

/-! ### The boot -/

section Boot

variable {s t : Kernel} {o : Owners} {l : List Word} {etext trampoline trapframe : Word}
  {table : Slot → Word}

/-- The state after the boot from `s`: the free list, the kernel's table and the process table are
ready for the first process, the table translates as the kernel's address space says and lets no
page be written and executed, the trampoline page has the code at `trampoline`, and the image of the
kernel is as it was loaded. -/
structure Launched (etext trampoline : Word) (s : Kernel) (trapframe : Word) (table : Slot → Word)
    (t : Kernel) : Prop where
  prepared : Prepared table t
  cleared : ∀ p, Cleared (t.procs p)
  space : ∀ va, Canonical va → translate t.mem t.kernelPagetable va =
    (kernelSpace etext t.trampolinePhysAddr trapframe va).map fun page => makeEntry page.1 page.2
  guarded : ∀ va e, translate t.mem t.kernelPagetable va = some e → e &&& W = 0 ∨ e &&& X = 0
  code : ∀ i < 4096, byteAt (t.mem t.trampolinePhysAddr) i =
    loadByte s.mem (trampoline + BitVec.ofNat 64 i)
  image : ∀ pg, ¬ Managed s pg → t.mem pg = s.mem pg

theorem code_outside (inside : trampoline.toNat + 4096 ≤ s.kernelEnd.toNat) {i : Nat} (less : i < 4096) :
    ¬ Managed s (BitVec.ofNat 64 ((trampoline + BitVec.ofNat 64 i).toNat / 4096 * 4096)) := by
  intro managed
  have bound := s.kernelEnd.isLt
  have above := BitVec.le_def.mp managed.above
  rw [BitVec.toNat_ofNat, BitVec.toNat_add, BitVec.toNat_ofNat] at above
  omega

theorem entry_bits {maps : List Mapping} {va e : Word} (is : entryAt maps va = some e) :
    ∃ m ∈ maps, ∀ b : Word, 0x3ff &&& b = b → V &&& b = 0 → e &&& b = mapPerm m.va m.perm &&& b := by
  obtain ⟨m, found, rfl⟩ := Option.map_eq_some_iff.mp is
  refine ⟨m, List.mem_of_find?_eq_some found, fun b flag apart => ?_⟩
  rw [makeEntry, BitVec.or_assoc, make_bit _ _ flag, BitVec.and_or_distrib_right, apart]
  exact BitVec.or_zero

/-- The permissions of the kernel's entries. -/
theorem kernelMappings_bits {tramp va e : Word}
    (is : entryAt (kernelMappings etext tramp trapframe) va = some e) :
    e &&& U = 0 ∧ (e &&& W = 0 ∨ e &&& X = 0) := by
  obtain ⟨m, inside, bits⟩ := entry_bits is
  have perm := kernelMappings_perm inside
  rw [mapPerm_kernel perm] at bits
  rw [bits U (by decide) (by decide), bits W (by decide) (by decide), bits X (by decide) (by decide)]
  rcases perm with is | is <;> rw [is] <;> decide

/-- The boot succeeds from whatever RAM holds, if there are 107 pages behind the kernel's image:
72 tables below the root, the root, the pages of the trampoline and the trapframe, and 32 slots. -/
theorem boot_launches (base : KERNBASE ≤ s.kernelEnd) (inRam : s.kernelEnd ≤ PHYSTOP)
    (room : (pgRoundUp s.kernelEnd).toNat + 107 * 4096 ≤ PHYSTOP.toNat) (empty : s.freelist = 0)
    (idle : s.current = none) (etext : Word) (inImage : trampoline.toNat + 4096 ≤ s.kernelEnd.toNat) :
    ∃ trapframe table t, bootMemory etext trampoline s = .ok (trapframe, table) t ∧
      Launched etext trampoline s trapframe table t ∧ ∀ u, ReflTransGen Step t u → ∃ o, Inv u o := by
  obtain ⟨t₁, l₁, run₁, quiet₁, image₁, owns, chain, enough, managed⟩ :=
    pmmInit_fills base inRam empty room
  have outside : ∀ pg, ¬ Managed s pg → freeOwners l₁ pg = .other :=
    fun pg out => if_neg fun member => out (managed pg member)
  have code : CodeAt (freeOwners l₁) trampoline := fun i less => outside _ (code_outside inImage less)
  have parted : 75 + 32 ≤ l₁.length := enough
  have kvm : Yields (kvminit etext trampoline) _ t₁ :=
    kvminit_yields owns chain (quiet₁.current.trans idle) code parted
  obtain ⟨trapframe, t₂, run₂, u, pt, tramp, o₂, l₂, rfl, quiet₂, kept₂, b₂, enough₂, mine, bytes⟩ := kvm
  have ready : Building pt (kernelMappings etext tramp trapframe)
      { u with trampolinePhysAddr := tramp, kernelPagetable := pt } o₂ l₂ :=
    ⟨⟨b₂.owns.base, b₂.owns.free, fun pg known => ⟨(b₂.owns.managed pg known).1,
      (b₂.owns.managed pg known).2, (b₂.owns.managed pg known).3⟩, b₂.owns.tree, b₂.owns.solid⟩,
      b₂.root, b₂.chain, b₂.idle, b₂.translate⟩
  obtain ⟨table, t, run₃, o, l, kept₃, b₃, emptied⟩ :=
    initProcs_yields (List.finRange 32) (fun _ => 0) ready (by rwa [List.length_finRange])
  have cleared : ∀ p, t.procs p = emptyProc ∧ o (table p) = .other :=
    fun p => emptied.cleared p (List.mem_finRange p)
  have root : o t.kernelPagetable = .table none [] := emptied.kernelPagetable ▸ b₃.root
  have page : t.trampolinePhysAddr = tramp := emptied.trampolinePhysAddr
  have space : ∀ va, translate t.mem t.kernelPagetable va =
      entryAt (kernelMappings etext tramp trapframe) va := emptied.kernelPagetable ▸ b₃.translate
  have booted : Booted t :=
    b₃.owns.booted root (fun p => congrArg Proc.state (cleared p).1) b₃.idle
  refine ⟨trapframe, table, t, ?_, ⟨⟨booted, fun va e is => ?_, fun pg known => ?_⟩, fun p => ?_,
    fun va canonical => ?_, fun va e is => ?_, fun i less => ?_, fun pg out => ?_⟩, fun v run => ?_⟩
  · unfold bootMemory
    rw [bind_ok run₁, bind_ok run₂]
    exact bind_ok run₃
  · exact (kernelMappings_bits ((space va).symm.trans is)).1
  · have other : o pg = .other := by
      rcases known with rfl | ⟨q, rfl⟩
      · exact page ▸ (kept₃ tramp mine).1
      · exact (cleared q).2
    refine ⟨b₃.owns.not_free (by simp [other]), fun ds short walk => ?_⟩
    have table := label_eq.mp ((b₃.owns.tree none).node (label_eq.mpr root)
      (show 0 + ds.length ≤ 2 by omega) walk)
    rw [other] at table
    cases table
  · rw [(cleared p).1]
    exact ⟨rfl, rfl, rfl, rfl, rfl⟩
  · rw [space va, page, entryAt_kernelMappings canonical]
  · exact (kernelMappings_bits ((space va).symm.trans is)).2
  · rw [page, (kept₃ tramp mine).2]
    refine (bytes i less).trans ?_
    rw [loadByte, loadByte, image₁ _ (code_outside inImage less)]
  · have kept := kept₂ pg (outside pg out)
    exact ((kept₃ pg kept.1).2.trans kept.2).trans (image₁ pg out)
  · obtain ⟨o', inv⟩ := booted.inv
    exact inv.steps run

/-- RAM full of ones and a kernel of eight megabytes. -/
def powerOn : Kernel where
  kernelEnd := 0x80800000
  mem _ _ := -1
  freelist := 0
  kernelPagetable := 0
  trampolinePhysAddr := 0
  procs _ := emptyProc
  current := none

theorem boot_launches_virt : ∃ trapframe table t,
    bootMemory 0x80208000 0x80201000 powerOn = .ok (trapframe, table) t ∧
      Launched 0x80208000 0x80201000 powerOn trapframe table t ∧
      ∀ u, ReflTransGen Step t u → ∃ o, Inv u o :=
  boot_launches (by decide) (by decide) (by decide) rfl rfl 0x80208000 (by decide)

end Boot

end Xv6Lab.Vm

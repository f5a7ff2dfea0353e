import Mathlib.Data.Finset.Card
import Xv6Lab.Vm.FaultCure
import Xv6Lab.Vm.Fresh
import Xv6Lab.Vm.Isolation
import Xv6Lab.Vm.Pages
import Xv6Lab.Vm.Table

/-! The boot, as far as memory goes: `pmm_init`, `kvminit` and `init_proc`, from whatever RAM holds
when the power comes on.  The kernel's table that comes out maps RAM and the devices to themselves,
the trampoline and its trapframe, and nothing else; and the state is one from which the runs of the
machine start. -/

namespace Xv6Lab.Vm

open Rv64 Sv39 Exec
open Trap (PGSIZE TRAMPOLINE TRAPFRAME)

/-! ### The code -/

def UART0 : Word := 0x10000000
def PLIC : Word := 0x0c000000
def CLINT : Word := 0x02000000
def VIRTIO0 : Word := 0x10001000

/-- The arguments of a call of `map_page`. -/
structure Mapping where
  va : Word
  pa : Word
  perm : Word

/-- `if (map_page(kpgtbl, ..) != 0) panic(failed)`, for one mapping after the other. -/
def mapAll (kpgtbl : Word) (failed : String) : List Mapping → K Unit
  | [] => pure ()
  | m :: rest => do
    let r ← mapPage kpgtbl m.va m.pa m.perm
    if r ≠ 0 then panic failed else mapAll kpgtbl failed rest

/-- The loop `for (pa = start; pa < start + size; pa += PGSIZE)` of identity mappings. -/
def selfMappings (start : Word) (size : Nat) (perm : Word → Word) : List Mapping :=
  (List.range ((size + 4095) / 4096)).map fun k =>
    let pa := start + BitVec.ofNat 64 (4096 * k)
    ⟨pa, pa, perm pa⟩

def heapPerm (etext pa : Word) : Word := if pa < etext then R ||| X else R ||| W

def heapMappings (etext : Word) : List Mapping :=
  selfMappings KERNBASE (128 * 1024 * 1024) (heapPerm etext)

def uartMappings : List Mapping := [⟨UART0, UART0, R ||| W⟩]

def plicMappings : List Mapping := selfMappings PLIC 0x400000 fun _ => R ||| W

def clintMappings : List Mapping := selfMappings CLINT 0x10000 fun _ => R ||| W

def virtioMappings : List Mapping := [⟨VIRTIO0, VIRTIO0, R ||| W⟩]

/-- The first part of `kvmmake`: RAM and the devices. -/
def mapMemory (etext kpgtbl : Word) : K Unit := do
  mapAll kpgtbl "kvmmake: heap map failed" (heapMappings etext)
  mapAll kpgtbl "kvmmake: uart map failed" uartMappings
  mapAll kpgtbl "kvmmake: plic map failed" plicMappings
  mapAll kpgtbl "kvmmake: clint map failed" clintMappings
  mapAll kpgtbl "kvmmake: virtio map failed" virtioMappings

/-- The second part of `kvmmake`: the trampoline and the trapframe.  It says where the page of the
trapframe is, which the source keeps in `trapframe_phys_addr`. -/
def mapTrampoline (trampoline kpgtbl : Word) : K Word := do
  let tramp ← allocPage
  if tramp = 0 then
    panic "kvmmake: alloc trampoline page failed"
  else
    let s ← get
    memcpy tramp (fun i => loadByte s.mem (trampoline + BitVec.ofNat 64 i)) 4096
    let trapframe ← allocPage
    if trapframe = 0 then
      panic "kvmmake: alloc trapframe page failed"
    else
      clearPage trapframe
      mapAll kpgtbl "kvmmake: trampoline map failed" [⟨TRAMPOLINE, tramp, R ||| X⟩]
      mapAll kpgtbl "kvmmake: trapframe map failed" [⟨TRAPFRAME, trapframe, R ||| W⟩]
      modify fun s => { s with trampolinePhysAddr := tramp }
      pure trapframe

/-- `kvmmake`; `etext` and `trampoline` are symbols of the linker. -/
def kvmmake (etext trampoline : Word) : K (Word × Word) := do
  let kpgtbl ← createPagetable
  if kpgtbl = 0 then
    panic "kvmmake: alloc failed"
  else
    mapMemory etext kpgtbl
    let trapframe ← mapTrampoline trampoline kpgtbl
    pure (kpgtbl, trapframe)

/-- `kvminit`, up to `satp`; the page of `trapframe_phys_addr`. -/
def kvminit (etext trampoline : Word) : K Word := do
  let (kpgtbl, trapframe) ← kvmmake etext trampoline
  modify fun s => { s with kernelPagetable := kpgtbl }
  pure trapframe

/-- `sizeof(struct proc)` -/
def PROC_SIZE : Word := 352

/-- What `init_proc` stores into a slot. -/
def emptyProc : Proc := ⟨.unused, 0, 0, false, 0, none, false, 0, 0, 0⟩

/-- The loop of `init_proc`; `table` has the pages of the slots that are done. -/
def initProcs : List Slot → (Slot → Word) → K (Slot → Word)
  | [], table => pure table
  | i :: rest, table => do
    let page ← allocPage
    if page = 0 then
      panic "init_proc: alloc_page failed for proc_table"
    else
      let s ← get
      set (s.setMem (Function.update s.mem page fun off =>
        if off < PROC_SIZE then 0 else s.mem page off))
      modify fun s => s.setProc i emptyProc
      initProcs rest (Function.update table i page)

/-- `init_proc`; the pages of the table. -/
def initProc : K (Slot → Word) := initProcs (List.finRange 32) fun _ => 0

/-- What `start` does about memory; the page of `trapframe_phys_addr` and those of the processes. -/
def bootMemory (etext trampoline : Word) : K (Word × (Slot → Word)) := do
  pmmInit
  let trapframe ← kvminit etext trampoline
  let table ← initProc
  pure (trapframe, table)

/-! ### The purpose -/

/-- How the kernel may access the page at `pa`, which it finds at `pa` itself. -/
def selfPerm (etext pa : Word) : Option Word :=
  if KERNBASE ≤ pa ∧ pa < PHYSTOP then some (heapPerm etext pa)
  else if UART0 ≤ pa ∧ pa < UART0 + 4096 ∨ PLIC ≤ pa ∧ pa < PLIC + 0x400000 ∨
      CLINT ≤ pa ∧ pa < CLINT + 0x10000 ∨ VIRTIO0 ≤ pa ∧ pa < VIRTIO0 + 4096 then some (R ||| W)
  else none

/-- The kernel's address space: page and permissions for the addresses that it may use. -/
def kernelSpace (etext tramp trapframe va : Word) : Option (Word × Word) :=
  if TRAMPOLINE ≤ va then some (tramp, R ||| X)
  else if TRAPFRAME ≤ va then some (trapframe, R ||| W)
  else (selfPerm etext (pageStart va)).map fun perm => (pageStart va, perm)

/-- The entry for a page and its permissions. -/
def makeEntry (page perm : Word) : Word := pa2pte page ||| perm ||| V

/-! ### Addresses -/

section Addresses

variable {maps todo : List Mapping} {m : Mapping} {va : Word}

/-- The mapping that an address falls under. -/
def entryAt (maps : List Mapping) (va : Word) : Option Word :=
  (maps.find? fun m => path m.va = path va).map fun m => makeEntry m.pa (mapPerm m.va m.perm)

/-- No two mappings are of one page. -/
def Distinct (maps : List Mapping) : Prop := (maps.map fun m => path m.va).Nodup

theorem Distinct.before (distinct : Distinct (maps ++ todo)) : Distinct maps :=
  distinct.sublist (List.Sublist.map _ (List.sublist_append_left ..))

theorem entryAt_none (away : ∀ m ∈ maps, path m.va ≠ path va) : entryAt maps va = none := by
  have none : (maps.find? fun m => path m.va = path va) = none :=
    List.find?_eq_none.mpr fun m inside => by simpa using away m inside
  rw [entryAt, none, Option.map_none]

theorem entryAt_of_mem (distinct : Distinct maps) (inside : m ∈ maps) (same : path m.va = path va) :
    entryAt maps va = some (makeEntry m.pa (mapPerm m.va m.perm)) := by
  induction maps with
  | nil => cases inside
  | cons first rest ih =>
    obtain ⟨fresh, distinct⟩ := List.nodup_cons.mp distinct
    unfold entryAt
    rw [List.find?_cons]
    by_cases here : path first.va = path va
    · rcases List.mem_cons.mp inside with rfl | later
      · rw [decide_eq_true here, Option.map_some]
      · refine absurd (List.mem_map.mpr ⟨m, later, ?_⟩) fresh
        exact same.trans here.symm
    · rw [decide_eq_false here]
      rcases List.mem_cons.mp inside with rfl | later
      · exact absurd same here
      · exact ih distinct later

/-- A new page is added. -/
theorem entryAt_snoc (distinct : Distinct (maps ++ [m])) (va : Word) : entryAt (maps ++ [m]) va =
    if path va = path m.va then some (makeEntry m.pa (mapPerm m.va m.perm)) else entryAt maps va := by
  split
  · next here => exact entryAt_of_mem distinct (by simp) here.symm
  · next other =>
    have last : ([m].find? fun m => path m.va = path va) = none := by
      rw [List.find?_cons, decide_eq_false (Ne.symm other)]
      rfl
    rw [entryAt, entryAt, List.find?_append, last, Option.or_none]

theorem Distinct.fresh (distinct : Distinct (maps ++ m :: todo)) : ∀ m' ∈ maps, path m'.va ≠ path m.va := by
  intro m' inside same
  unfold Distinct at distinct
  rw [List.map_append, List.nodup_append] at distinct
  exact distinct.2.2 _ (List.mem_map.mpr ⟨m', inside, rfl⟩) _ (List.mem_map.mpr ⟨m, by simp, rfl⟩) same

end Addresses

/-! ### Tables -/

section Tables

variable {maps : List Mapping} {m : Mapping} {va : Word}

/-- The indices of the tables on the way to the entry of `va`. -/
def tablesOf (va : Word) : List (List Index) := [[index 2 va], [index 2 va, index 1 va]]

/-- A table that a mapping has made. -/
def Covered (maps : List Mapping) (ds : List Index) : Prop := ∃ m ∈ maps, ds ∈ tablesOf m.va

instance Covered.decidable (maps : List Mapping) (ds : List Index) : Decidable (Covered maps ds) :=
  inferInstanceAs (Decidable (∃ m ∈ maps, ds ∈ tablesOf m.va))

/-- The tables of `P` that are still to be made. -/
def uncovered (P : Finset (List Index)) (maps : List Mapping) : Finset (List Index) :=
  P.filter fun ds => ¬ Covered maps ds

/-- The number of tables that `va` needs and no mapping has made. -/
def toll (maps : List Mapping) (va : Word) : Nat :=
  if Covered maps [index 2 va, index 1 va] then 0 else if Covered maps [index 2 va] then 1 else 2

theorem covered_snoc {ds : List Index} :
    Covered (maps ++ [m]) ds ↔ Covered maps ds ∨ ds ∈ tablesOf m.va := by
  constructor
  · rintro ⟨m', inside, is⟩
    rcases List.mem_append.mp inside with old | new
    · exact .inl ⟨m', old, is⟩
    · obtain rfl := List.mem_singleton.mp new
      exact .inr is
  · rintro (⟨m', inside, is⟩ | is)
    · exact ⟨m', List.mem_append_left _ inside, is⟩
    · exact ⟨m, by simp, is⟩

/-- A mapping makes its tables. -/
theorem uncovered_snoc {P : Finset (List Index)} (within : ∀ ds ∈ tablesOf m.va, ds ∈ P) :
    (uncovered P (maps ++ [m])).card + toll maps m.va ≤ (uncovered P maps).card := by
  have shrinks : ∀ {ds}, ds ∈ uncovered P (maps ++ [m]) → ds ∈ uncovered P maps ∧ ds ∉ tablesOf m.va := by
    intro ds inside
    obtain ⟨here, open'⟩ := Finset.mem_filter.mp inside
    rw [covered_snoc, not_or] at open'
    exact ⟨Finset.mem_filter.mpr ⟨here, open'.1⟩, open'.2⟩
  have high : [index 2 m.va] ∈ tablesOf m.va := by simp [tablesOf]
  have low : [index 2 m.va, index 1 m.va] ∈ tablesOf m.va := by simp [tablesOf]
  have missing : ∀ {ds}, ds ∈ tablesOf m.va → ¬ Covered maps ds → ds ∈ uncovered P maps :=
    fun on none => Finset.mem_filter.mpr ⟨within _ on, none⟩
  unfold toll
  split
  · exact Finset.card_le_card fun ds inside => (shrinks inside).1
  · next noLow =>
    have one := Finset.card_erase_add_one (missing low noLow)
    split
    · rw [← one]
      refine Nat.succ_le_succ (Finset.card_le_card fun ds inside => Finset.mem_erase.mpr ⟨?_, (shrinks inside).1⟩)
      rintro rfl
      exact (shrinks inside).2 low
    · next noHigh =>
      have other : [index 2 m.va] ≠ [index 2 m.va, index 1 m.va] := by simp
      have two := Finset.card_erase_add_one (Finset.mem_erase.mpr ⟨other, missing high noHigh⟩)
      rw [← one, ← two]
      refine Nat.add_le_add_right (Finset.card_le_card fun ds inside => ?_) 2
      refine Finset.mem_erase.mpr ⟨?_, Finset.mem_erase.mpr ⟨?_, (shrinks inside).1⟩⟩
      · rintro rfl
        exact (shrinks inside).2 high
      · rintro rfl
        exact (shrinks inside).2 low

end Tables

/-! ### The kernel's table grows -/

section Building

variable {s t u : Kernel} {o o' : Owners} {pt r : Word} {maps todo : List Mapping} {l : List Word}
  {m : Mapping} {P : Finset (List Index)} {k : Nat} {failed : String}

/-- Pages that are neither free nor tables stay so, with what they hold. -/
def Undisturbed (s : Kernel) (o : Owners) (t : Kernel) (o' : Owners) : Prop :=
  ∀ pg, o pg = .other → o' pg = .other ∧ t.mem pg = s.mem pg

theorem Undisturbed.trans {o'' : Owners} (one : Undisturbed s o t o') (two : Undisturbed t o' u o'') :
    Undisturbed s o u o'' := fun pg other =>
  ⟨(two pg (one pg other).1).1, (two pg (one pg other).1).2.trans (one pg other).2⟩

theorem Grows.undisturbed {h : Holder} (grows : Grows h s o t o') : Undisturbed s o t o' := by
  intro pg other
  rcases grows pg with ⟨free, -⟩ | ⟨same, ⟨ds, table⟩ | kept⟩
  · rw [free] at other
    cases other
  · rw [table] at other
    cases other
  · exact ⟨same.trans other, kept⟩

/-- The table at `pt` translates by `maps`, and `l` is the free list. -/
structure Building (pt : Word) (maps : List Mapping) (s : Kernel) (o : Owners) (l : List Word) :
    Prop where
  owns : Owns s o
  root : o pt = .table none []
  chain : Chain s.mem s.freelist l
  idle : s.current = none
  translate : ∀ va, translate s.mem pt va = entryAt maps va

theorem Building.mayMap (b : Building pt maps s o l) (va : Word) : MayMap s va := by
  intro user
  rw [Kernel.userCurrent, b.idle] at user
  cases user

theorem Building.mapped (b : Building pt maps s o l) (inside : m ∈ maps) :
    ∃ e, Sv39.translate s.mem pt m.va = some e := by
  rw [b.translate]
  cases found : entryAt maps m.va with
  | some e => exact ⟨e, rfl⟩
  | none =>
    rw [entryAt, Option.map_eq_none_iff, List.find?_eq_none] at found
    exact absurd (decide_eq_true rfl) (found m inside)

/-- Tables that a mapping has made are not missing. -/
theorem Building.missing_le (b : Building pt maps s o l) (va : Word) :
    missing s.mem pt va ≤ toll maps va := by
  unfold toll
  split
  · next covered =>
    obtain ⟨m, inside, is⟩ := covered
    obtain ⟨e, found⟩ := b.mapped inside
    simp only [tablesOf, List.mem_cons, List.cons.injEq, List.not_mem_nil, or_false, and_true,
      reduceCtorEq, and_false, false_or] at is
    exact Nat.le_of_eq (missing_of_translate found is)
  · split
    · next covered =>
      obtain ⟨m, inside, is⟩ := covered
      obtain ⟨e, found⟩ := b.mapped inside
      simp only [tablesOf, List.mem_cons, List.cons.injEq, List.not_mem_nil, or_false, and_true,
        reduceCtorEq, and_false] at is
      rw [Sv39.translate, Option.bind_eq_some_iff] at found
      obtain ⟨pg, walk, -⟩ := found
      rw [node, Option.bind_eq_some_iff] at walk
      obtain ⟨next, first, -⟩ := walk
      unfold missing
      rw [is, first]
      dsimp only
      unfold lacks
      split <;> omega
    · unfold missing
      split
      · exact Nat.le_refl 2
      · unfold lacks
        split <;> omega

/-- One call of `map_page`. -/
theorem Building.map (b : Building pt maps s o l) (distinct : Distinct (maps ++ [m]))
    (aligned : m.va.toNat % 4096 = 0) (solid : m.perm &&& (R ||| W ||| X) ≠ 0) :
    wp (mapPage pt m.va m.pa m.perm)
      (fun r t => r = 0 ∧ Quiet s t ∧ ∃ o' l', Undisturbed s o t o' ∧ Building pt (maps ++ [m]) t o' l' ∧
        l.length ≤ l'.length + toll maps m.va)
      (fun _ _ => l.length < toll maps m.va) s := by
  have unset : Sv39.translate s.mem pt m.va = none := by
    rw [b.translate]
    exact entryAt_none distinct.fresh
  have few := b.missing_le m.va
  refine wp_mono (wp_and (mapPage_wp b.owns b.root (b.mayMap _) solid)
    (mapPage_chain b.owns b.root (b.mayMap _) aligned unset m.pa m.perm b.chain)) ?_ ?_
  · rintro r t ⟨⟨rfl, o', mapped⟩, enough, chain⟩
    rw [unset] at mapped
    refine ⟨rfl, mapped.quiet, o', _, mapped.grows.undisturbed, ⟨mapped.owns,
      mapped.grows.table b.root, chain, mapped.quiet.current.trans b.idle, fun va => ?_⟩, ?_⟩
    · rw [mapped.translate va, entryAt_snoc distinct, b.translate]
      rfl
    · rw [List.length_drop]
      omega
  · rintro e t ⟨-, -, short⟩
    exact Nat.lt_of_lt_of_le short few

/-- What `map_page` takes for a mapping, with tables in `P`. -/
structure Mapping.Fits (P : Finset (List Index)) (m : Mapping) : Prop where
  aligned : m.va.toNat % 4096 = 0
  solid : m.perm &&& (R ||| W ||| X) ≠ 0
  tables : ∀ ds ∈ tablesOf m.va, ds ∈ P

/-- When there are pages for the tables and `k` more, the mappings are made and `k` pages are left. -/
theorem Building.mapAll (b : Building pt maps s o l) (distinct : Distinct (maps ++ todo))
    (fits : ∀ m ∈ todo, m.Fits P) (enough : (uncovered P maps).card + k ≤ l.length) :
    wp (mapAll pt failed todo)
      (fun _ t => Quiet s t ∧ ∃ o' l', Undisturbed s o t o' ∧ Building pt (maps ++ todo) t o' l' ∧
        (uncovered P (maps ++ todo)).card + k ≤ l'.length)
      (fun _ _ => False) s := by
  induction todo generalizing maps s o l with
  | nil =>
    rw [List.append_nil]
    exact ⟨.refl s, o, l, fun pg other => ⟨other, rfl⟩, b, enough⟩
  | cons m rest ih =>
    have split : maps ++ m :: rest = (maps ++ [m]) ++ rest := by simp
    rw [split] at distinct ⊢
    obtain ⟨aligned, solid, tables⟩ := fits m List.mem_cons_self
    have paid : (uncovered P (maps ++ [m])).card + toll maps m.va ≤ (uncovered P maps).card :=
      uncovered_snoc tables
    unfold Vm.mapAll
    rw [wp_bind]
    refine wp_mono (b.map distinct.before aligned solid) ?_ ?_
    · rintro r t ⟨rfl, quiet, o', l', kept, b', cost⟩
      rw [if_neg (fun zero => zero rfl)]
      refine wp_conseq (ih b' distinct (fun m inside => fits m (.tail _ inside)) (by omega)) ?_
      rintro _ u ⟨quiet', o'', l'', kept', b'', left⟩
      exact ⟨quiet.trans quiet', o'', l'', kept.trans kept', b'', left⟩
    · rintro e t short
      omega

/-- `alloc_page` for a page of the kernel's own. -/
theorem Building.alloc (b : Building pt maps s o l) (enough : k + 1 ≤ l.length) :
    wp allocPage (fun r t => r ≠ 0 ∧ o r = .free ∧ Quiet s t ∧ ∃ o' l', o' r = .other ∧
      Undisturbed s o t o' ∧ Building pt maps t o' l' ∧ l.length = l'.length + 1) (fun _ _ => False) s := by
  refine wp_mono (wp_and (allocPage_wp b.owns) (allocPage_chain b.owns b.chain)) ?_ ?_
  · rintro r t ⟨⟨free, owns, quiet, away⟩, rest, rfl, chain, -⟩
    have other : ∀ pg, o pg ≠ .free → pg ≠ r := by
      rintro pg used rfl
      exact used free
    have rooted : pt ≠ r := other pt (by simp [b.root])
    refine ⟨b.owns.ne_zero (by simp [free]), free, quiet, _, rest, Function.update_self .., fun pg is => ?_,
      ⟨owns, ?_, chain, quiet.current.trans b.idle, fun va => ?_⟩, rfl⟩
    · have ne := other pg (by simp [is])
      exact ⟨(Function.update_of_ne ne ..).trans is, away pg ne⟩
    · rw [Function.update_of_ne rooted, b.root]
    · rw [← b.translate va]
      refine (b.owns.tree none).translate_congr (fun pg ds at_pg => away pg ?_)
        (label_eq.mpr b.root) va
      exact other pg (by simp [label_eq.mp at_pg])
  · rintro e t ⟨-, -, rfl⟩
    exact absurd enough (Nat.not_succ_le_zero k)

/-- A page of the kernel's own is written. -/
theorem Building.write (b : Building pt maps s o l) (mine : o r = .other) {mem : Mem}
    (away : ∀ pg ≠ r, mem pg = s.mem pg) : Building pt maps (s.setMem mem) o l := by
  have others : ∀ pg, o pg ≠ .other → mem pg = s.mem pg := by
    intro pg used
    refine away pg ?_
    rintro rfl
    exact used mine
  refine ⟨b.owns.setMem mem fun pg known => others pg ?_, b.root,
    b.owns.chain_setMem b.chain fun pg free => others pg (by simp [free]), b.idle, fun va => ?_⟩
  · rcases known with free | ⟨h, ds, table⟩
    · simp [free]
    · simp [table]
  · rw [← b.translate va]
    exact (b.owns.tree none).translate_congr (fun pg ds at_pg => others pg (by simp [label_eq.mp at_pg]))
      (label_eq.mpr b.root) va

end Building

/-! ### The mappings of `kvmmake` -/

/-- All of them, in the order in which they are made. -/
def kernelMappings (etext tramp trapframe : Word) : List Mapping :=
  heapMappings etext ++ uartMappings ++ plicMappings ++ clintMappings ++ virtioMappings ++
    [⟨TRAMPOLINE, tramp, R ||| X⟩] ++ [⟨TRAPFRAME, trapframe, R ||| W⟩]

/-- The tables below the root: one of level 1 for each gigabyte, one of level 0 for every two
megabytes. -/
def kernelTables : Finset (List Index) :=
  (((List.range 64).map fun i => [2, BitVec.ofNat 9 i]) ++
    [[0, 16], [0, 96], [0, 97], [0, 128], [511, 511], [0], [2], [511]]).toFinset

theorem kernelTables_card : kernelTables.card ≤ 72 := by
  refine (List.toFinset_card_le _).trans (Nat.le_of_eq ?_)
  rw [List.length_append, List.length_map, List.length_range]
  rfl

section Mappings

variable {start pa va etext tramp trapframe : Word} {size : Nat} {perm : Word → Word} {m : Mapping}

def Mapping.number (m : Mapping) : Nat := m.va.toNat / 4096

theorem mem_selfMappings : m ∈ selfMappings start size perm ↔ ∃ k < (size + 4095) / 4096,
    m = ⟨start + BitVec.ofNat 64 (4096 * k), start + BitVec.ofNat 64 (4096 * k),
      perm (start + BitVec.ofNat 64 (4096 * k))⟩ := by
  rw [selfMappings, List.mem_map]
  refine exists_congr fun k => ?_
  rw [List.mem_range]
  exact and_congr_right fun _ => eq_comm

theorem toNat_selfPage {k : Nat} (inside : k < (size + 4095) / 4096)
    (small : start.toNat + size ≤ 2 ^ 38) :
    (start + BitVec.ofNat 64 (4096 * k)).toNat = start.toNat + 4096 * k := by
  rw [BitVec.toNat_add, BitVec.toNat_ofNat]
  omega

theorem selfMappings_number {first count : Nat} (at_start : start.toNat = 4096 * first)
    (whole : size = 4096 * count) (small : first + count ≤ 2 ^ 26) :
    (selfMappings start size perm).map Mapping.number = List.range' first count := by
  have pages : (size + 4095) / 4096 = count := by omega
  rw [selfMappings, List.map_map, pages, List.range'_eq_map_range]
  refine List.map_congr_left fun k inside => ?_
  have sum : (start + BitVec.ofNat 64 (4096 * k)).toNat = start.toNat + 4096 * k :=
    toNat_selfPage (pages ▸ List.mem_range.mp inside) (by omega)
  show (start + BitVec.ofNat 64 (4096 * k)).toNat / 4096 = first + k
  omega

theorem selfMappings_canonical (aligned : start.toNat % 4096 = 0) (whole : size % 4096 = 0)
    (small : start.toNat + size ≤ 2 ^ 38) (inside : m ∈ selfMappings start size perm) :
    Canonical m.va ∧ m.va.toNat % 4096 = 0 := by
  obtain ⟨k, less, rfl⟩ := mem_selfMappings.mp inside
  have sum := toNat_selfPage less small
  unfold Canonical
  dsimp only
  omega

theorem kernelMappings_number : (kernelMappings etext tramp trapframe).map Mapping.number =
    List.range' 0x80000 32768 ++ [0x10000] ++ List.range' 0xc000 1024 ++ List.range' 0x2000 16 ++
      [0x10001] ++ [2 ^ 52 - 1] ++ [2 ^ 52 - 2] := by
  have heap : (heapMappings etext).map Mapping.number = List.range' 0x80000 32768 :=
    selfMappings_number (by decide) (by decide) (by decide)
  have uart : uartMappings.map Mapping.number = [0x10000] := rfl
  have plic : plicMappings.map Mapping.number = List.range' 0xc000 1024 :=
    selfMappings_number (by decide) (by decide) (by decide)
  have clint : clintMappings.map Mapping.number = List.range' 0x2000 16 :=
    selfMappings_number (by decide) (by decide) (by decide)
  have virtio : virtioMappings.map Mapping.number = [0x10001] := rfl
  have code : [Mapping.mk TRAMPOLINE tramp (R ||| X)].map Mapping.number = [2 ^ 52 - 1] :=
    congrArg (fun n => [n]) (show TRAMPOLINE.toNat / 4096 = 2 ^ 52 - 1 by decide)
  have frame : [Mapping.mk TRAPFRAME trapframe (R ||| W)].map Mapping.number = [2 ^ 52 - 2] :=
    congrArg (fun n => [n]) (show TRAPFRAME.toNat / 4096 = 2 ^ 52 - 2 by decide)
  simp only [kernelMappings, List.map_append, heap, uart, plic, clint, virtio, code, frame]

theorem kernelMappings_canonical (inside : m ∈ kernelMappings etext tramp trapframe) :
    Canonical m.va ∧ m.va.toNat % 4096 = 0 := by
  simp only [kernelMappings, List.mem_append] at inside
  rcases inside with (((((heap | uart) | plic) | clint) | virtio) | code) | frame
  · exact selfMappings_canonical (by decide) (by decide) (by decide) heap
  · obtain rfl := List.mem_singleton.mp uart
    exact ⟨.inl (by decide), by decide⟩
  · exact selfMappings_canonical (by decide) (by decide) (by decide) plic
  · exact selfMappings_canonical (by decide) (by decide) (by decide) clint
  · obtain rfl := List.mem_singleton.mp virtio
    exact ⟨.inl (by decide), by decide⟩
  · obtain rfl := List.mem_singleton.mp code
    have top : 2 ^ 64 - 2 ^ 38 ≤ TRAMPOLINE.toNat ∧ TRAMPOLINE.toNat % 4096 = 0 := by decide
    exact ⟨.inr top.1, top.2⟩
  · obtain rfl := List.mem_singleton.mp frame
    have top : 2 ^ 64 - 2 ^ 38 ≤ TRAPFRAME.toNat ∧ TRAPFRAME.toNat % 4096 = 0 := by decide
    exact ⟨.inr top.1, top.2⟩

theorem kernelMappings_distinct (etext tramp trapframe : Word) :
    Distinct (kernelMappings etext tramp trapframe) := by
  have numbers : ((kernelMappings etext tramp trapframe).map Mapping.number).Nodup := by
    have ranges : ∀ first count : Nat, (List.range' first count).Nodup := fun _ _ => List.nodup_range'
    rw [kernelMappings_number]
    simp only [List.nodup_append, ranges, List.nodup_singleton, List.mem_append,
      List.mem_range'_1, List.mem_singleton, true_and]
    refine ⟨⟨⟨⟨⟨?_, ?_⟩, ?_⟩, ?_⟩, ?_⟩, ?_⟩ <;> omega
  unfold Distinct
  rw [List.Nodup, List.pairwise_map] at numbers ⊢
  refine numbers.imp_of_mem fun {a b} one two other same => other ?_
  exact (path_eq_iff_canonical (kernelMappings_canonical one).1 (kernelMappings_canonical two).1).mp same

/-- The indices of an address by its page number. -/
theorem index_number (level : Nat) (va : Word) :
    index level va = BitVec.ofNat 9 (va.toNat / 4096 / 512 ^ level) := by
  apply BitVec.eq_of_toNat_eq
  rw [toNat_index, BitVec.toNat_ofNat, Nat.div_div_eq_div_mul, Nat.pow_add, Nat.pow_mul]

theorem tablesOf_number (va : Word) : tablesOf va =
    [[BitVec.ofNat 9 (va.toNat / 4096 / 262144)],
      [BitVec.ofNat 9 (va.toNat / 4096 / 262144), BitVec.ofNat 9 (va.toNat / 4096 / 512)]] := by
  simp only [tablesOf, index_number, Nat.reducePow]

theorem mem_kernelTables {ds : List Index} : ds ∈ kernelTables ↔
    (∃ i < 64, [2, BitVec.ofNat 9 i] = ds) ∨
      ds ∈ [[0, 16], [0, 96], [0, 97], [0, 128], [511, 511], [0], [2], [511]] := by
  rw [kernelTables, List.mem_toFinset, List.mem_append, List.mem_map]
  simp only [List.mem_range]

/-- The tables of a page, by the indices that its number gives. -/
theorem tables_within (high middle : Nat) (top : va.toNat / 4096 / 262144 = high)
    (next : va.toNat / 4096 / 512 = middle) (one : [BitVec.ofNat 9 high] ∈ kernelTables)
    (two : [BitVec.ofNat 9 high, BitVec.ofNat 9 middle] ∈ kernelTables) :
    ∀ ds ∈ tablesOf va, ds ∈ kernelTables := by
  intro ds inside
  rw [tablesOf_number, top, next] at inside
  rcases List.mem_cons.mp inside with rfl | rest
  · exact one
  · obtain rfl := List.mem_singleton.mp rest
    exact two

theorem kernelMappings_tables (inside : m ∈ kernelMappings etext tramp trapframe) :
    ∀ ds ∈ tablesOf m.va, ds ∈ kernelTables := by
  have number : m.number ∈ (kernelMappings etext tramp trapframe).map Mapping.number :=
    List.mem_map_of_mem inside
  simp only [kernelMappings_number, List.mem_append, List.mem_range'_1, List.mem_singleton,
    Mapping.number] at number
  have listed : ∀ {ds : List Index},
      ds ∈ [[0, 16], [0, 96], [0, 97], [0, 128], [511, 511], [0], [2], [511]] → ds ∈ kernelTables :=
    fun is => mem_kernelTables.mpr (.inr is)
  have two : [BitVec.ofNat 9 2] ∈ kernelTables := listed (by decide)
  have zero : [BitVec.ofNat 9 0] ∈ kernelTables := listed (by decide)
  rcases number with (((((heap | uart) | plic) | clint) | virtio) | code) | frame
  · refine tables_within 2 (1024 + (m.va.toNat / 4096 / 512 - 1024)) (by omega)
      (by omega) two (mem_kernelTables.mpr (.inl ⟨m.va.toNat / 4096 / 512 - 1024, by omega, ?_⟩))
    have wraps : BitVec.ofNat 9 (1024 + (m.va.toNat / 4096 / 512 - 1024)) =
        BitVec.ofNat 9 (m.va.toNat / 4096 / 512 - 1024) := by
      apply BitVec.eq_of_toNat_eq
      rw [BitVec.toNat_ofNat, BitVec.toNat_ofNat]
      omega
    rw [wraps]
    rfl
  · exact tables_within 0 128 (by omega) (by omega) zero (listed (by decide))
  · have half : m.va.toNat / 4096 / 512 = 96 ∨ m.va.toNat / 4096 / 512 = 97 := by omega
    rcases half with low | high
    · exact tables_within 0 96 (by omega) low zero (listed (by decide))
    · exact tables_within 0 97 (by omega) high zero (listed (by decide))
  · exact tables_within 0 16 (by omega) (by omega) zero (listed (by decide))
  · exact tables_within 0 128 (by omega) (by omega) zero (listed (by decide))
  · exact tables_within _ _ rfl rfl (listed (by rw [code]; decide)) (listed (by rw [code]; decide))
  · exact tables_within _ _ rfl rfl (listed (by rw [frame]; decide)) (listed (by rw [frame]; decide))

theorem heapPerm_cases (etext pa : Word) : heapPerm etext pa = R ||| X ∨ heapPerm etext pa = R ||| W := by
  unfold heapPerm
  split
  · exact .inl rfl
  · exact .inr rfl

theorem kernelMappings_perm (inside : m ∈ kernelMappings etext tramp trapframe) :
    m.perm = R ||| X ∨ m.perm = R ||| W := by
  simp only [kernelMappings, List.mem_append] at inside
  rcases inside with (((((heap | uart) | plic) | clint) | virtio) | code) | frame
  · obtain ⟨k, -, rfl⟩ := mem_selfMappings.mp heap
    exact heapPerm_cases _ _
  · exact .inr (List.mem_singleton.mp uart ▸ rfl)
  · obtain ⟨k, -, rfl⟩ := mem_selfMappings.mp plic
    exact .inr rfl
  · obtain ⟨k, -, rfl⟩ := mem_selfMappings.mp clint
    exact .inr rfl
  · exact .inr (List.mem_singleton.mp virtio ▸ rfl)
  · exact .inl (List.mem_singleton.mp code ▸ rfl)
  · exact .inr (List.mem_singleton.mp frame ▸ rfl)

theorem kernelMappings_solid (inside : m ∈ kernelMappings etext tramp trapframe) :
    m.perm &&& (R ||| W ||| X) ≠ 0 := by
  rcases kernelMappings_perm inside with is | is <;> rw [is] <;> decide

theorem kernelMappings_fits (inside : m ∈ kernelMappings etext tramp trapframe) : m.Fits kernelTables :=
  ⟨(kernelMappings_canonical inside).2, kernelMappings_solid inside, kernelMappings_tables inside⟩

/-- The mapping of a page in the range of a loop. -/
theorem mem_selfMappings_of (from' : start.toNat ≤ pa.toNat) (below : pa.toNat < start.toNat + size)
    (aligned : (pa.toNat - start.toNat) % 4096 = 0) :
    ⟨pa, pa, perm pa⟩ ∈ selfMappings start size perm := by
  have bound := pa.isLt
  have page : start + BitVec.ofNat 64 (4096 * ((pa.toNat - start.toNat) / 4096)) = pa := by
    apply BitVec.eq_of_toNat_eq
    rw [BitVec.toNat_add, BitVec.toNat_ofNat]
    omega
  refine mem_selfMappings.mpr ⟨(pa.toNat - start.toNat) / 4096, by omega, ?_⟩
  rw [page]

/-- The limits of `selfPerm` as numbers. -/
theorem selfPerm_eq (etext pa : Word) : selfPerm etext pa =
    if 2147483648 ≤ pa.toNat ∧ pa.toNat < 2281701376 then some (heapPerm etext pa)
    else if 268435456 ≤ pa.toNat ∧ pa.toNat < 268439552 ∨ 201326592 ≤ pa.toNat ∧ pa.toNat < 205520896 ∨
      33554432 ≤ pa.toNat ∧ pa.toNat < 33619968 ∨ 268439552 ≤ pa.toNat ∧ pa.toNat < 268443648 then
      some (R ||| W)
    else none := rfl

theorem selfPerm_mem {p : Word} (aligned : pa.toNat % 4096 = 0) (is : selfPerm etext pa = some p) :
    ⟨pa, pa, p⟩ ∈ kernelMappings etext tramp trapframe := by
  simp only [kernelMappings, List.mem_append]
  rw [selfPerm_eq] at is
  split at is
  · next heap =>
    cases is
    have base : KERNBASE.toNat = 2147483648 := rfl
    exact .inl (.inl (.inl (.inl (.inl (.inl
      (mem_selfMappings_of (by omega) (by omega) (by omega)))))))
  · split at is
    · next device =>
      cases is
      rcases device with uart | plic | clint | virtio
      · have here : pa = UART0 := BitVec.eq_of_toNat_eq (by rw [show UART0.toNat = 268435456 from rfl]; omega)
        exact .inl (.inl (.inl (.inl (.inl (.inr (here ▸ List.mem_singleton_self _))))))
      · have base : PLIC.toNat = 201326592 := rfl
        exact .inl (.inl (.inl (.inl (.inr (mem_selfMappings_of (by omega) (by omega) (by omega))))))
      · have base : CLINT.toNat = 33554432 := rfl
        exact .inl (.inl (.inl (.inr (mem_selfMappings_of (by omega) (by omega) (by omega)))))
      · have here : pa = VIRTIO0 :=
          BitVec.eq_of_toNat_eq (by rw [show VIRTIO0.toNat = 268439552 from rfl]; omega)
        exact .inl (.inl (.inr (here ▸ List.mem_singleton_self _)))
    · cases is

theorem selfPerm_cases {p : Word} (is : selfPerm etext pa = some p) : p = R ||| X ∨ p = R ||| W := by
  unfold selfPerm at is
  split at is
  · cases is
    exact heapPerm_cases _ _
  · split at is
    · cases is
      exact .inr rfl
    · cases is

theorem mapPerm_kernel {p : Word} (is : p = R ||| X ∨ p = R ||| W) (va : Word) : mapPerm va p = p := by
  unfold mapPerm
  rcases is with rfl | rfl <;> split <;> rfl

/-- The mappings are the kernel's address space. -/
theorem entryAt_kernelMappings (canonical : Canonical va) :
    entryAt (kernelMappings etext tramp trapframe) va =
      (kernelSpace etext tramp trapframe va).map fun page => makeEntry page.1 page.2 := by
  have distinct := kernelMappings_distinct etext tramp trapframe
  have bound := va.isLt
  have top : TRAMPOLINE.toNat = 2 ^ 64 - 4096 ∧ TRAPFRAME.toNat = 2 ^ 64 - 8192 := by decide
  have same : ∀ {m}, m ∈ kernelMappings etext tramp trapframe →
      (path m.va = path va ↔ m.va.toNat / 4096 = va.toNat / 4096) := fun inside =>
    path_eq_iff_canonical (kernelMappings_canonical inside).1 canonical
  unfold kernelSpace
  by_cases code : TRAMPOLINE ≤ va
  · have inside : ⟨TRAMPOLINE, tramp, R ||| X⟩ ∈ kernelMappings etext tramp trapframe := by
      simp [kernelMappings]
    have here := BitVec.le_def.mp code
    have page : path TRAMPOLINE = path va := (same inside).mpr (by dsimp only; omega)
    rw [if_pos code, entryAt_of_mem distinct inside page, mapPerm_kernel (.inl rfl)]
    rfl
  · rw [if_neg code]
    rw [BitVec.le_def] at code
    by_cases frame : TRAPFRAME ≤ va
    · have inside : ⟨TRAPFRAME, trapframe, R ||| W⟩ ∈ kernelMappings etext tramp trapframe := by
        simp [kernelMappings]
      have here := BitVec.le_def.mp frame
      have page : path TRAPFRAME = path va := (same inside).mpr (by dsimp only; omega)
      rw [if_pos frame, entryAt_of_mem distinct inside page, mapPerm_kernel (.inr rfl)]
      rfl
    · rw [if_neg frame]
      rw [BitVec.le_def] at frame
      have whole : (pageStart va).toNat = va.toNat / 4096 * 4096 := by
        rw [pageStart, BitVec.toNat_ofNat]
        omega
      cases perm : selfPerm etext (pageStart va) with
      | some p =>
        rw [entryAt_of_mem distinct (selfPerm_mem (by omega) perm) (path_pageStart va),
          mapPerm_kernel (selfPerm_cases perm)]
        rfl
      | none =>
        refine entryAt_none fun m inside page => ?_
        have here := (same inside).mp page
        have number : m.number ∈ (kernelMappings etext tramp trapframe).map Mapping.number :=
          List.mem_map_of_mem inside
        simp only [kernelMappings_number, List.mem_append, List.mem_range'_1, List.mem_singleton,
          Mapping.number, here] at number
        rw [selfPerm_eq, whole] at perm
        split at perm
        · cases perm
        · split at perm
          · cases perm
          · omega

end Mappings

end Xv6Lab.Vm

import Xv6Lab.Vm.Teardown
import Xv6Lab.Lib.Transition

/-! The invariant of the process table: every live process has its own trapframe, kernel stack and
address space, and an unused slot has no page at all. -/

namespace Xv6Lab.Vm

open Rv64 Sv39 Exec
open Trap (PGSIZE TRAMPOLINE TRAPFRAME Field makeSatp)

/-- A user process: its space, with the two special pages mapped. -/
structure UserProc (s : Kernel) (o : Owners) (p : Slot) : Prop where
  space : Space s.mem o p (s.procs p).pagetable
  trapframe : translate s.mem (s.procs p).pagetable TRAPFRAME ≠ none
  trampoline : translate s.mem (s.procs p).pagetable TRAMPOLINE ≠ none
  sz : (s.procs p).sz = USER_STACK_SIZE

/-- A slot in use. -/
structure Alive (s : Kernel) (o : Owners) (p : Slot) : Prop where
  trapframe : o (s.procs p).trapframe = .trapframe (some p)
  kstack : o (s.procs p).kstack = .kstack (some p)
  user : (s.procs p).isUser = true → UserProc s o p
  kernel : (s.procs p).isUser = false → (s.procs p).pagetable = s.kernelPagetable

structure Inv (s : Kernel) (o : Owners) : Prop where
  owns : Owns s o
  kernelRoot : o s.kernelPagetable = .table none []
  unused : ∀ p, (s.procs p).state = .unused → ∀ pg, ¬ (o pg).of (some p)
  alive : ∀ p, (s.procs p).state ≠ .unused → Alive s o p
  current : ∀ p, s.current = some p → (s.procs p).state = .running

/-- The fields of a process that the invariant speaks of are the same. -/
structure SameProc (a b : Proc) : Prop where
  unused : a.state = .unused ↔ b.state = .unused
  trapframe : a.trapframe = b.trapframe
  kstack : a.kstack = b.kstack
  pagetable : a.pagetable = b.pagetable
  isUser : a.isUser = b.isUser
  sz : a.sz = b.sz

theorem SameProc.refl (a : Proc) : SameProc a a := ⟨.rfl, rfl, rfl, rfl, rfl, rfl⟩

variable {s t u : Kernel} {o o' o'' : Owners} {h : Holder} {p q : Slot} {pg pt va : Word}

/-- A process that others leave alone. -/
theorem Alive.spared (a : Alive s o p) (w : Owns s o) (spares : Spares h s o t o')
    (ne : some p ≠ h) (table : t.kernelPagetable = s.kernelPagetable)
    (same : SameProc (t.procs p) (s.procs p)) : Alive t o' p where
  trapframe := by
    rw [same.trapframe]
    exact (spares _ (some p) ne (.inl (by rw [a.trapframe]; exact rfl))).1.trans a.trapframe
  kstack := by
    rw [same.kstack]
    exact (spares _ (some p) ne (.inl (by rw [a.kstack]; exact rfl))).1.trans a.kstack
  user user := by
    have old := a.user (same.isUser ▸ user)
    have moved := fun va => spares.translate w ne old.space.root va
    exact ⟨same.pagetable ▸ old.space.spared w spares ne,
      by rw [same.pagetable, moved]; exact old.trapframe,
      by rw [same.pagetable, moved]; exact old.trampoline, same.sz.trans old.sz⟩
  kernel kernel := by
    rw [same.pagetable, table]
    exact a.kernel (same.isUser ▸ kernel)

/-- Work on behalf of one holder keeps the invariant if it leaves that holder in order. -/
theorem Inv.change (inv : Inv s o) (h : Holder) (owns : Owns t o') (spares : Spares h s o t o')
    (table : t.kernelPagetable = s.kernelPagetable) (root : o' t.kernelPagetable = .table none [])
    (others : ∀ p, some p ≠ h → SameProc (t.procs p) (s.procs p))
    (unused : ∀ p, some p = h → (t.procs p).state = .unused → ∀ pg, ¬ (o' pg).of (some p))
    (alive : ∀ p, some p = h → (t.procs p).state ≠ .unused → Alive t o' p)
    (current : ∀ p, t.current = some p → (t.procs p).state = .running) : Inv t o' where
  owns := owns
  kernelRoot := root
  unused p free pg own := by
    by_cases mine : some p = h
    · exact unused p mine free pg own
    · have same := (spares pg (some p) mine (.inr own)).1
      exact inv.unused p ((others p mine).unused.mp free) pg (same ▸ own)
  alive p used := by
    by_cases mine : some p = h
    · exact alive p mine used
    · have old := inv.alive p fun free => used ((others p mine).unused.mpr free)
      exact old.spared inv.owns spares mine table (others p mine)
  current := current

theorem Inv.root_of_spares (inv : Inv s o) (spares : Spares (some q) s o t o')
    (table : t.kernelPagetable = s.kernelPagetable) : o' t.kernelPagetable = .table none [] := by
  rw [table]
  have own : (o s.kernelPagetable).of none := by rw [inv.kernelRoot]; exact rfl
  exact (spares _ none (by simp) (.inl own)).1.trans inv.kernelRoot

/-- The kernel's table gives the user access to nothing. -/
def Sealed (s : Kernel) : Prop :=
  ∀ va e, translate s.mem s.kernelPagetable va = some e → e &&& U = 0

/-- What every step keeps. -/
structure Next (s : Kernel) (o : Owners) (t : Kernel) (o' : Owners) : Prop where
  inv : Inv t o'
  keeps : Keeps o o'
  sealed : Sealed s → Sealed t
  trampoline : t.trampolinePhysAddr = s.trampolinePhysAddr

/-- The kernel's table stays sealed when a process is worked for. -/
theorem Inv.sealed_of_spares (inv : Inv s o) (spares : Spares (some q) s o t o')
    (table : t.kernelPagetable = s.kernelPagetable) (before : Sealed s) : Sealed t := by
  intro va e is
  rw [table, spares.translate inv.owns (by simp) inv.kernelRoot] at is
  exact before va e is

/-- The kernel's table stays sealed when neither it nor memory changes. -/
theorem Next.of_same (inv : Inv t o) (mem : t.mem = s.mem)
    (table : t.kernelPagetable = s.kernelPagetable)
    (trampoline : t.trampolinePhysAddr = s.trampolinePhysAddr) : Next s o t o :=
  ⟨inv, .refl o, fun before va e is => before va e (by rwa [mem, table] at is), trampoline⟩

/-! ### A process under construction -/

/-- The constants, the current process and all slots but `q` are the same. -/
structure Only (q : Slot) (s t : Kernel) : Prop where
  kernelEnd : t.kernelEnd = s.kernelEnd
  kernelPagetable : t.kernelPagetable = s.kernelPagetable
  trampolinePhysAddr : t.trampolinePhysAddr = s.trampolinePhysAddr
  current : t.current = s.current
  procs : ∀ p ≠ q, t.procs p = s.procs p

theorem Only.trans (first : Only q s t) (second : Only q t u) : Only q s u :=
  ⟨second.1.trans first.1, second.2.trans first.2, second.3.trans first.3, second.4.trans first.4,
    fun p ne => (second.5 p ne).trans (first.5 p ne)⟩

theorem Quiet.only (quiet : Quiet s t) (q : Slot) : Only q s t :=
  ⟨quiet.1, quiet.2, quiet.3, quiet.5, fun p _ => by rw [quiet.procs]⟩

theorem Only.setProc (q : Slot) (s : Kernel) (proc : Proc) : Only q s (s.setProc q proc) :=
  ⟨rfl, rfl, rfl, rfl, fun p ne => by simp [ne]⟩

theorem Owns.setProc (w : Owns s o) (q : Slot) (proc : Proc) : Owns (s.setProc q proc) o where
  base := w.base
  free := w.free
  managed pg known := ⟨(w.managed pg known).1, (w.managed pg known).2, (w.managed pg known).3⟩
  tree := w.tree
  solid := w.solid

/-- Slot `q` takes pages, from state `s` on. -/
structure Taking (q : Slot) (s : Kernel) (o : Owners) (t : Kernel) (o' : Owners) : Prop where
  owns : Owns t o'
  grows : Grows (some q) s o t o'
  only : Only q s t

theorem Taking.assign (k : Taking q s o t o') (proc : Proc) : Taking q s o (t.setProc q proc) o' :=
  ⟨k.owns.setProc q proc, k.grows, k.only.trans (.setProc q t proc)⟩

theorem Taking.more (k : Taking q s o t o') (owns : Owns u o'') (quiet : Quiet t u)
    (grows : Grows (some q) t o' u o'') : Taking q s o u o'' :=
  ⟨owns, k.grows.trans grows, k.only.trans (quiet.only q)⟩

/-- Slot `q` as `alloc_proc` leaves it. -/
structure Allocated (q : Slot) (asUser : Bool) (s : Kernel) (o : Owners) (t : Kernel) (o' : Owners) :
    Prop extends Taking q s o t o' where
  chosen : s.nextSlot = some q
  used : (t.procs q).state = .used
  pid : (t.procs q).pid = q.val
  isUser : (t.procs q).isUser = asUser
  trapframe : o' (t.procs q).trapframe = .trapframe (some q)
  kstack : o' (t.procs q).kstack = .kstack (some q)
  user : asUser = true → o' (t.procs q).pagetable = .table (some q) [] ∧
    ∀ va, translate t.mem (t.procs q).pagetable va = none
  kernel : asUser = false → (t.procs q).pagetable = t.kernelPagetable
  takes : asUser = false → ∀ pg, o pg = .free ↔
    o' pg = .free ∨ pg = (t.procs q).trapframe ∨ pg = (t.procs q).kstack

/-- The slot that `alloc_proc` takes was unused. -/
theorem nextSlot_unused (chosen : s.nextSlot = some q) : (s.procs q).state = .unused := by
  simpa using List.find?_some chosen

/-- A free page that gets another owner leaves the other free pages. -/
theorem free_update (own : Owner) (free : o pg = .free) (used : own ≠ .free) (pg' : Word) :
    o pg' = .free ↔ Function.update o pg own pg' = .free ∨ pg' = pg := by
  by_cases same : pg' = pg
  · simp [same, free]
  · simp [same]

/-- The kernel stack is the last page of a new process. -/
theorem allocStack_wp {isUser : Bool} (k : Taking q s o t o') (chosen : s.nextSlot = some q)
    (used : (t.procs q).state = .used ∧ (t.procs q).pid = q.val) (isUser' : (t.procs q).isUser = isUser)
    (trapframe : o' (t.procs q).trapframe = .trapframe (some q))
    (user : isUser = true → o' (t.procs q).pagetable = .table (some q) [] ∧
      ∀ va, translate t.mem (t.procs q).pagetable va = none)
    (kernel : isUser = false → (t.procs q).pagetable = t.kernelPagetable)
    (takes : isUser = false → ∀ pg, o pg = .free ↔ o' pg = .free ∨ pg = (t.procs q).trapframe) :
    wp (allocStack q) (fun r u => r = some q ∧ ∃ o', Allocated q isUser s o u o') Panics t := by
  unfold allocStack
  rw [wp_bind]
  refine wp_conseq (allocPage_for k.owns (.kstack (some q)) rfl (by simp)) ?_
  rintro r u ⟨free, filled⟩
  rw [if_neg (k.owns.ne_zero (by simp [free]))]
  rw [wp_bind, updProc, wp_modify, wp_pure]
  have procs : u.procs q = t.procs q := by rw [filled.quiet.procs]
  refine ⟨rfl, _, { (k.more filled.owns filled.quiet filled.grows).assign _ with
    chosen := chosen
    used := by simp [procs, used]
    pid := by simp [procs, used]
    isUser := by simp [procs, isUser']
    trapframe := ?_
    kstack := by simp
    user := fun isUser => ?_
    kernel := fun isKernel => ?_
    takes := fun isKernel pg => ?_ }⟩
  · simp only [setProc_procs, Function.update_self, procs]
    exact (filled.grows.known (by simp [trapframe])).trans trapframe
  · obtain ⟨root, empty⟩ := user isUser
    simp only [setProc_procs, Function.update_self, procs, setProc_mem]
    exact ⟨(filled.grows.known (by simp [root])).trans root,
      fun va => (filled.translate _ _ root va).trans (empty va)⟩
  · simp only [setProc_procs, Function.update_self, procs]
    exact (kernel isKernel).trans filled.quiet.kernelPagetable.symm
  · simp only [setProc_procs, Function.update_self, procs]
    rw [takes isKernel pg, free_update (.kstack (some q)) free (by simp) pg]
    tauto

theorem allocTable_wp {isUser : Bool} (k : Taking q s o t o') (chosen : s.nextSlot = some q)
    (used : (t.procs q).state = .used ∧ (t.procs q).pid = q.val) (isUser' : (t.procs q).isUser = isUser)
    (trapframe : o' (t.procs q).trapframe = .trapframe (some q))
    (takes : ∀ pg, o pg = .free ↔ o' pg = .free ∨ pg = (t.procs q).trapframe) :
    wp (allocTable q isUser) (fun r u => r = some q ∧ ∃ o', Allocated q isUser s o u o') Panics t := by
  unfold allocTable
  cases isUser with
  | true =>
    simp only [if_true, wp_bind]
    refine wp_conseq (createPagetable_wp k.owns (some q)) ?_
    rintro pt u ⟨o₁, owns, quiet, grows, root, empty⟩
    have procs : u.procs q = t.procs q := by rw [quiet.procs]
    simp only [updProc]
    rw [if_neg (owns.ne_zero (by simp [root]))]
    refine allocStack_wp ((k.more owns quiet grows).assign _) chosen (by simp [procs, used])
      (by simp [procs, isUser']) ?_ (fun _ => ?_) (by simp) (by simp)
    · simp only [setProc_procs, Function.update_self, procs]
      exact (grows.known (by simp [trapframe])).trans trapframe
    · simp only [setProc_procs, Function.update_self, setProc_mem]
      exact ⟨root, empty⟩
  | false =>
    simp only [Bool.false_eq_true, if_false, wp_bind, wp_modify]
    exact allocStack_wp (k.assign _) chosen (by simp [used]) (by simp [isUser'])
      (by simpa using trapframe) (by simp) (fun _ => by simp [Kernel.setProc])
      (fun _ pg => by simpa using takes pg)

/-- `alloc_proc` takes an unused slot, or finds none. -/
theorem allocProc_wp (w : Owns s o) (isUser : Bool) :
    wp (allocProc isUser) (fun r t => (r = none ∧ t = s) ∨
      ∃ q o', r = some q ∧ Allocated q isUser s o t o') Panics s := by
  unfold allocProc
  simp only [wp_bind, wp_get]
  split
  · exact .inl ⟨rfl, rfl⟩
  · next q found =>
    simp only [wp_bind, updProc, wp_modify]
    set s₁ := s.setProc q { s.procs q with pid := q.val, state := .used, isUser := isUser } with is
    have k₁ : Taking q s o s₁ o := ⟨w.setProc q _, .refl _ s o, .setProc q s _⟩
    refine wp_conseq (allocPage_for k₁.owns (.trapframe (some q)) rfl (by simp)) ?_
    rintro tf t ⟨free, filled⟩
    have procs : t.procs q = s₁.procs q := by rw [filled.quiet.procs]
    rw [if_neg (k₁.owns.ne_zero (by simp [free])), wp_modify]
    refine wp_conseq (allocTable_wp ((k₁.more filled.owns filled.quiet filled.grows).assign _) found
      ?_ ?_ (by simp) fun pg => ?_) fun r u ⟨is, o', done⟩ => .inr ⟨q, o', is, done⟩
    · simp [procs, is]
    · simp [procs, is]
    · simpa using free_update (.trapframe (some q)) free (by simp) pg

/-- The unused slot `q` holds a new process that is ready to run. -/
structure Created (q : Slot) (user : Bool) (s : Kernel) (o : Owners) (t : Kernel) (o' : Owners) :
    Prop extends Next s o t o' where
  chosen : s.nextSlot = some q
  only : Only q s t
  runnable : (t.procs q).state = .runnable
  parent : (t.procs q).parent = s.current
  pid : (t.procs q).pid = q.val
  isUser : (t.procs q).isUser = user

/-- Slot `q` has been taken from state `s` on and has its pages; its space is being filled. -/
structure Draft (q : Slot) (s : Kernel) (o : Owners) (t : Kernel) (o' : Owners) : Prop where
  owns : Owns t o'
  spares : Spares (some q) s o t o'
  keeps : Keeps o o'
  only : Only q s t
  trapframe : o' (t.procs q).trapframe = .trapframe (some q)
  kstack : o' (t.procs q).kstack = .kstack (some q)
  space : Space t.mem o' q (t.procs q).pagetable
  isUser : (t.procs q).isUser = true
  pid : (t.procs q).pid = q.val

theorem Allocated.draft (a : Allocated q true s o t o') : Draft q s o t o' where
  owns := a.owns
  spares := a.grows.spares
  keeps := a.grows.keeps
  only := a.only
  trapframe := a.trapframe
  kstack := a.kstack
  space := by
    obtain ⟨root, empty⟩ := a.user rfl
    exact ⟨root, fun va e is => by simp [empty] at is, fun va e is => by simp [empty] at is⟩
  isUser := a.isUser
  pid := a.pid

/-- A store into a page of the process that is no table. -/
theorem Draft.write (d : Draft q s o t o') (own : (o' pg).of (some q))
    (plain : ∀ h ds, o' pg ≠ .table h ds) (mem : Mem) (away : ∀ pg' ≠ pg, mem pg' = t.mem pg') :
    Draft q s o (t.setMem mem) o' ∧ ∀ va, translate mem (t.procs q).pagetable va =
      translate t.mem (t.procs q).pagetable va := by
  have tables : ∀ pg', (o' pg' = .free ∨ ∃ h ds, o' pg' = .table h ds) → mem pg' = t.mem pg' := by
    intro pg' owned
    refine away pg' ?_
    rintro rfl
    rcases owned with free | ⟨h, ds, table⟩
    · rw [free] at own
      exact own
    · exact plain h ds table
  have moved : ∀ va, translate mem (t.procs q).pagetable va =
      translate t.mem (t.procs q).pagetable va :=
    (d.owns.tree (some q)).translate_congr
      (fun pg' ds at_pg => tables pg' (.inr ⟨_, ds, label_eq.mp at_pg⟩)) (label_eq.mpr d.space.root)
  refine ⟨⟨d.owns.setMem mem tables, d.spares.trans (.store own mem away), d.keeps,
    d.only.trans ((Quiet.setMem t mem).only q), d.trapframe, d.kstack, ?_, d.isUser, d.pid⟩, moved⟩
  exact ⟨d.space.root, fun va e is => d.space.low va e (moved va ▸ is),
    fun va e is => d.space.high va e (moved va ▸ is)⟩

/-- An assignment to fields of the process other than its pages. -/
theorem Draft.assign (d : Draft q s o t o') (proc : Proc)
    (trapframe : proc.trapframe = (t.procs q).trapframe) (kstack : proc.kstack = (t.procs q).kstack)
    (pagetable : proc.pagetable = (t.procs q).pagetable)
    (user : proc.isUser = (t.procs q).isUser ∧ proc.pid = (t.procs q).pid) :
    Draft q s o (t.setProc q proc) o' where
  owns := d.owns.setProc q proc
  spares := d.spares
  keeps := d.keeps
  only := d.only.trans (.setProc q t proc)
  trapframe := by simpa [trapframe] using d.trapframe
  kstack := by simpa [kstack] using d.kstack
  space := by simpa [pagetable] using d.space
  isUser := by simpa [user.1] using d.isUser
  pid := by simpa [user.2] using d.pid

/-- Progress of the draft that leaves the process record alone. -/
theorem Draft.grow (d : Draft q s o t o') (owns : Owns u o'') (quiet : Quiet t u)
    (grows : Grows (some q) t o' u o'') (space : Space u.mem o'' q (t.procs q).pagetable) :
    Draft q s o u o'' := by
  have procs : u.procs q = t.procs q := by rw [quiet.procs]
  refine ⟨owns, d.spares.trans grows.spares, d.keeps.trans grows.keeps, d.only.trans (quiet.only q),
    ?_, ?_, ?_, ?_, ?_⟩
  · rw [procs]
    exact (grows.known (by simp [d.trapframe])).trans d.trapframe
  · rw [procs]
    exact (grows.known (by simp [d.kstack])).trans d.kstack
  · rw [procs]
    exact space
  · rw [procs]
    exact d.isUser
  · rw [procs]
    exact d.pid

/-- The draft is complete. -/
theorem Draft.inv (d : Draft q s o t o') (inv : Inv s o) (wasUnused : (s.procs q).state = .unused)
    (trapframe : translate t.mem (t.procs q).pagetable TRAPFRAME ≠ none)
    (trampoline : translate t.mem (t.procs q).pagetable TRAMPOLINE ≠ none)
    (sz : (t.procs q).sz = USER_STACK_SIZE) (used : (t.procs q).state ≠ .unused) : Inv t o' := by
  refine inv.change (some q) d.owns d.spares d.only.kernelPagetable
    (inv.root_of_spares d.spares d.only.kernelPagetable) (fun p ne => ?_) (fun p mine free => ?_)
    (fun p mine _ => ?_) (fun p cur => ?_)
  · rw [d.only.procs p fun same => ne (same ▸ rfl)]
    exact .refl _
  · obtain rfl := Option.some.inj mine
    exact absurd free used
  · obtain rfl := Option.some.inj mine
    exact ⟨d.trapframe, d.kstack, fun _ => ⟨d.space, trapframe, trampoline, sz⟩,
      fun kernel => absurd (d.isUser.symm.trans kernel) (by simp)⟩
  · rw [d.only.current] at cur
    have running := inv.current p cur
    rw [d.only.procs p]
    · exact running
    · rintro rfl
      rw [wasUnused] at running
      cases running

theorem Draft.created (d : Draft q s o t o') (inv : Inv s o) (chosen : s.nextSlot = some q)
    (trapframe : translate t.mem (t.procs q).pagetable TRAPFRAME ≠ none)
    (trampoline : translate t.mem (t.procs q).pagetable TRAMPOLINE ≠ none)
    (sz : (t.procs q).sz = USER_STACK_SIZE) (runnable : (t.procs q).state = .runnable)
    (parent : (t.procs q).parent = s.current) : Created q true s o t o' where
  inv := d.inv inv (nextSlot_unused chosen) trapframe trampoline sz (by simp [runnable])
  keeps := d.keeps
  sealed := inv.sealed_of_spares d.spares d.only.kernelPagetable
  trampoline := d.only.trampolinePhysAddr
  chosen := chosen
  only := d.only
  runnable := runnable
  parent := parent
  pid := d.pid
  isUser := d.isUser

end Xv6Lab.Vm

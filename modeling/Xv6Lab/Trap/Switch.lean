import Mathlib.Logic.Relation
import Xv6Lab.Lib.Rv64Flat
import Xv6Lab.Lib.Transition

/-! `swtch` of `switch.S`, and the kernel threads that it switches between.  Each thread has a
`struct context` and memory of its own, its stack among it; whatever the thread that runs computes,
and however often the processor is handed around, a thread finds its call of `swtch` come back as an
ordinary call does.  A switch is one step: no interrupt is taken inside it. -/

namespace Xv6Lab.Trap

open Rv64 Relation

/-- The fields of `struct context` and their offsets, in the order of `swtch`. -/
def contextRegs : List (Reg × Word) :=
  [(.ra, 0), (.sp, 8), (.s0, 16), (.s1, 24), (.s2, 32), (.s3, 40), (.s4, 48), (.s5, 56), (.s6, 64),
    (.s7, 72), (.s8, 80), (.s9, 88), (.s10, 96), (.s11, 104)]

/-- `swtch(old, new)`: `a0` and `a1` point to the contexts. -/
def swtch : List Instr := saveCode .a0 contextRegs ++ (loadCode .a1 contextRegs ++ [.jr .ra])

/-- The doublewords of the context at `c`. -/
def contextWords (c : Word) : List Word := places c contextRegs

theorem contextWords_nodup (c : Word) : (contextWords c).Nodup := places_nodup c (by decide)

theorem calleeSaved_context : ∀ r ∈ calleeSaved, r ∈ contextRegs.map Prod.fst := by decide

section Run

variable {mmu : Mmu} {m : Machine} {A : Set Word}

/-- What `swtch` leaves: the old context holds the registers of the caller, those of the new context
are in the registers, and the processor goes on where its `ra` says. -/
structure Switched (mmu : Mmu) (A : Set Word) (m m' : Machine) : Prop where
  csr : m'.csr = m.csr
  pc : m'.pc = m'.reg .ra
  saved : ∀ save ∈ contextRegs, m'.load mmu (m.reg .a0 + save.2) = m.reg save.1
  loaded : ∀ load ∈ contextRegs, m'.reg load.1 = m'.load mmu (m.reg .a1 + load.2)
  others : ∀ a ∈ A, a ∉ contextWords (m.reg .a0) → m'.load mmu a = m.load mmu a

theorem swtch_run (flat : InPlace mmu (m.csr .satp) A)
    (inside : ∀ a ∈ contextWords (m.reg .a0), a ∈ A) : Switched mmu A m (run mmu swtch m) := by
  obtain ⟨mode, pc, reg, csr, saved, others⟩ :=
    run_saves contextRegs m flat inside (contextWords_nodup _)
  rw [swtch, run_append, run_append]
  generalize run mmu (saveCode .a0 contextRegs) m = stored at mode pc reg csr saved others ⊢
  rw [run_loads contextRegs stored (by decide), reg]
  have loaded : ∀ load ∈ contextRegs,
      loadAll m.reg (fun _ off => stored.load mmu (m.reg .a1 + off)) 0 contextRegs load.1 =
        stored.load mmu (m.reg .a1 + load.2) := fun load member =>
    loadAll_mem contextRegs m.reg (by decide) member
  generalize loadAll m.reg (fun _ off => stored.load mmu (m.reg .a1 + off)) 0 contextRegs = after
    at loaded ⊢
  exact ⟨csr, rfl, saved, loaded, others⟩

end Run

/-! ### Threads -/

/-- The threads of the kernel, the scheduler among them: where their contexts are, and the
doublewords that each of them alone uses. -/
structure Threads (T : Type) where
  context : T → Word
  own : T → Set Word
  holds : ∀ i, ∀ a ∈ contextWords (context i), a ∈ own i
  apart : ∀ i j, i ≠ j → ∀ a ∈ own i, a ∉ own j

/-- The processor, the thread that runs, and for each thread that does not the processor when it
called `swtch`. -/
structure Processor (T : Type) where
  machine : Machine
  running : T
  suspended : T → Option Machine

section Threads

variable {T : Type} [DecidableEq T]

/-- All doublewords that belong to threads. -/
def Threads.all (threads : Threads T) : Set Word := { a | ∃ i, a ∈ threads.own i }

/-- The doublewords of a thread behind its context. -/
def Threads.kept (threads : Threads T) (i : T) : Set Word :=
  { a | a ∈ threads.own i ∧ a ∉ contextWords (threads.context i) }

/-- Memory of suspended threads stays as it is, and so does the page table. -/
structure Keeps (mmu : Mmu) (threads : Threads T) (suspended : T → Option Machine)
    (m m' : Machine) : Prop where
  satp : m'.csr .satp = m.csr .satp
  own : ∀ i, suspended i ≠ none → ∀ a ∈ threads.own i, m'.load mmu a = m.load mmu a

/-- The context of thread `i` and its memory are as its call of `swtch` in state `old` left them. -/
structure Waits (mmu : Mmu) (threads : Threads T) (i : T) (old m : Machine) : Prop where
  context : ∀ save ∈ contextRegs, m.load mmu (threads.context i + save.2) = old.reg save.1
  kept : ∀ a ∈ threads.kept i, m.load mmu a = old.load mmu a

/-- Steps of the processor: the running thread computes, it sets up or removes a thread that does not
run, or it calls `swtch`. -/
inductive Moves (mmu : Mmu) (threads : Threads T) : Processor T → Processor T → Prop
  | compute {p : Processor T} {m : Machine} (keeps : Keeps mmu threads p.suspended p.machine m) :
      Moves mmu threads p { p with machine := m }
  | create {p : Processor T} {m start : Machine} {j : T} (other : j ≠ p.running)
      (fresh : p.suspended j = none) (keeps : Keeps mmu threads p.suspended p.machine m)
      (ready : Waits mmu threads j start m) :
      Moves mmu threads p
        { p with machine := m, suspended := Function.update p.suspended j (some start) }
  | remove {p : Processor T} (j : T) :
      Moves mmu threads p { p with suspended := Function.update p.suspended j none }
  | swtch {p : Processor T} {j : T} (old : p.machine.reg .a0 = threads.context p.running)
      (new : p.machine.reg .a1 = threads.context j) (waits : p.suspended j ≠ none) :
      Moves mmu threads p
        { machine := run mmu swtch p.machine
          running := j
          suspended := Function.update (Function.update p.suspended p.running (some p.machine)) j none }

variable {mmu : Mmu} {threads : Threads T} {p q : Processor T} {satp : Word}

/-- Every suspended thread waits as it was left. -/
structure Suspends (mmu : Mmu) (threads : Threads T) (satp : Word) (p : Processor T) : Prop where
  satp : p.machine.csr .satp = satp
  running : p.suspended p.running = none
  waits : ∀ i old, p.suspended i = some old → Waits mmu threads i old p.machine

omit [DecidableEq T] in
theorem Waits.keeps {i : T} {old m m' : Machine} {suspended : T → Option Machine}
    (h : Waits mmu threads i old m) (keeps : Keeps mmu threads suspended m m')
    (here : suspended i ≠ none) : Waits mmu threads i old m' := by
  refine ⟨fun save member => ?_, fun a inside => ?_⟩
  · have word : threads.context i + save.2 ∈ contextWords (threads.context i) :=
      List.mem_map.mpr ⟨save, member, rfl⟩
    exact (keeps.own i here _ (threads.holds i _ word)).trans (h.context save member)
  · exact (keeps.own i here a inside.1).trans (h.kept a inside)

omit [DecidableEq T] in
theorem Suspends.switched (h : Suspends mmu threads satp p) (flat : InPlace mmu satp threads.all)
    (old : p.machine.reg .a0 = threads.context p.running) :
    Switched mmu threads.all p.machine (run mmu swtch p.machine) := by
  refine swtch_run (h.satp ▸ flat) fun a word => ⟨p.running, ?_⟩
  rw [old] at word
  exact threads.holds _ a word

omit [DecidableEq T] in
/-- `swtch` writes to the context of its caller alone. -/
theorem Suspends.keeps (h : Suspends mmu threads satp p) (flat : InPlace mmu satp threads.all)
    (old : p.machine.reg .a0 = threads.context p.running) :
    Keeps mmu threads p.suspended p.machine (run mmu swtch p.machine) := by
  have switched := h.switched flat old
  refine ⟨congrFun switched.csr _, fun i suspended a inside => switched.others a ⟨i, inside⟩ ?_⟩
  rw [old]
  intro word
  refine threads.apart i p.running (fun same => ?_) a inside (threads.holds _ a word)
  exact suspended (same ▸ h.running)

theorem Suspends.step (flat : InPlace mmu satp threads.all) (p q : Processor T)
    (h : Suspends mmu threads satp p) (step : Moves mmu threads p q) :
    Suspends mmu threads satp q := by
  cases step with
  | compute keeps =>
    refine ⟨keeps.satp.trans h.satp, h.running, fun i old is => ?_⟩
    exact (h.waits i old is).keeps keeps (is ▸ Option.some_ne_none old)
  | @create m start j other fresh keeps ready =>
    refine ⟨keeps.satp.trans h.satp, ?_, fun i old is => ?_⟩
    · exact (Function.update_of_ne other.symm _ _).trans h.running
    · dsimp only at is
      by_cases this : i = j
      · subst this
        rw [Function.update_self] at is
        obtain rfl := Option.some.inj is
        exact ready
      · rw [Function.update_of_ne this] at is
        exact (h.waits i old is).keeps keeps (is ▸ Option.some_ne_none old)
  | remove j =>
    refine ⟨h.satp, ?_, fun i old is => ?_⟩
    · by_cases this : p.running = j
      · exact this ▸ Function.update_self ..
      · exact (Function.update_of_ne this _ _).trans h.running
    · dsimp only at is
      by_cases this : i = j
      · rw [this, Function.update_self] at is
        cases is
      · rw [Function.update_of_ne this] at is
        exact h.waits i old is
  | @swtch j old new waits =>
    have switched := h.switched flat old
    have keeps := h.keeps flat old
    refine ⟨keeps.satp.trans h.satp, Function.update_self .., fun i before is => ?_⟩
    dsimp only at is
    by_cases this : i = j
    · rw [this, Function.update_self] at is
      cases is
    · rw [Function.update_of_ne this] at is
      by_cases caller : i = p.running
      · rw [caller, Function.update_self] at is
        obtain rfl := Option.some.inj is
        subst caller
        refine ⟨fun save member => ?_, fun a inside => ?_⟩
        · exact old ▸ switched.saved save member
        · exact switched.others a ⟨_, inside.1⟩ (old ▸ inside.2)
      · rw [Function.update_of_ne caller] at is
        exact (h.waits i before is).keeps keeps (is ▸ Option.some_ne_none before)

omit [DecidableEq T] in
theorem Suspends.resume {j : T} {before : Machine} (h : Suspends mmu threads satp p)
    (flat : InPlace mmu satp threads.all)
    (old : p.machine.reg .a0 = threads.context p.running)
    (new : p.machine.reg .a1 = threads.context j) (waits : p.suspended j = some before) :
    Returns mmu (threads.kept j) before (run mmu swtch p.machine) := by
  have switched := h.switched flat old
  obtain ⟨context, kept⟩ :=
    (h.waits j before waits).keeps (h.keeps flat old) (waits ▸ Option.some_ne_none before)
  have reg : ∀ load ∈ contextRegs, (run mmu swtch p.machine).reg load.1 = before.reg load.1 := by
    intro load member
    rw [switched.loaded load member, new]
    exact context load member
  refine ⟨?_, fun r saved => ?_, kept⟩
  · exact switched.pc.trans (reg (.ra, 0) (by decide))
  · obtain ⟨load, member, rfl⟩ := List.mem_map.mp (calleeSaved_context r saved)
    exact reg load member

end Threads

/-! ### A new thread -/

def identityMmu : Mmu := fun _ page => page

/-- Where the contexts of the scheduler and of one process are. -/
def twoContexts (i : Bool) : Word := if i then 0x80006000 else 0x80005000

theorem twoContexts_page : ∀ i : Bool, ∀ save ∈ contextRegs,
    pageOf (twoContexts i + save.2) = twoContexts i := by
  decide

theorem twoContexts_apart (i j : Bool) (other : i ≠ j) (a : Word)
    (word : a ∈ contextWords (twoContexts i)) : a ∉ contextWords (twoContexts j) := by
  intro both
  obtain ⟨save, here, rfl⟩ := List.mem_map.mp word
  obtain ⟨save', there, same⟩ := List.mem_map.mp both
  have page := congrArg pageOf same
  rw [twoContexts_page j save' there, twoContexts_page i save here] at page
  cases i <;> cases j <;> first | exact other rfl | exact absurd page (by decide)

theorem twoContexts_holds (i : Bool) (a : Word) (word : a ∈ contextWords (twoContexts i)) :
    a ∈ { a | a ∈ contextWords (twoContexts i) } :=
  word

def twoThreads : Threads Bool :=
  ⟨twoContexts, fun i => { a | a ∈ contextWords (twoContexts i) }, twoContexts_holds,
    twoContexts_apart⟩

/-- The registers with which a process starts, as `alloc_proc` puts them into its context. -/
def freshReg (forkret kstack : Word) (r : Reg) : Word :=
  if r = .ra then forkret else if r = .sp then kstack + 4096 - 16 else 0

/-- The scheduler is about to run a process for the first time. -/
def firstRun : Machine where
  mode := .supervisor
  pc := 0x80000100
  reg r := if r = .a0 then 0x80005000 else if r = .a1 then 0x80006000 else 7
  csr _ := 0
  mem page off := if page = 0x80006000 then
      if off = 0 then 0x80001000 else if off = 8 then 0x80007ff0 else 0
    else 0

theorem firstRun_context : ∀ save ∈ contextRegs, firstRun.load identityMmu (0x80006000 + save.2) =
    freshReg 0x80001000 0x80007000 save.1 := by
  decide

end Xv6Lab.Trap

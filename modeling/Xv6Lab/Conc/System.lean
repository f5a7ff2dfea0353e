import Mathlib.Algebra.BigOperators.Fin
import Mathlib.Data.Fintype.BigOperators
import Mathlib.Logic.Relation
import Xv6Lab.Conc.Calls

/-! Processes that run file-system calls, with the scheduler of `proc.c`: any process that is not
asleep may take the next step, `sleep` gives up its spinlock and takes it again on the way out,
`wakeup` or the scheduler's timeout may wake a sleeper at any time, `kill_proc` only sets a flag, and
a killed process leaves through `exit_proc` when it comes back from `sleep` or `yield`.  The timer may
make a process yield at any point of a call. -/

namespace Xv6Lab.Conc

open Relation

/-- Where a process stands. -/
inductive Phase
  | unused
  /-- Outside the file system. -/
  | idle
  /-- In a call, with this code to go. -/
  | busy (code : Code Unit)
  /-- In the `sleep` of a loop, with this code after the loop. -/
  | asleep (w : Wait) (k : Unit → Code Unit)
  | zombie

def Phase.isZombie : Phase → Bool
  | zombie => true
  | _ => false

structure State (P : Type) where
  shared : Shared P
  phase : P → Phase
  killed : P → Bool

/-- What a step does; `cmd` and `sleep` are the two outcomes of the next command. -/
inductive Event (P : Type)
  | call (p : P) (c : Call)
  | cmd (p : P) (c : Cmd)
  | sleep (p : P) (w : Wait)
  | wake (p : P)
  | yield (p : P)
  | ret (p : P)
  | kill (p : P)
  | exit (p : P)
  | reap (p z : P)
  | spawn (p q : P)
  | disk (b : Nat)

section Steps

variable {P : Type} [DecidableEq P]

def State.setPhase (s : State P) (p : P) (ph : Phase) : State P :=
  { s with phase := Function.update s.phase p ph }

def State.setShared (s : State P) (sh : Shared P) : State P :=
  { s with shared := sh }

@[simp] theorem State.shared_setPhase (s : State P) (p : P) (ph : Phase) :
    (s.setPhase p ph).shared = s.shared := rfl

omit [DecidableEq P] in
@[simp] theorem State.shared_setShared (s : State P) (sh : Shared P) :
    (s.setShared sh).shared = sh := rfl

omit [DecidableEq P] in
@[simp] theorem State.phase_setShared (s : State P) (sh : Shared P) :
    (s.setShared sh).phase = s.phase := rfl

theorem State.phase_setPhase (s : State P) (p : P) (ph : Phase) :
    (s.setPhase p ph).phase = Function.update s.phase p ph := rfl

/-- `free_proc` clears the descriptor table of `z`, and the caller closes the files. -/
def Shared.inherit (s : Shared P) (p z : P) : Shared P :=
  { s with
    refs := Function.update s.refs p (s.fds z ++ s.refs p)
    fds := Function.update s.fds z [] }

/-- `alloc_proc` clears the slot of `q`. -/
def Shared.fresh (s : Shared P) (q : P) : Shared P :=
  { s with
    refs := Function.update s.refs q []
    fds := Function.update s.fds q [] }

/-- `idup` of the parent's working directory for the child `q`. -/
def Shared.giveCwd (s : Shared P) (q : P) (i : Nat) : Shared P :=
  { s with
    ref := Function.update s.ref i (s.ref i + 1)
    refs := Function.update s.refs q [i] }

inductive Step : State P → Event P → State P → Prop
  | call {s : State P} {p : P} {c : Call} (idle : s.phase p = .idle)
      (has : ∀ i ∈ c.needs, i ∈ s.shared.refs p) :
      Step s (.call p c) (s.setPhase p (.busy c.code))
  | cmd {s : State P} {p : P} {c : Cmd} {k : c.Reply → Code Unit} {r : c.Reply}
      (next : s.phase p = .busy (.cmd c k)) (answer : c.Answer p s.shared r) :
      Step s (.cmd p c) ((s.setShared (c.effect p s.shared r)).setPhase p (.busy (k r)))
  | sleep {s : State P} {p : P} {w : Wait} {k : Unit → Code Unit}
      (next : s.phase p = .busy (.cmd (.await w) k)) (blocked : w.Blocked s.shared) :
      Step s (.sleep p w)
        ((s.setShared (s.shared.setSpin w.lock none)).setPhase p (.asleep w k))
  | wake {s : State P} {p : P} {w : Wait} {k : Unit → Code Unit} (asleep : s.phase p = .asleep w k)
      (free : s.shared.spin w.lock = none) (alive : s.killed p = false) :
      Step s (.wake p)
        ((s.setShared (s.shared.setSpin w.lock (some p))).setPhase p (.busy (.cmd (.await w) k)))
  | wakeKilled {s : State P} {p : P} {w : Wait} {k : Unit → Code Unit}
      (asleep : s.phase p = .asleep w k) (free : s.shared.spin w.lock = none)
      (dead : s.killed p = true) :
      Step s (.wake p) ((s.setShared (s.shared.setSpin w.lock (some p))).setPhase p .zombie)
  | yieldKilled {s : State P} {p : P} {code : Code Unit} (busy : s.phase p = .busy code)
      (dead : s.killed p = true) :
      Step s (.yield p) (s.setPhase p .zombie)
  | ret {s : State P} {p : P} (next : s.phase p = .busy (.ret ())) :
      Step s (.ret p) (s.setPhase p .idle)
  | kill {s : State P} (p : P) :
      Step s (.kill p) { s with killed := Function.update s.killed p true }
  | exit {s : State P} {p : P} (idle : s.phase p = .idle) : Step s (.exit p) (s.setPhase p .zombie)
  | reap {s : State P} {p z : P} (idle : s.phase p = .idle) (zombie : s.phase z = .zombie) :
      Step s (.reap p z)
        (((s.setShared (s.shared.inherit p z)).setPhase z .unused).setPhase p
          (.busy (closeAll (s.shared.fds z))))
  | spawn {s : State P} {p q : P} (idle : s.phase p = .idle) (unused : s.phase q = .unused) :
      Step s (.spawn p q)
        { (s.setShared (s.shared.fresh q)).setPhase q .idle with
          killed := Function.update s.killed q false }
  | spawnCwd {s : State P} {p q : P} {i : Nat} (idle : s.phase p = .idle)
      (unused : s.phase q = .unused) (cwd : i ∈ s.shared.refs p)
      (free : s.shared.spin .itable = none) :
      Step s (.spawn p q)
        { (s.setShared ((s.shared.fresh q).giveCwd q i)).setPhase q .idle with
          killed := Function.update s.killed q false }
  | disk {s : State P} (b : Nat) :
      Step s (.disk b)
        (s.setShared { s.shared with flight := Function.update s.shared.flight b none })

/-- The loop whose `sleep` the process is in. -/
def State.waiting (s : State P) (p : P) : Option Wait :=
  match s.phase p with
  | .asleep w _ => some w
  | _ => none

/-- The steps whose event is allowed in the state before it. -/
def StepWith (allowed : State P → Event P → Prop) (s t : State P) : Prop :=
  ∃ e, allowed s e ∧ Step s e t

theorem State.waiting_setPhase (s : State P) (p q : P) (ph : Phase) :
    (s.setPhase p ph).waiting q =
      if q = p then (match ph with | .asleep w _ => some w | _ => none) else s.waiting q := by
  by_cases same : q = p
  · subst same
    simp [State.waiting, State.phase_setPhase]
  · simp [State.waiting, State.phase_setPhase, same]

/-- A command changes the operations of its own process only. -/
theorem Cmd.effect_ops_of_ne {p q : P} (other : q ≠ p) (s : Shared P) (c : Cmd) (r : c.Reply) :
    (c.effect p s r).ops q = s.ops q := by
  cases c with
  | await w => cases w <;> simp [Cmd.effect, Wait.grant, other]
  | leaveOp => simp [Cmd.effect, other]
  | fdalloc i => cases r <;> rfl
  | panic msg => exact nomatch r
  | _ => rfl

/-- A command gives no sleeplock to another process. -/
theorem Cmd.held_of_effect {p q : P} (other : q ≠ p) {s : Shared P} {c : Cmd} {r : c.Reply} {l : Lock}
    (held : (c.effect p s r).held l = some q) : s.held l = some q := by
  cases c with
  | await w =>
    cases w with
    | sleeplock l' =>
      by_cases same : l = l'
      · simp [Cmd.effect, Wait.grant, same, Ne.symm other] at held
      · simpa [Cmd.effect, Wait.grant, same] using held
    | _ => exact held
  | unlock l' =>
    by_cases same : l = l'
    · simp [Cmd.effect, same] at held
    · simpa [Cmd.effect, same] using held
  | fdalloc i => cases r <;> exact held
  | panic msg => exact nomatch r
  | _ => exact held

/-- A sleeper has just gone to sleep or slept before the step, and has what it had. -/
theorem Step.sleeper {s t : State P} {e : Event P} (step : Step s e t) {q : P} {w : Wait}
    (asleep : t.waiting q = some w) :
    (e = .sleep q w ∧ w.Blocked s.shared ∨ s.waiting q = some w) ∧
      t.shared.ops q = s.shared.ops q ∧
      ∀ l, t.shared.held l = some q → s.shared.held l = some q := by
  cases step with
  | call | ret | yieldKilled | exit | wake | wakeKilled =>
    rw [State.waiting_setPhase] at asleep
    split at asleep
    · cases asleep
    · exact ⟨.inr asleep, rfl, fun _ held => held⟩
  | cmd next answer =>
    rw [State.waiting_setPhase] at asleep
    split at asleep
    · cases asleep
    · rename_i other
      exact ⟨.inr asleep, Cmd.effect_ops_of_ne other _ _ _, fun _ held => Cmd.held_of_effect other held⟩
  | sleep next blocked =>
    rw [State.waiting_setPhase] at asleep
    split at asleep
    · rename_i same
      subst same
      cases asleep
      exact ⟨.inl ⟨rfl, blocked⟩, rfl, fun _ held => held⟩
    · exact ⟨.inr asleep, rfl, fun _ held => held⟩
  | kill | disk => exact ⟨.inr asleep, rfl, fun _ held => held⟩
  | reap =>
    rw [State.waiting_setPhase] at asleep
    split at asleep
    · cases asleep
    · rw [State.waiting_setPhase] at asleep
      split at asleep
      · cases asleep
      · exact ⟨.inr asleep, rfl, fun _ held => held⟩
  | spawn | spawnCwd =>
    replace asleep := (State.waiting_setPhase _ _ _ _).symm.trans asleep
    split at asleep
    · cases asleep
    · exact ⟨.inr asleep, rfl, fun _ held => held⟩

end Steps

section Start

variable {P : Type} [Fintype P]

/-- The references that the processes have to inode `i`. -/
def Shared.owned (s : Shared P) (i : Nat) : Nat :=
  ∑ p, ((s.refs p).count i + (s.fds p).count i)

/-- After the boot no call runs and nothing is held; the directories form a hierarchy, apart from
entries of a directory for itself. -/
structure Initial (s : State P) : Prop where
  phase : ∀ p, s.phase p = .idle ∨ s.phase p = .unused
  spin : ∀ lk, s.shared.spin lk = none
  held : ∀ l, s.shared.held l = none
  outstanding : s.shared.outstanding = 0
  committing : s.shared.committing = false
  ops : ∀ p, s.shared.ops p = 0
  flight : ∀ b, s.shared.flight b = none
  ref : ∀ i, s.shared.owned i ≤ s.shared.ref i
  entries : ∀ d, ∀ i ∈ s.shared.entries d, d = i ∨ s.shared.stamp d < s.shared.stamp i
  stamp : ∀ i, s.shared.stamp i ≤ s.shared.clock

end Start

end Xv6Lab.Conc

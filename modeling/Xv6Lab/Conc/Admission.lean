import Xv6Lab.Conc.Solo
import Xv6Lab.Lib.Transition

/-! Admission to the log.  `begin_op` counts an operation that is already admitted a second time
when `ialloc` opens another one inside `create`, so a process can wait for log space that only its
own `end_op` would free. -/

namespace Xv6Lab.Conc

open Relation

section Admission

variable {P : Type} [DecidableEq P]

/-- No commit runs, and every process that owns an operation sleeps in `begin_op`'s space check. -/
def LogDeadlock (s : State P) : Prop :=
  s.shared.committing = false ∧ Log.logFull s.shared.lh.length s.shared.outstanding ∧
    (∃ p, 0 < s.shared.ops p) ∧ ∀ p, 0 < s.shared.ops p → s.waiting p = some .logSpace

instance [Fintype P] (s : State P) : Decidable (LogDeadlock s) :=
  inferInstanceAs (Decidable (_ ∧ _ ∧ _ ∧ _))

/-- Whenever a process that owns an operation tests `begin_op`'s condition, no commit runs and there
is log space for one more operation. -/
def NestedAdmitted (s : State P) (e : Event P) : Prop :=
  ∀ p, 0 < s.shared.ops p → e = .cmd p (.await .logSpace) ∨ e = .sleep p .logSpace →
    ¬ Wait.logSpace.Blocked s.shared

/-- A sleeper in `begin_op` owns no operation. -/
def SleepersOwnNothing (s : State P) : Prop :=
  ∀ p, s.waiting p = some .logSpace → s.shared.ops p = 0

theorem SleepersOwnNothing.step {s t : State P} {e : Event P} (h : SleepersOwnNothing s)
    (admitted : NestedAdmitted s e) (step : Step s e t) : SleepersOwnNothing t := by
  intro q asleep
  obtain ⟨⟨rfl, blocked⟩ | before, ops, -⟩ := step.sleeper asleep
  · -- The sleeper has just failed the test, which a process with an operation may not.
    by_contra owns
    refine admitted q (Nat.pos_of_ne_zero fun none => owns (ops.trans none)) (.inr rfl) blocked
  · exact ops.trans (h q before)

end Admission

/-- Process 0 creates a file and stops before the `begin_op` of `ialloc`; process 1 writes eleven
blocks of its file in one operation; then process 0 goes on and falls asleep. -/
def nested : State (Fin 2) :=
  fallAsleep 0 <| solo 0 10 [0] <|
    callThen 1 (.write 5) 400
      ([0, 1, 1, 1, 11] ++ (List.range 11).flatMap (fun i => [1, 0, 0, 1, 0, 0, 100 + i]) ++
        [0, 2, 0, 50]) <|
    callThen 0 (.create .file) 100 [1, 1, 0, 0, 0, 0, 0, 0, 1, 0, 0] (booted 2)

end Xv6Lab.Conc

import Mathlib.Data.Fintype.Fin
import Xv6Lab.Lib.Simulation
import Xv6Lab.Sched.Sleeplock

/-! The loop of `schedule`, which goes round the process table and counts how long each process
sleeps.  Between two switches the process that runs, or an interrupt handler, does to the table
whatever the functions of `proc.c` do.  A process that waits is reached after a bounded number of
turns, and others are preferred to it only so often. -/

namespace Xv6Lab.Rounds

open Vm (Slot ProcState)
open Sleep (Proc SLEEP_TIMEOUT checkTimeout)

/-- Where the processor is: in the loop of `schedule` before the check for a timeout, or after it; or
in the process of the slot that the loop has come to. -/
inductive Place
  | check | pick | inside
  deriving DecidableEq

/-- The process table and the local variable `i` of `schedule`. -/
structure State where
  procs : Slot → Proc
  i : Slot
  place : Place

/-- What is counted: a turn of the loop that has come to its end, a process that is switched to, a
slot that is given back. -/
inductive Event
  | turn
  | dispatch (p : Slot)
  | free (p : Slot)
  deriving DecidableEq

def State.setProc (s : State) (p : Slot) (proc : Proc) : State :=
  { s with procs := Function.update s.procs p proc }

/-- `wakeup` -/
def wakeup (s : State) (chan : Sleep.Addr) : State :=
  { s with procs := fun p =>
      if (s.procs p).state = .sleeping ∧ (s.procs p).chan = some chan then
        { s.procs p with state := .runnable }
      else
        s.procs p }

inductive Step (s : State) : Option Event → State → Prop
  /-- The check for a timeout in the loop of `schedule`. -/
  | checkTimeout (at_ : s.place = .check) :
      Step s none { s.setProc s.i (checkTimeout (s.procs s.i)) with place := .pick }
  /-- The slot cannot be run. -/
  | pass (at_ : s.place = .pick) (not : (s.procs s.i).state ≠ .runnable) :
      Step s (some .turn) { s with i := s.i + 1, place := .check }
  | dispatch (at_ : s.place = .pick) (can : (s.procs s.i).state = .runnable) :
      Step s (some (.dispatch s.i))
        { s.setProc s.i { s.procs s.i with state := .running } with place := .inside }
  /-- A process wakes others, or the handler of the disk does. -/
  | wakeup (chan : Sleep.Addr) : Step s none (wakeup s chan)
  /-- `yield`, called by the process or for the timer. -/
  | yield (at_ : s.place = .inside) (runs : (s.procs s.i).state = .running) :
      Step s none (s.setProc s.i { s.procs s.i with state := .runnable })
  | sleep (chan : Sleep.Addr) (at_ : s.place = .inside) (runs : (s.procs s.i).state = .running) :
      Step s none (s.setProc s.i { s.procs s.i with chan := some chan, state := .sleeping })
  /-- `sleep` has come back. -/
  | slept (at_ : s.place = .inside) (runs : (s.procs s.i).state = .running) :
      Step s none (s.setProc s.i { s.procs s.i with chan := none })
  | exit (at_ : s.place = .inside) (runs : (s.procs s.i).state = .running) :
      Step s none (s.setProc s.i { s.procs s.i with state := .zombie })
  /-- `yield`, `sleep` and `exit_proc` switch to the scheduler. -/
  | swtch (at_ : s.place = .inside) (left : (s.procs s.i).state ≠ .running) :
      Step s (some .turn) { s with i := s.i + 1, place := .check }
  /-- `alloc_proc` -/
  | alloc (q : Slot) (at_ : s.place = .inside) (unused : (s.procs q).state = .unused) :
      Step s none (s.setProc q { s.procs q with state := .used, pid := q.val })
  /-- A slot is made runnable. -/
  | publish (q : Slot) (at_ : s.place = .inside) (used : (s.procs q).state = .used) (ticks : Nat)
      (reset : ticks = 0 ∨ ticks = (s.procs q).sleepTicks) :
      Step s none (s.setProc q { s.procs q with state := .runnable, sleepTicks := ticks })
  /-- `free_proc`, for a child that has ended or for a slot that could not be made up. -/
  | free (q : Slot) (at_ : s.place = .inside) :
      Step s (some (.free q)) (s.setProc q { s.procs q with state := .unused, pid := 0, chan := none })

/-- `init_proc` and `kernel_main` have made some processes runnable, and `schedule` begins. -/
structure Initial (s : State) : Prop where
  i : s.i = 0
  place : s.place = .check
  ticks : ∀ p, (s.procs p).sleepTicks = 0
  states : ∀ p, (s.procs p).state = .unused ∨ (s.procs p).state = .runnable

/-- The process is not on the processor and wants to be, or sleeps. -/
def Waits (p : Slot) (s : State) : Prop :=
  (s.procs p).state = .runnable ∨ (s.procs p).state = .sleeping

/-- No count is over the limit. -/
def Counted (s : State) : Prop := ∀ p, (s.procs p).sleepTicks ≤ SLEEP_TIMEOUT

/-- The loop has gone past the process in this turn. -/
def Passed (p : Slot) (s : State) : Prop :=
  s.i = p ∧ (s.place = .inside ∨ s.place = .pick ∧ (s.procs p).state = .sleeping)

instance (p : Slot) (s : State) : Decidable (Passed p s) := inferInstanceAs (Decidable (_ ∧ _))

/-- How often the loop may still pass the process while it sleeps. -/
def laps (p : Slot) (s : State) : Nat :=
  if (s.procs p).state = .sleeping then SLEEP_TIMEOUT - (s.procs p).sleepTicks else 0

/-- The turns until the loop comes to the process. -/
def ahead (p : Slot) (s : State) : Nat := if Passed p s then 32 else (p - s.i).val

/-- The turns until the process is switched to, at the most. -/
def turnsLeft (p : Slot) (s : State) : Nat := 32 * laps p s + ahead p s

/-- Process `q` comes before `p` in what is left of this turn. -/
def Before (q p : Slot) (s : State) : Prop :=
  (q - s.i).val < (p - s.i).val ∧ ¬ (s.i = q ∧ s.place = .inside)

instance (q p : Slot) (s : State) : Decidable (Before q p s) := inferInstanceAs (Decidable (_ ∧ _))

/-- How often process `q` can still be preferred to `p`. -/
def preferred (q p : Slot) (s : State) : Nat :=
  laps p s + (if Passed p s then 1 else 0) + if Before q p s then 1 else 0

variable {s t : State} {e : Option Event} {p q : Slot}

/-! ### Going round -/

theorem ahead_next {i : Slot} (other : p ≠ i) : (p - (i + 1)).val + 1 = (p - i).val := by
  have apart : p.val ≠ i.val := fun is => other (Fin.ext is)
  have one : (i + 1).val = (i.val + 1) % 32 := Fin.val_add i 1
  rw [Fin.val_sub, Fin.val_sub, one]
  omega

theorem ahead_self (i : Slot) : (i - (i + 1)).val = 31 := by
  have one : (i + 1).val = (i.val + 1) % 32 := Fin.val_add i 1
  omega

/-- What a step is to a process that waits. -/
inductive Sees (p : Slot) (s t : State) : Option Event → Prop
  | still {e : Option Event} (quiet : e = none ∨ ∃ q, e = some (.free q))
      (proc : t.procs p = s.procs p) (i : t.i = s.i) (place : t.place = s.place) : Sees p s t e
  | woken (sleeps : (s.procs p).state = .sleeping)
      (proc : t.procs p = { s.procs p with state := .runnable }) (i : t.i = s.i)
      (place : t.place = s.place) : Sees p s t none
  | checked (at_ : s.i = p) (before : s.place = .check) (i : t.i = s.i) (place : t.place = .pick)
      (proc : t.procs p = checkTimeout (s.procs p)) : Sees p s t none
  | other (elsewhere : s.i ≠ p) (before : s.place = .check) (i : t.i = s.i) (place : t.place = .pick)
      (proc : t.procs p = s.procs p) : Sees p s t none
  | preferred (elsewhere : s.i ≠ p) (before : s.place = .pick) (i : t.i = s.i)
      (place : t.place = .inside) (proc : t.procs p = s.procs p) : Sees p s t (some (.dispatch s.i))
  | turn (passed : s.i = p → Passed p s) (before : s.place ≠ .check) (i : t.i = s.i + 1)
      (place : t.place = .check) (proc : t.procs p = s.procs p) : Sees p s t (some .turn)

theorem Waits.not_running (waits : Waits p s) : (s.procs p).state ≠ .running := by
  rcases waits with is | is <;> rw [is] <;> decide

theorem sees_of_step (waits : Waits p s) (step : Step s e t) (kept : e ≠ some (.free p))
    (left : e ≠ some (.dispatch p)) : Sees p s t e := by
  -- a step that changes another slot
  have others : ∀ {q : Slot} {proc : Proc} {e : Option Event}, q ≠ p →
      (e = none ∨ ∃ q, e = some (.free q)) → Sees p s (s.setProc q proc) e :=
    fun other quiet => .still quiet (Function.update_of_ne (Ne.symm other) ..) rfl rfl
  -- the process that runs does not wait
  have runs : ∀ {state : ProcState} {q : Slot}, (s.procs q).state = state → state ≠ .runnable →
      state ≠ .sleeping → q ≠ p := by
    rintro state q is first second rfl
    rcases waits with at_ | at_
    · exact first (is.symm.trans at_)
    · exact second (is.symm.trans at_)
  cases step with
  | checkTimeout at_ =>
    by_cases here : s.i = p
    · exact .checked here at_ rfl rfl (by rw [← here]; exact Function.update_self ..)
    · exact .other here at_ rfl rfl (Function.update_of_ne (Ne.symm here) ..)
  | pass at_ not =>
    refine .turn (fun here => ⟨here, .inr ⟨at_, ?_⟩⟩) (by rw [at_]; decide) rfl rfl rfl
    rw [here] at not
    exact waits.resolve_left not
  | dispatch at_ can =>
    have here : s.i ≠ p := fun is => left (by rw [is])
    exact .preferred here at_ rfl rfl (Function.update_of_ne (Ne.symm here) ..)
  | wakeup chan =>
    by_cases woken : (s.procs p).state = .sleeping ∧ (s.procs p).chan = some chan
    · exact .woken woken.1 (if_pos woken) rfl rfl
    · exact .still (.inl rfl) (if_neg woken) rfl rfl
  | yield at_ is | sleep chan at_ is | slept at_ is | exit at_ is =>
    exact others (runs is (by decide) (by decide)) (.inl rfl)
  | swtch at_ =>
    exact .turn (fun here => ⟨here, .inl at_⟩) (by rw [at_]; decide) rfl rfl rfl
  | alloc q at_ is => exact others (runs is (by decide) (by decide)) (.inl rfl)
  | publish q at_ is => exact others (runs is (by decide) (by decide)) (.inl rfl)
  | free q => exact others (fun is => kept (by rw [is])) (.inr ⟨q, rfl⟩)

/-! ### The two measures -/

theorem Sees.waits (sees : Sees p s t e) (waits : Waits p s) : Waits p t := by
  unfold Waits at waits ⊢
  cases sees with
  | still _ proc | other _ _ _ _ proc | preferred _ _ _ _ proc | turn _ _ _ _ proc => rwa [proc]
  | woken _ proc =>
    rw [proc]
    exact .inl rfl
  | checked _ _ _ _ proc =>
    rw [proc, checkTimeout]
    split
    · split
      · exact .inl rfl
      · exact .inr ‹_›
    · exact .inl (waits.resolve_right ‹_›)

/-- The process is as before. -/
theorem laps_congr (proc : t.procs p = s.procs p) : laps p t = laps p s := by
  unfold laps
  rw [proc]

theorem passed_congr (proc : t.procs p = s.procs p) (i : t.i = s.i) (place : t.place = s.place) :
    Passed p t ↔ Passed p s := by
  unfold Passed
  rw [proc, i, place]

theorem not_passed_check (place : t.place = .check) : ¬ Passed p t := by
  rintro ⟨-, inside | ⟨pick, -⟩⟩
  · rw [place] at inside
    cases inside
  · rw [place] at pick
    cases pick

theorem not_passed_elsewhere (i : t.i ≠ p) : ¬ Passed p t := fun passed => i passed.1

/-- A process that is woken is not to be passed any more. -/
theorem woken_measures (sleeps : (s.procs p).state = .sleeping)
    (proc : t.procs p = { s.procs p with state := .runnable }) (i : t.i = s.i)
    (place : t.place = s.place) : laps p t = 0 ∧ (Passed p t → Passed p s) := by
  refine ⟨if_neg (by rw [proc]; exact fun is => by cases is), ?_⟩
  rintro ⟨at_, inside | ⟨-, is⟩⟩
  · exact ⟨i ▸ at_, .inl (place ▸ inside)⟩
  · rw [proc] at is
    cases is

/-- A check for a timeout at the process itself counts one, or ends its sleep. -/
theorem checked_measures (counted : Counted s) (waits : Waits p s) (at_ : s.i = p) (i : t.i = s.i)
    (place : t.place = .pick) (proc : t.procs p = checkTimeout (s.procs p)) :
    Passed p t ∧ laps p t + 1 = laps p s ∨ ¬ Passed p t ∧ laps p t = 0 := by
  have bound := counted p
  by_cases sleeps : (s.procs p).state = .sleeping
  · by_cases late : SLEEP_TIMEOUT < (s.procs p).sleepTicks + 1
    · rw [checkTimeout, if_pos sleeps, if_pos late] at proc
      refine .inr ⟨?_, if_neg (by rw [proc]; exact fun is => by cases is)⟩
      rintro ⟨-, inside | ⟨-, is⟩⟩
      · rw [place] at inside
        cases inside
      · rw [proc] at is
        cases is
    · rw [checkTimeout, if_pos sleeps, if_neg late] at proc
      refine .inl ⟨⟨i.trans at_, .inr ⟨place, by rw [proc]; exact sleeps⟩⟩, ?_⟩
      unfold laps
      rw [proc, if_pos sleeps, if_pos sleeps]
      show SLEEP_TIMEOUT - ((s.procs p).sleepTicks + 1) + 1 = _
      omega
  · rw [checkTimeout, if_neg sleeps] at proc
    refine .inr ⟨?_, if_neg (by rw [proc]; exact sleeps)⟩
    rintro ⟨-, inside | ⟨-, is⟩⟩
    · rw [place] at inside
      cases inside
    · rw [proc] at is
      exact sleeps is

/-- Every turn brings the loop nearer to a process that waits. -/
theorem Sees.turnsLeft (sees : Sees p s t e) (counted : Counted s) (waits : Waits p s) :
    turnsLeft p t + e.toList.count .turn ≤ turnsLeft p s := by
  unfold Rounds.turnsLeft ahead
  cases sees with
  | still quiet proc i place =>
    have none : e.toList.count .turn = 0 := by
      rcases quiet with rfl | ⟨q, rfl⟩ <;> rfl
    simp only [laps_congr proc, passed_congr proc i place, i, none]
    omega
  | woken sleeps proc i place =>
    obtain ⟨zero, passed⟩ := woken_measures sleeps proc i place
    have dist := (p - s.i).isLt
    simp only [zero, i, Option.toList_none, List.count_nil]
    by_cases now : Passed p t
    · rw [if_pos now, if_pos (passed now)]
      omega
    · rw [if_neg now]
      split <;> omega
  | checked at_ before i place proc =>
    have start : ¬ Passed p s := not_passed_check before
    have here : (p - s.i).val = 0 := by
      rw [at_]
      omega
    simp only [if_neg start, i, here, Option.toList_none, List.count_nil]
    rcases checked_measures counted waits at_ i place proc with ⟨now, less⟩ | ⟨now, zero⟩
    · rw [if_pos now]
      omega
    · rw [if_neg now, zero]
      omega
  | other elsewhere _ i _ proc | preferred elsewhere _ i _ proc =>
    have first := not_passed_elsewhere elsewhere
    have second : ¬ Passed p t := not_passed_elsewhere (i ▸ elsewhere)
    simp only [laps_congr proc, i, if_neg first, if_neg second]
    simp
  | turn passed before i place proc =>
    have second : ¬ Passed p t := not_passed_check place
    have one : (some Event.turn).toList.count .turn = 1 := rfl
    simp only [laps_congr proc, i, if_neg second, one]
    by_cases here : s.i = p
    · rw [if_pos (passed here), here, ahead_self]
    · have near := ahead_next (Ne.symm here)
      rw [if_neg (not_passed_elsewhere here)]
      omega

/-- Every time another process is preferred uses up one of the chances that are left. -/
theorem Sees.preferred_le (sees : Sees p s t e) (counted : Counted s) (waits : Waits p s)
    (other : q ≠ p) :
    Rounds.preferred q p t + e.toList.count (.dispatch q) ≤ Rounds.preferred q p s := by
  unfold Rounds.preferred
  cases sees with
  | still quiet proc i place =>
    have none : e.toList.count (.dispatch q) = 0 := by
      rcases quiet with rfl | ⟨q, rfl⟩ <;> rfl
    have before : Before q p t ↔ Before q p s := by rw [Before, Before, i, place]
    simp only [laps_congr proc, passed_congr proc i place, before, none]
    omega
  | woken sleeps proc i place =>
    obtain ⟨zero, passed⟩ := woken_measures sleeps proc i place
    have before : Before q p t ↔ Before q p s := by rw [Before, Before, i, place]
    simp only [zero, before, Option.toList_none, List.count_nil]
    by_cases now : Passed p t
    · rw [if_pos now, if_pos (passed now)]
      omega
    · rw [if_neg now]
      omega
  | checked at_ _ i place proc =>
    have zero : (p - t.i).val = 0 := by
      rw [i, at_]
      omega
    have second : ¬ Before q p t := fun now => by
      have less := now.1
      omega
    simp only [if_neg second, Option.toList_none, List.count_nil]
    rcases checked_measures counted waits at_ i place proc with ⟨now, less⟩ | ⟨now, zero⟩
    · rw [if_pos now]
      omega
    · rw [if_neg now, zero]
      omega
  | other elsewhere was i place proc =>
    have before : Before q p t ↔ Before q p s := by
      unfold Before
      rw [i, place, was]
      simp
    simp only [laps_congr proc, before, if_neg (not_passed_elsewhere elsewhere),
      if_neg (not_passed_elsewhere (i ▸ elsewhere : t.i ≠ p)), Option.toList_none, List.count_nil]
    omega
  | preferred elsewhere was i place proc =>
    simp only [laps_congr proc, if_neg (not_passed_elsewhere elsewhere),
      if_neg (not_passed_elsewhere (i ▸ elsewhere : t.i ≠ p))]
    by_cases here : s.i = q
    · have first : Before q p s := by
        refine ⟨?_, fun now => ?_⟩
        · rw [here]
          have apart : q.val ≠ p.val := fun is => other (Fin.ext is)
          omega
        · rw [was] at now
          cases now.2
      have second : ¬ Before q p t := fun now => now.2 ⟨i.trans here, place⟩
      have one : (some (Event.dispatch s.i)).toList.count (.dispatch q) = 1 := by
        rw [here]
        simp
      rw [if_pos first, if_neg second, one]
    · have before : Before q p t → Before q p s := fun now =>
        ⟨i ▸ now.1, fun is => here is.1⟩
      have none : (some (Event.dispatch s.i)).toList.count (.dispatch q) = 0 := by
        simp [here]
      rw [none]
      by_cases now : Before q p t
      · rw [if_pos now, if_pos (before now)]
      · rw [if_neg now]
        omega
  | turn passed was i place proc =>
    have none : (some Event.turn).toList.count (.dispatch q) = 0 := rfl
    simp only [laps_congr proc, if_neg (not_passed_check place), none]
    by_cases here : s.i = p
    · rw [if_pos (passed here)]
      split <;> omega
    · rw [if_neg (not_passed_elsewhere here)]
      have before : Before q p t → Before q p s := by
        rintro ⟨less, -⟩
        have near := ahead_next (Ne.symm here)
        rw [i] at less
        have away : q ≠ s.i := by
          intro is
          rw [is, ahead_self] at less
          omega
        have also := ahead_next away
        exact ⟨by omega, fun now => away now.1.symm⟩
      by_cases now : Before q p t
      · rw [if_pos now, if_pos (before now)]
      · rw [if_neg now]
        omega

/-! ### Runs -/

theorem Initial.counted (init : Initial s) : Counted s := fun p => by
  rw [init.ticks]
  exact Nat.zero_le _

theorem checkTimeout_ticks (proc : Proc) : (checkTimeout proc).sleepTicks ≤ SLEEP_TIMEOUT := by
  unfold checkTimeout
  split
  · split
    · exact Nat.zero_le _
    · simp only
      omega
  · exact Nat.zero_le _

theorem Counted.step (counted : Counted s) (step : Step s e t) : Counted t := by
  have set : ∀ {q : Slot} {proc : Proc}, proc.sleepTicks ≤ SLEEP_TIMEOUT →
      Counted (s.setProc q proc) := by
    intro q proc bound p
    show (Function.update s.procs q proc p).sleepTicks ≤ _
    by_cases here : p = q
    · rw [here, Function.update_self]
      exact bound
    · rw [Function.update_of_ne here]
      exact counted p
  cases step with
  | checkTimeout => exact set (checkTimeout_ticks _)
  | pass | swtch => exact counted
  | wakeup chan =>
    intro p
    show (if _ then _ else _ : Proc).sleepTicks ≤ _
    split <;> exact counted p
  | publish q _ _ ticks reset =>
    refine set ?_
    rcases reset with rfl | rfl
    · exact Nat.zero_le _
    · exact counted q
  | dispatch | yield | sleep | slept | exit => exact set (counted s.i)
  | alloc q | free q => exact set (counted q)

/-- Until a process that waits is switched to, or its slot is given back, the loop makes at most so
many turns, and switches to another process at most so often. -/
theorem run_measures {trace : List Event} (run : Simulation.Run Step s trace t) (counted : Counted s)
    (waits : Waits p s) (kept : .free p ∉ trace) (left : .dispatch p ∉ trace) :
    trace.count .turn ≤ turnsLeft p s ∧
      ∀ q ≠ p, trace.count (.dispatch q) ≤ preferred q p s := by
  have ok : ∀ e ∈ trace, e ≠ .free p ∧ e ≠ .dispatch p := fun e inside =>
    ⟨fun is => kept (is ▸ inside), fun is => left (is ▸ inside)⟩
  have sees : ∀ {s t : State} {e : Option Event}, Waits p s → (∀ x ∈ e, x ≠ .free p ∧ x ≠ .dispatch p) →
      Step s e t → Sees p s t e := by
    intro s t e waits fine step
    exact sees_of_step waits step (fun is => (fine (.free p) (by rw [is]; rfl)).1 rfl)
      fun is => (fine (.dispatch p) (by rw [is]; rfl)).2 rfl
  refine ⟨?_, fun q other => ?_⟩
  · have falls := run.potential (I := fun s => Counted s ∧ Waits p s) (F := turnsLeft p)
      (P := (· == .turn)) (fun inv fine step => ?_) ⟨counted, waits⟩ ok
    · exact Nat.le_trans (Nat.le_add_left ..) falls.2
    · have seen := sees inv.2 fine step
      exact ⟨⟨inv.1.step step, seen.waits inv.2⟩, seen.turnsLeft inv.1 inv.2⟩
  · have falls := run.potential (I := fun s => Counted s ∧ Waits p s) (F := preferred q p)
      (P := (· == .dispatch q)) (fun inv fine step => ?_) ⟨counted, waits⟩ ok
    · exact Nat.le_trans (Nat.le_add_left ..) falls.2
    · have seen := sees inv.2 fine step
      exact ⟨⟨inv.1.step step, seen.waits inv.2⟩, seen.preferred_le inv.1 inv.2 other⟩

/-- The limits on the turns and on the chances of another process. -/
theorem measures_le (p q : Slot) (s : State) : turnsLeft p s ≤ 32 * laps p s + 32 ∧
    preferred q p s ≤ laps p s + 1 := by
  unfold turnsLeft ahead preferred
  have near := (p - s.i).isLt
  refine ⟨by split <;> omega, ?_⟩
  by_cases passed : Passed p s
  · have away : ¬ Before q p s := by
      rintro ⟨less, -⟩
      rw [passed.1] at less
      omega
    rw [if_pos passed, if_neg away]
  · rw [if_neg passed]
    split <;> omega

/-- No process starves.  From any state that a run reaches in which process `p` is runnable, the loop of
`schedule` switches to it before it has made 33 turns, and prefers no other process to it twice; if `p`
sleeps, the bounds are a hundred times as large, whether anyone wakes it or not. -/
theorem bounded_waiting {s₀ : State} {past trace : List Event} (init : Initial s₀)
    (before : Simulation.Run Step s₀ past s) (run : Simulation.Run Step s trace t) (waits : Waits p s)
    (kept : .free p ∉ trace) (left : .dispatch p ∉ trace) :
    trace.count .turn ≤ (if (s.procs p).state = .sleeping then 3232 else 32) ∧
      ∀ q ≠ p, trace.count (.dispatch q) ≤ if (s.procs p).state = .sleeping then 101 else 1 := by
  have counted : Counted s := before.invariant (A := fun _ => True)
    (fun counted _ step => counted.step step) init.counted fun _ _ => trivial
  obtain ⟨turns, others⟩ := run_measures run counted waits kept left
  by_cases sleeps : (s.procs p).state = .sleeping
  · have few : laps p s ≤ 100 := by
      rw [laps, if_pos sleeps]
      exact Nat.sub_le ..
    simp only [if_pos sleeps]
    refine ⟨turns.trans ((measures_le p p s).1.trans (by omega)), fun q other => ?_⟩
    exact (others q other).trans ((measures_le p q s).2.trans (by omega))
  · have none : laps p s = 0 := if_neg sleeps
    simp only [if_neg sleeps]
    refine ⟨turns.trans ((measures_le p p s).1.trans (by omega)), fun q other => ?_⟩
    exact (others q other).trans ((measures_le p q s).2.trans (by omega))

/-- Two runnable processes when `schedule` begins. -/
def sampleTable : State where
  procs p :=
    { state := if p.val < 2 then .runnable else .unused
      pid := p.val
      chan := none
      sleepTicks := 0
      place := .outside
      inside := fun _ => false }
  i := 0
  place := .check

theorem sampleTable_initial : Initial sampleTable := by
  refine ⟨rfl, rfl, fun _ => rfl, fun p => ?_⟩
  by_cases first : p.val < 2
  · exact .inr (if_pos first)
  · exact .inl (if_neg first)

/-- The first process runs until the timer takes the processor away. -/
theorem sampleTable_runs : ∃ t, Simulation.Run Step sampleTable [.dispatch 0, .turn] t :=
  ⟨_, .visible (.silent (.visible (.silent .nil (.checkTimeout rfl)) (.dispatch rfl rfl))
    (.yield rfl rfl)) (.swtch rfl (by decide))⟩

theorem bounded_waiting_sample : ∃ t, Simulation.Run Step sampleTable [.dispatch 0, .turn] t ∧
    [Event.dispatch 0, .turn].count .turn ≤ 32 ∧
      ∀ q ≠ (1 : Slot), [Event.dispatch 0, .turn].count (.dispatch q) ≤ 1 := by
  obtain ⟨t, run⟩ := sampleTable_runs
  exact ⟨t, run, bounded_waiting (p := 1) sampleTable_initial .nil run (.inl rfl) (by decide) (by decide)⟩

end Xv6Lab.Rounds

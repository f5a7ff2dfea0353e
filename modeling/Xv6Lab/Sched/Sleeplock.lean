import Mathlib.Logic.Function.Basic
import Mathlib.Logic.Relation
import Xv6Lab.Lib.Transition
import Xv6Lab.Vm.Memory

/-! The sleep locks of `sleeplock.c`, any number of them at any addresses, under any number of
processes.  What a function does while it holds the spin lock inside a sleep lock is one step; in
between, the scheduler runs whom it likes, wakes sleepers that have slept too long, and interrupts
take the processor away.  A process ends only when it holds no sleep lock and waits for none, and a
process that is made in its place has the same number. -/

namespace Xv6Lab.Sleep

open Vm (ProcState)
open Relation

abbrev Addr := BitVec 64

/-- `struct sleeplock`, without the spin lock and the name. -/
structure Sleeplock where
  locked : Bool
  pid : Nat
  deriving DecidableEq, Repr

/-- Where a process is: outside of the functions below, or in the loop of `acquiresleep`. -/
inductive Where
  | outside
  | waiting (lk : Addr)
  deriving DecidableEq, Repr

/-- The fields of `struct proc` that sleeping and scheduling use, and where the process is.  `inside`
records, for the reader, the locks that the process has acquired and not released. -/
structure Proc where
  state : ProcState
  pid : Nat
  chan : Option Addr
  sleepTicks : Nat
  place : Where
  inside : Addr → Bool

structure State where
  locks : Addr → Sleeplock
  procs : Nat → Proc

namespace State

def setLock (s : State) (lk : Addr) (lock : Sleeplock) : State :=
  { s with locks := Function.update s.locks lk lock }

def setProc (s : State) (p : Nat) (proc : Proc) : State :=
  { s with procs := Function.update s.procs p proc }

@[simp] theorem setLock_locks (s : State) (lk : Addr) (lock : Sleeplock) :
    (s.setLock lk lock).locks = Function.update s.locks lk lock := rfl

@[simp] theorem setLock_procs (s : State) (lk : Addr) (lock : Sleeplock) :
    (s.setLock lk lock).procs = s.procs := rfl

@[simp] theorem setProc_locks (s : State) (p : Nat) (proc : Proc) :
    (s.setProc p proc).locks = s.locks := rfl

@[simp] theorem setProc_procs (s : State) (p : Nat) (proc : Proc) :
    (s.setProc p proc).procs = Function.update s.procs p proc := rfl

end State

/-! ### `proc.c` -/

/-- `SLEEP_TIMEOUT` -/
def SLEEP_TIMEOUT : Nat := 100

/-- `sleep(chan, lk)`, up to the switch to the scheduler. -/
def sleep (s : State) (p : Nat) (chan : Addr) : State :=
  s.setProc p { s.procs p with chan := some chan, state := .sleeping, place := .waiting chan }

def wakeup (s : State) (chan : Addr) : State :=
  { s with procs := fun p =>
      if (s.procs p).state = .sleeping ∧ (s.procs p).chan = some chan then
        { s.procs p with state := .runnable }
      else
        s.procs p }

/-- The check for a timeout in the loop of `schedule`. -/
def checkTimeout (proc : Proc) : Proc :=
  if proc.state = .sleeping then
    if SLEEP_TIMEOUT < proc.sleepTicks + 1 then
      { proc with state := .runnable, sleepTicks := 0 }
    else
      { proc with sleepTicks := proc.sleepTicks + 1 }
  else
    { proc with sleepTicks := 0 }

/-- The body of the loop of `schedule`, up to the switch to the process. -/
def schedule (s : State) (p : Nat) : State :=
  let proc := checkTimeout (s.procs p)
  s.setProc p (if proc.state = .runnable then { proc with state := .running } else proc)

/-- `yield`, up to the switch to the scheduler. -/
def yield (s : State) (p : Nat) : State :=
  s.setProc p { s.procs p with state := .runnable }

/-- A process in slot `p`, as `alloc_proc` and its callers leave it. -/
def create (s : State) (p : Nat) : State :=
  s.setProc p { s.procs p with state := .runnable, pid := p, place := .outside }

/-- `exit_proc`, and `free_proc` by the parent. -/
def reap (s : State) (p : Nat) : State :=
  s.setProc p { s.procs p with state := .unused, pid := 0, chan := none }

/-! ### `sleeplock.c` -/

/-- The loop of `acquiresleep`: the process sleeps, or takes the lock. -/
def acquireLoop (s : State) (p : Nat) (lk : Addr) : State :=
  if (s.locks lk).locked then
    sleep s p lk
  else
    (s.setLock lk ⟨true, (s.procs p).pid⟩).setProc p { s.procs p with
      place := .outside, inside := Function.update (s.procs p).inside lk true }

/-- `acquiresleep`, until it sleeps for the first time or ends. -/
def acquiresleep (s : State) (p : Nat) (lk : Addr) : Except String State :=
  if (s.locks lk).locked ∧ (s.locks lk).pid = (s.procs p).pid then
    .error "acquiresleep: recursive lock"
  else
    .ok (acquireLoop s p lk)

/-- `sleep` in `acquiresleep`, from the switch back on, and the next turn of the loop. -/
def resume (s : State) (p : Nat) (lk : Addr) : State :=
  acquireLoop (s.setProc p { s.procs p with chan := none }) p lk

def releasesleep (s : State) (p : Nat) (lk : Addr) : Except String State :=
  if (s.locks lk).locked = false then
    .error "releasesleep: lock not held"
  else if (s.locks lk).pid ≠ (s.procs p).pid then
    .error "releasesleep: not lock owner"
  else
    .ok (wakeup ((s.setLock lk ⟨false, 0⟩).setProc p { s.procs p with
      inside := Function.update (s.procs p).inside lk false }) lk)

def holdingsleep (s : State) (p : Nat) (lk : Addr) : Bool :=
  (s.locks lk).locked ∧ (s.locks lk).pid = (s.procs p).pid

/-! ### Runs -/

inductive Action
  | acquiresleep (p : Nat) (lk : Addr)
  | resume (p : Nat) (lk : Addr)
  | releasesleep (p : Nat) (lk : Addr)
  | wakeup (chan : Addr)
  | schedule (p : Nat)
  | yield (p : Nat)
  | create (p : Nat)
  | reap (p : Nat)

/-- What can happen next.  A process that has just gone to sleep is still on the processor until it
has switched, so an interrupt may find it sleeping. -/
def Enabled (s : State) : Action → Prop
  | .acquiresleep p _ => (s.procs p).state = .running ∧ (s.procs p).place = .outside
  | .resume p lk => (s.procs p).state = .running ∧ (s.procs p).place = .waiting lk
  | .releasesleep p _ => (s.procs p).state = .running ∧ (s.procs p).place = .outside
  | .wakeup _ => True
  | .schedule _ => True
  | .yield p => (s.procs p).state = .running ∨ (s.procs p).state = .sleeping
  | .create p => (s.procs p).state = .unused
  | .reap p => (s.procs p).place = .outside ∧ ∀ lk, (s.procs p).inside lk = false

def run (s : State) : Action → Except String State
  | .acquiresleep p lk => acquiresleep s p lk
  | .resume p lk => .ok (resume s p lk)
  | .releasesleep p lk => releasesleep s p lk
  | .wakeup chan => .ok (wakeup s chan)
  | .schedule p => .ok (schedule s p)
  | .yield p => .ok (yield s p)
  | .create p => .ok (create s p)
  | .reap p => .ok (reap s p)

/-- A step that is no panic. -/
def Step (s t : State) : Prop := ∃ a, Enabled s a ∧ run s a = .ok t

/-- Every lock as `initsleeplock` leaves it, and no process in a function of `sleeplock.c`. -/
structure Initial (s : State) : Prop where
  locks : ∀ lk, s.locks lk = ⟨false, 0⟩
  pid : ∀ p, (s.procs p).state ≠ .unused → (s.procs p).pid = p
  place : ∀ p, (s.procs p).place = .outside
  inside : ∀ p lk, (s.procs p).inside lk = false

/-- A lock is taken just if some process is inside, and it has the number of that process. -/
structure Inv (s : State) : Prop where
  pid : ∀ p, (s.procs p).state ≠ .unused → (s.procs p).pid = p
  used : ∀ p lk, (s.procs p).inside lk = true → (s.procs p).state ≠ .unused
  taken : ∀ p lk, (s.procs p).inside lk = true → (s.locks lk).locked = true ∧ (s.locks lk).pid = p
  owner : ∀ lk, (s.locks lk).locked = true → ∃ p, (s.procs p).inside lk = true

section Steps

variable {s t : State} {p : Nat} {lk : Addr}

theorem Initial.inv (h : Initial s) : Inv s := by
  refine ⟨h.pid, fun p lk is => ?_, fun p lk is => ?_, fun lk is => ?_⟩
  · rw [h.inside] at is
    cases is
  · rw [h.inside] at is
    cases is
  · rw [h.locks] at is
    cases is

theorem Inv.unique (h : Inv s) {q : Nat} (one : (s.procs p).inside lk = true)
    (two : (s.procs q).inside lk = true) : p = q :=
  (h.taken p lk one).2.symm.trans (h.taken q lk two).2

/-- A process that is inside is the one whose number the lock has. -/
theorem Inv.inside_iff (h : Inv s) (used : (s.procs p).state ≠ .unused) :
    (s.procs p).inside lk = true ↔ (s.locks lk).locked = true ∧ (s.locks lk).pid = (s.procs p).pid := by
  rw [h.pid p used]
  constructor
  · exact h.taken p lk
  · rintro ⟨locked, named⟩
    obtain ⟨q, is⟩ := h.owner lk locked
    have same := (h.taken q lk is).2.symm.trans named
    exact same ▸ is

/-- Steps that change no lock and let no process in or out. -/
theorem Inv.congr (h : Inv s) (locks : t.locks = s.locks)
    (inside : ∀ q, (t.procs q).inside = (s.procs q).inside)
    (pid : ∀ q, (t.procs q).state ≠ .unused → (t.procs q).pid = q)
    (used : ∀ q, (∃ lk, (s.procs q).inside lk = true) → (s.procs q).state ≠ .unused →
      (t.procs q).state ≠ .unused) : Inv t := by
  refine ⟨pid, fun q lk is => ?_, fun q lk is => ?_, fun lk is => ?_⟩
  · rw [inside] at is
    exact used q ⟨lk, is⟩ (h.used q lk is)
  · rw [inside] at is
    rw [locks]
    exact h.taken q lk is
  · rw [locks] at is
    obtain ⟨q, this⟩ := h.owner lk is
    exact ⟨q, by rw [inside]; exact this⟩

/-- A process changes in what does not matter for the locks. -/
theorem Inv.setProc (h : Inv s) {proc : Proc} (inside : proc.inside = (s.procs p).inside)
    (pid : proc.state ≠ .unused → proc.pid = p)
    (used : (∃ lk, (s.procs p).inside lk = true) → proc.state ≠ .unused) : Inv (s.setProc p proc) := by
  apply h.congr (t := s.setProc p proc) rfl
  · intro q
    by_cases here : q = p
    · rw [here, State.setProc_procs, Function.update_self, inside]
    · rw [State.setProc_procs, Function.update_of_ne here]
  · intro q live
    by_cases here : q = p
    · rw [here, State.setProc_procs, Function.update_self] at live ⊢
      exact pid live
    · rw [State.setProc_procs, Function.update_of_ne here] at live ⊢
      exact h.pid q live
  · intro q some live
    by_cases here : q = p
    · rw [here, State.setProc_procs, Function.update_self]
      exact used (here ▸ some)
    · rw [State.setProc_procs, Function.update_of_ne here]
      exact live

theorem wakeup_inv (h : Inv s) (chan : Addr) : Inv (wakeup s chan) := by
  have same : ∀ q, ((wakeup s chan).procs q).inside = (s.procs q).inside ∧
      ((wakeup s chan).procs q).pid = (s.procs q).pid ∧
      (((wakeup s chan).procs q).state ≠ .unused ↔ (s.procs q).state ≠ .unused) := by
    intro q
    unfold wakeup
    dsimp only
    split
    · next asleep => exact ⟨rfl, rfl, by simp [asleep.1]⟩
    · exact ⟨rfl, rfl, Iff.rfl⟩
  apply h.congr (t := wakeup s chan) rfl fun q => (same q).1
  · intro q live
    rw [(same q).2.1]
    exact h.pid q ((same q).2.2.mp live)
  · intro q _ live
    exact (same q).2.2.mpr live

theorem sleep_inv (h : Inv s) (used : (s.procs p).state ≠ .unused) (chan : Addr) :
    Inv (sleep s p chan) :=
  h.setProc rfl (fun _ => h.pid p used) fun _ => by simp

/-- A free lock is taken, or the process sleeps. -/
theorem acquireLoop_inv (h : Inv s) (used : (s.procs p).state ≠ .unused) (lk : Addr) :
    Inv (acquireLoop s p lk) := by
  unfold acquireLoop
  split
  · exact sleep_inv h used lk
  · next free =>
    have nobody : ∀ q, (s.procs q).inside lk = false := by
      intro q
      cases is : (s.procs q).inside lk with
      | false => rfl
      | true => exact absurd (h.taken q lk is).1 free
    have number := h.pid p used
    refine ⟨fun q live => ?_, fun q a is => ?_, fun q a is => ?_, fun a is => ?_⟩
    · by_cases here : q = p
      · rw [here, State.setProc_procs, Function.update_self]
        exact number
      · rw [State.setProc_procs, Function.update_of_ne here] at live ⊢
        exact h.pid q live
    · by_cases here : q = p
      · rw [here, State.setProc_procs, Function.update_self]
        exact used
      · rw [State.setProc_procs, Function.update_of_ne here] at is ⊢
        exact h.used q a is
    · rw [State.setProc_locks, State.setLock_locks]
      by_cases this : a = lk
      · rw [this, Function.update_self]
        refine ⟨rfl, ?_⟩
        by_cases here : q = p
        · rw [here]
          exact number
        · rw [State.setProc_procs, Function.update_of_ne here, this] at is
          exact absurd is (by rw [State.setLock_procs, nobody]; decide)
      · rw [Function.update_of_ne this]
        by_cases here : q = p
        · rw [here, State.setProc_procs, Function.update_self] at is
          change Function.update (s.procs p).inside lk true a = true at is
          rw [Function.update_of_ne this] at is
          exact here ▸ h.taken p a is
        · rw [State.setProc_procs, Function.update_of_ne here] at is
          exact h.taken q a is
    · rw [State.setProc_locks, State.setLock_locks] at is
      by_cases this : a = lk
      · refine ⟨p, ?_⟩
        rw [State.setProc_procs, Function.update_self, this]
        exact Function.update_self ..
      · rw [Function.update_of_ne this] at is
        obtain ⟨q, owner⟩ := h.owner a is
        refine ⟨q, ?_⟩
        by_cases here : q = p
        · rw [here, State.setProc_procs, Function.update_self]
          show Function.update (s.procs p).inside lk true a = true
          rw [Function.update_of_ne this, ← here]
          exact owner
        · rw [State.setProc_procs, Function.update_of_ne here]
          exact owner

theorem acquiresleep_inv (h : Inv s) (used : (s.procs p).state ≠ .unused)
    (done : acquiresleep s p lk = .ok t) : Inv t := by
  unfold acquiresleep at done
  split at done
  · cases done
  · cases done
    exact acquireLoop_inv h used lk

theorem resume_inv (h : Inv s) (used : (s.procs p).state ≠ .unused) (lk : Addr) :
    Inv (resume s p lk) := by
  apply acquireLoop_inv
  · exact h.setProc rfl (fun _ => h.pid p used) fun _ => used
  · rw [State.setProc_procs, Function.update_self]
    exact used

theorem releasesleep_inv (h : Inv s) (used : (s.procs p).state ≠ .unused)
    (done : releasesleep s p lk = .ok t) : Inv t := by
  unfold releasesleep at done
  split at done
  · cases done
  split at done
  · cases done
  · next locked named =>
    cases done
    apply wakeup_inv
    -- the process that releases the lock is the one inside
    have own : ∀ q, (s.procs q).inside lk = true → q = p := by
      intro q is
      have number := h.pid p used
      exact (h.taken q lk is).2.symm.trans ((not_not.mp named).trans number)
    refine ⟨fun q live => ?_, fun q a is => ?_, fun q a is => ?_, fun a is => ?_⟩
    · by_cases here : q = p
      · rw [here, State.setProc_procs, Function.update_self]
        exact h.pid p used
      · rw [State.setProc_procs, Function.update_of_ne here] at live ⊢
        exact h.pid q live
    · by_cases here : q = p
      · rw [here, State.setProc_procs, Function.update_self]
        exact used
      · rw [State.setProc_procs, Function.update_of_ne here] at is ⊢
        exact h.used q a is
    · rw [State.setProc_locks, State.setLock_locks]
      by_cases this : a = lk
      · subst this
        by_cases here : q = p
        · rw [here, State.setProc_procs, Function.update_self] at is
          change Function.update (s.procs p).inside a false a = true at is
          rw [Function.update_self] at is
          cases is
        · rw [State.setProc_procs, Function.update_of_ne here] at is
          exact absurd (own q is) here
      · rw [Function.update_of_ne this]
        by_cases here : q = p
        · rw [here, State.setProc_procs, Function.update_self] at is
          change Function.update (s.procs p).inside lk false a = true at is
          rw [Function.update_of_ne this] at is
          exact here ▸ h.taken p a is
        · rw [State.setProc_procs, Function.update_of_ne here] at is
          exact h.taken q a is
    · rw [State.setProc_locks, State.setLock_locks] at is
      by_cases this : a = lk
      · rw [this, Function.update_self] at is
        cases is
      · rw [Function.update_of_ne this] at is
        obtain ⟨q, owner⟩ := h.owner a is
        refine ⟨q, ?_⟩
        by_cases here : q = p
        · rw [here, State.setProc_procs, Function.update_self]
          show Function.update (s.procs p).inside lk false a = true
          rw [Function.update_of_ne this, ← here]
          exact owner
        · rw [State.setProc_procs, Function.update_of_ne here]
          exact owner

theorem checkTimeout_same (proc : Proc) : (checkTimeout proc).inside = proc.inside ∧
    (checkTimeout proc).pid = proc.pid ∧
    ((checkTimeout proc).state = .unused ↔ proc.state = .unused) := by
  unfold checkTimeout
  split
  · next asleep =>
    split
    · exact ⟨rfl, rfl, by simp [asleep]⟩
    · exact ⟨rfl, rfl, Iff.rfl⟩
  · exact ⟨rfl, rfl, Iff.rfl⟩

theorem schedule_inv (h : Inv s) (p : Nat) : Inv (schedule s p) := by
  obtain ⟨inside, pid, state⟩ := checkTimeout_same (s.procs p)
  unfold schedule
  dsimp only
  split
  · next runnable =>
    have used : (s.procs p).state ≠ .unused := fun unused => by
      rw [state.mpr unused] at runnable
      cases runnable
    exact h.setProc inside (fun _ => pid.trans (h.pid p used)) fun _ => by simp
  · exact h.setProc inside (fun live => pid.trans (h.pid p fun unused => live (state.mpr unused)))
      fun ⟨a, is⟩ unused => h.used p a is (state.mp unused)

/-- Every step keeps the invariant. -/
theorem Inv.step (h : Inv s) (step : Step s t) : Inv t := by
  obtain ⟨a, enabled, done⟩ := step
  cases a with
  | acquiresleep p lk =>
    exact acquiresleep_inv h (by rw [enabled.1]; decide) done
  | resume p lk =>
    cases done
    exact resume_inv h (by rw [enabled.1]; decide) lk
  | releasesleep p lk =>
    exact releasesleep_inv h (by rw [enabled.1]; decide) done
  | wakeup chan =>
    cases done
    exact wakeup_inv h chan
  | schedule p =>
    cases done
    exact schedule_inv h p
  | yield p =>
    cases done
    have used : (s.procs p).state ≠ .unused := by
      rcases enabled with is | is <;> rw [is] <;> decide
    exact h.setProc rfl (fun _ => h.pid p used) fun _ => by simp
  | create p =>
    cases done
    exact h.setProc rfl (fun _ => rfl) fun ⟨lk, is⟩ => absurd enabled (h.used p lk is)
  | reap p =>
    cases done
    refine h.setProc rfl (fun live => absurd rfl live) fun ⟨lk, is⟩ => ?_
    rw [enabled.2] at is
    cases is

/-- A process releases only locks that it has acquired, and acquires none that it holds. -/
def Disciplined (s : State) : Action → Prop
  | .acquiresleep p lk => (s.procs p).inside lk = false
  | .releasesleep p lk => (s.procs p).inside lk = true
  | _ => True

theorem run_disciplined (h : Inv s) {a : Action} (enabled : Enabled s a)
    (disciplined : Disciplined s a) : ∃ t, run s a = .ok t := by
  cases a with
  | acquiresleep p lk =>
    have used : (s.procs p).state ≠ .unused := by rw [enabled.1]; decide
    have other : ¬ ((s.locks lk).locked = true ∧ (s.locks lk).pid = (s.procs p).pid) := by
      rw [← h.inside_iff used, disciplined]
      decide
    exact ⟨_, if_neg other⟩
  | releasesleep p lk =>
    have used : (s.procs p).state ≠ .unused := by rw [enabled.1]; decide
    obtain ⟨locked, named⟩ := (h.inside_iff used).mp disciplined
    exact ⟨_, (if_neg (by rw [locked]; decide)).trans (if_neg (not_not.mpr named))⟩
  | _ => exact ⟨_, rfl⟩

end Steps

/-- Two processes, of which the first runs. -/
def two : State where
  locks _ := ⟨false, 0⟩
  procs p := ⟨if p = 0 then .running else if p = 1 then .runnable else .unused, p, none, 0, .outside,
    fun _ => false⟩

theorem two_initial : Initial two := ⟨fun _ => rfl, fun _ _ => rfl, fun _ => rfl, fun _ _ => rfl⟩

/-- The first process takes the lock at address 0, and the second one goes to sleep for it. -/
theorem two_run : ∃ t, ReflTransGen Step two t ∧ (t.procs 0).inside 0 = true ∧
    (t.procs 1).place = .waiting 0 := by
  have first : Step two (acquireLoop two 0 0) := ⟨.acquiresleep 0 0, ⟨rfl, rfl⟩, rfl⟩
  have second : Step _ (yield (acquireLoop two 0 0) 0) := ⟨.yield 0, .inl rfl, rfl⟩
  have third : Step _ (schedule (yield (acquireLoop two 0 0) 0) 1) := ⟨.schedule 1, trivial, rfl⟩
  have fourth : Step (schedule (yield (acquireLoop two 0 0) 0) 1)
      (acquireLoop (schedule (yield (acquireLoop two 0 0) 0) 1) 1 0) :=
    ⟨.acquiresleep 1 0, ⟨rfl, rfl⟩, by simp only [run, acquiresleep]; rw [if_neg (by decide)]⟩
  exact ⟨_, .head first (.head second (.head third (.single fourth))), rfl, rfl⟩

end Xv6Lab.Sleep

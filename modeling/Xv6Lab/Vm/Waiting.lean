import Xv6Lab.Vm.Fork
import Xv6Lab.Vm.UserAccess

/-! `SYS_wait` as a whole.  `wait_proc` frees the child that it has found, and only then is the
status copied to the user: a call whose address is not mapped fails after the child is gone.  A
call takes as many turns of the loop of `wait_proc` as it has to, and other processes run between
them. -/

namespace Xv6Lab.Vm

open Rv64 Sv39 Exec Relation
open Trap (Field)

/-! ### The code -/

/-- The bytes of `kstatus`. -/
def statusByte (status : Int) (i : Nat) : BitVec 8 :=
  (BitVec.ofInt 32 status >>> (8 * i)).setWidth 8

/-- `havekids` of `wait_proc`. -/
def Kernel.hasKids (s : Kernel) (p : Slot) : Prop :=
  ∃ q, (s.procs q).state ≠ .unused ∧ (s.procs q).state ≠ .zombie ∧ (s.procs q).parent = some p

instance (s : Kernel) (p : Slot) : Decidable (s.hasKids p) :=
  inferInstanceAs (Decidable (∃ _, _))

/-- What `SYS_wait` makes of a pid and a status that `wait_proc` has returned. -/
def copyStatus (p : Slot) (uaddr : Word) (pid status : Int) : K Int := do
  if 0 ≤ pid ∧ uaddr ≠ 0 then
    let s ← get
    let (r, _) ← copyout (s.procs p).pagetable uaddr (statusByte status) 4
    pure (if r < 0 then -1 else pid)
  else
    pure pid

/-- `SYS_wait` of process `p`, from the start of a turn of the loop of `wait_proc` on: its result,
which it has left in `a0`, or nothing if the process has to wait for another turn. -/
def sysWait (p : Slot) (uaddr : Word) : K (Option Int) := do
  let s ← get
  let tf := (s.procs p).trapframe
  match ← reapZombie p with
  | some (pid, status) =>
    let r ← copyStatus p uaddr pid status
    storeField tf (.reg .a0) (BitVec.ofInt 64 r)
    pure (some r)
  | none =>
    if s.hasKids p then
      pure none
    else
      storeField tf (.reg .a0) (BitVec.ofInt 64 (-1))
      pure (some (-1))

/-- What happens while process `p` is in `SYS_wait`: a turn of its loop ends in `yield`, and others
run. -/
inductive WaitStep (p : Slot) : Kernel → Kernel → Prop
  | turn {s} (cur : s.current = some p) (empty : s.zombieChild p = none) (kids : s.hasKids p) :
      WaitStep p s { s.setProc p { s.procs p with state := .runnable } with current := none }
  | other {s t} (away : s.current ≠ some p) (step : Step s t) : WaitStep p s t

abbrev Waits (p : Slot) : Kernel → Kernel → Prop := ReflTransGen (WaitStep p)

/-! ### What a failed call should leave -/

/-- `q` is a zombie that `p` can collect. -/
def Kernel.zombieOf (s : Kernel) (p q : Slot) : Prop :=
  (s.procs q).state = .zombie ∧ (s.procs q).parent = some p

/-- The zombies of `p` are still there, with what a later call returns for them. -/
def NobodyReaped (p : Slot) (s t : Kernel) : Prop :=
  ∀ q, s.zombieOf p q → t.zombieOf p q ∧ (t.procs q).pid = (s.procs q).pid ∧
    (t.procs q).exitStatus = (s.procs q).exitStatus

/-- The register `a0` that process `p` gets back. -/
def Kernel.a0 (s : Kernel) (p : Slot) : Word := Trap.get s.mem (s.procs p).trapframe (.reg .a0)

/-- Every byte of the status has a place. -/
def StatusFits (s : Kernel) (p : Slot) (uaddr : Word) : Prop :=
  ∀ i < 4, userVa2pa s.mem (s.procs p).pagetable (uaddr + BitVec.ofNat 64 i) ≠ 0

/-- No status is asked for, there is none, or it fits. -/
def Deliverable (s : Kernel) (p : Slot) (uaddr : Word) : Prop :=
  uaddr = 0 ∨ s.zombieChild p = none ∨ StatusFits s p uaddr

instance (s : Kernel) (p : Slot) (uaddr : Word) : Decidable (StatusFits s p uaddr) :=
  inferInstanceAs (Decidable (∀ i < 4, _))

variable {s t u x : Kernel} {o : Owners} {p q z : Slot} {uaddr : Word} {r : Int}

theorem zombieChild_of (found : s.zombieChild p = some z) : s.zombieOf p z := by
  show _ ∧ _
  simpa using List.find?_some found

/-! ### While the process waits -/

/-- A process in the table has its slot as its pid. -/
def Numbered (s : Kernel) : Prop := ∀ q, s.live q → (s.procs q).pid = q.val

theorem Numbered.step (h : Numbered s) (inv : Inv s o) {a : Act} (act : Acts a s t) :
    Numbered t := by
  have born : ∀ {r}, Born r s t → Numbered t := by
    rintro r (⟨-, same⟩ | ⟨c, -, spawned⟩) q live
    · rw [same]
      exact h q (by rwa [Kernel.live, same] at live)
    · by_cases new : q = c
      · rw [new, spawned.pid]
      · rw [spawned.others q new]
        exact h q (by rwa [Kernel.live, spawned.others q new] at live)
  have same : (∀ p, SameLife (t.procs p) (s.procs p)) → Numbered t := by
    intro same q live
    rw [(same q).pid]
    exact h q fun unused => live ((same q).unused.mpr unused)
  have effect := act.effect inv
  cases a with
  | createKernelProc r => exact born effect
  | createUserProc r => exact born effect
  | fork p r => exact born effect
  | exit p status =>
    obtain ⟨cur, rfl⟩ := effect
    intro q live
    by_cases me : q = p
    · subst me
      simpa [Kernel.exited] using h q (by simp [Kernel.live, inv.current q cur])
    · simpa [Kernel.exited, me] using h q (by simpa [Kernel.live, Kernel.exited, me] using live)
  | wait p r =>
    cases r with
    | none =>
      obtain rfl : t = s := effect
      exact h
    | some found =>
      obtain ⟨-, z, -, -, -, gone⟩ := effect
      intro q live
      have other : q ≠ z := fun same => live (same ▸ gone.unused)
      rw [gone.others q other]
      exact h q (by rwa [Kernel.live, gone.others q other] at live)
  | pageFault va => exact same effect
  | other => exact same effect

theorem Reachable.numbered (reach : Reachable s) : Numbered s := by
  obtain ⟨s₀, booted, run⟩ := reach
  have start : Numbered s₀ := fun q live => absurd (booted.unused q) live
  refine (Transition.invariant (I := fun t => Numbered t ∧ ∃ o, Inv t o)
    (fun t u ⟨h, o, inv⟩ step => ?_) ⟨start, booted.inv⟩ run).1
  obtain ⟨a, act⟩ := inv.acts step
  exact ⟨h.step inv act, (inv.step step).imp fun _ next => next.inv⟩

/-- A step of another process leaves alone who is waiting, and its zombies. -/
theorem Acts.kept {a : Act} (act : Acts a s t) (inv : Inv s o) (away : s.current ≠ some p)
    (mine : (q = p ∧ s.live q ∧ (s.procs q).state ≠ .zombie) ∨ s.zombieOf p q) :
    SameLife (t.procs q) (s.procs q) := by
  have live : s.live q := by
    rcases mine with ⟨-, live, -⟩ | zombie
    · exact live
    · simp [Kernel.live, zombie.1]
  have same : t.procs q = s.procs q → SameLife (t.procs q) (s.procs q) := fun same => by
    rw [same]
    exact .refl _
  have born : ∀ {r}, Born r s t → SameLife (t.procs q) (s.procs q) := by
    rintro r (⟨-, kept⟩ | ⟨c, -, spawned⟩)
    · exact same (by rw [kept])
    · refine same (spawned.others q ?_)
      rintro rfl
      exact live (nextSlot_unused spawned.chosen)
  have effect := act.effect inv
  cases a with
  | createKernelProc r => exact born effect
  | createUserProc r => exact born effect
  | fork p r => exact born effect
  | exit c status =>
    obtain ⟨cur, rfl⟩ := effect
    refine same (Function.update_of_ne ?_ _ _)
    rintro rfl
    rcases mine with ⟨rfl, -, -⟩ | zombie
    · exact away cur
    · have running := inv.current q cur
      rw [zombie.1] at running
      cases running
  | wait c r =>
    cases r with
    | none =>
      obtain rfl : t = s := effect
      exact .refl _
    | some found =>
      obtain ⟨cur, z, is, -, -, gone⟩ := effect
      refine same (gone.others q ?_)
      rintro rfl
      have reaped := zombieChild_of is
      rcases mine with ⟨rfl, -, notZombie⟩ | zombie
      · exact notZombie reaped.1
      · exact away (cur.trans (reaped.2.symm.trans zombie.2))
  | pageFault va => exact effect q
  | other => exact effect q

theorem WaitStep.step (h : WaitStep p s t) : Step s t := by
  cases h with
  | turn cur empty kids => exact .yield p cur
  | other away step => exact step

theorem Waits.steps (h : Waits p s t) : ReflTransGen Step s t :=
  ReflTransGen.mono (fun _ _ step => WaitStep.step step) _ _ h

theorem Reachable.waits (reach : Reachable s) (h : Waits p s t) : Reachable t := by
  obtain ⟨s₀, booted, run⟩ := reach
  exact ⟨s₀, booted, run.trans h.steps⟩

theorem WaitStep.kept (inv : Inv s o) (h : WaitStep p s t)
    (mine : (q = p ∧ s.live q ∧ (s.procs q).state ≠ .zombie) ∨ s.zombieOf p q) :
    SameLife (t.procs q) (s.procs q) := by
  cases h with
  | turn cur empty kids =>
    have running := inv.current p cur
    have same : SameLife { s.procs p with state := .runnable } (s.procs p) :=
      ⟨⟨by simp [running], rfl, rfl, rfl, rfl, rfl⟩, by simp [running], rfl, rfl, rfl⟩
    exact same.assign q
  | other away step =>
    obtain ⟨a, act⟩ := inv.acts step
    exact act.kept inv away mine

/-- While a process waits, its zombies stay. -/
theorem Waits.zombie (reach : Reachable s) (h : Waits p s t) (zombie : s.zombieOf p q) :
    t.zombieOf p q ∧ (t.procs q).pid = (s.procs q).pid ∧
      (t.procs q).exitStatus = (s.procs q).exitStatus := by
  induction h with
  | refl => exact ⟨zombie, rfl, rfl⟩
  | @tail x y before step ih =>
    obtain ⟨still, pid, status⟩ := ih
    obtain ⟨o, inv⟩ := (reach.waits before).inv
    have same := step.kept inv (.inr still)
    exact ⟨⟨same.zombie.mpr still.1, same.parent.trans still.2⟩, same.pid.trans pid,
      same.exitStatus.trans status⟩

/-- And it stays the process that it is. -/
theorem Waits.self (reach : Reachable s) (cur : s.current = some p) (h : Waits p s t) :
    t.live p ∧ (t.procs p).state ≠ .zombie ∧ (t.procs p).isUser = (s.procs p).isUser := by
  induction h with
  | refl =>
    obtain ⟨o, inv⟩ := reach.inv
    simp [Kernel.live, inv.current p cur]
  | @tail x y before step ih =>
    obtain ⟨live, notZombie, user⟩ := ih
    obtain ⟨o, inv⟩ := (reach.waits before).inv
    have same := step.kept inv (.inl ⟨rfl, live, notZombie⟩)
    exact ⟨fun unused => live (same.unused.mp unused),
      fun zombie => notZombie (same.zombie.mp zombie), same.isUser.trans user⟩

/-! ### One turn -/

/-- A program that nothing stops returns. -/
theorem ok_of_never {α : Type} {x : K α} {Q : α → Kernel → Prop} (spec : wp x Q Never s) :
    ∃ a t, x s = .ok a t ∧ Q a t := by
  unfold wp at spec
  cases run : x s with
  | ok a t =>
    rw [run] at spec
    exact ⟨a, t, rfl, spec⟩
  | error e t =>
    rw [run] at spec
    exact spec.elim

/-- `wait_proc` that finds a zombie works on the pages of that process only. -/
theorem reapZombie_releases (inv : Inv s o) (p : Slot) :
    wp (reapZombie p) (fun r t => (s.zombieChild p = none ∧ r = none ∧ t = s) ∨
      ∃ z, s.zombieChild p = some z ∧ r = some ((s.procs z).pid, (s.procs z).exitStatus) ∧
        (t.procs z).state = .unused ∧ ∃ l l', Releasing z o l l' s t) Never s := by
  obtain ⟨l, chain, -, members⟩ := inv.owns.free
  unfold reapZombie
  simp only [wp_bind, wp_get]
  split
  · next empty => exact .inl ⟨empty, rfl, rfl⟩
  · next z found =>
    have zombie := zombieChild_of found
    rw [wp_bind]
    refine wp_conseq (freeProc_releases inv (by simp [zombie.1]) chain members) ?_
    rintro - t ⟨l', released, unused, -⟩
    exact .inr ⟨z, found, rfl, unused, l, l', released⟩

theorem reapZombie_step (cur : s.current = some p) :
    wp (reapZombie p) (fun _ t => Step s t) (fun _ _ => True) s :=
  wp_of_run (fun r _ run => .wait p cur (.inl ⟨r, run⟩)) fun _ _ _ => trivial

/-- `copyout` stores as the user could. -/
theorem copyoutFrom_steps {pt : Word} (cur : s.current = some p)
    (user : (s.procs p).isUser = true) (table : (s.procs p).pagetable = pt) (dstva : Word)
    (src : Nat → BitVec 8) (left i : Nat) :
    wp (copyoutFrom pt dstva src left i) (fun _ t => ReflTransGen Step s t ∧ t.procs = s.procs ∧
      t.current = s.current) Never s := by
  induction left generalizing i s with
  | zero => exact ⟨.refl, rfl, rfl⟩
  | succ left ih =>
    unfold copyoutFrom
    rw [wp_bind, wp_get]
    dsimp only
    split
    · exact ⟨.refl, rfl, rfl⟩
    · next found =>
      obtain ⟨pte, walk, valid, mine, page⟩ := userVa2pa_page found
      rw [← table] at walk
      have step : Step s (s.setMem (putAt s.mem
          (userVa2pa s.mem pt (dstva + BitVec.ofNat 64 i)) (src i))) := by
        rw [putAt, page]
        exact .store p cur user _ _ _ pte walk valid mine
      have rest := ih (s := s.setMem (putAt s.mem (userVa2pa s.mem pt (dstva + BitVec.ofNat 64 i))
        (src i))) cur user table (i + 1)
      rw [wp_bind]
      show wp (copyoutFrom pt dstva src left (i + 1)) _ Never (s.setMem (putAt s.mem _ (src i)))
      refine wp_conseq rest ?_
      rintro - t ⟨steps, procs, current⟩
      exact ⟨.head step steps, procs, current⟩

/-- The status is copied if there is a place for it. -/
theorem copyStatus_wp (uaddr : Word) (cur : s.current = some p)
    (user : (s.procs p).isUser = true) (separate : Separate s.mem (s.procs p).pagetable)
    {pid : Int} (positive : 0 ≤ pid) (status : Int) : wp (copyStatus p uaddr pid status) (fun r t => ReflTransGen Step s t ∧
      t.procs = s.procs ∧ t.current = s.current ∧
      r = if uaddr = 0 ∨ StatusFits s p uaddr then pid else -1) Never s := by
  unfold copyStatus
  split
  · next wanted =>
    have ends : wp (copyout (s.procs p).pagetable uaddr (statusByte status) 4) _ _ s :=
      wp_and (copyoutFrom_wp (s := s) uaddr (statusByte status) 4 0 rfl)
        (copyoutFrom_steps cur user rfl uaddr (statusByte status) 4 0)
    simp only [wp_bind, wp_get]
    refine wp_mono ends ?_ fun _ _ never => never.1
    rintro ⟨r, n⟩ t ⟨⟨-, -, -, all, how⟩, steps, procs, current⟩
    refine ⟨steps, procs, current, ?_⟩
    have fits : StatusFits s p uaddr ↔ ∀ i < 4, userVa2pa (filled s.mem (s.procs p).pagetable uaddr
        (statusByte status) i) (s.procs p).pagetable (uaddr + BitVec.ofNat 64 i) ≠ 0 :=
      (separate.found_iff uaddr (statusByte status) 4).symm
    rcases how with ⟨rfl, whole⟩ | ⟨rfl, less, missing⟩
    · have placed : StatusFits s p uaddr :=
        fits.mpr fun i inside => all i (Nat.zero_le i) (by omega)
      show pid = _
      exact (if_pos (.inr placed)).symm
    · have unplaced : ¬ (uaddr = 0 ∨ StatusFits s p uaddr) := by
        rintro (null | placed)
        · exact wanted.2 null
        · exact fits.mp placed n (by omega) missing
      show -1 = _
      exact (if_neg unplaced).symm
  · next unwanted =>
    have null : uaddr = 0 := by
      by_contra some
      exact unwanted ⟨positive, some⟩
    exact ⟨.refl, rfl, rfl, (if_pos (.inl null)).symm⟩

/-- What a turn of `SYS_wait` does. -/
inductive Turn (p : Slot) (uaddr : Word) (s : Kernel) : Option Int → Kernel → Prop
  | waits (empty : s.zombieChild p = none) (kids : s.hasKids p) : Turn p uaddr s none s
  | childless {t : Kernel} (empty : s.zombieChild p = none) (kids : ¬ s.hasKids p)
      (procs : t.procs = s.procs) (a0 : t.a0 p = BitVec.ofInt 64 (-1)) :
      Turn p uaddr s (some (-1)) t
  | reaps {t : Kernel} {z : Slot} {r : Int} (found : s.zombieChild p = some z)
      (gone : (t.procs z).state = .unused) (others : ∀ q ≠ z, t.procs q = s.procs q)
      (result : r = if uaddr = 0 ∨ StatusFits s p uaddr then (z.val : Int) else -1)
      (a0 : t.a0 p = BitVec.ofInt 64 r) : Turn p uaddr s (some r) t

/-- A turn of `SYS_wait` returns, and is a run of the machine. -/
theorem sysWait_wp (uaddr : Word) (inv : Inv s o) (cur : s.current = some p)
    (user : (s.procs p).isUser = true) (numbered : Numbered s) :
    wp (sysWait p uaddr) (fun r t => Turn p uaddr s r t ∧
      ReflTransGen Step s t) Never s := by
  have running := inv.current p cur
  have live : s.live p := by simp [Kernel.live, running]
  have separate := inv.separate live user
  unfold sysWait
  simp only [wp_bind, wp_get]
  refine wp_mono (wp_and (reapZombie_releases inv p) (reapZombie_step cur)) ?_ fun _ _ never =>
    never.1
  rintro r t ⟨⟨empty, rfl, rfl⟩ | ⟨z, found, rfl, unused, l, l', released⟩, step⟩
  · dsimp only
    split
    · next kids => exact ⟨.waits empty kids, .refl⟩
    · next kids =>
      exact ⟨.childless empty kids rfl (Trap.get_set_same _ _ _ _),
        .single (.trapframe p cur _ rfl _)⟩
  · have zombie := zombieChild_of found
    have apart : p ≠ z := by
      rintro rfl
      rw [zombie.1] at running
      cases running
    have kept : TableKept (s.procs p).pagetable s t := released.spares.tableKept inv.owns
      (fun same => apart (Option.some.inj same)) ((inv.alive p live).user user).space.root
    have record : t.procs p = s.procs p := released.only.procs p apart
    have current : t.current = s.current := released.only.current
    have fits : StatusFits t p uaddr ↔ StatusFits s p uaddr := by
      unfold StatusFits
      rw [record]
      exact forall_congr' fun i => forall_congr' fun _ => by rw [kept.userVa2pa]
    have pid : (s.procs z).pid = z.val := numbered z (by simp [Kernel.live, zombie.1])
    have positive : 0 ≤ (s.procs z).pid := by omega
    have separate' : Separate t.mem (t.procs p).pagetable := by
      rw [record]
      exact kept.separate separate
    dsimp only
    rw [wp_bind]
    refine wp_conseq (copyStatus_wp uaddr (current.trans cur) (record ▸ user) separate'
      positive (s.procs z).exitStatus) ?_
    rintro r u ⟨steps, procs, current', result⟩
    rw [pid] at result
    simp only [fits] at result
    have frame : (u.procs p).trapframe = (s.procs p).trapframe := by rw [procs, record]
    have cur' : u.current = some p := current'.trans (current.trans cur)
    have last := Step.trapframe p cur' (.reg .a0) rfl (BitVec.ofInt 64 r)
    rw [frame] at last
    refine ⟨.reaps found (by simpa [procs] using unused) (fun q other => ?_) result ?_,
      (ReflTransGen.head step steps).tail last⟩
    · exact (congrFun procs q).trans (released.only.procs q other)
    · show Trap.get (Trap.set u.mem _ _ _) (u.procs p).trapframe _ = _
      rw [frame]
      exact Trap.get_set_same _ _ _ _

theorem sysWait_reachable (reach : Reachable s) (cur : s.current = some p)
    (user : (s.procs p).isUser = true) {r : Option Int} (run : sysWait p uaddr s = .ok r t) :
    Reachable t := by
  obtain ⟨o, inv⟩ := reach.inv
  obtain ⟨s₀, booted, before⟩ := id reach
  exact ⟨s₀, booted, before.trans (wp_ok (sysWait_wp uaddr inv cur user reach.numbered) run).2⟩

/-- The turn that ends a call frees no child and returns -1 where the status can be delivered, and
not otherwise. -/
theorem Turn.reaps_nobody_iff (reach : Reachable s) (waits : Waits p s u)
    (turn : Turn p uaddr u (some r) t) :
    (t.a0 p = -1 → ∀ x, Waits p s x → Waits p x u → NobodyReaped p x t) ↔
      Deliverable u p uaddr := by
  generalize result : some r = r' at turn
  cases turn with
  | waits empty kids => cases result
  | childless empty kids procs a0 =>
    refine iff_of_true (fun _ x before after q zombie => ?_) (.inr (.inl empty))
    rw [Kernel.zombieOf, procs]
    exact after.zombie (reach.waits before) zombie
  | @reaps _ z v found gone others is a0 =>
    obtain rfl := Option.some.inj result
    by_cases fits : uaddr = 0 ∨ StatusFits u p uaddr
    · rw [if_pos fits] at is
      refine iff_of_true (fun failed => ?_) (fits.imp_right .inr)
      rw [a0, is, BitVec.ofInt_natCast] at failed
      have small := z.isLt
      bv_omega
    · rw [if_neg fits] at is
      refine iff_of_false (fun nobody => ?_) ?_
      · have failed : t.a0 p = -1 := by
          rw [a0, is]
          rfl
        have still := (nobody failed u waits .refl z (zombieChild_of found)).1.1
        rw [gone] at still
        cases still
      · rintro (null | empty | placed)
        · exact fits (.inl null)
        · rw [found] at empty
          cases empty
        · exact fits (.inr placed)

/-- A call of `SYS_wait` that leaves -1 in `a0` has freed no child, if and only if in the turn that
ends it no status is asked for, no child is a zombie, or the status fits at its address. -/
theorem failed_wait_iff (reach : Reachable s) (cur : s.current = some p)
    (user : (s.procs p).isUser = true) (waits : Waits p s u) (back : u.current = some p)
    (returns : sysWait p uaddr u = .ok (some r) t) :
    (t.a0 p = -1 → ∀ x, Waits p s x → Waits p x u → NobodyReaped p x t) ↔
      Deliverable u p uaddr := by
  have reach' := reach.waits waits
  obtain ⟨o, inv⟩ := reach'.inv
  obtain ⟨-, -, user'⟩ := waits.self reach cur
  have turn := wp_ok (sysWait_wp uaddr inv back (user'.trans user) reach'.numbered) returns
  exact turn.1.reaps_nobody_iff reach waits

/-! ### A child that is lost -/

theorem exitProc_exits (cur : s.current = some p) (child : (s.procs p).parent ≠ none)
    (status : Int) : (exitProc status : K Unit) s = .error .exited (s.exited p status) := by
  unfold exitProc
  rw [bind_get, cur]
  dsimp only
  rw [if_neg child]
  rfl

/-- A fork that finds a slot leaves the tables of the parent as they are. -/
theorem Inv.sysFork_spawns (inv : Inv s o) (cur : s.current = some p)
    (isUser : (s.procs p).isUser = true) {c : Slot} (run : forkProc p s = .ok c.val t) :
    ∃ t', sysFork p s = .ok () t' ∧ Spawned c s t' ∧ TableKept (s.procs p).pagetable s t' := by
  have alive := inv.alive p (by simp [inv.current p cur])
  have root := (alive.user isUser).space.root
  rcases wp_ok (forkProc_wp inv cur isUser) run with ⟨failed, -⟩ | ⟨c', is, o', forked⟩
  · omega
  obtain rfl : c = c' := Fin.ext (by omega)
  have spawned := forked.spawned
  refine ⟨_, sysFork_ok run,
    ⟨spawned.1, spawned.2, spawned.3, spawned.4, spawned.5, spawned.6⟩, fun ds pg short walk => ?_⟩
  have at_pg := label_eq.mp
    ((inv.owns.tree _).node (label_eq.mpr root) (by simpa using short) walk)
  have apart : pg ≠ (s.procs p).trapframe := by
    rintro rfl
    rw [alive.trapframe] at at_pg
    cases at_pg
  have other : some p ≠ some c := fun same => forked.apart (Option.some.inj same)
  rw [setMem_mem, Trap.set, Trap.set]
  funext off
  rw [Mem.store_page _ _ _ _ apart, Mem.store_page _ _ _ _ apart]
  exact congrFun (forked.spares.tableKept inv.owns other root ds pg short walk) off

/-- Process 0 has forked. -/
@[irreducible] def sampleForked : Kernel := after (sysFork 0) sampleStarted

/-- Its child runs. -/
@[irreducible] def sampleChild : Kernel :=
  let s := { sampleForked.setProc 0 { sampleForked.procs 0 with state := .runnable } with
    current := none }
  { s.setProc 1 { s.procs 1 with state := .running } with current := some 1 }

/-- The child has exited with 7, and process 0 runs again. -/
@[irreducible] def sampleParent : Kernel :=
  let s := sampleChild.exited 1 7
  { s.setProc 0 { s.procs 0 with state := .running } with current := some 0 }

/-- The fork takes slot 1, and leaves the tables of process 0 as they are. -/
theorem sampleForked_spawned : value (sysFork 0) sampleStarted = some () ∧
    Spawned 1 sampleStarted sampleForked ∧
    TableKept (sampleStarted.procs 0).pagetable sampleStarted sampleForked := by
  obtain ⟨cur, isUser⟩ := sampleStarted_current
  obtain ⟨o, inv⟩ := sampleStarted_reachable.inv
  obtain ⟨t, run, spawned, kept⟩ :=
    inv.sysFork_spawns cur isUser (c := 1) (run_of_value sampleStarted_fork)
  unfold sampleForked
  rw [after_ok run]
  exact ⟨value_ok run, spawned, kept⟩

/-- Process 0 runs, and the other slots are unused. -/
theorem sampleStarted_states (q : Slot) : (sampleStarted.procs q).state ≠ .zombie := by
  have boot : Reachable sampleBoot := ⟨_, sampleBoot_booted, .refl⟩
  obtain ⟨o, inv⟩ := boot.inv
  have pid : value (createUserProc (fun _ => 0x73) 4 0x80001000 0x80002000) sampleBoot = some 0 := by
    decide +kernel
  obtain ⟨w, run⟩ : ∃ w, createUserProc (fun _ => 0x73) 4 0x80001000 0x80002000 sampleBoot =
      .ok 0 w := ⟨_, run_of_value pid⟩
  rcases wp_ok (createUserProc_wp inv _ (by decide) _ _) run with ⟨failed, -⟩ | ⟨c, is, o', created⟩
  · cases failed
  obtain rfl : c = 0 := Fin.ext (by omega)
  unfold sampleStarted sampleCreated
  rw [after_ok run]
  by_cases first : q = 0
  · simp [first]
  · simp [first, created.only.procs q first, sampleBoot]

theorem sampleForked_facts : value (sysFork 0) sampleStarted = some () ∧
    sampleForked.current = some 0 ∧ (sampleForked.procs 0).isUser = true ∧
    sampleForked.zombieChild 0 = none ∧ sampleForked.hasKids 0 ∧
    (sampleForked.procs 1).state = .runnable := by
  obtain ⟨value, spawned, -⟩ := sampleForked_spawned
  obtain ⟨cur, isUser⟩ := sampleStarted_current
  have states : ∀ q, (sampleForked.procs q).state ≠ .zombie := by
    intro q
    by_cases child : q = 1
    · rw [child, spawned.runnable]
      decide
    · rw [spawned.others q child]
      exact sampleStarted_states q
  refine ⟨value, spawned.current.trans cur, ?_, ?_, ⟨1, ?_, ?_, spawned.parent.trans cur⟩,
    spawned.runnable⟩
  · rw [spawned.others 0 (by decide)]
    exact isUser
  · simp [Kernel.zombieChild, states]
  · rw [spawned.runnable]
    decide
  · rw [spawned.runnable]
    decide

theorem sampleChild_facts : sampleChild.current = some 1 ∧
    (sampleChild.procs 1).parent = some 0 ∧ (sampleChild.procs 0).state = .runnable := by
  have parent := sampleForked_spawned.2.1.parent.trans sampleStarted_current.1
  -- the state after the fork is kept from being evaluated
  obtain ⟨w, is⟩ : ∃ w, sampleForked = w := ⟨_, rfl⟩
  rw [is] at parent
  unfold sampleChild
  rw [is]
  exact ⟨rfl, by simpa using parent, by simp⟩

/-- The child is the one zombie, and the tables of process 0 are as they were. -/
theorem sampleParent_state (q : Slot) : ((sampleParent.procs q).state = .zombie ↔ q = 1) ∧
    (sampleParent.procs 1).parent = some 0 ∧ sampleParent.mem = sampleForked.mem ∧
    (sampleParent.procs 0).pagetable = (sampleForked.procs 0).pagetable := by
  have parent := sampleForked_spawned.2.1.parent.trans sampleStarted_current.1
  have others : q ≠ 1 → (sampleForked.procs q).state ≠ .zombie := fun other => by
    rw [sampleForked_spawned.2.1.others q other]
    exact sampleStarted_states q
  obtain ⟨w, is⟩ : ∃ w, sampleForked = w := ⟨_, rfl⟩
  rw [is] at parent others ⊢
  unfold sampleParent sampleChild
  rw [is]
  refine ⟨?_, by simpa [Kernel.exited] using parent, rfl, by simp [Kernel.exited]⟩
  by_cases first : q = 0
  · simp [first, Kernel.exited]
  · by_cases second : q = 1
    · simp [second, Kernel.exited]
    · simpa [first, second, Kernel.exited] using others second

/-- The status fits where the program is, and nowhere near address 1. -/
theorem sampleParent_facts : sampleParent.current = some 0 ∧ sampleParent.zombieChild 0 = some 1 ∧
    ¬ StatusFits sampleParent 0 1 ∧ StatusFits sampleParent 0 USER_TEXT_START := by
  obtain ⟨-, spawned, kept⟩ := sampleForked_spawned
  obtain ⟨-, parent, mem, table⟩ := sampleParent_state 0
  have only : ∀ q, (sampleParent.procs q).state = .zombie ∧ (sampleParent.procs q).parent = some 0 ↔
      q = 1 := fun q =>
    ⟨fun zombie => (sampleParent_state q).1.mp zombie.1, fun child =>
      ⟨(sampleParent_state q).1.mpr child, child ▸ parent⟩⟩
  have place : ∀ va, userVa2pa sampleParent.mem (sampleParent.procs 0).pagetable va =
      userVa2pa sampleStarted.mem (sampleStarted.procs 0).pagetable va := by
    intro va
    rw [mem, table, spawned.others 0 (by decide), kept.userVa2pa]
  refine ⟨by unfold sampleParent; rfl, ?_, fun fits => ?_, fun i small => ?_⟩
  · simp only [Kernel.zombieChild, only]
    decide
  · have unmapped : userVa2pa sampleStarted.mem (sampleStarted.procs 0).pagetable 1 = 0 := by
      decide +kernel
    exact fits 0 (by decide) ((place _).trans unmapped)
  · rw [place]
    have mapped : StatusFits sampleStarted 0 USER_TEXT_START := by decide +kernel
    exact mapped i small

theorem sampleForked_reachable : Reachable sampleForked := by
  unfold sampleForked
  exact ⟨_, sampleBoot_booted, sampleStarted_run.tail (step_of_value
    (.fork 0 sampleStarted_current.1 sampleStarted_current.2) sampleForked_facts.1)⟩

/-- Process 0 waits from the fork until its child is a zombie. -/
theorem sampleParent_waits : Waits 0 sampleForked sampleParent := by
  obtain ⟨-, cur, -, empty, kids, ready⟩ := sampleForked_facts
  obtain ⟨cur', parent, ready'⟩ := sampleChild_facts
  have child : Waits 0 sampleForked sampleChild := by
    unfold sampleChild
    refine (ReflTransGen.single (.turn cur empty kids)).tail (.other (by simp) (.dispatch 1 rfl ?_))
    rw [setProc_procs, Function.update_of_ne (by decide)]
    exact ready
  have exits := exitProc_exits cur' (by simp [parent]) 7
  unfold sampleParent
  have away : sampleChild.current ≠ some 0 := by
    rw [cur']
    decide
  refine (child.tail (.other away (.exit 7 (.inr exits)))).tail (.other nofun (.dispatch 0 rfl ?_))
  simpa [Kernel.exited] using ready'

/-- The call of process 0 ends with the turn that finds its child. -/
theorem sampleParent_turn (uaddr : Word) : ∃ r t, sysWait 0 uaddr sampleParent = .ok (some r) t ∧
    Turn 0 uaddr sampleParent (some r) t := by
  have reach := sampleForked_reachable.waits sampleParent_waits
  obtain ⟨o, inv⟩ := reach.inv
  obtain ⟨-, cur, user, -⟩ := sampleForked_facts
  obtain ⟨-, -, user'⟩ := sampleParent_waits.self sampleForked_reachable cur
  obtain ⟨r, t, run, turn, -⟩ := ok_of_never (sysWait_wp uaddr inv sampleParent_facts.1
    (user'.trans user) reach.numbered)
  cases turn with
  | waits empty kids =>
    rw [sampleParent_facts.2.1] at empty
    cases empty
  | childless empty kids procs a0 =>
    rw [sampleParent_facts.2.1] at empty
    cases empty
  | reaps found gone others result a0 => exact ⟨_, _, run, .reaps found gone others result a0⟩

theorem failed_wait_iff_fits : ∃ r t, sysWait 0 USER_TEXT_START sampleParent = .ok (some r) t ∧
    (t.a0 0 = -1 → ∀ x, Waits 0 sampleForked x → Waits 0 x sampleParent → NobodyReaped 0 x t) := by
  obtain ⟨-, cur, user, -⟩ := sampleForked_facts
  obtain ⟨back, -, -, fits⟩ := sampleParent_facts
  obtain ⟨r, t, run, -⟩ := sampleParent_turn USER_TEXT_START
  have deliverable : Deliverable sampleParent 0 USER_TEXT_START := .inr (.inr fits)
  exact ⟨r, t, run, (failed_wait_iff sampleForked_reachable cur user sampleParent_waits back
    run).mpr deliverable⟩

/-- A wait with an address that is not mapped fails, and the child and its status are gone. -/
theorem failed_wait_reaps : Reachable sampleForked ∧ sampleForked.current = some 0 ∧
    (sampleForked.procs 0).isUser = true ∧ Waits 0 sampleForked sampleParent ∧
    sampleParent.current = some 0 ∧ ∃ r t, sysWait 0 1 sampleParent = .ok (some r) t ∧
      ¬ (t.a0 0 = -1 → ∀ x, Waits 0 sampleForked x → Waits 0 x sampleParent →
        NobodyReaped 0 x t) := by
  obtain ⟨-, cur, user, -⟩ := sampleForked_facts
  obtain ⟨back, found, unfit, -⟩ := sampleParent_facts
  obtain ⟨r, t, run, turn⟩ := sampleParent_turn 1
  refine ⟨sampleForked_reachable, cur, user, sampleParent_waits, back, r, t, run, fun nobody => ?_⟩
  rcases (turn.reaps_nobody_iff sampleForked_reachable sampleParent_waits).mp nobody with
    null | empty | fits
  · cases null
  · rw [found] at empty
    cases empty
  · exact unfit fits

end Xv6Lab.Vm

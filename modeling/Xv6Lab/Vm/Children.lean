import Xv6Lab.Vm.History

/-! Parents and children over whole runs.  A slot of the process table holds one process after
another, so runs are observed in a ledger that numbers the processes as they are created and notes
who created each, what it passed to `exit_proc` and what `wait_proc` returned. -/

namespace Xv6Lab.Vm

open Exec Relation

/-- A return of `wait_proc`: the process it returned to, the process that the returned pid names,
and the status. -/
structure Reaped where
  parent : Nat
  child : Nat
  status : Int
  deriving DecidableEq

structure Ledger where
  /-- The number of processes created so far. -/
  born : Nat
  /-- The process that received the pid last. -/
  named : Int → Nat
  creator : Nat → Option Nat
  status : Nat → Option Int
  /-- What `wait_proc` has returned, the latest first. -/
  reaped : List Reaped

def Ledger.empty : Ledger := ⟨0, fun _ => 0, fun _ => none, fun _ => none, []⟩

/-- A call that creates a process has returned `r` to `caller`. -/
def Ledger.birth (g : Ledger) (caller : Option Slot) (r : Int) : Ledger :=
  if r = -1 then g else
    { g with
      born := g.born + 1
      named := Function.update g.named r g.born
      creator := Function.update g.creator g.born (caller.map fun p => g.named p.val) }

/-- The ledger after the step `a` from `s`. -/
def Ledger.record (g : Ledger) (s : Kernel) : Act → Ledger
  | .createKernelProc r | .createUserProc r | .fork _ r => g.birth s.current r
  | .exit p status => { g with status := Function.update g.status (g.named p.val) (some status) }
  | .wait p (some (pid, status)) =>
    { g with reaped := ⟨g.named p.val, g.named pid, status⟩ :: g.reaped }
  | .wait _ none | .pageFault _ | .other => g

/-- One step of a run whose steps are all allowed, and its entry in the ledger. -/
def Recorded (allowed : Kernel → Act → Prop) (x y : Kernel × Ledger) : Prop :=
  ∃ a, allowed x.1 a ∧ Acts a x.1 y.1 ∧ y.2 = x.2.record x.1 a

/-- Each pid that `wait_proc` returned names a process that the caller itself created, with the
status that this process passed to `exit_proc`, and no process was returned twice. -/
structure Ledger.Honest (g : Ledger) : Prop where
  own : ∀ e ∈ g.reaped, g.creator e.child = some e.parent
  status : ∀ e ∈ g.reaped, g.status e.child = some e.status
  once : (g.reaped.map Reaped.child).Nodup

/-- No process in the table has the slot that a creation would take as its parent. -/
def Kernel.nextUnclaimed (s : Kernel) : Prop :=
  ∀ c, s.nextSlot = some c → ∀ q, s.live q → (s.procs q).parent ≠ some c

/-- The step does not create a process in a slot to which a parent pointer still refers. -/
def Unclaimed (s : Kernel) : Act → Prop
  | .createKernelProc _ | .createUserProc _ | .fork _ _ => s.nextUnclaimed
  | _ => True

/-! ### The invariant -/

/-- The ledger knows the processes in the table, and is in order. -/
structure Ledger.Agrees (g : Ledger) (s : Kernel) : Prop extends Honest g where
  pid : ∀ q, s.live q → (s.procs q).pid = q.val
  known : ∀ q : Slot, s.live q → g.named q.val < g.born
  distinct : ∀ p q : Slot, s.live p → s.live q → g.named p.val = g.named q.val → p = q
  parent : ∀ p q, s.live p → s.live q → (s.procs q).parent = some p →
    g.creator (g.named q.val) = some (g.named p.val)
  zombie : ∀ q, (s.procs q).state = .zombie → g.status (g.named q.val) = some (s.procs q).exitStatus
  past : ∀ e ∈ g.reaped, e.child < g.born
  gone : ∀ e ∈ g.reaped, ∀ q : Slot, s.live q → g.named q.val ≠ e.child

variable {s t s₀ : Kernel} {o : Owners} {g g' : Ledger} {a : Act} {p q c : Slot}

theorem Ledger.empty_agrees (unused : ∀ p, (s.procs p).state = .unused) : Ledger.empty.Agrees s where
  own _ impossible := absurd impossible (by simp [Ledger.empty])
  status _ impossible := absurd impossible (by simp [Ledger.empty])
  once := List.nodup_nil
  pid q live := absurd (unused q) live
  known q live := absurd (unused q) live
  distinct p _ live := absurd (unused p) live
  parent p _ live := absurd (unused p) live
  zombie q is := by
    rw [unused q] at is
    cases is
  past _ impossible := absurd impossible (by simp [Ledger.empty])
  gone _ impossible := absurd impossible (by simp [Ledger.empty])

/-- Steps that leave every process at its stage keep the agreement. -/
theorem Ledger.Agrees.same (agrees : g.Agrees s) (same : ∀ p, SameLife (t.procs p) (s.procs p)) :
    g.Agrees t := by
  have live : ∀ q, t.live q → s.live q := fun q used unused => used ((same q).unused.mpr unused)
  refine ⟨agrees.toHonest, fun q is => ?_, fun q is => agrees.known q (live q is),
    fun p q hp hq => agrees.distinct p q (live p hp) (live q hq), fun p q hp hq child => ?_,
    fun q is => ?_, agrees.past, fun e inside q is => agrees.gone e inside q (live q is)⟩
  · rw [(same q).pid]
    exact agrees.pid q (live q is)
  · rw [(same q).parent] at child
    exact agrees.parent p q (live p hp) (live q hq) child
  · rw [(same q).exitStatus]
    exact agrees.zombie q ((same q).zombie.mp is)

section Birth

variable (g : Ledger) (caller : Option Slot)

theorem Ledger.birth_slot (c : Slot) : g.birth caller c.val =
    ⟨g.born + 1, Function.update g.named c.val g.born,
      Function.update g.creator g.born (caller.map fun p => g.named p.val), g.status, g.reaped⟩ :=
  if_neg (by omega)

variable {g caller}

theorem Ledger.birth_born : (g.birth caller c.val).born = g.born + 1 := by
  rw [birth_slot]

theorem Ledger.birth_status : (g.birth caller c.val).status = g.status := by
  rw [birth_slot]

theorem Ledger.birth_reaped : (g.birth caller c.val).reaped = g.reaped := by
  rw [birth_slot]

theorem Ledger.birth_named_self : (g.birth caller c.val).named c.val = g.born := by
  rw [birth_slot]
  exact Function.update_self ..

theorem Ledger.birth_named_other (other : q ≠ c) :
    (g.birth caller c.val).named q.val = g.named q.val := by
  have ne : (q.val : Int) ≠ c.val := fun eq => other (Fin.ext (by exact_mod_cast eq))
  rw [birth_slot]
  exact Function.update_of_ne ne _ _

theorem Ledger.birth_creator_self :
    (g.birth caller c.val).creator g.born = caller.map fun p => g.named p.val := by
  rw [birth_slot]
  exact Function.update_self ..

theorem Ledger.birth_creator_before {n : Nat} (before : n < g.born) :
    (g.birth caller c.val).creator n = g.creator n := by
  rw [birth_slot]
  exact Function.update_of_ne (by omega) _ _

end Birth

/-- A new process in a slot that no process has as its parent. -/
theorem Ledger.Agrees.spawned (agrees : g.Agrees s) (inv : Inv s o) (spawned : Spawned c s t)
    (unclaimed : s.nextUnclaimed) : (g.birth s.current c.val).Agrees t := by
  have unused : (s.procs c).state = .unused := nextSlot_unused spawned.chosen
  have old : ∀ q, q ≠ c → t.live q → s.live q := by
    intro q other is
    unfold Kernel.live at is ⊢
    rwa [spawned.others q other] at is
  refine ⟨⟨fun e inside => ?_, fun e inside => ?_, ?_⟩, fun q is => ?_, fun q is => ?_,
    fun p q hp hq same => ?_, fun p q hp hq child => ?_, fun q is => ?_, fun e inside => ?_,
    fun e inside q is => ?_⟩
  · rw [birth_reaped] at inside
    rw [birth_creator_before (agrees.past e inside)]
    exact agrees.own e inside
  · rw [birth_reaped] at inside
    rw [birth_status]
    exact agrees.status e inside
  · rw [birth_reaped]
    exact agrees.once
  · by_cases new : q = c
    · rw [new, spawned.pid]
    · rw [spawned.others q new]
      exact agrees.pid q (old q new is)
  · by_cases new : q = c
    · rw [new, birth_named_self, birth_born]
      omega
    · have := agrees.known q (old q new is)
      rw [birth_named_other new, birth_born]
      omega
  · by_cases newP : p = c <;> by_cases newQ : q = c
    · rw [newP, newQ]
    · have := agrees.known q (old q newQ hq)
      rw [newP, birth_named_self, birth_named_other newQ] at same
      omega
    · have := agrees.known p (old p newP hp)
      rw [newQ, birth_named_self, birth_named_other newP] at same
      omega
    · rw [birth_named_other newP, birth_named_other newQ] at same
      exact agrees.distinct p q (old p newP hp) (old q newQ hq) same
  · by_cases newQ : q = c
    · subst newQ
      rw [spawned.parent] at child
      have apart : p ≠ q := by
        intro same
        rw [same] at child
        rw [inv.current q child] at unused
        cases unused
      rw [birth_named_self, birth_creator_self, birth_named_other apart, child]
      rfl
    · rw [spawned.others q newQ] at child
      have apart : p ≠ c := by
        intro same
        exact unclaimed c spawned.chosen q (old q newQ hq) (same ▸ child)
      rw [birth_named_other newQ, birth_named_other apart, birth_creator_before (agrees.known q (old q newQ hq))]
      exact agrees.parent p q (old p apart hp) (old q newQ hq) child
  · have apart : q ≠ c := by
      intro same
      rw [same, spawned.runnable] at is
      cases is
    rw [spawned.others q apart] at is ⊢
    rw [birth_status, birth_named_other apart]
    exact agrees.zombie q is
  · rw [birth_reaped] at inside
    have := agrees.past e inside
    rw [birth_born]
    omega
  · rw [birth_reaped] at inside
    by_cases new : q = c
    · have := agrees.past e inside
      rw [new, birth_named_self]
      omega
    · rw [birth_named_other new]
      exact agrees.gone e inside q (old q new is)

theorem Ledger.Agrees.born (agrees : g.Agrees s) (inv : Inv s o) {r : Int} (born : Born r s t)
    (unclaimed : s.nextUnclaimed) : (g.birth s.current r).Agrees t := by
  rcases born with ⟨rfl, procs⟩ | ⟨c, rfl, spawned⟩
  · rw [birth, if_pos rfl]
    refine agrees.same fun p => ?_
    rw [procs]
    exact .refl _
  · exact agrees.spawned inv spawned unclaimed

theorem Ledger.Agrees.exited (agrees : g.Agrees s) (inv : Inv s o) (cur : s.current = some p)
    (status : Int) : (g.record s (.exit p status)).Agrees (s.exited p status) := by
  have running := inv.current p cur
  have live : s.live p := by simp [Kernel.live, running]
  have old : ∀ q, (s.exited p status).live q → s.live q := by
    intro q is
    by_cases me : q = p
    · rwa [me]
    · simpa [Kernel.live, Kernel.exited, me] using is
  have others : ∀ q ≠ p, (s.exited p status).procs q = s.procs q := by
    intro q other
    exact Function.update_of_ne other _ _
  have me : (s.exited p status).procs p =
      { s.procs p with exitStatus := status, state := .zombie } := by
    exact Function.update_self ..
  have parents : ∀ q, ((s.exited p status).procs q).parent = (s.procs q).parent := by
    intro q
    by_cases is : q = p
    · rw [is, me]
    · rw [others q is]
  refine ⟨⟨agrees.own, fun e inside => ?_, agrees.once⟩, fun q is => ?_,
    fun q is => agrees.known q (old q is),
    fun p q hp hq => agrees.distinct p q (old p hp) (old q hq), fun r q hr hq child => ?_,
    fun q is => ?_, agrees.past, fun e inside q is => agrees.gone e inside q (old q is)⟩
  · show Function.update g.status _ _ e.child = _
    rw [Function.update_of_ne (agrees.gone e inside p live).symm]
    exact agrees.status e inside
  · by_cases here : q = p
    · rw [here, me]
      exact agrees.pid p live
    · rw [others q here]
      exact agrees.pid q (old q is)
  · rw [parents q] at child
    exact agrees.parent r q (old r hr) (old q hq) child
  · show Function.update g.status _ _ (g.named q.val) = _
    by_cases here : q = p
    · rw [here, me, Function.update_self]
    · rw [others q here] at is ⊢
      have zombie : s.live q := by simp [Kernel.live, is]
      rw [Function.update_of_ne fun same => here (agrees.distinct q p zombie live same)]
      exact agrees.zombie q is

theorem Ledger.Agrees.waited (agrees : g.Agrees s) (inv : Inv s o) (cur : s.current = some p)
    {z : Slot} (found : s.zombieChild p = some z) (vanished : Vanished z s t) :
    (g.record s (.wait p (some ((s.procs z).pid, (s.procs z).exitStatus)))).Agrees t := by
  have child : (s.procs z).state = .zombie ∧ (s.procs z).parent = some p := by
    simpa using List.find?_some found
  have live : s.live p := by simp [Kernel.live, inv.current p cur]
  have liveZ : s.live z := by simp [Kernel.live, child.1]
  have apart : ∀ q, t.live q → q ≠ z := fun q is same => is (same ▸ vanished.unused)
  have old : ∀ q, t.live q → s.live q := by
    intro q is
    unfold Kernel.live at is ⊢
    rwa [vanished.others q (apart q is)] at is
  rw [agrees.pid z liveZ]
  refine ⟨⟨fun e inside => ?_, fun e inside => ?_, ?_⟩, fun q is => ?_,
    fun q is => agrees.known q (old q is),
    fun p q hp hq => agrees.distinct p q (old p hp) (old q hq), fun r q hr hq parent => ?_,
    fun q is => ?_, fun e inside => ?_, fun e inside q is => ?_⟩
  · rcases List.mem_cons.mp inside with rfl | before
    · exact agrees.parent p z live liveZ child.2
    · exact agrees.own e before
  · rcases List.mem_cons.mp inside with rfl | before
    · exact agrees.zombie z child.1
    · exact agrees.status e before
  · refine List.nodup_cons.mpr ⟨fun inside => ?_, agrees.once⟩
    obtain ⟨e, before, same⟩ := List.mem_map.mp inside
    exact agrees.gone e before z liveZ same.symm
  · rw [vanished.others q (apart q is)]
    exact agrees.pid q (old q is)
  · rw [vanished.others q (apart q hq)] at parent
    exact agrees.parent r q (old r hr) (old q hq) parent
  · have apartQ : q ≠ z := by
      intro same
      rw [same, vanished.unused] at is
      cases is
    rw [vanished.others q apartQ] at is ⊢
    exact agrees.zombie q is
  · rcases List.mem_cons.mp inside with rfl | before
    · exact agrees.known z liveZ
    · exact agrees.past e before
  · rcases List.mem_cons.mp inside with rfl | before
    · exact fun same => apart q is (agrees.distinct q z (old q is) liveZ same)
    · exact agrees.gone e before q (old q is)

/-- One step keeps the ledger in order. -/
theorem Ledger.Agrees.act (agrees : g.Agrees s) (inv : Inv s o) (act : Acts a s t)
    (unclaimed : Unclaimed s a) : (g.record s a).Agrees t := by
  have effect := act.effect inv
  cases a with
  | createKernelProc r => exact agrees.born inv effect unclaimed
  | createUserProc r => exact agrees.born inv effect unclaimed
  | fork p r => exact agrees.born inv effect unclaimed
  | exit p status =>
    obtain ⟨cur, rfl⟩ := effect
    exact agrees.exited inv cur status
  | wait p r =>
    cases r with
    | none =>
      obtain rfl : t = s := effect
      exact agrees
    | some found =>
      obtain ⟨pid, status⟩ := found
      obtain ⟨cur, z, is, rfl, rfl, vanished⟩ := effect
      exact agrees.waited inv cur is vanished
  | pageFault va => exact agrees.same effect
  | other => exact agrees.same effect

/-- In every run in which no process is created in a slot that is still the parent of a process in
the table, `wait_proc` returns to each process only children that this very process created, each
at most once and with the status that it passed to `exit_proc`. -/
theorem wait_reaps_own_children (booted : Booted s₀)
    (run : ReflTransGen (Recorded Unclaimed) (s₀, .empty) (t, g)) : g.Honest := by
  obtain ⟨o, inv⟩ := booted.inv
  have kept := Transition.invariant
    (I := fun x : Kernel × Ledger => (∃ o, Inv x.1 o) ∧ x.2.Agrees x.1) ?_
    ⟨⟨o, inv⟩, Ledger.empty_agrees booted.unused⟩ run
  · exact kept.2.toHonest
  · rintro ⟨s, g⟩ ⟨t, g'⟩ ⟨⟨o, inv⟩, agrees⟩ ⟨a, unclaimed, act, rfl⟩
    obtain ⟨o', next⟩ := inv.step act.step
    exact ⟨⟨o', next.inv⟩, agrees.act inv act unclaimed⟩

/-- The ledger leaves no run out. -/
theorem recorded_of_run (booted : Booted s₀) (run : ReflTransGen Step s₀ t) :
    ∃ g, ReflTransGen (Recorded fun _ _ => True) (s₀, .empty) (t, g) := by
  induction run with
  | refl => exact ⟨_, .refl⟩
  | @tail s t before step ih =>
    obtain ⟨g, recorded⟩ := ih
    obtain ⟨o, inv⟩ := Reachable.inv ⟨s₀, booted, before⟩
    obtain ⟨a, act⟩ := inv.acts step
    exact ⟨_, recorded.tail ⟨a, trivial, act, rfl⟩⟩

/-! ### Two runs -/

/-- A small run with its ledger, as far as it is allowed. -/
def play (allowed : Kernel → Act → Prop) [∀ s a, Decidable (allowed s a)] :
    List Cmd → Kernel × Ledger → Option (Kernel × Ledger)
  | [], x => some x
  | c :: rest, x =>
    match c.exec x.1 with
    | none => none
    | some (a, t) => if allowed x.1 a then play allowed rest (t, x.2.record x.1 a) else none

theorem play_recorded {allowed : Kernel → Act → Prop} [∀ s a, Decidable (allowed s a)]
    {l : List Cmd} {x y : Kernel × Ledger} (run : play allowed l x = some y) :
    ReflTransGen (Recorded allowed) x y := by
  induction l generalizing x with
  | nil =>
    cases run
    exact .refl
  | cons c rest ih =>
    rw [play] at run
    split at run
    · cases run
    · next a t taken =>
      split at run
      · next ok => exact .head ⟨a, ok, Cmd.acts taken, rfl⟩ (ih run)
      · cases run

instance (s : Kernel) (q : Slot) : Decidable (s.live q) := inferInstanceAs (Decidable (¬ _))

instance (s : Kernel) : Decidable s.nextUnclaimed :=
  inferInstanceAs (Decidable (∀ c, s.nextSlot = some c → ∀ q, s.live q → (s.procs q).parent ≠ some c))

instance (s : Kernel) : (a : Act) → Decidable (Unclaimed s a)
  | .createKernelProc _ | .createUserProc _ | .fork _ _ => inferInstanceAs (Decidable s.nextUnclaimed)
  | .exit _ _ | .wait _ _ | .pageFault _ | .other => .isTrue trivial

/-- Process 0 creates a process, which exits with 5 and is reaped. -/
def reapOne : List Cmd :=
  [.createKernelProc, .dispatch 0, .createKernelProc, .yield, .dispatch 1, .exit 5, .dispatch 0,
    .wait]

theorem reapOne_reaped : ((play Unclaimed reapOne (sampleBoot, .empty)).map fun x => x.2.reaped) =
    some [⟨0, 1, 5⟩] := by
  decide +kernel

theorem wait_reaps_own_children_sample : ∃ t g,
    ReflTransGen (Recorded Unclaimed) (sampleBoot, .empty) (t, g) ∧
      g.reaped = [⟨0, 1, 5⟩] ∧ g.Honest := by
  obtain ⟨⟨t, g⟩, run, is⟩ := Option.map_eq_some_iff.mp reapOne_reaped
  exact ⟨t, g, play_recorded run, is,
    wait_reaps_own_children sampleBoot_booted (play_recorded run)⟩

/-- Process 0 creates process 1, which creates process 2 and exits.  Process 0 reaps it and creates
another process in its slot; process 2 exits with 7, and the newcomer waits. -/
def adoptStranger : List Cmd :=
  [.createKernelProc, .dispatch 0, .createKernelProc, .yield, .dispatch 1, .createKernelProc,
    .exit 5, .dispatch 0, .wait, .createKernelProc, .yield, .dispatch 2, .exit 7, .dispatch 1,
    .wait]

theorem adoptStranger_reaped :
    ((play (fun _ _ => True) adoptStranger (sampleBoot, .empty)).map fun x =>
      (x.2.reaped, x.2.creator 2)) = some ([⟨3, 2, 7⟩, ⟨0, 1, 5⟩], some 1) := by
  decide +kernel

/-- The newcomer, the fourth process, gets the child that the second one has left behind. -/
theorem wait_reaps_stranger : Booted sampleBoot ∧ ∃ t g,
    ReflTransGen (Recorded fun _ _ => True) (sampleBoot, .empty) (t, g) ∧
      ⟨3, 2, 7⟩ ∈ g.reaped ∧ g.creator 2 = some 1 ∧ ¬ g.Honest := by
  obtain ⟨⟨t, g⟩, run, is⟩ := Option.map_eq_some_iff.mp adoptStranger_reaped
  obtain ⟨reaped, creator⟩ : g.reaped = [⟨3, 2, 7⟩, ⟨0, 1, 5⟩] ∧ g.creator 2 = some 1 := by
    simpa using is
  have inside : (⟨3, 2, 7⟩ : Reaped) ∈ g.reaped := by
    rw [reaped]
    exact List.mem_cons_self
  refine ⟨sampleBoot_booted, t, g, play_recorded run, inside, creator, fun honest => ?_⟩
  have own : g.creator 2 = some 3 := honest.own _ inside
  rw [creator] at own
  cases own

end Xv6Lab.Vm

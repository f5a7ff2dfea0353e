import Xv6Lab.Conc.System

/-! Running one process on its own: the replies that the shared state does not determine are taken
from a list.  This gives reachable states by evaluation. -/

namespace Xv6Lab.Conc

open Relation

variable {P : Type} [DecidableEq P]

/-- An answer to command `c` of process `p`; a free choice takes the next number of the list. -/
def answer (p : P) (s : Shared P) : (c : Cmd) → List Nat → Option ({r // c.Answer p s r} × List Nat)
  | .acquire lk, ns => if h : s.spin lk = none then some (⟨(), h⟩, ns) else none
  | .await w, ns => if h : w.Blocked s then none else some (⟨(), h⟩, ns)
  | .locked _, ns | .holding _, ns | .leaveOp, ns | .outstanding, ns | .committing, ns | .logN, ns
  | .logBlock _, ns | .getRef _, ns | .getKind _, ns | .fdalloc _, ns => some (⟨_, rfl⟩, ns)
  | .entry d, n :: ns =>
    if h : n ∈ s.entries d then some (⟨some n, by simpa [Cmd.Answer] using h⟩, ns)
    else some (⟨none, by simp [Cmd.Answer]⟩, ns)
  | .fdget, n :: ns =>
    if h : n ∈ s.fds p then some (⟨some n, by simpa [Cmd.Answer] using h⟩, ns)
    else some (⟨none, by simp [Cmd.Answer]⟩, ns)
  | .markInode _, n :: ns => if h : s.kind n = .free then some (⟨n, h⟩, ns) else none
  | .cwd, n :: ns => if h : n ∈ s.refs p then some (⟨n, h⟩, ns) else none
  | .anyNat, n :: ns => some (⟨n, trivial⟩, ns)
  | .anyBool, n :: ns => some (⟨decide (n ≠ 0), trivial⟩, ns)
  | .entry _, [] | .fdget, [] | .markInode _, [] | .cwd, [] | .anyNat, [] | .anyBool, [] => none
  | .panic _, _ => none
  | .release _, ns | .unlock _, ns | .setCommitting _, ns | .clearLog, ns | .submit _, ns
  | .freeChain, ns | .incRef _, ns | .decRef _, ns | .link _ _, ns | .clearEntry _ _, ns
  | .clearInode _, ns | .fdclear _, ns => some (⟨(), trivial⟩, ns)

/-- At most `fuel` commands of process `p`, as far as it gets. -/
def solo (p : P) : Nat → List Nat → State P → State P
  | 0, _, s => s
  | fuel + 1, ns, s =>
    match s.phase p with
    | .busy (.cmd c k) =>
      match answer p s.shared c ns with
      | some (r, rest) =>
        solo p fuel rest ((s.setShared (c.effect p s.shared r)).setPhase p (.busy (k r)))
      | none => s
    | _ => s

/-- Steps without any condition. -/
def AnyStep : State P → State P → Prop := StepWith fun _ _ => True

section Reaches

variable {allowed : State P → Event P → Prop}

theorem solo_reaches {p : P} (free : ∀ s c, allowed s (.cmd p c)) (fuel : Nat) (ns : List Nat)
    (s : State P) : ReflTransGen (StepWith allowed) s (solo p fuel ns s) := by
  induction fuel generalizing ns s with
  | zero => exact .refl
  | succ fuel ih =>
    simp only [solo]
    split
    · rename_i c k next
      split
      · rename_i r rest _
        exact .head ⟨_, free s c, .cmd next r.2⟩ (ih rest _)
      · exact .refl
    · exact .refl

/-- `sleep`, if the process stands at a loop that blocks. -/
def fallAsleep (p : P) (s : State P) : State P :=
  match s.phase p with
  | .busy (.cmd (.await w) k) =>
    if w.Blocked s.shared then
      (s.setShared (s.shared.setSpin w.lock none)).setPhase p (.asleep w k)
    else s
  | _ => s

theorem fallAsleep_reaches {p : P} (free : ∀ s w, allowed s (.sleep p w)) (s : State P) :
    ReflTransGen (StepWith allowed) s (fallAsleep p s) := by
  unfold fallAsleep
  split
  · rename_i w k next
    split
    · rename_i blocked
      exact .single ⟨_, free s w, .sleep next blocked⟩
    · exact .refl
  · exact .refl

/-- Process `p`, if idle, makes a call and runs as far as the list of choices takes it. -/
def callThen (p : P) (c : Call) (fuel : Nat) (ns : List Nat) (s : State P) : State P :=
  match s.phase p with
  | .idle =>
    if ∀ i ∈ c.needs, i ∈ s.shared.refs p then solo p fuel ns (s.setPhase p (.busy c.code)) else s
  | _ => s

theorem callThen_reaches {p : P} {c : Call} (begins : ∀ s, allowed s (.call p c))
    (free : ∀ s c, allowed s (.cmd p c)) (fuel : Nat) (ns : List Nat) (s : State P) :
    ReflTransGen (StepWith allowed) s (callThen p c fuel ns s) := by
  unfold callThen
  split
  · rename_i idle
    split
    · rename_i has
      exact .head ⟨_, begins s, .call idle has⟩ (solo_reaches free fuel ns _)
    · exact .refl
  · exact .refl

/-- The call of process `p`, if over, returns, and the process exits. -/
def returnAndExit (p : P) (s : State P) : State P :=
  match s.phase p with
  | .busy (.ret ()) => (s.setPhase p .idle).setPhase p .zombie
  | _ => s

theorem returnAndExit_reaches {p : P} (returns : ∀ s, allowed s (.ret p))
    (exits : ∀ s, allowed s (.exit p)) (s : State P) :
    ReflTransGen (StepWith allowed) s (returnAndExit p s) := by
  unfold returnAndExit
  split
  · rename_i next
    refine .tail (.single ⟨_, returns s, .ret next⟩) ⟨_, exits _, .exit ?_⟩
    exact Function.update_self _ _ _
  · exact .refl

end Reaches

/-- `kill_proc` of a sleeper, and its return from `sleep`. -/
def killAsleep (p : P) (s : State P) : State P :=
  match s.phase p with
  | .asleep w _ =>
    if s.shared.spin w.lock = none then
      ({ s with killed := Function.update s.killed p true }.setShared
        (s.shared.setSpin w.lock (some p))).setPhase p .zombie
    else s
  | _ => s

theorem killAsleep_reaches (p : P) (s : State P) : ReflTransGen AnyStep s (killAsleep p s) := by
  unfold killAsleep
  split
  · rename_i w k asleep
    split
    · rename_i free
      refine .tail (.single ⟨_, trivial, .kill p⟩) ⟨_, trivial, .wakeKilled (k := k) asleep free ?_⟩
      exact Function.update_self _ _ _
    · exact .refl
  · exact .refl

/-- A file system with the root directory, inode 1, whose entries name itself and file 5; every
process has the file open. -/
def booted (n : Nat) : State (Fin n) where
  shared :=
    { spin := fun _ => none
      held := fun _ => none
      outstanding := 0
      committing := false
      lh := []
      ops := fun _ => 0
      desc := 16
      flight := fun _ => none
      ref := fun i => if i = 5 then n else 0
      kind := fun i => if i = 1 then .dir else if i = 5 then .file else .free
      entries := fun d => if d = 1 then [1, 5] else []
      stamp := fun i => if i = 5 then 1 else 0
      clock := 1
      fds := fun _ => []
      refs := fun _ => [5] }
  phase := fun _ => .idle
  killed := fun _ => false

theorem booted_initial (n : Nat) : Initial (booted n) where
  phase _ := .inl rfl
  spin _ := rfl
  held _ := rfl
  outstanding := rfl
  committing := rfl
  ops _ := rfl
  flight _ := rfl
  ref i := by
    by_cases five : i = 5
    · simp [Shared.owned, booted, five]
    · simp [Shared.owned, booted, five, Ne.symm five]
  entries d i named := by
    by_cases root : d = 1
    · subst root
      simp only [booted, if_true, List.mem_cons, List.not_mem_nil, or_false] at named
      rcases named with rfl | rfl
      · exact .inl rfl
      · exact .inr Nat.zero_lt_one
    · simp [booted, root] at named
  stamp i := by
    simp only [booted]
    split <;> omega

end Xv6Lab.Conc

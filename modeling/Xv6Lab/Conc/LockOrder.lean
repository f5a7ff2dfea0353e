import Mathlib.Algebra.Order.BigOperators.Group.Finset
import Mathlib.Data.Finset.Max
import Mathlib.Tactic.FinCases
import Xv6Lab.Conc.Exit

/-! Circular waits between inode locks and the log.  Inode locks are taken down the directory tree,
and the tree cannot turn into a cycle, because an entry is only ever made for an inode that was
allocated after its directory.  A wait for log space inside this order is what closes a circle. -/

namespace Xv6Lab.Conc

open Relation

section Order

variable {P : Type}

/-- Every process of the set sleeps in `begin_op`, for want of space while the set owns an operation,
or in `acquiresleep` on an inode that a process of the set has locked. -/
def CircularWait (s : State P) (S : Finset P) : Prop :=
  S.Nonempty ∧ ∀ p ∈ S,
    (s.waiting p = some .logSpace ∧ s.shared.committing = false ∧
      Log.logFull s.shared.lh.length s.shared.outstanding ∧ ∃ q ∈ S, 0 < s.shared.ops q) ∨
    ∃ i, s.waiting p = some (.sleeplock (.inode i)) ∧ ∃ q ∈ S, s.shared.held (.inode i) = some q

/-- A process that sleeps in `begin_op` owns no operation and has locked no inode. -/
def LogSleepersFree (s : State P) : Prop :=
  ∀ p, s.waiting p = some .logSpace → s.shared.ops p = 0 ∧ ∀ i, s.shared.held (.inode i) ≠ some p

variable [DecidableEq P] [Fintype P]

/-- The run is undisturbed, and `begin_op` puts no process to sleep that owns an operation or has
locked an inode. -/
def Orderly (s : State P) (e : Event P) : Prop :=
  Undisturbed s e ∧ ∀ p, e = .sleep p .logSpace →
    s.shared.ops p = 0 ∧ ∀ i, s.shared.held (.inode i) ≠ some p

omit [Fintype P] in
theorem LogSleepersFree.step {s t : State P} {e : Event P} (h : LogSleepersFree s)
    (orderly : Orderly s e) (step : Step s e t) : LogSleepersFree t := by
  intro q asleep
  obtain ⟨⟨rfl, -⟩ | before, ops, held⟩ := step.sleeper asleep
  · obtain ⟨owns, locks⟩ := orderly.2 q rfl
    exact ⟨ops.trans owns, fun i mine => locks i (held _ mine)⟩
  · obtain ⟨owns, locks⟩ := h q before
    exact ⟨ops.trans owns, fun i mine => locks i (held _ mine)⟩

omit [DecidableEq P] in
/-- Two processes with a reference make two references. -/
theorem Consistent.two_le {s : Shared P} (h : Consistent s) {p q : P} (ne : p ≠ q) {i : Nat}
    (first : i ∈ s.refs p ∨ i ∈ s.fds p) (second : i ∈ s.refs q ∨ i ∈ s.fds q) : 2 ≤ s.ref i := by
  classical
  have one {r : P} (mem : i ∈ s.refs r ∨ i ∈ s.fds r) :
      1 ≤ (s.refs r).count i + (s.fds r).count i := by
    rcases mem with mem | mem
    · have := List.count_pos_iff.mpr mem
      omega
    · have := List.count_pos_iff.mpr mem
      omega
  calc 2 ≤ ∑ r ∈ {p, q}, ((s.refs r).count i + (s.fds r).count i) := by
        rw [Finset.sum_pair ne]
        exact Nat.add_le_add (one first) (one second)
    _ ≤ s.owned i := Finset.sum_le_sum_of_subset (Finset.subset_univ _)
    _ ≤ s.ref i := h.ref i

omit [DecidableEq P] in
theorem Inv.waiting_ok {s : State P} {views : P → View} (h : Inv s views) {p : P} {w : Wait}
    (asleep : s.waiting p = some w) :
    (Cmd.await w).ok { views p with spins := w.lock :: (views p).spins } := by
  unfold State.waiting at asleep
  split at asleep
  · rename_i w' k phase
    cases asleep
    exact (h.standing_at phase).1
  · cases asleep

omit [DecidableEq P] in
/-- A process that waits for an inode another one has locked has locked only older inodes. -/
theorem Inv.waits_upward {s : State P} {views : P → View} (h : Inv s views) {p q : P} {d i : Nat}
    (asleep : s.waiting p = some (.sleeplock (.inode i)))
    (theirs : s.shared.held (.inode i) = some q) (mine : s.shared.held (.inode d) = some p) :
    s.shared.stamp d < s.shared.stamp i := by
  obtain ⟨-, notMine, has, may⟩ := h.waiting_ok asleep
  have locked : .inode d ∈ (views p).locks := ((h.agree p).locks _).mp mine
  have ne : p ≠ q := by
    rintro rfl
    exact notMine (((h.agree p).locks _).mp theirs)
  rcases may with above | alone
  · obtain ⟨-, -, same | older⟩ := (h.agree p).knows _ (above d locked)
    · subst same
      exact absurd locked notMine
    · exact older
  · -- `iput` waits only for an inode that nobody else has.
    have one := ((h.agree p).alone i alone).2
    have two := h.consistent.two_le ne (i := i)
      (by rw [(h.agree p).refs, (h.agree p).fds]; exact has)
      (by rw [(h.agree q).refs, (h.agree q).fds]
          exact (h.agree q).backed i (((h.agree q).locks _).mp theirs))
    omega

/-- The inode that a process waits for. -/
def State.wanted (s : State P) (p : P) : Nat :=
  match s.waiting p with
  | some (.sleeplock (.inode i)) => i
  | _ => 0

omit [DecidableEq P] in
theorem no_circular_wait_of_inv {s : State P} {views : P → View} (h : Inv s views)
    (sleepers : LogSleepersFree s) (S : Finset P) : ¬ CircularWait s S := by
  classical
  rintro ⟨⟨p₀, mem₀⟩, all⟩
  -- A member that has something does not wait in `begin_op`.
  have inodeWait {q : P} (mem : q ∈ S)
      (some_ : 0 < s.shared.ops q ∨ ∃ i, s.shared.held (.inode i) = some q) :
      ∃ i, s.waiting q = some (.sleeplock (.inode i)) ∧
        ∃ r ∈ S, s.shared.held (.inode i) = some r := by
    rcases all q mem with ⟨asleep, -⟩ | waits
    · obtain ⟨owns, locks⟩ := sleepers q asleep
      rcases some_ with op | ⟨i, lock⟩
      · omega
      · exact absurd lock (locks i)
    · exact waits
  let T := S.filter fun q => ∃ i, s.waiting q = some (.sleeplock (.inode i))
  have nonempty : T.Nonempty := by
    rcases all p₀ mem₀ with ⟨-, -, -, q, mem, owns⟩ | ⟨i, asleep, -⟩
    · obtain ⟨i, asleep, -⟩ := inodeWait mem (.inl owns)
      exact ⟨q, Finset.mem_filter.mpr ⟨mem, i, asleep⟩⟩
    · exact ⟨p₀, Finset.mem_filter.mpr ⟨mem₀, i, asleep⟩⟩
  obtain ⟨q, memT, most⟩ := Finset.exists_max_image T (fun q => s.shared.stamp (s.wanted q)) nonempty
  obtain ⟨mem, i, asleep⟩ := Finset.mem_filter.mp memT
  have holder : ∃ r ∈ S, s.shared.held (.inode i) = some r := by
    rcases all q mem with ⟨other, -⟩ | ⟨i', asleep', holder⟩
    · exact absurd (asleep.symm.trans other) (by simp)
    · obtain rfl : i = i' := by simpa using asleep.symm.trans asleep'
      exact holder
  obtain ⟨r, memR, theirs⟩ := holder
  obtain ⟨j, asleepR, r', -, theirs'⟩ := inodeWait memR (.inr ⟨i, theirs⟩)
  have higher := h.waits_upward asleepR theirs' theirs
  have bound := most r (Finset.mem_filter.mpr ⟨memR, j, asleepR⟩)
  simp only [State.wanted, asleep, asleepR] at bound
  omega

/-- In an orderly run no set of processes waits in a circle. -/
theorem no_circular_wait {s₀ s : State P} (initial : Initial s₀)
    (run : ReflTransGen (StepWith Orderly) s₀ s) (S : Finset P) : ¬ CircularWait s S := by
  have weaker (s t : State P) : StepWith Orderly s t → StepWith Undisturbed s t :=
    fun ⟨e, orderly, step⟩ => ⟨e, orderly.1, step⟩
  have calm : ReflTransGen (StepWith Undisturbed) s₀ s := ReflTransGen.mono weaker _ _ run
  obtain ⟨views, h⟩ := undisturbed_inv initial calm
  have start : LogSleepersFree s₀ := fun p _ =>
    ⟨initial.ops p, fun i => by simp [initial.held]⟩
  have sleepers : LogSleepersFree s :=
    Transition.invariant (fun _ _ h ⟨_, orderly, step⟩ => h.step orderly step) start run
  exact no_circular_wait_of_inv h sleepers S

end Order

/-- A writer of file 5 begins its operation and falls asleep on the inode lock. -/
def blockWriter (p : Fin 4) (s : State (Fin 4)) : State (Fin 4) :=
  fallAsleep p (callThen p (.write 5) 20 [] s)

/-- Process 0 opens file 5 and has locked its inode when three writers come; then it goes on to the
`begin_op` of `open`. -/
def openerAndWriters : State (Fin 4) :=
  fallAsleep 0 <| solo 0 10 [0] <| blockWriter 3 <| blockWriter 2 <| blockWriter 1 <|
    callThen 0 (.kerOpen false true) 100 [1, 1, 0, 0, 0, 5, 0, 0] (booted 4)

/-- An `open` of an existing file beside three writers of it closes a circle. -/
theorem open_waits_in_circle :
    ∃ s₀ s : State (Fin 4), Initial s₀ ∧ ReflTransGen AnyStep s₀ s ∧
      CircularWait s Finset.univ := by
  refine ⟨booted 4, openerAndWriters, booted_initial 4, ?_, ⟨0, Finset.mem_univ 0⟩, fun p _ => ?_⟩
  · have calls {p : Fin 4} {c : Call} (fuel : Nat) (ns : List Nat) (s : State (Fin 4)) :
        ReflTransGen AnyStep s (callThen p c fuel ns s) :=
      callThen_reaches (fun _ => trivial) (fun _ _ => trivial) fuel ns s
    have sleeps {p : Fin 4} (s : State (Fin 4)) : ReflTransGen AnyStep s (fallAsleep p s) :=
      fallAsleep_reaches (fun _ _ => trivial) s
    have writer (p : Fin 4) (s : State (Fin 4)) : ReflTransGen AnyStep s (blockWriter p s) :=
      (calls _ _ _).trans (sleeps _)
    exact (((((calls _ _ _).trans (writer 1 _)).trans (writer 2 _)).trans (writer 3 _)).trans
      (solo_reaches (fun _ _ => trivial) _ _ _)).trans (sleeps _)
  · fin_cases p
    · exact .inl (by decide +kernel)
    all_goals exact .inr ⟨5, by decide +kernel⟩

theorem no_circular_wait_sample :
    ¬ CircularWait ((booted 4).setPhase 0 (.busy (Call.write 5).code)) Finset.univ :=
  no_circular_wait (booted_initial 4)
    (.single ⟨.call 0 (.write 5),
      ⟨⟨fun _ other => by simp at other, fun _ _ other => by simp at other⟩,
        fun _ other => by simp at other⟩, .call rfl (by decide)⟩) _

end Xv6Lab.Conc

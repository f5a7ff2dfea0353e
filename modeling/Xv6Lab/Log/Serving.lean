import Xv6Lab.Lib.Journal
import Xv6Lab.Log.Crash

/-! The running log while a process makes its calls: it carries out a list of acts, and between them
buffers are read and recycled and commits move on.  A crash takes the home blocks back to the last
place in the list at which no operation was open, or leaves them at it. -/

namespace Xv6Lab.Log

open Bytes Relation Journal

section Serve

variable (start : Nat)

/-- A step of the running log, with the acts that are to come. -/
inductive Serves : List (Act Block) × Sys → List (Act Block) × Sys → Prop
  | begin {rest : List (Act Block)} {s : Sys} (ready : s.committing = false)
      (space : ¬ logFull s.store.lh.length s.outstanding) :
      Serves (.begin :: rest, s) (rest, beginOp s)
  | write {rest : List (Act Block)} {s : Sys} {op b : Nat} {data : Block}
      (inOp : op ∈ s.hist.opened) (home : Home start b) (number : b < 2 ^ 32)
      (room : s.store.lh.length < LOGBLOCKS) (trans : 1 ≤ s.outstanding) :
      Serves (.write b data :: rest, s) (rest, writeBlock op b data s)
  | finish {rest : List (Act Block)} {s : Sys} {op : Nat} (inOp : op ∈ s.hist.opened)
      (ready : s.committing = false) : Serves (.finish :: rest, s) (rest, endOp op s)
  | read {acts : List (Act Block)} {s : Sys} (b : Nat) :
      Serves (acts, s) (acts, { s with store := s.store.bread b })
  | recycle {acts : List (Act Block)} {s : Sys} (b : Nat) (unused : s.store.pin b = 0) :
      Serves (acts, s) (acts, { s with store := s.store.recycle b })
  | commit {acts : List (Act Block)} {s : Sys} (committing : s.committing = true) :
      Serves (acts, s) (acts, commitStep start s)

end Serve

section Serving

variable {start : Nat} {disk₀ : Nat → Block} {all past done rest : List (Act Block)} {s t : Sys}

/-- The steps are those of the running system. -/
theorem Serves.step {x y : List (Act Block) × Sys} (serves : Serves start x y) :
    Step start x.2 y.2 := by
  cases serves with
  | begin ready space => exact .beginOp _ ready space
  | write inOp home number room trans => exact .logWrite _ _ _ _ inOp home number room trans
  | finish inOp ready => exact .endOp _ _ inOp ready
  | read b => exact .read _ b
  | recycle b unused => exact .recycle _ b unused
  | commit committing => exact .commit _ committing

/-- The acts of `past` are over, and the commits that are over hold those of `done`: all places at
which no operation was open are among them, but for the one whose commit is under way. -/
structure Served (start : Nat) (disk₀ : Nat → Block) (past done : List (Act Block)) (s : Sys) :
    Prop where
  inv : Inv start disk₀ s
  outstanding : s.outstanding = depth 0 past
  writes : replay disk₀ s.hist.writes = content disk₀ past
  inside : done <+: past
  none : depth 0 done = 0
  committed : s.hist.after disk₀ s.hist.committed = content disk₀ done
  last : ∀ q, q <+: past → depth 0 q = 0 → q <+: done ∨ s.committing = true ∧ q = past

theorem Initial.served (initial : Initial start s) : Served start s.store.disk [] [] s := by
  refine ⟨initial.inv, initial.outstanding, ?_, List.prefix_refl _, rfl, ?_, fun q inside _ => ?_⟩
  · rw [initial.hist]
    rfl
  · rw [initial.hist]
    rfl
  · exact .inl inside

/-- A step that leaves the acts, the writes and the commits as they are. -/
theorem Served.congr (h : Served start disk₀ past done s) (inv : Inv start disk₀ t)
    (outstanding : t.outstanding = s.outstanding) (committing : t.committing = s.committing)
    (hist : t.hist = s.hist) : Served start disk₀ past done t := by
  refine ⟨inv, outstanding.trans h.outstanding, ?_, h.inside, h.none, ?_, fun q here zero => ?_⟩
  · rw [hist, h.writes]
  · rw [hist, h.committed]
  · rw [committing]
    exact h.last q here zero

theorem Served.begin (h : Served start disk₀ past done s) (ready : s.committing = false) :
    Served start disk₀ (past ++ [.begin]) done (beginOp s) := by
  refine ⟨h.inv.begun ready, ?_, ?_, h.inside.trans (List.prefix_append ..), h.none, h.committed,
    fun q here zero => ?_⟩
  · rw [depth_append, ← h.outstanding]
    rfl
  · rw [content_append, ← h.writes]
    rfl
  · rcases List.prefix_concat_iff.mp here with rfl | before
    · rw [depth_append] at zero
      exact absurd zero (Nat.succ_ne_zero _)
    · rcases h.last q before zero with old | ⟨busy, -⟩
      · exact .inl old
      · rw [ready] at busy
        cases busy

/-- While an operation is open, no commit is under way. -/
theorem Served.free (h : Served start disk₀ past done s) {op : Nat} (inOp : op ∈ s.hist.opened) :
    s.committing = false := by
  by_contra busy
  rw [h.inv.alone (by simpa using busy)] at inOp
  cases inOp

theorem Served.write (h : Served start disk₀ past done s) {op b : Nat} {data : Block}
    (inOp : op ∈ s.hist.opened) (home : Home start b) (number : b < 2 ^ 32)
    (room : s.store.lh.length < LOGBLOCKS) (trans : 1 ≤ s.outstanding) :
    Served start disk₀ (past ++ [.write b data]) done (writeBlock op b data s) := by
  refine ⟨h.inv.written inOp home number room, ?_, ?_, h.inside.trans (List.prefix_append ..),
    h.none, ?_, fun q here zero => ?_⟩
  · rw [depth_append, ← h.outstanding]
    rfl
  · rw [content_append, ← h.writes]
    exact replay_concat _ _
  · rw [← h.committed]
    have old : s.hist.after disk₀ s.hist.committed =
        (writeBlock op b data s).hist.after disk₀ s.hist.committed := by
      simp [History.after, Log.writeBlock, h.inv.hist.not_committed (.inl inOp)]
    exact old.symm
  · rcases List.prefix_concat_iff.mp here with rfl | before
    · rw [depth_append, ← h.outstanding] at zero
      exact absurd zero (Nat.ne_of_gt trans)
    · rcases h.last q before zero with old | ⟨busy, -⟩
      · exact .inl old
      · rw [h.free inOp] at busy
        cases busy

theorem Served.finish (h : Served start disk₀ past done s) {op : Nat} (inOp : op ∈ s.hist.opened)
    (ready : s.committing = false) :
    Served start disk₀ (past ++ [.finish]) done (endOp op s) := by
  refine ⟨h.inv.ended inOp ready, ?_, ?_, h.inside.trans (List.prefix_append ..), h.none,
    h.committed, fun q here zero => ?_⟩
  · rw [depth_append, ← h.outstanding]
    rfl
  · rw [content_append, ← h.writes]
    rfl
  · rcases List.prefix_concat_iff.mp here with rfl | before
    · rw [depth_append, ← h.outstanding] at zero
      exact .inr ⟨decide_eq_true zero, rfl⟩
    · rcases h.last q before zero with old | ⟨busy, -⟩
      · exact .inl old
      · rw [ready] at busy
        cases busy

/-- The last step of a commit puts everything that has been asked into the commits that are over;
the others change nothing that is counted here. -/
theorem commitStep_cases (s : Sys) (busy : s.pc ≠ .idle) :
    (commitStep start s).outstanding = s.outstanding ∧
      ((commitStep start s).committing = s.committing ∧ (commitStep start s).hist = s.hist ∨
        (commitStep start s).committing = false ∧ (commitStep start s).hist =
          { s.hist with committed := s.hist.committed ++ s.hist.ended, ended := [] }) := by
  unfold commitStep
  split
  · next idle => exact absurd idle busy
  · exact ⟨rfl, .inl ⟨rfl, rfl⟩⟩
  · split
    · exact ⟨rfl, .inl ⟨rfl, rfl⟩⟩
    · exact ⟨rfl, .inl ⟨rfl, rfl⟩⟩
  · exact ⟨rfl, .inl ⟨rfl, rfl⟩⟩
  · split
    · exact ⟨rfl, .inl ⟨rfl, rfl⟩⟩
    · exact ⟨rfl, .inl ⟨rfl, rfl⟩⟩
  · exact ⟨rfl, .inl ⟨rfl, rfl⟩⟩
  · exact ⟨rfl, .inr ⟨rfl, rfl⟩⟩

theorem Served.none_open (h : Served start disk₀ past done s) (busy : s.committing = true) :
    depth 0 past = 0 := by
  rw [← h.outstanding, h.inv.outstanding, h.inv.alone busy]
  rfl

theorem Served.commit (h : Served start disk₀ past done s) (busy : s.committing = true) :
    ∃ done', Served start disk₀ past done' (commitStep start s) := by
  have inv := h.inv.committed busy
  obtain ⟨outstanding, ⟨committing, hist⟩ | ⟨-, hist⟩⟩ :=
    @commitStep_cases start s (h.inv.committing.mp busy)
  · exact ⟨done, h.congr inv outstanding committing hist⟩
  · refine ⟨past, inv, outstanding.trans h.outstanding, ?_, List.prefix_refl _, h.none_open busy, ?_,
      fun q here _ => .inl here⟩
    · rw [hist]
      exact h.writes
    · rw [hist, ← h.writes]
      exact h.inv.hist.after_all (h.inv.alone busy)

/-- What holds while the process carries out the acts `all`. -/
def Serving (start : Nat) (disk₀ : Nat → Block) (all : List (Act Block))
    (x : List (Act Block) × Sys) : Prop :=
  ∃ past done, all = past ++ x.1 ∧ Served start disk₀ past done x.2

theorem Serving.step (x y : List (Act Block) × Sys) (h : Serving start disk₀ all x)
    (serves : Serves start x y) : Serving start disk₀ all y := by
  obtain ⟨past, done, split, served⟩ := h
  have inv := served.inv.step _ _ serves.step
  cases serves with
  | begin ready space =>
    exact ⟨_, done, by rw [split, List.append_assoc, List.singleton_append], served.begin ready⟩
  | write inOp home number room trans =>
    exact ⟨_, done, by rw [split, List.append_assoc, List.singleton_append],
      served.write inOp home number room trans⟩
  | finish inOp ready =>
    exact ⟨_, done, by rw [split, List.append_assoc, List.singleton_append],
      served.finish inOp ready⟩
  | read b => exact ⟨past, done, split, served.congr inv rfl rfl rfl⟩
  | recycle b unused => exact ⟨past, done, split, served.congr inv rfl rfl rfl⟩
  | commit busy =>
    obtain ⟨done', after⟩ := served.commit busy
    exact ⟨past, done', split, after⟩

/-- What a recovery finds: the blocks after the acts up to a place at which no operation was open,
with all places before it, or all but the one whose commit the crash interrupted. -/
structure Survives (start : Nat) (disk₀ : Nat → Block) (past done : List (Act Block))
    (committing : Bool) (disk : Nat → Block) : Prop where
  inside : done <+: past
  none : depth 0 done = 0
  home : ∀ b, Home start b → disk b = content disk₀ done b
  last : ∀ q, q <+: past → depth 0 q = 0 → q <+: done ∨ committing = true ∧ q = past

theorem Served.survives {disk disk' : Nat → Block} (h : Served start disk₀ past done s)
    (recoveries : ReflTransGen (RecoversTo start) s.store.disk disk)
    (recovers : Recovers start disk disk') :
    ∃ done', Survives start disk₀ past done' s.committing disk' := by
  have cut {target : Nat → Block} (first : Recoverable start target s.store.disk) :
      Recoverable start target disk :=
    Transition.invariant (I := Recoverable start target)
      (fun _ _ safe step => RecoversTo.recoverable safe step) first recoveries
  rcases h.inv.phase.recoverable with old | ⟨busy, new⟩
  · refine ⟨done, h.inside, h.none, fun b home => ?_, h.last⟩
    rw [(recovers.reaches (cut old)).2 b home, h.committed]
  · refine ⟨past, List.prefix_refl _, h.none_open (h.inv.committing.mpr busy), fun b home => ?_,
      fun q here _ => .inl here⟩
    rw [(recovers.reaches (cut new)).2 b home, h.writes]

/-- A crash at any point of the list of acts, and recoveries that are cut short, leave the blocks as
they were at the last place with no open operation, or at the one before it whose commit was over. -/
theorem serves_survives {disk disk' : Nat → Block} (initial : Initial start s)
    (run : ReflTransGen (Serves start) (all, s) (rest, t))
    (recoveries : ReflTransGen (RecoversTo start) t.store.disk disk)
    (recovers : Recovers start disk disk') :
    ∃ past done, all = past ++ rest ∧ Survives start s.store.disk past done t.committing disk' := by
  have first : Serving start s.store.disk all (all, s) := ⟨[], [], rfl, initial.served⟩
  obtain ⟨past, done, split, served⟩ := Transition.invariant Serving.step first run
  obtain ⟨done', survives⟩ := served.survives recoveries recovers
  exact ⟨past, done', split, survives⟩

end Serving

end Xv6Lab.Log

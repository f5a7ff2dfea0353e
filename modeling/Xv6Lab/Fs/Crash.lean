import Xv6Lab.Fs.Boot
import Xv6Lab.Log.Serving

/-! Crashes of the file system.  The kernel runs its calls one after the other, and the log carries
out what they ask of it, while its commits write to the disk block by block.  Wherever power fails,
and however often the recovery is cut short, the disk ends up as it was between two calls, with
every call whose commit was over; so the file system is consistent through any number of power
cycles. -/

namespace Xv6Lab.Fs

open Bytes Exec Relation

/-- Calls that run from `s` to `t` issue the commands `acts`. -/
inductive Trace (sb : Superblock) (s : State) : LogActs → State → Prop
  | nil : Trace sb s [] s
  | next {past l : LogActs} {t u : State} (before : Trace sb s past t) {task : Task}
      (proper : task.Proper sb t) (emits : Emits (task.run sb) t l () u)
      (shape : Journal.Shape l) : Trace sb s (past ++ l) u

section Traces

variable {sb : Superblock} {s t u : State} {v : Disk} {acts more p : LogActs}

/-- Every run has a trace. -/
theorem trace_exists (run : ReflTransGen (Proceeds sb) s t) : ∃ acts, Trace sb s acts t := by
  induction run with
  | refl => exact ⟨[], .nil⟩
  | tail _ last ih =>
    obtain ⟨acts, before⟩ := ih
    obtain ⟨task, proper, run⟩ := last
    obtain ⟨l, emits, shape⟩ := task.shape sb _ _ _ run
    exact ⟨acts ++ l, before.next proper emits shape⟩

theorem Trace.run (trace : Trace sb s acts t) : ReflTransGen (Proceeds sb) s t := by
  induction trace with
  | nil => exact .refl
  | next _ proper emits _ ih => exact ih.tail ⟨_, proper, emits.sound.1⟩

theorem Trace.append (one : Trace sb s acts t) (two : Trace sb t more u) :
    Trace sb s (acts ++ more) u := by
  induction two with
  | nil => rwa [List.append_nil]
  | next _ proper emits shape ih =>
    rw [← List.append_assoc]
    exact ih.next proper emits shape

/-- The trace accounts for the blocks and for the operations that are open. -/
theorem Trace.sound (trace : Trace sb s acts t) : t.blocks = Journal.content s.blocks acts ∧
    t.outstanding = Journal.depth s.outstanding acts := by
  induction trace with
  | nil => exact ⟨rfl, rfl⟩
  | next _ _ emits _ ih =>
    obtain ⟨blocks, outstanding⟩ := ih
    obtain ⟨-, blocks', outstanding', -⟩ := emits.sound
    refine ⟨?_, ?_⟩
    · rw [Journal.content_append, ← blocks, blocks']
    · rw [Journal.depth_append, ← outstanding, outstanding']

/-- A place of the trace at which no operation is open lies between two calls. -/
theorem Trace.quiescent (trace : Trace sb s acts t) (inside : p <+: acts)
    (none : Journal.depth s.outstanding p = 0) :
    ∃ u todo, acts = p ++ todo ∧ Trace sb s p u ∧ Trace sb u todo t := by
  induction trace with
  | nil =>
    obtain rfl := List.prefix_nil.mp inside
    exact ⟨s, [], rfl, .nil, .nil⟩
  | @next past l t w before task proper emits shape ih =>
    rcases Journal.cut_append inside with first | ⟨q, rfl, second⟩
    · obtain ⟨u, todo, rfl, one, two⟩ := ih first
      exact ⟨u, todo ++ l, List.append_assoc .., one, two.next proper emits shape⟩
    · rw [Journal.depth_append, ← before.sound.2] at none
      rcases shape.quiescent emits.sound.2.2.2 second none with rfl | rfl
      · refine ⟨t, l, by rw [List.append_nil], by rwa [List.append_nil], ?_⟩
        simpa using Trace.nil.next proper emits shape
      · exact ⟨w, [], (List.append_nil _).symm, before.next proper emits shape, .nil⟩

theorem Trace.good (valid : sb.Valid) (h : Good sb s v) (trace : Trace sb s acts t) :
    ∃ v', Good sb t v' := by
  induction trace with
  | nil => exact ⟨v, h⟩
  | next _ proper emits _ ih =>
    obtain ⟨v', good⟩ := ih
    exact Proceeds.good valid good ⟨_, proper, emits.sound.1⟩

end Traces

/-- The superblock puts the log in front of the inodes. -/
def LogFirst (start : Nat) (sb : Superblock) : Prop := start + LOGBLOCKS < sb.inodestart

section Crash

variable {sb : Superblock} {start : Nat} {s t : State} {v : Disk} {disk disk' : Nat → Block}

/-- The disk after a crash and its recovery is as in state `u`, between the calls that issued `done`
and those that were to issue `todo`.  The log had carried out `past`; every call before the crash is
in `done`, unless its operation was open or the crash interrupted its commit. -/
structure Recovered (sb : Superblock) (start : Nat) (s t : State) (past rest : LogActs)
    (committing : Bool) (disk : Nat → Block) (done todo : LogActs) (u : State) : Prop where
  split : past ++ rest = done ++ todo
  inside : done <+: past
  before : Trace sb s done u
  after : Trace sb u todo t
  closed : u.outstanding = 0
  home : ∀ b, Log.Home start b → disk b = u.blocks b
  durable : ∀ q, q <+: past → Journal.depth 0 q = 0 → q <+: done ∨ committing = true ∧ q = past
  good : Sound sb (powered disk)

theorem Trace.recovered (valid : sb.Valid) (area : LogFirst start sb) (h : Good sb s v)
    (idle : s.outstanding = 0) {past rest done : LogActs} {committing : Bool} {disk₀ : Nat → Block}
    (trace : Trace sb s (past ++ rest) t) (same : ∀ b, Log.Home start b → disk₀ b = s.blocks b)
    (survives : Log.Survives start disk₀ past done committing disk) :
    ∃ todo u, Recovered sb start s t past rest committing disk done todo u := by
  have inside : done <+: past ++ rest := survives.inside.trans (List.prefix_append ..)
  obtain ⟨u, todo, split, before, after⟩ := trace.quiescent inside (by rw [idle, survives.none])
  have home : ∀ b, Log.Home start b → disk b = u.blocks b := fun b here => by
    rw [survives.home b here, before.sound.1]
    exact Journal.content_congr (same b here)
  obtain ⟨w, good⟩ := before.good valid h
  refine ⟨todo, u, split, survives.inside, before, after, ?_, home, survives.last, ?_⟩
  · rw [before.sound.2, idle, survives.none]
  · have safe : Good sb (powered disk) w := good.powered valid fun b low =>
      home b (.inr (Nat.lt_of_lt_of_le area low))
    exact safe.disk valid

/-- Wherever power fails while the log carries out `acts`, and however often recoveries are cut
short, a recovery can complete, and whenever one does, the disk is as it was between two calls. -/
def CrashSafe (sb : Superblock) (start : Nat) (s t : State) (acts : LogActs) : Prop :=
  ∀ booted crashed rest, Log.Initial start booted →
    (∀ b, Log.Home start b → booted.store.disk b = s.blocks b) →
    ReflTransGen (Log.Serves start) (acts, booted) (rest, crashed) →
    ∀ disk, ReflTransGen (Log.RecoversTo start) crashed.store.disk disk →
      (∃ disk', Log.Recovers start disk disk') ∧
      ∀ disk', Log.Recovers start disk disk' → ∃ past done todo u, acts = past ++ rest ∧
        Recovered sb start s t past rest crashed.committing disk' done todo u

/-- Crash consistency.  Every run of the kernel's calls issues log commands, and the log carries
them out safely: after a crash at any point the disk is as it was between two of the calls, with
every call whose commit was over, and the file system on it is consistent. -/
theorem crash_consistent (valid : sb.Valid) (area : LogFirst start sb) (h : Good sb s v)
    (idle : s.outstanding = 0) (run : ReflTransGen (Proceeds sb) s t) :
    ∃ acts, Trace sb s acts t ∧ CrashSafe sb start s t acts := by
  obtain ⟨acts, trace⟩ := trace_exists run
  refine ⟨acts, trace, fun booted crashed rest initial same serves disk recoveries =>
    ⟨Log.recovers_total start disk, fun disk' recovers => ?_⟩⟩
  obtain ⟨past, done, rfl, survives⟩ := Log.serves_survives initial serves recoveries recovers
  obtain ⟨todo, u, recovered⟩ := trace.recovered valid area h idle same survives
  exact ⟨past, done, todo, u, rfl, recovered⟩

/-- One power cycle: the kernel boots from `disk` and makes calls, power fails, and a recovery
completes with `disk'`. -/
def Cycle (sb : Superblock) (start : Nat) (disk disk' : Nat → Block) : Prop :=
  ∃ t acts rest booted crashed cut, Trace sb (powered disk) acts t ∧ Log.Initial start booted ∧
    booted.store.disk = disk ∧
    ReflTransGen (Log.Serves start) (acts, booted) (rest, crashed) ∧
    ReflTransGen (Log.RecoversTo start) crashed.store.disk cut ∧ Log.Recovers start cut disk'

theorem Cycle.sound (valid : sb.Valid) (area : LogFirst start sb) (h : Sound sb (powered disk))
    (cycle : Cycle sb start disk disk') : Sound sb (powered disk') := by
  obtain ⟨t, acts, rest, booted, crashed, cut, trace, initial, rfl, serves, recoveries, recovers⟩ :=
    cycle
  obtain ⟨past, done, rfl, survives⟩ := Log.serves_survives initial serves recoveries recovers
  obtain ⟨todo, u, recovered⟩ := trace.recovered valid area h rfl (fun _ _ => rfl) survives
  exact recovered.good

/-- A consistent disk is consistent after any number of power cycles, wherever they end. -/
theorem cycles_sound (valid : sb.Valid) (area : LogFirst start sb) (h : Sound sb (powered disk))
    (cycles : ReflTransGen (Cycle sb start) disk disk') : Sound sb (powered disk') :=
  Transition.invariant (I := fun disk => Sound sb (powered disk))
    (fun _ _ sound cycle => cycle.sound valid area sound) h cycles

end Crash

/-! ### A file is created on a fresh disk -/

theorem powered_good : Good fsImg (powered image) imageDisk :=
  booted_good.powered fsImg_valid fun _ _ => rfl

theorem fsImg_logFirst : LogFirst 2 fsImg := by
  unfold LogFirst
  decide

theorem create_proceeds : ∃ t, Proceeds fsImg (powered image) t := by
  have ran : (runOperations fsImg [.create pathA T_FILE 0 0] (powered image)).isSome = true := by
    decide +kernel
  unfold runOperations at ran
  split at ran
  · next t done => exact ⟨t, .operation (.create pathA T_FILE 0 0), .inl rfl, done⟩
  · cases ran

theorem crash_consistent_create : ∃ t acts, Proceeds fsImg (powered image) t ∧
    Trace fsImg (powered image) acts t ∧ CrashSafe fsImg 2 (powered image) t acts := by
  obtain ⟨t, step⟩ := create_proceeds
  obtain ⟨acts, trace, safe⟩ :=
    crash_consistent fsImg_valid fsImg_logFirst powered_good rfl (.single step)
  exact ⟨t, acts, step, trace, safe⟩

/-- The log after a boot from the fresh disk. -/
def freshLog : Log.Sys :=
  ⟨⟨image, fun _ => none, fun _ => 0, []⟩, 0, false, .idle, ⟨0, [], [], [], []⟩⟩

theorem freshLog_initial : Log.Initial 2 freshLog := by
  refine ⟨by decide, fun _ _ cached => ?_, rfl, rfl, rfl, rfl, rfl⟩
  cases cached

/-- Power fails before the creation has begun. -/
theorem cycles_sound_create : ∃ disk', Cycle fsImg 2 image disk' ∧ Sound fsImg (powered disk') := by
  obtain ⟨t, step⟩ := create_proceeds
  obtain ⟨acts, trace⟩ := trace_exists (.single step)
  obtain ⟨disk', recovers⟩ := Log.recovers_total 2 image
  have cycle : Cycle fsImg 2 image disk' :=
    ⟨t, acts, acts, freshLog, freshLog, image, trace, freshLog_initial, rfl, .refl, .refl, recovers⟩
  exact ⟨disk', cycle,
    cycles_sound fsImg_valid fsImg_logFirst (powered_good.disk fsImg_valid) (.single cycle)⟩

end Xv6Lab.Fs

import Xv6Lab.Fs.Operations

/-! Runs of the operations of `fs.c` and `file.c` by any number of processes, one operation after the
other.  The state decides what is stored on the disk, and in every run in which pointers are to
inodes in use and directories are written by `create` and `unlink` only, the file system stays
consistent. -/

namespace Xv6Lab.Fs

open Bytes Exec

/-- What the blocks of a state store. -/
def State.disk (sb : Superblock) (s : State) : Disk where
  used b := testBit (s.blocks (sb.bblock b)) (b % BPB)
  inode i := getDinode (s.blocks (sb.iblock i)) (inodeOff i)
  data := s.blocks

section View

variable {sb : Superblock} {s : State} {v : Disk} {i : Nat}

theorem disk_shows : Shows sb s (s.disk sb) := ⟨fun _ _ => rfl, fun _ _ => rfl, fun _ _ _ => rfl⟩

theorem Shows.disk_inode (shows' : Shows sb s v) (inside : i < sb.ninodes) :
    (s.disk sb).inode i = v.inode i :=
  shows'.inode i inside

/-- What an inode stores in its places does not depend on how the disk is described. -/
theorem Shows.disk_at (shows' : Shows sb s v) (own : Own sb v v.inode) (inside : i < sb.ninodes)
    (p : Place) : (s.disk sb).at ((s.disk sb).inode i) p = v.at (v.inode i) p := by
  rw [shows'.disk_inode inside]
  cases p with
  | slot k => rfl
  | word j =>
    by_cases none : (v.inode i).addrs INDIRECT = 0
    · rw [at_word_none none, at_word_none none]
    · obtain ⟨above, below, -⟩ := own.range i inside (.slot INDIRECT) none
      rw [at_word none, at_word none]
      exact congrArg (word · j) (shows'.data _ above below)

theorem Shows.disk_content (shows' : Shows sb s v) (own : Own sb v v.inode) (inside : i < sb.ninodes)
    (off : Nat) : (s.disk sb).content ((s.disk sb).inode i) off = v.content (v.inode i) off := by
  unfold Disk.content
  rw [shows'.disk_at own inside]
  split
  · rfl
  · next some =>
    obtain ⟨above, below, -⟩ := own.range i inside _ some
    exact congrFun (shows'.data _ above below) _

theorem Own.disk (own : Own sb v v.inode) (shows' : Shows sb s v) (valid : sb.Valid) :
    Own sb (s.disk sb) (s.disk sb).inode := by
  have at' := fun i inside p => shows'.disk_at own (i := i) inside p
  refine ⟨fun i hi p some => ?_, fun i hi j hj p q some same => ?_, fun b above below used => ?_,
    fun b low => ?_, fun i hi none => ?_⟩
  · rw [at' i hi] at some ⊢
    obtain ⟨above, below, used⟩ := own.range i hi p some
    exact ⟨above, below, (shows'.used _ below).trans used⟩
  · rw [at' i hi] at some same
    rw [at' j hj] at same
    exact own.alone i hi j hj p q some same
  · obtain ⟨i, hi, p, is⟩ := own.covered b above below ((shows'.used b below).symm.trans used)
    exact ⟨i, hi, p, (at' i hi p).trans is⟩
  · exact (shows'.used b (Nat.lt_of_lt_of_le low valid.meta_le)).trans (own.reserved b low)
  · rw [shows'.disk_inode hi] at none ⊢
    exact own.free i hi none

/-- A consistent file system is consistent in terms of its blocks. -/
theorem Consistent.disk (h : Consistent sb s v) (valid : sb.Valid) : Consistent sb s (s.disk sb) := by
  refine ⟨disk_shows, h.own.disk h.shows valid, fun i hi => ⟨?_, fun o less => ?_⟩, ⟨fun ip live => ?_,
    h.cached.unique⟩⟩
  · rw [h.shows.disk_inode hi]
    exact (h.solid i hi).size
  · rw [h.shows.disk_at h.own hi]
    rw [h.shows.disk_inode hi] at less
    exact (h.solid i hi).mapped o less
  · obtain ⟨dev, within, synced, typed⟩ := h.cached.slot ip live
    exact ⟨dev, within, fun read => (synced read).trans (h.shows.disk_inode within).symm, typed⟩

theorem Good.disk (h : Good sb s v) (valid : sb.Valid) : Good sb s (s.disk sb) := by
  refine ⟨h.toConsistent.disk valid, fun i hi dir off aligned inside => ?_⟩
  rw [h.shows.disk_inode hi] at dir inside
  have same : (fun k => (s.disk sb).content ((s.disk sb).inode i) (off + k)) =
      fun k => v.content (v.inode i) (off + k) :=
    funext fun k => h.shows.disk_content h.own hi (off + k)
  rw [same]
  exact h.entries i hi dir off aligned inside

theorem NoOrphan.disk (none : NoOrphan sb s v) (shows' : Shows sb s v) :
    NoOrphan sb s (s.disk sb) := by
  intro i hi used zero
  rw [shows'.disk_inode hi] at used zero
  exact none i hi used zero

end View

/-- The operations that a process asks for, and what it does between them. -/
inductive Operation
  | create (path : Path) (type major minor : Int16)
  | unlink (path : Path)
  | fsOpen (ip : InodePtr) (readable writable : Bool)
  | close (f : FilePtr)
  | read (f : FilePtr) (dst : Buffer) (n : Int)
  | write (f : FilePtr) (src : Buffer) (n : Int)
  | iput (ip : InodePtr)
  | ilock (ip : InodePtr)
  | iunlock (ip : InodePtr)
  | beginOp
  | endOp
  | schedule (p : Pid)

def Operation.run (sb : Superblock) : Operation → F Unit
  | .create path type major minor => ignore (Fs.create sb path type major minor)
  | .unlink path => ignore (Fs.unlink sb path)
  | .fsOpen ip readable writable => ignore (Fs.fsOpen ip readable writable)
  | .close f => Fs.close sb f
  | .read f dst n => ignore (Fs.read sb f dst n)
  | .write f src n => ignore (Fs.write sb f src n)
  | .iput ip => Fs.iput sb ip
  | .ilock ip => Fs.ilock sb ip
  | .iunlock ip => Fs.iunlock ip
  | .beginOp => Fs.beginOp
  | .endOp => Fs.endOp
  | .schedule p => modify fun s => s.setCurrent p

/-- The path is absolute, or the working directory is in use. -/
def State.Rooted (s : State) (path : Path) : Prop :=
  path.head? = some SLASH ∨ ∀ ip, (s.procs s.current).cwd = some ip → 0 < (s.itable ip).ref

/-- What the callers of `fs.c` and `file.c` see to: the pointers that they pass are to inodes in use,
and no directory is open for writing. -/
def Operation.Proper (sb : Superblock) (s : State) : Operation → Prop
  | .create path _ _ _ => s.Rooted path
  | .unlink path => s.Rooted path
  | .fsOpen ip _ _ => 0 < (s.itable ip).ref
  | .write f _ _ => Plain s (s.disk sb) f
  | _ => True

/-- The blocks that the operation may ask of the log. -/
def Operation.cost (sb : Superblock) (s : State) : Operation → Nat
  | .create _ _ _ _ => 6
  | .unlink _ => 6
  | .close _ => 2
  | .write f _ n => if (s.ftable f).writable then filewriteCost s (s.disk sb) f n.toNat else 0
  | .iput _ => 2
  | _ => 0

section Runs

variable {sb : Superblock} {s t : State} {v : Disk}

theorem ignore_ends {α : Type} {x : F α} {Q : State → Prop} (h : Ends x (fun _ t => Q t) s) :
    Ends (ignore x) (fun _ t => Q t) s :=
  h.bind fun _ _ q => ends_pure q

/-- What an operation leaves: the file system is consistent, and the log has been asked for no more
than the operation's blocks. -/
def OperationPost (sb : Superblock) (k : Nat) (s : State) (v : Disk) (t : State) : Prop :=
  ∃ v' P, Ran sb P s v t v' ∧ (NoOrphan sb s v → Within sb k P)

theorem Ran.post {v' : Disk} {k : Nat} (ran : Ran sb nothing s v t v') : OperationPost sb k s v t :=
  ⟨v', nothing, ran, fun _ => within_nothing⟩

theorem CallPost.post (h : CallPost sb s v t) : OperationPost sb 6 s v t := by
  obtain ⟨v', l, short, moves⟩ := h
  refine ⟨v', _, moves.ran, fun none => ?_⟩
  refine (within_among (show l.length < 6 by omega)).mono fun b log => ?_
  exact log.resolve_left fun untidy => untidy none

theorem setCurrent_ran (h : Good sb s v) (p : Pid) : Ran sb nothing s v (s.setCurrent p) v :=
  ⟨⟨⟨h.shows.congr rfl, h.own, h.solid, h.cached.slot, h.cached.unique⟩, h.entries⟩, .none rfl, id⟩

theorem Operation.ends (valid : sb.Valid) (h : Good sb s (s.disk sb)) (op : Operation)
    (proper : op.Proper sb s) :
    Ends (op.run sb) (fun _ t => OperationPost sb (op.cost sb s) s (s.disk sb) t) s := by
  cases op with
  | create path type major minor =>
    exact ignore_ends ((create_moves valid h path type major minor proper).conseq
      fun _ _ post => post.post)
  | unlink path =>
    exact ignore_ends ((unlink_moves valid h path proper).conseq fun _ _ post => post.post)
  | fsOpen ip readable writable =>
    exact ignore_ends ((fsOpen_ran h proper readable writable).conseq fun _ _ ⟨_, ran⟩ => ran.post)
  | close f =>
    refine (close_ran valid h).conseq fun _ t ⟨v', i, ran⟩ => ⟨v', _, ran, fun _ => ?_⟩
    exact within_among (show [sb.iblock i].length < 2 from Nat.lt_succ_self 1)
  | read f dst n =>
    exact ignore_ends ((read_ran h dst n).conseq fun _ _ ⟨_, ran⟩ => ran.post)
  | write f src n =>
    exact ignore_ends ((write_ran valid h src n proper).conseq
      fun _ _ ⟨v', P, ran, within⟩ => ⟨v', P, ran, fun _ => within⟩)
  | iput ip =>
    refine (iput_moves valid h).conseq fun _ t ⟨v', moves⟩ => ⟨v', _, moves.ran, fun _ => ?_⟩
    refine (within_among (l := [sb.iblock (s.itable ip).inum]) (Nat.lt_succ_self 1)).mono ?_
    rintro b ⟨-, bitmap | is⟩
    · exact .inl bitmap
    · exact .inr (is ▸ List.mem_cons_self)
  | ilock ip =>
    exact (ilock_ends h).conseq fun _ t ⟨step, _⟩ => (step.moves .refl).ran.post
  | iunlock ip => exact iunlock_ends.conseq fun _ t relocked => (relocked_moves h relocked).ran.post
  | beginOp => exact beginOp_ends.conseq fun _ t begun => (relogged_moves h begun).ran.post
  | endOp => exact endOp_ends.conseq fun _ t ended => (relogged_moves h ended).ran.post
  | schedule p => exact ends_modify (setCurrent_ran h p).post

/-- An operation that its caller may ask for runs to its end. -/
def Operates (sb : Superblock) (s t : State) : Prop :=
  ∃ op : Operation, op.Proper sb s ∧ op.run sb s = .ok () t

/-- The file system in terms of the blocks alone. -/
def Sound (sb : Superblock) (s : State) : Prop := Good sb s (s.disk sb)

theorem Sound.step (valid : sb.Valid) (h : Sound sb s) (step : Operates sb s t) : Sound sb t := by
  obtain ⟨op, proper, run⟩ := step
  obtain ⟨v', P, ran, -⟩ := wp_ok (op.ends valid h proper) run
  exact ran.good.disk valid

theorem NoOrphan.step (valid : sb.Valid) (none : NoOrphan sb s (s.disk sb)) (h : Sound sb s)
    (step : Operates sb s t) : NoOrphan sb t (t.disk sb) := by
  obtain ⟨op, proper, run⟩ := step
  obtain ⟨v', P, ran, -⟩ := wp_ok (op.ends valid h proper) run
  exact (ran.tidy none).disk ran.good.shows

theorem Sound.run (valid : sb.Valid) (h : Sound sb s)
    (run : Relation.ReflTransGen (Operates sb) s t) : Sound sb t :=
  Transition.invariant (I := Sound sb) (fun _ _ sound step => sound.step valid step) h run

/-- Every block in use has one owner, in terms of the blocks alone. -/
def Owned (sb : Superblock) (s : State) : Prop := Own sb (s.disk sb) (s.disk sb).inode

/-- Block ownership.  In every state between operations every block in use has one owner and every
inode that is free has no block, and no operation frees a block that is free. -/
theorem owned_always (valid : sb.Valid) (h : Good sb s v)
    (run : Relation.ReflTransGen (Operates sb) s t) :
    Owned sb t ∧ ∀ op : Operation, op.Proper sb t → ∀ u,
      op.run sb t ≠ .error (.panic "freeing free block") u := by
  have sound := Sound.run valid (h.disk valid) run
  refine ⟨sound.own, fun op proper u failed => ?_⟩
  have ends := op.ends valid sound proper
  unfold Ends wp at ends
  rw [failed] at ends
  exact ends rfl

/-- The blocks that were passed to `log_write` from `s` to `t`. -/
def logWrites (s t : State) : Finset Nat := (t.logged.drop s.logged.length).toFinset

/-- Every operation fits its reservation.  In every run from a file system without orphans, an
operation that asks for no more blocks than it may logs no more. -/
theorem call_within_reservation (valid : sb.Valid) (single : sb.size ≤ BPB) (h : Good sb s v)
    (tidy : NoOrphan sb s v) (run : Relation.ReflTransGen (Operates sb) s t) {u : State}
    {op : Operation} (proper : op.Proper sb t) (few : op.cost sb t ≤ MAXOPBLOCKS)
    (done : op.run sb t = .ok () u) : (logWrites t u).card ≤ MAXOPBLOCKS := by
  obtain ⟨sound, none⟩ := Transition.invariant (I := fun t => Sound sb t ∧ NoOrphan sb t (t.disk sb))
    (fun t u ⟨sound, kept⟩ step => ⟨sound.step valid step, kept.step valid sound step⟩)
    ⟨h.disk valid, tidy.disk h.shows⟩ run
  obtain ⟨v', P, ran, within⟩ := wp_ok (op.ends valid sound proper) done
  obtain ⟨F, card, all⟩ := within none single
  obtain ⟨l, is, logged⟩ := ran.logged
  have subset : logWrites t u ⊆ F := by
    intro b inside
    rw [logWrites, is, List.drop_left, List.mem_toFinset] at inside
    exact all b (logged b inside)
  exact (Finset.card_le_card subset).trans (card.trans few)

end Runs

/-- The operations one after the other, whoever asks for them. -/
def runOperations (sb : Superblock) : List Operation → State → Option State
  | [], s => some s
  | op :: rest, s =>
    match op.run sb s with
    | .ok _ t => runOperations sb rest t
    | .error _ _ => none

theorem image_entries : Entries fsImg imageDisk := by
  intro i _ dir off aligned inside
  by_cases root : i = ROOTINO
  · have inode : imageDisk.inode i = rootDinode := if_pos root
    rw [inode] at inside ⊢
    have all : ((List.range 64).all fun k =>
        decide (deInum (fun j => imageDisk.content rootDinode (16 * k + j)) < 200)) = true := by
      decide +kernel
    have size : off + 16 ≤ 1024 := inside
    have index : off % 16 = 0 := aligned
    have entry := of_decide_eq_true (List.all_eq_true.mp all (off / 16)
      (List.mem_range.mpr (by omega)))
    rw [show 16 * (off / 16) = off by omega] at entry
    exact entry
  · have inode : imageDisk.inode i = freshDinode 0 := if_neg root
    rw [inode] at dir
    exact absurd dir (by decide)

theorem booted_good : Good fsImg booted imageDisk := ⟨booted_consistent, image_entries⟩

/-- The image has no inode without links. -/
theorem image_noOrphan (s : State) : NoOrphan fsImg s imageDisk := by
  intro i _ used zero
  by_cases root : i = ROOTINO
  · subst root
    exact absurd zero (by decide)
  · have inode : imageDisk.inode i = freshDinode 0 := if_neg root
    rw [inode] at used
    exact absurd rfl used

theorem booted_noOrphan : NoOrphan fsImg booted imageDisk := image_noOrphan booted

/-- The root directory with a second kilobyte that has no block. -/
def holedDinode : Dinode := { rootDinode with size := 2048 }

/-- A file system whose root directory has a hole, with the directory open for reading. -/
def holed : State :=
  (booted.setBlock 33 (setDinode (booted.blocks 33) 64 holedDinode)).setFile 0
    ⟨.inode, 1, true, false, some 0, 1024⟩

theorem holed_owned : Owned fsImg holed := by
  have before : Shows fsImg booted imageDisk := image_shows rfl
  have inside : ROOTINO < fsImg.ninodes := by decide
  have shows' : Shows fsImg holed (imageDisk.setInode ROOTINO holedDinode) := by
    refine (before.setInode fsImg_valid inside (setDinode (booted.blocks 33) 64 holedDinode) _
      (getDinode_setDinode ⟨by decide, by decide⟩) fun j away => setDinode_out ?_).congr rfl
    exact away
  have own : Own fsImg (imageDisk.setInode ROOTINO holedDinode)
      (imageDisk.setInode ROOTINO holedDinode).inode :=
    image_own.setInode rfl fun none => absurd none (by decide)
  exact own.disk shows' fsImg_valid

/-- A block that is free, in the first slot of an inode, has no owner. -/
theorem not_owned {s : State} {i b : Nat} (inside : i < 200) (stored : ((s.disk fsImg).inode i).addrs 0 = b)
    (some : b ≠ 0) (free : (s.disk fsImg).used b = false) : ¬ Owned fsImg s := by
  intro owned
  subst stored
  have used := (owned.range i inside (.slot 0) some).2.2
  rw [show (s.disk fsImg).at ((s.disk fsImg).inode i) (.slot 0) = ((s.disk fsImg).inode i).addrs 0
    from rfl, free] at used
  cases used

/-- Two files in the root directory. -/
def pathA : Path := [SLASH, 97]
def pathB : Path := [SLASH, 98]

/-- A file is created, and unlinked after its pointer has been dropped; then the pointer is used. -/
def staleOpen : List Operation :=
  [.create pathB T_FILE 0 0, .create pathA T_FILE 0 0, .fsOpen 2 true true, .write 0 (fun _ => 1) 1,
    .close 0, .iput 1, .iput 2, .unlink pathA, .fsOpen 2 true true, .write 0 (fun _ => 1) 1]

/-- A block of a file made to look like an inode that has the block of the root directory. -/
def forgedBlock : Buffer :=
  fun i => if i = 640 then 2 else if i = 646 then 1 else if i = 652 then 47 else 0

/-- An entry for an inode beyond the last is written to the root directory, and unlinked. -/
def forgedEntry : List Operation :=
  [.create pathA T_FILE 0 0, .fsOpen 1 true true, .write 0 forgedBlock 704, .fsOpen 0 true true,
    .write 1 (fun i => if i = 0 then 250 else if i = 2 then 98 else 0) 16, .unlink pathB]

theorem staleOpen_frees : ((runOperations fsImg staleOpen booted).any fun t =>
    decide (((t.disk fsImg).inode 3).addrs 0 = 48 ∧ (t.disk fsImg).used 48 = false)) = true := by
  decide +kernel

theorem forgedEntry_frees : ((runOperations fsImg forgedEntry booted).any fun t =>
    decide (((t.disk fsImg).inode 1).addrs 0 = 47 ∧ (t.disk fsImg).used 47 = false)) = true := by
  decide +kernel

/-- A read of the hole takes a block that no inode on disk stores. -/
theorem holed_leaks : ((runOperations fsImg [.read 0 (fun _ => 0) 1] holed).any fun t =>
    (t.disk fsImg).used 48 && (List.range 200).all fun i => (List.finRange 13).all fun k =>
      decide (((t.disk fsImg).inode i).addrs k ≠ 48 ∧ ((t.disk fsImg).inode i).addrs INDIRECT = 0))
      = true := by
  decide +kernel

/-- Ownership is lost by a read of a hole, by the use of a pointer that was dropped, and by a write
to a directory. -/
theorem ownership_lost :
    (Owned fsImg holed ∧ ∃ t, runOperations fsImg [.read 0 (fun _ => 0) 1] holed = some t ∧
      ¬ Owned fsImg t) ∧
    Owned fsImg booted ∧
    (∃ t, runOperations fsImg staleOpen booted = some t ∧ ¬ Owned fsImg t) ∧
    ∃ t, runOperations fsImg forgedEntry booted = some t ∧ ¬ Owned fsImg t := by
  refine ⟨⟨holed_owned, ?_⟩, (booted_good.disk fsImg_valid).own, ?_, ?_⟩
  · obtain ⟨t, run, leaked⟩ := (Option.any_eq_true _ _).mp holed_leaks
    obtain ⟨used, nowhere⟩ := Bool.and_eq_true_iff.mp leaked
    refine ⟨t, run, fun owned => ?_⟩
    obtain ⟨i, inside, p, is⟩ := owned.covered 48 (by decide) (by decide) used
    have slots : ∀ k, ((t.disk fsImg).inode i).addrs k ≠ 48 ∧
        ((t.disk fsImg).inode i).addrs INDIRECT = 0 := fun k =>
      of_decide_eq_true (List.all_eq_true.mp (List.all_eq_true.mp nowhere i
        (List.mem_range.mpr inside)) k (List.mem_finRange k))
    cases p with
    | slot k => exact (slots k).1 is
    | word j =>
      rw [at_word_none (slots 0).2] at is
      exact absurd is (by decide)
  · obtain ⟨t, run, freed⟩ := (Option.any_eq_true _ _).mp staleOpen_frees
    obtain ⟨stored, free⟩ := of_decide_eq_true freed
    exact ⟨t, run, not_owned (by decide) stored (by decide) free⟩
  · obtain ⟨t, run, freed⟩ := (Option.any_eq_true _ _).mp forgedEntry_frees
    obtain ⟨stored, free⟩ := of_decide_eq_true freed
    exact ⟨t, run, not_owned (by decide) stored (by decide) free⟩

theorem create_returns : ∃ u, Operation.run fsImg (.create pathA T_FILE 0 0) booted = .ok () u := by
  have ran : (runOperations fsImg [.create pathA T_FILE 0 0] booted).isSome = true := by decide +kernel
  unfold runOperations at ran
  split at ran
  · next u done => exact ⟨u, done⟩
  · cases ran

/-- After the creation of a file in a fresh file system. -/
theorem owned_always_booted : ∃ t, Operation.run fsImg (.create pathA T_FILE 0 0) booted = .ok () t ∧
    Owned fsImg t := by
  obtain ⟨t, done⟩ := create_returns
  exact ⟨t, done, (owned_always fsImg_valid booted_good
    (.single ⟨.create pathA T_FILE 0 0, .inl rfl, done⟩)).1⟩

/-- The creation of a file in a fresh file system. -/
theorem call_within_reservation_booted : ∃ u,
    Operation.run fsImg (.create pathA T_FILE 0 0) booted = .ok () u ∧
    (logWrites booted u).card ≤ MAXOPBLOCKS := by
  obtain ⟨u, done⟩ := create_returns
  exact ⟨u, done, call_within_reservation fsImg_valid (by decide) booted_good booted_noOrphan .refl
    (show Operation.Proper _ _ (.create pathA T_FILE 0 0) from .inl rfl) (by decide) done⟩

theorem write_exceeds : ((runOperations fsImg [.create pathA T_FILE 0 0, .fsOpen 1 true true]
    booted).any fun t =>
    match Operation.run fsImg (.write 0 (fun _ => 1) 9216) t with
    | .ok _ u => decide (MAXOPBLOCKS < (logWrites t u).card)
    | .error _ _ => false) = true := by
  decide +kernel

/-- One `write` of nine blocks to a new file logs eleven. -/
theorem reservation_exceeded : fsImg.size ≤ BPB ∧ ∃ t u,
    runOperations fsImg [.create pathA T_FILE 0 0, .fsOpen 1 true true] booted = some t ∧
    Operation.run fsImg (.write 0 (fun _ => 1) 9216) t = .ok () u ∧
    MAXOPBLOCKS < (logWrites t u).card := by
  obtain ⟨t, run, more⟩ := (Option.any_eq_true _ _).mp write_exceeds
  refine ⟨by decide, t, ?_⟩
  split at more
  · next u done => exact ⟨u, run, done, of_decide_eq_true more⟩
  · cases more

end Xv6Lab.Fs

import Xv6Lab.Fs.Reclaim
import Xv6Lab.Fs.Transactions

/-! What `kernel_main` does with a disk after the log has been recovered: `ireclaim`, a look at the
root directory, and the working directory of the first process.  A consistent disk gives a consistent
file system, and the boot keeps it so. -/

namespace Xv6Lab.Fs

open Bytes Exec Effect

section Code

variable (sb : Superblock)

/-- The loop of `fsinit` that prints the entries of the root directory, from `offset` on. -/
def showEntries (root : InodePtr) : Nat → Nat → F Unit
  | 0, _ => pure ()
  | fuel + 1, offset => do
    let s ← get
    if offset < (s.itable root).size then
      let (r, _) ← readi sb root (fun _ => 0) offset DIRENT
      if r ≠ DIRENT then pure () else showEntries root fuel (offset + DIRENT)
    else
      pure ()

/-- `fsinit`: the root inode. -/
def showRoot : F Unit := do
  let root ← iget ROOTDEV ROOTINO
  ilock sb root
  let s ← get
  if (s.itable root).type = T_DIR then
    showEntries sb root ((s.itable root).size / DIRENT + 1) 0
  else
    pure ()
  iunlock root
  iput sb root

/-- `kernel_main` sets the working directory. -/
def setCwd : F Unit := do
  let rootip ← iget ROOTDEV ROOTINO
  let s ← get
  updProc s.current fun proc => { proc with cwd := some rootip }

/-- What the kernel does one after the other: the steps of the boot, and operations. -/
inductive Task
  | ireclaim
  | showRoot
  | setCwd
  | operation (op : Operation)

def Task.run : Task → F Unit
  | .ireclaim => Fs.ireclaim sb ROOTDEV
  | .showRoot => Fs.showRoot sb
  | .setCwd => Fs.setCwd
  | .operation op => op.run sb

def Task.Proper (s : State) : Task → Prop
  | .operation op => op.Proper sb s
  | _ => True

/-- A task that may be asked for runs to its end. -/
def Proceeds (s t : State) : Prop := ∃ task : Task, task.Proper sb s ∧ task.run sb s = .ok () t

end Code

/-- Memory when the power comes on. -/
def powered (disk : Nat → Block) : State where
  blocks := disk
  outstanding := 0
  lh := []
  logged := []
  itable _ := ⟨⟨0, 0, 0, 0, 0, fun _ => 0⟩, 0, 0, 0, false, none⟩
  ftable _ := ⟨.none, 0, false, false, none, 0⟩
  procs p := ⟨if p = 0 then .running else .unused, none, none, fun _ => none⟩
  current := 0

section Powered

variable {sb : Superblock} {s : State} {v : Disk} {disk : Nat → Block}

/-- What a state stores is consistent on its own, and the blocks before the inodes play no part. -/
theorem Good.powered (valid : sb.Valid) (h : Good sb s v)
    (same : ∀ b, sb.inodestart ≤ b → disk b = s.blocks b) : Good sb (powered disk) v := by
  have inodes (i : Nat) : sb.inodestart ≤ sb.iblock i := Nat.le_add_left _ _
  have start : sb.inodestart ≤ sb.bmapstart :=
    (inodes ROOTINO).trans (Nat.le_of_lt (valid.inodes ROOTINO valid.root))
  have bits (b : Nat) : sb.inodestart ≤ sb.bblock b := start.trans (Nat.le_add_left _ _)
  refine ⟨⟨⟨fun b inside => ?_, fun i inside => ?_, fun b above inside => ?_⟩, h.own, h.solid,
    ⟨fun ip live => absurd live (Int.lt_irrefl 0), fun ip _ live => absurd live (Int.lt_irrefl 0)⟩⟩,
    h.entries⟩
  · exact (congrArg (testBit · (b % BPB)) (same _ (bits b))).trans (h.shows.used b inside)
  · exact (congrArg (getDinode · (inodeOff i)) (same _ (inodes i))).trans (h.shows.inode i inside)
  · have low : sb.inodestart ≤ b := start.trans
      ((Nat.le_of_lt (valid.bmapstart_lt b inside)).trans above)
    exact (same b low).trans (h.shows.data b above inside)

end Powered

/-! ### The boot keeps the file system consistent -/

section Keeps

variable {sb : Superblock} {ip : InodePtr} {s : State} {v : Disk}

/-- Where the file system is consistent, it is afterwards. -/
def Keeps (sb : Superblock) {α : Type} (x : F α) : Prop :=
  ∀ s v, Good sb s v → Ends x (fun _ t => ∃ v', Good sb t v') s

theorem Keeps.bind {α β : Type} {x : F α} {f : α → F β} (first : Keeps sb x)
    (then' : ∀ a, Keeps sb (f a)) : Keeps sb (x >>= f) := fun s v h =>
  (first s v h).bind fun a t ⟨v', good⟩ => then' a t v' good

theorem keeps_pure {α : Type} {a : α} : Keeps sb (pure a : F α) := fun _ v h => ends_pure ⟨v, h⟩

theorem keeps_iput (valid : sb.Valid) : Keeps sb (iput sb ip) := fun _ _ h =>
  (iput_moves valid h).conseq fun _ _ ⟨v', moves⟩ => ⟨v', moves.good⟩

theorem keeps_iunlock : Keeps sb (iunlock ip) := fun _ v h =>
  iunlock_ends.conseq fun _ _ relocked => ⟨v, (relocked_moves (P := nothing) h relocked).good⟩

theorem keeps_ireclaimInode (valid : sb.Valid) {k : Nat} (inside : k < sb.ninodes) :
    Keeps sb (ireclaimInode sb ROOTDEV k) := by
  refine Keeps.bind (fun s v h => ends_get (ends_pure ⟨v, h⟩)) fun data => ?_
  dsimp only
  split
  · refine Keeps.bind (fun s v h => (iget_ends h inside).conseq fun _ _ got => ⟨v, got.1.good⟩)
      fun ip => ?_
    refine Keeps.bind (fun s v h => (ilock_ends h).conseq fun _ _ locked => ⟨v, locked.1.good⟩)
      fun _ => ?_
    exact keeps_iunlock.bind fun _ => keeps_iput valid
  · exact keeps_pure

theorem keeps_ireclaimFrom (valid : sb.Valid) (count k : Nat) (all : k + count ≤ sb.ninodes) :
    Keeps sb (ireclaimFrom sb ROOTDEV count k) := by
  induction count generalizing k with
  | zero => exact keeps_pure
  | succ count ih =>
    exact (keeps_ireclaimInode valid (by omega)).bind fun _ => ih (k + 1) (by omega)

theorem keeps_ireclaim (valid : sb.Valid) : Keeps sb (ireclaim sb ROOTDEV) := by
  have root : 1 < sb.ninodes := valid.root
  refine Keeps.bind (fun s v h => beginOp_ends.conseq fun _ _ begun =>
    ⟨v, (relogged_moves (P := nothing) h begun).good⟩) fun _ => ?_
  refine Keeps.bind (keeps_ireclaimFrom valid _ 1 (by omega)) fun _ s v h => ?_
  exact endOp_ends.conseq fun _ _ ended => ⟨v, (relogged_moves (P := nothing) h ended).good⟩

theorem showEntries_ends (h : Good sb s v) (ready : Ready s ip) (fuel offset : Nat) :
    Ends (showEntries sb ip fuel offset) (fun _ t => t = s) s := by
  induction fuel generalizing offset with
  | zero => exact ends_pure rfl
  | succ fuel ih =>
    refine ends_get ?_
    split
    · refine (readi_same h ready _ (by decide)).bind fun ⟨r, de⟩ t same => ?_
      subst same
      dsimp only
      split
      · exact ends_pure rfl
      · exact ih _
    · exact ends_pure rfl

theorem keeps_showRoot (valid : sb.Valid) : Keeps sb (showRoot sb) := by
  intro s v h
  refine (iget_ends h valid.root).bind fun root t ⟨one, _⟩ => ?_
  refine (ilock_ends one.good).bind fun _ u ⟨two, ready, _⟩ => ends_get ?_
  have rest : Keeps sb (do
      iunlock root
      iput sb root) := keeps_iunlock.bind fun _ => keeps_iput valid
  dsimp only
  split
  · refine (showEntries_ends two.good ready _ _).bind fun _ w same => ?_
    subst same
    exact rest _ v two.good
  · exact rest u v two.good

theorem keeps_setCwd (valid : sb.Valid) : Keeps sb setCwd := by
  intro s v h
  refine (iget_ends h valid.root).bind fun root t ⟨one, _⟩ => ends_get (ends_modify ⟨v, ?_⟩)
  have good := one.good
  exact ⟨⟨good.shows.congr rfl, good.own, good.solid, good.cached.slot, good.cached.unique⟩,
    good.entries⟩

/-- Every task that the kernel may run keeps the file system consistent. -/
theorem Proceeds.good (valid : sb.Valid) {t : State} (h : Good sb s v) (step : Proceeds sb s t) :
    ∃ v', Good sb t v' := by
  obtain ⟨task, proper, run⟩ := step
  cases task with
  | ireclaim => exact wp_ok (keeps_ireclaim valid s v h) run
  | showRoot => exact wp_ok (keeps_showRoot valid s v h) run
  | setCwd => exact wp_ok (keeps_setCwd valid s v h) run
  | operation op => exact ⟨_, Sound.step valid (h.disk valid) ⟨op, proper, run⟩⟩

end Keeps

/-! ### What the boot asks of the log -/

section Shapes

variable {sb : Superblock} {ip : InodePtr}

theorem ireclaimInode_writes (dev k : Nat) : Writes (ireclaimInode sb dev k) := by
  refine quiet_then (bread_quiet _) fun data => ?_
  dsimp only
  split
  · exact quiet_then (iget_quiet _ _) fun _ => quiet_then ilock_quiet fun _ =>
      quiet_then iunlock_quiet fun _ => iput_writes
  · exact writes_pure

theorem ireclaimFrom_writes (dev count k : Nat) : Writes (ireclaimFrom sb dev count k) := by
  induction count generalizing k with
  | zero => exact writes_pure
  | succ count ih => exact (ireclaimInode_writes _ _).bind fun _ => ih _

theorem showEntries_writes (fuel offset : Nat) : Writes (showEntries sb ip fuel offset) := by
  induction fuel generalizing offset with
  | zero => exact writes_pure
  | succ fuel ih =>
    refine get_then fun s => ?_
    split
    · refine (readi_writes _ _ _).bind fun ⟨r, de⟩ => ?_
      dsimp only
      split
      · exact writes_pure
      · exact ih _
    · exact writes_pure

theorem showRoot_writes : Writes (showRoot sb) := by
  refine quiet_then (iget_quiet _ _) fun root => quiet_then ilock_quiet fun _ => get_then fun s => ?_
  have rest : Writes (do
      iunlock root
      iput sb root) := quiet_then iunlock_quiet fun _ => iput_writes
  dsimp only
  split
  · exact (showEntries_writes _ _).bind fun _ => rest
  · exact rest

theorem setCwd_quiet : Quiet setCwd :=
  (iget_quiet _ _).bind fun _ => has_get fun _ => neutral_modify fun _ => ⟨rfl, rfl, rfl, rfl⟩

/-- `ireclaim` is one transaction, and the rest of the boot is none. -/
theorem Task.shape (sb : Superblock) (task : Task) : Issues Journal.Shape (task.run sb) := by
  cases task with
  | ireclaim => exact begin_whole ((ireclaimFrom_writes _ _ _).closes fun _ => finish_closes)
  | showRoot => exact showRoot_writes.shape
  | setCwd => exact (writes_quiet setCwd_quiet).shape
  | operation op => exact op.shape sb

end Shapes

end Xv6Lab.Fs

import Xv6Lab.Fs.Layout
import Xv6Lab.Log.Model
import Xv6Lab.Vm.Memory

/-! The state of the file system: the blocks as `bread` returns them, the log's bookkeeping, the
tables of in-memory inodes and open files, and what a process holds of these.  Calls run to their
end one after another, so a lock that another process holds, and a log that another operation
fills, are waits that nobody ends. -/

namespace Xv6Lab.Fs

open Bytes Exec
open Vm (ProcState)

def NINODE : Nat := 50
def NFILE : Nat := 100
def NOFILE : Nat := 16

/-- Processes, which `pid` numbers. -/
abbrev Pid := Vm.Slot

/-- Pointers into `itable.inode`. -/
abbrev InodePtr := Fin NINODE

/-- Pointers into `ftable.file`. -/
abbrev FilePtr := Fin NFILE

instance : NeZero NINODE := ⟨by decide⟩
instance : NeZero NFILE := ⟨by decide⟩

/-- `struct inode`: the copy of the inode on disk, and what the table adds to it. -/
structure Inode extends Dinode where
  dev : Nat
  inum : Nat
  ref : Int
  valid : Bool
  /-- The process that holds the sleeplock. -/
  lock : Option Pid

inductive FdType
  | none | inode
  deriving DecidableEq, Repr

/-- `struct file`, for files that are no pipes and no devices. -/
structure File where
  type : FdType
  ref : Int
  readable : Bool
  writable : Bool
  ip : Option InodePtr
  off : Nat

/-- The fields of `struct proc` that refer to files. -/
structure Proc where
  state : ProcState
  parent : Option Pid
  cwd : Option InodePtr
  ofile : Fin NOFILE → Option FilePtr

structure State where
  blocks : Nat → Block
  /-- `log.outstanding` and `log.lh`. -/
  outstanding : Nat
  lh : List Nat
  /-- The blocks that were passed to `log_write`, for the record. -/
  logged : List Nat
  itable : InodePtr → Inode
  ftable : FilePtr → File
  procs : Pid → Proc
  /-- `myproc()` -/
  current : Pid

/-- What ends a call without a return: `panic`, a wait that nobody ends, the use of a null pointer,
or the end of the whole system. -/
inductive Halt
  | panic (msg : String)
  | blocked
  | nullPointer
  | shutdown
  deriving DecidableEq

/-- Code of the file system. -/
abbrev F := EStateM Halt State

def panic {α : Type} (msg : String) : F α := throw (.panic msg)

namespace State

def setBlock (s : State) (b : Nat) (data : Block) : State :=
  { s with blocks := Function.update s.blocks b data }

def setLog (s : State) (outstanding : Nat) (lh : List Nat) : State := { s with outstanding, lh }

def record (s : State) (b : Nat) : State := { s with logged := s.logged ++ [b] }

def setInode (s : State) (ip : InodePtr) (inode : Inode) : State :=
  { s with itable := Function.update s.itable ip inode }

def setFile (s : State) (f : FilePtr) (file : File) : State :=
  { s with ftable := Function.update s.ftable f file }

def setProc (s : State) (p : Pid) (proc : Proc) : State :=
  { s with procs := Function.update s.procs p proc }

def setCurrent (s : State) (p : Pid) : State := { s with current := p }

section Setters

variable (s : State) (b : Nat) (data : Block) (n : Nat) (lh : List Nat) (ip : InodePtr)
  (inode : Inode) (f : FilePtr) (file : File) (p : Pid) (proc : Proc)

@[simp] theorem setBlock_blocks :
    (s.setBlock b data).blocks = Function.update s.blocks b data := rfl
@[simp] theorem setBlock_outstanding : (s.setBlock b data).outstanding = s.outstanding := rfl
@[simp] theorem setBlock_lh : (s.setBlock b data).lh = s.lh := rfl
@[simp] theorem setBlock_logged : (s.setBlock b data).logged = s.logged := rfl
@[simp] theorem setBlock_itable : (s.setBlock b data).itable = s.itable := rfl
@[simp] theorem setBlock_ftable : (s.setBlock b data).ftable = s.ftable := rfl
@[simp] theorem setBlock_procs : (s.setBlock b data).procs = s.procs := rfl
@[simp] theorem setBlock_current : (s.setBlock b data).current = s.current := rfl
@[simp] theorem setLog_blocks : (s.setLog n lh).blocks = s.blocks := rfl
@[simp] theorem setLog_outstanding : (s.setLog n lh).outstanding = n := rfl
@[simp] theorem setLog_lh : (s.setLog n lh).lh = lh := rfl
@[simp] theorem setLog_logged : (s.setLog n lh).logged = s.logged := rfl
@[simp] theorem setLog_itable : (s.setLog n lh).itable = s.itable := rfl
@[simp] theorem setLog_ftable : (s.setLog n lh).ftable = s.ftable := rfl
@[simp] theorem setLog_procs : (s.setLog n lh).procs = s.procs := rfl
@[simp] theorem setLog_current : (s.setLog n lh).current = s.current := rfl
@[simp] theorem record_blocks : (s.record b).blocks = s.blocks := rfl
@[simp] theorem record_outstanding : (s.record b).outstanding = s.outstanding := rfl
@[simp] theorem record_lh : (s.record b).lh = s.lh := rfl
@[simp] theorem record_logged : (s.record b).logged = s.logged ++ [b] := rfl
@[simp] theorem record_itable : (s.record b).itable = s.itable := rfl
@[simp] theorem record_ftable : (s.record b).ftable = s.ftable := rfl
@[simp] theorem record_procs : (s.record b).procs = s.procs := rfl
@[simp] theorem record_current : (s.record b).current = s.current := rfl
@[simp] theorem setInode_blocks : (s.setInode ip inode).blocks = s.blocks := rfl
@[simp] theorem setInode_outstanding : (s.setInode ip inode).outstanding = s.outstanding := rfl
@[simp] theorem setInode_lh : (s.setInode ip inode).lh = s.lh := rfl
@[simp] theorem setInode_logged : (s.setInode ip inode).logged = s.logged := rfl
@[simp] theorem setInode_itable :
    (s.setInode ip inode).itable = Function.update s.itable ip inode := rfl
@[simp] theorem setInode_ftable : (s.setInode ip inode).ftable = s.ftable := rfl
@[simp] theorem setInode_procs : (s.setInode ip inode).procs = s.procs := rfl
@[simp] theorem setInode_current : (s.setInode ip inode).current = s.current := rfl
@[simp] theorem setFile_blocks : (s.setFile f file).blocks = s.blocks := rfl
@[simp] theorem setFile_outstanding : (s.setFile f file).outstanding = s.outstanding := rfl
@[simp] theorem setFile_lh : (s.setFile f file).lh = s.lh := rfl
@[simp] theorem setFile_logged : (s.setFile f file).logged = s.logged := rfl
@[simp] theorem setFile_itable : (s.setFile f file).itable = s.itable := rfl
@[simp] theorem setFile_ftable :
    (s.setFile f file).ftable = Function.update s.ftable f file := rfl
@[simp] theorem setFile_procs : (s.setFile f file).procs = s.procs := rfl
@[simp] theorem setFile_current : (s.setFile f file).current = s.current := rfl
@[simp] theorem setProc_blocks : (s.setProc p proc).blocks = s.blocks := rfl
@[simp] theorem setProc_logged : (s.setProc p proc).logged = s.logged := rfl
@[simp] theorem setProc_itable : (s.setProc p proc).itable = s.itable := rfl
@[simp] theorem setProc_ftable : (s.setProc p proc).ftable = s.ftable := rfl
@[simp] theorem setProc_procs :
    (s.setProc p proc).procs = Function.update s.procs p proc := rfl
@[simp] theorem setCurrent_itable : (s.setCurrent p).itable = s.itable := rfl
@[simp] theorem setCurrent_ftable : (s.setCurrent p).ftable = s.ftable := rfl
@[simp] theorem setCurrent_procs : (s.setCurrent p).procs = s.procs := rfl

end Setters

end State

/-! ### Buffers and the log -/

/-- The contents that `bread` returns. -/
def bread (b : Nat) : F Block := do
  let s ← get
  pure (s.blocks b)

/-- Stores to `bp->data` of the buffer of block `b`. -/
def bstore (b : Nat) (data : Block) : F Unit := modify fun s => s.setBlock b data

/-- `log_write` of the buffer of block `b`. -/
def logWrite (b : Nat) : F Unit := do
  modify fun s => s.record b
  let s ← get
  if LOGBLOCKS ≤ s.lh.length then
    panic "too big a transaction"
  else if s.outstanding < 1 then
    panic "log_write outside of trans"
  else if b ∈ s.lh then
    pure ()
  else
    set (s.setLog s.outstanding (s.lh ++ [b]))

/-- `begin_op` -/
def beginOp : F Unit := do
  let s ← get
  if Log.logFull s.lh.length s.outstanding then
    throw .blocked
  else
    set (s.setLog (s.outstanding + 1) s.lh)

/-- `end_op`.  The commit that the last operation runs leaves every block as it is, and the header
empty. -/
def endOp : F Unit :=
  modify fun s => s.setLog (s.outstanding - 1) (if s.outstanding - 1 = 0 then [] else s.lh)

/-! ### Inodes and their locks -/

/-- Assignments to fields of `*ip`. -/
def updInode (ip : InodePtr) (f : Inode → Inode) : F Unit :=
  modify fun s => s.setInode ip (f (s.itable ip))

/-- `acquiresleep(&ip->lock)` -/
def acquiresleep (ip : InodePtr) : F Unit := do
  let s ← get
  match (s.itable ip).lock with
  | none => updInode ip fun inode => { inode with lock := some s.current }
  | some p => if p = s.current then panic "acquiresleep: recursive lock" else throw .blocked

/-- `releasesleep(&ip->lock)` -/
def releasesleep (ip : InodePtr) : F Unit := do
  let s ← get
  match (s.itable ip).lock with
  | none => panic "releasesleep: lock not held"
  | some p =>
    if p = s.current then
      updInode ip fun inode => { inode with lock := none }
    else
      panic "releasesleep: not lock owner"

/-- `holdingsleep(&ip->lock)` -/
def State.holdingsleep (s : State) (ip : InodePtr) : Prop := (s.itable ip).lock = some s.current

instance (s : State) (ip : InodePtr) : Decidable (s.holdingsleep ip) :=
  inferInstanceAs (Decidable (_ = _))

end Xv6Lab.Fs

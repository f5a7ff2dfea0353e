import Mathlib.Logic.Function.Basic
import Xv6Lab.Lib.Prog
import Xv6Lab.Log.Model

/-! The shared state through which the processes of the kernel synchronise, and the commands of one
process on it.  A command is what the code does at once: taking a spinlock, testing the condition of
a loop that sleeps, reading or writing a field under its lock.  What decides a branch of the code but
plays no part in the synchronisation (file contents, names, whether a buffer is valid) is a reply
that may be anything. -/

namespace Xv6Lab.Conc

/-- The sleeplocks.  Inodes are named by their inode number: an inode in use has one slot of
`itable`, and a slot is given to another inode only when nobody refers to it. -/
inductive Lock
  | buf (i : Nat)
  | inode (i : Nat)
  deriving DecidableEq, Repr

/-- The spinlocks; `inner l` is the `lk` field of sleeplock `l`. -/
inductive Spin
  | log
  | bcache
  | itable
  | ftable
  | disk
  | inner (l : Lock)
  deriving DecidableEq, Repr

/-- The loops around `sleep`, each with what the code does when its condition is met. -/
inductive Wait
  /-- `while (lk->locked) sleep(lk, &lk->lk); lk->locked = 1; lk->pid = myproc()->pid`. -/
  | sleeplock (l : Lock)
  /-- The loop of `begin_op`. -/
  | logSpace
  /-- `while (alloc3_desc(idx) != 0) sleep(&disk.free[0], &disk.vdisk_lock)`. -/
  | descriptors
  /-- `while (b->disk == 1) { sleep(b, &disk.vdisk_lock); yield(); }`. -/
  | disk (b : Nat)
  deriving DecidableEq, Repr

/-- The spinlock that the loop holds while it tests its condition. -/
def Wait.lock : Wait → Spin
  | sleeplock l => .inner l
  | logSpace => .log
  | descriptors => .disk
  | disk _ => .disk

/-- `type` of an inode. -/
inductive Kind
  | free
  | dir
  | file
  | device
  deriving DecidableEq, Repr

inductive Cmd
  | acquire (lk : Spin)
  | release (lk : Spin)
  | await (w : Wait)
  /-- `lk->locked`. -/
  | locked (l : Lock)
  /-- `lk->locked && lk->pid == myproc()->pid`. -/
  | holding (l : Lock)
  /-- `lk->locked = 0; lk->pid = 0`. -/
  | unlock (l : Lock)
  /-- `log.outstanding -= 1`, with its new value. -/
  | leaveOp
  | outstanding
  | committing
  | setCommitting (b : Bool)
  /-- `log.lh.n`. -/
  | logN
  | clearLog
  /-- Block `b` joins `log.lh` unless it is there; was it new? -/
  | logBlock (b : Nat)
  /-- `b->disk = 1` and the request goes to the device. -/
  | submit (b : Nat)
  | freeChain
  /-- `ip->ref`. -/
  | getRef (i : Nat)
  /-- `ip->ref++`. -/
  | incRef (i : Nat)
  /-- `ip->ref--`. -/
  | decRef (i : Nat)
  /-- `ip->type`. -/
  | getKind (i : Nat)
  /-- The scan of `dirlookup`: an entry of directory `d`, or none. -/
  | entry (d : Nat)
  /-- `dirlink` stores an entry for `i` in `d`. -/
  | link (d i : Nat)
  /-- `unlink` clears an entry for `i` in `d`. -/
  | clearEntry (d i : Nat)
  /-- `ialloc` marks a free inode. -/
  | markInode (k : Kind)
  /-- `iput` truncates the inode and clears its type. -/
  | clearInode (i : Nat)
  /-- `myproc()->cwd`. -/
  | cwd
  | fdget
  | fdalloc (i : Nat)
  /-- `p->ofile[fd] = 0` for a descriptor of inode `i`. -/
  | fdclear (i : Nat)
  | anyBool
  | anyNat
  | panic (msg : String)
  deriving DecidableEq, Repr

/-- The replies to a command. -/
@[reducible] def Cmd.Reply : Cmd → Type
  | locked _ | holding _ | committing | logBlock _ | fdalloc _ | anyBool => Bool
  | leaveOp | outstanding | logN | getRef _ | markInode _ | cwd | anyNat => Nat
  | getKind _ => Kind
  | entry _ | fdget => Option Nat
  | panic _ => Empty
  | _ => Unit

/-- Kernel code. -/
abbrev Code := Prog Cmd Cmd.Reply

structure Shared (P : Type) where
  /-- The holder of each spinlock. -/
  spin : Spin → Option P
  /-- The holder of each sleeplock. -/
  held : Lock → Option P
  outstanding : Nat
  committing : Bool
  lh : List Nat
  /-- The operations that each process has begun and not ended. -/
  ops : P → Nat
  /-- How many descriptors are free. -/
  desc : Nat
  /-- Buffers with `disk = 1`, and who submitted the request. -/
  flight : Nat → Option P
  /-- `ref` of an inode. -/
  ref : Nat → Nat
  kind : Nat → Kind
  /-- The inodes that the entries of a directory name. -/
  entries : Nat → List Nat
  /-- Which `ialloc` made the inode, counted from the boot. -/
  stamp : Nat → Nat
  clock : Nat
  /-- Inode references behind the descriptors of a process. -/
  fds : P → List Nat
  /-- The other inode references that a process has taken and not put. -/
  refs : P → List Nat

section Exec

variable {P : Type} [DecidableEq P]

def Wait.Blocked (s : Shared P) : Wait → Prop
  | sleeplock l => s.held l ≠ none
  | logSpace => s.committing = true ∨ Log.logFull s.lh.length s.outstanding
  | descriptors => s.desc < 3
  | disk b => s.flight b ≠ none

instance (s : Shared P) : (w : Wait) → Decidable (w.Blocked s)
  | .sleeplock l => inferInstanceAs (Decidable (s.held l ≠ none))
  | .logSpace => inferInstanceAs (Decidable (_ ∨ _))
  | .descriptors => inferInstanceAs (Decidable (_ < _))
  | .disk b => inferInstanceAs (Decidable (s.flight b ≠ none))

/-- What process `p` does after the loop. -/
def Wait.grant (p : P) (s : Shared P) : Wait → Shared P
  | sleeplock l => { s with held := Function.update s.held l (some p) }
  | logSpace =>
    { s with
      outstanding := s.outstanding + 1
      ops := Function.update s.ops p (s.ops p + 1) }
  | descriptors => { s with desc := s.desc - 3 }
  | disk _ => s

def Shared.setSpin (s : Shared P) (lk : Spin) (o : Option P) : Shared P :=
  { s with spin := Function.update s.spin lk o }

/-- Descriptors of a process that `fdalloc` hands out: all but the first three. -/
def NOFILE : Nat := 16

/-- May `r` answer the command of process `p`?  A command that has to wait is not answered, and
neither is a panic. -/
def Cmd.Answer (p : P) (s : Shared P) : (c : Cmd) → c.Reply → Prop
  | acquire lk, _ => s.spin lk = none
  | await w, _ => ¬ w.Blocked s
  | locked l, r => r = (s.held l).isSome
  | holding l, r => r = decide (s.held l = some p)
  | leaveOp, n => n = s.outstanding - 1
  | outstanding, n => n = s.outstanding
  | committing, b => b = s.committing
  | logN, n => n = s.lh.length
  | logBlock b, new => new = decide (b ∉ s.lh)
  | getRef i, n => n = s.ref i
  | getKind i, k => k = s.kind i
  | entry d, found => ∀ i ∈ found, i ∈ s.entries d
  | markInode _, i => s.kind i = .free
  | cwd, i => i ∈ s.refs p
  | fdget, found => ∀ i ∈ found, i ∈ s.fds p
  | fdalloc _, ok => ok = decide ((s.fds p).length < NOFILE - 3)
  | panic _, r => nomatch r
  | release _, _ | unlock _, _ | setCommitting _, _ | clearLog, _ | submit _, _ | freeChain, _
  | incRef _, _ | decRef _, _ | link _ _, _ | clearEntry _ _, _ | clearInode _, _ | fdclear _, _
  | anyBool, _ | anyNat, _ => True

/-- The shared state after a command of process `p` that `r` answers. -/
def Cmd.effect (p : P) (s : Shared P) : (c : Cmd) → c.Reply → Shared P
  | acquire lk, _ => s.setSpin lk (some p)
  | release lk, _ => s.setSpin lk none
  | await w, _ => w.grant p s
  | unlock l, _ => { s with held := Function.update s.held l none }
  | leaveOp, n => { s with outstanding := n, ops := Function.update s.ops p (s.ops p - 1) }
  | setCommitting b, _ => { s with committing := b }
  | clearLog, _ => { s with lh := [] }
  | logBlock b, new => { s with lh := if new then s.lh ++ [b] else s.lh }
  | submit b, _ => { s with flight := Function.update s.flight b (some p) }
  | freeChain, _ => { s with desc := s.desc + 3 }
  | incRef i, _ =>
    { s with
      ref := Function.update s.ref i (s.ref i + 1)
      refs := Function.update s.refs p (i :: s.refs p) }
  | decRef i, _ =>
    { s with
      ref := Function.update s.ref i (s.ref i - 1)
      refs := Function.update s.refs p ((s.refs p).erase i) }
  | link d i, _ => { s with entries := Function.update s.entries d (i :: s.entries d) }
  | clearEntry d i, _ => { s with entries := Function.update s.entries d ((s.entries d).erase i) }
  | markInode k, i =>
    { s with
      kind := Function.update s.kind i k
      entries := Function.update s.entries i []
      stamp := Function.update s.stamp i (s.clock + 1)
      clock := s.clock + 1 }
  | clearInode i, _ =>
    { s with
      kind := Function.update s.kind i .free
      entries := Function.update s.entries i [] }
  | fdalloc i, ok =>
    if ok then
      { s with
        fds := Function.update s.fds p (i :: s.fds p)
        refs := Function.update s.refs p ((s.refs p).erase i) }
    else s
  | fdclear i, _ =>
    { s with
      fds := Function.update s.fds p ((s.fds p).erase i)
      refs := Function.update s.refs p (i :: s.refs p) }
  | panic _, r => nomatch r
  | locked _, _ | holding _, _ | outstanding, _ | committing, _ | logN, _ | getRef _, _
  | getKind _, _ | entry _, _ | cwd, _ | fdget, _ | anyBool, _ | anyNat, _ => s

end Exec

end Xv6Lab.Conc

import Mathlib.Logic.Relation
import Xv6Lab.Lib.Bytes
import Xv6Lab.Param

/-! The write-ahead log of `log.c` over the buffer cache of `bio.c` and a disk whose block writes
are atomic and reach it in order.  The cache is a map from block numbers to contents: a buffer that
nothing pins may be recycled at any time, and `bwrite` is the only way to the disk.  Operations of
any number of processes interleave, and the commit that the last `end_op` runs takes one step for
each loop iteration of `write_log` and `install_trans`. -/

namespace Xv6Lab.Log

open Bytes Relation

abbrev Block := Buffer

/-! ### The header block -/

/-- `lh->n`. -/
def headerN (b : Block) : Nat := le b 0 4

/-- `lh->block[i]`. -/
def headerBlock (b : Block) (i : Nat) : Nat := le b (4 + 4 * i) 4

/-- `lh->block[0..n)`. -/
def headerBlocks (b : Block) : List Nat := (List.range (headerN b)).map (headerBlock b)

/-- The loop of `write_head` over the entries from `i` on. -/
def putEntries (b : Block) (i : Nat) : List Nat → Block
  | [] => b
  | x :: xs => putEntries (setLe b (4 + 4 * i) 4 x) (i + 1) xs

/-- The stores of `write_head` to the header buffer. -/
def putHeader (b : Block) (blocks : List Nat) : Block :=
  putEntries (setLe b 0 4 blocks.length) 0 blocks

/-! ### Cache and disk -/

/-- The disk, the buffer cache and `log.lh`.  `pin b` counts the `bpin`s of block `b`. -/
structure Store where
  disk : Nat → Block
  cache : Nat → Option Block
  pin : Nat → Nat
  lh : List Nat

namespace Store

/-- The contents that `bread` returns. -/
def view (st : Store) (b : Nat) : Block := (st.cache b).getD (st.disk b)

/-- `bread`: afterwards the block is cached. -/
def bread (st : Store) (b : Nat) : Store :=
  { st with cache := Function.update st.cache b (some (st.view b)) }

/-- A bget miss recycles the buffer of `b`. -/
def recycle (st : Store) (b : Nat) : Store :=
  { st with cache := Function.update st.cache b none }

/-- `data` is stored in the cached buffer of `b`. -/
def modify (st : Store) (b : Nat) (data : Block) : Store :=
  { st with cache := Function.update st.cache b (some data) }

/-- `bwrite` of the cached buffer of `b`. -/
def bwrite (st : Store) (b : Nat) : Store :=
  { st with disk := Function.update st.disk b (st.view b) }

def bpin (st : Store) (b : Nat) : Store :=
  { st with pin := Function.update st.pin b (st.pin b + 1) }

def bunpin (st : Store) (b : Nat) : Store :=
  { st with pin := Function.update st.pin b (st.pin b - 1) }

end Store

section Code

variable (start : Nat)

/-- One iteration of `write_log`. -/
def writeLogBody (tail blockno : Nat) (st : Store) : Store :=
  let lbuf := start + tail + 1
  let st := (st.bread lbuf).bread blockno
  (st.modify lbuf (st.view blockno)).bwrite lbuf

/-- One iteration of `install_trans`. -/
def installTransBody (recovering : Bool) (tail blockno : Nat) (st : Store) : Store :=
  let lbuf := start + tail + 1
  let st := (st.bread lbuf).bread blockno
  let st := (st.modify blockno (st.view lbuf)).bwrite blockno
  if recovering then st else st.bunpin blockno

def writeHead (st : Store) : Store :=
  let st := st.bread start
  (st.modify start (putHeader (st.view start) st.lh)).bwrite start

def readHead (st : Store) : Store :=
  let st := st.bread start
  { st with lh := headerBlocks (st.view start) }

/-- `log_write` of a buffer that the caller has changed to `data`: a block already in the log is
absorbed, and a new one is pinned. -/
def logWrite (b : Nat) (data : Block) (st : Store) : Store :=
  let st := (st.bread b).modify b data
  if b ∈ st.lh then st else { st.bpin b with lh := st.lh ++ [b] }

/-! ### The running system -/

/-- Where the process that commits stands in `commit`. -/
inductive Pc
  | idle
  | enter
  | writeLog (tail : Nat)
  | writeHead
  | installTrans (tail : Nat)
  | clear
  | leave
  deriving DecidableEq, Repr

/-- A `log_write` of operation `op`. -/
structure Write where
  op : Nat
  blockno : Nat
  data : Block

/-- What has happened so far.  Operations are numbered as `begin_op` admits them. -/
structure History where
  next : Nat
  opened : List Nat
  /-- Ended since the last commit that is over. -/
  ended : List Nat
  /-- Ended before it. -/
  committed : List Nat
  writes : List Write

structure Sys where
  store : Store
  outstanding : Nat
  committing : Bool
  pc : Pc
  hist : History

/-- `begin_op`'s test that makes it sleep for want of log space. -/
def logFull (n outstanding : Nat) : Prop := n + (outstanding + 1) * MAXOPBLOCKS > LOGBLOCKS

instance (n outstanding : Nat) : Decidable (logFull n outstanding) :=
  inferInstanceAs (Decidable (_ > _))

def beginOp (s : Sys) : Sys :=
  { s with
    outstanding := s.outstanding + 1
    hist := { s.hist with next := s.hist.next + 1, opened := s.hist.next :: s.hist.opened } }

def endOp (op : Nat) (s : Sys) : Sys :=
  { s with
    outstanding := s.outstanding - 1
    committing := s.outstanding - 1 = 0
    pc := if s.outstanding - 1 = 0 then .enter else s.pc
    hist := { s.hist with opened := s.hist.opened.erase op, ended := s.hist.ended ++ [op] } }

def writeBlock (op b : Nat) (data : Block) (s : Sys) : Sys :=
  { s with
    store := logWrite b data s.store
    hist := { s.hist with writes := s.hist.writes ++ [⟨op, b, data⟩] } }

/-- One step of `commit` and of the end of `end_op` after it. -/
def commitStep (s : Sys) : Sys :=
  match s.pc with
  | .idle => s
  | .enter => { s with pc := if 0 < s.store.lh.length then .writeLog 0 else .leave }
  | .writeLog tail =>
    match s.store.lh[tail]? with
    | some blockno =>
      { s with store := writeLogBody start tail blockno s.store, pc := .writeLog (tail + 1) }
    | none => { s with pc := .writeHead }
  | .writeHead => { s with store := writeHead start s.store, pc := .installTrans 0 }
  | .installTrans tail =>
    match s.store.lh[tail]? with
    | some blockno =>
      { s with
        store := installTransBody start false tail blockno s.store
        pc := .installTrans (tail + 1) }
    | none => { s with store := { s.store with lh := [] }, pc := .clear }
  | .clear => { s with store := writeHead start s.store, pc := .leave }
  | .leave =>
    { s with
      committing := false
      pc := .idle
      hist := { s.hist with committed := s.hist.committed ++ s.hist.ended, ended := [] } }

/-- Blocks outside the log area: the header block and the `LOGBLOCKS` blocks after it. -/
def Home (b : Nat) : Prop := b < start ∨ start + LOGBLOCKS < b

/-- Steps of the running system.  A step that would panic is no step. -/
inductive Step : Sys → Sys → Prop
  | read (s : Sys) (b : Nat) : Step s { s with store := s.store.bread b }
  | recycle (s : Sys) (b : Nat) (unused : s.store.pin b = 0) :
      Step s { s with store := s.store.recycle b }
  | beginOp (s : Sys) (ready : s.committing = false)
      (space : ¬ logFull s.store.lh.length s.outstanding) : Step s (beginOp s)
  | logWrite (s : Sys) (op b : Nat) (data : Block) (inOp : op ∈ s.hist.opened) (home : Home start b)
      (number : b < 2 ^ 32) (room : s.store.lh.length < LOGBLOCKS) (trans : 1 ≤ s.outstanding) :
      Step s (writeBlock op b data s)
  | endOp (s : Sys) (op : Nat) (inOp : op ∈ s.hist.opened) (ready : s.committing = false) :
      Step s (endOp op s)
  | commit (s : Sys) (committing : s.committing = true) : Step s (commitStep start s)

/-- The system after a boot that found nothing to recover. -/
structure Initial (s : Sys) : Prop where
  header : headerN (s.store.disk start) = 0
  clean : ∀ b data, s.store.cache b = some data → data = s.store.disk b
  lh : s.store.lh = []
  outstanding : s.outstanding = 0
  committing : s.committing = false
  pc : s.pc = .idle
  hist : s.hist = ⟨0, [], [], [], []⟩

/-! ### Recovery -/

/-- Where the boot stands in `recover_from_log`. -/
inductive RecoverPc
  | readHead
  | installTrans (tail : Nat)
  | clear
  | done
  deriving DecidableEq, Repr

/-- Memory after a power cycle: the disk survives. -/
def boot (disk : Nat → Block) : Store := ⟨disk, fun _ => none, fun _ => 0, []⟩

/-- Steps of `recover_from_log`.  Buffers may be recycled between them. -/
inductive RecoverStep : Store × RecoverPc → Store × RecoverPc → Prop
  | recycle (st : Store) (pc : RecoverPc) (b : Nat) : RecoverStep (st, pc) (st.recycle b, pc)
  | readHead (st : Store) : RecoverStep (st, .readHead) (readHead start st, .installTrans 0)
  | installTrans (st : Store) (tail blockno : Nat) (entry : st.lh[tail]? = some blockno) :
      RecoverStep (st, .installTrans tail)
        (installTransBody start true tail blockno st, .installTrans (tail + 1))
  | installed (st : Store) (tail : Nat) (finished : st.lh[tail]? = none) :
      RecoverStep (st, .installTrans tail) ({ st with lh := [] }, .clear)
  | clear (st : Store) : RecoverStep (st, .clear) (writeHead start st, .done)

/-- A `recover_from_log` on `disk` that is cut short, or not, with `disk'` on the device. -/
def RecoversTo (disk disk' : Nat → Block) : Prop :=
  ∃ st pc, ReflTransGen (RecoverStep start) (boot disk, .readHead) (st, pc) ∧ st.disk = disk'

/-- A `recover_from_log` on `disk` that completes with `disk'` on the device. -/
def Recovers (disk disk' : Nat → Block) : Prop :=
  ∃ st, ReflTransGen (RecoverStep start) (boot disk, .readHead) (st, .done) ∧ st.disk = disk'

end Code

/-! ### What operations mean -/

/-- Block contents after `writes`, in order. -/
def replay (disk : Nat → Block) (writes : List Write) : Nat → Block :=
  writes.foldl (fun d w => Function.update d w.blockno w.data) disk

/-- Block contents after the operations `ops` and no others. -/
def History.after (hist : History) (disk : Nat → Block) (ops : List Nat) : Nat → Block :=
  replay disk (hist.writes.filter fun w => w.op ∈ ops)

end Xv6Lab.Log

import Mathlib.Data.List.Perm.Basic
import Xv6Lab.Log.Model

/-! The buffer cache of `bio.c`: buffers with keys, reference counts and sleeplocks, in the order of
the list from `bcache.head.next`.  A buffer also knows where the processes that use it stand, so
that its count can be compared with them. -/

namespace Xv6Lab.Bio

open Log (Block)

abbrev Idx := Fin NBUF

instance : NeZero NBUF := ⟨by decide⟩

/-- `struct buf`; `holder` is the owner of the sleeplock. -/
structure Buf (P : Type) where
  valid : Bool
  dev : Nat
  blockno : Nat
  refcnt : Nat
  data : Block
  holder : Option P
  /-- Processes in the `acquiresleep` of `bget`. -/
  waiting : List P
  /-- Processes in `brelse`, past `releasesleep`. -/
  leaving : List P
  /-- Processes that have pinned the buffer. -/
  pins : List P

/-- The processes that the reference count should know of. -/
def Buf.users {P : Type} (b : Buf P) : Nat :=
  b.waiting.length + b.holder.toList.length + b.leaving.length + b.pins.length

structure Cache (P : Type) where
  buf : Idx → Buf P
  order : List Idx

variable {P : Type}

/-- What a change of one buffer leaves alone is the same in every buffer. -/
theorem Buf.update_kept {γ : Sort*} (f : Buf P → γ) {buf : Idx → Buf P} {i : Idx} {b : Buf P}
    (same : f b = f (buf i)) (j : Idx) : f (Function.update buf i b j) = f (buf j) := by
  by_cases here : j = i
  · rw [here, Function.update_self, same]
  · rw [Function.update_of_ne here]

namespace Cache

def set (c : Cache P) (i : Idx) (b : Buf P) : Cache P := { c with buf := Function.update c.buf i b }

@[simp] theorem order_set (c : Cache P) (i : Idx) (b : Buf P) : (c.set i b).order = c.order := rfl

@[simp] theorem buf_set_self (c : Cache P) (i : Idx) (b : Buf P) : (c.set i b).buf i = b :=
  Function.update_self ..

theorem buf_set_of_ne (c : Cache P) {i j : Idx} (b : Buf P) (other : j ≠ i) :
    (c.set i b).buf j = c.buf j :=
  Function.update_of_ne other ..

/-- The first loop of `bget`. -/
def lookup (c : Cache P) (dev blockno : Nat) : Option Idx :=
  c.order.find? fun i => (c.buf i).dev = dev ∧ (c.buf i).blockno = blockno

/-- The second loop of `bget`. -/
def victim (c : Cache P) : Option Idx :=
  c.order.reverse.find? fun i => (c.buf i).refcnt = 0

/-- A hit: process `p` goes on to `acquiresleep`. -/
def hit (c : Cache P) (p : P) (i : Idx) : Cache P :=
  c.set i { c.buf i with refcnt := (c.buf i).refcnt + 1, waiting := p :: (c.buf i).waiting }

/-- A miss: buffer `i` is recycled. -/
def recycle (c : Cache P) (p : P) (dev blockno : Nat) (i : Idx) : Cache P :=
  c.set i { c.buf i with
    dev, blockno, valid := false, refcnt := 1, waiting := p :: (c.buf i).waiting }

/-- `bget`, up to its `acquiresleep`.  Without a buffer it panics. -/
def bget (c : Cache P) (p : P) (dev blockno : Nat) : Option (Idx × Cache P) :=
  match c.lookup dev blockno with
  | some i => some (i, c.hit p i)
  | none =>
    match c.victim with
    | some i => some (i, c.recycle p dev blockno i)
    | none => none

/-- `acquiresleep` succeeds. -/
def lock [DecidableEq P] (c : Cache P) (p : P) (i : Idx) : Cache P :=
  c.set i { c.buf i with holder := some p, waiting := (c.buf i).waiting.erase p }

/-- The disk read of `bread`. -/
def fill (c : Cache P) (i : Idx) (data : Block) : Cache P :=
  c.set i { c.buf i with valid := true, data }

/-- The holder changes the contents. -/
def store (c : Cache P) (i : Idx) (data : Block) : Cache P := c.set i { c.buf i with data }

/-- `brelse`, up to `releasesleep`. -/
def unlock (c : Cache P) (p : P) (i : Idx) : Cache P :=
  c.set i { c.buf i with holder := none, leaving := p :: (c.buf i).leaving }

/-- A buffer moves to the front of the list, unless it is there. -/
def moveToFront (i : Idx) (order : List Idx) : List Idx :=
  if order.head? = some i then order else i :: order.erase i

/-- The rest of `brelse`. -/
def unref [DecidableEq P] (c : Cache P) (p : P) (i : Idx) : Cache P :=
  let refcnt := (c.buf i).refcnt - 1
  { c.set i { c.buf i with refcnt, leaving := (c.buf i).leaving.erase p } with
    order := if refcnt = 0 then moveToFront i c.order else c.order }

/-- `bpin` by a process. -/
def bpin (c : Cache P) (p : P) (i : Idx) : Cache P :=
  c.set i { c.buf i with refcnt := (c.buf i).refcnt + 1, pins := p :: (c.buf i).pins }

/-- `bunpin` by a process that has pinned the buffer. -/
def bunpin [DecidableEq P] (c : Cache P) (p : P) (i : Idx) : Cache P :=
  c.set i { c.buf i with refcnt := (c.buf i).refcnt - 1, pins := (c.buf i).pins.erase p }

/-- `bpin` in `log_write`. -/
def pinForLog (c : Cache P) (i : Idx) : Cache P :=
  c.set i { c.buf i with refcnt := (c.buf i).refcnt + 1 }

/-- `bunpin` in `install_trans`. -/
def unpinForLog (c : Cache P) (i : Idx) : Cache P :=
  c.set i { c.buf i with refcnt := (c.buf i).refcnt - 1 }

end Cache

/-! ### The system -/

/-- Where the process that commits stands in `commit`.  The buffers are those that its `bread`s
returned, or will return. -/
inductive Stage
  | enter
  | writeLog (tail : Nat)
  | writeLogFrom (tail blockno : Nat) (dst : Idx)
  | writeLogCopy (tail : Nat) (dst src : Idx)
  | writeLogFree (tail : Nat) (dst src : Idx)
  | writeLogLast (tail : Nat) (dst src : Idx)
  | writeLogNext (tail : Nat) (dst : Idx)
  | writeHead
  | writeHeadPut (i : Idx)
  | writeHeadFree (i : Idx)
  | writeHeadDone (i : Idx)
  | installTrans (tail : Nat)
  | installDest (tail : Nat) (lbuf : Idx)
  | installCopy (tail : Nat) (lbuf dbuf : Idx)
  | installUnpin (tail : Nat) (lbuf dbuf : Idx)
  | installFree (tail : Nat) (lbuf dbuf : Idx)
  | installLast (tail : Nat) (lbuf dbuf : Idx)
  | installNext (tail : Nat) (dbuf : Idx)
  | clear
  | clearPut (i : Idx)
  | clearFree (i : Idx)
  | clearDone (i : Idx)
  | leave
  deriving DecidableEq

/-- The cache, the disk and the log.  `last b` is what the last completed `log_write` or `bwrite`
stored in block `b`, and operations are numbered as `begin_op` admits them. -/
structure Sys (P : Type) where
  cache : Cache P
  disk : Nat → Block
  lh : List Nat
  outstanding : Nat
  committing : Bool
  commit : Option (P × Stage)
  last : Nat → Block
  next : Nat
  opened : List Nat
  writes : List (Nat × Nat)

/-- What a process does next; `commit` is the next step of the process that commits. -/
inductive Event (P : Type)
  | bread (p : P) (blockno : Nat)
  | lock (p : P) (i : Idx)
  | fill (p : P) (i : Idx)
  | bwrite (p : P) (i : Idx) (data : Block)
  | brelse (p : P) (i : Idx)
  | unref (p : P) (i : Idx)
  | bpin (p : P) (i : Idx)
  | bunpin (p : P) (i : Idx)
  | beginOp
  | logWrite (p : P) (op : Nat) (i : Idx) (data : Block)
  | endOp (p : P) (op : Nat)
  | commit

namespace Sys

/-- The `bread` that process `p` called has returned buffer `i`. -/
def Has (s : Sys P) (p : P) (i : Idx) : Prop :=
  (s.cache.buf i).holder = some p ∧ (s.cache.buf i).valid = true

instance [DecidableEq P] (s : Sys P) (p : P) (i : Idx) : Decidable (s.Has p i) :=
  inferInstanceAs (Decidable (_ ∧ _))

/-- Process `p` runs its own code, not `commit`. -/
def Client (s : Sys P) (p : P) : Prop := ∀ stage, s.commit ≠ some (p, stage)

instance [DecidableEq P] (s : Sys P) (p : P) : Decidable (s.Client p) :=
  match commit : s.commit with
  | none => .isTrue fun stage is => by simp [commit] at is
  | some (q, stage) =>
    if same : q = p then .isFalse fun client => client stage (by rw [commit, same])
    else .isTrue fun stage is => same (by rw [commit] at is; cases is; rfl)

def setCache (s : Sys P) (c : Cache P) : Sys P := { s with cache := c }

/-- `bwrite` of buffer `i`, which its holder has changed to `data`. -/
def write (s : Sys P) (i : Idx) (data : Block) : Sys P :=
  { s with
    cache := s.cache.store i data
    disk := Function.update s.disk (s.cache.buf i).blockno data
    last := Function.update s.last (s.cache.buf i).blockno data }

/-- `log_write` of buffer `i`, which its holder has changed to `data`. -/
def logWrite (s : Sys P) (op : Nat) (i : Idx) (data : Block) : Sys P :=
  let b := (s.cache.buf i).blockno
  { s with
    cache := if b ∈ s.lh then s.cache.store i data else (s.cache.store i data).pinForLog i
    lh := if b ∈ s.lh then s.lh else s.lh ++ [b]
    last := Function.update s.last b data
    writes := s.writes ++ [(op, b)] }

def goto (s : Sys P) (p : P) (stage : Stage) : Sys P := { s with commit := some (p, stage) }

/-- `bread` of the process that commits, which goes on with the buffer it gets. -/
def fetch (s : Sys P) (p : P) (b : Nat) (k : Idx → Stage) : Option (Sys P) :=
  (s.cache.bget p ROOTDEV b).map fun r => (s.setCache r.2).goto p (k r.1)

/-- The process that commits goes on once it is over with the `brelse` of buffer `i`. -/
def afterRelease [DecidableEq P] (s : Sys P) (p : P) (i : Idx) (t : Sys P) : Option (Sys P) :=
  if p ∈ (s.cache.buf i).leaving then none else some t

/-- `bwrite` of the process that commits, once `bread` has returned the buffer it has waited for. -/
def put [DecidableEq P] (s : Sys P) (p : P) (waited i : Idx) (data : Block) (k : Stage) :
    Option (Sys P) :=
  if s.Has p waited ∧ s.Has p i then some ((s.write i data).goto p k) else none

/-- `brelse` of the process that commits. -/
def release [DecidableEq P] (s : Sys P) (p : P) (i : Idx) (k : Stage) : Option (Sys P) :=
  if s.Has p i then some ((s.setCache (s.cache.unlock p i)).goto p k) else none

section Code

variable [DecidableEq P] (start : Nat)

/-- The next step of `commit`, at the given stage. -/
def commitStep (s : Sys P) (p : P) : Stage → Option (Sys P)
  | .enter => some (s.goto p (if 0 < s.lh.length then .writeLog 0 else .leave))
  | .writeLog tail =>
    match s.lh[tail]? with
    | some blockno => s.fetch p (start + tail + 1) (.writeLogFrom tail blockno)
    | none => some (s.goto p .writeHead)
  | .writeLogFrom tail blockno dst =>
    if s.Has p dst then s.fetch p blockno (.writeLogCopy tail dst) else none
  | .writeLogCopy tail dst src =>
    s.put p src dst (s.cache.buf src).data (.writeLogFree tail dst src)
  | .writeLogFree tail dst src => s.release p src (.writeLogLast tail dst src)
  | .writeLogLast tail dst src =>
    (s.release p dst (.writeLogNext tail dst)).bind (s.afterRelease p src)
  | .writeLogNext tail dst => s.afterRelease p dst (s.goto p (.writeLog (tail + 1)))
  | .writeHead => s.fetch p start .writeHeadPut
  | .writeHeadPut i =>
    s.put p i i (Log.putHeader (s.cache.buf i).data s.lh) (.writeHeadFree i)
  | .writeHeadFree i => s.release p i (.writeHeadDone i)
  | .writeHeadDone i => s.afterRelease p i (s.goto p (.installTrans 0))
  | .installTrans tail =>
    match s.lh[tail]? with
    | some _ => s.fetch p (start + tail + 1) (.installDest tail)
    | none => some ({ s with lh := [] }.goto p .clear)
  | .installDest tail lbuf =>
    match s.lh[tail]? with
    | some blockno => if s.Has p lbuf then s.fetch p blockno (.installCopy tail lbuf) else none
    | none => none
  | .installCopy tail lbuf dbuf =>
    s.put p dbuf dbuf (s.cache.buf lbuf).data (.installUnpin tail lbuf dbuf)
  | .installUnpin tail lbuf dbuf =>
    some ((s.setCache (s.cache.unpinForLog dbuf)).goto p (.installFree tail lbuf dbuf))
  | .installFree tail lbuf dbuf => s.release p lbuf (.installLast tail lbuf dbuf)
  | .installLast tail lbuf dbuf =>
    (s.release p dbuf (.installNext tail dbuf)).bind (s.afterRelease p lbuf)
  | .installNext tail dbuf => s.afterRelease p dbuf (s.goto p (.installTrans (tail + 1)))
  | .clear => s.fetch p start .clearPut
  | .clearPut i => s.put p i i (Log.putHeader (s.cache.buf i).data s.lh) (.clearFree i)
  | .clearFree i => s.release p i (.clearDone i)
  | .clearDone i => s.afterRelease p i (s.goto p .leave)
  | .leave => some { s with committing := false, commit := none }

/-- The state after an event, where it can happen without a panic. -/
def step (s : Sys P) : Event P → Option (Sys P)
  | .bread p b =>
    if s.Client p then (s.cache.bget p ROOTDEV b).map fun r => s.setCache r.2 else none
  | .lock p i =>
    if p ∈ (s.cache.buf i).waiting ∧ (s.cache.buf i).holder = none then
      some (s.setCache (s.cache.lock p i))
    else none
  | .fill p i =>
    if (s.cache.buf i).holder = some p ∧ (s.cache.buf i).valid = false then
      some (s.setCache (s.cache.fill i (s.disk (s.cache.buf i).blockno)))
    else none
  | .bwrite p i data => if s.Client p ∧ s.Has p i then some (s.write i data) else none
  | .brelse p i =>
    if s.Client p ∧ s.Has p i then some (s.setCache (s.cache.unlock p i)) else none
  | .unref p i =>
    if p ∈ (s.cache.buf i).leaving then some (s.setCache (s.cache.unref p i)) else none
  | .bpin p i => if s.Client p ∧ s.Has p i then some (s.setCache (s.cache.bpin p i)) else none
  | .bunpin p i =>
    if s.Client p ∧ p ∈ (s.cache.buf i).pins then some (s.setCache (s.cache.bunpin p i)) else none
  | .beginOp =>
    if s.committing = false ∧ ¬ Log.logFull s.lh.length s.outstanding then
      some { s with
        outstanding := s.outstanding + 1
        next := s.next + 1
        opened := s.next :: s.opened }
    else none
  | .logWrite p op i data =>
    if s.Client p ∧ s.Has p i ∧ op ∈ s.opened ∧ s.lh.length < LOGBLOCKS ∧ 1 ≤ s.outstanding then
      some (s.logWrite op i data)
    else none
  | .endOp p op =>
    if op ∈ s.opened ∧ s.committing = false then
      some { s with
        outstanding := s.outstanding - 1
        committing := s.outstanding - 1 = 0
        commit := if s.outstanding - 1 = 0 then some (p, .enter) else s.commit
        opened := s.opened.erase op }
    else none
  | .commit =>
    match s.commit with
    | some (p, stage) => s.commitStep start p stage
    | none => none

end Code

end Sys

/-- The system after `binit` and the recovery: nothing is in use, and what is cached agrees with the
disk. -/
structure Initial (s : Sys P) : Prop where
  order : s.cache.order.Perm (List.finRange NBUF)
  alone : ∀ i j, (s.cache.buf i).dev = ROOTDEV → (s.cache.buf j).dev = ROOTDEV →
    (s.cache.buf i).blockno = (s.cache.buf j).blockno → i = j
  clean : ∀ i, (s.cache.buf i).valid = true → (s.cache.buf i).dev = ROOTDEV ∧
    (s.cache.buf i).data = s.disk (s.cache.buf i).blockno
  refcnt : ∀ i, (s.cache.buf i).refcnt = 0
  users : ∀ i, (s.cache.buf i).users = 0
  lh : s.lh = []
  outstanding : s.outstanding = 0
  committing : s.committing = false
  commit : s.commit = none
  last : s.last = s.disk
  opened : s.opened = []
  writes : s.writes = []

end Xv6Lab.Bio

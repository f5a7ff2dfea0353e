import Mathlib.Data.List.FinRange
import Xv6Lab.Lib.Ring

/-! The disk driver of `virtio_disk.c`: descriptors, the two rings, the requests of `virtio_disk_rw`
and the interrupt handler, together with a device that completes requests in any order.  The handler
and the device run between any two steps of a process.  The controller does not deliver a second
interrupt of the disk before the handler has returned. -/

namespace Xv6Lab.Virtio

/-- Descriptors of the queue. -/
abbrev NUM : Nat := 16

instance : NeZero NUM := ⟨by decide⟩

def VRING_DESC_F_NEXT : BitVec 16 := 1
def VRING_DESC_F_WRITE : BitVec 16 := 2
def VIRTIO_BLK_T_IN : BitVec 32 := 0
def VIRTIO_BLK_T_OUT : BitVec 32 := 1
def BSIZE : Nat := 1024

/-- The addresses that descriptors hold: a request header, a buffer's data, a status byte. -/
inductive Addr (β : Type)
  | null
  | op (i : Fin NUM)
  | data (b : β)
  | status (i : Fin NUM)

/-- `struct virtq_desc` -/
structure Desc (β : Type) where
  addr : Addr β
  len : Nat
  flags : BitVec 16
  next : BitVec 16

/-- `struct virtio_blk_req` -/
structure Req where
  type : BitVec 32
  reserved : BitVec 32
  sector : BitVec 64

/-- `struct disk`, with the rings it points to; the buffers are `β`. -/
structure Disk (β : Type) where
  desc : Fin NUM → Desc β
  availIdx : BitVec 16
  availRing : Fin NUM → BitVec 16
  usedIdx : BitVec 16
  usedRing : Fin NUM → BitVec 32
  free : Fin NUM → Bool
  seen : BitVec 16
  infoB : Fin NUM → Option β
  infoStatus : Fin NUM → BitVec 8
  ops : Fin NUM → Req

section Descriptors

variable {β : Type} (d : Disk β)

/-- `alloc_desc` -/
def allocDesc : Option (Fin NUM × Disk β) :=
  match (List.finRange NUM).find? d.free with
  | some i => some (i, { d with free := Function.update d.free i false })
  | none => none

/-- What `free_desc` writes. -/
def Disk.clear (i : Fin NUM) : Disk β :=
  { d with
    desc := Function.update d.desc i ⟨.null, 0, 0, 0⟩
    free := Function.update d.free i true }

/-- `free_desc` -/
def freeDesc (i : Nat) : Except String (Disk β) :=
  if bound : i < NUM then
    if d.free ⟨i, bound⟩ then .error "free_desc i has already been free"
    else .ok (d.clear ⟨i, bound⟩)
  else .error "free_desc i >= NUM"

/-- The loop that gives back the descriptors that `alloc3_desc` has got. -/
def freeAll (d : Disk β) : List (Fin NUM) → Except String (Disk β)
  | [] => .ok d
  | i :: rest => (freeDesc d i.val).bind fun d => freeAll d rest

/-- The loop of `alloc3_desc`; `got` are the descriptors it has, `n` are missing. -/
def alloc3Loop (d : Disk β) : Nat → List (Fin NUM) → Except String (Option (List (Fin NUM)) × Disk β)
  | 0, got => .ok (some got, d)
  | n + 1, got =>
    match allocDesc d with
    | some (i, d) => alloc3Loop d n (got ++ [i])
    | none => (freeAll d got).map fun d => (none, d)

/-- `alloc3_desc` -/
def alloc3Desc : Except String (Option (List (Fin NUM)) × Disk β) := alloc3Loop d 3 []

/-- The loop of `free_chain`.  Every turn frees a descriptor and stops at one that is free, so that
it has at most `NUM` turns before it does. -/
def freeLoop (d : Disk β) : Nat → Nat → Except String (Disk β)
  | 0, _ => .error "free_desc i has already been free"
  | fuel + 1, i =>
    if bound : i < NUM then
      let flag := (d.desc ⟨i, bound⟩).flags
      let nxt := (d.desc ⟨i, bound⟩).next
      (freeDesc d i).bind fun d =>
        if flag &&& VRING_DESC_F_NEXT ≠ 0 then freeLoop d fuel nxt.toNat else .ok d
    else freeDesc d i

/-- `free_chain` -/
def freeChain (i : Nat) : Except String (Disk β) := freeLoop d (NUM + 1) i

end Descriptors

/-! ### `virtio_disk_rw` -/

/-- The local array `idx` of `virtio_disk_rw`. -/
structure Chain where
  i0 : Fin NUM
  i1 : Fin NUM
  i2 : Fin NUM
  deriving DecidableEq

/-- The array that `alloc3_desc` has filled. -/
def Chain.ofList : List (Fin NUM) → Option Chain
  | [i0, i1, i2] => some ⟨i0, i1, i2⟩
  | _ => none

def Chain.toList (c : Chain) : List (Fin NUM) := [c.i0, c.i1, c.i2]

/-- The request as it is written into the descriptors, up to the entry in the ring of available
chains; `blockno` is that of the buffer. -/
def Disk.fill {β : Type} (d : Disk β) (b : β) (blockno : BitVec 32) (write : Bool) (c : Chain) :
    Disk β :=
  { d with
    ops := Function.update d.ops c.i0
      ⟨if write then VIRTIO_BLK_T_OUT else VIRTIO_BLK_T_IN, 0,
        (blockno * BitVec.ofNat 32 (BSIZE / 512)).setWidth 64⟩
    desc := Function.update (Function.update (Function.update d.desc
      c.i0 ⟨.op c.i0, 16, VRING_DESC_F_NEXT, BitVec.ofNat 16 c.i1.val⟩)
      c.i1 ⟨.data b, BSIZE, (if write then 0 else VRING_DESC_F_WRITE) ||| VRING_DESC_F_NEXT,
        BitVec.ofNat 16 c.i2.val⟩)
      c.i2 ⟨.status c.i0, 1, VRING_DESC_F_WRITE, 0⟩
    infoStatus := Function.update d.infoStatus c.i0 0xff
    infoB := Function.update d.infoB c.i0 (some b)
    availRing := Function.update d.availRing (Ring.slot NUM d.availIdx) (BitVec.ofNat 16 c.i0.val) }

/-- Where a process is in `virtio_disk_rw`: it tries to get the lock, or sleeps for descriptors; it
holds the lock and looks for descriptors; it has them; the request stands in the ring; it has been
made available, and the process tests its buffer; it sleeps for the buffer; it frees the chain; it
releases the lock. -/
inductive Pc (β : Type)
  | outside
  | starting (b : β) (write : Bool)
  | allocating (b : β) (write : Bool)
  | filling (b : β) (write : Bool) (c : Chain)
  | publishing (b : β) (c : Chain)
  | testing (b : β) (c : Chain)
  | sleeping (b : β) (c : Chain)
  | freeing (b : β) (c : Chain)
  | releasing (b : β)

/-- The buffer of the call. -/
def Pc.buffer {β : Type} : Pc β → Option β
  | .outside => none
  | .starting b _ | .allocating b _ | .filling b _ _ | .publishing b _ | .testing b _
  | .sleeping b _ | .freeing b _ | .releasing b => some b

/-- The process holds `vdisk_lock`. -/
def Pc.locks {β : Type} : Pc β → Bool
  | .outside | .starting _ _ | .sleeping _ _ => false
  | _ => true

/-- Where `virtio_disk_intr` is: not running; at the test of its loop; it has read an entry; it has
done with the entry. -/
inductive Handler
  | idle
  | looping
  | found (id : BitVec 32)
  | cleared
  deriving DecidableEq

/-- Processes `P`, buffers `β`, the driver and the device; `owned` is the field `disk` of the
buffers, and the device has taken the chains up to `fetched` and works on some. -/
structure System (P β : Type) where
  disk : Disk β
  owned : β → Bool
  blockno : β → BitVec 32
  pc : P → Pc β
  lock : Option P
  fetched : BitVec 16
  working : List (BitVec 16)
  handler : Handler
  panicked : Option String

/-- What the protocol is about: the chain that starts at a descriptor is made available for a
buffer, completed by the device, reported to the handler, which clears the flag of a buffer, and
freed. -/
inductive Event (P β : Type)
  | submit (p : P) (c : Chain) (b : β)
  | complete (head : BitVec 16)
  | report (head : BitVec 32) (b : β)
  | free (p : P) (c : Chain)
  | other

section Steps

variable {P β : Type} [DecidableEq P] [DecidableEq β]

def System.goto (s : System P β) (p : P) (pc : Pc β) : System P β :=
  { s with pc := Function.update s.pc p pc }

def System.setDisk (s : System P β) (disk : Disk β) : System P β := { s with disk }

/-- The device follows the chain to the descriptor without successor and finds the status byte. -/
def Disk.statusOf (d : Disk β) : Nat → BitVec 16 → Option (Fin NUM)
  | 0, _ => none
  | fuel + 1, i =>
    if bound : i.toNat < NUM then
      let desc := d.desc ⟨i.toNat, bound⟩
      if desc.flags &&& VRING_DESC_F_NEXT ≠ 0 then d.statusOf fuel desc.next
      else match desc.addr with
        | .status k => some k
        | _ => none
    else none

/-- The device writes the status byte and the entry in the ring of used chains. -/
def Disk.finish (d : Disk β) (head : BitVec 16) : Disk β :=
  { d with
    infoStatus := match d.statusOf NUM head with
      | some k => Function.update d.infoStatus k 0
      | none => d.infoStatus
    usedRing := Function.update d.usedRing (Ring.slot NUM d.usedIdx) (head.setWidth 32)
    usedIdx := d.usedIdx + 1 }

inductive Step (s : System P β) : Event P β → System P β → Prop
  /-- A process calls `virtio_disk_rw` on a buffer that no other process is using. -/
  | call (p : P) (b : β) (write : Bool) (out : s.pc p = .outside)
      (distinct : ∀ q, (s.pc q).buffer ≠ some b) : Step s .other (s.goto p (.starting b write))
  | acquire (p : P) {b : β} {write : Bool} (at_ : s.pc p = .starting b write) (open_ : s.lock = none) :
      Step s .other { s.goto p (.allocating b write) with lock := some p }
  /-- `alloc3_desc` succeeds. -/
  | alloc (p : P) {b : β} {write : Bool} {got : List (Fin NUM)} {c : Chain} {d : Disk β}
      (at_ : s.pc p = .allocating b write) (ok : alloc3Desc s.disk = .ok (some got, d))
      (array : Chain.ofList got = some c) :
      Step s .other ((s.setDisk d).goto p (.filling b write c))
  /-- `alloc3_desc` fails, and the process sleeps without the lock. -/
  | wait (p : P) {b : β} {write : Bool} {d : Disk β} (at_ : s.pc p = .allocating b write)
      (ok : alloc3Desc s.disk = .ok (none, d)) :
      Step s .other { (s.setDisk d).goto p (.starting b write) with lock := none }
  | allocPanics (p : P) {b : β} {write : Bool} {msg : String} (at_ : s.pc p = .allocating b write)
      (fails : alloc3Desc s.disk = .error msg) : Step s .other { s with panicked := some msg }
  | fill (p : P) {b : β} {write : Bool} {c : Chain} (at_ : s.pc p = .filling b write c) :
      Step s .other { (s.setDisk (s.disk.fill b (s.blockno b) write c)).goto p (.publishing b c) with
        owned := Function.update s.owned b true }
  /-- `disk.avail->idx += 1` -/
  | publish (p : P) {b : β} {c : Chain} (at_ : s.pc p = .publishing b c) :
      Step s (.submit p c b)
        ((s.setDisk { s.disk with availIdx := s.disk.availIdx + 1 }).goto p (.testing b c))
  | sleep (p : P) {b : β} {c : Chain} (at_ : s.pc p = .testing b c) (owned : s.owned b = true) :
      Step s .other { s.goto p (.sleeping b c) with lock := none }
  | wake (p : P) {b : β} {c : Chain} (at_ : s.pc p = .sleeping b c) (open_ : s.lock = none) :
      Step s .other { s.goto p (.testing b c) with lock := some p }
  | leave (p : P) {b : β} {c : Chain} (at_ : s.pc p = .testing b c) (done : s.owned b = false) :
      Step s .other (s.goto p (.freeing b c))
  /-- `disk.info[idx[0]].b = 0; free_chain(idx[0]);` -/
  | free (p : P) {b : β} {c : Chain} {d : Disk β} (at_ : s.pc p = .freeing b c)
      (ok : freeChain { s.disk with infoB := Function.update s.disk.infoB c.i0 none } c.i0.val =
        .ok d) :
      Step s (.free p c) ((s.setDisk d).goto p (.releasing b))
  | freePanics (p : P) {b : β} {c : Chain} {msg : String} (at_ : s.pc p = .freeing b c)
      (fails : freeChain { s.disk with infoB := Function.update s.disk.infoB c.i0 none } c.i0.val =
        .error msg) :
      Step s .other { s with panicked := some msg }
  | release (p : P) {b : β} (at_ : s.pc p = .releasing b) :
      Step s .other { s.goto p .outside with lock := none }
  /-- The device takes the next chain. -/
  | fetch (new : s.fetched ≠ s.disk.availIdx) :
      Step s .other { s with
        working := s.disk.availRing (Ring.slot NUM s.fetched) :: s.working
        fetched := s.fetched + 1 }
  /-- The device completes a chain. -/
  | complete (head : BitVec 16) (works : head ∈ s.working) :
      Step s (.complete head)
        { s.setDisk (s.disk.finish head) with working := s.working.erase head }
  | interrupt (off : s.handler = .idle) : Step s .other { s with handler := .looping }
  | read (at_ : s.handler = .looping) (new : s.disk.seen ≠ s.disk.usedIdx) :
      Step s .other { s with handler := .found (s.disk.usedRing (Ring.slot NUM s.disk.seen)) }
  /-- `info[id].b->disk = 0` -/
  | report {id : BitVec 32} {i : Fin NUM} {b : β} (at_ : s.handler = .found id)
      (index : id.toNat = i.val) (good : s.disk.infoStatus i = 0) (buffer : s.disk.infoB i = some b) :
      Step s (.report id b)
        { s with owned := Function.update s.owned b false, handler := .cleared }
  /-- The status is not zero, or there is no such entry or no buffer. -/
  | reportPanics {id : BitVec 32} (at_ : s.handler = .found id)
      (bad : ∀ i : Fin NUM, id.toNat = i.val →
        s.disk.infoStatus i ≠ 0 ∨ s.disk.infoB i = none) :
      Step s .other { s with panicked := some "virtio_disk_intr status" }
  | advance (at_ : s.handler = .cleared) :
      Step s .other { s.setDisk { s.disk with seen := s.disk.seen + 1 } with handler := .looping }
  | return_ (at_ : s.handler = .looping) (none : s.disk.seen = s.disk.usedIdx) :
      Step s .other { s with handler := .idle }

/-- A run and its events. -/
inductive Run (s : System P β) : List (Event P β) → System P β → Prop
  | nil : Run s [] s
  | snoc {events : List (Event P β)} {t u : System P β} {e : Event P β} (run : Run s events t)
      (last : Step t e u) : Run s (events ++ [e]) u

/-- `virtio_disk_init` has run: every descriptor is free, and the rings are empty. -/
structure Initial (s : System P β) : Prop where
  free : ∀ i, s.disk.free i = true
  avail : s.disk.availIdx = 0
  used : s.disk.usedIdx = 0
  seen : s.disk.seen = 0
  fetched : s.fetched = 0
  working : s.working = []
  pc : ∀ p, s.pc p = .outside
  lock : s.lock = none
  handler : s.handler = .idle
  panicked : s.panicked = none

end Steps

end Xv6Lab.Virtio

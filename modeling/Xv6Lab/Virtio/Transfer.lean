import Xv6Lab.Lib.BlockStore
import Xv6Lab.Virtio.Requests

/-! What the requests move.  The device follows the descriptors of a chain to the header and to the
data of a buffer and moves the bytes one by one in any order, while it works on other chains too and
the driver goes on.  From outside, the driver, its handler and the device are a store of blocks in
which every call takes effect at one moment. -/

namespace Xv6Lab.Virtio

open BlockStore (Call Act Store)

variable {P β : Type}

/-- The bytes of a block. -/
abbrev Block := Fin BSIZE → BitVec 8

/-- What a chain asks of the device. -/
structure Order (β : Type) where
  write : Bool
  sector : BitVec 64
  buffer : β

/-- The descriptor at an index of the queue. -/
def Disk.descAt (d : Disk β) (i : BitVec 16) : Option (Desc β) :=
  if bound : i.toNat < NUM then some (d.desc ⟨i.toNat, bound⟩) else none

/-- The device reads a header that it may not write and the descriptor of a block of data, which it
may write if and only if the header asks it to. -/
def Disk.order (d : Disk β) (head : BitVec 16) : Option (Order β) := do
  let first ← d.descAt head
  let second ← d.descAt first.next
  match first.addr, second.addr with
  | .op k, .data b =>
    if first.len = 16 ∧ first.flags = VRING_DESC_F_NEXT ∧ second.len = BSIZE then
      if (d.ops k).type = VIRTIO_BLK_T_OUT ∧ second.flags &&& VRING_DESC_F_WRITE = 0 then
        some ⟨true, (d.ops k).sector, b⟩
      else if (d.ops k).type = VIRTIO_BLK_T_IN ∧ second.flags &&& VRING_DESC_F_WRITE ≠ 0 then
        some ⟨false, (d.ops k).sector, b⟩
      else none
    else none
  | _, _ => none

/-- The place of a byte on the medium, in sectors of 512. -/
def Order.place (o : Order β) (i : Fin BSIZE) : Nat := o.sector.toNat * 512 + i.val

/-- The driver and the device with the data of the buffers and the bytes on the medium; `moved` are
the bytes that the device has moved of the chains it works on. -/
structure Machine (P β : Type) where
  sys : System P β
  data : β → Block
  medium : Nat → BitVec 8
  moved : BitVec 16 → Fin BSIZE → Bool

/-- The block that the number of a buffer stands for.  The sector is computed in 32 bits, so that the
highest bit of the number is lost. -/
def System.place (s : System P β) (b : β) : BitVec 31 := (s.blockno b).setWidth 31

/-- No call has the buffer. -/
def System.Unused (s : System P β) (b : β) : Prop := ∀ p, (s.pc p).buffer ≠ some b

section Steps

variable [DecidableEq P] [DecidableEq β]

/-- The device moves a byte of a chain. -/
def Machine.move (s : Machine P β) (head : BitVec 16) (o : Order β) (i : Fin BSIZE) : Machine P β :=
  { s with
    data := if o.write then s.data else
      Function.update s.data o.buffer (Function.update (s.data o.buffer) i (s.medium (o.place i)))
    medium := if o.write then Function.update s.medium (o.place i) (s.data o.buffer i) else s.medium
    moved := Function.update s.moved head (Function.update (s.moved head) i true) }

inductive Machine.Step (s : Machine P β) : Option (Act P β (BitVec 31) Block) → Machine P β → Prop
  /-- A process calls `virtio_disk_rw`.  No other call has the buffer or one for the same block: the
  process holds the buffer's lock, and the cache has no two buffers for one block. -/
  | call (p : P) (b : β) (write : Bool) (out : s.sys.pc p = .outside)
      (apart : ∀ q b', (s.sys.pc q).buffer = some b' → b' ≠ b ∧ s.sys.place b' ≠ s.sys.place b) :
      Step s (some (.call p b write (s.sys.place b)))
        { s with sys := s.sys.goto p (.starting b write) }
  /-- `virtio_disk_rw` returns. -/
  | back (p : P) {b : β} (at_ : s.sys.pc p = .releasing b) :
      Step s (some (.back p b)) { s with sys := { s.sys.goto p .outside with lock := none } }
  /-- A process that holds a buffer writes its data. -/
  | store (b : β) (v : Block) (unused : s.sys.Unused b) :
      Step s (some (.store b v)) { s with data := Function.update s.data b v }
  /-- It reads them. -/
  | load (b : β) (unused : s.sys.Unused b) : Step s (some (.load b (s.data b))) s
  /-- The cache gives a buffer to another block. -/
  | assign (b : β) (n : BitVec 32) (unused : s.sys.Unused b) :
      Step s (some (.assign b (n.setWidth 31)))
        { s with sys := { s.sys with blockno := Function.update s.sys.blockno b n } }
  /-- A step of a process inside `virtio_disk_rw` or of the handler. -/
  | drive {e : Event P β} {t : System P β} (step : Virtio.Step s.sys e t)
      (inside : ∀ p, (t.pc p).buffer = (s.sys.pc p).buffer) (device : t.working = s.sys.working) :
      Step s none { s with sys := t }
  /-- The device takes the next chain. -/
  | fetch (new : s.sys.fetched ≠ s.sys.disk.availIdx) :
      Step s none { s with sys := { s.sys with
        working := s.sys.disk.availRing (Ring.slot NUM s.sys.fetched) :: s.sys.working
        fetched := s.sys.fetched + 1 } }
  /-- It moves a byte. -/
  | move {head : BitVec 16} {o : Order β} (works : head ∈ s.sys.working)
      (asks : s.sys.disk.order head = some o) (i : Fin BSIZE) : Step s none (s.move head o i)
  /-- A chain that is no request leads the device anywhere. -/
  | stray {head : BitVec 16} (works : head ∈ s.sys.working) (bad : s.sys.disk.order head = none)
      (data : β → Block) (medium : Nat → BitVec 8) : Step s none { s with data, medium }
  /-- It completes a chain of which it has moved every byte. -/
  | complete {head : BitVec 16} (works : head ∈ s.sys.working) (all : ∀ i, s.moved head i = true) :
      Step s none { s with
        sys := { s.sys.setDisk (s.sys.disk.finish head) with working := s.sys.working.erase head }
        moved := Function.update s.moved head fun _ => false }

/-- `virtio_disk_init` has run. -/
structure Machine.Initial (s : Machine P β) : Prop where
  sys : Virtio.Initial s.sys
  moved : ∀ head i, s.moved head i = false

/-- The block on the medium. -/
def Machine.block (s : Machine P β) (k : BitVec 31) : Block :=
  fun i => s.medium (k.toNat * BSIZE + i.val)

/-- The store of blocks, when no process is in `virtio_disk_rw`. -/
def Machine.store (s : Machine P β) : Store P β (BitVec 31) Block where
  block := s.block
  data := s.data
  place := s.sys.place
  call _ := .idle

end Steps

/-! ### The request in the descriptors -/

/-- The descriptors and the header of the chain are those of the request. -/
structure Filled (d : Disk β) (b : β) (blockno : BitVec 32) (write : Bool) (c : Chain) : Prop where
  op : d.ops c.i0 = ⟨if write then VIRTIO_BLK_T_OUT else VIRTIO_BLK_T_IN, 0,
    (blockno * BitVec.ofNat 32 (BSIZE / 512)).setWidth 64⟩
  header : d.desc c.i0 = ⟨.op c.i0, 16, VRING_DESC_F_NEXT, BitVec.ofNat 16 c.i1.val⟩
  body : d.desc c.i1 = ⟨.data b, BSIZE,
    (if write then 0 else VRING_DESC_F_WRITE) ||| VRING_DESC_F_NEXT, BitVec.ofNat 16 c.i2.val⟩

theorem fill_filled (d : Disk β) (b : β) (blockno : BitVec 32) (write : Bool) {c : Chain}
    (nodup : c.toList.Nodup) : Filled (d.fill b blockno write c) b blockno write c := by
  have apart : c.i0 ≠ c.i1 ∧ c.i0 ≠ c.i2 ∧ c.i1 ≠ c.i2 := by
    simpa [Chain.toList, and_assoc] using nodup
  obtain ⟨n01, n02, n12⟩ := apart
  constructor
  · exact Function.update_self ..
  · show Function.update (Function.update (Function.update d.desc c.i0 _) c.i1 _) c.i2 _ c.i0 = _
    rw [Function.update_of_ne n02, Function.update_of_ne n01, Function.update_self]
  · show Function.update (Function.update (Function.update d.desc c.i0 _) c.i1 _) c.i2 _ c.i1 = _
    rw [Function.update_of_ne n12, Function.update_self]

theorem Filled.congr {d d' : Disk β} {b : β} {blockno : BitVec 32} {write : Bool} {c : Chain}
    (filled : Filled d b blockno write c) (ops : d'.ops c.i0 = d.ops c.i0)
    (desc : ∀ i ∈ c.toList, d'.desc i = d.desc i) : Filled d' b blockno write c where
  op := ops.trans filled.op
  header := (desc c.i0 (by simp [Chain.toList])).trans filled.header
  body := (desc c.i1 (by simp [Chain.toList])).trans filled.body

theorem descAt_val (d : Disk β) (i : Fin NUM) :
    d.descAt (BitVec.ofNat 16 i.val) = some (d.desc i) := by
  rw [Disk.descAt, dif_pos (by rw [small]; exact i.isLt)]
  exact congrArg (fun j => some (d.desc j)) (Fin.ext (small i))

/-- The device finds the request. -/
theorem Filled.order {d : Disk β} {b : β} {blockno : BitVec 32} {write : Bool} {c : Chain}
    (filled : Filled d b blockno write c) : d.order (BitVec.ofNat 16 c.i0.val) =
      some ⟨write, (blockno * BitVec.ofNat 32 (BSIZE / 512)).setWidth 64, b⟩ := by
  unfold Disk.order
  rw [descAt_val, Option.bind_eq_bind, Option.bind_some, filled.header, descAt_val, Option.bind_some,
    filled.body]
  simp only [filled.op]
  cases write <;> rfl

/-- The sector of a request is that of its block. -/
theorem sector_place (n : BitVec 32) (i : Fin BSIZE) (write : Bool) (b : β) :
    (Order.mk write ((n * BitVec.ofNat 32 (BSIZE / 512)).setWidth 64) b).place i =
      (n.setWidth 31).toNat * BSIZE + i.val := by
  have double : ((n * BitVec.ofNat 32 (BSIZE / 512)).setWidth 64).toNat = n.toNat * 2 % 2 ^ 32 := by
    rw [BitVec.toNat_setWidth, BitVec.toNat_mul]
    exact Nat.mod_eq_of_lt (lt_trans (Nat.mod_lt _ (by decide)) (by decide))
  rw [Order.place, double, BitVec.toNat_setWidth]
  simp only [BSIZE]
  omega

/-! ### What a step leaves of a request -/

section Frame

variable [DecidableEq P] [DecidableEq β]

/-- A request that has been written stays in the descriptors until its chain is freed. -/
theorem filled_step {s t : System P β} {e : Event P β} (pt : Parted s) (step : Step s e t) {p : P}
    {b : β} {c : Chain} (before : (s.pc p).written = some (b, c))
    (after : (t.pc p).written = some (b, c)) :
    t.disk.ops c.i0 = s.disk.ops c.i0 ∧ ∀ i ∈ c.toList, t.disk.desc i = s.disk.desc i := by
  have mine := (Pc.written_chain before).1
  -- the chain of another process has nothing in common with this one
  have apart : ∀ {q : P} {c' : Chain}, q ≠ p → (s.pc q).chain = some c' → ∀ i ∈ c.toList,
      i ∉ c'.toList := fun other has i inside also => other (pt.apart _ p _ c i has mine also inside)
  cases step with
  | alloc q at_ ok =>
    rcases alloc3Desc_spec s.disk with ⟨c, -, -, takes⟩ | ⟨d, fails, -⟩
    · rw [takes] at ok
      obtain ⟨-, rfl⟩ := Prod.mk.inj (Except.ok.inj ok)
      exact ⟨rfl, fun _ _ => rfl⟩
    · rw [fails] at ok
      cases ok
  | wait q at_ ok =>
    rcases alloc3Desc_spec s.disk with ⟨c, -, -, takes⟩ | ⟨d, fails, same⟩
    · rw [takes] at ok
      cases ok
    · rw [fails] at ok
      obtain ⟨-, rfl⟩ := Prod.mk.inj (Except.ok.inj ok)
      refine ⟨by rw [same.rest]; rfl, fun i inside => same.desc i (pt.busy mine inside)⟩
  | @fill q b' write c' at_ =>
    have other : q ≠ p := by
      rintro rfl
      rw [at_] at before
      cases before
    have out := apart other (by rw [at_]; rfl)
    refine ⟨Function.update_of_ne (fun is => out c.i0 (by simp [Chain.toList]) ?_) .., fun i inside => ?_⟩
    · simp [Chain.toList, is]
    · have away := out i inside
      simp only [Chain.toList, List.mem_cons, List.not_mem_nil, or_false, not_or] at away
      show Function.update (Function.update (Function.update s.disk.desc c'.i0 _) c'.i1 _) c'.i2 _ i = _
      rw [Function.update_of_ne away.2.2, Function.update_of_ne away.2.1, Function.update_of_ne away.1]
  | @free q b' c' d at_ ok =>
    have other : q ≠ p := by
      rintro rfl
      rw [goto_self] at after
      cases after
    rw [pt.frees at_] at ok
    obtain rfl := Except.ok.inj ok
    exact ⟨rfl, fun i inside => clearChain_desc _ (apart other (by rw [at_]; rfl) i inside)⟩
  | call | acquire | allocPanics | publish | sleep | wake | leave | freePanics | release | fetch
  | complete | interrupt | read | report | reportPanics | advance | return_ =>
    exact ⟨rfl, fun _ _ => rfl⟩

theorem blockno_step {s t : System P β} {e : Event P β} (step : Step s e t) :
    t.blockno = s.blockno := by
  cases step <;> rfl

end Frame

end Xv6Lab.Virtio

import Mathlib.Data.List.Perm.Subperm
import Xv6Lab.Virtio.Protocol

/-! The requests under way: each that has been made available and whose buffer the disk owns stands
exactly once in the ring of available chains, with the device, or in the ring of used chains.  The
indices of the rings wrap; there are never more entries than places. -/

namespace Xv6Lab.Virtio

variable {P β : Type}

/-- The index of the first entry that the handler has not done with. -/
def System.next (s : System P β) : BitVec 16 :=
  if s.handler = .cleared then s.disk.seen + 1 else s.disk.seen

/-- The chains that the device has not taken. -/
def System.available (s : System P β) : List (BitVec 16) :=
  Ring.pending s.disk.availRing s.fetched s.disk.availIdx

/-- The chains that have been completed and not been reported. -/
def System.used (s : System P β) : List (BitVec 32) :=
  Ring.pending s.disk.usedRing s.next s.disk.usedIdx

/-- The heads of all chains that have not been reported. -/
def System.queue (s : System P β) : List Nat :=
  s.available.map BitVec.toNat ++ s.working.map BitVec.toNat ++ s.used.map BitVec.toNat

/-- The request of a process for a buffer that the disk owns has its head at `n`. -/
def System.asks (s : System P β) (n : Nat) : Prop :=
  ∃ p b c, (s.pc p).request = some (b, c) ∧ s.owned b = true ∧ c.i0.val = n

structure Queued (s : System P β) : Prop where
  ready : ∀ p b c, (s.pc p).ready = some (b, c) →
    s.disk.availRing (Ring.slot NUM s.disk.availIdx) = BitVec.ofNat 16 c.i0.val ∧ s.owned b = true
  done : ∀ p b c, (s.pc p).done = some (b, c) → s.owned b = false
  nodup : s.queue.Nodup
  mem : ∀ n, n ∈ s.queue ↔ s.asks n
  status : ∀ id ∈ s.used, ∀ i : Fin NUM, id.toNat = i.val → s.disk.infoStatus i = 0
  found : ∀ id, s.handler = .found id → s.used.head? = some id

theorem small (i : Fin NUM) : (BitVec.ofNat 16 i.val).toNat = i.val := by
  rw [BitVec.toNat_ofNat]
  exact Nat.mod_eq_of_lt (lt_trans i.isLt (by decide))

theorem Queued.bound {s : System P β} (qu : Queued s) {n : Nat} (inside : n ∈ s.queue) : n < NUM := by
  obtain ⟨p, b, c, -, -, rfl⟩ := (qu.mem n).mp inside
  exact c.i0.isLt

/-- There is a place for every head, and one more for a head that is not in the queue. -/
theorem Queued.room {s : System P β} (qu : Queued s) {i : Fin NUM} (out : i.val ∉ s.queue) :
    s.queue.length < NUM := by
  have nodup : (i.val :: s.queue).Nodup := List.nodup_cons.mpr ⟨out, qu.nodup⟩
  have sub : i.val :: s.queue ⊆ List.range NUM := by
    intro n inside
    rcases List.mem_cons.mp inside with rfl | inside
    · exact List.mem_range.mpr i.isLt
    · exact List.mem_range.mpr (qu.bound inside)
  have length := (nodup.subperm sub).length_le
  simp only [List.length_cons, List.length_range] at length
  exact length

theorem Queued.length_le {s : System P β} (qu : Queued s) : s.queue.length ≤ NUM := by
  have sub : s.queue ⊆ List.range NUM := fun n inside => List.mem_range.mpr (qu.bound inside)
  simpa using (qu.nodup.subperm sub).length_le

theorem length_queue (s : System P β) : s.queue.length =
    (s.disk.availIdx - s.fetched).toNat + s.working.length + (s.disk.usedIdx - s.next).toNat := by
  rw [System.queue, List.length_append, List.length_append, List.length_map, List.length_map,
    List.length_map, System.available, System.used, Ring.length_pending, Ring.length_pending]

/-- Nothing has changed that the queue depends on. -/
theorem Queued.same {s t : System P β} (qu : Queued s)
    (ready : ∀ q, (t.pc q).ready = (s.pc q).ready) (done : ∀ q, (t.pc q).done = (s.pc q).done)
    (request : ∀ q, (t.pc q).request = (s.pc q).request) (owned : t.owned = s.owned)
    (ring : t.disk.availRing = s.disk.availRing) (idx : t.disk.availIdx = s.disk.availIdx)
    (fetched : t.fetched = s.fetched) (working : t.working = s.working) (used : t.used = s.used)
    (status : t.disk.infoStatus = s.disk.infoStatus)
    (found : ∀ id, t.handler = .found id → s.used.head? = some id) : Queued t := by
  have queue : t.queue = s.queue := by
    simp [System.queue, System.available, ring, idx, fetched, working, used]
  have asks : ∀ n, t.asks n ↔ s.asks n := by
    intro n
    simp [System.asks, request, owned]
  constructor
  · intro p b c is
    rw [ring, idx, owned]
    exact qu.ready p b c (ready p ▸ is)
  · intro p b c is
    rw [owned]
    exact qu.done p b c (done p ▸ is)
  · rw [queue]
    exact qu.nodup
  · intro n
    rw [queue, asks]
    exact qu.mem n
  · rw [used, status]
    exact qu.status
  · rw [used]
    exact found

/-- A head in the queue is that of a request which has been written. -/
theorem Queued.asked {s : System P β} (qu : Queued s) {n : Nat} (inside : n ∈ s.queue) :
    ∃ p b c, (s.pc p).request = some (b, c) ∧ s.owned b = true ∧ c.i0.val = n :=
  (qu.mem n).mp inside

/-- The head of a chain whose process has made no request is not in the queue. -/
theorem Queued.fresh {s : System P β} (qu : Queued s) (pt : Parted s) {p : P} {c : Chain}
    (chain : (s.pc p).chain = some c) (none : (s.pc p).request = none) : c.i0.val ∉ s.queue := by
  intro inside
  obtain ⟨q, b, c', request, -, is⟩ := qu.asked inside
  have also := (Pc.written_chain (Pc.request_written request)).1
  have same : c'.i0 = c.i0 := Fin.ext is
  have one : q = p := pt.apart q p c' c c.i0 also chain (by simp [Chain.toList, same])
    (by simp [Chain.toList])
  rw [one, none] at request
  cases request

/-- The device takes a chain. -/
theorem Queued.fetch {s : System P β} (qu : Queued s) (new : s.fetched ≠ s.disk.availIdx) :
    Queued { s with
      working := s.disk.availRing (Ring.slot NUM s.fetched) :: s.working
      fetched := s.fetched + 1 } := by
  have available : s.available = s.disk.availRing (Ring.slot NUM s.fetched) ::
      Ring.pending s.disk.availRing (s.fetched + 1) s.disk.availIdx := Ring.pending_pop _ new
  have queue : ((Ring.pending s.disk.availRing (s.fetched + 1) s.disk.availIdx).map BitVec.toNat ++
      (s.disk.availRing (Ring.slot NUM s.fetched) :: s.working).map BitVec.toNat ++
      s.used.map BitVec.toNat).Perm s.queue := by
    unfold System.queue
    rw [available, List.map_cons, List.map_cons]
    exact (List.perm_middle).append_right _
  exact ⟨qu.ready, qu.done, queue.nodup_iff.mpr qu.nodup,
    fun n => (queue.mem_iff (a := n)).trans (qu.mem n), qu.status, qu.found⟩

theorem toNat_wide (head : BitVec 16) : (head.setWidth 32).toNat = head.toNat := by
  rw [BitVec.toNat_setWidth]
  exact Nat.mod_eq_of_lt (lt_trans head.isLt (by decide))

/-- The device adds an entry to the ring of used chains, where there is a place. -/
theorem used_complete {s : System P β} (qu : Queued s) {head : BitVec 16}
    (works : head ∈ s.working) {working : List (BitVec 16)} :
    System.used { s.setDisk (s.disk.finish head) with working } = s.used ++ [head.setWidth 32] := by
  have length := qu.length_le
  rw [length_queue] at length
  have positive := List.length_pos_of_mem works
  have room : (s.disk.usedIdx - s.next).toNat < NUM := by omega
  show Ring.pending (Function.update s.disk.usedRing (Ring.slot NUM s.disk.usedIdx) _) s.next
    (s.disk.usedIdx + 1) = _
  rw [Ring.pending_publish _ (lt_trans (Nat.succ_lt_succ room) (by decide)),
    Ring.pending_write (by decide) s.disk.usedRing _ room, Function.update_self]
  rfl

/-- The device completes a chain. -/
theorem Queued.complete {s : System P β} (qu : Queued s) (pt : Parted s) {head : BitVec 16}
    (works : head ∈ s.working) :
    Queued { s.setDisk (s.disk.finish head) with working := s.working.erase head } := by
  set t : System P β := { s.setDisk (s.disk.finish head) with working := s.working.erase head }
  have inside : head.toNat ∈ s.queue :=
    List.mem_append_left _ (List.mem_append_right _ (List.mem_map_of_mem works))
  obtain ⟨p, b, c, request, own, is⟩ := qu.asked inside
  have word : head = BitVec.ofNat 16 c.i0.val := BitVec.eq_of_toNat_eq (by rw [small, is])
  have linked := (pt.linked p b c (Pc.request_written request)).1
  have status : t.disk.infoStatus = Function.update s.disk.infoStatus c.i0 0 := by
    show (s.disk.finish head).infoStatus = _
    simp only [Disk.finish, word, linked.statusOf]
  have used : t.used = s.used ++ [head.setWidth 32] := used_complete qu works
  have queue : t.queue.Perm s.queue := by
    show (s.available.map BitVec.toNat ++ (s.working.erase head).map _ ++ t.used.map _).Perm _
    have split : (s.working.map BitVec.toNat).Perm
        (head.toNat :: (s.working.erase head).map BitVec.toNat) :=
      (List.perm_cons_erase works).map _
    rw [used, List.map_append, List.map_singleton, toNat_wide, System.queue, List.append_assoc,
      List.append_assoc]
    refine List.Perm.append_left _ ?_
    refine List.Perm.trans ?_ (split.append_right _).symm
    rw [List.cons_append, ← List.append_assoc]
    exact List.perm_append_singleton _ _
  constructor
  · exact qu.ready
  · exact qu.done
  · exact queue.nodup_iff.mpr qu.nodup
  · exact fun n => queue.mem_iff.trans (qu.mem n)
  · intro id inside i at_
    rw [status]
    by_cases same : i = c.i0
    · rw [same, Function.update_self]
    · rw [Function.update_of_ne same]
      rw [used] at inside
      rcases List.mem_append.mp inside with old | new
      · exact qu.status id old i at_
      · refine absurd (Fin.ext ?_) same
        rw [← at_, List.mem_singleton.mp new, toNat_wide, is]
  · intro id at_
    have first := qu.found id at_
    rw [used]
    cases list : s.used with
    | nil =>
      rw [list] at first
      cases first
    | cons x rest =>
      rw [list] at first
      exact first

/-- The entry that the handler has read is that of a request, and its status is good. -/
theorem Queued.reports {s : System P β} (qu : Queued s) (pt : Parted s) {id : BitVec 32}
    (at_ : s.handler = .found id) : ∃ p b c, (s.pc p).request = some (b, c) ∧ s.owned b = true ∧
      id.toNat = c.i0.val ∧ s.disk.infoStatus c.i0 = 0 ∧ s.disk.infoB c.i0 = some b := by
  have inside : id ∈ s.used := List.mem_of_mem_head? (qu.found id at_)
  have queued : id.toNat ∈ s.queue := List.mem_append_right _ (List.mem_map_of_mem inside)
  obtain ⟨p, b, c, request, own, is⟩ := qu.asked queued
  exact ⟨p, b, c, request, own, is.symm, qu.status id inside c.i0 is.symm,
    (pt.linked p b c (Pc.request_written request)).2⟩

/-- The handler has done with the first entry. -/
theorem used_report {s : System P β} (qu : Queued s) {id : BitVec 32} (at_ : s.handler = .found id)
    (owned : β → Bool) :
    s.used = id :: System.used { s with owned, handler := .cleared } := by
  have next : s.next = s.disk.seen := by simp [System.next, at_]
  have first := qu.found id at_
  have more : s.next ≠ s.disk.usedIdx := by
    intro none
    rw [System.used, none, Ring.pending_self] at first
    cases first
  have pop : s.used = s.disk.usedRing (Ring.slot NUM s.next) ::
      Ring.pending s.disk.usedRing (s.next + 1) s.disk.usedIdx := Ring.pending_pop _ more
  rw [pop] at first ⊢
  rw [Option.some.inj first, next]
  rfl

section Moves

variable [DecidableEq P]

/-- A request is made available. -/
theorem Queued.publish {s : System P β} (qu : Queued s) (ow : Owners s) (pt : Parted s) {p : P}
    {b : β} {c : Chain} (at_ : s.pc p = .publishing b c) :
    Queued ((s.setDisk { s.disk with availIdx := s.disk.availIdx + 1 }).goto p (.testing b c)) := by
  set t : System P β :=
    (s.setDisk { s.disk with availIdx := s.disk.availIdx + 1 }).goto p (.testing b c) with moved
  obtain ⟨entry, own⟩ := qu.ready p b c (by rw [at_]; rfl)
  have chain : (s.pc p).chain = some c := by rw [at_]; rfl
  have none : (s.pc p).request = none := by rw [at_]; rfl
  have out := qu.fresh pt chain none
  have kept : ∀ q, q ≠ p → t.pc q = s.pc q := fun q other => goto_other _ other _
  have here : t.pc p = .testing b c := goto_self _ p _
  have room : (s.disk.availIdx - s.fetched).toNat + 1 < 2 ^ 16 := by
    have bound : s.queue.length < 16 := qu.room out
    rw [length_queue] at bound
    omega
  have available : t.available = s.available ++ [BitVec.ofNat 16 c.i0.val] := by
    refine (Ring.pending_publish s.disk.availRing room).trans ?_
    rw [entry]
    rfl
  have queue : t.queue.Perm (c.i0.val :: s.queue) := by
    show (t.available.map BitVec.toNat ++ s.working.map _ ++ s.used.map _).Perm _
    rw [available, List.map_append, List.map_singleton, small, List.append_assoc, List.append_assoc,
      System.queue, List.append_assoc]
    exact List.perm_middle
  constructor
  · intro q b' c' is
    have other : q ≠ p := by
      rintro rfl
      rw [here] at is
      cases is
    rw [kept q other] at is
    have first : s.lock = some q := (ow.lock q).mp (Pc.ready_locks is)
    have second : s.lock = some p := (ow.lock p).mp (by rw [at_]; rfl)
    exact absurd (Option.some.inj (first.symm.trans second)) other
  · intro q b' c' is
    have other : q ≠ p := by
      rintro rfl
      rw [here] at is
      cases is
    rw [kept q other] at is
    exact qu.done q b' c' is
  · exact queue.nodup_iff.mpr (List.nodup_cons.mpr ⟨out, qu.nodup⟩)
  · intro n
    rw [queue.mem_iff, List.mem_cons, qu.mem n]
    constructor
    · rintro (rfl | ⟨q, b', c', is, owned, head⟩)
      · exact ⟨p, b, c, by rw [here]; rfl, own, rfl⟩
      · have other : q ≠ p := by
          rintro rfl
          rw [none] at is
          cases is
        exact ⟨q, b', c', by rw [kept q other]; exact is, owned, head⟩
    · rintro ⟨q, b', c', is, owned, head⟩
      by_cases same : q = p
      · rw [same, here] at is
        cases is
        exact .inl head.symm
      · rw [kept q same] at is
        exact .inr ⟨q, b', c', is, owned, head⟩
  · exact qu.status
  · exact qu.found

/-- A process leaves its loop, since the disk does not own its buffer any more. -/
theorem Queued.leave {s : System P β} (qu : Queued s) {p : P} {b : β} {c : Chain}
    (at_ : s.pc p = .testing b c) (own : s.owned b = false) : Queued (s.goto p (.freeing b c)) := by
  have request := goto_keeps (x := .freeing b c) s Pc.request (p := p) (by rw [at_]; rfl)
  have ready := goto_keeps (x := .freeing b c) s Pc.ready (p := p) (by rw [at_]; rfl)
  refine ⟨fun q b' c' is => qu.ready q b' c' (ready q ▸ is), fun q b' c' is => ?_, qu.nodup,
    fun n => ?_, qu.status, qu.found⟩
  · by_cases same : q = p
    · rw [same, goto_self] at is
      cases is
      exact own
    · rw [goto_other s same] at is
      exact qu.done q b' c' is
  · show n ∈ s.queue ↔ _
    rw [qu.mem n]
    simp only [System.asks, request]
    rfl

/-- A process has freed its chain, which is not in the queue. -/
theorem Queued.free {s : System P β} (qu : Queued s) {p : P} {b : β} {c : Chain}
    (at_ : s.pc p = .freeing b c) (d : Disk β) (ring : d.availRing = s.disk.availRing)
    (idx : d.availIdx = s.disk.availIdx) (used : d.usedRing = s.disk.usedRing)
    (usedIdx : d.usedIdx = s.disk.usedIdx) (seen : d.seen = s.disk.seen)
    (status : d.infoStatus = s.disk.infoStatus) :
    Queued ((s.setDisk d).goto p (.releasing b)) := by
  set t : System P β := (s.setDisk d).goto p (.releasing b) with moved
  have kept : ∀ q, q ≠ p → t.pc q = s.pc q := fun q other => goto_other _ other _
  have here : t.pc p = .releasing b := goto_self _ p _
  have own := qu.done p b c (by rw [at_]; rfl)
  have tused : t.used = s.used := by
    show Ring.pending d.usedRing (if s.handler = .cleared then d.seen + 1 else d.seen) d.usedIdx = _
    rw [used, usedIdx, seen]
    rfl
  have queue : t.queue = s.queue := by
    show (Ring.pending d.availRing s.fetched d.availIdx).map _ ++ s.working.map _ ++ t.used.map _ = _
    rw [ring, idx, tused]
    rfl
  have other : ∀ {γ : Type} {q : P} {f : Pc β → Option γ} {x : γ}, f (.releasing b) = none →
      f (t.pc q) = some x → q ≠ p := by
    rintro γ q f x gone is rfl
    rw [here, gone] at is
    cases is
  constructor
  · intro q b' c' is
    have apart := other rfl is
    rw [kept q apart] at is
    show d.availRing (Ring.slot NUM d.availIdx) = _ ∧ _
    rw [ring, idx]
    exact qu.ready q b' c' is
  · intro q b' c' is
    have apart := other rfl is
    rw [kept q apart] at is
    exact qu.done q b' c' is
  · rw [queue]
    exact qu.nodup
  · intro n
    rw [queue, qu.mem n]
    constructor
    · rintro ⟨q, b', c', is, owned, head⟩
      have apart : q ≠ p := by
        rintro rfl
        rw [at_] at is
        cases is
        rw [own] at owned
        cases owned
      exact ⟨q, b', c', by rw [kept q apart]; exact is, owned, head⟩
    · rintro ⟨q, b', c', is, owned, head⟩
      have apart := other rfl is
      rw [kept q apart] at is
      exact ⟨q, b', c', is, owned, head⟩
  · intro id inside i is
    rw [tused] at inside
    show d.infoStatus i = 0
    rw [status]
    exact qu.status id inside i is
  · rw [tused]
    exact qu.found

end Moves

section Steps

variable [DecidableEq P] [DecidableEq β]

/-- A request stands in the ring of available chains, which does not count it yet. -/
theorem Queued.fill {s : System P β} (qu : Queued s) (ow : Owners s) (pt : Parted s) {p : P} {b : β}
    {write : Bool} {c : Chain} (at_ : s.pc p = .filling b write c) (blockno : BitVec 32) :
    Queued { (s.setDisk (s.disk.fill b blockno write c)).goto p (.publishing b c) with
      owned := Function.update s.owned b true } := by
  set t : System P β := { (s.setDisk (s.disk.fill b blockno write c)).goto p (.publishing b c) with
    owned := Function.update s.owned b true } with moved
  have chain : (s.pc p).chain = some c := by rw [at_]; rfl
  have none : (s.pc p).request = none := by rw [at_]; rfl
  have out := qu.fresh pt chain none
  have kept : ∀ q, q ≠ p → t.pc q = s.pc q := fun q other => goto_other _ other _
  have here : t.pc p = .publishing b c := goto_self _ p _
  have request : ∀ q, (t.pc q).request = (s.pc q).request := by
    intro q
    by_cases same : q = p
    · rw [same, here, none]
      rfl
    · rw [kept q same]
  -- another process has another buffer
  have owned : ∀ q b', (s.pc q).buffer = some b' → q ≠ p → t.owned b' = s.owned b' := by
    intro q b' has other
    refine Function.update_of_ne ?_ _ _
    rintro rfl
    exact other (ow.buffers q p b' has (by rw [at_]; rfl))
  have room : (s.disk.availIdx - s.fetched).toNat < NUM := by
    have bound := qu.room out
    rw [length_queue] at bound
    omega
  have available : t.available = s.available :=
    Ring.pending_write (by decide) s.disk.availRing _ room
  have queue : t.queue = s.queue := by
    show t.available.map _ ++ _ ++ _ = _
    rw [available]
    rfl
  have asks : ∀ n, t.asks n ↔ s.asks n := by
    intro n
    have same : ∀ q b' c', (s.pc q).request = some (b', c') → t.owned b' = s.owned b' := by
      intro q b' c' is
      refine owned q b' (Pc.written_chain (Pc.request_written is)).2 ?_
      rintro rfl
      rw [none] at is
      cases is
    constructor
    · rintro ⟨q, b', c', is, own, head⟩
      rw [request q] at is
      exact ⟨q, b', c', is, (same q b' c' is) ▸ own, head⟩
    · rintro ⟨q, b', c', is, own, head⟩
      exact ⟨q, b', c', (request q).trans is, (same q b' c' is).trans own, head⟩
  constructor
  · intro q b' c' is
    by_cases same : q = p
    · rw [same, here] at is
      cases is
      exact ⟨Function.update_self .., Function.update_self ..⟩
    · -- both would hold the lock
      rw [kept q same] at is
      have first : s.lock = some q := (ow.lock q).mp (Pc.ready_locks is)
      have second : s.lock = some p := (ow.lock p).mp (by rw [at_]; rfl)
      exact absurd (Option.some.inj (first.symm.trans second)) same
  · intro q b' c' is
    have other : q ≠ p := by
      rintro rfl
      rw [here] at is
      cases is
    rw [kept q other] at is
    rw [owned q b' (Pc.written_chain (Pc.request_written (Pc.done_request is))).2 other]
    exact qu.done q b' c' is
  · rw [queue]
    exact qu.nodup
  · intro n
    rw [queue, asks]
    exact qu.mem n
  · intro id inside i is
    have other : i ≠ c.i0 := by
      rintro rfl
      refine out ?_
      rw [← is]
      exact List.mem_append_right _ (List.mem_map_of_mem inside)
    show Function.update s.disk.infoStatus c.i0 0xff i = 0
    rw [Function.update_of_ne other]
    exact qu.status id inside i is
  · exact qu.found

omit [DecidableEq P] in
theorem Queued.report {s : System P β} (qu : Queued s) (ow : Owners s) (pt : Parted s) {p : P} {b : β}
    {c : Chain} {id : BitVec 32} (at_ : s.handler = .found id) (request : (s.pc p).request = some (b, c))
    (is : id.toNat = c.i0.val) :
    Queued { s with owned := Function.update s.owned b false, handler := .cleared } := by
  set t : System P β := { s with owned := Function.update s.owned b false, handler := .cleared }
  have used : s.used = id :: t.used := used_report qu at_ _
  have queue : s.queue.Perm (id.toNat :: t.queue) := by
    show (s.available.map BitVec.toNat ++ s.working.map _ ++ s.used.map _).Perm _
    rw [used, List.map_cons]
    exact List.perm_middle
  have nodup := List.nodup_cons.mp (queue.nodup_iff.mp qu.nodup)
  have buffer := (Pc.written_chain (Pc.request_written request)).2
  -- only the process of the request has this buffer
  have owned : ∀ q b', (s.pc q).buffer = some b' → q ≠ p → t.owned b' = s.owned b' := by
    intro q b' has other
    refine Function.update_of_ne ?_ _ _
    rintro rfl
    exact other (ow.buffers q p b' has buffer)
  constructor
  · intro q b' c' ready
    obtain ⟨entry, own⟩ := qu.ready q b' c' ready
    refine ⟨entry, (owned q b' (Pc.written_chain (Pc.ready_written ready)).2 ?_).trans own⟩
    rintro rfl
    rw [Pc.ready_request ready] at request
    cases request
  · intro q b' c' done
    have before := qu.done q b' c' done
    show Function.update s.owned b false b' = false
    by_cases same : b' = b
    · rw [same, Function.update_self]
    · rw [Function.update_of_ne same]
      exact before
  · exact nodup.2
  · intro n
    constructor
    · intro inside
      obtain ⟨q, b', c', is', own, head⟩ := qu.asked (queue.mem_iff.mpr (List.mem_cons_of_mem _ inside))
      have other : q ≠ p := by
        rintro rfl
        rw [request] at is'
        cases is'
        refine nodup.1 ?_
        rw [is, head]
        exact inside
      exact ⟨q, b', c', is', (owned q b' (Pc.written_chain (Pc.request_written is')).2 other).trans own,
        head⟩
    · rintro ⟨q, b', c', is', own, head⟩
      have other : q ≠ p := by
        rintro rfl
        rw [show (s.pc q).request = some (b', c') from is'] at request
        cases request
        rw [show t.owned b = false from Function.update_self ..] at own
        cases own
      rw [owned q b' (Pc.written_chain (Pc.request_written is')).2 other] at own
      have inside := (qu.mem n).mpr ⟨q, b', c', is', own, head⟩
      rcases List.mem_cons.mp (queue.mem_iff.mp inside) with first | rest
      · have shared : c'.i0 = c.i0 := Fin.ext (head.trans (first.trans is))
        exact absurd (pt.apart q p c' c c.i0 (Pc.written_chain (Pc.request_written is')).1
          (Pc.written_chain (Pc.request_written request)).1 (by simp [Chain.toList, shared])
          (by simp [Chain.toList])) other
      · exact rest
  · intro id' inside
    exact qu.status id' (by rw [used]; exact List.mem_cons_of_mem _ inside)
  · intro id' at_'
    cases (show Handler.cleared = .found id' from at_')

end Steps

end Xv6Lab.Virtio

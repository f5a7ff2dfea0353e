import Xv6Lab.Virtio.Transfer

/-! The driver and the device make an atomic disk.  A request takes effect when the device completes
its chain: until then the bytes that have been moved are only on the medium or in a buffer where no
other call looks. -/

namespace Xv6Lab.Virtio

open BlockStore (Call Act Store)

variable {P β : Type}

/-- The heads of the chains that the device has still to complete. -/
def System.unserved (s : System P β) : List Nat :=
  s.available.map BitVec.toNat ++ s.working.map BitVec.toNat

/-- The device has still to complete the request of the process. -/
def System.Pending (s : System P β) (p : P) (b : β) (c : Chain) : Prop :=
  (s.pc p).request = some (b, c) ∧ c.i0.val ∈ s.unserved

/-- How a process moves in a step inside `virtio_disk_rw`. -/
inductive Turn (s t : System P β) : Pc β → Pc β → Prop
  | stay (pc : Pc β) : Turn s t pc pc
  | acquire (b : β) (write : Bool) : Turn s t (.starting b write) (.allocating b write)
  | alloc (b : β) (write : Bool) (c : Chain) : Turn s t (.allocating b write) (.filling b write c)
  | wait (b : β) (write : Bool) : Turn s t (.allocating b write) (.starting b write)
  | fill (b : β) (write : Bool) (c : Chain) (disk : t.disk = s.disk.fill b (s.blockno b) write c) :
      Turn s t (.filling b write c) (.publishing b c)
  | publish (b : β) (c : Chain) (disk : t.disk = { s.disk with availIdx := s.disk.availIdx + 1 })
      (fetched : t.fetched = s.fetched) : Turn s t (.publishing b c) (.testing b c)
  | sleep (b : β) (c : Chain) : Turn s t (.testing b c) (.sleeping b c)
  | wake (b : β) (c : Chain) : Turn s t (.sleeping b c) (.testing b c)
  | leave (b : β) (c : Chain) (own : s.owned b = false) : Turn s t (.testing b c) (.freeing b c)
  | free (b : β) (c : Chain) : Turn s t (.freeing b c) (.releasing b)

theorem unserved_queue {s : System P β} {n : Nat} (inside : n ∈ s.unserved) : n ∈ s.queue :=
  List.mem_append_left _ inside

/-- A request whose buffer the disk does not own any more has been served. -/
theorem served_of_owned {s : System P β} (good : Good s) {p : P} {b : β} {c : Chain}
    (request : (s.pc p).request = some (b, c)) (own : s.owned b = false) : c.i0.val ∉ s.unserved := by
  intro inside
  obtain ⟨q, b', c', also, owned, head⟩ := good.queued.asked (unserved_queue inside)
  obtain ⟨-, rfl, -⟩ := good.parted.heads also request head
  rw [own] at owned
  cases owned

section Steps

variable [DecidableEq P] [DecidableEq β] {s t : System P β} {e : Event P β}

theorem turn_of_step (step : Step s e t) (inside : ∀ p, (t.pc p).buffer = (s.pc p).buffer) (p : P) :
    Turn s t (s.pc p) (t.pc p) := by
  have moves : ∀ {t : System P β} {q : P} {x y : Pc β}, s.pc q = x → t.pc = (s.goto q y).pc →
      Turn s t x y → Turn s t (s.pc p) (t.pc p) := by
    intro t q x y at_ now turn
    rw [now]
    by_cases here : p = q
    · rw [here, goto_self, at_]
      exact turn
    · rw [goto_other s here]
      exact .stay _
  cases step with
  | call q b write out =>
    have same := inside q
    rw [goto_self, out] at same
    cases same
  | release q at_ =>
    have same := inside q
    rw [at_] at same
    change ((s.goto q .outside).pc q).buffer = _ at same
    rw [goto_self] at same
    cases same
  | acquire q at_ => exact moves at_ rfl (.acquire ..)
  | alloc q at_ => exact moves at_ rfl (.alloc ..)
  | wait q at_ => exact moves at_ rfl (.wait ..)
  | fill q at_ => exact moves at_ rfl (.fill _ _ _ rfl)
  | publish q at_ => exact moves at_ rfl (.publish _ _ rfl rfl)
  | sleep q at_ => exact moves at_ rfl (.sleep ..)
  | wake q at_ => exact moves at_ rfl (.wake ..)
  | leave q at_ done => exact moves at_ rfl (.leave _ _ done)
  | free q at_ => exact moves at_ rfl (.free ..)
  | allocPanics | freePanics | fetch | complete | interrupt | read | report | reportPanics
  | advance | return_ => exact .stay _

/-- A request that is made available stands among those to be completed. -/
theorem unserved_publish (good : Good s) {p : P} {b : β} {c : Chain} (at_ : s.pc p = .publishing b c)
    (disk : t.disk = { s.disk with availIdx := s.disk.availIdx + 1 }) (fetched : t.fetched = s.fetched) :
    t.available = s.available ++ [BitVec.ofNat 16 c.i0.val] := by
  have entry := (good.queued.ready p b c (by rw [at_]; rfl)).1
  have out := good.queued.fresh good.parted (c := c) (p := p) (by rw [at_]; rfl) (by rw [at_]; rfl)
  have room : (s.disk.availIdx - s.fetched).toNat + 1 < 2 ^ 16 := by
    have bound : s.queue.length < 16 := good.queued.room out
    rw [length_queue] at bound
    omega
  rw [System.available, disk, fetched]
  refine (Ring.pending_publish s.disk.availRing room).trans ?_
  rw [entry]
  rfl

/-- Inside a call no request is completed, and one that was made available before stays where it is. -/
theorem unserved_step (good : Good s) (step : Step s e t) (device : t.working = s.working) {p : P}
    {b : β} {c : Chain} (request : (s.pc p).request = some (b, c)) :
    c.i0.val ∈ t.unserved ↔ c.i0.val ∈ s.unserved := by
  have mine := (Pc.written_chain (Pc.request_written request)).1
  -- the ring is as before
  have same : ∀ {t : System P β}, t.available = s.available → t.working = s.working →
      (c.i0.val ∈ t.unserved ↔ c.i0.val ∈ s.unserved) := by
    intro t available working
    rw [System.unserved, System.unserved, available, working]
  cases step with
  | alloc q at_ ok =>
    rcases alloc3Desc_spec s.disk with ⟨c, -, -, takes⟩ | ⟨d, fails, -⟩
    · rw [takes] at ok
      obtain ⟨-, rfl⟩ := Prod.mk.inj (Except.ok.inj ok)
      exact same rfl rfl
    · rw [fails] at ok
      cases ok
  | wait q at_ ok =>
    rcases alloc3Desc_spec s.disk with ⟨c, -, -, takes⟩ | ⟨d, fails, rest⟩
    · rw [takes] at ok
      cases ok
    · rw [fails] at ok
      obtain ⟨-, rfl⟩ := Prod.mk.inj (Except.ok.inj ok)
      refine same ?_ rfl
      rw [rest.rest]
      rfl
  | fill q at_ =>
    have out := good.queued.fresh good.parted (p := q) (by rw [at_]; rfl) (by rw [at_]; rfl)
    have room : (s.disk.availIdx - s.fetched).toNat < NUM := by
      have bound := good.queued.room out
      rw [length_queue] at bound
      omega
    exact same (Ring.pending_write (by decide) s.disk.availRing _ room) rfl
  | @publish q b' c' at_ =>
    set t : System P β :=
      (s.setDisk { s.disk with availIdx := s.disk.availIdx + 1 }).goto q (.testing b' c')
    have available : t.available = _ := unserved_publish good at_ rfl rfl
    have other : q ≠ p := by
      rintro rfl
      rw [at_] at request
      cases request
    have apart : c.i0.val ≠ c'.i0.val := by
      intro is
      refine other (good.parted.apart q p c' c c.i0 (by rw [at_]; rfl) mine ?_ (by simp [Chain.toList]))
      simp [Chain.toList, Fin.ext is]
    rw [System.unserved, System.unserved, available, List.map_append, List.map_singleton, small]
    simp only [List.mem_append, List.mem_singleton, apart, or_false]
    rfl
  | free q at_ ok =>
    rw [good.parted.frees at_] at ok
    obtain rfl := Except.ok.inj ok
    exact same rfl rfl
  | fetch new => exact absurd (congrArg List.length device) (by simp)
  | complete head works =>
    have length := congrArg List.length device
    have positive := List.length_pos_of_mem works
    simp only [List.length_erase_of_mem works] at length
    omega
  | call | acquire | allocPanics | sleep | wake | leave | freePanics | release | interrupt | read
  | report | reportPanics | advance | return_ => exact same rfl rfl

/-! ### The calls -/

omit [DecidableEq P] [DecidableEq β] in
/-- The descriptors are still those that a call has asked for. -/
def Asks (s : System P β) (b : β) (c : Chain) (call : Call β) : Prop :=
  ∃ write, call = .asked b write ∧ Filled s.disk b (s.blockno b) write c

/-- Where a call stands: its request is in the descriptors until the device has completed it, and it
has taken effect afterwards. -/
def Answers (s : System P β) : Pc β → Call β → Prop
  | .outside, call => call = .idle
  | .starting b write, call | .allocating b write, call | .filling b write _, call =>
    call = .asked b write
  | .publishing b c, call => Asks s b c call
  | .testing b c, call | .sleeping b c, call =>
    c.i0.val ∈ s.unserved ∧ Asks s b c call ∨ c.i0.val ∉ s.unserved ∧ call = .done b
  | .freeing b _, call | .releasing b, call => call = .done b

omit [DecidableEq P] [DecidableEq β] in
theorem Answers.buffer {pc : Pc β} {call : Call β} (answers : Answers s pc call) :
    call.buffer = pc.buffer := by
  cases pc with
  | outside => rw [show call = .idle from answers]; rfl
  | starting b write | allocating b write => rw [show call = .asked b write from answers]; rfl
  | filling b write c => rw [show call = .asked b write from answers]; rfl
  | publishing b c =>
    obtain ⟨write, is, -⟩ : Asks s b c call := answers
    rw [is]
    rfl
  | testing b c | sleeping b c =>
    have either : c.i0.val ∈ s.unserved ∧ Asks s b c call ∨ c.i0.val ∉ s.unserved ∧ call = .done b :=
      answers
    rcases either with ⟨-, write, is, -⟩ | ⟨-, is⟩ <;> rw [is] <;> rfl
  | freeing b c => rw [show call = .done b from answers]; rfl
  | releasing b => rw [show call = .done b from answers]; rfl

omit [DecidableEq P] [DecidableEq β] in
/-- Nothing has changed that the standing of a call depends on. -/
theorem Answers.congr {pc : Pc β} {call : Call β} (answers : Answers s pc call)
    (filled : ∀ b c write, pc.written = some (b, c) → Filled s.disk b (s.blockno b) write c →
      Filled t.disk b (t.blockno b) write c)
    (unserved : ∀ b c, pc.request = some (b, c) → (c.i0.val ∈ t.unserved ↔ c.i0.val ∈ s.unserved)) :
    Answers t pc call := by
  have asks : ∀ {b : β} {c : Chain}, pc.written = some (b, c) → Asks s b c call → Asks t b c call :=
    fun is ⟨write, call, holds⟩ => ⟨write, call, filled _ _ write is holds⟩
  cases pc with
  | outside | starting | allocating | filling | freeing | releasing => exact answers
  | publishing b c => exact asks rfl answers
  | testing b c | sleeping b c =>
    have either : c.i0.val ∈ s.unserved ∧ Asks s b c call ∨ c.i0.val ∉ s.unserved ∧ call = .done b :=
      answers
    rcases either with ⟨inside, holds⟩ | ⟨out, done⟩
    · exact .inl ⟨(unserved b c rfl).mpr inside, asks rfl holds⟩
    · exact .inr ⟨fun now => out ((unserved b c rfl).mp now), done⟩

omit [DecidableEq P] [DecidableEq β] in
/-- The call of a pending request has not taken effect. -/
theorem Answers.pending {p : P} {b : β} {c : Chain} {call : Call β}
    (answers : Answers s (s.pc p) call) (good : Good s) (pending : s.Pending p b c) :
    Asks s b c call := by
  obtain ⟨request, inside⟩ := pending
  generalize at_ : s.pc p = pc at answers request
  have either : ∀ {b : β} {c : Chain}, c.i0.val ∈ s.unserved →
      (c.i0.val ∈ s.unserved ∧ Asks s b c call ∨ c.i0.val ∉ s.unserved ∧ call = .done b) →
      Asks s b c call := by
    rintro b c inside (⟨-, asks⟩ | ⟨out, -⟩)
    · exact asks
    · exact absurd inside out
  cases pc with
  | testing b' c' | sleeping b' c' =>
    cases request
    exact either inside answers
  | freeing b' c' =>
    cases request
    have own := good.queued.done p b c (by rw [at_]; rfl)
    exact absurd inside (served_of_owned good (by rw [at_]; rfl) own)
  | outside | starting | allocating | filling | publishing | releasing => cases request

/-- A step inside `virtio_disk_rw` leaves every call where it stands. -/
theorem Answers.step (good : Good s) (step : Step s e t)
    (inside : ∀ p, (t.pc p).buffer = (s.pc p).buffer) (device : t.working = s.working) {p : P}
    {call : Call β} (answers : Answers s (s.pc p) call) : Answers t (t.pc p) call := by
  have turn := turn_of_step step inside p
  have blockno := blockno_step step
  -- what has been written and is not freed stays in the descriptors
  have filled : ∀ b c write, (s.pc p).written = some (b, c) → (t.pc p).written = some (b, c) →
      Filled s.disk b (s.blockno b) write c → Filled t.disk b (t.blockno b) write c := by
    intro b c write before after holds
    obtain ⟨ops, desc⟩ := filled_step good.parted step before after
    rw [blockno]
    exact holds.congr ops desc
  have unserved : ∀ b c, (s.pc p).request = some (b, c) →
      (c.i0.val ∈ t.unserved ↔ c.i0.val ∈ s.unserved) :=
    fun b c request => unserved_step good step device request
  generalize was : s.pc p = x at turn answers filled unserved
  generalize now : t.pc p = y at turn filled
  cases turn with
  | stay => exact answers.congr (fun b c write is => filled b c write is is) unserved
  | acquire | alloc | wait | free => exact answers
  | fill b write c disk =>
    refine ⟨write, answers, ?_⟩
    rw [disk, blockno]
    exact fill_filled s.disk b _ write (good.parted.nodup p c (by rw [was]; rfl))
  | publish b c disk fetched =>
    obtain ⟨write, is, holds⟩ : Asks s b c call := answers
    refine .inl ⟨?_, write, is, filled b c write rfl rfl holds⟩
    rw [System.unserved, unserved_publish good was disk fetched, List.map_append, List.map_singleton,
      small]
    exact List.mem_append_left _ (List.mem_append_right _ (List.mem_singleton.mpr rfl))
  | sleep b c | wake b c =>
    have held : Answers s (.testing b c) call := answers
    exact held.congr (fun b c write is => filled b c write is is) unserved
  | leave b c own =>
    have either : c.i0.val ∈ s.unserved ∧ Asks s b c call ∨ c.i0.val ∉ s.unserved ∧ call = .done b :=
      answers
    rcases either with ⟨inside, -⟩ | ⟨-, done⟩
    · exact absurd inside (served_of_owned good (by rw [was]; rfl) own)
    · exact done

/-- A step inside `virtio_disk_rw` adds a request to the pending ones if it makes it available, and
takes none away. -/
theorem pending_step (good : Good s) (step : Step s e t)
    (inside : ∀ p, (t.pc p).buffer = (s.pc p).buffer) (device : t.working = s.working) (p : P) (b : β)
    (c : Chain) : (s.Pending p b c → t.Pending p b c) ∧
      (t.Pending p b c → s.Pending p b c ∨ s.pc p = .publishing b c) := by
  have turn := turn_of_step step inside p
  have unserved : ∀ b c, (s.pc p).request = some (b, c) →
      (c.i0.val ∈ t.unserved ↔ c.i0.val ∈ s.unserved) :=
    fun b c request => unserved_step good step device request
  unfold System.Pending
  generalize was : s.pc p = x at turn unserved
  generalize now : t.pc p = y at turn
  have same : ∀ {x y : Pc β}, y.request = x.request → (∀ b c, x.request = some (b, c) →
      (c.i0.val ∈ t.unserved ↔ c.i0.val ∈ s.unserved)) →
      (x.request = some (b, c) ∧ c.i0.val ∈ s.unserved →
        y.request = some (b, c) ∧ c.i0.val ∈ t.unserved) ∧
      (y.request = some (b, c) ∧ c.i0.val ∈ t.unserved →
        x.request = some (b, c) ∧ c.i0.val ∈ s.unserved ∨ x = .publishing b c) := by
    intro x y kept unserved
    rw [kept]
    exact ⟨fun h => ⟨h.1, (unserved b c h.1).mpr h.2⟩, fun h => .inl ⟨h.1, (unserved b c h.1).mp h.2⟩⟩
  cases turn with
  | stay | acquire | alloc | wait | fill | sleep | wake | leave => exact same rfl unserved
  | publish b' c' =>
    refine ⟨fun h => ?_, fun h => ?_⟩
    · obtain ⟨request, -⟩ := h
      cases request
    · obtain ⟨request, -⟩ := h
      cases request
      exact .inr rfl
  | free b' c' =>
    refine ⟨fun h => ?_, fun h => ?_⟩
    · obtain ⟨request, also⟩ := h
      cases request
      have own := good.queued.done p b c (by rw [was]; rfl)
      exact absurd also (served_of_owned good (by rw [was]; rfl) own)
    · obtain ⟨request, -⟩ := h
      cases request

/-! ### The bytes -/

omit [DecidableEq P] [DecidableEq β] in
/-- Where the bytes of the store are: a block that no pending request writes is on the medium, and a
buffer that none reads has its value.  A pending write has put the moved bytes on the medium, and a
pending read has brought the moved bytes into its buffer. -/
structure Bytes (s : Machine P β) (a : Store P β (BitVec 31) Block) : Prop where
  data : ∀ b, (∀ p c, s.sys.Pending p b c → a.call p ≠ .asked b false) → a.data b = s.data b
  block : ∀ k, (∀ p b c, s.sys.Pending p b c → a.call p = .asked b true → s.sys.place b ≠ k) →
    a.block k = s.block k
  write : ∀ p b c, s.sys.Pending p b c → a.call p = .asked b true → ∀ i,
    s.block (s.sys.place b) i =
      if s.moved (BitVec.ofNat 16 c.i0.val) i then s.data b i else a.block (s.sys.place b) i
  read : ∀ p b c, s.sys.Pending p b c → a.call p = .asked b false → ∀ i,
    s.moved (BitVec.ofNat 16 c.i0.val) i = true → s.data b i = a.block (s.sys.place b) i

/-- The machine and the store agree. -/
structure Agrees (s : Machine P β) (a : Store P β (BitVec 31) Block) : Prop where
  good : Good s.sys
  apart : ∀ p q b b', (s.sys.pc p).buffer = some b → (s.sys.pc q).buffer = some b' → p ≠ q →
    s.sys.place b' ≠ s.sys.place b
  idle : ∀ head, head ∉ s.sys.working → ∀ i, s.moved head i = false
  place : a.place = s.sys.place
  calls : ∀ p, Answers s.sys (s.sys.pc p) (a.call p)
  bytes : Bytes s a

omit [DecidableEq P] [DecidableEq β] in
/-- No byte is moved, and the requests that come to be pending have nothing moved and share no block
with one that was pending. -/
theorem Bytes.keep {s t : Machine P β} {a a' : Store P β (BitVec 31) Block} (bytes : Bytes s a)
    (data : t.data = s.data) (medium : t.medium = s.medium) (moved : t.moved = s.moved)
    (values : a'.data = a.data) (blocks : a'.block = a.block)
    (place : ∀ p b c, t.sys.Pending p b c → t.sys.place b = s.sys.place b)
    (call : ∀ p b c, s.sys.Pending p b c → a'.call p = a.call p)
    (old : ∀ p b c, s.sys.Pending p b c → t.sys.Pending p b c)
    (new : ∀ p b c, t.sys.Pending p b c → s.sys.Pending p b c ∨
      (∀ i, s.moved (BitVec.ofNat 16 c.i0.val) i = false) ∧
        ∀ q b' c', s.sys.Pending q b' c' → s.sys.place b' ≠ s.sys.place b) : Bytes t a' := by
  have block : t.block = s.block := by
    unfold Machine.block
    rw [medium]
  constructor
  · intro b none
    rw [values, data]
    exact bytes.data b fun p c pending => call p b c pending ▸ none p c (old p b c pending)
  · intro k none
    rw [blocks, block]
    refine bytes.block k fun p b c pending asks => ?_
    have now := old p b c pending
    rw [← place p b c now]
    exact none p b c now ((call p b c pending).trans asks)
  · intro p b c pending asks i
    rw [block, place p b c pending, moved, data, blocks]
    rcases new p b c pending with before | ⟨unmoved, others⟩
    · exact bytes.write p b c before ((call p b c before) ▸ asks) i
    · rw [unmoved, if_neg Bool.false_ne_true]
      exact (congrFun (bytes.block _ fun q b' c' pending _ => others q b' c' pending) i).symm
  · intro p b c pending asks i did
    rw [moved] at did
    rw [data, blocks, place p b c pending]
    rcases new p b c pending with before | ⟨unmoved, -⟩
    · exact bytes.read p b c before ((call p b c before) ▸ asks) i did
    · rw [unmoved] at did
      cases did

omit [DecidableEq P] [DecidableEq β] in
/-- What the device works on is pending. -/
theorem working_pending {s : System P β} (good : Good s) {head : BitVec 16}
    (works : head ∈ s.working) :
    ∃ p b c, s.Pending p b c ∧ head = BitVec.ofNat 16 c.i0.val := by
  have inside : head.toNat ∈ s.unserved := List.mem_append_right _ (List.mem_map_of_mem works)
  obtain ⟨p, b, c, request, -, is⟩ := good.queued.asked (unserved_queue inside)
  exact ⟨p, b, c, ⟨request, is ▸ inside⟩, BitVec.eq_of_toNat_eq (by rw [small, is])⟩

/-! ### The steps of the processes -/

variable {m n : Machine P β} {a : Store P β (BitVec 31) Block}

omit [DecidableEq P] [DecidableEq β] in
theorem Agrees.buffer (agrees : Agrees m a) (p : P) : (a.call p).buffer = (m.sys.pc p).buffer :=
  (agrees.calls p).buffer

omit [DecidableEq P] [DecidableEq β] in
theorem Agrees.unused (agrees : Agrees m a) {b : β} (unused : m.sys.Unused b) : a.Unused b :=
  fun p => by
    rw [agrees.buffer p]
    exact unused p

omit [DecidableEq P] [DecidableEq β] in
theorem Pending.buffer {s : System P β} {p : P} {b : β} {c : Chain} (pending : s.Pending p b c) :
    (s.pc p).buffer = some b := (Pc.written_chain (Pc.request_written pending.1)).2

/-- A process enters or leaves `virtio_disk_rw`. -/
theorem Agrees.goto (agrees : Agrees m a) {p : P} {x : Pc β} {call : Call β} (lock : Option P)
    (before : (m.sys.pc p).request = none) (after : x.request = none)
    (stands : ∀ s : System P β, Answers s x call)
    (good : Good { m.sys.goto p x with lock })
    (fresh : ∀ b, x.buffer = some b → ∀ q b', (m.sys.pc q).buffer = some b' →
      m.sys.place b' ≠ m.sys.place b) :
    Agrees { m with sys := { m.sys.goto p x with lock } }
      { a with call := Function.update a.call p call } := by
  have pending : ∀ q b c, System.Pending { m.sys.goto p x with lock } q b c ↔ m.sys.Pending q b c := by
    intro q b c
    have same := goto_keeps m.sys Pc.request (p := p) (x := x) (by rw [before, after]) q
    show ((m.sys.goto p x).pc q).request = some (b, c) ∧ c.i0.val ∈ m.sys.unserved ↔ _
    rw [same]
    rfl
  refine ⟨good, fun q r b b' has also other => ?_, agrees.idle, agrees.place, fun q => ?_, ?_⟩
  · change ((m.sys.goto p x).pc q).buffer = some b at has
    change ((m.sys.goto p x).pc r).buffer = some b' at also
    show m.sys.place b' ≠ m.sys.place b
    by_cases left : q = p
    · have right : r ≠ p := fun is => other (left.trans is.symm)
      rw [left, goto_self] at has
      rw [goto_other _ right] at also
      exact fresh b has r b' also
    · rw [goto_other _ left] at has
      by_cases right : r = p
      · rw [right, goto_self] at also
        exact (fresh b' also q b has).symm
      · rw [goto_other _ right] at also
        exact agrees.apart q r b b' has also other
  · show Answers { m.sys.goto p x with lock } ((m.sys.goto p x).pc q) (Function.update a.call p call q)
    by_cases same : q = p
    · rw [same, goto_self, Function.update_self]
      exact stands _
    · rw [goto_other _ same, Function.update_of_ne same]
      exact (agrees.calls q).congr (fun _ _ _ _ filled => filled) fun _ _ _ => .rfl
  · refine agrees.bytes.keep rfl rfl rfl rfl rfl (fun _ _ _ _ => rfl) (fun q b c is => ?_)
      (fun q b c is => (pending q b c).mpr is) fun q b c is => .inl ((pending q b c).mp is)
    have request := is.1
    refine Function.update_of_ne ?_ _ _
    rintro rfl
    rw [before] at request
    cases request

/-! ### The steps of the device -/

omit [DecidableEq P] [DecidableEq β] in
/-- A byte is put on the medium. -/
theorem block_update (m : Machine P β) (k : BitVec 31) (i : Fin BSIZE) (x : BitVec 8) :
    Machine.block { m with medium := Function.update m.medium (k.toNat * BSIZE + i.val) x } =
      Function.update m.block k (Function.update (m.block k) i x) := by
  funext k' j
  show Function.update m.medium (k.toNat * BSIZE + i.val) x (k'.toNat * BSIZE + j.val) = _
  by_cases same : k' = k
  · rw [same, Function.update_self]
    by_cases here : j = i
    · rw [here, Function.update_self, Function.update_self]
    · have apart : k.toNat * BSIZE + j.val ≠ k.toNat * BSIZE + i.val :=
        fun is => here (Fin.ext (Nat.add_left_cancel is))
      rw [Function.update_of_ne apart, Function.update_of_ne here]
      rfl
  · have apart : k'.toNat * BSIZE + j.val ≠ k.toNat * BSIZE + i.val := by
      have first := i.isLt
      have second := j.isLt
      intro is
      refine same (BitVec.eq_of_toNat_eq ?_)
      simp only [BSIZE] at *
      omega
    rw [Function.update_of_ne apart, Function.update_of_ne same]
    rfl

omit [DecidableEq P] [DecidableEq β] in
theorem Pending.unique {s : System P β} {p : P} {b b' : β} {c c' : Chain} (first : s.Pending p b c)
    (second : s.Pending p b' c') : b' = b ∧ c' = c := by
  have same := second.1.symm.trans first.1
  cases same
  exact ⟨rfl, rfl⟩

omit [DecidableEq P] [DecidableEq β] in
/-- Two pending requests share neither their block nor their buffer nor their head. -/
theorem Agrees.others (agrees : Agrees m a) {p q : P} {b b' : β} {c c' : Chain}
    (first : m.sys.Pending p b c) (second : m.sys.Pending q b' c') (other : q ≠ p) :
    m.sys.place b' ≠ m.sys.place b ∧ b' ≠ b ∧
      BitVec.ofNat 16 c'.i0.val ≠ BitVec.ofNat 16 c.i0.val := by
  refine ⟨agrees.apart p q b b' (Pending.buffer first) (Pending.buffer second) other.symm, ?_, ?_⟩
  · rintro rfl
    exact other (agrees.good.owners.buffers q p b' (Pending.buffer second) (Pending.buffer first))
  · intro same
    have heads := congrArg BitVec.toNat same
    rw [small, small] at heads
    exact other (agrees.good.parted.heads second.1 first.1 heads).1

/-- The device moves a byte. -/
theorem Agrees.move (agrees : Agrees m a) {head : BitVec 16} {o : Order β}
    (works : head ∈ m.sys.working) (asks : m.sys.disk.order head = some o) (i : Fin BSIZE) :
    Agrees (m.move head o i) a := by
  obtain ⟨p, b, c, pending, rfl⟩ := working_pending agrees.good works
  obtain ⟨write, call, filled⟩ := (agrees.calls p).pending agrees.good pending
  rw [filled.order] at asks
  obtain rfl := Option.some.inj asks
  clear asks
  have bytes := agrees.bytes
  set head := BitVec.ofNat 16 c.i0.val
  have still : ∀ {h : BitVec 16}, h ≠ head →
      Function.update m.moved head (Function.update (m.moved head) i true) h = m.moved h :=
    fun other => Function.update_of_ne other ..
  have idle : ∀ h, h ∉ m.sys.working → ∀ j,
      Function.update m.moved head (Function.update (m.moved head) i true) h j = false := by
    intro h out j
    have other : h ≠ head := by
      rintro rfl
      exact out works
    rw [still other]
    exact agrees.idle h out j
  have mine : ∀ j, Function.update m.moved head (Function.update (m.moved head) i true) head j =
      Function.update (m.moved head) i true j := fun j => by rw [Function.update_self]
  unfold Machine.move
  rw [sector_place]
  cases write with
  | true =>
    have block : Machine.block { m with
        medium := Function.update m.medium ((m.sys.place b).toNat * BSIZE + i.val) (m.data b i)
        moved := Function.update m.moved head (Function.update (m.moved head) i true) } =
        Function.update m.block (m.sys.place b) (Function.update (m.block (m.sys.place b)) i
          (m.data b i)) := block_update m (m.sys.place b) i (m.data b i)
    refine ⟨agrees.good, agrees.apart, idle, agrees.place, agrees.calls, bytes.data, fun k none => ?_,
      fun q b' c' also asks j => ?_, fun q b' c' also asks j did => ?_⟩
    · refine Eq.trans ?_ (congrFun block k).symm
      rw [Function.update_of_ne (none p b c pending call).symm]
      exact bytes.block k none
    · refine (congrFun (congrFun block (m.sys.place b')) j).trans ?_
      by_cases same : q = p
      · subst same
        obtain ⟨rfl, rfl⟩ := Pending.unique pending also
        rw [Function.update_self]
        show _ = if Function.update m.moved head (Function.update (m.moved head) i true) head j then _ else _
        rw [mine]
        by_cases here : j = i
        · rw [here, Function.update_self, Function.update_self, if_pos rfl]
          rfl
        · rw [Function.update_of_ne here, Function.update_of_ne here]
          exact bytes.write q b' c' also asks j
      · obtain ⟨place, -, heads⟩ := agrees.others pending also same
        rw [Function.update_of_ne place]
        show _ = if Function.update m.moved head _ _ j then _ else _
        rw [still heads]
        exact bytes.write q b' c' also asks j
    · have same : q ≠ p := by
        rintro rfl
        rw [call] at asks
        cases asks
      obtain ⟨-, -, heads⟩ := agrees.others pending also same
      change Function.update m.moved head _ _ j = true at did
      rw [still heads] at did
      exact bytes.read q b' c' also asks j did
  | false =>
    -- no pending write touches the block that is read
    have source : m.medium ((m.sys.place b).toNat * BSIZE + i.val) = a.block (m.sys.place b) i := by
      refine (congrFun (bytes.block (m.sys.place b) fun q b' c' also asks => ?_) i).symm
      have same : q ≠ p := by
        rintro rfl
        rw [call] at asks
        cases asks
      exact (agrees.others pending also same).1
    refine ⟨agrees.good, agrees.apart, idle, agrees.place, agrees.calls, fun b' none => ?_, bytes.block,
      fun q b' c' also asks j => ?_, fun q b' c' also asks j did => ?_⟩
    · have other : b' ≠ b := by
        rintro rfl
        exact none p c pending call
      exact (bytes.data b' none).trans (Function.update_of_ne other ..).symm
    · have same : q ≠ p := by
        rintro rfl
        rw [call] at asks
        cases asks
      obtain ⟨-, other, heads⟩ := agrees.others pending also same
      show _ = if Function.update m.moved head _ _ j then Function.update m.data b _ b' j else _
      rw [still heads, Function.update_of_ne other]
      exact bytes.write q b' c' also asks j
    · show Function.update m.data b (Function.update (m.data b) i (m.medium _)) b' j = _
      change Function.update m.moved head _ _ j = true at did
      by_cases same : q = p
      · subst same
        obtain ⟨rfl, rfl⟩ := Pending.unique pending also
        rw [Function.update_self]
        by_cases here : j = i
        · rw [here, Function.update_self]
          exact source
        · rw [Function.update_of_ne here]
          rw [mine, Function.update_of_ne here] at did
          exact bytes.read q b' c' also asks j did
      · obtain ⟨-, other, heads⟩ := agrees.others pending also same
        rw [Function.update_of_ne other]
        rw [still heads] at did
        exact bytes.read q b' c' also asks j did

/-- The device completes a chain, and the call takes effect. -/
theorem Agrees.complete (agrees : Agrees m a) {head : BitVec 16} (works : head ∈ m.sys.working)
    (all : ∀ i, m.moved head i = true) :
    ∃ a', BlockStore.Step a none a' ∧ Agrees { m with
      sys := { m.sys.setDisk (m.sys.disk.finish head) with working := m.sys.working.erase head }
      moved := Function.update m.moved head fun _ => false } a' := by
  obtain ⟨p, b, c, pending, rfl⟩ := working_pending agrees.good works
  obtain ⟨write, call, -⟩ := (agrees.calls p).pending agrees.good pending
  have bytes := agrees.bytes
  set head := BitVec.ofNat 16 c.i0.val with is
  set n : Machine P β := { m with
    sys := { m.sys.setDisk (m.sys.disk.finish head) with working := m.sys.working.erase head }
    moved := Function.update m.moved head fun _ => false }
  have good : Good n.sys := agrees.good.step (.complete head works)
  -- the chain is not pending any more, and the others are
  have unserved : ∀ k, k ∈ n.sys.unserved ↔ k ∈ m.sys.unserved ∧ k ≠ c.i0.val := by
    intro k
    have split : m.sys.unserved.Perm (c.i0.val :: n.sys.unserved) := by
      have working : (m.sys.working.map BitVec.toNat).Perm
          (c.i0.val :: (m.sys.working.erase head).map BitVec.toNat) := by
        have one := (List.perm_cons_erase works).map BitVec.toNat
        rwa [List.map_cons, is, small] at one
      exact (working.append_left _).trans List.perm_middle
    have nodup : (c.i0.val :: n.sys.unserved).Nodup :=
      split.nodup_iff.mp (List.nodup_append.mp agrees.good.queued.nodup).1
    have out := (List.nodup_cons.mp nodup).1
    rw [split.mem_iff, List.mem_cons]
    constructor
    · intro inside
      exact ⟨.inr inside, fun same => out (same ▸ inside)⟩
    · rintro ⟨rfl | inside, other⟩
      · exact absurd rfl other
      · exact inside
  have pendings : ∀ q b' c', n.sys.Pending q b' c' → m.sys.Pending q b' c' ∧ q ≠ p := by
    rintro q b' c' ⟨request, inside⟩
    obtain ⟨before, other⟩ := (unserved _).mp inside
    refine ⟨⟨request, before⟩, ?_⟩
    rintro rfl
    exact other (congrArg (fun c => c.i0.val) (Pending.unique pending ⟨request, before⟩).2)
  have back : ∀ q b' c', m.sys.Pending q b' c' → q ≠ p → n.sys.Pending q b' c' := by
    intro q b' c' before other
    refine ⟨before.1, (unserved _).mpr ⟨before.2, fun same => ?_⟩⟩
    exact (agrees.others pending before other).2.2 (by rw [same])
  have moved : ∀ {h : BitVec 16}, h ≠ head → n.moved h = m.moved h :=
    fun other => Function.update_of_ne other ..
  have idle : ∀ h, h ∉ n.sys.working → ∀ i, n.moved h i = false := by
    intro h out i
    by_cases same : h = head
    · rw [same]
      exact congrFun (Function.update_self head _ m.moved) i
    · rw [moved same]
      exact agrees.idle h (fun inside => out ((List.mem_erase_of_ne same).mpr inside)) i
  have answers : ∀ q, Answers n.sys (n.sys.pc q) (Function.update a.call p (.done b) q) := by
    intro q
    by_cases same : q = p
    · rw [same, Function.update_self]
      have served : c.i0.val ∉ n.sys.unserved := fun inside => ((unserved _).mp inside).2 rfl
      have request := pending.1
      show Answers n.sys (m.sys.pc p) (.done b)
      generalize m.sys.pc p = pc at request
      cases pc with
      | testing | sleeping =>
        cases request
        exact .inr ⟨served, rfl⟩
      | freeing =>
        cases request
        rfl
      | outside | starting | allocating | filling | publishing | releasing => cases request
    · rw [Function.update_of_ne same]
      refine (agrees.calls q).congr (fun _ _ _ _ filled => filled.congr rfl fun _ _ => rfl)
        fun b' c' request => ?_
      rw [unserved]
      refine and_iff_left fun heads => same ?_
      exact (agrees.good.parted.heads request pending.1 heads).1
  have calls : ∀ {q : P}, q ≠ p → Function.update a.call p (.done b) q = a.call q :=
    fun other => Function.update_of_ne other ..
  cases write with
  | true =>
    have data : a.data b = m.data b := by
      refine bytes.data b fun q c' also asks => ?_
      have same := agrees.good.owners.buffers q p b (Pending.buffer also) (Pending.buffer pending)
      rw [same, call] at asks
      cases asks
    refine ⟨_, .write p call, good, agrees.apart, idle, agrees.place, answers, fun b' none => ?_,
      fun k none => ?_, fun q b' c' also asks i => ?_, fun q b' c' also asks i did => ?_⟩
    · refine bytes.data b' fun q c' also asks => ?_
      by_cases same : q = p
      · rw [same, call] at asks
        cases asks
      · exact none q c' (back q b' c' also same) ((calls same).trans asks)
    · show Function.update a.block (a.place b) (a.data b) k = m.block k
      rw [agrees.place]
      by_cases here : k = m.sys.place b
      · rw [here, Function.update_self, data]
        funext i
        rw [bytes.write p b c pending call i, all i, if_pos rfl]
      · rw [Function.update_of_ne here]
        refine bytes.block k fun q b' c' also asks => ?_
        by_cases same : q = p
        · rw [same] at also
          rw [(Pending.unique pending also).1]
          exact Ne.symm here
        · exact none q b' c' (back q b' c' also same) ((calls same).trans asks)
    · obtain ⟨before, other⟩ := pendings q b' c' also
      obtain ⟨place, -, heads⟩ := agrees.others pending before other
      show m.block (m.sys.place b') i = if n.moved (BitVec.ofNat 16 c'.i0.val) i then m.data b' i else
        Function.update a.block (a.place b) (a.data b) (m.sys.place b') i
      rw [agrees.place, Function.update_of_ne place, moved heads]
      exact bytes.write q b' c' before ((calls other) ▸ asks) i
    · obtain ⟨before, other⟩ := pendings q b' c' also
      obtain ⟨place, -, heads⟩ := agrees.others pending before other
      show m.data b' i = Function.update a.block (a.place b) (a.data b) (m.sys.place b') i
      rw [agrees.place, Function.update_of_ne place]
      exact bytes.read q b' c' before ((calls other) ▸ asks) i (moved heads ▸ did)
  | false =>
    refine ⟨_, .read p call, good, agrees.apart, idle, agrees.place, answers, fun b' none => ?_,
      fun k none => ?_, fun q b' c' also asks i => ?_, fun q b' c' also asks i did => ?_⟩
    · show Function.update a.data b (a.block (a.place b)) b' = m.data b'
      rw [agrees.place]
      by_cases here : b' = b
      · rw [here, Function.update_self]
        funext i
        exact (bytes.read p b c pending call i (all i)).symm
      · rw [Function.update_of_ne here]
        refine bytes.data b' fun q c' also asks => ?_
        by_cases same : q = p
        · rw [same] at also
          exact here (Pending.unique pending also).1
        · exact none q c' (back q b' c' also same) ((calls same).trans asks)
    · refine bytes.block k fun q b' c' also asks => ?_
      by_cases same : q = p
      · rw [same, call] at asks
        cases asks
      · exact none q b' c' (back q b' c' also same) ((calls same).trans asks)
    · obtain ⟨before, other⟩ := pendings q b' c' also
      obtain ⟨-, -, heads⟩ := agrees.others pending before other
      show m.block (m.sys.place b') i = if n.moved (BitVec.ofNat 16 c'.i0.val) i then m.data b' i else
        a.block (m.sys.place b') i
      rw [moved heads]
      exact bytes.write q b' c' before ((calls other) ▸ asks) i
    · obtain ⟨before, other⟩ := pendings q b' c' also
      obtain ⟨-, -, heads⟩ := agrees.others pending before other
      exact bytes.read q b' c' before ((calls other) ▸ asks) i (moved heads ▸ did)

/-- Every step of the machine is one of the store, or leaves the store as it is. -/
theorem Agrees.step {x : Option (Act P β (BitVec 31) Block)} (agrees : Agrees m a)
    (step : Machine.Step m x n) : ∃ a', Simulation.Run BlockStore.Step a x.toList a' ∧ Agrees n a' := by
  have bytes := agrees.bytes
  cases step with
  | call p b write out apart =>
    have idle : a.call p = .idle := by
      have stands := agrees.calls p
      rw [out] at stands
      exact stands
    have step : BlockStore.Step a (some (.call p b write (m.sys.place b)))
        { a with call := Function.update a.call p (.asked b write) } := by
      rw [← agrees.place]
      refine .call p b write idle fun q b' has => ?_
      rw [agrees.place]
      exact apart q b' ((agrees.buffer q).symm.trans has)
    refine ⟨_, .one step, agrees.goto (x := .starting b write) m.sys.lock (by rw [out]; rfl) rfl
      (fun _ => rfl)
      (agrees.good.step (.call p b write out fun q is => (apart q b is).1 rfl)) ?_⟩
    intro b' is q b'' has
    cases is
    exact (apart q b'' has).2
  | @back p b at_ =>
    have done : a.call p = .done b := by
      have stands := agrees.calls p
      rw [at_] at stands
      exact stands
    refine ⟨_, .one (.back p done), agrees.goto (x := .outside) none (by rw [at_]; rfl) rfl (fun _ => rfl)
      (agrees.good.step (.release p at_)) ?_⟩
    intro b is
    cases is
  | store b v unused =>
    refine ⟨_, .one (.store b v (agrees.unused unused)), agrees.good, agrees.apart, agrees.idle,
      agrees.place, agrees.calls, fun b' none => ?_, bytes.block, fun q b' c' also asks i => ?_,
      fun q b' c' also asks i did => ?_⟩
    · show Function.update a.data b v b' = Function.update m.data b v b'
      by_cases here : b' = b
      · rw [here, Function.update_self, Function.update_self]
      · rw [Function.update_of_ne here, Function.update_of_ne here]
        exact bytes.data b' none
    · have other : b' ≠ b := by
        rintro rfl
        exact unused q (Pending.buffer also)
      show _ = if _ then Function.update m.data b v b' i else _
      rw [Function.update_of_ne other]
      exact bytes.write q b' c' also asks i
    · have other : b' ≠ b := by
        rintro rfl
        exact unused q (Pending.buffer also)
      show Function.update m.data b v b' i = _
      rw [Function.update_of_ne other]
      exact bytes.read q b' c' also asks i did
  | load b unused =>
    have same : a.data b = m.data b :=
      bytes.data b fun p c also => absurd (Pending.buffer also) (unused p)
    refine ⟨a, .one ?_, agrees⟩
    rw [← same]
    exact .load b (agrees.unused unused)
  | assign b k unused =>
    have place : ∀ {b' : β}, b' ≠ b → System.place { m.sys with
        blockno := Function.update m.sys.blockno b k } b' = m.sys.place b' := by
      intro b' other
      show (Function.update m.sys.blockno b k b').setWidth 31 = _
      rw [Function.update_of_ne other]
      rfl
    have apart : ∀ {p : P} {b' : β}, (m.sys.pc p).buffer = some b' → b' ≠ b := by
      rintro p b' has rfl
      exact unused p has
    refine ⟨_, .one (.assign b (k.setWidth 31) (agrees.unused unused)), ?_, fun p q b' b'' has also other => ?_,
      agrees.idle, funext fun b' => ?_, fun p => ?_, ?_⟩
    · obtain ⟨owners, parted, queued, panicked⟩ := agrees.good
      exact ⟨owners.same rfl rfl,
        parted.same (fun _ => rfl) (fun _ => rfl) rfl (fun _ _ => rfl) rfl,
        queued.same (fun _ => rfl) (fun _ => rfl) (fun _ => rfl) rfl rfl rfl rfl rfl rfl rfl queued.found,
        panicked⟩
    · show System.place _ b'' ≠ System.place _ b'
      rw [place (apart has), place (apart also)]
      exact agrees.apart p q b' b'' has also other
    · show Function.update a.place b (k.setWidth 31) b' = (Function.update m.sys.blockno b k b').setWidth 31
      by_cases here : b' = b
      · rw [here, Function.update_self, Function.update_self]
      · rw [Function.update_of_ne here, Function.update_of_ne here, agrees.place]
        rfl
    · refine (agrees.calls p).congr (fun b' c write is filled => ?_) fun _ _ _ => .rfl
      have other := apart (Pc.written_chain is).2
      show Filled m.sys.disk b' (Function.update m.sys.blockno b k b') write c
      rwa [Function.update_of_ne other]
    · exact bytes.keep rfl rfl rfl rfl rfl (fun p b' c is => place (apart (Pending.buffer is)))
        (fun _ _ _ _ => rfl) (fun _ _ _ is => is) fun _ _ _ is => .inl is
  | @drive e t step inside device =>
    have pendings := pending_step agrees.good step inside device
    have place : ∀ b, t.place b = m.sys.place b := by
      intro b
      show BitVec.setWidth 31 _ = _
      rw [blockno_step step]
      rfl
    refine ⟨a, .nil, agrees.good.step step, fun p q b b' has also other => ?_, fun head out => ?_, ?_,
      fun p => (agrees.calls p).step agrees.good step inside device, ?_⟩
    · rw [place, place]
      exact agrees.apart p q b b' ((inside p).symm.trans has) ((inside q).symm.trans also) other
    · exact agrees.idle head (device ▸ out)
    · rw [agrees.place]
      exact funext fun b => (place b).symm
    · refine bytes.keep rfl rfl rfl rfl rfl (fun _ b _ _ => place b) (fun _ _ _ _ => rfl)
        (fun p b c => (pendings p b c).1) fun p b c is => ?_
      rcases (pendings p b c).2 is with before | at_
      · exact .inl before
      · have out := agrees.good.queued.fresh agrees.good.parted (c := c) (p := p)
          (by rw [at_]; rfl) (by rw [at_]; rfl)
        refine .inr ⟨agrees.idle _ fun works => ?_, fun q b' c' also => ?_⟩
        · refine out (unserved_queue (List.mem_append_right _ (List.mem_map.mpr ⟨_, works, small _⟩)))
        · refine agrees.apart p q b b' (by rw [at_]; rfl) (Pending.buffer also) ?_
          rintro rfl
          have request := also.1
          rw [at_] at request
          cases request
  | fetch new =>
    have available : m.sys.available = m.sys.disk.availRing (Ring.slot NUM m.sys.fetched) ::
        Ring.pending m.sys.disk.availRing (m.sys.fetched + 1) m.sys.disk.availIdx :=
      Ring.pending_pop _ new
    set t : System P β := { m.sys with
      working := m.sys.disk.availRing (Ring.slot NUM m.sys.fetched) :: m.sys.working
      fetched := m.sys.fetched + 1 }
    have unserved : ∀ k, k ∈ t.unserved ↔ k ∈ m.sys.unserved := by
      intro k
      have same : t.unserved.Perm m.sys.unserved := by
        unfold System.unserved
        rw [available, List.map_cons]
        exact List.perm_middle
      exact same.mem_iff
    have pending : ∀ p b c, t.Pending p b c ↔ m.sys.Pending p b c :=
      fun p b c => and_congr_right fun _ => unserved _
    refine ⟨a, .nil, agrees.good.step (.fetch new), agrees.apart, fun head out => ?_, agrees.place,
      fun p => ?_, ?_⟩
    · exact agrees.idle head fun inside => out (List.mem_cons_of_mem _ inside)
    · exact (agrees.calls p).congr (fun _ _ _ _ filled => filled) fun _ _ _ => unserved _
    · exact bytes.keep rfl rfl rfl rfl rfl (fun _ _ _ _ => rfl) (fun _ _ _ _ => rfl)
        (fun p b c => (pending p b c).mpr) fun p b c is => .inl ((pending p b c).mp is)
  | move works asks i => exact ⟨a, .nil, agrees.move works asks i⟩
  | stray works bad data medium =>
    obtain ⟨p, b, c, pending, rfl⟩ := working_pending agrees.good works
    obtain ⟨write, -, filled⟩ := (agrees.calls p).pending agrees.good pending
    rw [filled.order] at bad
    cases bad
  | complete works all =>
    obtain ⟨a', step, now⟩ := agrees.complete works all
    exact ⟨a', Simulation.Run.nil.silent step, now⟩

omit [DecidableEq P] [DecidableEq β] in
/-- After `virtio_disk_init`. -/
theorem Machine.Initial.agrees (init : m.Initial) : Agrees m m.store := by
  have none : ∀ p b c, ¬ m.sys.Pending p b c := by
    rintro p b c ⟨request, -⟩
    rw [init.sys.pc] at request
    cases request
  refine ⟨init.sys.good, fun p q b b' has => ?_, fun head _ => init.moved head, rfl, fun p => ?_, ?_⟩
  · rw [init.sys.pc] at has
    cases has
  · rw [init.sys.pc]
    rfl
  · exact ⟨fun _ _ => rfl, fun _ _ => rfl, fun p b c is => absurd is (none p b c),
      fun p b c is => absurd is (none p b c)⟩

/-- Every run of the machine is one of the store. -/
theorem Agrees.run {trace : List (Act P β (BitVec 31) Block)} (agrees : Agrees m a)
    (run : Simulation.Run Machine.Step m trace n) : ∃ a', Simulation.Run BlockStore.Step a trace a' ∧ Agrees n a' :=
  Simulation.forward (R := Agrees) (fun agrees step => Agrees.step agrees step) agrees run

end Steps

end Xv6Lab.Virtio

import Xv6Lab.Virtio.Descriptors

/-! The protocol between the requests, the device and the interrupt handler.  The descriptors are
parted between the free ones and the chains under way; every chain that has been made available and
not been reported stands exactly once in the ring of available chains, with the device, or in the ring
of used chains. -/

namespace Xv6Lab.Virtio

variable {P β : Type}

/-! ### What a process has -/

/-- The descriptors it has allocated. -/
def Pc.chain : Pc β → Option Chain
  | .filling _ _ c | .publishing _ c | .testing _ c | .sleeping _ c | .freeing _ c => some c
  | _ => none

/-- The request it has written. -/
def Pc.written : Pc β → Option (β × Chain)
  | .publishing b c | .testing b c | .sleeping b c | .freeing b c => some (b, c)
  | _ => none

/-- The request it has made available. -/
def Pc.request : Pc β → Option (β × Chain)
  | .testing b c | .sleeping b c | .freeing b c => some (b, c)
  | _ => none

/-- The request it is about to make available. -/
def Pc.ready : Pc β → Option (β × Chain)
  | .publishing b c => some (b, c)
  | _ => none

/-- The request it is about to free. -/
def Pc.done : Pc β → Option (β × Chain)
  | .freeing b c => some (b, c)
  | _ => none

theorem Pc.request_written {pc : Pc β} {r : β × Chain} (is : pc.request = some r) :
    pc.written = some r := by
  cases pc <;> first | exact is | cases is

theorem Pc.ready_locks {pc : Pc β} {r : β × Chain} (is : pc.ready = some r) :
    pc.locks = true := by
  cases pc <;> first | rfl | cases is

theorem Pc.ready_request {pc : Pc β} {r : β × Chain} (is : pc.ready = some r) :
    pc.request = none := by
  cases pc <;> first | rfl | cases is

theorem Pc.ready_written {pc : Pc β} {r : β × Chain} (is : pc.ready = some r) :
    pc.written = some r := by
  cases pc <;> first | exact is | cases is

theorem Pc.done_request {pc : Pc β} {r : β × Chain} (is : pc.done = some r) :
    pc.request = some r := by
  cases pc <;> first | exact is | cases is

theorem Pc.written_chain {pc : Pc β} {b : β} {c : Chain} (is : pc.written = some (b, c)) :
    pc.chain = some c ∧ pc.buffer = some b := by
  cases pc <;> simp_all [Pc.written, Pc.chain, Pc.buffer]

/-! ### The invariants -/

/-- At most one process is under the lock, and each has a buffer of its own. -/
structure Owners (s : System P β) : Prop where
  lock : ∀ p, (s.pc p).locks = true ↔ s.lock = some p
  buffers : ∀ p q b, (s.pc p).buffer = some b → (s.pc q).buffer = some b → p = q

theorem Owners.same {s t : System P β} (ow : Owners s) (pc : t.pc = s.pc) (lock : t.lock = s.lock) :
    Owners t :=
  ⟨fun p => by rw [pc, lock]; exact ow.lock p, fun p q b => by rw [pc]; exact ow.buffers p q b⟩

/-- The free descriptors and the chains that processes have allocated part the queue, and a request
that has been written can be followed from its head. -/
structure Parted (s : System P β) : Prop where
  apart : ∀ p q c c' i, (s.pc p).chain = some c → (s.pc q).chain = some c' → i ∈ c.toList →
    i ∈ c'.toList → p = q
  nodup : ∀ p c, (s.pc p).chain = some c → c.toList.Nodup
  free : ∀ i, s.disk.free i = true ↔ ∀ p c, (s.pc p).chain = some c → i ∉ c.toList
  linked : ∀ p b c, (s.pc p).written = some (b, c) → Linked s.disk c ∧ s.disk.infoB c.i0 = some b

/-- The descriptors of a chain are not free. -/
theorem Parted.busy {s : System P β} (pt : Parted s) {p : P} {c : Chain} {i : Fin NUM}
    (has : (s.pc p).chain = some c) (inside : i ∈ c.toList) : s.disk.free i = false := by
  by_contra free
  exact (pt.free i).mp (by simpa using free) p c has inside

theorem Parted.same {s t : System P β} (pt : Parted s)
    (chain : ∀ q, (t.pc q).chain = (s.pc q).chain)
    (written : ∀ q, (t.pc q).written = (s.pc q).written) (free : t.disk.free = s.disk.free)
    (desc : ∀ i, s.disk.free i = false → t.disk.desc i = s.disk.desc i)
    (infoB : t.disk.infoB = s.disk.infoB) : Parted t where
  apart p q c c' i has also := pt.apart p q c c' i (chain p ▸ has) (chain q ▸ also)
  nodup p c has := pt.nodup p c (chain p ▸ has)
  free i := by
    rw [free, pt.free i]
    simp only [chain]
  linked p b c has := by
    rw [written p] at has
    obtain ⟨linked, buffer⟩ := pt.linked p b c has
    rw [infoB]
    exact ⟨linked.congr fun i inside => desc i (pt.busy (Pc.written_chain has).1 inside), buffer⟩

/-- `free_chain` does not panic. -/
theorem Parted.frees {s : System P β} (pt : Parted s) {p : P} {b : β} {c : Chain}
    (at_ : s.pc p = .freeing b c) :
    freeChain { s.disk with infoB := Function.update s.disk.infoB c.i0 none } c.i0.val =
      .ok (Disk.clearChain { s.disk with infoB := Function.update s.disk.infoB c.i0 none } c) := by
  have mine : (s.pc p).chain = some c := by rw [at_]; rfl
  have linked := (pt.linked p b c (by rw [at_]; rfl)).1
  exact freeChain_linked (linked.congr fun _ _ => rfl) (pt.nodup p c mine)
    fun i inside => pt.busy mine inside

section Moves

variable [DecidableEq P]

theorem goto_self (s : System P β) (p : P) (x : Pc β) : (s.goto p x).pc p = x :=
  Function.update_self ..

theorem goto_other (s : System P β) {p q : P} (other : q ≠ p) (x : Pc β) :
    (s.goto p x).pc q = s.pc q := Function.update_of_ne other ..

/-- A part of the program counter that a move of one process keeps. -/
theorem goto_keeps {γ : Type} (s : System P β) {p : P} {x : Pc β} (f : Pc β → γ)
    (same : f x = f (s.pc p)) (q : P) : f ((s.goto p x).pc q) = f (s.pc q) := by
  by_cases here : q = p
  · rw [here, goto_self, same]
  · rw [goto_other s here]

/-! ### The lock and the buffers -/

theorem Owners.moves {s t : System P β} (ow : Owners s) {p : P} {x : Pc β}
    (pc : t.pc = (s.goto p x).pc) (buffer : ∀ b, x.buffer = some b → (s.pc p).buffer = some b)
    (lock : ∀ q, q ≠ p → (s.lock = some q ↔ t.lock = some q))
    (here : x.locks = true ↔ t.lock = some p) : Owners t where
  lock q := by
    by_cases same : q = p
    · rw [same, pc, goto_self]
      exact here
    · rw [pc, goto_other s same, ← lock q same]
      exact ow.lock q
  buffers q r b has also := by
    have before : ∀ q, (t.pc q).buffer = some b → (s.pc q).buffer = some b := by
      intro q has
      by_cases same : q = p
      · rw [same, pc, goto_self] at has
        rw [same]
        exact buffer b has
      · rwa [pc, goto_other s same] at has
    exact ow.buffers q r b (before q has) (before r also)

/-! ### The descriptors -/

/-- A process without a chain has taken three descriptors that were free. -/
theorem Parted.alloc {s : System P β} (pt : Parted s) {p : P} {b : β} {write : Bool} {c : Chain}
    (none : (s.pc p).chain = none) (nodup : c.toList.Nodup)
    (free : ∀ i ∈ c.toList, s.disk.free i = true) :
    Parted ((s.setDisk (s.disk.take c.toList)).goto p (.filling b write c)) := by
  have fresh : ∀ q c' i, (s.pc q).chain = some c' → i ∈ c'.toList → i ∉ c.toList :=
    fun q c' i has inside also => (pt.free i).mp (free i also) q c' has inside
  refine ⟨fun q r c' c'' i has also inside within => ?_, fun q c' has => ?_, fun i => ?_,
    fun q b' c' has => ?_⟩
  · by_cases first : q = p
    · by_cases second : r = p
      · exact first.trans second.symm
      · rw [first, goto_self] at has
        rw [goto_other _ second] at also
        obtain rfl := Option.some.inj has
        exact absurd inside (fresh r c'' i also within)
    · rw [goto_other _ first] at has
      by_cases second : r = p
      · rw [second, goto_self] at also
        obtain rfl := Option.some.inj also
        exact absurd within (fresh q c' i has inside)
      · rw [goto_other _ second] at also
        exact pt.apart q r c' c'' i has also inside within
  · by_cases same : q = p
    · rw [same, goto_self] at has
      obtain rfl := Option.some.inj has
      exact nodup
    · rw [goto_other _ same] at has
      exact pt.nodup q c' has
  · show (s.disk.free i && !c.toList.contains i) = true ↔ _
    rw [Bool.and_eq_true, pt.free i, Bool.not_eq_true', List.contains_eq_mem,
      decide_eq_false_iff_not]
    constructor
    · rintro ⟨others, this⟩ q c' has
      by_cases same : q = p
      · rw [same, goto_self] at has
        obtain rfl := Option.some.inj has
        exact this
      · rw [goto_other _ same] at has
        exact others q c' has
    · intro all
      refine ⟨fun q c' has => ?_, all p c (by rw [goto_self]; rfl)⟩
      have same : q ≠ p := by
        rintro rfl
        rw [none] at has
        cases has
      exact all q c' (by rw [goto_other _ same]; exact has)
  · by_cases same : q = p
    · rw [same, goto_self] at has
      cases has
    · rw [goto_other _ same] at has
      obtain ⟨linked, buffer⟩ := pt.linked q b' c' has
      exact ⟨linked.congr fun i _ => rfl, buffer⟩

/-- A process has written its request. -/
theorem Parted.fill {s : System P β} (pt : Parted s) {p : P} {b : β} {write : Bool} {c : Chain}
    (at_ : s.pc p = .filling b write c) (blockno : BitVec 32) {owned : β → Bool} :
    Parted { (s.setDisk (s.disk.fill b blockno write c)).goto p (.publishing b c) with owned } := by
  have mine : (s.pc p).chain = some c := by rw [at_]; rfl
  set t : System P β :=
    { (s.setDisk (s.disk.fill b blockno write c)).goto p (.publishing b c) with owned } with moved
  have chain : ∀ q, (t.pc q).chain = (s.pc q).chain :=
    goto_keeps (s.setDisk _) (fun pc => pc.chain) (by
      show _ = (s.pc p).chain
      rw [at_]
      rfl)
  refine ⟨fun q r c' c'' i has also => pt.apart q r c' c'' i (chain q ▸ has) (chain r ▸ also),
    fun q c' has => pt.nodup q c' (chain q ▸ has), fun i => ?_, fun q b' c' has => ?_⟩
  · show s.disk.free i = true ↔ _
    rw [pt.free i]
    simp only [chain]
  · by_cases same : q = p
    · have is : (t.pc p).written = some (b, c) := by
        show (((s.setDisk _).goto p (.publishing b c)).pc p).written = _
        rw [goto_self]
        rfl
      rw [same, is] at has
      cases has
      exact ⟨fill_linked s.disk b blockno write (pt.nodup p c mine), Function.update_self ..⟩
    · have before : (s.pc q).written = some (b', c') := by
        rw [← has]
        show _ = (((s.setDisk _).goto p (.publishing b c)).pc q).written
        rw [goto_other _ same]
        rfl
      obtain ⟨linked, buffer⟩ := pt.linked q b' c' before
      have apart : ∀ i ∈ c'.toList, i ∉ c.toList := fun i inside also =>
        same (pt.apart q p c' c i (Pc.written_chain before).1 mine inside also)
      refine ⟨linked.congr fun i inside => ?_, ?_⟩
      · have out := apart i inside
        simp only [Chain.toList, List.mem_cons, List.not_mem_nil, or_false, not_or] at out
        show Function.update (Function.update (Function.update s.disk.desc c.i0 _) c.i1 _) c.i2 _ i = _
        rw [Function.update_of_ne out.2.2, Function.update_of_ne out.2.1, Function.update_of_ne out.1]
      · have out := apart c'.i0 (by simp [Chain.toList])
        have other : c'.i0 ≠ c.i0 := by
          intro is
          exact out (by simp [Chain.toList, is])
        show Function.update s.disk.infoB c.i0 (some b) c'.i0 = _
        rw [Function.update_of_ne other]
        exact buffer

/-- A process has freed its chain. -/
theorem Parted.free_chain {s : System P β} (pt : Parted s) {p : P} {b : β} {c : Chain}
    (at_ : s.pc p = .freeing b c) :
    Parted ((s.setDisk (Disk.clearChain
      { s.disk with infoB := Function.update s.disk.infoB c.i0 none } c)).goto p (.releasing b)) := by
  have mine : (s.pc p).chain = some c := by rw [at_]; rfl
  set d : Disk β := { s.disk with infoB := Function.update s.disk.infoB c.i0 none } with cleared
  set t : System P β := (s.setDisk (d.clearChain c)).goto p (.releasing b) with moved
  have gone : (t.pc p).chain = none := by
    show (((s.setDisk _).goto p (.releasing b)).pc p).chain = none
    rw [goto_self]
    rfl
  have kept : ∀ q, q ≠ p → t.pc q = s.pc q := fun q other => goto_other _ other _
  have old : ∀ q c', (t.pc q).chain = some c' → q ≠ p ∧ (s.pc q).chain = some c' := by
    intro q c' has
    have other : q ≠ p := by
      rintro rfl
      rw [gone] at has
      cases has
    exact ⟨other, kept q other ▸ has⟩
  refine ⟨fun q r c' c'' i has also => ?_, fun q c' has => pt.nodup q c' (old q c' has).2,
    fun i => ?_, fun q b' c' has => ?_⟩
  · exact pt.apart q r c' c'' i (old q c' has).2 (old r c'' also).2
  · show (d.clearChain c).free i = true ↔ _
    rw [clearChain_free, Bool.or_eq_true, List.contains_eq_mem, decide_eq_true_eq]
    constructor
    · rintro (free | inside) q c' has within
      · exact (pt.free i).mp free q c' (old q c' has).2 within
      · exact (old q c' has).1 (pt.apart q p c' c i (old q c' has).2 mine within inside)
    · intro all
      by_cases inside : i ∈ c.toList
      · exact .inr inside
      · refine .inl ((pt.free i).mpr fun q c' has within => ?_)
        by_cases same : q = p
        · rw [same, mine] at has
          exact inside (Option.some.inj has ▸ within)
        · exact all q c' (by rw [kept q same]; exact has) within
  · obtain ⟨other, before⟩ := old q c' (Pc.written_chain has).1
    rw [kept q other] at has
    obtain ⟨linked, buffer⟩ := pt.linked q b' c' has
    have apart : ∀ i ∈ c'.toList, i ∉ c.toList := fun i inside also =>
      other (pt.apart q p c' c i before mine inside also)
    refine ⟨linked.congr fun i inside => clearChain_desc d (apart i inside), ?_⟩
    have head : c'.i0 ≠ c.i0 := by
      intro is
      exact apart c'.i0 (by simp [Chain.toList]) (by simp [Chain.toList, is])
    show Function.update s.disk.infoB c.i0 none c'.i0 = _
    rw [Function.update_of_ne head]
    exact buffer

end Moves

section Steps

variable [DecidableEq P] [DecidableEq β]

theorem Owners.step {s t : System P β} {e : Event P β} (ow : Owners s) (step : Step s e t) :
    Owners t := by
  -- a process that holds the lock is the only one
  have holds : ∀ {p : P} {pc : Pc β}, s.pc p = pc → pc.locks = true → s.lock = some p :=
    fun at_ locks => (ow.lock _).mp (at_ ▸ locks)
  have others : ∀ {p : P} {l : Option P}, l = some p →
      ∀ q, q ≠ p → (l = some q ↔ (none : Option P) = some q) := by
    rintro p l rfl q other
    simp [Ne.symm other]
  have free : ∀ {p : P}, s.lock = none → ∀ q, q ≠ p → (s.lock = some q ↔ some p = some q) := by
    intro p open_ q other
    simp [open_, Ne.symm other]
  cases step with
  | call p b write out distinct =>
    refine ⟨fun q => ?_, fun q r b' has also => ?_⟩
    · by_cases same : q = p
      · have before := ow.lock p
        rw [out] at before
        rw [same, goto_self]
        exact before
      · rw [goto_other s same]
        exact ow.lock q
    · by_cases first : q = p
      · by_cases second : r = p
        · exact first.trans second.symm
        · rw [first, goto_self] at has
          rw [goto_other s second, ← has] at also
          exact absurd also (distinct r)
      · rw [goto_other s first] at has
        by_cases second : r = p
        · rw [second, goto_self] at also
          rw [← also] at has
          exact absurd has (distinct q)
        · rw [goto_other s second] at also
          exact ow.buffers q r b' has also
  | acquire p at_ open_ =>
    exact ow.moves rfl (fun b is => by rw [at_]; exact is) (free open_) (by simp [Pc.locks])
  | alloc p at_ =>
    exact ow.moves (p := p) rfl (fun b is => by rw [at_]; exact is) (fun _ _ => .rfl)
      ⟨fun _ => holds at_ rfl, fun _ => rfl⟩
  | wait p at_ =>
    exact ow.moves rfl (fun b is => by rw [at_]; exact is) (others (holds at_ rfl))
      (by simp [Pc.locks])
  | fill p at_ =>
    exact ow.moves (p := p) rfl (fun b is => by rw [at_]; exact is) (fun _ _ => .rfl)
      ⟨fun _ => holds at_ rfl, fun _ => rfl⟩
  | publish p at_ =>
    exact ow.moves (p := p) rfl (fun b is => by rw [at_]; exact is) (fun _ _ => .rfl)
      ⟨fun _ => holds at_ rfl, fun _ => rfl⟩
  | sleep p at_ =>
    exact ow.moves rfl (fun b is => by rw [at_]; exact is) (others (holds at_ rfl))
      (by simp [Pc.locks])
  | wake p at_ open_ =>
    exact ow.moves rfl (fun b is => by rw [at_]; exact is) (free open_) (by simp [Pc.locks])
  | leave p at_ =>
    exact ow.moves (p := p) rfl (fun b is => by rw [at_]; exact is) (fun _ _ => .rfl)
      ⟨fun _ => holds at_ rfl, fun _ => rfl⟩
  | free p at_ =>
    exact ow.moves (p := p) rfl (fun b is => by rw [at_]; exact is) (fun _ _ => .rfl)
      ⟨fun _ => holds at_ rfl, fun _ => rfl⟩
  | release p at_ =>
    exact ow.moves rfl nofun (others (holds at_ rfl)) (by simp [Pc.locks])
  | allocPanics | freePanics | fetch | complete | interrupt | read | report | reportPanics
  | advance | return_ => exact ow.same rfl rfl


theorem Parted.step {s t : System P β} {e : Event P β} (pt : Parted s) (step : Step s e t) :
    Parted t := by
  have keeps : ∀ {γ : Type} {p : P} {pc x : Pc β} (f : Pc β → γ), s.pc p = pc → f x = f pc →
      ∀ q, f ((s.goto p x).pc q) = f (s.pc q) :=
    fun f at_ same => goto_keeps s f (at_ ▸ same)
  cases step with
  | call p b write out =>
    exact pt.same (keeps Pc.chain out rfl) (keeps Pc.written out rfl) rfl (fun _ _ => rfl) rfl
  | acquire p at_ | sleep p at_ | wake p at_ | leave p at_ | publish p at_ | release p at_ =>
    exact pt.same (keeps Pc.chain at_ rfl) (keeps Pc.written at_ rfl) rfl (fun _ _ => rfl) rfl
  | alloc p at_ ok array =>
    rcases alloc3Desc_spec s.disk with ⟨c, nodup, free, takes⟩ | ⟨d, fails, -⟩
    · rw [takes] at ok
      obtain ⟨got, disk⟩ := Prod.mk.inj (Except.ok.inj ok)
      obtain rfl := Option.some.inj got
      obtain rfl := disk
      obtain rfl := Option.some.inj array
      exact pt.alloc (by rw [at_]; rfl) nodup free
    · rw [fails] at ok
      cases ok
  | wait p at_ ok =>
    rcases alloc3Desc_spec s.disk with ⟨c, nodup, free, takes⟩ | ⟨d, fails, same⟩
    · rw [takes] at ok
      cases ok
    · rw [fails] at ok
      obtain ⟨-, rfl⟩ := Prod.mk.inj (Except.ok.inj ok)
      exact pt.same (keeps Pc.chain at_ rfl) (keeps Pc.written at_ rfl) (by rw [same.rest]; rfl)
        same.desc (by rw [same.rest]; rfl)
  | fill p at_ => exact pt.fill at_ _
  | free p at_ ok =>
    rw [pt.frees at_] at ok
    obtain rfl := Except.ok.inj ok
    exact pt.free_chain at_
  | allocPanics | freePanics | fetch | complete | interrupt | read | report | reportPanics
  | advance | return_ => exact pt.same (fun _ => rfl) (fun _ => rfl) rfl (fun _ _ => rfl) rfl

end Steps

end Xv6Lab.Virtio

import Xv6Lab.Virtio.Queue

/-! The life of a request.  `Phase` says what the protocol promises for the chain at each head, and
every run of the driver and the device keeps to it: a chain that is submitted is completed, reported
once for the buffer it was issued for, and then freed by the process that issued it. -/

namespace Xv6Lab.Virtio

variable {P β : Type}

/-- What becomes of the chain at a head. -/
inductive Phase (P β : Type)
  | idle
  | submitted (p : P) (c : Chain) (b : β)
  | completed (p : P) (c : Chain) (b : β)
  | reported (p : P) (c : Chain) (b : β)

/-- The protocol, as a machine that reads events. -/
inductive Follows (φ : Nat → Phase P β) : Event P β → (Nat → Phase P β) → Prop
  | submit {p : P} {c : Chain} {b : β} (is : φ c.i0.val = .idle) :
      Follows φ (.submit p c b) (Function.update φ c.i0.val (.submitted p c b))
  | complete {head : BitVec 16} {p : P} {c : Chain} {b : β}
      (is : φ head.toNat = .submitted p c b) :
      Follows φ (.complete head) (Function.update φ head.toNat (.completed p c b))
  | report {id : BitVec 32} {p : P} {c : Chain} {b : β} (is : φ id.toNat = .completed p c b) :
      Follows φ (.report id b) (Function.update φ id.toNat (.reported p c b))
  | free {p : P} {c : Chain} {b : β} (is : φ c.i0.val = .reported p c b) :
      Follows φ (.free p c) (Function.update φ c.i0.val .idle)
  | other : Follows φ .other φ

/-- The events of a run keep to the protocol, and the heads are left in these phases. -/
inductive Obeys : List (Event P β) → (Nat → Phase P β) → Prop
  | nil : Obeys [] fun _ => .idle
  | snoc {events : List (Event P β)} {φ ψ : Nat → Phase P β} {e : Event P β}
      (before : Obeys events φ) (last : Follows φ e ψ) : Obeys (events ++ [e]) ψ

open Classical in
/-- The phase of the request of process `p`. -/
noncomputable def System.phase (s : System P β) (p : P) (b : β) (c : Chain) : Phase P β :=
  if s.owned b = true then
    if c.i0.val ∈ s.used.map BitVec.toNat then .completed p c b else .submitted p c b
  else .reported p c b

/-- The phases are those of the requests under way. -/
structure Matches (s : System P β) (φ : Nat → Phase P β) : Prop where
  request : ∀ p b c, (s.pc p).request = some (b, c) → φ c.i0.val = s.phase p b c
  idle : ∀ n, (∀ p b c, (s.pc p).request = some (b, c) → c.i0.val ≠ n) → φ n = .idle

/-- Two requests with one head are the same. -/
theorem Parted.heads {s : System P β} (pt : Parted s) {p q : P} {b b' : β} {c c' : Chain}
    (first : (s.pc p).request = some (b, c)) (second : (s.pc q).request = some (b', c'))
    (same : c.i0.val = c'.i0.val) : p = q ∧ b = b' ∧ c = c' := by
  have shared : c.i0 = c'.i0 := Fin.ext same
  have one : p = q := pt.apart p q c c' c.i0 (Pc.written_chain (Pc.request_written first)).1
    (Pc.written_chain (Pc.request_written second)).1 (by simp [Chain.toList])
    (by simp [Chain.toList, shared])
  subst one
  rw [first] at second
  cases second
  exact ⟨rfl, rfl, rfl⟩

theorem Matches.same {s t : System P β} {φ : Nat → Phase P β} (ma : Matches s φ)
    (request : ∀ q, (t.pc q).request = (s.pc q).request)
    (owned : ∀ p b c, (s.pc p).request = some (b, c) → t.owned b = s.owned b)
    (used : t.used = s.used) : Matches t φ where
  request p b c is := by
    rw [request p] at is
    rw [ma.request p b c is]
    unfold System.phase
    rw [owned p b c is, used]
  idle n none := ma.idle n fun p b c is => none p b c ((request p).trans is)

/-- One head goes on to another phase. -/
theorem Matches.update {s t : System P β} {φ : Nat → Phase P β} (ma : Matches s φ) (pt : Parted s)
    {p : P} {b : β} {c : Chain} (mine : (s.pc p).request = some (b, c))
    (request : ∀ q, (t.pc q).request = (s.pc q).request)
    (others : ∀ q b' c', (s.pc q).request = some (b', c') → q ≠ p → t.phase q b' c' = s.phase q b' c') :
    Matches t (Function.update φ c.i0.val (t.phase p b c)) where
  request q b' c' is := by
    rw [request q] at is
    by_cases same : q = p
    · rw [same, mine] at is
      cases is
      rw [same, Function.update_self]
    · have apart : c'.i0.val ≠ c.i0.val := fun head => same (pt.heads is mine head).1
      rw [Function.update_of_ne apart, ma.request q b' c' is, others q b' c' is same]
  idle n none := by
    have apart : n ≠ c.i0.val := by
      rintro rfl
      exact none p b c ((request p).trans mine) rfl
    rw [Function.update_of_ne apart]
    exact ma.idle n fun q b' c' is => none q b' c' ((request q).trans is)

/-- All of the invariant. -/
structure Good (s : System P β) : Prop where
  owners : Owners s
  parted : Parted s
  queued : Queued s
  panicked : s.panicked = none

/-- The free descriptors and the chains of the requests under way part the queue. -/
def Partition (s : System P β) : Prop :=
  (∀ i, s.disk.free i = true ↔ ¬ ∃ p c, (s.pc p).chain = some c ∧ i ∈ c.toList) ∧
  (∀ p c, (s.pc p).chain = some c → c.toList.Nodup) ∧
  ∀ p q c c' i, (s.pc p).chain = some c → (s.pc q).chain = some c' → i ∈ c.toList →
    i ∈ c'.toList → p = q

theorem Initial.good {s : System P β} (init : Initial s) : Good s where
  owners := by
    refine ⟨fun p => ?_, fun p q b has => ?_⟩
    · rw [init.pc, init.lock]
      simp [Pc.locks]
    · rw [init.pc] at has
      cases has
  parted := by
    refine ⟨fun p q c c' i has => ?_, fun p c has => ?_, fun i => ?_, fun p b c has => ?_⟩
    · rw [init.pc] at has
      cases has
    · rw [init.pc] at has
      cases has
    · refine ⟨fun _ p c has => ?_, fun _ => init.free i⟩
      rw [init.pc] at has
      cases has
    · rw [init.pc] at has
      cases has
  queued := by
    have used : s.used = [] := by
      rw [System.used, System.next, init.handler, if_neg (show Handler.idle ≠ .cleared by decide), init.seen, init.used,
        Ring.pending_self]
    have queue : s.queue = [] := by
      rw [System.queue, used, System.available, init.fetched, init.avail, Ring.pending_self,
        init.working]
      rfl
    refine ⟨fun p b c has => ?_, fun p b c has => ?_, ?_, fun n => ?_, ?_, ?_⟩
    · rw [init.pc] at has
      cases has
    · rw [init.pc] at has
      cases has
    · rw [queue]
      exact List.nodup_nil
    · rw [queue]
      refine ⟨fun inside => absurd inside List.not_mem_nil, ?_⟩
      rintro ⟨p, b, c, has, -⟩
      rw [init.pc] at has
      cases has
    · rw [used]
      intro id inside
      cases inside
    · rw [init.handler]
      intro id at_
      cases at_
  panicked := init.panicked

theorem Initial.matches {s : System P β} (init : Initial s) : Matches s fun _ => .idle where
  request p b c has := by
    rw [init.pc] at has
    cases has
  idle _ _ := rfl

/-- The device completes a request that was submitted. -/
theorem Matches.complete {s : System P β} {φ : Nat → Phase P β} (ma : Matches s φ) (good : Good s)
    {head : BitVec 16} (works : head ∈ s.working) : ∃ p c b, φ head.toNat = .submitted p c b ∧
      Matches { s.setDisk (s.disk.finish head) with working := s.working.erase head }
        (Function.update φ head.toNat (.completed p c b)) := by
  set t : System P β := { s.setDisk (s.disk.finish head) with working := s.working.erase head }
  have qu := good.queued
  have inside : head.toNat ∈ s.working.map BitVec.toNat := List.mem_map_of_mem works
  obtain ⟨p, b, c, request, own, is⟩ :=
    qu.asked (List.mem_append_left _ (List.mem_append_right _ inside))
  have used : t.used.map BitVec.toNat = s.used.map BitVec.toNat ++ [head.toNat] := by
    rw [used_complete qu works, List.map_append, List.map_singleton, toNat_wide]
  have unused : head.toNat ∉ s.used.map BitVec.toNat := fun also =>
    (List.nodup_append.mp qu.nodup).2.2 _ (List.mem_append_right _ inside) _ also rfl
  refine ⟨p, c, b, ?_, ?_⟩
  · rw [← is, ma.request p b c request, System.phase, if_pos own, if_neg (is ▸ unused)]
  · have now : t.phase p b c = .completed p c b := by
      rw [System.phase, if_pos (show t.owned b = true from own), used, if_pos (by simp [is])]
    have updated := ma.update (t := t) good.parted request (fun _ => rfl) fun q b' c' is' other => ?_
    · rwa [now, is] at updated
    · have apart : c'.i0.val ≠ head.toNat := fun same =>
        other (good.parted.heads is' request (same.trans is.symm)).1
      rw [System.phase, System.phase, used]
      simp [apart]
      rfl

section Moves

variable [DecidableEq P]

/-- A request is submitted at a head that was idle. -/
theorem Matches.submit {s : System P β} {φ : Nat → Phase P β} (ma : Matches s φ) (good : Good s)
    {p : P} {b : β} {c : Chain} (at_ : s.pc p = .publishing b c) :
    φ c.i0.val = .idle ∧
    Matches ((s.setDisk { s.disk with availIdx := s.disk.availIdx + 1 }).goto p (.testing b c))
      (Function.update φ c.i0.val (.submitted p c b)) := by
  set t : System P β :=
    (s.setDisk { s.disk with availIdx := s.disk.availIdx + 1 }).goto p (.testing b c)
  obtain ⟨-, own⟩ := good.queued.ready p b c (by rw [at_]; rfl)
  have chain : (s.pc p).chain = some c := by rw [at_]; rfl
  have none : (s.pc p).request = none := by rw [at_]; rfl
  have out := good.queued.fresh good.parted chain none
  have kept : ∀ q, q ≠ p → t.pc q = s.pc q := fun q other => goto_other _ other _
  have here : t.pc p = .testing b c := goto_self _ p _
  -- no other request has this head
  have apart : ∀ q b' c', (s.pc q).request = some (b', c') → c'.i0.val ≠ c.i0.val := by
    intro q b' c' is head
    have shared : c'.i0 = c.i0 := Fin.ext head
    have one : q = p := good.parted.apart q p c' c c.i0
      (Pc.written_chain (Pc.request_written is)).1 chain (by simp [Chain.toList, shared])
      (by simp [Chain.toList])
    rw [one, none] at is
    cases is
  refine ⟨ma.idle _ apart, fun q b' c' is => ?_, fun n free => ?_⟩
  · by_cases same : q = p
    · rw [same, here] at is
      cases is
      have unused : c.i0.val ∉ s.used.map BitVec.toNat :=
        fun inside => out (List.mem_append_right _ inside)
      rw [same, Function.update_self]
      show _ = s.phase p b c
      rw [System.phase, if_pos own, if_neg unused]
    · rw [kept q same] at is
      rw [Function.update_of_ne (apart q b' c' is), ma.request q b' c' is]
      rfl
  · have other : n ≠ c.i0.val := by
      rintro rfl
      exact free p b c (by rw [here]; rfl) rfl
    rw [Function.update_of_ne other]
    refine ma.idle n fun q b' c' is => ?_
    have apart : q ≠ p := by
      rintro rfl
      rw [none] at is
      cases is
    exact free q b' c' (by rw [kept q apart]; exact is)

/-- A process frees the chain of a request that was reported. -/
theorem Matches.free {s : System P β} {φ : Nat → Phase P β} (ma : Matches s φ) (good : Good s)
    {p : P} {b : β} {c : Chain} (at_ : s.pc p = .freeing b c) (d : Disk β)
    (used : d.usedRing = s.disk.usedRing) (usedIdx : d.usedIdx = s.disk.usedIdx)
    (seen : d.seen = s.disk.seen) : φ c.i0.val = .reported p c b ∧
      Matches ((s.setDisk d).goto p (.releasing b)) (Function.update φ c.i0.val .idle) := by
  set t : System P β := (s.setDisk d).goto p (.releasing b)
  have request : (s.pc p).request = some (b, c) := by rw [at_]; rfl
  have own := good.queued.done p b c (by rw [at_]; rfl)
  have kept : ∀ q, q ≠ p → t.pc q = s.pc q := fun q other => goto_other _ other _
  have here : t.pc p = .releasing b := goto_self _ p _
  have tused : t.used = s.used := by
    show Ring.pending d.usedRing (if s.handler = .cleared then d.seen + 1 else d.seen) d.usedIdx = _
    rw [used, usedIdx, seen]
    rfl
  refine ⟨?_, fun q b' c' is => ?_, fun n free => ?_⟩
  · rw [ma.request p b c request, System.phase, if_neg]
    rw [own]
    exact Bool.false_ne_true
  · have other : q ≠ p := by
      rintro rfl
      rw [here] at is
      cases is
    rw [kept q other] at is
    have apart : c'.i0.val ≠ c.i0.val := fun same => other (good.parted.heads is request same).1
    rw [Function.update_of_ne apart, ma.request q b' c' is, System.phase, System.phase, tused]
    rfl
  · by_cases same : n = c.i0.val
    · rw [same, Function.update_self]
    · rw [Function.update_of_ne same]
      refine ma.idle n fun q b' c' is head => ?_
      have other : q ≠ p := by
        rintro rfl
        rw [request] at is
        cases is
        exact same head.symm
      exact free q b' c' (by rw [kept q other]; exact is) head

end Moves

section Steps

variable [DecidableEq P] [DecidableEq β]

theorem Queued.step {s t : System P β} {e : Event P β} (good : Good s) (step : Step s e t) :
    Queued t := by
  obtain ⟨ow, pt, qu, -⟩ := good
  have keeps : ∀ {γ : Type} {p : P} {pc x : Pc β} (f : Pc β → γ), s.pc p = pc → f x = f pc →
      ∀ q, f ((s.goto p x).pc q) = f (s.pc q) :=
    fun f at_ same => goto_keeps s f (at_ ▸ same)
  cases step with
  | call p b write at_ | acquire p at_ | sleep p at_ | wake p at_ | release p at_ =>
    exact qu.same (keeps Pc.ready at_ rfl) (keeps Pc.done at_ rfl) (keeps Pc.request at_ rfl)
      rfl rfl rfl rfl rfl rfl rfl qu.found
  | alloc p at_ ok =>
    rcases alloc3Desc_spec s.disk with ⟨c, -, -, takes⟩ | ⟨d, fails, -⟩
    · rw [takes] at ok
      obtain ⟨-, rfl⟩ := Prod.mk.inj (Except.ok.inj ok)
      exact qu.same (keeps Pc.ready at_ rfl) (keeps Pc.done at_ rfl) (keeps Pc.request at_ rfl)
        rfl rfl rfl rfl rfl rfl rfl qu.found
    · rw [fails] at ok
      cases ok
  | wait p at_ ok =>
    rcases alloc3Desc_spec s.disk with ⟨c, -, -, takes⟩ | ⟨d, fails, same⟩
    · rw [takes] at ok
      cases ok
    · rw [fails] at ok
      obtain ⟨-, rfl⟩ := Prod.mk.inj (Except.ok.inj ok)
      rw [same.rest]
      exact qu.same (keeps Pc.ready at_ rfl) (keeps Pc.done at_ rfl) (keeps Pc.request at_ rfl)
        rfl rfl rfl rfl rfl rfl rfl qu.found
  | fill p at_ => exact qu.fill ow pt at_ _
  | publish p at_ => exact qu.publish ow pt at_
  | leave p at_ own => exact qu.leave at_ own
  | free p at_ ok =>
    rw [pt.frees at_] at ok
    obtain rfl := Except.ok.inj ok
    exact qu.free at_ _ rfl rfl rfl rfl rfl rfl
  | allocPanics | freePanics | reportPanics =>
    exact qu.same (fun _ => rfl) (fun _ => rfl) (fun _ => rfl) rfl rfl rfl rfl rfl rfl rfl qu.found
  | fetch new => exact qu.fetch new
  | complete head works => exact qu.complete pt works
  | interrupt at_ | return_ at_ =>
    refine qu.same (fun _ => rfl) (fun _ => rfl) (fun _ => rfl) rfl rfl rfl rfl rfl ?_ rfl
      fun id is => by cases is
    simp [System.used, System.next, at_]
  | read at_ new =>
    have next : s.next = s.disk.seen := by simp [System.next, at_]
    refine qu.same (fun _ => rfl) (fun _ => rfl) (fun _ => rfl) rfl rfl rfl rfl rfl ?_ rfl ?_
    · simp [System.used, System.next, at_]
    · intro id is
      cases is
      rw [System.used, next, Ring.pending_pop _ new]
      rfl
  | report at_ index good buffer =>
    obtain ⟨p, b, c, request, own, is, -, also⟩ := qu.reports pt at_
    have same := Fin.ext (index.symm.trans is)
    rw [same, also] at buffer
    obtain rfl := Option.some.inj buffer
    exact qu.report ow pt at_ request is
  | advance at_ =>
    refine qu.same (fun _ => rfl) (fun _ => rfl) (fun _ => rfl) rfl rfl rfl rfl rfl ?_ rfl
      fun id is => by cases is
    simp [System.used, System.next, System.setDisk, at_]

theorem Good.step {s t : System P β} {e : Event P β} (good : Good s) (step : Step s e t) : Good t := by
  refine ⟨good.owners.step step, good.parted.step step, Queued.step good step, ?_⟩
  cases step with
  | allocPanics p at_ fails =>
    rcases alloc3Desc_spec s.disk with ⟨c, -, -, takes⟩ | ⟨d, none, -⟩
    · rw [takes] at fails
      cases fails
    · rw [none] at fails
      cases fails
  | freePanics p at_ fails =>
    rw [good.parted.frees at_] at fails
    cases fails
  | reportPanics at_ bad =>
    obtain ⟨p, b, c, -, -, is, status, buffer⟩ := good.queued.reports good.parted at_
    rcases bad c.i0 is with wrong | none
    · exact absurd status wrong
    · rw [buffer] at none
      cases none
  | _ => exact good.panicked

omit [DecidableEq P] in
/-- The handler reports a request that was completed, for the buffer it was issued for. -/
theorem Matches.report {s : System P β} {φ : Nat → Phase P β} (ma : Matches s φ) (good : Good s)
    {id : BitVec 32} {i : Fin NUM} {b : β} (at_ : s.handler = .found id) (index : id.toNat = i.val)
    (buffer : s.disk.infoB i = some b) : ∃ p c, φ id.toNat = .completed p c b ∧
      Matches { s with owned := Function.update s.owned b false, handler := .cleared }
        (Function.update φ id.toNat (.reported p c b)) := by
  set t : System P β := { s with owned := Function.update s.owned b false, handler := .cleared }
  have qu := good.queued
  obtain ⟨p, b', c, request, own, is, -, also⟩ := qu.reports good.parted at_
  rw [Fin.ext (index.symm.trans is), also] at buffer
  obtain rfl := Option.some.inj buffer
  have used : s.used = id :: t.used := used_report qu at_ _
  have inside : c.i0.val ∈ s.used.map BitVec.toNat := by
    rw [used, List.map_cons, is]
    exact List.mem_cons_self ..
  refine ⟨p, c, ?_, ?_⟩
  · rw [is, ma.request p b' c request, System.phase, if_pos own, if_pos inside]
  · have now : t.phase p b' c = .reported p c b' := by
      rw [System.phase, if_neg]
      rw [show t.owned b' = false from Function.update_self ..]
      exact Bool.false_ne_true
    have updated := ma.update (t := t) good.parted request (fun _ => rfl) fun q b'' c' is' other => ?_
    · rwa [now, ← is] at updated
    · have apart : c'.i0.val ≠ id.toNat := fun same =>
        other (good.parted.heads is' request (same.trans is)).1
      have owned : t.owned b'' = s.owned b'' := by
        refine Function.update_of_ne ?_ _ _
        rintro rfl
        exact other (good.owners.buffers q p b'' (Pc.written_chain (Pc.request_written is')).2
          (Pc.written_chain (Pc.request_written request)).2)
      rw [System.phase, System.phase, owned, used]
      simp [apart]

theorem Matches.step {s t : System P β} {e : Event P β} {φ : Nat → Phase P β} (ma : Matches s φ)
    (good : Good s) (step : Step s e t) : ∃ ψ, Follows φ e ψ ∧ Matches t ψ := by
  have keeps : ∀ {p : P} {pc x : Pc β}, s.pc p = pc → x.request = pc.request →
      ∀ q, ((s.goto p x).pc q).request = (s.pc q).request :=
    fun at_ same => goto_keeps s Pc.request (at_ ▸ same)
  have owned : ∀ p b c, (s.pc p).request = some (b, c) → s.owned b = s.owned b :=
    fun _ _ _ _ => rfl
  cases step with
  | call p b write at_ | acquire p at_ | sleep p at_ | wake p at_ | release p at_ | leave p at_ =>
    exact ⟨φ, .other, ma.same (keeps at_ rfl) owned rfl⟩
  | alloc p at_ ok =>
    rcases alloc3Desc_spec s.disk with ⟨c, -, -, takes⟩ | ⟨d, fails, -⟩
    · rw [takes] at ok
      obtain ⟨-, rfl⟩ := Prod.mk.inj (Except.ok.inj ok)
      exact ⟨φ, .other, ma.same (keeps at_ rfl) owned rfl⟩
    · rw [fails] at ok
      cases ok
  | wait p at_ ok =>
    rcases alloc3Desc_spec s.disk with ⟨c, -, -, takes⟩ | ⟨d, fails, same⟩
    · rw [takes] at ok
      cases ok
    · rw [fails] at ok
      obtain ⟨-, rfl⟩ := Prod.mk.inj (Except.ok.inj ok)
      rw [same.rest]
      exact ⟨φ, .other, ma.same (keeps at_ rfl) owned rfl⟩
  | fill p at_ =>
    refine ⟨φ, .other, ma.same (keeps at_ rfl) (fun q b c is => ?_) rfl⟩
    refine Function.update_of_ne ?_ _ _
    rintro rfl
    have one : q = p := good.owners.buffers q p b (Pc.written_chain (Pc.request_written is)).2
      (by rw [at_]; rfl)
    rw [one, at_] at is
    cases is
  | publish p at_ =>
    obtain ⟨idle, now⟩ := ma.submit good at_
    exact ⟨_, .submit idle, now⟩
  | @free p b c d at_ ok =>
    rw [good.parted.frees at_] at ok
    have same := Except.ok.inj ok
    obtain ⟨reported, now⟩ := ma.free good at_ d (by rw [← same]; rfl) (by rw [← same]; rfl)
      (by rw [← same]; rfl)
    exact ⟨_, .free reported, now⟩
  | complete head works =>
    obtain ⟨p, c, b, submitted, now⟩ := ma.complete good works
    exact ⟨_, .complete submitted, now⟩
  | report at_ index _ buffer =>
    obtain ⟨p, c, completed, now⟩ := ma.report good at_ index buffer
    exact ⟨_, .report completed, now⟩
  | interrupt at_ | return_ at_ | read at_ | advance at_ =>
    refine ⟨φ, .other, ma.same (fun _ => rfl) owned ?_⟩
    simp [System.used, System.next, System.setDisk, at_]
  | allocPanics | freePanics | reportPanics | fetch =>
    exact ⟨φ, .other, ma.same (fun _ => rfl) owned rfl⟩

/-- In every state that the driver and the device reach, the descriptors are parted, nothing has
panicked, and the events so far keep to the protocol. -/
theorem requests_served {s t : System P β} (init : Initial s) {events : List (Event P β)}
    (run : Run s events t) :
    Partition t ∧ t.panicked = none ∧ ∃ φ, Obeys events φ ∧ Matches t φ := by
  have all : Good t ∧ ∃ φ, Obeys events φ ∧ Matches t φ := by
    induction run with
    | nil => exact ⟨init.good, _, .nil, init.matches⟩
    | snoc _ last ih =>
      obtain ⟨good, φ, obeys, ma⟩ := ih
      obtain ⟨ψ, follows, now⟩ := ma.step good last
      exact ⟨good.step last, ψ, obeys.snoc follows, now⟩
  obtain ⟨good, rest⟩ := all
  refine ⟨⟨fun i => ?_, good.parted.nodup, good.parted.apart⟩, good.panicked, rest⟩
  rw [good.parted.free i]
  simp only [not_exists, not_and]

end Steps

/-- One process and one buffer, after `virtio_disk_init`. -/
def sampleSystem : System Unit Unit where
  disk :=
    { desc := fun _ => ⟨.null, 0, 0, 0⟩
      availIdx := 0
      availRing := fun _ => 0
      usedIdx := 0
      usedRing := fun _ => 0
      free := fun _ => true
      seen := 0
      infoB := fun _ => none
      infoStatus := fun _ => 0
      ops := fun _ => ⟨0, 0, 0⟩ }
  owned _ := false
  blockno _ := 7
  pc _ := .outside
  lock := none
  fetched := 0
  working := []
  handler := .idle
  panicked := none

theorem sampleSystem_initial : Initial sampleSystem :=
  ⟨fun _ => rfl, rfl, rfl, rfl, rfl, rfl, fun _ => rfl, rfl, rfl, rfl⟩

/-- A request from the call to the report of its completion. -/
theorem sampleSystem_runs : ∃ t, Run sampleSystem
    [.other, .other, .other, .other, .submit () ⟨0, 1, 2⟩ (), .other, .complete 0, .other, .other,
      .report 0 ()] t := by
  refine ⟨_, .snoc (.snoc (.snoc (.snoc (.snoc (.snoc (.snoc (.snoc (.snoc (.snoc .nil
    (.call () () true rfl fun _ is => by cases is)) (.acquire () rfl rfl)) (.alloc () rfl rfl rfl))
    (.fill () rfl)) (.publish () rfl)) (.fetch (by decide))) (.complete 0 (by decide))) (.interrupt rfl))
    (.read rfl (by decide))) (.report (i := 0) rfl rfl rfl rfl)⟩

theorem requests_served_sample : ∃ t, Partition t ∧ t.panicked = none ∧
    ∃ φ : Nat → Phase Unit Unit, Obeys [.other, .other, .other, .other, .submit () ⟨0, 1, 2⟩ (),
      .other, .complete 0, .other, .other, .report 0 ()] φ ∧ Matches t φ := by
  obtain ⟨t, run⟩ := sampleSystem_runs
  exact ⟨t, requests_served sampleSystem_initial run⟩

end Xv6Lab.Virtio

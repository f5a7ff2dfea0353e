import Mathlib.Logic.Function.Basic
import Xv6Lab.Lib.Simulation

/-! A store of blocks that processes read and write through buffers.  A call takes effect in one step
somewhere between its start and its return.  Calls that overlap have different buffers and different
blocks, and a buffer is only touched from outside while no call has it. -/

namespace BlockStore

open Simulation

variable {P β K V : Type*}

/-- A process is in no call; it is in one that has not taken effect; in one that has. -/
inductive Call (β : Type*)
  | idle
  | asked (b : β) (write : Bool)
  | done (b : β)

def Call.buffer : Call β → Option β
  | .idle => none
  | .asked b _ | .done b => some b

/-- What is seen from outside: a call for the block that its buffer stands for and its return, a store
to a buffer and a load from it, and a buffer that is given to another block. -/
inductive Act (P β K V : Type*)
  | call (p : P) (b : β) (write : Bool) (k : K)
  | back (p : P) (b : β)
  | store (b : β) (v : V)
  | load (b : β) (v : V)
  | assign (b : β) (k : K)

structure Store (P β K V : Type*) where
  block : K → V
  data : β → V
  place : β → K
  call : P → Call β

/-- No call has the buffer. -/
def Store.Unused (s : Store P β K V) (b : β) : Prop := ∀ p, (s.call p).buffer ≠ some b

section Steps

variable [DecidableEq P] [DecidableEq β] [DecidableEq K]

inductive Step (s : Store P β K V) : Option (Act P β K V) → Store P β K V → Prop
  | call (p : P) (b : β) (write : Bool) (idle : s.call p = .idle)
      (apart : ∀ q b', (s.call q).buffer = some b' → b' ≠ b ∧ s.place b' ≠ s.place b) :
      Step s (some (.call p b write (s.place b)))
        { s with call := Function.update s.call p (.asked b write) }
  | write (p : P) {b : β} (asked : s.call p = .asked b true) :
      Step s none { s with
        block := Function.update s.block (s.place b) (s.data b)
        call := Function.update s.call p (.done b) }
  | read (p : P) {b : β} (asked : s.call p = .asked b false) :
      Step s none { s with
        data := Function.update s.data b (s.block (s.place b))
        call := Function.update s.call p (.done b) }
  | back (p : P) {b : β} (done : s.call p = .done b) :
      Step s (some (.back p b)) { s with call := Function.update s.call p .idle }
  | store (b : β) (v : V) (unused : s.Unused b) :
      Step s (some (.store b v)) { s with data := Function.update s.data b v }
  | load (b : β) (unused : s.Unused b) : Step s (some (.load b (s.data b))) s
  | assign (b : β) (k : K) (unused : s.Unused b) :
      Step s (some (.assign b k)) { s with place := Function.update s.place b k }

/-- Calls that overlap have different buffers and different blocks. -/
def Apart (s : Store P β K V) : Prop :=
  ∀ p q b b', (s.call p).buffer = some b → (s.call q).buffer = some b' → p ≠ q →
    b' ≠ b ∧ s.place b' ≠ s.place b

/-- The block holds the value, and no call is about to write it. -/
def Settled (k : K) (v : V) (s : Store P β K V) : Prop :=
  s.block k = v ∧ ∀ p b, s.call p = .asked b true → s.place b ≠ k

/-- A call is about to write the value to the block. -/
def Writing (p : P) (b : β) (k : K) (v : V) (s : Store P β K V) : Prop :=
  s.call p = .asked b true ∧ s.place b = k ∧ s.data b = v

/-- A call is about to read the block, or has read the value. -/
def Reading (q : P) (b : β) (k : K) (v : V) (s : Store P β K V) : Prop :=
  s.call q = .asked b false ∧ s.place b = k ∨ s.call q = .done b ∧ s.data b = v

/-- No call has the buffer, and it holds the value. -/
def Holds (b : β) (v : V) (s : Store P β K V) : Prop := s.Unused b ∧ s.data b = v

def Act.Writes (k : K) : Act P β K V → Prop
  | .call _ _ true k' => k' = k
  | _ => False

/-- The buffer is handed to a call or stored to. -/
def Act.Uses (b : β) : Act P β K V → Prop
  | .call _ b' _ _ | .store b' _ => b' = b
  | _ => False

variable {s t : Store P β K V} {a : Option (Act P β K V)} {p q : P} {b b' : β} {k : K} {v w : V}

/-- A process that was in no call, or is in the same as before. -/
theorem Apart.call (apart : Apart s) {call : Call β} (same : call.buffer = (s.call p).buffer)
    (block : K → V) (data : β → V) :
    Apart { s with block, data, call := Function.update s.call p call } := by
  have kept : ∀ q, (Function.update s.call p call q).buffer = (s.call q).buffer := by
    intro q
    by_cases here : q = p
    · rw [here, Function.update_self, same]
    · rw [Function.update_of_ne here]
  intro q r b b' first second other
  exact apart q r b b' ((kept q).symm.trans first) ((kept r).symm.trans second) other

theorem Apart.step (apart : Apart s) (step : Step s a t) : Apart t := by
  cases step with
  | call p b write idle fresh =>
    intro q r b₁ b₂ first second other
    by_cases left : q = p
    · have right : r ≠ p := fun is => other (left.trans is.symm)
      simp only [left, Function.update_self, Function.update_of_ne right] at first second
      obtain rfl := Option.some.inj first
      exact fresh r b₂ second
    · by_cases right : r = p
      · simp only [right, Function.update_self, Function.update_of_ne left] at first second
        obtain rfl := Option.some.inj second
        exact ⟨(fresh q b₁ first).1.symm, (fresh q b₁ first).2.symm⟩
      · simp only [Function.update_of_ne left, Function.update_of_ne right] at first second
        exact apart q r b₁ b₂ first second other
  | write p asked => exact apart.call (by rw [asked]; rfl) _ _
  | read p asked => exact apart.call (by rw [asked]; rfl) _ _
  | back p done =>
    intro q r b₁ b₂ first second other
    have mine : ∀ {q : P} {b : β}, (Function.update s.call p .idle q).buffer = some b →
        (s.call q).buffer = some b := by
      intro q b has
      by_cases here : q = p
      · rw [here, Function.update_self] at has
        cases has
      · rwa [Function.update_of_ne here] at has
    exact apart q r b₁ b₂ (mine first) (mine second) other
  | store | load => exact apart
  | assign b k unused =>
    intro q r b₁ b₂ first second other
    have left : b₁ ≠ b := fun is => unused q (is ▸ first)
    have right : b₂ ≠ b := fun is => unused r (is ▸ second)
    simp only [Function.update_of_ne left, Function.update_of_ne right]
    exact apart q r b₁ b₂ first second other

/-- What is settled stays so while no call is made that writes the block. -/
theorem Settled.step (settled : Settled k v s) (step : Step s a t) (quiet : ∀ x ∈ a, ¬ x.Writes k) :
    Settled k v t := by
  obtain ⟨holds, others⟩ := settled
  -- what a call of another kind does to its process
  have kept : ∀ {call : Call β} {p : P} (_ : ∀ b, call = .asked b true → s.place b ≠ k) (q : P)
      (b : β), Function.update s.call p call q = .asked b true → s.place b ≠ k := by
    intro call p fine q b asks
    by_cases here : q = p
    · rw [here, Function.update_self] at asks
      exact fine b asks
    · rw [Function.update_of_ne here] at asks
      exact others q b asks
  cases step with
  | call p b write idle fresh =>
    refine ⟨holds, kept fun b' is => ?_⟩
    cases is
    exact fun same => quiet _ rfl same
  | write p asked =>
    refine ⟨?_, kept fun b' is => by cases is⟩
    show Function.update s.block _ _ k = v
    rw [Function.update_of_ne (others p _ asked).symm, holds]
  | read p asked => exact ⟨holds, kept fun b' is => by cases is⟩
  | back p done => exact ⟨holds, kept fun b' is => by cases is⟩
  | store | load => exact ⟨holds, others⟩
  | assign b k' unused =>
    refine ⟨holds, fun p b' asks => ?_⟩
    have other : b' ≠ b := by
      rintro rfl
      exact unused p (by rw [asks]; rfl)
    show Function.update s.place b k' b' ≠ k
    rw [Function.update_of_ne other]
    exact others p b' asks

/-- A write under way keeps its value until it takes effect, and then the value is settled. -/
theorem Writing.step (apart : Apart s) (writing : Writing p b k v s) (step : Step s a t) :
    Writing p b k v t ∨ Settled k v t := by
  obtain ⟨asked, place, data⟩ := writing
  have mine : (s.call p).buffer = some b := by rw [asked]; rfl
  -- no step of another process touches the buffer or the block
  have away : ∀ {q : P} {b' : β}, q ≠ p → (s.call q).buffer = some b' → b' ≠ b ∧ s.place b' ≠ k := by
    intro q b' other has
    obtain ⟨buffer, block⟩ := apart p q b b' mine has other.symm
    exact ⟨buffer, place ▸ block⟩
  cases step with
  | call q b' write idle fresh =>
    have other : q ≠ p := by
      rintro rfl
      rw [idle] at asked
      cases asked
    exact .inl ⟨(Function.update_of_ne other.symm ..).trans asked, place, data⟩
  | @write q b' asks =>
    by_cases same : q = p
    · subst same
      rw [asked] at asks
      cases asks
      refine .inr ⟨?_, fun r b' asks => ?_⟩
      · show Function.update s.block (s.place b) (s.data b) k = v
        rw [place, Function.update_self, data]
      · change Function.update s.call q (.done b) r = .asked b' true at asks
        by_cases here : r = q
        · rw [here, Function.update_self] at asks
          cases asks
        · rw [Function.update_of_ne here] at asks
          exact (away here (by rw [asks]; rfl)).2
    · exact .inl ⟨(Function.update_of_ne (Ne.symm same) ..).trans asked, place, data⟩
  | @read q b' asks =>
    have other : q ≠ p := by
      rintro rfl
      rw [asked] at asks
      cases asks
    have elsewhere := (away other (by rw [asks]; rfl)).1
    exact .inl ⟨(Function.update_of_ne other.symm ..).trans asked, place,
      (Function.update_of_ne elsewhere.symm ..).trans data⟩
  | back q done =>
    have other : q ≠ p := by
      rintro rfl
      rw [asked] at done
      cases done
    exact .inl ⟨(Function.update_of_ne other.symm ..).trans asked, place, data⟩
  | store b' w unused =>
    have other : b ≠ b' := fun is => unused p (is ▸ mine)
    exact .inl ⟨asked, place, (Function.update_of_ne other ..).trans data⟩
  | load => exact .inl ⟨asked, place, data⟩
  | assign b' k' unused =>
    have other : b ≠ b' := fun is => unused p (is ▸ mine)
    exact .inl ⟨asked, (Function.update_of_ne other ..).trans place, data⟩

/-- A read of a settled block brings the value, and keeps it until it returns. -/
theorem Reading.step (apart : Apart s) (settled : Settled k v s) (reading : Reading q b k v s)
    (step : Step s a t) (stays : some (Act.back q b) ≠ a) : Reading q b k v t := by
  have mine : (s.call q).buffer = some b := by
    rcases reading with ⟨is, -⟩ | ⟨is, -⟩ <;> rw [is] <;> rfl
  -- what another process does leaves the call and its buffer alone
  have others : ∀ {p : P} {call : Call β} {data : β → V} (_ : p ≠ q) (_ : data b = s.data b)
      (block : K → V),
      Reading q b k v { s with block, data, call := Function.update s.call p call } := by
    intro p call data other same block
    have here : Function.update s.call p call q = s.call q := Function.update_of_ne other.symm ..
    rcases reading with ⟨is, place⟩ | ⟨is, holds⟩
    · exact .inl ⟨here.trans is, place⟩
    · exact .inr ⟨here.trans is, same.trans holds⟩
  cases step with
  | call p b' write idle =>
    refine others (fun is => ?_) rfl _
    rw [← is, idle] at mine
    cases mine
  | write p asked =>
    refine others (fun is => ?_) rfl _
    rcases reading with ⟨asks, -⟩ | ⟨did, -⟩
    · rw [← is, asked] at asks
      cases asks
    · rw [← is, asked] at did
      cases did
  | @read p b' asked =>
    by_cases same : p = q
    · subst same
      rcases reading with ⟨asks, place⟩ | ⟨did, -⟩
      · obtain rfl : b = b' := by
          rw [asked] at asks
          cases asks
          rfl
        refine .inr ⟨Function.update_self .., ?_⟩
        show Function.update s.data b (s.block (s.place b)) b = v
        rw [Function.update_self, place, settled.1]
      · rw [asked] at did
        cases did
    · have other := (apart q p b b' mine (by rw [asked]; rfl) (Ne.symm same)).1
      exact others same (Function.update_of_ne other.symm ..) _
  | @back p b' did =>
    refine others (fun is => stays ?_) rfl _
    rw [← is, did] at mine
    rw [← is, ← Option.some.inj mine]
  | store b' w unused =>
    have other : b ≠ b' := fun is => unused q (is ▸ mine)
    rcases reading with ⟨is, place⟩ | ⟨is, holds⟩
    · exact .inl ⟨is, place⟩
    · exact .inr ⟨is, (Function.update_of_ne other ..).trans holds⟩
  | load => exact reading
  | assign b' k' unused =>
    have other : b ≠ b' := fun is => unused q (is ▸ mine)
    rcases reading with ⟨is, place⟩ | ⟨is, holds⟩
    · exact .inl ⟨is, (Function.update_of_ne other ..).trans place⟩
    · exact .inr ⟨is, holds⟩

/-- A buffer that no call has keeps its value while it is not used. -/
theorem Holds.step (holds : Holds b v s) (step : Step s a t) (unused : ∀ x ∈ a, ¬ x.Uses b) :
    Holds b v t := by
  obtain ⟨free, data⟩ := holds
  have kept : ∀ {p : P} {call : Call β} (_ : call.buffer ≠ some b) (q : P),
      (Function.update s.call p call q).buffer ≠ some b := by
    intro p call fine q
    by_cases here : q = p
    · rwa [here, Function.update_self]
    · rw [Function.update_of_ne here]
      exact free q
  cases step with
  | call p b' write idle =>
    exact ⟨kept fun is => unused _ rfl (Option.some.inj is), data⟩
  | @write p b' asked =>
    exact ⟨kept fun is => free p (by rw [asked]; exact is), data⟩
  | @read p b' asked =>
    have other : b ≠ b' := by
      rintro rfl
      exact free p (by rw [asked]; rfl)
    exact ⟨kept fun is => free p (by rw [asked]; exact is), (Function.update_of_ne other ..).trans data⟩
  | back p done => exact ⟨kept (by simp [Call.buffer]), data⟩
  | store b' w =>
    have other : b ≠ b' := fun is => unused _ rfl is.symm
    exact ⟨free, (Function.update_of_ne other ..).trans data⟩
  | load => exact ⟨free, data⟩
  | assign b' k' => exact ⟨free, data⟩

section Runs

variable {trace : List (Act P β K V)}

theorem Apart.run (apart : Apart s) (run : Run Step s trace t) : Apart t :=
  run.invariant (A := fun _ => True) (fun h _ step => h.step step) apart fun _ _ => trivial

theorem Holds.run (holds : Holds b v s) (run : Run Step s trace t) (unused : ∀ x ∈ trace, ¬ x.Uses b) :
    Holds b v t :=
  run.invariant (fun h unused step => h.step step unused) holds unused

theorem written_run (apart : Apart s) (written : Writing p b k v s ∨ Settled k v s)
    (run : Run Step s trace t) (quiet : ∀ x ∈ trace, ¬ x.Writes k) :
    Apart t ∧ (Writing p b k v t ∨ Settled k v t) := by
  refine run.invariant (I := fun s => Apart s ∧ (Writing p b k v s ∨ Settled k v s))
    (fun h quiet step => ?_) ⟨apart, written⟩ quiet
  obtain ⟨apart, writing | settled⟩ := h
  · exact ⟨apart.step step, writing.step apart step⟩
  · exact ⟨apart.step step, .inr (settled.step step quiet)⟩

theorem Reading.run (apart : Apart s) (settled : Settled k v s) (reading : Reading q b k v s)
    (run : Run Step s trace t) (quiet : ∀ x ∈ trace, ¬ x.Writes k) (stays : Act.back q b ∉ trace) :
    Apart t ∧ Settled k v t ∧ Reading q b k v t := by
  refine run.invariant (I := fun s => Apart s ∧ Settled k v s ∧ Reading q b k v s)
    (A := fun x => ¬ x.Writes k ∧ x ≠ .back q b) (fun h ok step => ?_) ⟨apart, settled, reading⟩
    fun x inside => ⟨quiet x inside, fun is => stays (is ▸ inside)⟩
  obtain ⟨apart, settled, reading⟩ := h
  refine ⟨apart.step step, settled.step step fun x is => (ok x is).1,
    reading.step apart settled step fun is => ?_⟩
  exact (ok (.back q b) (is ▸ rfl)).2 rfl

end Runs

/-- A call that writes has the value of its buffer. -/
theorem Holds.call (holds : Holds b v s) (step : Step s (some (.call p b true k)) t) :
    Writing p b k v t := by
  cases step with
  | call p b write idle fresh => exact ⟨Function.update_self .., rfl, holds.2⟩

/-- A call that reads the block finds it settled. -/
theorem Settled.call (written : Writing p b k v s ∨ Settled k v s)
    (step : Step s (some (.call q b' false k)) t) : Settled k v t ∧ Reading q b' k v t := by
  cases step with
  | call q b' write idle fresh =>
    rcases written with ⟨asked, place, -⟩ | settled
    · exact absurd place (fresh p b (by rw [asked]; rfl)).2
    · refine ⟨settled.step (.call q b' false idle fresh) fun x is => ?_, .inl ⟨Function.update_self .., rfl⟩⟩
      obtain rfl := Option.some.inj is
      exact fun false => false

/-- A call that returns has read the value. -/
theorem Reading.back (apart : Apart s) (reading : Reading q b k v s)
    (step : Step s (some (.back q b)) t) : Holds b v t := by
  cases step with
  | back q done =>
    have data : s.data b = v := by
      rcases reading with ⟨asks, -⟩ | ⟨-, data⟩
      · rw [done] at asks
        cases asks
      · exact data
    refine ⟨fun r => ?_, data⟩
    show (Function.update s.call q .idle r).buffer ≠ some b
    by_cases same : r = q
    · rw [same, Function.update_self]
      exact (Option.some_ne_none b).symm
    · rw [Function.update_of_ne same]
      exact fun is => (apart q r b b (by rw [done]; rfl) is (Ne.symm same)).1 rfl

/-- What was written to a block is what a later read of it brings, if no other write of the block is
called in between. -/
theorem reads_back {before ready meanwhile during after : List (Act P β K V)} (apart : Apart s)
    (prepared : ∀ x ∈ ready, ¬ x.Uses b) (quiet : ∀ x ∈ meanwhile ++ during, ¬ x.Writes k)
    (stays : Act.back q b' ∉ during) (kept : ∀ x ∈ after, ¬ x.Uses b')
    (run : Run Step s (before ++ ([.store b v] ++ (ready ++ ([.call p b true k] ++ (meanwhile ++
      ([.call q b' false k] ++ (during ++ ([.back q b'] ++ (after ++ [.load b' w]))))))))) t) :
    w = v := by
  have none : ∀ {I : Act P β K V → Prop}, ∀ x ∈ ([] : List (Act P β K V)), I x :=
    fun x is => absurd is List.not_mem_nil
  obtain ⟨s₁, run₁, run⟩ := run.split
  obtain ⟨s₂, run₂, run⟩ := run.split
  obtain ⟨s₃, run₃, run⟩ := run.split
  obtain ⟨s₄, run₄, run⟩ := run.split
  obtain ⟨s₅, run₅, run⟩ := run.split
  obtain ⟨s₆, run₆, run⟩ := run.split
  obtain ⟨s₇, run₇, run⟩ := run.split
  obtain ⟨s₈, run₈, run⟩ := run.split
  obtain ⟨s₉, run₉, run⟩ := run.split
  have apart₃ : Apart s₃ := ((apart.run run₁).run run₂).run run₃
  -- the value is in the buffer until the call
  have stored : Holds b v s₃ := by
    obtain ⟨t, t', -, step, rest⟩ := run₂.single
    have first : Holds b v t' := by
      cases step with
      | store b v unused => exact ⟨unused, Function.update_self ..⟩
    exact (first.run rest none).run run₃ prepared
  -- the write is under way, or has taken effect
  have written : Apart s₅ ∧ (Writing p b k v s₅ ∨ Settled k v s₅) := by
    obtain ⟨t, t', first, step, rest⟩ := run₄.single
    obtain ⟨apart₄, writing⟩ := written_run ((apart₃.run first).step step)
      (.inl ((stored.run first none).call step)) rest none
    exact written_run apart₄ writing run₅ fun x is => quiet x (List.mem_append_left _ is)
  -- the read finds it settled
  have reading : Apart s₇ ∧ Settled k v s₇ ∧ Reading q b' k v s₇ := by
    obtain ⟨t, t', first, step, rest⟩ := run₆.single
    obtain ⟨apart₅, written⟩ := written_run written.1 written.2 first none
    obtain ⟨settled, reading⟩ := Settled.call written step
    obtain ⟨apart₆, settled, reading⟩ := reading.run (apart₅.step step) settled rest none
      List.not_mem_nil
    exact reading.run apart₆ settled run₇ (fun x is => quiet x (List.mem_append_right _ is)) stays
  have delivered : Holds b' v s₉ := by
    obtain ⟨t, t', first, step, rest⟩ := run₈.single
    obtain ⟨apart₇, -, reading⟩ := reading.2.2.run reading.1 reading.2.1 first none List.not_mem_nil
    exact ((reading.back apart₇ step).run rest none).run run₉ kept
  obtain ⟨t, t', first, step, -⟩ := run.single
  have last := delivered.run first none
  cases step with
  | load b unused => exact last.2

end Steps

end BlockStore

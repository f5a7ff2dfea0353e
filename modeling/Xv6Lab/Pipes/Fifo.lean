import Xv6Lab.Pipes.Turns

/-! A pipe under the calls of any number of processes.  A step is one turn of a loop, or what goes on
around the calls: processes are killed, leave `sleep`, use their own memory, and close ends of the
pipe.  As long as both ends are open and no copy fails, the bytes come out as they went in. -/

namespace Xv6Lab.Pipes

open Fs (UserMem UserAddr)

/-- A call under way: `pipewrite` with `i` bytes written, and `piperead` in front of its copying loop
or in it. -/
inductive Call
  | write (addr : UserAddr) (n : Int) (i : Nat)
  | wait (addr : UserAddr) (n : Int)
  | read (addr : UserAddr) (n : Int) (i : Nat)

/-- A call that starts. -/
inductive Call.Fresh : Call → Prop
  | write (addr : UserAddr) (n : Int) : Fresh (.write addr n 0)
  | read (addr : UserAddr) (n : Int) : Fresh (.wait addr n)

/-- The bytes that a call has moved. -/
def Call.moved : Call → Nat
  | write _ _ i => i
  | wait _ _ => 0
  | read _ _ i => i

/-- The call at its next turn. -/
def Call.next : Call → Call
  | write addr n i => write addr n (i + 1)
  | wait addr n => read addr n 0
  | read addr n i => read addr n (i + 1)

inductive Status
  | outside
  | running (c : Call)
  | asleep (c : Call)

/-- The pipe, and of each process whether it has been killed, its memory, and its call. -/
structure System where
  pipe : Pipe
  killed : Nat → Bool
  user : Nat → UserMem
  status : Nat → Status

inductive Event
  | called (p : Nat)
  | accepted (p : Nat) (ch : UInt8)
  | delivered (p : Nat) (ch : UInt8)
  | returned (p : Nat) (r : Int)
  /-- The call returns since a copy has failed. -/
  | failed (p : Nat) (r : Int)
  | killed (p : Nat)
  /-- A process that has been killed ends inside of its call. -/
  | exited (p : Nat)
  | closed (writable : Bool)
  | nothing
  deriving DecidableEq, Repr

def System.setStatus (s : System) (p : Nat) (status : Status) : System :=
  { s with status := Function.update s.status p status }

/-- A byte is accepted by `pipewrite` and delivered by `piperead`. -/
def Call.moves (p : Nat) (ch : UInt8) : Call → Event
  | write _ _ _ => .accepted p ch
  | _ => .delivered p ch

/-- What becomes of a call after a turn. -/
def System.after (s : System) (p : Nat) (c : Call) : Turn → Event × System
  | .returned r => (.returned p r, s.setStatus p .outside)
  | .failed r => (.failed p r, s.setStatus p .outside)
  | .sleeps => (.nothing, s.setStatus p (.asleep c))
  | .moved ch => (c.moves p ch, s.setStatus p (.running c.next))
  | .past => (.nothing, s.setStatus p (.running c.next))

/-- A turn of the call of a process. -/
def System.turn (s : System) (p : Nat) (c : Call) : Event × System :=
  match c with
  | .write addr n i =>
    let (turn, pi) := pipewriteTurn s.pipe (s.killed p) (s.user p) addr n i
    { s with pipe := pi }.after p c turn
  | .wait _ _ => s.after p c (pipereadWait s.pipe (s.killed p))
  | .read addr n i =>
    let (turn, pi, user) := pipereadTurn s.pipe (s.user p) addr n i
    { s with pipe := pi, user := Function.update s.user p user }.after p c turn

inductive Step (s : System) : Event → System → Prop
  | call {p : Nat} {c : Call} (free : s.status p = .outside) (fresh : c.Fresh) :
      Step s (.called p) (s.setStatus p (.running c))
  | turn {p : Nat} {c : Call} (runs : s.status p = .running c) :
      Step s (s.turn p c).1 (s.turn p c).2
  | wake {p : Nat} {c : Call} (sleeps : s.status p = .asleep c) (alive : s.killed p = false) :
      Step s .nothing (s.setStatus p (.running c))
  /-- `sleep` and `yield` end in `exit_proc` once the process has been killed. -/
  | exit {p : Nat} (dead : s.killed p = true) : Step s (.exited p) (s.setStatus p .outside)
  | kill (p : Nat) : Step s (.killed p) { s with killed := Function.update s.killed p true }
  | compute {p : Nat} (free : s.status p = .outside) (user : UserMem) :
      Step s .nothing { s with user := Function.update s.user p user }
  | close (writable : Bool) : Step s (.closed writable) { s with pipe := pipeclose s.pipe writable }

/-- The events of a run, the first first. -/
inductive Run (s : System) : List Event → System → Prop
  | start : Run s [] s
  | step {evs : List Event} {e : Event} {t u : System} (before : Run s evs t) (last : Step t e u) :
      Run s (evs ++ [e]) u

/-! ### What a run is about -/

def Event.accepts : Event → Option UInt8
  | accepted _ ch => some ch
  | _ => none

def Event.delivers : Event → Option UInt8
  | delivered _ ch => some ch
  | _ => none

/-- The bytes accepted from writers, in order. -/
def acceptedBytes (evs : List Event) : List UInt8 := evs.filterMap Event.accepts

/-- The bytes delivered to readers, in order. -/
def deliveredBytes (evs : List Event) : List UInt8 := evs.filterMap Event.delivers

/-- How an event changes the number of bytes that the call of `p` has moved. -/
def Event.count (p k : Nat) : Event → Nat
  | called q => if q = p then 0 else k
  | accepted q _ => if q = p then k + 1 else k
  | delivered q _ => if q = p then k + 1 else k
  | _ => k

/-- The bytes that `p` has moved since its last call. -/
def movedBytes (p : Nat) (evs : List Event) : Nat := evs.foldl (Event.count p) 0

/-- No copy fails, and no end is closed. -/
def Event.Smooth : Event → Prop
  | failed _ _ => False
  | closed _ => False
  | _ => True

/-- A new pipe that nobody uses yet: nothing is in it, and both ends are open. -/
structure System.New (s : System) : Prop where
  empty : s.pipe.nread = s.pipe.nwrite
  readopen : s.pipe.readopen = true
  writeopen : s.pipe.writeopen = true
  free : ∀ p, s.status p = .outside

/-- What a run keeps. -/
structure Balanced (s : System) (evs : List Event) (t : System) : Prop where
  readopen : t.pipe.readopen = true
  room : (t.pipe.nwrite - t.pipe.nread).toNat ≤ PIPESIZE
  fifo : acceptedBytes evs = deliveredBytes evs ++ t.pipe.contents
  moved : ∀ p c, t.status p = .running c ∨ t.status p = .asleep c → c.moved = movedBytes p evs
  killed : ∀ p, t.killed p = true → s.killed p = true ∨ .killed p ∈ evs
  returns : ∀ (before : List Event) (p : Nat) (r : Int), before ++ [.returned p r] <+: evs →
    r = movedBytes p before ∨ r = -1 ∧ (s.killed p = true ∨ .killed p ∈ before)

section Steps

variable {s t u : System} {evs : List Event} {e : Event} {p : Nat} {c : Call}

theorem movedBytes_snoc (p : Nat) (evs : List Event) (e : Event) :
    movedBytes p (evs ++ [e]) = e.count p (movedBytes p evs) := by
  rw [movedBytes, List.foldl_append]
  rfl

theorem acceptedBytes_snoc (evs : List Event) (e : Event) :
    acceptedBytes (evs ++ [e]) = acceptedBytes evs ++ e.accepts.toList := by
  rw [acceptedBytes, List.filterMap_append]
  cases e <;> rfl

theorem deliveredBytes_snoc (evs : List Event) (e : Event) :
    deliveredBytes (evs ++ [e]) = deliveredBytes evs ++ e.delivers.toList := by
  rw [deliveredBytes, List.filterMap_append]
  cases e <;> rfl

/-- What the last event of a run has to keep. -/
theorem Balanced.snoc (balanced : Balanced s evs t) (readopen : u.pipe.readopen = true)
    (room : (u.pipe.nwrite - u.pipe.nread).toNat ≤ PIPESIZE)
    (fifo : t.pipe.contents ++ e.accepts.toList = e.delivers.toList ++ u.pipe.contents)
    (moved : ∀ p c, u.status p = .running c ∨ u.status p = .asleep c →
      c.moved = e.count p (movedBytes p evs))
    (killed : ∀ p, u.killed p = true → t.killed p = true ∨ e = .killed p)
    (returns : ∀ p (r : Int), e = .returned p r → r = movedBytes p evs ∨ r = -1 ∧ t.killed p = true) :
    Balanced s (evs ++ [e]) u := by
  refine ⟨readopen, room, ?_, ?_, ?_, ?_⟩
  · rw [acceptedBytes_snoc, deliveredBytes_snoc, balanced.fifo, List.append_assoc, List.append_assoc,
      fifo]
  · intro p c inside
    rw [movedBytes_snoc]
    exact moved p c inside
  · intro p dead
    rcases killed p dead with old | new
    · rcases balanced.killed p old with first | later
      · exact .inl first
      · exact .inr (List.mem_append_left _ later)
    · exact .inr (List.mem_append_right _ (List.mem_singleton.mpr new.symm))
  · intro before p r front
    rcases List.prefix_concat_iff.mp front with whole | earlier
    · obtain ⟨rfl, same⟩ := List.append_inj' whole rfl
      rcases returns p r (List.singleton_inj.mp same).symm with all | ⟨minus, dead⟩
      · exact .inl all
      · exact .inr ⟨minus, balanced.killed p dead⟩
    · exact balanced.returns before p r earlier

/-- A process gets a new status, and the others keep theirs. -/
theorem Balanced.setStatus (balanced : Balanced s evs t) {status : Status}
    (own : ∀ c, status = .running c ∨ status = .asleep c → c.moved = e.count p (movedBytes p evs))
    (others : ∀ q, p ≠ q → ∀ k, e.count q k = k) :
    ∀ q c, Function.update t.status p status q = .running c ∨
      Function.update t.status p status q = .asleep c → c.moved = e.count q (movedBytes q evs) := by
  intro q c inside
  by_cases same : q = p
  · subst same
    rw [Function.update_self] at inside
    exact own c inside
  · rw [Function.update_of_ne same] at inside
    rw [others q (Ne.symm same)]
    exact balanced.moved q c inside

/-- An event that leaves the pipe alone. -/
theorem Balanced.quiet (balanced : Balanced s evs t) (pipe : u.pipe = t.pipe)
    (silent : e.accepts = none ∧ e.delivers = none)
    (moved : ∀ p c, u.status p = .running c ∨ u.status p = .asleep c →
      c.moved = e.count p (movedBytes p evs))
    (killed : ∀ p, u.killed p = true → t.killed p = true ∨ e = .killed p)
    (returns : ∀ p (r : Int), e = .returned p r →
      r = movedBytes p evs ∨ r = -1 ∧ t.killed p = true) :
    Balanced s (evs ++ [e]) u := by
  apply balanced.snoc _ _ _ moved killed returns
  · rw [pipe]
    exact balanced.readopen
  · rw [pipe]
    exact balanced.room
  · rw [pipe, silent.1, silent.2]
    exact List.append_nil _

/-- A call that sleeps or goes on without having moved a byte. -/
theorem Balanced.stays (balanced : Balanced s evs t) (runs : t.status p = .running c)
    {status : Status} (same : ∀ c', status = .running c' ∨ status = .asleep c' → c'.moved = c.moved) :
    Balanced s (evs ++ [.nothing]) (t.setStatus p status) := by
  refine balanced.quiet rfl ⟨rfl, rfl⟩ ?_ (fun q dead => .inl dead) (fun q r is => by cases is)
  apply balanced.setStatus _ fun q other k => rfl
  intro c' inside
  rw [same c' inside]
  exact balanced.moved p c (.inl runs)

/-- A call that returns. -/
theorem Balanced.return (balanced : Balanced s evs t) {r : Int}
    (right : r = movedBytes p evs ∨ r = -1 ∧ t.killed p = true) :
    Balanced s (evs ++ [.returned p r]) (t.setStatus p .outside) := by
  refine balanced.quiet rfl ⟨rfl, rfl⟩ ?_ (fun q dead => .inl dead) fun q r' same => ?_
  · apply balanced.setStatus _ fun q other k => rfl
    rintro c' (running | asleep)
    · cases running
    · cases asleep
  · cases same
    exact right

/-- A turn of `pipewrite`. -/
theorem Balanced.writeTurn (balanced : Balanced s evs t) {addr : UserAddr} {n : Int} {i : Nat}
    (runs : t.status p = .running (.write addr n i))
    (smooth : (t.turn p (.write addr n i)).1.Smooth) :
    Balanced s (evs ++ [(t.turn p (.write addr n i)).1]) (t.turn p (.write addr n i)).2 := by
  have moved : i = movedBytes p evs := balanced.moved p _ (.inl runs)
  have size : PIPESIZE = 512 := rfl
  rcases pipewriteTurn_cases t.pipe (t.killed p) (t.user p) addr n i with ⟨-, turn⟩ | ⟨ends, turn⟩ |
    ⟨-, turn⟩ | ⟨-, turn⟩ | ⟨ch, -, notFull, turn⟩
  · have result : t.turn p (.write addr n i) = (.returned p i, t.setStatus p .outside) := by
      rw [System.turn, turn]
      rfl
    rw [result]
    exact balanced.return (.inl (congrArg _ moved))
  · have result : t.turn p (.write addr n i) = (.returned p (-1), t.setStatus p .outside) := by
      rw [System.turn, turn]
      rfl
    rw [result]
    apply balanced.return (.inr ⟨rfl, _⟩)
    rcases ends with shut | dead
    · rw [balanced.readopen] at shut
      cases shut
    · exact dead
  · have result : t.turn p (.write addr n i) =
        (.nothing, t.setStatus p (.asleep (.write addr n i))) := by
      rw [System.turn, turn]
      rfl
    rw [result]
    apply balanced.stays runs
    rintro c' (running | asleep)
    · cases running
    · cases asleep
      rfl
  · have result : (t.turn p (.write addr n i)).1 = .failed p i := by
      rw [System.turn, turn]
      rfl
    rw [result] at smooth
    exact smooth.elim
  · have less : (t.pipe.nwrite - t.pipe.nread).toNat < PIPESIZE := by
      have room := balanced.room
      rw [size] at room notFull ⊢
      bv_omega
    have result : t.turn p (.write addr n i) = (.accepted p ch,
        { t with
          pipe := { t.pipe with
            data := Function.update t.pipe.data (Ring.slot PIPESIZE t.pipe.nwrite) ch
            nwrite := t.pipe.nwrite + 1 }
          status := Function.update t.status p (.running (.write addr n (i + 1))) }) := by
      rw [System.turn, turn]
      rfl
    rw [result]
    refine balanced.snoc balanced.readopen ?_ ?_ ?_ (fun q dead => .inl dead)
      (fun q r is => by cases is)
    · show (t.pipe.nwrite + 1 - t.pipe.nread).toNat ≤ PIPESIZE
      rw [size] at less ⊢
      bv_omega
    · exact (contents_write t.pipe ch less).symm
    · apply balanced.setStatus
      · rintro c' (running | asleep)
        · cases running
          show i + 1 = if p = p then movedBytes p evs + 1 else movedBytes p evs
          rw [if_pos rfl, moved]
        · cases asleep
      · intro q other k
        exact if_neg other

/-- A turn of the waiting loop of `piperead`. -/
theorem Balanced.waitTurn (balanced : Balanced s evs t) {addr : UserAddr} {n : Int}
    (runs : t.status p = .running (.wait addr n)) :
    Balanced s (evs ++ [(t.turn p (.wait addr n)).1]) (t.turn p (.wait addr n)).2 := by
  rw [System.turn, pipereadWait]
  split
  · split
    · next dead => exact balanced.return (.inr ⟨rfl, dead⟩)
    · apply balanced.stays runs
      rintro c' (running | asleep)
      · cases running
      · cases asleep
        rfl
  · apply balanced.stays runs
    rintro c' (running | asleep)
    · cases running
      rfl
    · cases asleep

/-- A turn of the copying loop of `piperead`. -/
theorem Balanced.readTurn (balanced : Balanced s evs t) {addr : UserAddr} {n : Int} {i : Nat}
    (runs : t.status p = .running (.read addr n i))
    (smooth : (t.turn p (.read addr n i)).1.Smooth) :
    Balanced s (evs ++ [(t.turn p (.read addr n i)).1]) (t.turn p (.read addr n i)).2 := by
  have moved : i = movedBytes p evs := balanced.moved p _ (.inl runs)
  have size : PIPESIZE = 512 := rfl
  rcases pipereadTurn_cases t.pipe (t.user p) addr n i with ⟨-, turn⟩ | ⟨-, -, -, turn⟩ |
    ⟨-, some', -, turn⟩
  · have result : t.turn p (.read addr n i) = (.returned p i,
        { t with
          user := Function.update t.user p (t.user p)
          status := Function.update t.status p .outside }) := by
      rw [System.turn, turn]
      rfl
    rw [result, Function.update_eq_self]
    exact balanced.return (.inl (congrArg _ moved))
  · have result : (t.turn p (.read addr n i)).1 = .failed p i := by
      rw [System.turn, turn]
      rfl
    rw [result] at smooth
    exact smooth.elim
  · obtain ⟨user, result⟩ : ∃ user, t.turn p (.read addr n i) =
        (.delivered p (t.pipe.data (Ring.slot PIPESIZE t.pipe.nread)),
          { t with
            pipe := { t.pipe with nread := t.pipe.nread + 1 }
            user := user
            status := Function.update t.status p (.running (.read addr n (i + 1))) }) := by
      rw [System.turn, turn]
      exact ⟨_, rfl⟩
    rw [result]
    refine balanced.snoc balanced.readopen ?_ ?_ ?_ (fun q dead => .inl dead)
      (fun q r is => by cases is)
    · have room := balanced.room
      show (t.pipe.nwrite - (t.pipe.nread + 1)).toNat ≤ PIPESIZE
      rw [size] at room ⊢
      bv_omega
    · exact (List.append_nil _).trans (contents_read t.pipe some')
    · apply balanced.setStatus
      · rintro c' (running | asleep)
        · cases running
          show i + 1 = if p = p then movedBytes p evs + 1 else movedBytes p evs
          rw [if_pos rfl, moved]
        · cases asleep
      · intro q other k
        exact if_neg other

/-- Every step keeps the balance. -/
theorem Balanced.step (balanced : Balanced s evs t) (step : Step t e u) (smooth : e.Smooth) :
    Balanced s (evs ++ [e]) u := by
  cases step with
  | @call p c free fresh =>
    refine balanced.quiet rfl ⟨rfl, rfl⟩ ?_ (fun q dead => .inl dead) (fun q r is => by cases is)
    apply balanced.setStatus
    · rintro c' (running | asleep)
      · cases running
        show c.moved = if p = p then 0 else movedBytes p evs
        rw [if_pos rfl]
        cases fresh <;> rfl
      · cases asleep
    · intro q other k
      exact if_neg other
  | @turn p c runs =>
    cases c with
    | write addr n i => exact balanced.writeTurn runs smooth
    | wait addr n => exact balanced.waitTurn runs
    | read addr n i => exact balanced.readTurn runs smooth
  | @wake p c sleeps alive =>
    refine balanced.quiet rfl ⟨rfl, rfl⟩ ?_ (fun q dead => .inl dead) (fun q r is => by cases is)
    apply balanced.setStatus _ fun q other k => rfl
    rintro c' (running | asleep)
    · cases running
      exact balanced.moved p c (.inr sleeps)
    · cases asleep
  | @exit p dead =>
    refine balanced.quiet rfl ⟨rfl, rfl⟩ ?_ (fun q dead => .inl dead) (fun q r is => by cases is)
    apply balanced.setStatus _ fun q other k => rfl
    rintro c' (running | asleep)
    · cases running
    · cases asleep
  | kill p =>
    refine balanced.quiet rfl ⟨rfl, rfl⟩ balanced.moved (fun q dead => ?_)
      (fun q r is => by cases is)
    by_cases same : q = p
    · rw [same]
      exact .inr rfl
    · exact .inl ((Function.update_of_ne same _ _).symm.trans dead)
  | compute free user =>
    exact balanced.quiet rfl ⟨rfl, rfl⟩ balanced.moved (fun q dead => .inl dead)
      (fun q r is => by cases is)
  | close writable => exact smooth.elim

end Steps

theorem System.New.balanced {s : System} (new : s.New) : Balanced s [] s := by
  refine ⟨new.readopen, ?_, ?_, ?_, fun p dead => .inl dead, ?_⟩
  · rw [new.empty, BitVec.sub_self]
    exact Nat.zero_le _
  · rw [Pipe.contents, new.empty, Ring.pending_self]
    rfl
  · intro p c inside
    rw [new.free p] at inside
    rcases inside with running | asleep
    · cases running
    · cases asleep
  · intro before p r front
    exact absurd (List.prefix_nil.mp front) (by simp)

theorem Run.balanced {s t : System} {evs : List Event} (run : Run s evs t) (new : s.New)
    (smooth : ∀ e ∈ evs, e.Smooth) : Balanced s evs t := by
  induction run with
  | start => exact new.balanced
  | step before last ih =>
    exact (ih fun e inside => smooth e (List.mem_append_left _ inside)).step last
      (smooth _ (List.mem_append_right _ (List.mem_singleton.mpr rfl)))

/-- A new pipe between processes whose memory is full of one letter. -/
def newSystem : System :=
  ⟨⟨fun _ => 0, 0, 0, true, true⟩, fun _ => false, fun _ _ => some 65, fun _ => .outside⟩

theorem newSystem_new : newSystem.New := ⟨rfl, rfl, rfl, fun _ => rfl⟩

/-- Process 0 calls `pipewrite` for two bytes, and has written the first. -/
def oneWritten : System :=
  ((newSystem.setStatus 0 (.running (.write 0 2 0))).turn 0 (.write 0 2 0)).2

theorem oneWritten_run : Run newSystem [.called 0, .accepted 0 65] oneWritten := by
  have first : Run newSystem [.called 0] (newSystem.setStatus 0 (.running (.write 0 2 0))) :=
    .step .start (.call rfl (.write 0 2))
  have event : ((newSystem.setStatus 0 (.running (.write 0 2 0))).turn 0 (.write 0 2 0)).1 =
      .accepted 0 65 := by decide
  have second := Step.turn (s := newSystem.setStatus 0 (.running (.write 0 2 0))) (p := 0)
    (c := .write 0 2 0) rfl
  rw [event] at second
  exact .step first second

/-- Process 0 is killed now. -/
def oneKilled : System := { oneWritten with killed := Function.update oneWritten.killed 0 true }

end Xv6Lab.Pipes

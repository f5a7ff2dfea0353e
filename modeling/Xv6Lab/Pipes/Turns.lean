import Xv6Lab.Fs.File
import Xv6Lab.Lib.Ring

/-! The pipes of `pipe.c`.  `pipewrite` and `piperead` are loops; the functions below are one turn of
each loop, and a run interleaves the turns of the calls of any processes.  A process that sleeps may
come back at any time, since the scheduler also wakes sleepers that have slept too long. -/

namespace Xv6Lab.Pipes

open Fs (UserMem UserAddr copyin copyout copyin_one copyout_one)

def PIPESIZE : Nat := 512

instance : NeZero PIPESIZE := ⟨by decide⟩

/-- `struct pipe` -/
structure Pipe where
  data : Fin PIPESIZE → UInt8
  nread : BitVec 32
  nwrite : BitVec 32
  readopen : Bool
  writeopen : Bool

/-- What a turn of a loop leads to. -/
inductive Turn
  /-- The call returns. -/
  | returned (r : Int)
  /-- A copy from or to user memory has failed, and the call returns. -/
  | failed (r : Int)
  /-- The process sleeps, and runs the turn again when it is back. -/
  | sleeps
  /-- A byte has been moved. -/
  | moved (ch : UInt8)
  /-- The loop is over and the call goes on. -/
  | past
  deriving DecidableEq, Repr

/-- `while (i < n)` of `pipewrite`, and the return behind it. -/
def pipewriteTurn (pi : Pipe) (killed : Bool) (user : UserMem) (addr : UserAddr) (n : Int) (i : Nat) :
    Turn × Pipe :=
  if (i : Int) < n then
    if pi.readopen = false ∨ killed then
      (.returned (-1), pi)
    else if pi.nwrite = pi.nread + BitVec.ofNat 32 PIPESIZE then
      (.sleeps, pi)
    else
      let (r, ch) := copyin user (addr + BitVec.ofNat 64 i) (fun _ => 0) 0 1
      if r = -1 then
        (.failed i, pi)
      else
        (.moved (ch 0), { pi with
          data := Function.update pi.data (Ring.slot PIPESIZE pi.nwrite) (ch 0)
          nwrite := pi.nwrite + 1 })
  else
    (.returned i, pi)

/-- `while (pi->nread == pi->nwrite && pi->writeopen)` of `piperead` -/
def pipereadWait (pi : Pipe) (killed : Bool) : Turn :=
  if pi.nread = pi.nwrite ∧ pi.writeopen then
    if killed then .returned (-1) else .sleeps
  else
    .past

/-- `for (i = 0; i < n; i++)` of `piperead`, and the return behind it. -/
def pipereadTurn (pi : Pipe) (user : UserMem) (addr : UserAddr) (n : Int) (i : Nat) :
    Turn × Pipe × UserMem :=
  if (i : Int) < n then
    if pi.nread = pi.nwrite then
      (.returned i, pi, user)
    else
      let ch := pi.data (Ring.slot PIPESIZE pi.nread)
      let pi := { pi with nread := pi.nread + 1 }
      let (r, user) := copyout user (addr + BitVec.ofNat 64 i) (fun _ => ch) 0 1
      if r = -1 then (.failed i, pi, user) else (.moved ch, pi, user)
  else
    (.returned i, pi, user)

/-- `pipeclose`; the page of a pipe with both ends closed is not looked at any more. -/
def pipeclose (pi : Pipe) (writable : Bool) : Pipe :=
  if writable then { pi with writeopen := false } else { pi with readopen := false }

/-- What has been written to the pipe and not been read. -/
def Pipe.contents (pi : Pipe) : List UInt8 := Ring.pending pi.data pi.nread pi.nwrite

/-! ### What a turn does -/

section Turns

variable {pi pi' : Pipe} {killed : Bool} {user user' : UserMem} {addr : UserAddr} {n : Int} {i : Nat}
  {ch : UInt8} {r : Int}

theorem contents_length (pi : Pipe) : pi.contents.length = (pi.nwrite - pi.nread).toNat :=
  Ring.length_pending ..

/-- All that a turn of `pipewrite` can do. -/
theorem pipewriteTurn_cases (pi : Pipe) (killed : Bool) (user : UserMem) (addr : UserAddr) (n : Int)
    (i : Nat) :
    (n ≤ i ∧ pipewriteTurn pi killed user addr n i = (.returned i, pi)) ∨
    ((pi.readopen = false ∨ killed = true) ∧
      pipewriteTurn pi killed user addr n i = (.returned (-1), pi)) ∨
    (pi.nwrite = pi.nread + BitVec.ofNat 32 PIPESIZE ∧
      pipewriteTurn pi killed user addr n i = (.sleeps, pi)) ∨
    (user (addr + BitVec.ofNat 64 i) = none ∧
      pipewriteTurn pi killed user addr n i = (.failed i, pi)) ∨
    ∃ ch, user (addr + BitVec.ofNat 64 i) = some ch ∧
      pi.nwrite ≠ pi.nread + BitVec.ofNat 32 PIPESIZE ∧
      pipewriteTurn pi killed user addr n i = (.moved ch, { pi with
        data := Function.update pi.data (Ring.slot PIPESIZE pi.nwrite) ch
        nwrite := pi.nwrite + 1 }) := by
  unfold pipewriteTurn
  by_cases more : (i : Int) < n
  · rw [if_pos more]
    by_cases ends : pi.readopen = false ∨ killed
    · exact .inr (.inl ⟨ends, if_pos ends⟩)
    rw [if_neg ends]
    by_cases full : pi.nwrite = pi.nread + BitVec.ofNat 32 PIPESIZE
    · exact .inr (.inr (.inl ⟨full, if_pos full⟩))
    rw [if_neg full, copyin_one]
    cases found : user (addr + BitVec.ofNat 64 i) with
    | none => exact .inr (.inr (.inr (.inl ⟨rfl, rfl⟩)))
    | some ch => exact .inr (.inr (.inr (.inr ⟨ch, rfl, full, rfl⟩)))
  · rw [if_neg more]
    exact .inl ⟨by omega, rfl⟩

/-- All that a turn of the copying loop of `piperead` can do. -/
theorem pipereadTurn_cases (pi : Pipe) (user : UserMem) (addr : UserAddr) (n : Int) (i : Nat) :
    ((n ≤ i ∨ pi.nread = pi.nwrite) ∧ pipereadTurn pi user addr n i = (.returned i, pi, user)) ∨
    (i < n ∧ pi.nread ≠ pi.nwrite ∧ user (addr + BitVec.ofNat 64 i) = none ∧
      pipereadTurn pi user addr n i = (.failed i, { pi with nread := pi.nread + 1 }, user)) ∨
    (i < n ∧ pi.nread ≠ pi.nwrite ∧ (∃ b, user (addr + BitVec.ofNat 64 i) = some b) ∧
      pipereadTurn pi user addr n i =
        (.moved (pi.data (Ring.slot PIPESIZE pi.nread)), { pi with nread := pi.nread + 1 },
          Function.update user (addr + BitVec.ofNat 64 i)
            (some (pi.data (Ring.slot PIPESIZE pi.nread))))) := by
  unfold pipereadTurn
  by_cases more : (i : Int) < n
  · rw [if_pos more]
    by_cases empty : pi.nread = pi.nwrite
    · exact .inl ⟨.inr empty, if_pos empty⟩
    rw [if_neg empty]
    dsimp only
    rw [copyout_one]
    cases found : user (addr + BitVec.ofNat 64 i) with
    | none => exact .inr (.inl ⟨more, empty, rfl, rfl⟩)
    | some b => exact .inr (.inr ⟨more, empty, ⟨b, rfl⟩, rfl⟩)
  · rw [if_neg more]
    exact .inl ⟨.inl (by omega), rfl⟩

/-- A byte goes in behind the others. -/
theorem contents_write (pi : Pipe) (ch : UInt8) (room : (pi.nwrite - pi.nread).toNat < PIPESIZE) :
    Pipe.contents { pi with
      data := Function.update pi.data (Ring.slot PIPESIZE pi.nwrite) ch
      nwrite := pi.nwrite + 1 } = pi.contents ++ [ch] := by
  have size : PIPESIZE = 512 := rfl
  show Ring.pending (Function.update pi.data (Ring.slot PIPESIZE pi.nwrite) ch) pi.nread
    (pi.nwrite + 1) = _
  rw [Ring.pending_publish _ (by omega), Ring.pending_write (by decide) pi.data ch room,
    Function.update_self]
  rfl

/-- The first byte comes out. -/
theorem contents_read (pi : Pipe) (some' : pi.nread ≠ pi.nwrite) :
    pi.contents = pi.data (Ring.slot PIPESIZE pi.nread) ::
      Pipe.contents { pi with nread := pi.nread + 1 } :=
  Ring.pending_pop pi.data some'

end Turns

end Xv6Lab.Pipes

import Mathlib.Logic.Relation
import Xv6Lab.Fs.File

/-! What the life cycle of processes in `proc.c` does to open files and working directories, and the
runs of the system calls of any number of processes.  Whether the pages that a new process needs can
be had is left open: `memory` says so. -/

namespace Xv6Lab.Fs

open Bytes

section Code

variable (sb : Superblock)

def allocProc (memory : Bool) : F (Option Pid) := do
  let s ← get
  match (List.finRange 32).find? fun p => (s.procs p).state = .unused with
  | none => pure none
  | some p =>
    updProc p fun proc => { proc with cwd := none, state := .used }
    if memory then
      updProc p fun proc => { proc with ofile := fun _ => none }
      pure (some p)
    else
      updProc p fun proc => { proc with state := .unused }
      pure none

/-- `free_proc`: descriptor `fd`. -/
def closeFd (p : Pid) (fd : Fin NOFILE) : F Unit := do
  let s ← get
  match (s.procs p).ofile fd with
  | none => pure ()
  | some f =>
    close sb f
    updProc p fun proc => { proc with ofile := Function.update proc.ofile fd none }

def freeProc (p : Pid) : F Unit := do
  (List.finRange NOFILE).forM (closeFd sb p)
  updProc p fun proc => { proc with state := .unused, parent := none }

def createKernelProc (memory : Bool) : F Int := do
  match ← allocProc memory with
  | none => pure (-1)
  | some p =>
    let s ← get
    updProc p fun proc => { proc with state := .runnable, parent := some s.current }
    match (s.procs s.current).cwd with
    | some ip =>
      let ip ← idup ip
      updProc p fun proc => { proc with cwd := some ip }
    | none => updProc p fun proc => { proc with cwd := none }
    pure p.val

/-- `fork_proc`; `copied` says whether the address space could be copied. -/
def forkProc (memory copied : Bool) : F Int := do
  match ← allocProc memory with
  | none => pure (-1)
  | some child =>
    if copied then
      let s ← get
      updProc child fun proc => { proc with
        state := .runnable
        parent := some s.current
        cwd := (s.procs s.current).cwd }
      pure child.val
    else
      freeProc sb child
      pure (-1)

def exitProc : F Unit := do
  let s ← get
  match (s.procs s.current).parent with
  | none => throw .shutdown
  | some _ => updProc s.current fun proc => { proc with state := .zombie }

/-- The child that `wait_proc` of the current process reaps. -/
def State.zombieChild (s : State) : Option Pid :=
  (List.finRange 32).find? fun child =>
    (s.procs child).state = .zombie ∧ (s.procs child).parent = some s.current

/-- `wait_proc`, up to the `yield` that lets the children run. -/
def waitProc : F Int := do
  let s ← get
  match s.zombieChild with
  | some child =>
    freeProc sb child
    pure child.val
  | none =>
    match (List.finRange 32).find? fun child =>
        (s.procs child).state ≠ .unused ∧ (s.procs child).state ≠ .zombie ∧
          (s.procs child).parent = some s.current with
    | some _ => throw .blocked
    | none => pure (-1)

end Code

/-- The calls of a process. -/
inductive Call
  | kerOpen (path : Path) (omode : Omode)
  | kerClose (fd : Int)
  | kerRead (fd : Int) (addr : UserAddr) (n : Int) (kbuf : Buffer) (user : UserMem)
  | kerWrite (fd : Int) (addr : UserAddr) (n : Int) (kbuf : Buffer) (user : UserMem)
  | kerUnlink (path : Path)
  | createKernelProc (memory : Bool)
  | forkProc (memory copied : Bool)
  | exitProc
  | waitProc

/-- A call without its result. -/
def ignore {α : Type} (x : F α) : F Unit := do
  let _ ← x
  pure ()

def Call.run (sb : Superblock) : Call → F Unit
  | .kerOpen path omode => ignore (Fs.kerOpen sb path omode)
  | .kerClose fd => ignore (Fs.kerClose sb fd)
  | .kerRead fd addr n kbuf user => ignore (Fs.kerRead sb fd addr n kbuf user)
  | .kerWrite fd addr n kbuf user => ignore (Fs.kerWrite sb fd addr n kbuf user)
  | .kerUnlink path => ignore (Fs.kerUnlink sb path)
  | .createKernelProc memory => ignore (Fs.createKernelProc memory)
  | .forkProc memory copied => ignore (Fs.forkProc sb memory copied)
  | .exitProc => Fs.exitProc
  | .waitProc => ignore (Fs.waitProc sb)

/-- Process `p` can make a call. -/
def State.Runs (s : State) (p : Pid) : Prop :=
  (s.procs p).state = .runnable ∨ (s.procs p).state = .running

instance (s : State) (p : Pid) : Decidable (s.Runs p) := inferInstanceAs (Decidable (_ ∨ _))

/-- Process `p` makes a call, which returns. -/
def Calls (sb : Superblock) (p : Pid) (c : Call) (s t : State) : Prop :=
  s.Runs p ∧ c.run sb (s.setCurrent p) = .ok () t

/-- The calls one after the other. -/
def runCalls (sb : Superblock) : List (Pid × Call) → State → Option State
  | [], s => some s
  | (p, c) :: rest, s =>
    if s.Runs p then
      match c.run sb (s.setCurrent p) with
      | .ok _ t => runCalls sb rest t
      | .error _ _ => none
    else
      none

theorem runCalls_some {sb : Superblock} {calls : List (Pid × Call)} {s t : State}
    {step : State → State → Prop}
    (each : ∀ p c s t, (p, c) ∈ calls → Calls sb p c s t → step s t)
    (done : runCalls sb calls s = some t) : Relation.ReflTransGen step s t := by
  induction calls generalizing s with
  | nil =>
    obtain rfl := Option.some.inj done
    exact .refl
  | cons first rest ih =>
    obtain ⟨p, c⟩ := first
    unfold runCalls at done
    split at done
    · next runs =>
      split at done
      · next u ran =>
        refine .head (each p c s u List.mem_cons_self ⟨runs, ran⟩) (ih (fun q d s t inside => ?_) done)
        exact each q d s t (List.mem_cons_of_mem _ inside)
      · cases done
    · cases done

/-! ### A fresh file system -/

/-- The superblock of `fs.img`. -/
def fsImg : Superblock := ⟨2000, 1953, 200, 33, 46⟩

/-- The blocks of `fs.img`: the root directory with its two entries, and the bitmap. -/
def image (b : Nat) : Block :=
  if b = 33 then setDinode (fun _ => 0) 64 ⟨T_DIR, 0, 0, 1, 1024, fun k => if k = 0 then 47 else 0⟩
  else if b = 46 then fun i => if i < 6 then 0xff else 0
  else if b = 47 then fun i => ([1, 0, 46] ++ List.replicate 13 0 ++ [1, 0, 46, 46] : List UInt8).getD i 0
  else fun _ => 0

/-- The state in which `kernel_main` has set the working directory of the first process. -/
def booted : State where
  blocks := image
  outstanding := 0
  lh := []
  logged := []
  itable ip :=
    if ip = 0 then ⟨⟨0, 0, 0, 0, 0, fun _ => 0⟩, ROOTDEV, ROOTINO, 1, false, none⟩
    else ⟨⟨0, 0, 0, 0, 0, fun _ => 0⟩, 0, 0, 0, false, none⟩
  ftable _ := ⟨.none, 0, false, false, none, 0⟩
  procs p :=
    if p = 0 then ⟨.running, none, some 0, fun _ => none⟩
    else ⟨.unused, none, none, fun _ => none⟩
  current := 0

end Xv6Lab.Fs

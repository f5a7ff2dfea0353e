import Xv6Lab.Vm.Memory

/-! The processor as `proc.c` and `trap.c` share it out: the interrupt enable bit of `sstatus`, the
trap vector, the privilege mode, and what is left to run on the stack in use, on that of every
suspended process and on that of the scheduler.  Kernel code is a list of the instructions that touch
this state; a function that another calls stands in the list, and an instruction that branches puts
the code of its branch in front of what is left.  Interrupts come between any two instructions.

What the kernel computes otherwise is left out, and with it what decides which functions a handler
or a kernel thread calls: any list of calls is taken as possible.  A spin lock only delays. -/

namespace Xv6Lab.Sched

open Vm (Slot ProcState)

/-- What `stvec` points to. -/
inductive Vec
  | kernelvec | uservec
  deriving DecidableEq

inductive Mode
  | user | supervisor
  deriving DecidableEq

/-- The address a process sleeps on. -/
abbrev Chan := Nat

/-- How the creation of a process ends once a slot is taken: it is made runnable, it fails before,
or, in `create_user_proc`, it fails afterwards. -/
inductive Ending
  | published | failed | withdrawn
  deriving DecidableEq

/-- The calls of kernel code that touch the state. -/
inductive Call
  | yield
  | sleep (chan : Chan)
  | wakeup (chan : Chan)
  | brelse
  | kill (pid : Int)
  | exit
  | wait (closing : List Call)
  | create (isUser : Bool) (entry : List Call) (ending : Ending)

/-- The instructions of kernel code that touch the state.  A slot is the value of a local variable
that an earlier instruction has set. -/
inductive Instr
  | intrOn
  | intrOff
  | wStvec (vec : Vec)
  | setState (p : Slot) (state : ProcState)
  | setChan (p : Slot) (chan : Chan)
  | setParent (p : Slot)
  | setCurrent (p : Slot)
  | clearCurrent
  | wake (chan : Chan)
  | kill (pid : Int)
  | freeProc (p : Slot)
  | testKilled (p : Slot)
  | preempt
  | yieldBody
  | sleepBody (chan : Chan)
  | waitBody (closing : List Call)
  | exit
  | create (isUser : Bool) (entry : List Call) (ending : Ending)
  | forkret
  | swtchOut (p : Slot)
  | swtchIn (p : Slot)
  | sret (sie : Bool)
  | userret
  | halt

open Instr

/-- The fields of `struct proc` that scheduling and killing use; `entry` is what the function of a
kernel thread calls, and `context` what is left to run. -/
structure Proc where
  state : ProcState
  pid : Int
  killed : Bool
  isUser : Bool
  parent : Option Slot
  chan : Chan
  entry : List Call
  context : List Instr

/-- `code` is what is left to run on the stack in use; the loop of `schedule` looks for a process
when nothing is. -/
structure Machine where
  sie : Bool
  stvec : Vec
  mode : Mode
  current : Option Slot
  code : List Instr
  cpuContext : List Instr
  procs : Slot → Proc

namespace Machine

def setProc (m : Machine) (p : Slot) (proc : Proc) : Machine :=
  { m with procs := Function.update m.procs p proc }

/-- Code that is run before what is left. -/
def push (m : Machine) (code : List Instr) : Machine :=
  { m with code := code ++ m.code }

/-- The stack in use is left for good. -/
def jump (m : Machine) (code : List Instr) : Machine :=
  { m with code }

end Machine

/-! ### The functions of the kernel -/

/-- `yield` -/
def yieldCode : List Instr := [intrOff, yieldBody]

/-- `wakeup` -/
def wakeupCode (chan : Chan) : List Instr := [intrOff, wake chan, intrOn]

def Call.code : Call → List Instr
  | .yield => yieldCode
  | .sleep chan => [intrOff, sleepBody chan]
  | .wakeup chan => wakeupCode chan
  | .brelse => [intrOff, intrOn]
  | .kill pid => [Instr.kill pid]
  | .exit => [Instr.exit]
  | .wait closing => [intrOff, waitBody closing]
  | .create isUser entry ending => [Instr.create isUser entry ending]

/-- One call after the other. -/
def codes (calls : List Call) : List Instr := calls.flatMap Call.code

/-- `yield` of process `p`, once it has seen that there is one. -/
def yieldRest (p : Slot) : List Instr :=
  [setState p .runnable, clearCurrent, intrOn, swtchOut p, testKilled p]

/-- `sleep` of process `p`. -/
def sleepRest (p : Slot) (chan : Chan) : List Instr :=
  [setChan p chan, setState p .sleeping, intrOn, swtchOut p, setChan p 0, testKilled p]

/-- `exit_proc` of process `p`, which has a parent; `chan` is the parent's address. -/
def exitRest (p : Slot) (chan : Chan) : List Instr :=
  setState p .zombie :: wakeupCode chan ++ [clearCurrent, swtchOut p, halt]

/-- What follows `alloc_proc` in the functions that create a process. -/
def createRest (q : Slot) : Ending → List Instr
  | .published => [setState q .runnable, setParent q]
  | .failed => [freeProc q]
  | .withdrawn => [setState q .runnable, freeProc q]

/-- `shutdown`: the log is committed and the buffers are written back, which may sleep. -/
def shutdownCode (commit sync : List Call) : List Instr :=
  intrOff :: codes commit ++ intrOff :: codes sync ++ [halt]

/-- The address of a process, as a channel. -/
def procAddr (p : Slot) : Chan := p.val + 1

/-- A child of `p` in one of the states. -/
def Machine.child (m : Machine) (p : Slot) (states : ProcState → Bool) : Option Slot :=
  (List.finRange 32).find? fun q => states (m.procs q).state && (m.procs q).parent == some p

/-- The body of the loop of `wait_proc`; another turn follows where the process has to wait. -/
def waitTurn (m : Machine) (p : Slot) (closing : List Call) : List Instr :=
  match m.child p (· == .zombie) with
  | some q => intrOn :: codes closing ++ [freeProc q]
  | none =>
    match m.child p fun state => state != .unused && state != .zombie with
    | none => [intrOn]
    | some _ => intrOn :: yieldCode ++ [intrOff, waitBody closing]

/-- The slot that `kill_proc` finds. -/
def Machine.target (m : Machine) (pid : Int) : Option Slot :=
  (List.finRange 32).find? fun p => (m.procs p).pid = pid

/-- The slot that `alloc_proc` takes. -/
def Machine.unused (m : Machine) : Option Slot :=
  (List.finRange 32).find? fun p => (m.procs p).state = .unused

/-- What `alloc_proc` makes of a slot. -/
def allocated (proc : Proc) (q : Slot) (isUser : Bool) (entry : List Call) : Proc :=
  { proc with
    state := .used, pid := q.val, killed := false, isUser, entry, context := [forkret] }

/-- What `free_proc` makes of a slot; its `context` is zero, and nothing can be run there. -/
def freed (proc : Proc) : Proc :=
  { proc with state := .unused, pid := 0, parent := none, chan := 0, context := [halt] }

/-- What `wakeup` makes of a slot. -/
def woken (chan : Chan) (proc : Proc) : Proc :=
  if proc.state = .sleeping ∧ proc.chan = chan then { proc with state := .runnable } else proc

/-- An instruction, `m.code` being what follows it. -/
def exec (m : Machine) : Instr → Machine
  | intrOn => { m with sie := true }
  | intrOff => { m with sie := false }
  | wStvec vec => { m with stvec := vec }
  | setState p state => m.setProc p { m.procs p with state }
  | setChan p chan => m.setProc p { m.procs p with chan }
  | setParent p => m.setProc p { m.procs p with parent := m.current }
  | setCurrent p => { m with current := some p }
  | clearCurrent => { m with current := none }
  | wake chan => { m with procs := fun q => woken chan (m.procs q) }
  | .kill pid =>
    match m.target pid with
    | some q => m.setProc q { m.procs q with killed := true }
    | none => m
  | freeProc p => m.setProc p (freed (m.procs p))
  | testKilled p => if (m.procs p).killed then m.push [Instr.exit] else m
  | preempt =>
    match m.current with
    | some p => if (m.procs p).state = .running then m.push yieldCode else m
    | none => m
  | yieldBody =>
    match m.current with
    | some p => m.push (yieldRest p)
    | none => m
  | sleepBody chan =>
    match m.current with
    | some p => m.push (sleepRest p chan)
    | none => m.jump [halt]
  | waitBody closing =>
    match m.current with
    | some p => m.push (waitTurn m p closing)
    | none => { m with sie := true }
  | .exit =>
    match m.current with
    | some p =>
      match (m.procs p).parent with
      | some q => m.jump (exitRest p (procAddr q))
      -- the machine goes off; what it does before is an action of its own
      | none => m.jump [halt]
    | none => m.jump [halt]
  | .create isUser entry ending =>
    match m.unused with
    | some q =>
      (m.setProc q (allocated (m.procs q) q isUser entry)).push (createRest q ending)
    | none => m
  | forkret =>
    match m.current with
    | some p =>
      if (m.procs p).killed then m.jump [Instr.exit]
      else if (m.procs p).isUser then { m with stvec := .uservec, code := [userret] }
      else m.jump (codes (m.procs p).entry ++ [Instr.exit])
    | none => m.jump [halt]
  | swtchOut p => (m.setProc p { m.procs p with context := m.code }).jump m.cpuContext
  | swtchIn p => { m with cpuContext := m.code, code := (m.procs p).context }
  | sret sie => { m with sie }
  | userret => { m with mode := .user, code := [] }
  | halt => m.jump [halt]

/-! ### Traps -/

/-- What a device asks for: `virtio_disk_intr` wakes the processes whose requests are done. -/
inductive Interrupt
  | timer
  | disk (chans : List Chan)
  | other

/-- `handle_external_interrupt` -/
def externalCode : Interrupt → List Instr
  | .disk chans => intrOff :: chans.flatMap wakeupCode ++ [intrOn]
  | _ => []

/-- The part of `kerneltrap` for interrupts. -/
def kerneltrapCode : Interrupt → List Instr
  | .timer => [preempt]
  | i => externalCode i

/-- The cases of `handle_syscall`. -/
inductive Syscall
  | exit
  | kill (pid : Int)
  | fork (ending : Ending)
  | wait (closing : List Call)
  | yield
  | file (calls : List Call)
  | other

/-- `handle_syscall` -/
def syscallCode : Syscall → List Instr
  | .exit => [Instr.exit]
  | .kill pid => [Instr.kill pid]
  | .fork ending => [Instr.create true [] ending]
  | .wait closing => (Call.wait closing).code
  | .yield => yieldCode
  | .file calls => codes calls
  | .other => []

/-- Why `usertrap` is run. -/
inductive Cause
  | syscall (call : Syscall)
  | interrupt (i : Interrupt)
  | exception (handler : List Call)

def causeCode : Cause → List Instr
  | .syscall call => syscallCode call
  | .interrupt i => externalCode i
  | .exception handler => codes handler

/-- `usertrapret` -/
def usertrapretCode : List Instr := [wStvec .uservec, userret]

/-- `uservec` and `usertrap` -/
def usertrapCode (cause : Cause) : List Instr :=
  wStvec .kernelvec :: causeCode cause ++ usertrapretCode

/-- What happens next: the next instruction; `exit_proc` of a process without parent; a trap; or the
scheduler's choice. -/
inductive Action
  | exec
  | shutdown (commit sync : List Call)
  | interrupt (i : Interrupt)
  | exception (handler : List Call)
  | trap (cause : Cause)
  | turn
  | timeout (p : Slot)
  | dispatch (p : Slot)

/-- The processor may take a trap through `uservec`: in user mode, or in supervisor mode while
`usertrapret` or `return_to_user` is under way.  In the second case the registers of the kernel go
into the trapframe and what was left to run is lost. -/
def Machine.exposed (m : Machine) : Cause → Bool
  | .interrupt _ => m.stvec == .uservec && (m.mode == .user || m.sie)
  | _ => m.stvec == .uservec

/-- Process `p` is picked by `schedule`, and after it comes back the next one is looked for. -/
def dispatchCode (p : Slot) : List Instr :=
  [setState p .running, setCurrent p, swtchIn p, clearCurrent]

/-- Nothing is left to run on the scheduler's stack but its loop. -/
def Machine.idle (m : Machine) : Bool := m.mode == .supervisor && m.code.isEmpty

def step (m : Machine) : Action → Option Machine
  | .exec =>
    match m.mode, m.code with
    | .supervisor, halt :: _ => none
    | .supervisor, i :: rest => some (exec { m with code := rest } i)
    | _, _ => none
  | .shutdown commit sync =>
    match m.mode, m.code, m.current with
    | .supervisor, Instr.exit :: _, some p =>
      if (m.procs p).parent = none then some (m.jump (shutdownCode commit sync)) else none
    | _, _, _ => none
  | .interrupt i =>
    if m.mode = .supervisor ∧ m.stvec = .kernelvec ∧ m.sie then
      some { m with sie := false, code := kerneltrapCode i ++ sret true :: m.code }
    else none
  | .exception handler =>
    if m.mode = .supervisor ∧ m.stvec = .kernelvec ∧ ¬ m.idle then
      some { m with sie := false, code := codes handler ++ sret m.sie :: m.code }
    else none
  | .trap cause =>
    if m.exposed cause then
      some { m with mode := .supervisor, sie := false, code := usertrapCode cause }
    else none
  | .turn => if m.idle then some { m with sie := true } else none
  | .timeout p =>
    if m.idle ∧ (m.procs p).state = .sleeping then
      some (m.setProc p { m.procs p with state := .runnable })
    else none
  | .dispatch p =>
    if m.idle ∧ (m.procs p).state = .runnable then some (m.jump (dispatchCode p)) else none

/-- What a step does, by the kind of its action. -/
inductive Stepped (m : Machine) : Action → Machine → Prop
  | exec {i : Instr} {rest : List Instr} (supervisor : m.mode = .supervisor)
      (next : m.code = i :: rest) : Stepped m .exec (Sched.exec { m with code := rest } i)
  | shutdown (commit sync : List Call) {rest : List Instr} (supervisor : m.mode = .supervisor)
      (next : m.code = Instr.exit :: rest) :
      Stepped m (.shutdown commit sync) (m.jump (shutdownCode commit sync))
  | interrupt (i : Interrupt) (supervisor : m.mode = .supervisor) (vec : m.stvec = .kernelvec)
      (enabled : m.sie = true) :
      Stepped m (.interrupt i) { m with sie := false, code := kerneltrapCode i ++ sret true :: m.code }
  | exception (handler : List Call) (supervisor : m.mode = .supervisor)
      (vec : m.stvec = .kernelvec) :
      Stepped m (.exception handler)
        { m with sie := false, code := codes handler ++ sret m.sie :: m.code }
  | trap (cause : Cause) (vec : m.stvec = .uservec) :
      Stepped m (.trap cause)
        { m with mode := .supervisor, sie := false, code := usertrapCode cause }
  | turn (idle : m.idle = true) : Stepped m .turn { m with sie := true }
  | timeout (p : Slot) (idle : m.idle = true) :
      Stepped m (.timeout p) (m.setProc p { m.procs p with state := .runnable })
  | dispatch (p : Slot) (idle : m.idle = true) :
      Stepped m (.dispatch p) (m.jump (dispatchCode p))

theorem stepped {m t : Machine} {a : Action} (moves : step m a = some t) : Stepped m a t := by
  cases a with
  | exec =>
    simp only [step] at moves
    split at moves
    · cases moves
    · next _ supervisor next =>
      obtain rfl := Option.some.inj moves
      exact .exec supervisor next
    · cases moves
  | shutdown commit sync =>
    simp only [step] at moves
    split at moves
    · next supervisor next _ =>
      obtain ⟨-, is⟩ := Option.ite_none_right_eq_some.mp moves
      obtain rfl := Option.some.inj is
      exact .shutdown commit sync supervisor next
    · cases moves
  | interrupt i =>
    obtain ⟨⟨supervisor, vec, enabled⟩, is⟩ := Option.ite_none_right_eq_some.mp moves
    obtain rfl := Option.some.inj is
    exact .interrupt i supervisor vec enabled
  | exception handler =>
    obtain ⟨⟨supervisor, vec, -⟩, is⟩ := Option.ite_none_right_eq_some.mp moves
    obtain rfl := Option.some.inj is
    exact .exception handler supervisor vec
  | trap cause =>
    obtain ⟨exposed, is⟩ := Option.ite_none_right_eq_some.mp moves
    obtain rfl := Option.some.inj is
    refine .trap cause ?_
    cases cause <;> simp_all [Machine.exposed]
  | turn =>
    obtain ⟨idle, is⟩ := Option.ite_none_right_eq_some.mp moves
    obtain rfl := Option.some.inj is
    exact .turn idle
  | timeout p =>
    obtain ⟨⟨idle, -⟩, is⟩ := Option.ite_none_right_eq_some.mp moves
    obtain rfl := Option.some.inj is
    exact .timeout p idle
  | dispatch p =>
    obtain ⟨⟨idle, -⟩, is⟩ := Option.ite_none_right_eq_some.mp moves
    obtain rfl := Option.some.inj is
    exact .dispatch p idle

theorem Machine.idle_iff {m : Machine} : m.idle = true ↔ m.mode = .supervisor ∧ m.code = [] := by
  simp [Machine.idle]

/-- `start` has created the process of `kernel_main` and called `schedule`. -/
structure Booted (m : Machine) : Prop where
  sie : m.sie = true
  stvec : m.stvec = .kernelvec
  mode : m.mode = .supervisor
  current : m.current = none
  code : m.code = []
  cpuContext : m.cpuContext = [halt]
  procs : ∃ main entry, m.procs main = ⟨.runnable, main.val, false, false, none, 0, entry, [forkret]⟩ ∧
    ∀ p ≠ main, m.procs p = ⟨.unused, 0, false, false, none, 0, [], [halt]⟩

/-- `console` starts a user program and waits for it. -/
def console : List Call := [.create true [] .published, .wait []]

/-- `kernel_main` starts the console and waits for it. -/
def kernelMain : List Call := [.create false console .published, .wait []]

/-- The machine after boot, with `kernel_main` in slot 0. -/
def firstBoot : Machine where
  sie := true
  stvec := .kernelvec
  mode := .supervisor
  current := none
  code := []
  cpuContext := [halt]
  procs p := if p = 0 then ⟨.runnable, 0, false, false, none, 0, kernelMain, [forkret]⟩
    else ⟨.unused, 0, false, false, none, 0, [], [halt]⟩

theorem firstBoot_booted : Booted firstBoot where
  sie := rfl
  stvec := rfl
  mode := rfl
  current := rfl
  code := rfl
  cpuContext := rfl
  procs := ⟨0, kernelMain, rfl, fun _ other => if_neg other⟩

/-- The scheduler runs process `p`, which executes instructions. -/
def stint (p : Slot) (instructions : Nat) : List Action :=
  .dispatch p :: List.replicate instructions .exec

/-- `kernel_main` and the console run until they wait, and the user program until `forkret` has
called `return_to_user`. -/
def launch : List Action := stint 0 17 ++ stint 1 17 ++ stint 2 4

/-! ### Runs -/

/-- Every state of the run has the property. -/
def Throughout (P : Machine → Prop) : Machine → List Action → Prop
  | m, [] => P m
  | m, a :: rest => P m ∧ ∀ t, step m a = some t → Throughout P t rest

/-- Every step of the run has the property. -/
def EachStep (P : Machine → Action → Prop) : Machine → List Action → Prop
  | _, [] => True
  | m, a :: rest => ∀ t, step m a = some t → P m a ∧ EachStep P t rest

/-- The state after the actions. -/
def after (m : Machine) : List Action → Option Machine
  | [] => some m
  | a :: rest => (step m a).bind fun t => after t rest

end Xv6Lab.Sched

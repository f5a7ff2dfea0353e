import Xv6Lab.Vm.PageTable

/-! The life cycle of processes in `proc.c`: creation, `fork_proc`, exit and reaping, and the system
of one processor that runs them.  Open files and working directories are left to the file system's
models. -/

namespace Xv6Lab.Vm

open Rv64 Sv39
open Trap (PGSIZE TRAMPOLINE TRAPFRAME Field makeSatp)

/-! ### `proc.c` -/

/-- Assignments to fields of `struct proc`. -/
def updProc (p : Slot) (f : Proc → Proc) : K Unit :=
  modify fun s => s.setProc p (f (s.procs p))

/-- `tf->f = v` -/
def storeField (tf : Word) (f : Field) (v : Word) : K Unit :=
  modify fun s => s.setMem (Trap.set s.mem tf f v)

/-- `memset(tf, 0, sizeof(*tf))`; the structure ends before the page does. -/
def clearTrapframe (tf : Word) : K Unit :=
  modify fun s => s.setMem (Function.update s.mem tf fun off => if off < 312 then 0 else s.mem tf off)

/-- `*dst = *src` for two trapframes. -/
def copyTrapframe (dst src : Word) : K Unit :=
  modify fun s => s.setMem (Function.update s.mem dst fun off =>
    if off < 312 then s.mem src off else s.mem dst off)

/-- `tf->epc += 4` -/
def skipEcall (tf : Word) : K Unit :=
  modify fun s => s.setMem (Trap.set s.mem tf .epc (Trap.get s.mem tf .epc + 4))

/-- The levels of a page table, which bound the recursion of `free_pagetable`. -/
def levels : Nat := 3

/-- `free_proc`: the trapframe. -/
def freeTrapframe (p : Slot) : K Unit := do
  let s ← get
  if (s.procs p).trapframe ≠ 0 then
    freePage (s.procs p).trapframe
  updProc p fun proc => { proc with trapframe := 0 }

/-- `free_proc`: the page table, unless it is the kernel's. -/
def freeTable (p : Slot) : K Unit := do
  let s ← get
  if (s.procs p).pagetable ≠ 0 ∧ (s.procs p).pagetable ≠ s.kernelPagetable then
    freePagetable levels (s.procs p).pagetable
  updProc p fun proc => { proc with pagetable := 0 }

/-- `free_proc`: the kernel stack. -/
def freeStack (p : Slot) : K Unit := do
  let s ← get
  if (s.procs p).kstack ≠ 0 then
    freePage (s.procs p).kstack
  updProc p fun proc => { proc with kstack := 0 }

/-- `free_proc`, without the files it closes. -/
def freeProc (p : Slot) : K Unit := do
  freeTrapframe p
  freeTable p
  freeStack p
  updProc p fun proc => { proc with pid := 0, state := .unused, parent := none }

/-- The slot is given back when `alloc_proc` fails. -/
def abandonProc (p : Slot) : K (Option Slot) := do
  updProc p fun proc => { proc with state := .unused, pid := 0 }
  pure none

/-- The last part of `alloc_proc`: the kernel stack. -/
def allocStack (p : Slot) : K (Option Slot) := do
  let kstack ← allocPage
  if kstack = 0 then
    let s ← get
    freePage (s.procs p).trapframe
    freePagetable levels (s.procs p).pagetable
    updProc p fun proc => { proc with trapframe := 0, pagetable := 0 }
    abandonProc p
  else
    updProc p fun proc => { proc with kstack := kstack, killed := false }
    pure (some p)

/-- The middle part of `alloc_proc`: the page table. -/
def allocTable (p : Slot) (isUser : Bool) : K (Option Slot) := do
  if isUser then
    let pt ← createPagetable
    updProc p fun proc => { proc with pagetable := pt }
    if pt = 0 then
      let s ← get
      freePage (s.procs p).trapframe
      updProc p fun proc => { proc with trapframe := 0 }
      abandonProc p
    else
      allocStack p
  else
    modify fun s => s.setProc p { s.procs p with pagetable := s.kernelPagetable }
    allocStack p

/-- `alloc_proc` -/
def allocProc (isUser : Bool) : K (Option Slot) := do
  let s ← get
  match (List.finRange 32).find? fun p => (s.procs p).state = .unused with
  | none => pure none
  | some p =>
    updProc p fun proc => { proc with pid := p.val, state := .used, isUser := isUser }
    let tf ← allocPage
    updProc p fun proc => { proc with trapframe := tf }
    if tf = 0 then
      abandonProc p
    else
      allocTable p isUser

/-- `free_proc(p); return -1` -/
def failProc (p : Slot) : K Int := do
  freeProc p
  pure (-1)

/-- `create_kernel_proc` -/
def createKernelProc (entry : Word) : K Int := do
  match ← allocProc false with
  | none => pure (-1)
  | some p =>
    let s ← get
    storeField (s.procs p).trapframe .epc entry
    updProc p fun proc => { proc with state := .runnable, parent := s.current }
    pure (s.procs p).pid

/-- `create_user_proc` from the mapping of the trapframe on.  `usertrap` and `kernelvec` are the
addresses of the trap handlers. -/
def finishUserProc (p : Slot) (usertrap kernelvec : Word) : K Int := do
  updProc p fun proc => { proc with sz := USER_STACK_SIZE }
  let s ← get
  let proc := s.procs p
  let tf := proc.trapframe
  let r ← mapPage proc.pagetable TRAPFRAME tf (R ||| W)
  if r ≠ 0 then
    failProc p
  else
    clearTrapframe tf
    storeField tf .epc USER_TEXT_START
    storeField tf (.reg .sp) USER_STACK_SIZE
    storeField tf .sstatus ((1 : Word) <<< 5)
    storeField tf .kernelSatp (makeSatp s.kernelPagetable)
    storeField tf .kernelSp (proc.kstack + PGSIZE)
    storeField tf .usertrap usertrap
    storeField tf .kernelVec kernelvec
    updProc p fun proc => { proc with state := .runnable }
    let r ← mapPage proc.pagetable TRAMPOLINE s.trampolinePhysAddr (X ||| R)
    if r ≠ 0 then
      failProc p
    else
      updProc p fun proc => { proc with parent := s.current }
      pure proc.pid

/-- The stack pages of `create_user_proc`: one turn of its loop for each `i`. -/
def mapStack (p : Slot) (done : K Int) : List Nat → K Int
  | [] => done
  | i :: rest => do
    let stackPage ← allocPage
    if stackPage = 0 then
      failProc p
    else
      let s ← get
      let stackVa := USER_STACK_SIZE - PGSIZE * BitVec.ofNat 64 (i + 1)
      let r ← mapPage (s.procs p).pagetable stackVa stackPage (R ||| W ||| U)
      if r ≠ 0 then
        freePage stackPage
        failProc p
      else
        mapStack p done rest

/-- `create_user_proc` -/
def createUserProc (userBin : Nat → BitVec 8) (binSize : Nat) (usertrap kernelvec : Word) :
    K Int := do
  match ← allocProc true with
  | none => pure (-1)
  | some p =>
    let page ← allocPage
    if page = 0 then
      failProc p
    else
      let s ← get
      let _ ← mapPage (s.procs p).pagetable USER_TEXT_START page (R ||| W ||| X ||| U)
      memcpy page userBin binSize
      mapStack p (finishUserProc p usertrap kernelvec) (List.range 2)

/-- The last part of `fork_proc`: the two special mappings and the child's trapframe. -/
def forkTrapframe (parent child : Slot) : K Int := do
  let s ← get
  let tf := (s.procs child).trapframe
  if tf.toNat % 4096 ≠ 0 then
    failProc child
  else
    let r ← mapPage (s.procs child).pagetable TRAPFRAME tf (R ||| W)
    if r ≠ 0 then
      failProc child
    else
      let r ← mapPage (s.procs child).pagetable TRAMPOLINE s.trampolinePhysAddr (R ||| X)
      if r ≠ 0 then
        failProc child
      else
        copyTrapframe tf (s.procs parent).trapframe
        storeField tf .kernelSp ((s.procs child).kstack + PGSIZE)
        storeField tf .kernelSatp (makeSatp s.kernelPagetable)
        skipEcall tf
        storeField tf (.reg .a0) 0
        updProc child fun proc => { proc with state := .runnable, parent := some parent }
        pure (s.procs child).pid

/-- `fork_proc` of process `parent`. -/
def forkProc (parent : Slot) : K Int := do
  let s ← get
  match ← allocProc (s.procs parent).isUser with
  | none => pure (-1)
  | some child =>
    let t ← get
    let r ← uvmcopy (s.procs parent).pagetable (t.procs child).pagetable (s.procs parent).sz
    if r < 0 then
      failProc child
    else
      updProc child fun proc => { proc with sz := (s.procs parent).sz }
      forkTrapframe parent child

/-- `SYS_fork` of `handle_syscall`, for process `p`, which trapped at `sepc`. -/
def sysFork (p : Slot) : K Unit := do
  let s ← get
  let tf := (s.procs p).trapframe
  let sepc := Trap.get s.mem tf .epc
  let childPid ← forkProc p
  storeField tf (.reg .a0) (BitVec.ofInt 64 childPid)
  storeField tf .epc (sepc + 4)

/-- The slot holds a process. -/
def Kernel.live (s : Kernel) (p : Slot) : Prop := (s.procs p).state ≠ .unused

/-- The slot that `alloc_proc` takes. -/
def Kernel.nextSlot (s : Kernel) : Option Slot :=
  (List.finRange 32).find? fun p => (s.procs p).state = .unused

/-- The zombie that `wait_proc` of `p` finds. -/
def Kernel.zombieChild (s : Kernel) (p : Slot) : Option Slot :=
  (List.finRange 32).find? fun q => (s.procs q).state = .zombie ∧ (s.procs q).parent = some p

/-- `wait_proc` of `p` once it has found a zombie: its pid and its status. -/
def reapZombie (p : Slot) : K (Option (Int × Int)) := do
  let s ← get
  match s.zombieChild p with
  | none => pure none
  | some z =>
    freeProc z
    pure (some ((s.procs z).pid, (s.procs z).exitStatus))

/-! ### Runs -/

/-- The fields of the trapframe that `uservec` saves for the user. -/
def savedField : Field → Bool
  | .epc | .sstatus | .reg _ => true
  | _ => false

/-- `x` ends from `s` in `t`: it returns, or the current process exits in the middle of it. -/
def Ends {α : Type} (x : K α) (s t : Kernel) : Prop :=
  (∃ a, x s = .ok a t) ∨ x s = .error .exited t

/-- One step of the machine.  The programs that the kernel carries each fit one page. -/
inductive Step : Kernel → Kernel → Prop
  | createKernelProc {s t} (entry : Word) (run : Ends (createKernelProc entry) s t) : Step s t
  | createUserProc {s t} (userBin : Nat → BitVec 8) (binSize : Nat) (fits : binSize ≤ 4096)
      (usertrap kernelvec : Word) (run : Ends (createUserProc userBin binSize usertrap kernelvec) s t) :
      Step s t
  | dispatch {s} (p : Slot) (idle : s.current = none) (ready : (s.procs p).state = .runnable) :
      Step s { s.setProc p { s.procs p with state := .running } with current := some p }
  | yield {s} (p : Slot) (cur : s.current = some p) :
      Step s { s.setProc p { s.procs p with state := .runnable } with current := none }
  | sleep {s} (p : Slot) (cur : s.current = some p) :
      Step s { s.setProc p { s.procs p with state := .sleeping } with current := none }
  | wakeup {s} (p : Slot) (asleep : (s.procs p).state = .sleeping) :
      Step s (s.setProc p { s.procs p with state := .runnable })
  | kill {s} (p : Slot) : Step s (s.setProc p { s.procs p with killed := true })
  | exit {s t} (status : Int) (run : Ends (exitProc status : K Unit) s t) : Step s t
  | wait {s t} (p : Slot) (cur : s.current = some p) (run : Ends (reapZombie p) s t) : Step s t
  | fork {s t} (p : Slot) (cur : s.current = some p) (user : (s.procs p).isUser)
      (run : Ends (sysFork p) s t) : Step s t
  | pageFault {s t} (va : Word) (type : Access) (run : Ends (handlePageFault va type) s t) : Step s t
  -- traps save the user's registers, and system calls leave their result there
  | trapframe {s} (p : Slot) (cur : s.current = some p) (f : Field) (user : savedField f) (v : Word) :
      Step s (s.setMem (Trap.set s.mem (s.procs p).trapframe f v))
  -- a store of the user, or of `copyout` on behalf of the user
  | store {s} (p : Slot) (cur : s.current = some p) (user : (s.procs p).isUser) (va off v : Word)
      (pte : PteRef) (found : walkLookup s.mem (s.procs p).pagetable va = some pte)
      (valid : pte.read s.mem &&& V ≠ 0) (mine : pte.read s.mem &&& U ≠ 0) :
      Step s (s.setMem (s.mem.store (pte2pa (pte.read s.mem)) off v))

/-- What `pmm_init`, `kvminit` and `init_proc` leave: a free list, the kernel's table outside of
it, and no process. -/
structure Booted (s : Kernel) : Prop where
  base : KERNBASE ≤ s.kernelEnd
  free : ∃ l, Chain s.mem s.freelist l ∧ l.Nodup ∧
    ∀ pg ∈ l, Managed s pg ∧ ∀ ds, ds.length ≤ 2 → node s.mem s.kernelPagetable ds ≠ some pg
  table : ∀ ds pg, ds.length ≤ 2 → node s.mem s.kernelPagetable ds = some pg → Managed s pg ∧
    ∀ ds', ds'.length ≤ 2 → node s.mem s.kernelPagetable ds' = some pg → ds' = ds
  solid : ∀ ds pg i, ds.length = 2 → node s.mem s.kernelPagetable ds = some pg →
    entry s.mem pg i &&& V ≠ 0 → entry s.mem pg i &&& (R ||| W ||| X) ≠ 0
  unused : ∀ p, (s.procs p).state = .unused
  current : s.current = none

end Xv6Lab.Vm

import Xv6Lab.Lib.Rv64

/-! The user trap path: the trapframe layout of `defs.h`, `uservec` and `userret` of
`trampoline.S`, and `usertrap`, `handle_syscall` and `usertrapret` of `trap.c`. -/

namespace Xv6Lab.Trap

open Rv64

/-! ### Layout -/

def TRAMPOLINE : Word := 0xfffffffffffff000
def PGSIZE : Word := 4096
def TRAPFRAME : Word := TRAMPOLINE - PGSIZE

/-- `MAKE_SATP`: Sv39 mode and the page number of the root table. -/
def makeSatp (pagetable : Word) : Word := ((8 : Word) <<< 60) ||| (pagetable >>> 12)

/-- The fields of `struct trapframe`. -/
inductive Field
  | kernelSatp | kernelSp | kernelTrap | usertrap | kernelVec | kernelHartid | sstatus | epc
  | reg (r : Reg)
  deriving DecidableEq

/-- The offset of the word that holds a register in `struct trapframe`. -/
def regOffset : Reg → Word
  | .ra => 64 | .sp => 72 | .gp => 80 | .tp => 88
  | .t0 => 96 | .t1 => 104 | .t2 => 112 | .t3 => 120 | .t4 => 128 | .t5 => 136 | .t6 => 144
  | .s0 => 152 | .s1 => 160
  | .a0 => 168 | .a1 => 176 | .a2 => 184 | .a3 => 192
  | .a4 => 200 | .a5 => 208 | .a6 => 216 | .a7 => 224
  | .s2 => 232 | .s3 => 240 | .s4 => 248 | .s5 => 256 | .s6 => 264
  | .s7 => 272 | .s8 => 280 | .s9 => 288 | .s10 => 296 | .s11 => 304

/-- The offset of a field in `struct trapframe`. -/
def Field.offset : Field → Word
  | .kernelSatp => 0 | .kernelSp => 8 | .kernelTrap => 16 | .usertrap => 24
  | .kernelVec => 32 | .kernelHartid => 40 | .sstatus => 48 | .epc => 56
  | .reg r => regOffset r

/-- Fields of a trapframe do not overlap. -/
theorem Field.offset_injective : Function.Injective Field.offset := by
  intro f g h
  cases f <;> cases g <;>
    first
    | rfl
    | (rename_i r; cases r <;> exact absurd h (by decide))
    | (rename_i r s; cases r <;> cases s <;> first | rfl | exact absurd h (by decide))
    | exact absurd h (by decide)

/-- `tf->f` for the trapframe at page `tf`. -/
def get (mem : Mem) (tf : Word) (f : Field) : Word := mem tf f.offset

/-- `tf->f = v`. -/
def set (mem : Mem) (tf : Word) (f : Field) (v : Word) : Mem := mem.store tf f.offset v

@[simp] theorem get_set_same (mem : Mem) (tf : Word) (f : Field) (v : Word) :
    get (set mem tf f v) tf f = v := by
  simp [get, set]

theorem get_set_ne (mem : Mem) (tf v : Word) {f g : Field} (h : g ≠ f) :
    get (set mem tf f v) tf g = get mem tf g :=
  Mem.store_off _ _ _ fun same => h (Field.offset_injective same)

/-! ### `trampoline.S` -/

/-- The registers that `uservec` stores first, in order: all but `a0`. -/
def saved : List (Reg × Word) :=
  [(.ra, 64), (.sp, 72), (.gp, 80), (.tp, 88), (.t0, 96), (.t1, 104), (.t2, 112), (.t3, 120),
    (.t4, 128), (.t5, 136), (.t6, 144), (.s0, 152), (.s1, 160), (.a1, 176), (.a2, 184),
    (.a3, 192), (.a4, 200), (.a5, 208), (.a6, 216), (.a7, 224), (.s2, 232), (.s3, 240),
    (.s4, 248), (.s5, 256), (.s6, 264), (.s7, 272), (.s8, 280), (.s9, 288), (.s10, 296),
    (.s11, 304)]

/-- `uservec`, after its swap of `a0` with `sscratch` and the stores of `saved`. -/
def uservecTail : List Instr :=
  [.csrr .t0 .sscratch, .sd .t0 168 .a0,
    .csrr .t0 .sstatus, .sd .t0 48 .a0,
    .csrr .t1 .sepc, .sd .t1 56 .a0,
    .ld .t3 0 .a0, .ld .t4 8 .a0, .ld .t5 24 .a0, .ld .t6 32 .a0,
    .csrw .satp .t3, .sfenceVma,
    .mv .sp .t4,
    .csrw .stvec .t6, .jr .t5]

def uservec : List Instr :=
  .csrrw .a0 .sscratch .a0 :: (saveCode .a0 saved ++ uservecTail)

/-- `userret`, after the loads of `saved`: the control registers go through `t0`. -/
def userretTail : List Instr :=
  [.ld .t0 56 .a0, .csrw .sepc .t0,
    .ld .t0 48 .a0, .csrw .sstatus .t0,
    .csrw .sscratch .a0,
    .ld .a0 168 .a0,
    .sret]

def userret : List Instr :=
  .csrw .satp .a1 :: .sfenceVma :: (loadCode .a0 saved ++ userretTail)

/-! ### `trap.c` -/

/-- What the handlers use of the process that trapped. -/
structure Proc where
  trapframe : Word
  pagetable : Word

/-- Addresses that the linker fixes. -/
structure Image where
  usertrap : Word
  trampoline : Word
  uservec : Word
  userret : Word

/-- Where `uservec` runs, in the trampoline page that every page table maps. -/
def Image.uservecVa (image : Image) : Word := TRAMPOLINE + (image.uservec - image.trampoline)

/-- Where `userret` runs. -/
def Image.userretVa (image : Image) : Word := TRAMPOLINE + (image.userret - image.trampoline)

/-- Kernel code other than `handle_syscall` itself, as it acts on physical memory.  It leaves the
words of the trapframe at `tf` alone. -/
structure Outside (tf : Word) where
  run : Mem → Mem
  keeps : ∀ mem f, get (run mem) tf f = get mem tf f

def Outside.skip (tf : Word) : Outside tf := ⟨id, fun _ _ => rfl⟩

/-- System call numbers of `defs.h`, as `tf->a7` selects them. -/
inductive Syscall
  | printint | printstr | open | close | read | write | unlink | sbrk | getTime | exit | kill
  | pid | ppid | fork | wait | yield | step | unknown
  deriving DecidableEq, Repr

def syscallOf (a7 : Word) : Syscall :=
  if a7 = 1 then .printint else if a7 = 2 then .printstr
  else if a7 = 93 then .exit else if a7 = 129 then .kill
  else if a7 = 220 then .fork else if a7 = 221 then .wait
  else if a7 = 222 then .yield else if a7 = 172 then .pid
  else if a7 = 173 then .ppid else if a7 = 42 then .getTime
  else if a7 = 0xFFF then .step else if a7 = 16 then .open
  else if a7 = 17 then .close else if a7 = 18 then .read
  else if a7 = 19 then .write else if a7 = 20 then .unlink
  else if a7 = 25 then .sbrk else .unknown

/-- The functions that `handle_syscall` calls, by what they return.  `none` is a call that does
not come back: `exit_proc`, or a `yield`, `wait_proc` or file-system call that ends the process. -/
structure Callees (tf : Word) where
  effect : Outside tf
  copyinstr : Int
  checkUserAddr : Int
  strlen : Word
  forkProc : Word
  waitProc : Option Int
  copyout : Int
  yield : Option Unit
  pid : Word
  ppid : Word
  getTime : Word
  kerOpen : Option Word
  kerClose : Option Word
  kerRead : Option Word
  kerWrite : Option Word
  kerUnlink : Option Word

/-- An `int` in a 64-bit register. -/
def ofInt (n : Int) : Word := BitVec.ofInt 64 n

structure TrapInfo where
  sepc : Word
  sstatus : Word
  scause : Word
  stval : Word

/-- The value that a system call leaves in `tf->a0`; `none` if the call does not come back. -/
def syscallResult {tf : Word} (k : Callees tf) (mem : Mem) : Option Word :=
  let a0 := get mem tf (.reg .a0)
  let fd := a0.setWidth 32
  match syscallOf (get mem tf (.reg .a7)) with
  | .printint | .printstr | .kill => some a0
  | .exit => none
  | .fork => some k.forkProc
  | .wait =>
    k.waitProc.map fun pid => if 0 ≤ pid ∧ a0 ≠ 0 ∧ k.copyout < 0 then ofInt (-1) else ofInt pid
  | .yield => k.yield.map fun _ => 0
  | .pid => some k.pid
  | .ppid => some k.ppid
  | .getTime => some k.getTime
  | .step => some 0
  | .open => if k.copyinstr < 0 then some (ofInt (-1)) else k.kerOpen
  | .close => k.kerClose
  | .read =>
    if k.checkUserAddr < 0 then some (ofInt (-1))
    else if fd = 0 then some (ofInt (-1))
    else k.kerRead
  | .write =>
    if k.checkUserAddr < 0 then some (ofInt (-1))
    else if fd = 1 ∨ fd = 2 then
      if k.copyinstr < 0 then some (ofInt (-1)) else some k.strlen
    else k.kerWrite
  | .unlink => if k.copyinstr < 0 then some (ofInt (-1)) else k.kerUnlink
  | .sbrk => some (ofInt (-1))
  | .unknown => some (ofInt (-1))

def handleSyscall {tf : Word} (k : Callees tf) (info : TrapInfo) (mem : Mem) : Option Mem := do
  let a0 ← syscallResult k mem
  let mem := set (k.effect.run mem) tf (.reg .a0) a0
  return set mem tf .epc (info.sepc + 4)

/-- The rest of the kernel as the trap path of a process with trapframe `tf` meets it.
`handleException` is `none` when the exception ends the process or the machine. -/
structure Kernel (tf : Word) where
  callees : Callees tf
  timer : Outside tf
  externalInterrupt : Outside tf
  handleException : TrapInfo → Mem → Option Mem
  /-- What compiled code leaves in the registers. -/
  scratch : Reg → Word

def usertrapret (image : Image) (p : Proc) (scratch : Reg → Word) (m : Machine) : Machine :=
  let m := (m.setCsr .stvec image.uservecVa).setCsr .sscratch TRAPFRAME
  let m := { m with reg := scratch }
  let m := (m.setReg .a0 TRAPFRAME).setReg .a1 (makeSatp p.pagetable)
  let m := m.setReg .t0 image.userretVa
  { m with pc := m.reg .t0 }

/-- The C part of a trap: what `usertrap` does to memory, by cause. -/
def usertrapMem (p : Proc) (k : Kernel p.trapframe) (m : Machine) : Option Mem :=
  let info : TrapInfo :=
    { sepc := get m.mem p.trapframe .epc, sstatus := get m.mem p.trapframe .sstatus
      scause := m.csr .scause, stval := m.csr .stval }
  let code := info.scause &&& 0xff
  let isIntr := info.scause >>> 63
  if isIntr = 0 ∧ code = 8 then handleSyscall k.callees info m.mem
  else if isIntr ≠ 0 then
    if code = 5 then some (k.timer.run m.mem)
    else if code = 9 then some (k.externalInterrupt.run m.mem)
    else some m.mem
  else k.handleException info m.mem

def usertrap (image : Image) (p : Proc) (k : Kernel p.trapframe) (m : Machine) : Option Machine :=
  (usertrapMem p k m).map fun mem => usertrapret image p k.scratch (m.setMem mem)

/-- Run `code` if the program counter is at it. -/
def runAt (mmu : Mmu) (va : Word) (code : List Instr) (m : Machine) : Option Machine :=
  if m.pc = va then some (run mmu code m) else none

theorem runAt_of_pc {mmu : Mmu} {va : Word} {m : Machine} (code : List Instr) (h : m.pc = va) :
    runAt mmu va code m = some (run mmu code m) :=
  if_pos h

/-- A trap from user mode and the way back: the hardware, `uservec`, `usertrap` with
`usertrapret`, and `userret`, each reached by the jump that ends the one before. -/
def roundTrip (mmu : Mmu) (image : Image) (p : Proc) (k : Kernel p.trapframe) (m : Machine)
    (cause tval : Word) : Option Machine := do
  let m ← runAt mmu image.uservecVa uservec (m.trap cause tval)
  let m ← if m.pc = image.usertrap then usertrap image p k m else none
  runAt mmu image.userretVa userret m

/-- A process in user mode as `create_user_proc`, `fork_proc` and every return to user mode leave
it: `sscratch` is `TRAPFRAME`, the process's table is in force and maps `TRAPFRAME` to its
trapframe, whose kernel fields are set. -/
structure InUserMode (mmu : Mmu) (image : Image) (p : Proc) (m : Machine) : Prop where
  mode : m.mode = .user
  stvec : m.csr .stvec = image.uservecVa
  sscratch : m.csr .sscratch = TRAPFRAME
  satp : m.csr .satp = makeSatp p.pagetable
  mapped : mmu (makeSatp p.pagetable) TRAPFRAME = p.trapframe
  entry : get m.mem p.trapframe .usertrap = image.usertrap

end Xv6Lab.Trap

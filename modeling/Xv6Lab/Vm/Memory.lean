import Xv6Lab.Lib.Exec
import Xv6Lab.Lib.Sv39
import Xv6Lab.Trap.Trampoline

/-! The kernel's global state as far as memory and processes go, and the page allocator of `pm.c`.
The free list is threaded through the first word of the free pages themselves. -/

namespace Xv6Lab.Vm

open Rv64 Exec
open Trap (PGSIZE TRAMPOLINE TRAPFRAME makeSatp)

/-! ### State -/

def KERNBASE : Word := 0x80000000
def PHYSTOP : Word := KERNBASE + 128 * 1024 * 1024
def MAXVA : Word := (1 : Word) <<< 39
def USER_TEXT_START : Word := 0x10000
def USER_STACK_SIZE : Word := 0x20000

/-- `PROC`: the slots of the process table. -/
abbrev Slot := Fin 32

instance Slot.neZero : NeZero 32 := ⟨by decide⟩

/-- `enum procstate`. -/
inductive ProcState
  | unused | used | sleeping | runnable | running | zombie
  deriving DecidableEq, Repr

/-- The fields of `struct proc` that memory management and the life cycle use.  A null pointer to a
page is `0`; the page of a trapframe holds the trapframe at its start. -/
structure Proc where
  state : ProcState
  pid : Int
  kstack : Word
  killed : Bool
  exitStatus : Int
  parent : Option Slot
  isUser : Bool
  sz : Word
  pagetable : Word
  trapframe : Word

/-- Physical memory, the globals of `pm.c`, `vm.c` and `proc.c`, and the linker's symbol `end`. -/
structure Kernel where
  kernelEnd : Word
  mem : Mem
  freelist : Word
  kernelPagetable : Word
  trampolinePhysAddr : Word
  procs : Slot → Proc
  current : Option Slot

/-- What ends a kernel function without a return: `panic`, `exit_proc` of the current process,
`shutdown`, or a recursion that outgrows the kernel stack. -/
inductive Halt
  | panic (msg : String)
  | exited
  | shutdown
  | stackOverflow
  deriving DecidableEq

/-- Kernel code. -/
abbrev K := EStateM Halt Kernel

def panic {α : Type} (msg : String) : K α := throw (.panic msg)

def Kernel.setMem (s : Kernel) (mem : Mem) : Kernel := { s with mem }

def Kernel.setFreelist (s : Kernel) (freelist : Word) : Kernel := { s with freelist }

def Kernel.setProc (s : Kernel) (p : Slot) (proc : Proc) : Kernel :=
  { s with procs := Function.update s.procs p proc }

section Setters

variable (s : Kernel) (mem : Mem) (w : Word) (p : Slot) (proc : Proc)

@[simp] theorem setMem_mem : (s.setMem mem).mem = mem := rfl
@[simp] theorem setMem_freelist : (s.setMem mem).freelist = s.freelist := rfl
@[simp] theorem setMem_procs : (s.setMem mem).procs = s.procs := rfl
@[simp] theorem setMem_current : (s.setMem mem).current = s.current := rfl
@[simp] theorem setFreelist_mem : (s.setFreelist w).mem = s.mem := rfl
@[simp] theorem setFreelist_freelist : (s.setFreelist w).freelist = w := rfl
@[simp] theorem setFreelist_procs : (s.setFreelist w).procs = s.procs := rfl
@[simp] theorem setFreelist_current : (s.setFreelist w).current = s.current := rfl
@[simp] theorem setProc_mem : (s.setProc p proc).mem = s.mem := rfl
@[simp] theorem setProc_freelist : (s.setProc p proc).freelist = s.freelist := rfl
@[simp] theorem setProc_current : (s.setProc p proc).current = s.current := rfl
@[simp] theorem setProc_procs : (s.setProc p proc).procs = Function.update s.procs p proc := rfl

end Setters

/-- `memset(page, 0, PGSIZE)`. -/
def clearPage (page : Word) : K Unit :=
  modify fun s => s.setMem (Function.update s.mem page fun _ => 0)

/-- `memmove(dst, src, PGSIZE)` for two pages. -/
def copyPage (dst src : Word) : K Unit :=
  modify fun s => s.setMem (Function.update s.mem dst (s.mem src))

/-- A store of one doubleword. -/
def storeWord (page off v : Word) : K Unit :=
  modify fun s => s.setMem (s.mem.store page off v)

/-- Byte `k` of a doubleword replaced. -/
def putByte (w : Word) (k : Nat) (b : BitVec 8) : Word :=
  (w &&& ~~~((0xff : Word) <<< (8 * k))) ||| (b.setWidth 64 <<< (8 * k))

/-- Byte `i` of a page. -/
def byteAt (page : Word → Word) (i : Nat) : BitVec 8 :=
  (page (BitVec.ofNat 64 (i / 8 * 8)) >>> (8 * (i % 8))).setWidth 8

/-- A store of one byte. -/
def storeByte (pa : Word) (b : BitVec 8) : K Unit := do
  let s ← get
  let page : Word := BitVec.ofNat 64 (pa.toNat / 4096 * 4096)
  let off : Word := BitVec.ofNat 64 (pa.toNat % 4096 / 8 * 8)
  storeWord page off (putByte (s.mem page off) (pa.toNat % 8) b)

/-- `memcpy` into physical memory. -/
def memcpy (dst : Word) (src : Nat → BitVec 8) (n : Nat) : K Unit :=
  (List.range n).forM fun i => storeByte (dst + BitVec.ofNat 64 i) (src i)

/-! ### `pm.c` -/

/-- The word that `memset(.., 5, ..)` leaves. -/
def fives : Word := 0x0505050505050505

/-- `alloc_page` -/
def allocPage : K Word := do
  let s ← get
  let r := s.freelist
  if r ≠ 0 then
    set ((s.setFreelist (s.mem r 0)).setMem
      (Function.update s.mem r fun off => if off = 0 then s.mem r 0 else fives))
    pure r
  else
    panic "alloc_page: out of memory"

/-- `free_page` -/
def freePage (page : Word) : K Unit := do
  let s ← get
  if page.toNat % 4096 ≠ 0 ∨ page < s.kernelEnd ∨ PHYSTOP ≤ page then
    panic "free_page: invalid page address"
  else
    set ((s.setMem (s.mem.store page 0 s.freelist)).setFreelist page)

/-- The list from `head`, linked through the first word of each page. -/
def Chain (mem : Mem) : Word → List Word → Prop
  | head, [] => head = 0
  | head, pg :: rest => head = pg ∧ pg ≠ 0 ∧ Chain mem (mem pg 0) rest

/-- A page that `free_page` accepts. -/
structure Managed (s : Kernel) (pg : Word) : Prop where
  aligned : pg.toNat % 4096 = 0
  above : s.kernelEnd ≤ pg
  below : pg < PHYSTOP

/-! ### Small runs -/

/-- The state in which `x` ends. -/
def after {α : Type} (x : K α) (s : Kernel) : Kernel :=
  match x s with
  | .ok _ t => t
  | .error _ t => t

/-- The value with which `x` ends. -/
def value {α : Type} (x : K α) (s : Kernel) : Option α :=
  match x s with
  | .ok a _ => some a
  | .error _ _ => none

theorem run_of_value {α : Type} {s : Kernel} {x : K α} {a : α} (is : value x s = some a) :
    x s = .ok a (after x s) := by
  unfold value at is
  unfold after
  cases run : x s with
  | ok b t =>
    rw [run] at is
    simp_all
  | error e t =>
    rw [run] at is
    cases is

theorem after_ok {α : Type} {s t : Kernel} {x : K α} {a : α} (run : x s = .ok a t) : after x s = t := by
  rw [after, run]

theorem value_ok {α : Type} {s t : Kernel} {x : K α} {a : α} (run : x s = .ok a t) :
    value x s = some a := by
  rw [value, run]

/-- Twenty-four free pages, and an empty kernel table. -/
def samplePages : List Word := (List.range 24).map fun k => 0x87000000 + BitVec.ofNat 64 (4096 * k)

def sampleBoot : Kernel where
  kernelEnd := 0x80100000
  mem pg off :=
    if off = 0 ∧ 0x87000000 ≤ pg ∧ pg < 0x87017000 ∧ pg &&& 0xfff = 0 then pg + 4096 else 0
  freelist := 0x87000000
  kernelPagetable := 0x80200000
  trampolinePhysAddr := 0x80201000
  procs _ := ⟨.unused, 0, 0, false, 0, none, false, 0, 0, 0⟩
  current := none

instance decidableChain (mem : Mem) : (head : Word) → (l : List Word) → Decidable (Chain mem head l)
  | head, [] => inferInstanceAs (Decidable (head = 0))
  | head, pg :: rest =>
    have := decidableChain mem (mem pg 0) rest
    inferInstanceAs (Decidable (head = pg ∧ pg ≠ 0 ∧ Chain mem (mem pg 0) rest))

instance (s : Kernel) (pg : Word) : Decidable (Managed s pg) :=
  decidable_of_iff (pg.toNat % 4096 = 0 ∧ s.kernelEnd ≤ pg ∧ pg < PHYSTOP)
    ⟨fun ⟨a, b, c⟩ => ⟨a, b, c⟩, fun ⟨a, b, c⟩ => ⟨a, b, c⟩⟩

theorem samplePages_managed :
    (samplePages.all fun pg => Managed sampleBoot pg ∧ pg ≠ sampleBoot.kernelPagetable) = true := by
  decide +kernel

end Xv6Lab.Vm

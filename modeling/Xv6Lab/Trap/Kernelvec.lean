import Xv6Lab.Lib.Rv64Flat

/-! Interrupts of the kernel: `kernelvec` of `kernelvec.S` around `kerneltrap` of `trap.c`.  Whatever
code of the kernel is interrupted, at whatever instruction, goes on with its registers and its memory
as they were, when what `kerneltrap` calls comes back as calls do. -/

namespace Xv6Lab.Trap

open Rv64

/-- The registers that `kernelvec` stores below the stack pointer, in order. -/
def kernelFrame : List (Reg × Word) :=
  [(.ra, 0), (.gp, 16), (.tp, 24), (.t0, 32), (.t1, 40), (.t2, 48), (.s0, 56), (.s1, 64), (.a0, 72),
    (.a1, 80), (.a2, 88), (.a3, 96), (.a4, 104), (.a5, 112), (.a6, 120), (.a7, 128), (.s2, 136),
    (.s3, 144), (.s4, 152), (.s5, 160), (.s6, 168), (.s7, 176), (.s8, 184), (.s9, 192), (.s10, 200),
    (.s11, 208), (.t3, 216), (.t4, 224), (.t5, 232), (.t6, 240)]

/-- The registers that it loads: all but `tp`. -/
def kernelRestored : List (Reg × Word) :=
  [(.ra, 0), (.gp, 16), (.t0, 32), (.t1, 40), (.t2, 48), (.s0, 56), (.s1, 64), (.a0, 72), (.a1, 80),
    (.a2, 88), (.a3, 96), (.a4, 104), (.a5, 112), (.a6, 120), (.a7, 128), (.s2, 136), (.s3, 144),
    (.s4, 152), (.s5, 160), (.s6, 168), (.s7, 176), (.s8, 184), (.s9, 192), (.s10, 200), (.s11, 208),
    (.t3, 216), (.t4, 224), (.t5, 232), (.t6, 240)]

/-- Addresses that the linker fixes; `resume` is that of the instruction behind `call kerneltrap`. -/
structure KernelImage where
  kernelvec : Word
  kerneltrap : Word
  resume : Word

section Code

variable (mmu : Mmu) (image : KernelImage)

/-- `kernelvec` up to its call. -/
def kernelvecEntry (m : Machine) : Machine :=
  (run mmu (saveCode .sp kernelFrame) (m.addi .sp .sp (-256))).call image.kerneltrap image.resume

/-- `kernelvec` behind its call. -/
def kernelvecExit (m : Machine) : Machine :=
  run mmu [.sret] ((run mmu (loadCode .sp kernelRestored) m).addi .sp .sp 256)

/-- `kerneltrap` of an interrupt: `work` is what it calls, by cause `timeintr` and `yield` or
`handle_external_interrupt`, with its own prologue and epilogue. -/
def kerneltrap (work : Machine → Machine) (m : Machine) : Machine :=
  let sstatus := m.csr .sstatus
  let sepc := m.csr .sepc
  ((work m).setCsr .sepc sepc).setCsr .sstatus sstatus

/-- An interrupt of the kernel and the way back, each part reached by the jump that ends the one
before. -/
def kernelInterrupt (work : Machine → Machine) (m : Machine) (cause tval : Word) : Option Machine :=
  let m := m.kernelTrap cause tval
  if m.pc = image.kernelvec then
    let m := kernelvecEntry mmu image m
    if m.pc = image.kerneltrap then
      let m := kerneltrap work m
      if m.pc = image.resume then some (kernelvecExit mmu m) else none
    else none
  else none

end Code

/-- The doublewords of the frame below stack pointer `sp`. -/
def frameWords (sp : Word) : List Word := places (sp - 256) kernelFrame

theorem frameWords_nodup (sp : Word) : (frameWords sp).Nodup := places_nodup _ (by decide)

theorem restored_frame : ∀ load ∈ kernelRestored, load ∈ kernelFrame := by decide

/-- Every register but `sp` and `tp` is loaded. -/
theorem restored_all (r : Reg) (sp : r ≠ .sp) (tp : r ≠ .tp) : r ∈ kernelRestored.map Prod.fst := by
  cases r <;> first | exact absurd rfl sp | exact absurd rfl tp | decide

/-- Kernel code with interrupts on, whose stack has room for a frame; `A` is the memory that it
relies on. -/
structure InKernel (mmu : Mmu) (image : KernelImage) (A : Set Word) (m : Machine) : Prop where
  mode : m.mode = .supervisor
  enabled : m.csr .sstatus &&& SIE ≠ 0
  stvec : m.csr .stvec = image.kernelvec
  flat : InPlace mmu (m.csr .satp) (A ∪ { a | a ∈ frameWords (m.reg .sp) })
  below : ∀ a ∈ A, a ∉ frameWords (m.reg .sp)

/-- What `kerneltrap` calls comes back, in supervisor mode and with the page table of the kernel. -/
structure Handles (mmu : Mmu) (A : Set Word) (m m' : Machine) : Prop extends Returns mmu A m m' where
  satp : m'.csr .satp = m.csr .satp

/-- Kernel code goes on as if the interrupt had not happened; only `tp` is as the handler left it. -/
structure KernelTransparent (mmu : Mmu) (A : Set Word) (m m' : Machine) : Prop where
  mode : m'.mode = .supervisor
  pc : m'.pc = m.pc
  reg : ∀ r ≠ .tp, m'.reg r = m.reg r
  satp : m'.csr .satp = m.csr .satp
  enabled : m'.csr .sstatus &&& SIE ≠ 0
  mem : ∀ a ∈ A, m'.load mmu a = m.load mmu a

/-! ### `sstatus` -/

theorem kernelSstatus_spp (sstatus : Word) : kernelSstatus sstatus &&& SPP ≠ 0 := by
  unfold kernelSstatus
  rw [BitVec.and_or_distrib_right, BitVec.and_self]
  intro none
  have bit := congrArg (BitVec.getLsbD · 8) none
  simp [SPP] at bit

theorem trapSstatus_spie {sstatus : Word} (enabled : sstatus &&& SIE ≠ 0) :
    trapSstatus sstatus &&& SPIE ≠ 0 := by
  unfold trapSstatus
  dsimp only
  rw [if_neg enabled, BitVec.and_or_distrib_right, BitVec.and_self]
  intro none
  have bit := congrArg (BitVec.getLsbD · 5) none
  simp [SPIE] at bit

/-- `sret` turns interrupts on again. -/
theorem sretSstatus_enabled {sstatus : Word} (enabled : sstatus &&& SIE ≠ 0) :
    sretSstatus (kernelSstatus sstatus) &&& SIE ≠ 0 := by
  have spie : kernelSstatus sstatus &&& SPIE ≠ 0 := by
    unfold kernelSstatus
    rw [BitVec.and_or_distrib_right, show SPP &&& SPIE = 0#64 by decide,
      BitVec.or_zero]
    exact trapSstatus_spie enabled
  unfold sretSstatus
  dsimp only
  rw [if_neg spie, BitVec.and_or_distrib_right, BitVec.and_self]
  intro none
  have bit := congrArg (BitVec.getLsbD · 1) none
  simp [SIE] at bit

section Transparent

variable {mmu : Mmu} {image : KernelImage} {A : Set Word} {m : Machine} (cause tval : Word)

/-- When `kernelvec` calls `kerneltrap`, the frame holds the registers. -/
structure Entered (mmu : Mmu) (image : KernelImage) (A : Set Word) (m entered : Machine) : Prop where
  pc : entered.pc = image.kerneltrap
  ra : entered.reg .ra = image.resume
  sp : entered.reg .sp = m.reg .sp - 256
  frame : ∀ save ∈ kernelFrame, entered.load mmu (m.reg .sp - 256 + save.2) = m.reg save.1
  mem : ∀ a ∈ A, entered.load mmu a = m.load mmu a
  satp : entered.csr .satp = m.csr .satp
  sepc : entered.csr .sepc = m.pc
  sstatus : entered.csr .sstatus = kernelSstatus (m.csr .sstatus)

theorem kernelvecEntry_run (h : InKernel mmu image A m) :
    Entered mmu image A m (kernelvecEntry mmu image (m.kernelTrap cause tval)) := by
  unfold kernelvecEntry
  set pushed := (m.kernelTrap cause tval).addi .sp .sp (-256) with is
  have base : pushed.reg .sp = m.reg .sp - 256 := by
    rw [is, addi_reg, Function.update_self, BitVec.sub_eq_add_neg]
    rfl
  have others : ∀ r ≠ .sp, pushed.reg r = m.reg r := fun r other => Function.update_of_ne other _ _
  have flat : InPlace mmu (pushed.csr .satp) (A ∪ { a | a ∈ frameWords (m.reg .sp) }) := h.flat
  have csr : pushed.csr .satp = m.csr .satp ∧ pushed.csr .sepc = m.pc ∧
      pushed.csr .sstatus = kernelSstatus (m.csr .sstatus) := ⟨rfl, rfl, rfl⟩
  have mem : ∀ a, pushed.load mmu a = m.load mmu a := fun _ => rfl
  have words : places (pushed.reg .sp) kernelFrame = frameWords (m.reg .sp) :=
    congrArg (places · kernelFrame) base
  have saves := run_saves (A := A ∪ { a | a ∈ frameWords (m.reg .sp) }) kernelFrame pushed flat
    (by rw [words]; exact fun a word => .inr word) (by rw [words]; exact frameWords_nodup _)
  clear_value pushed
  generalize run mmu (saveCode .sp kernelFrame) pushed = stored at saves ⊢
  obtain ⟨-, -, reg, same, saved, kept⟩ := saves
  rw [base] at saved
  rw [base] at kept
  refine ⟨rfl, ?_, ?_, fun save member => ?_, fun a inside => ?_, ?_, ?_, ?_⟩
  · rw [call_reg, Function.update_self]
  · rw [call_reg, Function.update_of_ne (by decide), reg, base]
  · have none : ∀ save ∈ kernelFrame, save.1 ≠ .sp := by decide
    rw [load_call, saved save member, others _ (none save member)]
  · rw [load_call, kept a (.inl inside) (h.below a inside), mem]
  · rw [call_csr, same, csr.1]
  · rw [call_csr, same, csr.2.1]
  · rw [call_csr, same, csr.2.2]

/-- What `kernelvec` makes of the state in which `kerneltrap` comes back; `saved` are the registers
of the frame. -/
structure Left (saved : Reg → Word) (back left : Machine) : Prop where
  pc : left.pc = back.csr .sepc
  mode : left.mode = if back.csr .sstatus &&& SPP = 0 then .user else .supervisor
  csr : left.csr = Function.update back.csr .sstatus (sretSstatus (back.csr .sstatus))
  mem : left.mem = back.mem
  reg : ∀ r, r ≠ .sp → r ≠ .tp → left.reg r = saved r
  sp : left.reg .sp = back.reg .sp + 256

theorem kernelvecExit_run {back : Machine} {saved : Reg → Word}
    (holds : ∀ load ∈ kernelRestored, back.load mmu (back.reg .sp + load.2) = saved load.1) :
    Left saved back (kernelvecExit mmu back) := by
  unfold kernelvecExit
  rw [run_loads kernelRestored back (by decide)]
  have loaded : ∀ load ∈ kernelRestored,
      loadAll back.reg (fun _ off => back.load mmu (back.reg .sp + off)) 0 kernelRestored load.1 =
        back.load mmu (back.reg .sp + load.2) := fun load member =>
    loadAll_mem kernelRestored back.reg (by decide) member
  have sp : loadAll back.reg (fun _ off => back.load mmu (back.reg .sp + off)) 0 kernelRestored .sp =
      back.reg .sp := loadAll_other kernelRestored back.reg (by decide)
  generalize loadAll back.reg (fun _ off => back.load mmu (back.reg .sp + off)) 0 kernelRestored =
    after at loaded sp ⊢
  have popped : (run mmu [.sret] (Machine.addi { back with reg := after } .sp .sp 256)).reg =
      Function.update after .sp (after .sp + 256) := rfl
  refine ⟨rfl, rfl, rfl, rfl, fun r notSp notTp => ?_, ?_⟩
  · obtain ⟨load, member, rfl⟩ := List.mem_map.mp (restored_all r notSp notTp)
    rw [popped, Function.update_of_ne notSp, loaded load member, holds load member]
  · rw [popped, Function.update_self, sp]

end Transparent

/-! ### A timer interrupt on an empty stack -/

def sampleKernelImage : KernelImage := ⟨0x80000100, 0x80000200, 0x80000188⟩

/-- Kernel code with 7 in every register but `sp`, and interrupts on. -/
def interrupted : Machine where
  mode := .supervisor
  pc := 0x80001000
  reg r := if r = .sp then 0x80008000 else 7
  csr c := if c = .sstatus then SIE else if c = .stvec then 0x80000100 else 0
  mem _ _ := 0

def flatMmu : Mmu := fun _ page => page

theorem interrupted_inKernel : InKernel flatMmu sampleKernelImage ∅ interrupted :=
  ⟨rfl, by decide, rfl, fun _ _ => rfl, fun _ none => none.elim⟩

/-- A handler that returns at once. -/
def comeBack (m : Machine) : Machine := { m with pc := m.reg .ra }

theorem comeBack_handles (mmu : Mmu) (A : Set Word) (m : Machine) : Handles mmu A m (comeBack m) :=
  ⟨⟨rfl, fun _ _ => rfl, fun _ _ => rfl⟩, rfl⟩

end Xv6Lab.Trap

import Mathlib.Data.BitVec
import Mathlib.Logic.Function.Basic
import Mathlib.Data.List.Nodup

/-! A fragment of RV64 with supervisor mode: general registers, the control registers a trap uses,
paged memory, and the instructions of trap vectors.  Straight-line code runs as a list, and the
program counter moves only at the jump that ends it.  The two rules at the end run a block of
stores of registers through one base register, and a block of loads. -/

namespace Rv64

abbrev Word := BitVec 64

instance : LawfulBEq Word := inferInstance

inductive Reg
  | ra | sp | gp | tp
  | t0 | t1 | t2 | t3 | t4 | t5 | t6
  | s0 | s1 | s2 | s3 | s4 | s5 | s6 | s7 | s8 | s9 | s10 | s11
  | a0 | a1 | a2 | a3 | a4 | a5 | a6 | a7
  deriving DecidableEq, Repr

inductive Csr
  | satp | stvec | sscratch | sepc | sstatus | scause | stval
  deriving DecidableEq, Repr

inductive Mode
  | user | supervisor
  deriving DecidableEq, Repr

/-- Physical memory: the doubleword at an offset of a physical page. -/
abbrev Mem := Word → Word → Word

/-- Store `v` at offset `off` of page `page`. -/
def Mem.store (mem : Mem) (page off v : Word) : Mem :=
  Function.update mem page (Function.update (mem page) off v)

@[simp] theorem Mem.store_same (mem : Mem) (page off v : Word) :
    mem.store page off v page off = v := by
  simp [Mem.store]

theorem Mem.store_off (mem : Mem) (page v : Word) {off off' : Word} (h : off' ≠ off) :
    mem.store page off v page off' = mem page off' := by
  simp [Mem.store, h]

theorem Mem.store_page (mem : Mem) (off v off' : Word) {page page' : Word} (h : page' ≠ page) :
    mem.store page off v page' off' = mem page' off' := by
  simp [Mem.store, h]

structure Machine where
  mode : Mode
  pc : Word
  reg : Reg → Word
  csr : Csr → Word
  mem : Mem

namespace Machine

def setReg (m : Machine) (r : Reg) (v : Word) : Machine :=
  { m with reg := Function.update m.reg r v }

def setCsr (m : Machine) (c : Csr) (v : Word) : Machine :=
  { m with csr := Function.update m.csr c v }

def setMem (m : Machine) (mem : Mem) : Machine := { m with mem }

@[simp] theorem setReg_reg (m : Machine) (r : Reg) (v : Word) :
    (m.setReg r v).reg = Function.update m.reg r v := rfl
@[simp] theorem setReg_csr (m : Machine) (r : Reg) (v : Word) : (m.setReg r v).csr = m.csr := rfl
@[simp] theorem setReg_mem (m : Machine) (r : Reg) (v : Word) : (m.setReg r v).mem = m.mem := rfl
@[simp] theorem setReg_mode (m : Machine) (r : Reg) (v : Word) :
    (m.setReg r v).mode = m.mode := rfl
@[simp] theorem setCsr_csr (m : Machine) (c : Csr) (v : Word) :
    (m.setCsr c v).csr = Function.update m.csr c v := rfl
@[simp] theorem setCsr_reg (m : Machine) (c : Csr) (v : Word) : (m.setCsr c v).reg = m.reg := rfl
@[simp] theorem setCsr_mem (m : Machine) (c : Csr) (v : Word) : (m.setCsr c v).mem = m.mem := rfl
@[simp] theorem setCsr_mode (m : Machine) (c : Csr) (v : Word) :
    (m.setCsr c v).mode = m.mode := rfl

end Machine

/-- Bits of `sstatus`: SIE is bit 1, SPIE bit 5 and SPP bit 8. -/
def SIE : Word := 0x2
def SPIE : Word := 0x20
def SPP : Word := 0x100

/-- `sstatus` after a trap taken in user mode: SPP and SIE are clear, SPIE is the old SIE. -/
def trapSstatus (sstatus : Word) : Word :=
  let kept := sstatus &&& ~~~(SIE ||| SPIE ||| SPP)
  if sstatus &&& SIE = 0 then kept else kept ||| SPIE

/-- `sstatus` after `sret`: SIE is the old SPIE, SPIE is set and SPP is clear. -/
def sretSstatus (sstatus : Word) : Word :=
  let kept := (sstatus &&& ~~~(SIE ||| SPP)) ||| SPIE
  if sstatus &&& SPIE = 0 then kept else kept ||| SIE

/-- The hardware takes a trap from user mode. -/
def Machine.trap (m : Machine) (cause tval : Word) : Machine :=
  { (((m.setCsr .sepc m.pc).setCsr .scause cause).setCsr .stval tval).setCsr .sstatus
      (trapSstatus (m.csr .sstatus)) with
    mode := .supervisor, pc := m.csr .stvec }

inductive Instr
  | csrrw (rd : Reg) (csr : Csr) (rs : Reg)
  | csrr (rd : Reg) (csr : Csr)
  | csrw (csr : Csr) (rs : Reg)
  | sd (rs : Reg) (off : Word) (base : Reg)
  | ld (rd : Reg) (off : Word) (base : Reg)
  | mv (rd rs : Reg)
  | sfenceVma
  | jr (rs : Reg)
  | sret
  deriving DecidableEq, Repr

/-- The page tables of the machine: the physical page of a virtual page under a value of `satp`. -/
abbrev Mmu := Word → Word → Word

/-- The first address of the page of an address. -/
def pageOf (va : Word) : Word := va &&& ~~~0xfff

/-- The offset of an address in its page. -/
def pageOff (va : Word) : Word := va &&& 0xfff

def Machine.load (mmu : Mmu) (m : Machine) (va : Word) : Word :=
  m.mem (mmu (m.csr .satp) (pageOf va)) (pageOff va)

def Machine.store (mmu : Mmu) (m : Machine) (va v : Word) : Machine :=
  { m with mem := m.mem.store (mmu (m.csr .satp) (pageOf va)) (pageOff va) v }

def Instr.exec (mmu : Mmu) (m : Machine) : Instr → Machine
  | .csrrw rd csr rs => (m.setCsr csr (m.reg rs)).setReg rd (m.csr csr)
  | .csrr rd csr => m.setReg rd (m.csr csr)
  | .csrw csr rs => m.setCsr csr (m.reg rs)
  | .sd rs off base => m.store mmu (m.reg base + off) (m.reg rs)
  | .ld rd off base => m.setReg rd (m.load mmu (m.reg base + off))
  | .mv rd rs => m.setReg rd (m.reg rs)
  | .sfenceVma => m
  | .jr rs => { m with pc := m.reg rs }
  | .sret =>
    { m.setCsr .sstatus (sretSstatus (m.csr .sstatus)) with
      pc := m.csr .sepc
      mode := if m.csr .sstatus &&& SPP = 0 then .user else .supervisor }

def run (mmu : Mmu) (code : List Instr) (m : Machine) : Machine :=
  code.foldl (Instr.exec mmu) m

@[simp] theorem run_nil (mmu : Mmu) (m : Machine) : run mmu [] m = m := rfl

@[simp] theorem run_cons (mmu : Mmu) (i : Instr) (code : List Instr) (m : Machine) :
    run mmu (i :: code) m = run mmu code (i.exec mmu m) := rfl

theorem run_append (mmu : Mmu) (c₁ c₂ : List Instr) (m : Machine) :
    run mmu (c₁ ++ c₂) m = run mmu c₂ (run mmu c₁ m) :=
  List.foldl_append ..

/-- Memory after the registers of `saves` are stored at their offsets of `page`. -/
def Mem.saveAll (mem : Mem) (page : Word) (reg : Reg → Word) : List (Reg × Word) → Mem
  | [] => mem
  | (r, off) :: rest => (mem.store page off (reg r)).saveAll page reg rest

/-- Registers after those of `loads` are loaded from their offsets of `page`. -/
def loadAll (reg : Reg → Word) (mem : Mem) (page : Word) : List (Reg × Word) → Reg → Word
  | [] => reg
  | (r, off) :: rest => loadAll (Function.update reg r (mem page off)) mem page rest

theorem Mem.saveAll_other {reg : Reg → Word} {page off : Word} (saves : List (Reg × Word))
    (mem : Mem) (h : off ∉ saves.map Prod.snd) :
    mem.saveAll page reg saves page off = mem page off := by
  induction saves generalizing mem with
  | nil => rfl
  | cons save rest ih =>
    simp only [List.map_cons, List.mem_cons, not_or] at h
    rw [Mem.saveAll, ih _ h.2, Mem.store_off _ _ _ h.1]

/-- A saved register is found at its offset. -/
theorem Mem.saveAll_mem {reg : Reg → Word} {page : Word} {r : Reg} {off : Word}
    (saves : List (Reg × Word)) (mem : Mem) (distinct : (saves.map Prod.snd).Nodup)
    (h : (r, off) ∈ saves) : mem.saveAll page reg saves page off = reg r := by
  induction saves generalizing mem with
  | nil => simp at h
  | cons save rest ih =>
    simp only [List.map_cons, List.nodup_cons] at distinct
    rw [Mem.saveAll]
    rcases List.mem_cons.mp h with rfl | later
    · rw [Mem.saveAll_other rest _ distinct.1, Mem.store_same]
    · exact ih _ distinct.2 later

theorem loadAll_other {mem : Mem} {page : Word} {r : Reg} (loads : List (Reg × Word))
    (reg : Reg → Word) (h : r ∉ loads.map Prod.fst) : loadAll reg mem page loads r = reg r := by
  induction loads generalizing reg with
  | nil => rfl
  | cons load rest ih =>
    simp only [List.map_cons, List.mem_cons, not_or] at h
    rw [loadAll, ih _ h.2, Function.update_of_ne h.1]

/-- A loaded register holds the word at its offset. -/
theorem loadAll_mem {mem : Mem} {page : Word} {r : Reg} {off : Word} (loads : List (Reg × Word))
    (reg : Reg → Word) (distinct : (loads.map Prod.fst).Nodup) (h : (r, off) ∈ loads) :
    loadAll reg mem page loads r = mem page off := by
  induction loads generalizing reg with
  | nil => simp at h
  | cons load rest ih =>
    simp only [List.map_cons, List.nodup_cons] at distinct
    rw [loadAll]
    rcases List.mem_cons.mp h with rfl | later
    · rw [loadAll_other rest _ distinct.1, Function.update_self]
    · exact ih _ distinct.2 later

/-- The stores of `saves` through `base`. -/
def saveCode (base : Reg) (saves : List (Reg × Word)) : List Instr :=
  saves.map fun save => .sd save.1 save.2 base

/-- The loads of `loads` through `base`. -/
def loadCode (base : Reg) (loads : List (Reg × Word)) : List Instr :=
  loads.map fun load => .ld load.1 load.2 base

/-- Offset `off` from `va` stays at the start of its page. -/
def InPage (va off : Word) : Prop := pageOf (va + off) = va ∧ pageOff (va + off) = off

instance (va off : Word) : Decidable (InPage va off) :=
  inferInstanceAs (Decidable (_ ∧ _))

theorem run_saveCode (mmu : Mmu) (base : Reg) (saves : List (Reg × Word)) (m : Machine)
    (inPage : ∀ save ∈ saves, InPage (m.reg base) save.2) :
    run mmu (saveCode base saves) m =
      { m with mem := m.mem.saveAll (mmu (m.csr .satp) (m.reg base)) m.reg saves } := by
  induction saves generalizing m with
  | nil => rfl
  | cons save rest ih =>
    obtain ⟨page, off⟩ := inPage save (by simp)
    have tail : ∀ s ∈ rest, InPage (m.reg base) s.2 :=
      fun s hs => inPage s (List.mem_cons_of_mem _ hs)
    simp only [saveCode, List.map_cons, run_cons, Instr.exec, Machine.store, page, off]
    exact ih _ tail

theorem run_loadCode (mmu : Mmu) (base : Reg) (loads : List (Reg × Word)) (m : Machine)
    (keeps : base ∉ loads.map Prod.fst)
    (inPage : ∀ load ∈ loads, InPage (m.reg base) load.2) :
    run mmu (loadCode base loads) m =
      { m with reg := loadAll m.reg m.mem (mmu (m.csr .satp) (m.reg base)) loads } := by
  induction loads generalizing m with
  | nil => rfl
  | cons load rest ih =>
    obtain ⟨page, off⟩ := inPage load (by simp)
    simp only [List.map_cons, List.mem_cons, not_or] at keeps
    have same : (m.setReg load.1 (m.load mmu (m.reg base + load.2))).reg base = m.reg base := by
      simp [Function.update_of_ne keeps.1]
    have tail : ∀ l ∈ rest,
        InPage ((m.setReg load.1 (m.load mmu (m.reg base + load.2))).reg base) l.2 := by
      intro l hl
      rw [same]
      exact inPage l (List.mem_cons_of_mem _ hl)
    simp only [loadCode, List.map_cons, run_cons, Instr.exec]
    refine (ih _ keeps.2 tail).trans ?_
    rw [same]
    simp only [Machine.setReg, Machine.load, page, off, loadAll]

end Rv64

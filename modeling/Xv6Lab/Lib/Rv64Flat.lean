import Mathlib.Data.Set.Basic
import Xv6Lab.Lib.Rv64

/-! Supervisor code on memory that its page table leaves in place: doublewords by their addresses,
blocks of stores and loads through any base register, the instructions that calls and stack frames
add to those of trap vectors, and traps that are taken in supervisor mode. -/

namespace Rv64

/-! ### Addresses -/

theorem page_or_off (a : Word) : pageOf a ||| pageOff a = a := by
  rw [pageOf, pageOff, ← BitVec.and_or_distrib_left,
    show ~~~(0xfff : Word) ||| 0xfff = BitVec.allOnes 64 by decide, BitVec.and_allOnes]

/-- Two doublewords are at one place only if their addresses are the same. -/
theorem addr_ext {a b : Word} (page : pageOf a = pageOf b) (off : pageOff a = pageOff b) : a = b := by
  rw [← page_or_off a, ← page_or_off b, page, off]

/-- The page table `satp` leaves the addresses of `A` where they are. -/
def InPlace (mmu : Mmu) (satp : Word) (A : Set Word) : Prop :=
  ∀ a ∈ A, mmu satp (pageOf a) = pageOf a

section Memory

variable {mmu : Mmu} {m : Machine} {A B : Set Word} {a b v : Word}

theorem load_store_same : (m.store mmu a v).load mmu a = v := Mem.store_same _ _ _ _

theorem load_store_ne (here : mmu (m.csr .satp) (pageOf a) = pageOf a)
    (there : mmu (m.csr .satp) (pageOf b) = pageOf b) (other : b ≠ a) :
    (m.store mmu a v).load mmu b = m.load mmu b := by
  unfold Machine.load Machine.store
  dsimp only
  rw [here, there]
  by_cases page : pageOf b = pageOf a
  · rw [page]
    exact Mem.store_off _ _ _ fun off => other (addr_ext page off)
  · exact Mem.store_page _ _ _ _ page

end Memory

/-! ### Blocks of stores and loads -/

/-- The addresses at which `saves` are, from `base` on. -/
def places (base : Word) (saves : List (Reg × Word)) : List Word :=
  saves.map fun save => base + save.2

/-- Different offsets are different places. -/
theorem places_nodup {saves : List (Reg × Word)} (base : Word)
    (distinct : (saves.map Prod.snd).Nodup) : (places base saves).Nodup := by
  rw [show places base saves = (saves.map Prod.snd).map (base + ·) from
    (List.map_map (f := Prod.snd) (g := (base + ·))).symm]
  exact distinct.map fun _ _ same => (BitVec.add_right_inj base).mp same

section Blocks

variable {mmu : Mmu} {base : Reg} {A : Set Word}

/-- Memory after a block of stores: `saved` holds the registers, and nothing else changes. -/
structure Saves (mmu : Mmu) (A : Set Word) (start : Word) (saves : List (Reg × Word))
    (m m' : Machine) : Prop where
  mode : m'.mode = m.mode
  pc : m'.pc = m.pc
  reg : m'.reg = m.reg
  csr : m'.csr = m.csr
  saved : ∀ save ∈ saves, m'.load mmu (start + save.2) = m.reg save.1
  others : ∀ a ∈ A, a ∉ places start saves → m'.load mmu a = m.load mmu a

theorem run_saves (saves : List (Reg × Word)) (m : Machine) (flat : InPlace mmu (m.csr .satp) A)
    (inside : ∀ a ∈ places (m.reg base) saves, a ∈ A) (distinct : (places (m.reg base) saves).Nodup) :
    Saves mmu A (m.reg base) saves m (run mmu (saveCode base saves) m) := by
  induction saves generalizing m with
  | nil => exact ⟨rfl, rfl, rfl, rfl, fun _ here => absurd here List.not_mem_nil, fun _ _ _ => rfl⟩
  | cons save rest ih =>
    have here : m.reg base + save.2 ∈ A := inside _ List.mem_cons_self
    obtain ⟨apart, rests⟩ := List.nodup_cons.mp distinct
    set stored := m.store mmu (m.reg base + save.2) (m.reg save.1) with is
    obtain ⟨mode, pc, reg, csr, saved, others⟩ :=
      ih stored flat (fun a later => inside a (List.mem_cons_of_mem _ later)) rests
    refine ⟨mode, pc, reg, csr, fun other member => ?_, fun a within outside => ?_⟩
    · rcases List.mem_cons.mp member with rfl | later
      · exact (others _ here apart).trans load_store_same
      · exact saved other later
    · obtain ⟨first, later⟩ := not_or.mp fun either => outside (List.mem_cons.mpr either)
      exact (others a within later).trans (load_store_ne (flat _ here) (flat _ within) first)

/-- A block of loads changes registers alone, and each gets the doubleword at its place. -/
theorem run_loads (loads : List (Reg × Word)) (m : Machine) (keeps : base ∉ loads.map Prod.fst) :
    run mmu (loadCode base loads) m =
      { m with reg := loadAll m.reg (fun _ off => m.load mmu (m.reg base + off)) 0 loads } := by
  induction loads generalizing m with
  | nil => rfl
  | cons load rest ih =>
    obtain ⟨other, rests⟩ := not_or.mp fun either => keeps (List.mem_cons.mpr either)
    have same : (m.setReg load.1 (m.load mmu (m.reg base + load.2))).reg base = m.reg base :=
      Function.update_of_ne other _ _
    simp only [loadCode, List.map_cons, run_cons, Instr.exec]
    refine (ih _ rests).trans ?_
    rw [same]
    rfl

end Blocks

/-! ### Calls, frames and traps in supervisor mode -/

/-- `addi rd, rs, imm` -/
def Machine.addi (m : Machine) (rd rs : Reg) (imm : Word) : Machine := m.setReg rd (m.reg rs + imm)

/-- `call target`, with the address of the instruction behind it. -/
def Machine.call (m : Machine) (target next : Word) : Machine :=
  { m.setReg .ra next with pc := target }

section Frames

variable (mmu : Mmu) (m : Machine) (rd rs : Reg) (imm target next a : Word)

@[simp] theorem addi_reg : (m.addi rd rs imm).reg = Function.update m.reg rd (m.reg rs + imm) := rfl
@[simp] theorem addi_csr : (m.addi rd rs imm).csr = m.csr := rfl
@[simp] theorem load_addi : (m.addi rd rs imm).load mmu a = m.load mmu a := rfl
@[simp] theorem call_pc : (m.call target next).pc = target := rfl
@[simp] theorem call_reg : (m.call target next).reg = Function.update m.reg .ra next := rfl
@[simp] theorem call_csr : (m.call target next).csr = m.csr := rfl
@[simp] theorem load_call : (m.call target next).load mmu a = m.load mmu a := rfl

end Frames

/-- `sstatus` after a trap taken in supervisor mode: SPP is set, SIE is clear, SPIE is the old SIE. -/
def kernelSstatus (sstatus : Word) : Word := trapSstatus sstatus ||| SPP

/-- The hardware takes a trap from supervisor mode. -/
def Machine.kernelTrap (m : Machine) (cause tval : Word) : Machine :=
  { (((m.setCsr .sepc m.pc).setCsr .scause cause).setCsr .stval tval).setCsr .sstatus
      (kernelSstatus (m.csr .sstatus)) with
    mode := .supervisor, pc := m.csr .stvec }

/-- The registers that a call leaves as they were, by the calling convention. -/
def calleeSaved : List Reg :=
  [.sp, .s0, .s1, .s2, .s3, .s4, .s5, .s6, .s7, .s8, .s9, .s10, .s11]

/-- A call that was made in state `m` has come back in state `m'`, with the caller's doublewords at
`A` as they were. -/
structure Returns (mmu : Mmu) (A : Set Word) (m m' : Machine) : Prop where
  pc : m'.pc = m.reg .ra
  reg : ∀ r ∈ calleeSaved, m'.reg r = m.reg r
  mem : ∀ a ∈ A, m'.load mmu a = m.load mmu a

end Rv64

import Xv6Lab.Trap.Trampoline

/-! What a user program finds when it resumes after a trap.  `userret` passes the saved `sepc` and
`sstatus` through `t0` after it has loaded `t0`, so `t0` comes back as the saved `sstatus`; every
other register and the program counter come back as the C handler left them in the trapframe. -/

namespace Xv6Lab.Trap

open Rv64

theorem trapframe_eq : TRAPFRAME = 0xffffffffffffe000#64 := rfl

theorem saved_offsets (r : Reg) (h : r ≠ .a0) : (r, regOffset r) ∈ saved := by
  cases r <;> first | exact absurd rfl h | decide

theorem saved_inPage : ∀ save ∈ saved, InPage TRAPFRAME save.2 := by decide

section Entry

variable {mmu : Mmu} {image : Image} {p : Proc} {m : Machine} (cause tval : Word)

/-- Memory when `uservec` has stored the registers of `saved`. -/
def savedMem (p : Proc) (m : Machine) : Mem :=
  m.mem.saveAll p.trapframe (Function.update m.reg .a0 TRAPFRAME) saved

/-- Memory when `uservec` jumps to `usertrap`. -/
def entryMem (p : Proc) (m : Machine) : Mem :=
  set (set (set (savedMem p m) p.trapframe (.reg .a0) (m.reg .a0)) p.trapframe .sstatus
    (trapSstatus (m.csr .sstatus))) p.trapframe .epc m.pc

theorem savedMem_kernel (f : Field) (h : f.offset ∉ saved.map Prod.snd) :
    get (savedMem p m) p.trapframe f = get m.mem p.trapframe f := by
  simp only [get, savedMem]
  rw [Mem.saveAll_other _ _ h]

/-- The tail of `uservec`, run with the trapframe at `a0`. -/
theorem uservecTail_run {tf : Word} (base : m.reg .a0 = TRAPFRAME)
    (table : mmu (m.csr .satp) TRAPFRAME = tf) :
    (run mmu uservecTail m).mem =
      set (set (set m.mem tf (.reg .a0) (m.csr .sscratch)) tf .sstatus (m.csr .sstatus)) tf .epc
        (m.csr .sepc) ∧
    (run mmu uservecTail m).pc = get m.mem tf .usertrap ∧
    (run mmu uservecTail m).csr .scause = m.csr .scause ∧
    (run mmu uservecTail m).csr .stval = m.csr .stval := by
  rw [trapframe_eq] at base table
  simp [uservecTail, Instr.exec, Machine.store, Machine.load, Machine.setReg, Machine.setCsr,
    base, table, pageOf, pageOff, set, get, Field.offset, regOffset, Mem.store_off]

/-- `uservec` leaves the user's registers, `sepc` and `sstatus` in the trapframe and the cause in
`scause` and `stval`, and jumps to `tf->usertrap`. -/
theorem uservec_run (h : InUserMode mmu image p m) :
    (run mmu uservec (m.trap cause tval)).mem = entryMem p m ∧
    (run mmu uservec (m.trap cause tval)).pc = image.usertrap ∧
    (run mmu uservec (m.trap cause tval)).csr .scause = cause ∧
    (run mmu uservec (m.trap cause tval)).csr .stval = tval := by
  have table : mmu (m.csr .satp) TRAPFRAME = p.trapframe := by rw [h.satp, h.mapped]
  have swapped : Instr.exec mmu (m.trap cause tval) (.csrrw .a0 .sscratch .a0) =
      { (m.trap cause tval).setCsr .sscratch (m.reg .a0) with
        reg := Function.update m.reg .a0 TRAPFRAME } := by
    simp [Instr.exec, Machine.trap, Machine.setReg, Machine.setCsr, h.sscratch]
  rw [uservec, run_cons, run_append, swapped, run_saveCode _ _ _ _ (by simpa using saved_inPage)]
  obtain ⟨mem, pc, scause, stval⟩ := @uservecTail_run mmu
    ({ (m.trap cause tval).setCsr .sscratch (m.reg .a0) with
      reg := Function.update m.reg .a0 TRAPFRAME, mem := savedMem p m })
    p.trapframe (by simp) (by simpa [Machine.trap] using table)
  have stored : ((m.trap cause tval).setCsr .sscratch (m.reg .a0)).mem.saveAll
      (mmu (((m.trap cause tval).setCsr .sscratch (m.reg .a0)).csr .satp)
        (Function.update m.reg .a0 TRAPFRAME .a0)) (Function.update m.reg .a0 TRAPFRAME) saved =
      savedMem p m := by
    simp [Machine.trap, table, savedMem]
  simp only [stored]
  refine ⟨mem.trans ?_, pc.trans ?_, scause.trans ?_, stval.trans ?_⟩
  · simp [entryMem, Machine.trap]
  · rw [savedMem_kernel _ (by decide), h.entry]
  · simp [Machine.trap]
  · simp [Machine.trap]

end Entry

/-- The registers, program counter and mode with which `userret` resumes the process whose
trapframe `a0` points to. -/
theorem userret_run {mmu : Mmu} {p : Proc} {m : Machine} (base : m.reg .a0 = TRAPFRAME)
    (satp : m.reg .a1 = makeSatp p.pagetable)
    (mapped : mmu (makeSatp p.pagetable) TRAPFRAME = p.trapframe) :
    (run mmu userret m).pc = get m.mem p.trapframe .epc ∧
    (run mmu userret m).mode =
      (if get m.mem p.trapframe .sstatus &&& SPP = 0 then .user else .supervisor) ∧
    (run mmu userret m).reg .t0 = get m.mem p.trapframe .sstatus ∧
    ∀ r ≠ .t0, (run mmu userret m).reg r = get m.mem p.trapframe (.reg r) := by
  have loaded : run mmu (loadCode .a0 saved) (m.setCsr .satp (makeSatp p.pagetable)) =
      { m.setCsr .satp (makeSatp p.pagetable) with
        reg := loadAll m.reg m.mem p.trapframe saved } := by
    rw [run_loadCode mmu .a0 saved _ (by decide) (by simpa [base] using saved_inPage)]
    simp [base, mapped]
  have frame : loadAll m.reg m.mem p.trapframe saved .a0 = TRAPFRAME := by
    rw [loadAll_other _ _ (by decide), base]
  rw [trapframe_eq] at mapped frame
  rw [userret, run_cons, run_cons, run_append]
  simp only [Instr.exec, satp, loaded]
  simp only [userretTail, run_cons, run_nil, Instr.exec, Machine.load, Machine.setReg,
    Machine.setCsr]
  refine ⟨?_, ?_, ?_, fun r hr => ?_⟩
  · simp [frame, mapped, pageOf, pageOff, get, Field.offset]
  · simp [frame, mapped, pageOf, pageOff, get, Field.offset]
    congr
  · simp [frame, mapped, pageOf, pageOff, get, Field.offset]
  · by_cases ha : r = .a0
    · subst ha
      simp [frame, mapped, pageOf, pageOff, get, Field.offset, regOffset]
    · have kept := @loadAll_mem m.mem p.trapframe _ _ saved m.reg (by decide) (saved_offsets r ha)
      simp [hr, ha, kept, get, Field.offset]

/-! ### The round trip -/

section RoundTrip

variable {mmu : Mmu} {image : Image} {p : Proc} {k : Kernel p.trapframe} {m : Machine}

theorem entryMem_reg (r : Reg) : get (entryMem p m) p.trapframe (.reg r) = m.reg r := by
  rw [entryMem, get_set_ne _ _ _ (by simp), get_set_ne _ _ _ (by simp)]
  by_cases ha : r = .a0
  · rw [ha, get_set_same]
  · rw [get_set_ne _ _ _ (by simpa using ha), savedMem, get]
    refine (Mem.saveAll_mem saved m.mem (by decide) (saved_offsets r ha)).trans ?_
    rw [Function.update_of_ne ha]

theorem entryMem_epc : get (entryMem p m) p.trapframe .epc = m.pc := by
  rw [entryMem, get_set_same]

theorem entryMem_sstatus :
    get (entryMem p m) p.trapframe .sstatus = trapSstatus (m.csr .sstatus) := by
  rw [entryMem, get_set_ne _ _ _ (by simp), get_set_same]

/-- A trap from user mode is saved with SPP clear. -/
theorem trapSstatus_spp (sstatus : Word) : trapSstatus sstatus &&& SPP = 0 := by
  have kept : sstatus &&& ~~~(SIE ||| SPIE ||| SPP) &&& SPP = 0 := by
    rw [BitVec.and_assoc, show ~~~(SIE ||| SPIE ||| SPP) &&& SPP = 0 by decide]
    simp
  simp only [trapSstatus]
  split
  · exact kept
  · rw [BitVec.and_or_distrib_right, kept]
    decide

/-- What a user program resumes with, given the memory that the C handler leaves. -/
structure ResumesFrom (tf : Word) (mem : Mem) (m' : Machine) : Prop where
  pc : m'.pc = get mem tf .epc
  mode : get mem tf .sstatus &&& SPP = 0 → m'.mode = .user
  t0 : m'.reg .t0 = get mem tf .sstatus
  reg : ∀ r ≠ .t0, m'.reg r = get mem tf (.reg r)

theorem usertrapret_pc (scratch : Reg → Word) (m₁ : Machine) :
    (usertrapret image p scratch m₁).pc = image.userretVa := by
  simp only [usertrapret, Machine.setReg, Function.update_self]

theorem roundTrip_eq (h : InUserMode mmu image p m) (cause tval : Word) :
    roundTrip mmu image p k m cause tval =
      (usertrapMem p k (run mmu uservec (m.trap cause tval))).map fun mem =>
        run mmu userret (usertrapret image p k.scratch
          ((run mmu uservec (m.trap cause tval)).setMem mem)) := by
  have vector : (m.trap cause tval).pc = image.uservecVa := h.stvec
  have entry := (uservec_run cause tval h).2.1
  rw [roundTrip, runAt_of_pc uservec vector, Option.bind_eq_bind, Option.bind_some]
  -- The vector is opaque from here on: only where it jumps to matters.
  generalize run mmu uservec (m.trap cause tval) = m₁ at entry ⊢
  rw [if_pos entry, usertrap]
  cases usertrapMem p k m₁ with
  | none => rw [Option.map_none, Option.bind_none, Option.map_none]
  | some mem =>
    rw [Option.map_some, Option.bind_some, Option.map_some]
    exact runAt_of_pc userret (usertrapret_pc _ _)

theorem usertrapret_resumes (h : InUserMode mmu image p m) (m₁ : Machine) (mem : Mem) :
    ResumesFrom p.trapframe mem
      (run mmu userret (usertrapret image p k.scratch (m₁.setMem mem))) := by
  obtain ⟨pc, mode, t0, reg⟩ := @userret_run mmu p
    (usertrapret image p k.scratch (m₁.setMem mem)) (by simp [usertrapret])
    (by simp [usertrapret]) h.mapped
  exact ⟨pc, fun clear => mode.trans (if_pos clear), t0, reg⟩

/-! ### Interrupts and system calls -/

def timerInterrupt : Word := 0x8000000000000005
def externalInterrupt : Word := 0x8000000000000009
def userEcall : Word := 8

/-- User execution goes on as if the trap had not happened. -/
structure Transparent (m m' : Machine) : Prop where
  mode : m'.mode = .user
  pc : m'.pc = m.pc
  reg : ∀ r, m'.reg r = m.reg r

/-- User execution goes on after the `ecall` with a result in `a0`. -/
structure TransparentCall (m m' : Machine) : Prop where
  mode : m'.mode = .user
  pc : m'.pc = m.pc + 4
  reg : ∀ r ≠ .a0, m'.reg r = m.reg r

theorem usertrapMem_timer {m₁ : Machine} (h : m₁.csr .scause = timerInterrupt) :
    usertrapMem p k m₁ = some (k.timer.run m₁.mem) := by
  simp [usertrapMem, h, timerInterrupt]

theorem usertrapMem_external {m₁ : Machine} (h : m₁.csr .scause = externalInterrupt) :
    usertrapMem p k m₁ = some (k.externalInterrupt.run m₁.mem) := by
  simp [usertrapMem, h, externalInterrupt]

theorem usertrapMem_ecall {m₁ : Machine} (h : m₁.csr .scause = userEcall) {after : Mem}
    (handled : usertrapMem p k m₁ = some after) :
    ∃ a0, after = set (set (k.callees.effect.run m₁.mem) p.trapframe (.reg .a0) a0) p.trapframe
      .epc (get m₁.mem p.trapframe .epc + 4) := by
  simp only [usertrapMem, h, handleSyscall] at handled
  rw [if_pos (by decide), Option.bind_eq_bind, Option.bind_eq_some_iff] at handled
  obtain ⟨a0, -, written⟩ := handled
  exact ⟨a0, (Option.some.inj written).symm⟩

/-- The interrupt handlers leave the trapframe as `uservec` wrote it. -/
theorem interrupt_mem (h : InUserMode mmu image p m) {cause : Word}
    (hc : cause = timerInterrupt ∨ cause = externalInterrupt) (tval : Word) :
    ∃ mem, usertrapMem p k (run mmu uservec (m.trap cause tval)) = some mem ∧
      ∀ f, get mem p.trapframe f = get (entryMem p m) p.trapframe f := by
  obtain ⟨mem, -, scause, -⟩ := uservec_run cause tval h
  rcases hc with rfl | rfl
  · exact ⟨_, usertrapMem_timer scause, by rw [mem]; exact k.timer.keeps _⟩
  · exact ⟨_, usertrapMem_external scause, by rw [mem]; exact k.externalInterrupt.keeps _⟩

/-- After an interrupt every register but `t0` and the program counter are as before, and `t0` is
the `sstatus` that `uservec` saved. -/
theorem interrupt_resumes (h : InUserMode mmu image p m) {cause : Word}
    (hc : cause = timerInterrupt ∨ cause = externalInterrupt) (tval : Word) :
    ∃ m', roundTrip mmu image p k m cause tval = some m' ∧ m'.mode = .user ∧ m'.pc = m.pc ∧
      m'.reg .t0 = trapSstatus (m.csr .sstatus) ∧ ∀ r ≠ .t0, m'.reg r = m.reg r := by
  obtain ⟨mem, handled, same⟩ := interrupt_mem (k := k) h hc tval
  have back := usertrapret_resumes (k := k) h (run mmu uservec (m.trap cause tval)) mem
  refine ⟨_, by rw [roundTrip_eq h, handled]; rfl, ?_, ?_, ?_, fun r hr => ?_⟩
  · exact back.mode (by rw [same, entryMem_sstatus, trapSstatus_spp])
  · rw [back.pc, same, entryMem_epc]
  · rw [back.t0, same, entryMem_sstatus]
  · rw [back.reg r hr, same, entryMem_reg]

/-- After a system call that comes back, the registers but `a0` and `t0` are as before, the
program counter is past the `ecall`, and `t0` is the saved `sstatus`. -/
theorem ecall_resumes (h : InUserMode mmu image p m) {tval : Word} {m' : Machine}
    (back : roundTrip mmu image p k m userEcall tval = some m') :
    m'.mode = .user ∧ m'.pc = m.pc + 4 ∧ m'.reg .t0 = trapSstatus (m.csr .sstatus) ∧
      ∀ r, r ≠ .t0 → r ≠ .a0 → m'.reg r = m.reg r := by
  obtain ⟨mem, -, scause, -⟩ := uservec_run userEcall tval h
  rw [roundTrip_eq h, Option.map_eq_some_iff] at back
  obtain ⟨after, handled, rfl⟩ := back
  have resumed := usertrapret_resumes (k := k) h (run mmu uservec (m.trap userEcall tval)) after
  obtain ⟨a0, written⟩ := usertrapMem_ecall scause handled
  rw [mem] at written
  have frame : ∀ f, f ≠ .epc → f ≠ .reg .a0 →
      get after p.trapframe f = get (entryMem p m) p.trapframe f := by
    intro f hepc ha0
    rw [written, get_set_ne _ _ _ hepc, get_set_ne _ _ _ ha0, k.callees.effect.keeps]
  refine ⟨?_, ?_, ?_, fun r ht0 ha0 => ?_⟩
  · refine resumed.mode ?_
    rw [frame _ (by simp) (by simp), entryMem_sstatus, trapSstatus_spp]
  · rw [resumed.pc, written, get_set_same, entryMem_epc]
  · rw [resumed.t0, frame _ (by simp) (by simp), entryMem_sstatus]
  · rw [resumed.reg r ht0, frame _ (by simp) (by simpa using ha0), entryMem_reg]

/-- A trap is transparent to user code exactly when the user's `t0` is the `sstatus` that
`uservec` saves: for interrupts, and for every system call that comes back. -/
theorem trap_transparent_iff (h : InUserMode mmu image p m) :
    (∀ cause, cause = timerInterrupt ∨ cause = externalInterrupt → ∀ tval,
      ∃ m', roundTrip mmu image p k m cause tval = some m' ∧
        (Transparent m m' ↔ m.reg .t0 = trapSstatus (m.csr .sstatus))) ∧
    ∀ tval m', roundTrip mmu image p k m userEcall tval = some m' →
      (TransparentCall m m' ↔ m.reg .t0 = trapSstatus (m.csr .sstatus)) := by
  constructor
  · intro cause hc tval
    obtain ⟨m', back, mode, pc, t0, reg⟩ := interrupt_resumes (k := k) h hc tval
    refine ⟨m', back, fun same => by rw [← same.reg, t0], fun eq => ⟨mode, pc, fun r => ?_⟩⟩
    by_cases hr : r = .t0
    · rw [hr, t0, eq]
    · exact reg r hr
  · intro tval m' back
    obtain ⟨mode, pc, t0, reg⟩ := ecall_resumes h back
    refine ⟨fun same => by rw [← same.reg .t0 (by decide), t0],
      fun eq => ⟨mode, pc, fun r ha0 => ?_⟩⟩
    by_cases hr : r = .t0
    · rw [hr, t0, eq]
    · exact reg r hr ha0

end RoundTrip

/-! ### A process in user mode -/

/-- A process whose trapframe is the page at `0x80200000`. -/
def sampleProc : Proc := ⟨0x80200000, 0x80300000⟩

def sampleImage : Image := ⟨0x80001000, 0x80002000, 0x80002000, 0x80002090⟩

def sampleMmu : Mmu := fun _ _ => sampleProc.trapframe

/-- User code with `t0` as given, interrupts enabled and every other register 0. -/
def sampleUser (t0 : Word) : Machine where
  mode := .user
  pc := 0x10000
  reg := fun r => if r = .t0 then t0 else 0
  csr
    | .satp => makeSatp sampleProc.pagetable
    | .stvec => sampleImage.uservecVa
    | .sscratch => TRAPFRAME
    | .sstatus => SIE
    | _ => 0
  mem := fun _ off => if off = Field.usertrap.offset then sampleImage.usertrap else 0

def sampleKernel : Kernel sampleProc.trapframe where
  callees :=
    { effect := .skip _, copyinstr := 0, checkUserAddr := 0, strlen := 0, forkProc := 1
      waitProc := some 1, copyout := 0, yield := some (), pid := 1, ppid := 0, getTime := 0
      kerOpen := some 3, kerClose := some 0, kerRead := some 0, kerWrite := some 0
      kerUnlink := some 0 }
  timer := .skip _
  externalInterrupt := .skip _
  handleException := fun _ _ => none
  scratch := fun _ => 0

theorem sampleUser_inUserMode (t0 : Word) :
    InUserMode sampleMmu sampleImage sampleProc (sampleUser t0) :=
  ⟨rfl, rfl, rfl, rfl, rfl, rfl⟩

theorem trap_transparent_sample :
    InUserMode sampleMmu sampleImage sampleProc (sampleUser SPIE) ∧
    ∃ m', roundTrip sampleMmu sampleImage sampleProc sampleKernel (sampleUser SPIE) timerInterrupt 0
        = some m' ∧
      (Transparent (sampleUser SPIE) m' ↔
        (sampleUser SPIE).reg .t0 = trapSstatus ((sampleUser SPIE).csr .sstatus)) :=
  ⟨sampleUser_inUserMode SPIE,
    (trap_transparent_iff (sampleUser_inUserMode SPIE)).1 timerInterrupt (.inl rfl) 0⟩

/-- A timer interrupt with 7 in the user's `t0` resumes with 32, the saved `sstatus`, in `t0`. -/
theorem timer_interrupt_clobbers_t0 :
    ∃ m', InUserMode sampleMmu sampleImage sampleProc (sampleUser 7) ∧
      roundTrip sampleMmu sampleImage sampleProc sampleKernel (sampleUser 7) timerInterrupt 0
        = some m' ∧
      (sampleUser 7).reg .t0 = 7 ∧ m'.reg .t0 = 32 ∧ ¬ Transparent (sampleUser 7) m' := by
  obtain ⟨m', back, -, -, t0, -⟩ := interrupt_resumes (k := sampleKernel)
    (sampleUser_inUserMode 7) (.inl rfl : timerInterrupt = timerInterrupt ∨ _) 0
  have clobbered : m'.reg .t0 = 32 := t0.trans (by decide)
  refine ⟨m', sampleUser_inUserMode 7, back, rfl, clobbered, fun same => ?_⟩
  have kept := same.reg .t0
  rw [clobbered] at kept
  exact absurd kept (by decide)

end Xv6Lab.Trap

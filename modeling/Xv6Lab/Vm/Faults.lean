import Mathlib.Tactic.IntervalCases
import Xv6Lab.Vm.Supply
import Xv6Lab.Vm.System
import Xv6Lab.Vm.Walk

/-! Exceptions of a user process: `handle_exception` and `usertrap` of `trap.c`, and when they
leave the harm with the process that trapped. -/

namespace Xv6Lab.Vm

open Rv64 Sv39 Exec Relation
open Trap (PGSIZE TRAMPOLINE TRAPFRAME Field TrapInfo)

/-! ### `trap.c` -/

/-- `set_sepc` -/
def setSepc (tf v : Word) : K Unit := storeField tf .epc v

/-- The byte at a physical address. -/
def loadByte (mem : Mem) (pa : Word) : BitVec 8 :=
  byteAt (mem (BitVec.ofNat 64 (pa.toNat / 4096 * 4096))) (pa.toNat % 4096)

/-- `copyin` from byte `i` on, with `left` bytes to go: what it returns, and what is at `dst`. -/
def copyinFrom (mem : Mem) (pt srcva : Word) : (left i : Nat) → (dst : Nat → BitVec 8) →
    Int × (Nat → BitVec 8)
  | 0, _, dst => (0, dst)
  | left + 1, i, dst =>
    let pa := userVa2pa mem pt (srcva + BitVec.ofNat 64 i)
    if pa = 0 then (-1, dst)
    else
      let dst := Function.update dst i (loadByte mem pa)
      if dst i = 0 then (0, dst) else copyinFrom mem pt srcva left (i + 1) dst

/-- `copyin` -/
def copyin (mem : Mem) (pt : Word) (dst : Nat → BitVec 8) (srcva : Word) (maxlen : Nat) :
    Int × (Nat → BitVec 8) :=
  copyinFrom mem pt srcva maxlen 0 dst

/-- `check_is_mapped`, which asks the kernel's page table. -/
def checkIsMapped (s : Kernel) (va : Word) : Bool :=
  ((walkLookup s.mem s.kernelPagetable va).filter fun pte => pte.read s.mem &&& V ≠ 0).isSome

/-- An integer division, by its opcode and `funct3`. -/
def isDivision (instruction : BitVec 32) : Bool :=
  let opcode := instruction &&& 0x7f
  let funct3 := (instruction >>> 12) &&& 0x7
  opcode = 0x33 && (funct3 = 0x4 || funct3 = 0x5 || funct3 = 0x6 || funct3 = 0x7)

/-- `handle_exception` where a user process exits and a kernel process skips the instruction. -/
def exitOrSkip (p : Slot) (tf : Word) (info : TrapInfo) : K Unit := do
  let s ← get
  if (s.procs p).isUser then
    exitProc (-1)
  setSepc tf (info.sepc + 4)

/-- `handle_exception` of an illegal instruction.  `junk` is what the four bytes of `instruction`
hold before `copyin`. -/
def illegalInstruction (junk : Nat → BitVec 8) (p : Slot) (tf : Word) (info : TrapInfo) : K Unit := do
  let s ← get
  let (r, bytes) := copyin s.mem (s.procs p).pagetable junk info.sepc 4
  if r = 0 ∧ isDivision (bytes 3 ++ bytes 2 ++ bytes 1 ++ bytes 0) then
    exitProc (-1)
  else
    exitOrSkip p tf info

/-- `handle_exception` of an access fault. -/
def accessFault (type : Access) (tf : Word) (info : TrapInfo) : K Unit := do
  let s ← get
  if checkIsMapped s info.stval then
    let handled ← handlePageFault info.stval type
    if handled ≠ 0 then
      pure ()
    else
      setSepc tf (info.sepc + 4)
  else
    setSepc tf (info.sepc + 4)

/-- What the three handlers of page faults share. -/
def handleFault (type : Access) (unhandled : String) (info : TrapInfo) : K Unit := do
  let handled ← handlePageFault info.stval type
  if handled ≠ 0 then
    pure ()
  else
    panic unhandled

/-- `handle_instruction_page_fault` -/
def handleInstructionPageFault : TrapInfo → K Unit :=
  handleFault .fetch "Unhandled instruction page fault"

/-- `handle_load_page_fault` -/
def handleLoadPageFault : TrapInfo → K Unit :=
  handleFault .load "Unhandled load page fault"

/-- `handle_store_page_fault` -/
def handleStorePageFault : TrapInfo → K Unit :=
  handleFault .store "Unhandled store page fault"

/-- The handlers that `usertrap` calls besides those of exceptions: `handle_syscall`, and what
`timer` and device interrupts run. -/
structure Handlers where
  handleSyscall : Word → TrapInfo → K Unit
  interrupt : Word → K Unit

/-- `handle_exception` for process `p`. -/
def handleException (h : Handlers) (junk : Nat → BitVec 8) (p : Slot) (tf : Word) (info : TrapInfo) :
    K Unit := do
  let s ← get
  match info.scause.toNat with
  | 0 => exitOrSkip p tf info -- instruction address misaligned
  | 1 => exitOrSkip p tf info -- instruction access fault
  | 2 => illegalInstruction junk p tf info
  | 3 => setSepc tf (info.sepc + 4) -- breakpoint
  | 4 => exitOrSkip p tf info -- load address misaligned
  | 5 => accessFault .load tf info
  | 6 => exitOrSkip p tf info -- store address misaligned
  | 7 => accessFault .store tf info
  | 8 => if (s.procs p).isUser then h.handleSyscall tf info else pure ()
  | 9 => setSepc tf (info.sepc + 4) -- environment call of the supervisor
  | 12 => handleInstructionPageFault info
  | 13 => handleLoadPageFault info
  | 15 => handleStorePageFault info
  | _ => panic "Unknown exception"

/-- `usertrap` for process `p`.  `usertrapret`, with which it ends, loads registers and goes back to
user mode. -/
def usertrap (h : Handlers) (junk : Nat → BitVec 8) (p : Slot) (scause stval : Word) : K Unit := do
  let s ← get
  let tf := (s.procs p).trapframe
  let info : TrapInfo :=
    { sepc := Trap.get s.mem tf .epc, sstatus := Trap.get s.mem tf .sstatus, scause, stval }
  let code := scause &&& 0xff
  let isIntr := scause >>> 63
  if isIntr = 0 ∧ code = 8 then
    h.handleSyscall tf info
  else if isIntr ≠ 0 then
    h.interrupt code
  else
    handleException h junk p tf info

/-! ### Containment -/

/-- All page tables but that of process `p` are as they were. -/
structure OthersKept (p : Slot) (s t : Kernel) : Prop where
  kernelPagetable : t.kernelPagetable = s.kernelPagetable
  kernel : TableKept s.kernelPagetable s t
  pagetable : ∀ q ≠ p, (t.procs q).pagetable = (s.procs q).pagetable
  others : ∀ q ≠ p, s.live q → TableKept (s.procs q).pagetable s t

/-- The process goes on. -/
def Resumed (p : Slot) (s : Kernel) (_ : Unit) (t : Kernel) : Prop :=
  t.current = some p ∧ (t.procs p).state = .running ∧ OthersKept p s t

/-- `exit_proc` has ended the process; the machine shuts down with a process that has no parent. -/
def Ended (p : Slot) (s : Kernel) (e : Halt) (t : Kernel) : Prop :=
  ((e = .exited ∧ t.current = none ∧ (t.procs p).state = .zombie) ∨
    (e = .shutdown ∧ (s.procs p).parent = none)) ∧ OthersKept p s t

/-- The handler resumes process `p` or ends it, without a panic and without a change to the page
tables of others. -/
def Contained (p : Slot) (handler : K Unit) (s : Kernel) : Prop :=
  wp handler (Resumed p s) (Ended p s) s

/-- The page faults of process `p` that are repaired: at an address of the user's half above the
first page, where the page lacks a permission that the access needs, or is not mapped and there are
pages for it and for the tables on the way to it. -/
def Repairable (s : Kernel) (p : Slot) (va : Word) (type : Access) : Prop :=
  PGSIZE ≤ va ∧ va < USER_LIMIT ∧
    match translate s.mem (s.procs p).pagetable (pageStart va) with
    | some e => e &&& (R ||| W ||| X) &&& type.perm ≠ type.perm
    | none => ∃ l, Chain s.mem s.freelist l ∧
      missing s.mem (s.procs p).pagetable (pageStart va) < l.length

/-- The exceptions that are contained, by cause. -/
def Harmless (h : Handlers) (p : Slot) (s : Kernel) (scause stval : Word) : Prop :=
  match scause.toNat with
  | 0 | 1 | 2 | 3 | 4 | 6 | 9 => True
  | 5 => checkIsMapped s stval = true → Repairable s p stval .load
  | 7 => checkIsMapped s stval = true → Repairable s p stval .store
  | 8 =>
    let tf := (s.procs p).trapframe
    Contained p (h.handleSyscall tf ⟨Trap.get s.mem tf .epc, Trap.get s.mem tf .sstatus, scause, stval⟩) s
  | 12 => Repairable s p stval .fetch
  | 13 => Repairable s p stval .load
  | 15 => Repairable s p stval .store
  | _ => False

variable {s t u : Kernel} {o o' o'' : Owners} {h : Holder} {p q : Slot} {pg pt va : Word} {l : List Word}

/-! ### Page faults of a user process -/

theorem Spares.tableKept (spares : Spares (some p) s o t o') (w : Owns s o) {h : Holder}
    (other : h ≠ some p) (root : o pt = .table h []) : TableKept pt s t := by
  intro ds pg short walk
  have at_pg := label_eq.mp ((w.tree h).node (label_eq.mpr root) (by simpa using short) walk)
  exact (spares pg h other (.inl (by rw [at_pg]; exact rfl))).2

/-- Work on behalf of process `p` keeps the page tables of the others. -/
theorem Inv.othersKept (inv : Inv s o) (spares : Spares (some p) s o t o')
    (table : t.kernelPagetable = s.kernelPagetable)
    (procs : ∀ q ≠ p, (t.procs q).pagetable = (s.procs q).pagetable) : OthersKept p s t where
  kernelPagetable := table
  kernel := spares.tableKept inv.owns (by simp) inv.kernelRoot
  pagetable := procs
  others q ne live := by
    have alive := inv.alive q live
    cases user : (s.procs q).isUser with
    | true =>
      have other : some q ≠ some p := fun same => ne (Option.some.inj same)
      exact spares.tableKept inv.owns other (alive.user user).space.root
    | false =>
      rw [alive.kernel user]
      exact spares.tableKept inv.owns (by simp) inv.kernelRoot

/-- `raise_perm` succeeds exactly if a permission is missing. -/
theorem raisePerm_exact (pte : PteRef) (type : Access) (user : Bool) :
    wp (raisePerm pte type user)
      (fun r _ => r = 1 ∧ pte.read s.mem &&& (R ||| W ||| X) &&& type.perm ≠ type.perm)
      (fun e t => Panics e t ∧ pte.read s.mem &&& (R ||| W ||| X) &&& type.perm = type.perm) s := by
  unfold raisePerm
  simp only [wp_bind, wp_get]
  split
  · next lacking => exact ⟨rfl, lacking⟩
  · next enough => exact ⟨⟨_, rfl⟩, not_not.mp enough⟩

theorem pageStart_aligned (va : Word) : (pageStart va).toNat % 4096 = 0 := by
  have bound := va.isLt
  rw [pageStart, BitVec.toNat_ofNat]
  omega

/-- Addresses of the user's half are in range, and in the half that `handle_page_fault` allows. -/
theorem low_address (low : va < USER_LIMIT) : ¬ MAXVA ≤ pageStart va ∧
    ¬ ((true = true) ∧ USER_LIMIT ≤ va ∧ va ≠ TRAMPOLINE ∧ va ≠ TRAPFRAME) ∧
    ¬ (0xffffff0000000000 : Word) ≤ va := by
  have start := BitVec.lt_def.mp (pageStart_lt low)
  have lt := BitVec.lt_def.mp low
  have limit : USER_LIMIT.toNat = 2147483648 := by decide
  have max : MAXVA.toNat = 549755813888 := by decide
  refine ⟨fun above => ?_, fun kernel => ?_, fun above => ?_⟩
  · have := BitVec.le_def.mp above
    omega
  · exact absurd low (BitVec.not_lt.mpr kernel.2.1)
  · have top : (0xffffff0000000000 : Word).toNat = 18446742974197923840 := by decide
    have := BitVec.le_def.mp above
    omega

/-- A page fault at a page that is not mapped is repaired exactly if there are pages for it and for
its tables. -/
theorem demandPage_exact (w : Owns s o) (root : o pt = .table h []) (may : MayMap s va)
    (aligned : va.toNat % 4096 = 0) (type : Access) (user : Bool)
    (unset : translate s.mem pt va = none) (chain : Chain s.mem s.freelist l) :
    wp (demandPage pt va type user) (fun r _ => r = 1 ∧ missing s.mem pt va < l.length)
      (fun e t => Panics e t ∧ l.length ≤ missing s.mem pt va) s := by
  unfold demandPage
  rw [wp_bind]
  refine wp_mono (wp_and (allocPage_wp w) (allocPage_chain w chain)) ?_ ?_
  · rintro page t ⟨⟨free, w', quiet, away⟩, rest, rfl, chain', -⟩
    rw [if_neg (w.ne_zero (by simp [free]))]
    simp only [clearPage, wp_bind, wp_modify]
    have filled : Filled h page (.frame h (path va)) s o
        (t.setMem (Function.update t.mem page fun _ => 0)) :=
      w.fill w' free quiet away _ rfl (by simp)
    have may' : MayMap (t.setMem (Function.update t.mem page fun _ => 0)) va := by
      intro isUser
      apply may
      simpa [Kernel.userCurrent, quiet.procs, quiet.current] using isUser
    have unset' := (filled.translate _ _ root va).trans unset
    have root' : Function.update o page (.frame h (path va)) pt = .table h [] :=
      (filled.grows.known (by simp [root])).trans root
    have chain'' : Chain (Function.update t.mem page fun _ => 0) t.freelist rest := by
      refine w'.chain_setMem chain' fun pg unused => Function.update_of_ne ?_ ..
      rintro rfl
      simp at unused
    have tables : missing (t.setMem (Function.update t.mem page fun _ => 0)).mem pt va =
        missing s.mem pt va := by
      refine w.missing_congr root (fun pg ds at_pg => filled.others pg ?_) va
      rintro rfl
      rw [free] at at_pg
      cases at_pg
    have spec := wp_and (mapPage_wp filled.owns root' may' (faultPerm_facts type user).1)
      (mapPage_chain filled.owns root' may' aligned unset' page (faultPerm type user) chain'')
    rw [tables] at spec
    refine wp_mono spec ?_ ?_
    · rintro r u ⟨⟨rfl, -⟩, enough, -⟩
      rw [if_neg (by simp), wp_pure]
      exact ⟨rfl, Nat.lt_succ_of_le enough⟩
    · rintro e u ⟨-, panics, short⟩
      exact ⟨panics, short⟩
  · rintro e t ⟨-, panics, rfl⟩
    exact ⟨panics, Nat.zero_le _⟩

/-- What `handle_page_fault` does at a page of the user's half. -/
theorem handleMapping_exact (inv : Inv s o) (cur : s.current = some p) (user : UserProc s o p)
    (low : va < USER_LIMIT) (type : Access) (above : PGSIZE ≤ va) :
    wp (match (walkLookup s.mem (s.procs p).pagetable (pageStart va)).filter
          fun pte => pte.read s.mem &&& V ≠ 0 with
        | some pte => raisePerm pte type (true && pageStart va < USER_LIMIT)
        | none =>
          if (0xffffff0000000000 : Word) ≤ va then
            panic "Abnormally high address access"
          else
            demandPage (s.procs p).pagetable (pageStart va) type (true && pageStart va < USER_LIMIT))
      (fun r t => r = 1 ∧ Repairable s p va type ∧ Resumed p s () t)
      (fun e t => Panics e t ∧ ¬ Repairable s p va type) s := by
  have lowPage := pageStart_lt low
  have isUser : (true && decide (pageStart va < USER_LIMIT)) = true := by simp [lowPage]
  have root := user.space.root
  have translated := translate_of_walkLookup inv.owns root (pageStart va)
  obtain ⟨l, chain, -⟩ := inv.owns.free
  have resumed : ∀ {t o' e}, Fixed (some p) (s.procs p).pagetable (pageStart va) true s o t o' e →
      Resumed p s () t := by
    intro t o' e fixed
    have quiet := fixed.mapped.quiet
    refine ⟨quiet.current.trans cur, ?_, ?_⟩
    · rw [quiet.procs]
      exact inv.current p cur
    · exact inv.othersKept fixed.mapped.grows.spares quiet.kernelPagetable fun q _ => by
        rw [quiet.procs]
  rw [isUser]
  split
  · next pte found =>
    obtain ⟨is, valid⟩ := Option.filter_eq_some_iff.mp found
    have valid : pte.read s.mem &&& V ≠ 0 := by simpa using valid
    rw [is, Option.bind_some, if_neg valid] at translated
    have iff : Repairable s p va type ↔
        pte.read s.mem &&& (R ||| W ||| X) &&& type.perm ≠ type.perm := by
      simp only [Repairable, above, low, translated, true_and]
    rw [iff]
    refine wp_mono (wp_and (raisePerm_wp inv.owns root type true is valid)
      (raisePerm_exact pte type true)) ?_ ?_
    · rintro r t ⟨⟨o', e, fixed, -⟩, one, lacking⟩
      exact ⟨one, lacking, resumed fixed⟩
    · rintro e t ⟨-, panics, enough⟩
      exact ⟨panics, not_not.mpr enough⟩
  · next absent =>
    have unset : translate s.mem (s.procs p).pagetable (pageStart va) = none := by
      rw [translated]
      cases is : walkLookup s.mem (s.procs p).pagetable (pageStart va) with
      | none => rfl
      | some pte =>
        rw [is] at absent
        simpa [Option.filter] using absent
    have iff : Repairable s p va type ↔
        missing s.mem (s.procs p).pagetable (pageStart va) < l.length := by
      simp only [Repairable, above, low, unset, true_and]
      refine ⟨fun ⟨l', chain', enough⟩ => ?_, fun enough => ⟨l, chain, enough⟩⟩
      rwa [chain.unique chain']
    rw [iff, if_neg (low_address low).2.2]
    have may : MayMap s (pageStart va) := fun _ => .inl lowPage
    refine wp_mono (wp_and (demandPage_wp inv.owns root may type true unset fun _ => lowPage)
      (demandPage_exact inv.owns root may (pageStart_aligned va) type true unset chain)) ?_ ?_
    · rintro r t ⟨⟨o', e, fixed, -⟩, one, enough⟩
      exact ⟨one, enough, resumed fixed⟩
    · rintro e t ⟨-, panics, short⟩
      exact ⟨panics, Nat.not_lt.mpr short⟩

/-- `handle_page_fault` for a user process returns 1 if the fault can be repaired, and panics
otherwise. -/
theorem handlePageFault_exact (inv : Inv s o) (cur : s.current = some p)
    (isUser : (s.procs p).isUser = true) (va : Word) (type : Access) :
    wp (handlePageFault va type) (fun r t => r = 1 ∧ Repairable s p va type ∧ Resumed p s () t)
      (fun e t => Panics e t ∧ ¬ Repairable s p va type) s := by
  have live : (s.procs p).state ≠ .unused := by simp [inv.current p cur]
  have user := (inv.alive p live).user isUser
  have nonzero : (s.procs p).pagetable ≠ 0 := inv.owns.ne_zero (by simp [user.space.root])
  have table : s.faultTable = ((s.procs p).pagetable, true) := by
    simp only [Kernel.faultTable, cur, isUser]
    exact if_pos ⟨nonzero, trivial⟩
  have stop : ∀ msg : String, ¬ Repairable s p va type →
      wp (panic msg : K Int) (fun r t => r = 1 ∧ Repairable s p va type ∧ Resumed p s () t)
        (fun e t => Panics e t ∧ ¬ Repairable s p va type) s :=
    fun msg bad => ⟨⟨msg, rfl⟩, bad⟩
  unfold handlePageFault
  rw [wp_bind, wp_get, table]
  dsimp only
  split
  · next null =>
    refine stop _ fun within => ?_
    have above : PGSIZE ≤ va := within.1
    rw [null] at above
    exact absurd above (by decide)
  split
  · next below => exact stop _ fun within => absurd below (BitVec.not_lt.mpr within.1)
  next notNull notBelow =>
  have above : PGSIZE ≤ va := BitVec.not_lt.mp notBelow
  by_cases low : va < USER_LIMIT
  · obtain ⟨inRange, allowed, -⟩ := low_address low
    rw [if_neg inRange, if_neg allowed]
    exact handleMapping_exact inv cur user low type above
  · have bad : ¬ Repairable s p va type := fun within => low within.2.1
    split
    · exact stop _ bad
    split
    · exact stop _ bad
    next inRange notKernel =>
    -- the two special pages are out of range
    have high := BitVec.not_lt.mp low
    have special : va = TRAMPOLINE ∨ va = TRAPFRAME := by
      by_contra neither
      exact notKernel ⟨rfl, high, fun tramp => neither (.inl tramp),
        fun frame => neither (.inr frame)⟩
    rcases special with rfl | rfl <;> exact absurd (by decide) inRange

/-! ### The handlers -/

/-- The process is gone on without a change to any page table. -/
theorem setSepc_contained (inv : Inv s o) (cur : s.current = some p) (v : Word) :
    Contained p (setSepc (s.procs p).trapframe v) s := by
  have running := inv.current p cur
  have alive := inv.alive p (by simp [running])
  have mine : (o (s.procs p).trapframe).of (some p) := by
    rw [alive.trapframe]
    exact rfl
  exact ⟨cur, running, inv.othersKept (.store mine _ fun pg ne =>
    funext fun off => Mem.store_page _ _ _ _ ne) rfl fun _ _ => rfl⟩

/-- `exit_proc` of the current process. -/
theorem exitProc_ended {α : Type} (inv : Inv s o) (cur : s.current = some p) (status : Int)
    (Q : α → Kernel → Prop) : wp (exitProc status : K α) Q (Ended p s) s := by
  have kept : ∀ (proc : Proc) (current : Option Slot),
      OthersKept p s { s.setProc p proc with current := current } := fun proc current =>
    inv.othersKept (.refl (some p) s o) rfl fun q ne => by
      simp only [setProc_procs, Function.update_of_ne ne]
  unfold exitProc
  simp only [wp_bind, wp_get, cur, wp_set]
  split
  · next orphan => exact ⟨.inr ⟨rfl, orphan⟩, kept _ s.current⟩
  · next parent =>
    exact ⟨.inl ⟨rfl, rfl, by simp only [setProc_procs, Function.update_self]⟩, kept _ none⟩

theorem exitOrSkip_contained (inv : Inv s o) (cur : s.current = some p)
    (user : (s.procs p).isUser = true) (tf : Word) (info : TrapInfo) :
    Contained p (exitOrSkip p tf info) s := by
  unfold Contained exitOrSkip
  simp only [wp_bind, wp_get, user, if_true]
  exact exitProc_ended inv cur (-1) _

theorem illegalInstruction_contained (inv : Inv s o) (cur : s.current = some p)
    (user : (s.procs p).isUser = true) (junk : Nat → BitVec 8) (tf : Word) (info : TrapInfo) :
    Contained p (illegalInstruction junk p tf info) s := by
  unfold Contained illegalInstruction
  rw [wp_bind, wp_get]
  dsimp only
  split
  · exact exitProc_ended inv cur (-1) _
  · exact exitOrSkip_contained inv cur user tf info

/-- A handler that goes on after `handle_page_fault`: the result is never 0. -/
theorem repair_contained (inv : Inv s o) (cur : s.current = some p)
    (user : (s.procs p).isUser = true) (va : Word) (type : Access) (unhandled : K Unit) :
    Contained p (handlePageFault va type >>= fun handled =>
      if handled ≠ 0 then pure () else unhandled) s ↔ Repairable s p va type := by
  apply wp_iff
  rw [wp_bind]
  refine wp_mono (handlePageFault_exact inv cur user va type) ?_ ?_
  · rintro r t ⟨rfl, can, resumed⟩
    exact ⟨can, resumed⟩
  · rintro e t ⟨⟨msg, rfl⟩, cannot⟩
    refine ⟨cannot, ?_⟩
    rintro ⟨(⟨is, -⟩ | ⟨is, -⟩), -⟩ <;> cases is

theorem accessFault_contained (inv : Inv s o) (cur : s.current = some p)
    (user : (s.procs p).isUser = true) (type : Access) (info : TrapInfo) :
    Contained p (accessFault type (s.procs p).trapframe info) s ↔
      (checkIsMapped s info.stval = true → Repairable s p info.stval type) := by
  unfold Contained accessFault
  rw [wp_bind, wp_get]
  split
  · next mapped =>
    exact (repair_contained inv cur user info.stval type _).trans
      ⟨fun can _ => can, fun can => can mapped⟩
  · next unmapped =>
    exact ⟨fun _ mapped => absurd mapped unmapped,
      fun _ => setSepc_contained inv cur (info.sepc + 4)⟩

/-- What `usertrap` passes on. -/
def Kernel.trapInfo (s : Kernel) (p : Slot) (scause stval : Word) : TrapInfo :=
  ⟨Trap.get s.mem (s.procs p).trapframe .epc, Trap.get s.mem (s.procs p).trapframe .sstatus,
    scause, stval⟩

/-- A synchronous exception is a system call or goes to `handle_exception`. -/
theorem usertrap_sync (hs : Handlers) (junk : Nat → BitVec 8) {scause : Word}
    (sync : scause.toNat < 16) (stval : Word) :
    Contained p (usertrap hs junk p scause stval) s ↔
      Contained p (if scause.toNat = 8 then
          hs.handleSyscall (s.procs p).trapframe (s.trapInfo p scause stval)
        else handleException hs junk p (s.procs p).trapframe (s.trapInfo p scause stval)) s := by
  have notIntr : scause >>> 63 = 0 := by
    apply BitVec.eq_of_toNat_eq
    have zero : (0 : Word).toNat = 0 := rfl
    rw [BitVec.toNat_ushiftRight, Nat.shiftRight_eq_div_pow, zero]
    omega
  have code : scause &&& 0xff = 8 ↔ scause.toNat = 8 := by
    have low : scause &&& 0xff = scause := by
      apply BitVec.eq_of_toNat_eq
      rw [BitVec.toNat_and]
      exact (Nat.and_two_pow_sub_one_eq_mod _ 8).trans (Nat.mod_eq_of_lt (by omega))
    rw [low]
    exact ⟨fun is => by rw [is]; rfl, fun is => BitVec.eq_of_toNat_eq is⟩
  unfold Contained usertrap
  rw [wp_bind, wp_get]
  dsimp only
  simp only [notIntr, code, true_and, ne_eq, not_true_eq_false, if_false]
  exact Iff.rfl

/-- An exception that a user process raises is contained exactly if it is harmless. -/
theorem usertrap_contained_iff (reach : Reachable s) (cur : s.current = some p)
    (user : (s.procs p).isUser = true) (hs : Handlers) (junk : Nat → BitVec 8) {scause : Word}
    (sync : scause.toNat < 16) (stval : Word) :
    Contained p (usertrap hs junk p scause stval) s ↔ Harmless hs p s scause stval := by
  obtain ⟨o, inv⟩ := reach.inv
  rw [usertrap_sync hs junk sync]
  by_cases call : scause.toNat = 8
  · rw [if_pos call]
    unfold Harmless
    rw [call]
    exact Iff.rfl
  rw [if_neg call]
  set info := s.trapInfo p scause stval with is
  have cause : info.scause = scause := rfl
  have address : info.stval = stval := rfl
  have exits := exitOrSkip_contained inv cur user (s.procs p).trapframe info
  have skips := setSepc_contained inv cur (info.sepc + 4)
  have fault := fun type msg (info : TrapInfo) =>
    repair_contained inv cur user info.stval type (panic msg)
  have unknown : ¬ wp (panic "Unknown exception" : K Unit) (Resumed p s) (Ended p s) s := by
    rintro ⟨(⟨is, -⟩ | ⟨is, -⟩), -⟩ <;> cases is
  unfold Contained handleException Harmless
  rw [wp_bind, wp_get, cause]
  clear_value info
  generalize scause.toNat = n at sync call ⊢
  interval_cases n
  · exact iff_of_true exits trivial
  · exact iff_of_true exits trivial
  · exact iff_of_true (illegalInstruction_contained inv cur user junk _ info) trivial
  · exact iff_of_true skips trivial
  · exact iff_of_true exits trivial
  · exact address ▸ accessFault_contained inv cur user .load info
  · exact iff_of_true exits trivial
  · exact address ▸ accessFault_contained inv cur user .store info
  · exact absurd rfl call
  · exact iff_of_true skips trivial
  · exact iff_of_false unknown not_false
  · exact iff_of_false unknown not_false
  · exact address ▸ fault .fetch _ info
  · exact address ▸ fault .load _ info
  · exact iff_of_false unknown not_false
  · exact address ▸ fault .store _ info

/-! ### Faults of a small machine -/

/-- `handle_syscall` of an unknown call, and interrupts that do nothing. -/
def unknownCall : Handlers where
  handleSyscall tf info := do
    storeField tf (.reg .a0) (-1)
    setSepc tf (info.sepc + 4)
  interrupt _ := pure ()

theorem usertrap_contained_iff_heap :
    (Contained 0 (usertrap unknownCall (fun _ => 0) 0 15 0x400008) sampleStarted ↔
      Harmless unknownCall 0 sampleStarted 15 0x400008) ∧
    value (usertrap unknownCall (fun _ => 0) 0 15 0x400008) sampleStarted = some () := by
  have current : sampleStarted.current = some 0 ∧ (sampleStarted.procs 0).isUser = true := by
    decide +kernel
  have reach : Reachable sampleStarted := ⟨_, sampleBoot_booted, sampleStarted_run⟩
  exact ⟨usertrap_contained_iff reach current.1 current.2 unknownCall (fun _ => 0) (by decide)
    0x400008, by decide +kernel⟩

/-- A store through a null pointer stops the machine. -/
theorem null_store_panics : Reachable sampleStarted ∧ sampleStarted.current = some 0 ∧
    (sampleStarted.procs 0).isUser = true ∧
    ¬ Contained 0 (usertrap unknownCall (fun _ => 0) 0 15 0) sampleStarted := by
  have current : sampleStarted.current = some 0 ∧ (sampleStarted.procs 0).isUser = true := by
    decide +kernel
  refine ⟨⟨_, sampleBoot_booted, sampleStarted_run⟩, current.1, current.2, ?_⟩
  have stops : (match usertrap unknownCall (fun _ => 0) 0 15 0 sampleStarted with
      | .ok _ _ => false
      | .error e _ => decide (e = .panic "Null pointer dereference")) = true := by
    decide +kernel
  unfold Contained wp
  cases run : usertrap unknownCall (fun _ => 0) 0 15 0 sampleStarted with
  | ok a t =>
    rw [run] at stops
    cases stops
  | error e t =>
    rw [run] at stops
    obtain rfl := of_decide_eq_true stops
    rintro ⟨(⟨is, -⟩ | ⟨is, -⟩), -⟩ <;> cases is

end Xv6Lab.Vm

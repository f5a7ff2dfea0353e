import Xv6Lab.Vm.System

/-! Runs as histories.  The steps of the machine carry labels that say what a call returned, and
one lemma says what each labelled step does to the process table. -/

namespace Xv6Lab.Vm

open Rv64 Sv39 Exec Relation
open Trap (Field)

/-- What happens in a step, as far as processes can tell. -/
inductive Act
  | createKernelProc (r : Int)
  | createUserProc (r : Int)
  | fork (p : Slot) (r : Int)
  | exit (p : Slot) (status : Int)
  | wait (p : Slot) (r : Option (Int × Int))
  | pageFault (va : Word)
  | other

/-- The steps of the machine with their labels. -/
inductive Acts : Act → Kernel → Kernel → Prop
  | createKernelProc {s t} (entry : Word) (r : Int) (run : createKernelProc entry s = .ok r t) :
      Acts (.createKernelProc r) s t
  | createUserProc {s t} (userBin : Nat → BitVec 8) (binSize : Nat) (fits : binSize ≤ 4096)
      (usertrap kernelvec : Word) (r : Int)
      (run : createUserProc userBin binSize usertrap kernelvec s = .ok r t) :
      Acts (.createUserProc r) s t
  | fork {s t u} (p : Slot) (cur : s.current = some p) (user : (s.procs p).isUser) (r : Int)
      (child : forkProc p s = .ok r u) (run : sysFork p s = .ok () t) : Acts (.fork p r) s t
  | exit {s t} (p : Slot) (cur : s.current = some p) (status : Int)
      (run : (exitProc status : K Unit) s = .error .exited t) : Acts (.exit p status) s t
  | wait {s t} (p : Slot) (cur : s.current = some p) (r : Option (Int × Int))
      (run : reapZombie p s = .ok r t) : Acts (.wait p r) s t
  | pageFault {s t} (va : Word) (type : Access) (r : Int)
      (run : handlePageFault va type s = .ok r t) : Acts (.pageFault va) s t
  | dispatch {s} (p : Slot) (idle : s.current = none) (ready : (s.procs p).state = .runnable) :
      Acts .other s { s.setProc p { s.procs p with state := .running } with current := some p }
  | yield {s} (p : Slot) (cur : s.current = some p) :
      Acts .other s { s.setProc p { s.procs p with state := .runnable } with current := none }
  | sleep {s} (p : Slot) (cur : s.current = some p) :
      Acts .other s { s.setProc p { s.procs p with state := .sleeping } with current := none }
  | wakeup {s} (p : Slot) (asleep : (s.procs p).state = .sleeping) :
      Acts .other s (s.setProc p { s.procs p with state := .runnable })
  | kill {s} (p : Slot) : Acts .other s (s.setProc p { s.procs p with killed := true })
  | trapframe {s} (p : Slot) (cur : s.current = some p) (f : Field) (user : savedField f) (v : Word) :
      Acts .other s (s.setMem (Trap.set s.mem (s.procs p).trapframe f v))
  | store {s} (p : Slot) (cur : s.current = some p) (user : (s.procs p).isUser) (va off v : Word)
      (pte : PteRef) (found : walkLookup s.mem (s.procs p).pagetable va = some pte)
      (valid : pte.read s.mem &&& V ≠ 0) (mine : pte.read s.mem &&& U ≠ 0) :
      Acts .other s (s.setMem (s.mem.store (pte2pa (pte.read s.mem)) off v))

variable {s t u : Kernel} {o o' : Owners} {a : Act} {p q z : Slot}

/-- Labelled steps are steps. -/
theorem Acts.step (act : Acts a s t) : Step s t := by
  cases act with
  | createKernelProc entry r run => exact .createKernelProc entry (.inl ⟨r, run⟩)
  | createUserProc bin size fits usertrap kernelvec r run =>
    exact .createUserProc bin size fits usertrap kernelvec (.inl ⟨r, run⟩)
  | fork p cur user r child run => exact .fork p cur user (.inl ⟨_, run⟩)
  | exit p cur status run => exact .exit status (.inr run)
  | wait p cur r run => exact .wait p cur (.inl ⟨r, run⟩)
  | pageFault va type r run => exact .pageFault va type (.inl ⟨r, run⟩)
  | dispatch p idle ready => exact .dispatch p idle ready
  | yield p cur => exact .yield p cur
  | sleep p cur => exact .sleep p cur
  | wakeup p asleep => exact .wakeup p asleep
  | kill p => exact .kill p
  | trapframe p cur f user v => exact .trapframe p cur f user v
  | store p cur user va off v pte found valid mine =>
    exact .store p cur user va off v pte found valid mine

/-- What `SYS_fork` does after `fork_proc` has returned. -/
theorem sysFork_ok {r : Int} (run : forkProc p s = .ok r t) : sysFork p s = .ok ()
    (t.setMem (Trap.set (Trap.set t.mem (s.procs p).trapframe (.reg .a0) (BitVec.ofInt 64 r))
      (s.procs p).trapframe .epc (Trap.get s.mem (s.procs p).trapframe .epc + 4))) := by
  unfold sysFork
  rw [bind_get, bind_ok run]
  rfl

/-- A call that cannot exit in the middle returns. -/
theorem returns_of_wp {α : Type} {x : K α} {Q : α → Kernel → Prop} (spec : wp x Q Panics s)
    (run : Ends x s t) : ∃ r, x s = .ok r t := by
  rcases run with ⟨r, run⟩ | run
  · exact ⟨r, run⟩
  · obtain ⟨msg, impossible⟩ := wp_error spec run
    cases impossible

/-- Every step of a state in order has a label. -/
theorem Inv.acts (inv : Inv s o) (step : Step s t) : ∃ a, Acts a s t := by
  cases step with
  | createKernelProc entry run =>
    obtain ⟨r, run⟩ := returns_of_wp (createKernelProc_wp inv entry) run
    exact ⟨_, .createKernelProc entry r run⟩
  | createUserProc bin size fits usertrap kernelvec run =>
    obtain ⟨r, run⟩ := returns_of_wp (createUserProc_wp inv bin fits usertrap kernelvec) run
    exact ⟨_, .createUserProc bin size fits usertrap kernelvec r run⟩
  | fork p cur user run =>
    obtain ⟨_, run⟩ := returns_of_wp (sysFork_wp inv cur user) run
    obtain ⟨r, u, child⟩ : ∃ r u, forkProc p s = .ok r u := by
      have whole : wp (sysFork p) (fun _ _ => ∃ r u, forkProc p s = .ok r u) (fun _ _ => True) s := by
        unfold sysFork
        simp only [wp_bind, wp_get]
        unfold wp
        cases forkProc p s with
        | ok r u => exact ⟨r, u, rfl⟩
        | error e u => trivial
      exact wp_ok whole run
    exact ⟨_, .fork p cur user r child run⟩
  | exit status run =>
    rcases run with ⟨_, run⟩ | run
    · exact (wp_ok (exitProc_wp status) run).elim
    · obtain ⟨p, cur, -⟩ := exitProc_ends (.inr run)
      exact ⟨_, .exit p cur status run⟩
  | wait p cur run =>
    have spec : wp (reapZombie p) _ Panics s :=
      wp_mono (reapZombie_wp inv p) (fun _ _ h => h) fun _ _ impossible => impossible.elim
    obtain ⟨r, run⟩ := returns_of_wp spec run
    exact ⟨_, .wait p cur r run⟩
  | pageFault va type run =>
    obtain ⟨r, run⟩ := returns_of_wp (handlePageFault_wp inv va type) run
    exact ⟨_, .pageFault va type r run⟩
  | dispatch p idle ready => exact ⟨_, .dispatch p idle ready⟩
  | yield p cur => exact ⟨_, .yield p cur⟩
  | sleep p cur => exact ⟨_, .sleep p cur⟩
  | wakeup p asleep => exact ⟨_, .wakeup p asleep⟩
  | kill p => exact ⟨_, .kill p⟩
  | trapframe p cur f user v => exact ⟨_, .trapframe p cur f user v⟩
  | store p cur user va off v pte found valid mine =>
    exact ⟨_, .store p cur user va off v pte found valid mine⟩

/-! ### What a step does to the process table -/

/-- The two records describe the same stage of the same life. -/
structure SameLife (a b : Proc) : Prop extends SameProc a b where
  zombie : a.state = .zombie ↔ b.state = .zombie
  parent : a.parent = b.parent
  pid : a.pid = b.pid
  exitStatus : a.exitStatus = b.exitStatus

theorem SameLife.refl (a : Proc) : SameLife a a := ⟨.refl a, .rfl, rfl, rfl, rfl⟩

/-- The slot `z` has been given up; no other slot has changed. -/
structure Vanished (z : Slot) (s t : Kernel) : Prop where
  others : ∀ q ≠ z, t.procs q = s.procs q
  unused : (t.procs z).state = .unused
  current : t.current = s.current

/-- A call that creates a process: it fails and leaves the table alone, or fills a slot. -/
def Born (r : Int) (s t : Kernel) : Prop :=
  (r = -1 ∧ t.procs = s.procs) ∨ ∃ c : Slot, r = c.val ∧ Spawned c s t

def Effect : Act → Kernel → Kernel → Prop
  | .createKernelProc r, s, t | .createUserProc r, s, t | .fork _ r, s, t => Born r s t
  | .exit p status, s, t => s.current = some p ∧ t = s.exited p status
  | .wait _ none, s, t => t = s
  | .wait p (some (pid, status)), s, t => s.current = some p ∧ ∃ z, s.zombieChild p = some z ∧
      pid = (s.procs z).pid ∧ status = (s.procs z).exitStatus ∧ Vanished z s t
  | .pageFault _, s, t | .other, s, t => ∀ p, SameLife (t.procs p) (s.procs p)

theorem SameLife.assign (same : SameLife proc (s.procs p)) (q : Slot) :
    SameLife ((s.setProc p proc).procs q) (s.procs q) := by
  by_cases here : q = p
  · subst here
    simpa using same
  · rw [setProc_procs, Function.update_of_ne here]
    exact .refl _

/-- Every step has the effect that its label says. -/
theorem Acts.effect (act : Acts a s t) (inv : Inv s o) : Effect a s t := by
  cases act with
  | createKernelProc entry r run =>
    rcases wp_ok (createKernelProc_wp inv entry) run with ⟨failed, rfl⟩ | ⟨c, is, o', created, -⟩
    · exact .inl ⟨failed, rfl⟩
    · exact .inr ⟨c, is, created.spawned⟩
  | createUserProc bin size fits usertrap kernelvec r run =>
    rcases wp_ok (createUserProc_wp inv bin fits usertrap kernelvec) run with
      ⟨failed, rfl⟩ | ⟨c, is, o', created⟩
    · exact .inl ⟨failed, rfl⟩
    · exact .inr ⟨c, is, created.spawned⟩
  | fork p cur user r child run =>
    have after := sysFork_ok child
    rw [run] at after
    injection after with _ after
    subst after
    rcases wp_ok (forkProc_wp inv cur user) child with ⟨failed, rfl⟩ | ⟨c, is, o', forked⟩
    · exact .inl ⟨failed, rfl⟩
    · have spawned := forked.spawned
      exact .inr ⟨c, is, spawned.1, spawned.2, spawned.3, spawned.4, spawned.5, spawned.6⟩
  | exit p cur status run =>
    obtain ⟨q, cur', is⟩ := exitProc_ends (.inr run)
    obtain rfl := Option.some.inj (cur.symm.trans cur')
    exact ⟨cur, is⟩
  | wait p cur r run =>
    rcases wp_ok (reapZombie_wp inv p) run with ⟨rfl, rfl⟩ | ⟨z, found, rfl, o', gone⟩
    · rfl
    · exact ⟨cur, z, found, rfl, rfl, gone.only.procs, gone.unused, gone.only.current⟩
  | pageFault va type r run =>
    obtain ⟨o', repaired⟩ := wp_ok (handlePageFault_wp inv va type) run
    intro p
    rw [repaired.procs]
    exact .refl _
  | dispatch p idle ready =>
    exact SameLife.assign ⟨⟨by simp [ready], rfl, rfl, rfl, rfl, rfl⟩, by simp [ready], rfl, rfl, rfl⟩
  | yield p cur =>
    have running := inv.current p cur
    exact SameLife.assign ⟨⟨by simp [running], rfl, rfl, rfl, rfl, rfl⟩, by simp [running], rfl, rfl, rfl⟩
  | sleep p cur =>
    have running := inv.current p cur
    exact SameLife.assign ⟨⟨by simp [running], rfl, rfl, rfl, rfl, rfl⟩, by simp [running], rfl, rfl, rfl⟩
  | wakeup p asleep =>
    exact SameLife.assign ⟨⟨by simp [asleep], rfl, rfl, rfl, rfl, rfl⟩, by simp [asleep], rfl, rfl, rfl⟩
  | kill p => exact SameLife.assign ⟨⟨.rfl, rfl, rfl, rfl, rfl, rfl⟩, .rfl, rfl, rfl, rfl⟩
  | trapframe p cur f user v => exact fun q => .refl _
  | store p cur user va off v pte found valid mine => exact fun q => .refl _

/-! ### Runs on paper -/

/-- One step of a small run. -/
inductive Cmd
  | createKernelProc
  | createUserProc
  | dispatch (p : Slot)
  | yield
  | exit (status : Int)
  | wait

/-- The step, where it can be taken. -/
def Cmd.exec (s : Kernel) : Cmd → Option (Act × Kernel)
  | .createKernelProc =>
    match Vm.createKernelProc 0x80001000 s with
    | .ok r t => some (.createKernelProc r, t)
    | .error _ _ => none
  | .createUserProc =>
    match Vm.createUserProc (fun _ => 0x73) 4 0x80001000 0x80002000 s with
    | .ok r t => some (.createUserProc r, t)
    | .error _ _ => none
  | .dispatch p =>
    if s.current = none ∧ (s.procs p).state = .runnable then
      some (.other,
        { s.setProc p { s.procs p with state := .running } with current := some p })
    else none
  | .yield =>
    match s.current with
    | none => none
    | some p => some (.other,
        { s.setProc p { s.procs p with state := .runnable } with current := none })
  | .exit status =>
    match s.current, (exitProc status : K Unit) s with
    | some p, .error .exited t => some (.exit p status, t)
    | _, _ => none
  | .wait =>
    match s.current with
    | none => none
    | some p =>
      match reapZombie p s with
      | .ok r t => some (.wait p r, t)
      | .error _ _ => none

theorem Cmd.acts {c : Cmd} (taken : c.exec s = some (a, t)) : Acts a s t := by
  cases c with
  | createKernelProc =>
    simp only [exec] at taken
    split at taken
    · next r t' run =>
      cases taken
      exact .createKernelProc _ r run
    · cases taken
  | createUserProc =>
    simp only [exec] at taken
    split at taken
    · next r t' run =>
      cases taken
      exact .createUserProc _ _ (by decide) _ _ r run
    · cases taken
  | dispatch p =>
    simp only [exec] at taken
    split at taken
    · next ready =>
      cases taken
      exact .dispatch p ready.1 ready.2
    · cases taken
  | yield =>
    simp only [exec] at taken
    split at taken
    · cases taken
    · next p cur =>
      cases taken
      exact .yield p cur
  | exit status =>
    simp only [exec] at taken
    split at taken
    · next p t' cur run =>
      cases taken
      exact .exit p cur status run
    · cases taken
  | wait =>
    simp only [exec] at taken
    split at taken
    · cases taken
    · next p cur =>
      split at taken
      · next r t' run =>
        cases taken
        exact .wait p cur r run
      · cases taken

end Xv6Lab.Vm

import Xv6Lab.Vm.Fork
import Xv6Lab.Vm.Fresh

/-! The creation of processes when pages run out: `alloc_page` panics, so a call survives exactly if
the free list has the pages it takes. -/

namespace Xv6Lab.Vm

open Rv64 Sv39 Exec Relation
open Trap (PGSIZE TRAMPOLINE TRAPFRAME Field makeSatp)

/-- The call returns, and if it returns `failure` then everything is as it was. -/
def Survives {α : Type} (x : K α) (failure : α) (s : Kernel) : Prop :=
  wp x (fun r t => r = failure → t = s) (fun _ _ => False) s

/-- The pages that `create_user_proc` takes. -/
def createCost : Nat := 10

/-- The pages that `fork_proc` takes: what `alloc_proc` takes, the copies with their tables, and the
tables for the trapframe and the trampoline. -/
def forkCost (s : Kernel) (p : Slot) : Nat :=
  let n := (pagesBelow USER_STACK_SIZE).countP fun i => (lookup s (s.procs p).pagetable i).isSome
  allocCost true + (if n = 0 then 0 else n + 2) + 2

variable {s t : Kernel} {o o' : Owners} {p c q : Slot} {l : List Word}

/-- A call that panics for want of pages, and otherwise fails only as a whole. -/
theorem survives_iff {α : Type} {x : K α} {failure : α} {P : Prop}
    (functional : wp x (fun r t => r = failure → t = s) (fun _ _ => True) s)
    (counts : wp x (fun _ _ => P) (fun _ _ => ¬ P) s) : Survives x failure s ↔ P := by
  apply wp_iff
  refine wp_mono (wp_and functional counts) (fun _ _ done => ⟨done.2, done.1⟩) ?_
  rintro e t ⟨-, not⟩
  exact ⟨not, not_false⟩

/-! ### `fork_proc` -/

theorem near_stack : Near (pagesBelow USER_STACK_SIZE) := by
  intro i inside
  have below : i.toNat < 131072 := (mem_pagesBelow.mp inside).2
  constructor <;> apply BitVec.eq_of_toNat_eq <;> rw [toNat_index]
  · show _ = 0
    omega
  · show _ = 0
    omega

/-- The last part of `fork_proc` takes two pages. -/
theorem forkTrapframe_chain (d : Draft c s o t o') (chain : Chain t.mem t.freelist l)
    (zero : entry t.mem (t.procs c).pagetable (index 2 TRAPFRAME) = 0) :
    wp (forkTrapframe p c) (fun _ _ => 2 ≤ l.length) (Short 2 l) t := by
  have m := d.owns.managed (t.procs c).trapframe (by simp [d.trapframe])
  unfold forkTrapframe
  simp only [wp_bind, wp_get]
  rw [if_neg (not_not.mpr m.aligned)]
  simp only [wp_bind]
  refine wp_conseq (d.mapTrapframe_chain chain zero _ _ (by decide)) ?_
  rintro r u ⟨rfl, enough, o₁, e, d₁, mapped, unset, tables⟩
  have procs : u.procs = t.procs := mapped.quiet.procs
  rw [if_neg (by simp)]
  simp only [wp_bind]
  rw [← procs] at unset tables
  have second := d₁.mapTrampoline_wp unset tables t.trampolinePhysAddr (R ||| X) (by decide)
  rw [procs] at second
  refine wp_mono second ?_ fun _ _ never => never.elim
  rintro r v rfl
  rw [if_neg (by simp)]
  exact enough

theorem forkProc_chain (inv : Inv s o) (cur : s.current = some p) (isUser : (s.procs p).isUser = true)
    (chain : Chain s.mem s.freelist l) :
    wp (forkProc p) (fun _ _ => s.nextSlot ≠ none → forkCost s p ≤ l.length)
      (fun e t => s.nextSlot ≠ none ∧ Short (forkCost s p) l e t) s := by
  have running := inv.current p cur
  have user := (inv.alive p (by simp [running])).user isUser
  have kernel : o s.kernelPagetable ≠ .free := by simp [inv.kernelRoot]
  unfold forkProc
  simp only [wp_bind, wp_get, isUser]
  refine wp_mono (wp_and (allocProc_wp inv.owns true) (allocProc_chain inv.owns chain kernel true))
    ?_ ?_
  case refine_2 =>
    rintro e t ⟨-, some', panics, few⟩
    refine ⟨some', panics, few.trans_le ?_⟩
    unfold forkCost
    dsimp only
    omega
  rintro r t ⟨⟨rfl, rfl⟩ | ⟨c, o₁, rfl, a⟩, slot, taken⟩
  · exact fun some' => absurd slot.symm some'
  obtain ⟨enough, chain₁, empty⟩ := taken c rfl
  have some' : s.nextSlot ≠ none := by simp [a.chosen]
  have ne : p ≠ c := by
    rintro rfl
    have unused := nextSlot_unused a.chosen
    rw [running] at unused
    cases unused
  have other : some p ≠ some c := fun same => ne (Option.some.inj same)
  have d := a.draft
  have cost : allocCost true + copyCost t (s.procs p).pagetable (t.procs c).pagetable
      (pagesBelow USER_STACK_SIZE) + 2 = forkCost s p := by
    have source : Source _ _ c _ USER_STACK_SIZE := user.space.source inv.owns ne (by decide)
    have tables : missing t.mem (t.procs c).pagetable 0 = 2 := by
      have unset : child t.mem (t.procs c).pagetable (index 2 0) = none := by
        rw [child, empty rfl, if_pos (by decide)]
      unfold missing
      rw [unset]
    unfold forkCost copyCost
    simp only [(source.tableKept a.grows).lookup, tables]
  simp only [wp_bind, wp_get, user.sz, uvmcopy]
  refine wp_mono (uvmcopyPages_wp d.owns (user.space.spared inv.owns d.spares other) d.space ne chain₁
    (by decide) fun i _ => (a.user rfl).2 i) ?_ ?_
  case refine_2 =>
    rintro e u ⟨panics, few⟩
    have few' := few near_stack
    rw [List.length_drop] at few'
    exact ⟨some', panics, by omega⟩
  rintro r u ⟨rfl, ⟨o₂, copied, entries⟩, list⟩
  obtain ⟨enough₂, chain₂⟩ := list near_stack
  rw [List.length_drop] at enough₂
  rw [if_neg (by simp)]
  simp only [wp_bind, updProc, wp_modify]
  have procs : u.procs c = t.procs c := by rw [copied.quiet.procs]
  have d₂ := (d.grow copied.owns copied.quiet copied.grows copied.space).assign
    { u.procs c with sz := USER_STACK_SIZE } rfl rfl rfl ⟨rfl, rfl⟩
  have zero : entry (u.setProc c { u.procs c with sz := USER_STACK_SIZE }).mem
      ((u.setProc c { u.procs c with sz := USER_STACK_SIZE }).procs c).pagetable
      (index 2 TRAPFRAME) = 0 := by
    rw [setProc_procs, Function.update_self, procs, setProc_mem, entries]
    · exact empty rfl _
    · intro i inside
      rw [(near_stack i inside).1]
      decide
  refine wp_mono (forkTrapframe_chain d₂ (l := l.drop _) (by rw [← List.drop_drop]; exact chain₂) zero)
    ?_ ?_
  · intro r v enough₃ _
    rw [List.length_drop] at enough₃
    omega
  · rintro e v short
    exact ⟨some', short.more (by omega)⟩

/-! ### The three calls -/

/-- The creation of a process survives exactly if no slot is free, or the free list has the pages it
takes. -/
theorem creation_survives_iff (reach : Reachable s) (chain : Chain s.mem s.freelist l) :
    (∀ isUser, Survives (allocProc isUser) none s ↔ (s.nextSlot ≠ none → allocCost isUser ≤ l.length)) ∧
    (∀ userBin binSize usertrap kernelvec, binSize ≤ 4096 →
      (Survives (createUserProc userBin binSize usertrap kernelvec) (-1) s ↔
        (s.nextSlot ≠ none → createCost ≤ l.length))) ∧
    ∀ p, s.current = some p → (s.procs p).isUser = true →
      (Survives (forkProc p) (-1) s ↔ (s.nextSlot ≠ none → forkCost s p ≤ l.length)) := by
  obtain ⟨o, inv⟩ := reach.inv
  have kernel : o s.kernelPagetable ≠ .free := by simp [inv.kernelRoot]
  have stopped : ∀ {n : Nat} {e t}, s.nextSlot ≠ none ∧ Short n l e t →
      ¬ (s.nextSlot ≠ none → n ≤ l.length) := fun ⟨some', short⟩ enough =>
    absurd (enough some') (Nat.not_le.mpr short.2)
  refine ⟨fun isUser => survives_iff ?_ ?_, fun userBin binSize usertrap kernelvec fits =>
    survives_iff ?_ ?_, fun p cur user => survives_iff ?_ ?_⟩
  · refine wp_mono (allocProc_wp inv.owns isUser) ?_ fun _ _ _ => trivial
    rintro r t (⟨-, same⟩ | ⟨q, o', rfl, -⟩) failed
    · exact same
    · cases failed
  · refine wp_mono (allocProc_chain inv.owns chain kernel isUser) ?_ fun _ _ => stopped
    rintro r t ⟨slot, taken⟩ some'
    obtain ⟨q, is⟩ := Option.ne_none_iff_exists'.mp some'
    exact (taken q (slot.trans is)).1
  · refine wp_mono (createUserProc_wp inv userBin fits usertrap kernelvec) ?_ fun _ _ _ => trivial
    rintro r t (⟨-, same⟩ | ⟨q, rfl, -⟩) failed
    · exact same
    · omega
  · refine wp_mono (createUserProc_exact inv chain userBin fits usertrap kernelvec) ?_
      fun _ _ => stopped
    rintro r t (⟨-, slot⟩ | ⟨enough, -⟩) some'
    · exact absurd slot some'
    · exact enough
  · refine wp_mono (forkProc_wp inv cur user) ?_ fun _ _ _ => trivial
    rintro r t (⟨-, same⟩ | ⟨q, rfl, -⟩) failed
    · exact same
    · omega
  · exact wp_mono (forkProc_chain inv cur user chain) (fun _ _ enough => enough) fun _ _ => stopped

/-- The pages left after process 0 has been created. -/
theorem sampleStarted_chain : Chain sampleStarted.mem sampleStarted.freelist (samplePages.drop 10) := by
  decide +kernel

theorem creation_survives_iff_sample :
    Survives (forkProc 0) (-1) sampleStarted ↔
      (sampleStarted.nextSlot ≠ none → forkCost sampleStarted 0 ≤ (samplePages.drop 10).length) :=
  (creation_survives_iff sampleStarted_reachable sampleStarted_chain).2.2 0 sampleStarted_current.1
    sampleStarted_current.2

/-- The state after two calls of `create_user_proc`: four pages are left. -/
@[irreducible] def sampleCrowded : Kernel :=
  after (createUserProc sampleBin 4 0x80001000 0x80002000) sampleCreated

theorem sampleCrowded_reachable : Reachable sampleCrowded := by
  have created : value (createUserProc sampleBin 4 0x80001000 0x80002000) sampleCreated = some 1 := by
    decide +kernel
  unfold sampleCrowded
  exact ⟨_, sampleBoot_booted, sampleCreated_run.tail
    (step_of_value (.createUserProc _ _ (by decide) _ _) created)⟩

/-- The third call panics instead of returning -1. -/
theorem creation_panics : Reachable sampleCrowded ∧
    (match createUserProc sampleBin 4 0x80001000 0x80002000 sampleCrowded with
      | .error (.panic msg) _ => msg == "alloc_page: out of memory"
      | _ => false) = true ∧
    ¬ Survives (createUserProc sampleBin 4 0x80001000 0x80002000) (-1) sampleCrowded := by
  have stops : (match createUserProc sampleBin 4 0x80001000 0x80002000 sampleCrowded with
      | .error (.panic msg) _ => msg == "alloc_page: out of memory"
      | _ => false) = true := by
    decide +kernel
  refine ⟨sampleCrowded_reachable, stops, fun survives => ?_⟩
  unfold Survives wp at survives
  cases run : createUserProc sampleBin 4 0x80001000 0x80002000 sampleCrowded with
  | ok r t =>
    rw [run] at stops
    cases stops
  | error e t =>
    rw [run] at survives
    exact survives

end Xv6Lab.Vm

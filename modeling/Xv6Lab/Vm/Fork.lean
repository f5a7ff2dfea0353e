import Xv6Lab.Vm.History

/-! When `fork` duplicates its caller.  `uvmcopy` copies the pages below the recorded size `p->sz`,
and page faults map pages anywhere below `0x80000000` without raising that size. -/

namespace Xv6Lab.Vm

open Rv64 Sv39 Exec Relation
open Trap (PGSIZE TRAMPOLINE TRAPFRAME Field makeSatp)

/-- Process `c` is a duplicate of process `p`: `t` is the state in which `c` has become runnable, and
`t'` the one in which the system call of `p` is over. -/
structure Duplicated (p c : Slot) (t t' : Kernel) : Prop where
  mapped : ∀ va < USER_LIMIT, ∀ e, translate t.mem (t.procs p).pagetable va = some e →
    ∃ e', translate t.mem (t.procs c).pagetable va = some e' ∧ flags e' = flags e ∧
      pte2pa e' ≠ pte2pa e ∧ t.mem (pte2pa e') = t.mem (pte2pa e)
  unmapped : ∀ va, translate t.mem (t.procs p).pagetable va = none →
    translate t.mem (t.procs c).pagetable va = none
  saved : ∀ f, savedField f → f ≠ .reg .a0 →
    Trap.get t.mem (t.procs c).trapframe f = Trap.get t'.mem (t'.procs p).trapframe f
  childA0 : Trap.get t.mem (t.procs c).trapframe (.reg .a0) = 0
  parentA0 : Trap.get t'.mem (t'.procs p).trapframe (.reg .a0) = BitVec.ofInt 64 (t.procs c).pid

variable {s t t' : Kernel} {o o' : Owners} {p c : Slot}

/-- The parent's half of a fork: nothing of it moves. -/
theorem Forked.parent_kept (f : Forked p c s o t o') (inv : Inv s o) (user : UserProc s o p) (va : Word) :
    translate t.mem (t.procs p).pagetable va = translate s.mem (s.procs p).pagetable va := by
  have ne : some p ≠ some c := fun same => f.apart (Option.some.inj same)
  rw [f.only.procs p f.apart]
  exact f.spares.translate inv.owns ne user.space.root va

/-- The child has what the parent has below the size, and nothing above. -/
theorem Forked.child (f : Forked p c s o t o') {va : Word} (low : va < USER_LIMIT) :
    (va < USER_STACK_SIZE →
      Copied s.mem t.mem o' c (s.procs p).pagetable (t.procs c).pagetable va) ∧
    (¬ va < USER_STACK_SIZE → translate t.mem (t.procs c).pagetable va = none) := by
  constructor
  · intro below
    obtain ⟨i, inside, same⟩ := exists_pagesBelow (by decide) below
    have copy := f.copies i inside
    rw [Copied, translate_congr_path same, translate_congr_path same, same] at copy
    exact copy
  · intro above
    have special : ∀ va', ¬ Low va' → path va ≠ path va' :=
      fun va' high same => high ((low_congr same).mp (low_of_lt low))
    refine f.nothingElse va (fun i inside same => above ?_) (special _ (by decide))
      (special _ (by decide))
    obtain ⟨-, below⟩ := mem_pagesBelow.mp inside
    have size : USER_STACK_SIZE.toNat = 131072 := by decide
    have limit : USER_LIMIT.toNat = 2147483648 := by decide
    have small := BitVec.lt_def.mp low
    rw [path_eq_iff (by omega) (by omega)] at same
    exact BitVec.lt_def.mpr (by omega)

/-- What the parent has not mapped, the child has not mapped. -/
theorem Forked.unmapped (f : Forked p c s o t o') (user : UserProc s o p) {va : Word}
    (unmapped : translate s.mem (s.procs p).pagetable va = none) :
    translate t.mem (t.procs c).pagetable va = none := by
  by_cases below : ∃ i ∈ pagesBelow USER_STACK_SIZE, path i = path va
  · obtain ⟨i, inside, same⟩ := below
    have copy := f.copies i inside
    rwa [Copied, translate_congr_path same, translate_congr_path same, unmapped] at copy
  · refine f.nothingElse va (fun i inside same => below ⟨i, inside, same⟩) (fun same => ?_)
      fun same => ?_
    · exact user.trapframe (translate_congr_path same ▸ unmapped)
    · exact user.trampoline (translate_congr_path same ▸ unmapped)

/-- For every process of every reachable state: a successful `fork` duplicates its caller exactly
when no page that the caller has mapped in the user's half lies at or above its recorded size. -/
theorem fork_duplicates_iff (reach : Reachable s) (cur : s.current = some p)
    (user : (s.procs p).isUser = true) (run : forkProc p s = .ok (c.val : Int) t)
    (syscall : sysFork p s = .ok () t') :
    Duplicated p c t t' ↔ ∀ va < USER_LIMIT,
      translate s.mem (s.procs p).pagetable va ≠ none → va < (s.procs p).sz := by
  obtain ⟨o, inv⟩ := reach.inv
  have running := inv.current p cur
  have alive := inv.alive p (by simp [running])
  have userProc := alive.user user
  rcases wp_ok (forkProc_wp inv cur user) run with ⟨failed, -⟩ | ⟨c', same, o', f⟩
  · omega
  obtain rfl : c = c' := Fin.ext (by omega)
  have ne : some p ≠ some c := fun same => f.apart (Option.some.inj same)
  have after := sysFork_ok run
  rw [syscall] at after
  obtain rfl : t' = _ := by injection after
  rw [userProc.sz]
  have parent := f.parent_kept inv userProc
  constructor
  · intro dup va low mapped
    obtain ⟨e, is⟩ := Option.ne_none_iff_exists'.mp mapped
    obtain ⟨e', copy, -⟩ := dup.mapped va low e ((parent va).trans is)
    by_contra above
    rw [(f.child low).2 above] at copy
    cases copy
  · intro below
    refine ⟨fun va low e is => ?_, fun va unmapped => ?_, fun g saved notA0 => ?_, f.a0, ?_⟩
    · rw [parent va] at is
      have copy := (f.child low).1 (below va low (by rw [is]; simp))
      rw [Copied, is] at copy
      obtain ⟨e', new, flags, contents, owner⟩ := copy
      have source := (userProc.space.low va e is (low_of_lt low)).1
      obtain ⟨kept, mem⟩ := f.spares _ (some p) ne (.inl (by rw [source]; exact rfl))
      refine ⟨e', new, flags, fun eq => ?_, contents.trans mem.symm⟩
      rw [eq, kept, source] at owner
      injection owner with eq
      exact ne eq
    · rw [parent va] at unmapped
      exact f.unmapped userProc unmapped
    · have procs : t.procs p = s.procs p := f.only.procs p f.apart
      have kept : t.mem (s.procs p).trapframe = s.mem (s.procs p).trapframe :=
        (f.spares _ (some p) ne (.inl (by rw [alive.trapframe]; exact rfl))).2
      rw [f.saved g saved notA0, setMem_procs, procs, setMem_mem]
      split
      · next epc => rw [epc, Trap.get_set_same]
      · next other =>
        rw [Trap.get_set_ne _ _ _ other, Trap.get_set_ne _ _ _ notA0, Trap.get, Trap.get, kept]
    · have procs : t.procs p = s.procs p := f.only.procs p f.apart
      rw [setMem_procs, procs, setMem_mem, Trap.get_set_ne _ _ _ (by simp), Trap.get_set_same, f.pid]

/-! ### A process that forks -/

theorem sampleStarted_reachable : Reachable sampleStarted := ⟨_, sampleBoot_booted, sampleStarted_run⟩

theorem sampleStarted_current :
    sampleStarted.current = some 0 ∧ (sampleStarted.procs 0).isUser = true := by
  decide +kernel

theorem sampleStarted_fork : value (forkProc 0) sampleStarted = some 1 := by
  decide +kernel

theorem fork_duplicates_sample : ∃ t', sysFork 0 sampleStarted = .ok () t' ∧
    (Duplicated 0 1 (after (forkProc 0) sampleStarted) t' ↔
      ∀ va < USER_LIMIT, translate sampleStarted.mem (sampleStarted.procs 0).pagetable va ≠ none →
        va < (sampleStarted.procs 0).sz) := by
  have run := run_of_value sampleStarted_fork
  exact ⟨_, sysFork_ok run, fork_duplicates_iff sampleStarted_reachable sampleStarted_current.1
    sampleStarted_current.2 (c := 1) run (sysFork_ok run)⟩

/-- Process 0 has stored to its heap. -/
@[irreducible] def sampleFaulted : Kernel := after (handlePageFault 0x400008 .store) sampleStarted

theorem sampleFaulted_reachable : Reachable sampleFaulted := by
  have handled : value (handlePageFault 0x400008 .store) sampleStarted = some 1 := by decide +kernel
  unfold sampleFaulted
  exact ⟨_, sampleBoot_booted, sampleStarted_run.tail (step_of_value (.pageFault _ _) handled)⟩

theorem sampleFaulted_current :
    sampleFaulted.current = some 0 ∧ (sampleFaulted.procs 0).isUser = true := by
  decide +kernel

theorem sampleFaulted_fork : value (forkProc 0) sampleFaulted = some 1 ∧
    (translate (after (forkProc 0) sampleFaulted).mem
      ((after (forkProc 0) sampleFaulted).procs 0).pagetable 0x400000).isSome = true ∧
    (translate (after (forkProc 0) sampleFaulted).mem
      ((after (forkProc 0) sampleFaulted).procs 1).pagetable 0x400000).isNone = true := by
  obtain ⟨cur, isUser⟩ := sampleFaulted_current
  obtain ⟨o, inv⟩ := sampleFaulted_reachable.inv
  have user := (inv.alive 0 (by simp [inv.current 0 cur])).user isUser
  have child : value (forkProc 0) sampleFaulted = some 1 := by decide +kernel
  rcases wp_ok (forkProc_wp inv cur isUser) (run_of_value child) with ⟨failed, -⟩ | ⟨c, is, o', forked⟩
  · cases failed
  obtain rfl : c = 1 := Fin.ext (by omega)
  refine ⟨child, ?_, ?_⟩
  · rw [forked.parent_kept inv user]
    decide +kernel
  · rw [(forked.child (by decide)).2 (by decide)]
    rfl

/-- A process that has touched one page of its heap forks, and the child does not have the page. -/
theorem fork_loses_heap_page :
    Reachable sampleFaulted ∧ sampleFaulted.current = some 0 ∧
      (sampleFaulted.procs 0).isUser = true ∧
      forkProc 0 sampleFaulted = .ok 1 (after (forkProc 0) sampleFaulted) ∧
      ∃ t', sysFork 0 sampleFaulted = .ok () t' ∧
        ¬ Duplicated 0 1 (after (forkProc 0) sampleFaulted) t' := by
  obtain ⟨child, mapped, lost⟩ := sampleFaulted_fork
  refine ⟨sampleFaulted_reachable, sampleFaulted_current.1, sampleFaulted_current.2,
    run_of_value child, _, sysFork_ok (run_of_value child), fun dup => ?_⟩
  obtain ⟨e, is⟩ := Option.isSome_iff_exists.mp mapped
  obtain ⟨e', copy, -⟩ := dup.mapped 0x400000 (by decide) e is
  rw [copy] at lost
  cases lost

end Xv6Lab.Vm

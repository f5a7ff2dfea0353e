import Xv6Lab.Vm.Children

/-! Pages over whole process lifetimes: what the free list has lost once every process created since
some state has been reaped. -/

namespace Xv6Lab.Vm

open Rv64 Sv39 Exec Relation

/-- The free lists hold the same pages, each of them once. -/
def SameFree (s t : Kernel) : Prop :=
  ∃ l l', Chain s.mem s.freelist l ∧ l.Nodup ∧ Chain t.mem t.freelist l' ∧ l'.Nodup ∧
    ∀ pg, pg ∈ l' ↔ pg ∈ l

/-- A run whose steps are all allowed. -/
def Run (allowed : Kernel → Act → Prop) : Kernel → Kernel → Prop :=
  ReflTransGen fun s t => ∃ a, allowed s a ∧ Acts a s t

/-- The slot holds a process that was created since `S`, from which slots were only taken. -/
def Since (S s : Kernel) (q : Slot) : Prop := ¬ S.live q ∧ s.live q

/-- A step that is no leak: `wait_proc` frees only processes that were created since `S` and have no
page table of their own, and page faults take pages only for processes created since `S`. -/
def Thrifty (S s : Kernel) : Act → Prop
  | .wait p _ => ∀ z, s.zombieChild p = some z → ¬ S.live z ∧ (s.procs z).isUser = false
  | .pageFault va => translate s.mem s.faultTable.1 (pageStart va) ≠ none ∨
      ∃ p, s.current = some p ∧ (s.procs p).isUser = true ∧ ¬ S.live p
  | _ => True

/-- The pages of the list `l`, which were free in `S`, are free or serve the kernel processes created
since then, unless a user process has been created too. -/
structure Conserved (S : Kernel) (l : List Word) (s : Kernel) (o : Owners) : Prop where
  inv : Inv s o
  stay : ∀ q, S.live q → s.live q
  pages : (∃ q, Since S s q ∧ (s.procs q).isUser = true) ∨
    ∀ pg, pg ∈ l ↔ o pg = .free ∨
      ∃ q, Since S s q ∧ (pg = (s.procs q).trapframe ∨ pg = (s.procs q).kstack)

variable {S s t : Kernel} {l : List Word} {o o' : Owners} {a : Act} {c z : Slot} {va : Word}

/-- Two maps that memory bears out agree on the free pages when the list has not changed. -/
theorem Owns.free_same (w : Owns s o) (w' : Owns t o') (mem : t.mem = s.mem)
    (freelist : t.freelist = s.freelist) (pg : Word) : o' pg = .free ↔ o pg = .free := by
  obtain ⟨l, chain, -, members⟩ := w.free
  obtain ⟨l', chain', -, members'⟩ := w'.free
  rw [mem, freelist] at chain'
  rw [← members, ← members', chain.unique chain']

/-- A step that moves no page. -/
theorem Conserved.same (k : Conserved S l s o) (inv : Inv t o')
    (free : ∀ pg, o' pg = .free ↔ o pg = .free) (same : ∀ q, SameProc (t.procs q) (s.procs q)) :
    Conserved S l t o' := by
  have live : ∀ q, t.live q ↔ s.live q := fun q => not_congr (same q).unused
  refine ⟨inv, fun q is => (live q).mpr (k.stay q is), ?_⟩
  rcases k.pages with ⟨q, since, user⟩ | pages
  · exact .inl ⟨q, ⟨since.1, (live q).mpr since.2⟩, (same q).isUser.trans user⟩
  · refine .inr fun pg => ?_
    rw [pages pg, free pg]
    simp only [Since, live, (same _).trapframe, (same _).kstack]

/-- A step that moves pages for a user process created since `S`. -/
theorem Conserved.of_user (k : Conserved S l s o) (inv : Inv t o')
    (stay : ∀ q, s.live q → t.live q) (user : ∃ q, Since S t q ∧ (t.procs q).isUser = true) :
    Conserved S l t o' :=
  ⟨inv, fun q is => stay q (k.stay q is), .inl user⟩

theorem Created.live {user : Bool} (created : Created c user s o t o') (q : Slot) :
    t.live q ↔ q = c ∨ s.live q := by
  by_cases new : q = c
  · rw [new, Kernel.live, created.runnable]
    simp
  · rw [Kernel.live, Kernel.live, created.only.procs q new]
    simp [new]

/-- The slot of a new process was free in `S` already. -/
theorem Conserved.slot (k : Conserved S l s o) (chosen : s.nextSlot = some c) : ¬ S.live c :=
  fun live => k.stay c live (nextSlot_unused chosen)

theorem Conserved.createdUser (k : Conserved S l s o) (created : Created c true s o t o') :
    Conserved S l t o' :=
  k.of_user created.inv (fun q is => (created.live q).mpr (.inr is))
    ⟨c, ⟨k.slot created.chosen, (created.live c).mpr (.inl rfl)⟩, created.isUser⟩

theorem Conserved.createdKernel (k : Conserved S l s o) (created : Created c false s o t o')
    (slim : Slim c o t o') : Conserved S l t o' := by
  have new := k.slot created.chosen
  have unused := nextSlot_unused created.chosen
  have kept : ∀ q, Since S s q → q ≠ c := fun q since same => since.2 (same ▸ unused)
  have since : ∀ q, Since S t q ↔ q = c ∨ Since S s q := by
    intro q
    rw [Since, created.live, Since]
    constructor
    · rintro ⟨old, rfl | live⟩
      · exact .inl rfl
      · exact .inr ⟨old, live⟩
    · rintro (rfl | ⟨old, live⟩)
      · exact ⟨new, .inl rfl⟩
      · exact ⟨old, .inr live⟩
  refine ⟨created.inv, fun q is => (created.live q).mpr (.inr (k.stay q is)), ?_⟩
  rcases k.pages with ⟨q, old, user⟩ | pages
  · refine .inl ⟨q, (since q).mpr (.inr old), ?_⟩
    rwa [created.only.procs q (kept q old)]
  · refine .inr fun pg => ?_
    rw [pages pg, slim pg, or_assoc]
    refine or_congr_right ⟨?_, ?_⟩
    · rintro (mine | ⟨q, old, mine⟩)
      · exact ⟨c, (since c).mpr (.inl rfl), mine⟩
      · refine ⟨q, (since q).mpr (.inr old), ?_⟩
        rwa [created.only.procs q (kept q old)]
    · rintro ⟨q, is, mine⟩
      rcases (since q).mp is with rfl | old
      · exact .inl mine
      · rw [created.only.procs q (kept q old)] at mine
        exact .inr ⟨q, old, mine⟩

/-- A process of the kernel has been reaped. -/
theorem Conserved.reaped (k : Conserved S l s o) (gone : Gone z s o t o') (live : s.live z)
    (new : ¬ S.live z) (kernel : (s.procs z).isUser = false) : Conserved S l t o' := by
  have kept : ∀ q ≠ z, (t.live q ↔ s.live q) := by
    intro q other
    rw [Kernel.live, Kernel.live, gone.only.procs q other]
  have apart : ∀ q, Since S t q → q ≠ z := fun q is same => is.2 (same ▸ gone.unused)
  have stay : ∀ q, S.live q → t.live q := by
    intro q old
    have other : q ≠ z := fun same => new (same ▸ old)
    exact (kept q other).mpr (k.stay q old)
  refine ⟨gone.inv, stay, ?_⟩
  rcases k.pages with ⟨q, old, user⟩ | pages
  · have other : q ≠ z := by
      rintro rfl
      rw [kernel] at user
      cases user
    refine .inl ⟨q, ⟨old.1, (kept q other).mpr old.2⟩, ?_⟩
    rwa [gone.only.procs q other]
  · refine .inr fun pg => ?_
    rw [pages pg, gone.returns kernel pg, or_assoc]
    refine or_congr_right ⟨?_, ?_⟩
    · rintro ⟨q, old, mine⟩
      by_cases here : q = z
      · exact .inl (here ▸ mine)
      · refine .inr ⟨q, ⟨old.1, (kept q here).mpr old.2⟩, ?_⟩
        rwa [gone.only.procs q here]
    · rintro (mine | ⟨q, is, mine⟩)
      · exact ⟨z, ⟨new, live⟩, mine⟩
      · rw [gone.only.procs q (apart q is)] at mine
        exact ⟨q, ⟨is.1, (kept q (apart q is)).mp is.2⟩, mine⟩

theorem Conserved.repaired (k : Conserved S l s o) (repaired : Repaired va s o t o')
    (thrifty : Thrifty S s (.pageFault va)) : Conserved S l t o' := by
  have same : ∀ q, SameProc (t.procs q) (s.procs q) := by
    intro q
    rw [repaired.procs]
    exact .refl _
  rcases thrifty with mapped | ⟨p, cur, user, new⟩
  · refine k.same repaired.inv (fun pg => ?_) same
    rw [repaired.same mapped]
  · refine k.of_user repaired.inv (fun q is => ?_) ⟨p, ⟨new, ?_⟩, ?_⟩
    · rwa [Kernel.live, repaired.procs]
    · rw [Kernel.live, repaired.procs, k.inv.current p cur]
      simp
    · rwa [repaired.procs]

/-- One step keeps the account. -/
theorem Conserved.act (k : Conserved S l s o) (act : Acts a s t) (thrifty : Thrifty S s a) :
    ∃ o', Conserved S l t o' := by
  have still : ∀ o', Inv t o' → (∀ q, SameProc (t.procs q) (s.procs q)) → t.mem = s.mem →
      t.freelist = s.freelist → ∃ o', Conserved S l t o' := by
    intro o' inv same mem freelist
    exact ⟨o', k.same inv (k.inv.owns.free_same inv.owns mem freelist) same⟩
  obtain ⟨o₁, next⟩ := k.inv.step act.step
  have effect := act.effect k.inv
  cases act with
  | createKernelProc entry r run =>
    rcases wp_ok (createKernelProc_wp k.inv entry) run with ⟨-, rfl⟩ | ⟨c, -, o', created, slim⟩
    · exact ⟨o, k⟩
    · exact ⟨o', k.createdKernel created slim⟩
  | createUserProc bin size fits usertrap kernelvec r run =>
    rcases wp_ok (createUserProc_wp k.inv bin fits usertrap kernelvec) run with
      ⟨-, rfl⟩ | ⟨c, -, o', created⟩
    · exact ⟨o, k⟩
    · exact ⟨o', k.createdUser created⟩
  | @fork s t u p cur user r child run =>
    have after := sysFork_ok child
    rw [run] at after
    injection after with _ after
    subst after
    have running := k.inv.current p cur
    rcases wp_ok (forkProc_wp k.inv cur user) child with ⟨-, rfl⟩ | ⟨c, -, o', forked⟩
    · have alive := k.inv.alive p (by simp [running])
      exact ⟨o, k.same (k.inv.return_next alive.trapframe (by simp [running]) _ _).inv
        (fun _ => .rfl) fun _ => .refl _⟩
    · have made := k.createdUser forked.toCreated
      have kept : u.procs p = s.procs p := forked.only.procs p forked.apart
      have used : (u.procs p).state ≠ .unused := by simp [kept, running]
      have at_tf := (made.inv.alive p used).trapframe
      rw [kept] at at_tf
      exact ⟨o', made.same (made.inv.return_next at_tf used _ _).inv (fun _ => .rfl)
        fun _ => .refl _⟩
  | exit p cur status run =>
    obtain ⟨-, rfl⟩ := effect
    refine still o₁ next.inv (fun q => ?_) rfl rfl
    by_cases me : q = p
    · rw [me, Kernel.exited, setProc_procs, Function.update_self]
      exact ⟨by simp [k.inv.current p cur], rfl, rfl, rfl, rfl, rfl⟩
    · rw [Kernel.exited, setProc_procs, Function.update_of_ne me]
      exact .refl _
  | wait p cur r run =>
    rcases wp_ok (reapZombie_wp k.inv p) run with ⟨rfl, rfl⟩ | ⟨z, found, rfl, o', gone⟩
    · exact ⟨o, k⟩
    · have zombie : (s.procs z).state = .zombie ∧ (s.procs z).parent = some p := by
        simpa using List.find?_some found
      have live : s.live z := by simp [Kernel.live, zombie.1]
      obtain ⟨new, kernel⟩ := thrifty z found
      exact ⟨o', k.reaped gone live new kernel⟩
  | pageFault va type r run =>
    obtain ⟨o', repaired⟩ := wp_ok (handlePageFault_wp k.inv va type) run
    exact ⟨o', k.repaired repaired thrifty⟩
  | dispatch p idle ready => exact still o₁ next.inv (fun q => (effect q).toSameProc) rfl rfl
  | yield p cur => exact still o₁ next.inv (fun q => (effect q).toSameProc) rfl rfl
  | sleep p cur => exact still o₁ next.inv (fun q => (effect q).toSameProc) rfl rfl
  | wakeup p asleep => exact still o₁ next.inv (fun q => (effect q).toSameProc) rfl rfl
  | kill p => exact still o₁ next.inv (fun q => (effect q).toSameProc) rfl rfl
  | trapframe p cur f user v =>
    have alive := k.inv.alive p (by simp [k.inv.current p cur])
    have next := k.inv.write_next alive.trapframe rfl (by simp) (by simp [k.inv.current p cur])
      f.offset v
    exact ⟨o, k.same next.inv (fun _ => .rfl) fun _ => .refl _⟩
  | store p cur user va off v pte found valid mine =>
    exact ⟨o, k.same (k.inv.store_next cur user off v found valid mine).inv (fun _ => .rfl)
      fun _ => .refl _⟩

/-- In every run from a reachable state `S` whose steps are no leaks, once every process created
since `S` has been reaped the free list holds the pages that it held in `S`. -/
theorem pages_conserved (reach : Reachable S) (run : Run (Thrifty S) S t)
    (reaped : ∀ q, ¬ S.live q → ¬ t.live q) : SameFree S t := by
  obtain ⟨o, inv⟩ := reach.inv
  obtain ⟨l, chain, nodup, members⟩ := inv.owns.free
  have start : Conserved S l S o := by
    refine ⟨inv, fun q is => is, .inr fun pg => ?_⟩
    rw [members]
    constructor
    · exact .inl
    · rintro (free | ⟨q, since, -⟩)
      · exact free
      · exact absurd since.2 since.1
  obtain ⟨o', k⟩ := Transition.invariant (I := fun s => ∃ o, Conserved S l s o)
    (fun _ _ ⟨_, k⟩ ⟨_, thrifty, act⟩ => k.act act thrifty) ⟨o, start⟩ run
  obtain ⟨l', chain', nodup', members'⟩ := k.inv.owns.free
  refine ⟨l, l', chain, nodup, chain', nodup', fun pg => ?_⟩
  have none : ∀ q, ¬ Since S t q := fun q since => reaped q since.1 since.2
  rcases k.pages with ⟨q, since, -⟩ | pages
  · exact absurd since (none q)
  · rw [members', pages pg]
    simp [none]

/-! ### Two lifetimes -/

theorem Recorded.run {allowed : Kernel → Act → Prop} {x y : Kernel × Ledger}
    (run : ReflTransGen (Recorded allowed) x y) : Run allowed x.1 y.1 := by
  induction run with
  | refl => exact .refl
  | tail _ last ih =>
    obtain ⟨a, ok, act, -⟩ := last
    exact ih.tail ⟨a, ok, act⟩

theorem Run.steps {allowed : Kernel → Act → Prop} (run : Run allowed s t) :
    ReflTransGen Step s t := by
  induction run with
  | refl => exact .refl
  | tail _ last ih => exact ih.tail last.choose_spec.2.step

instance (S s : Kernel) : (a : Act) → Decidable (Thrifty S s a)
  | .wait p _ => inferInstanceAs (Decidable (∀ z, s.zombieChild p = some z →
      ¬ S.live z ∧ (s.procs z).isUser = false))
  | .pageFault va => inferInstanceAs (Decidable (translate s.mem s.faultTable.1 (pageStart va) ≠ none ∨
      ∃ p, s.current = some p ∧ (s.procs p).isUser = true ∧ ¬ S.live p))
  | .createKernelProc _ | .createUserProc _ | .fork _ _ | .exit _ _ | .other => .isTrue trivial

/-- Process 0, of the kernel, runs. -/
@[irreducible] def sampleKernel : Kernel :=
  ((play (fun _ _ => True) [.createKernelProc, .dispatch 0] (sampleBoot, .empty)).getD
    (sampleBoot, .empty)).1

/-- The free pages with the given numbers. -/
def pagesAt (l : List Nat) : List Word := l.map fun k => 0x87000000 + BitVec.ofNat 64 (4096 * k)

theorem sampleKernel_facts :
    (play (fun _ _ => True) [.createKernelProc, .dispatch 0] (sampleBoot, .empty)).isSome = true ∧
    Chain sampleKernel.mem sampleKernel.freelist (pagesAt (List.range' 2 22)) := by
  decide +kernel

theorem sampleKernel_reachable : Reachable sampleKernel := by
  obtain ⟨x, run⟩ := Option.isSome_iff_exists.mp sampleKernel_facts.1
  have is : sampleKernel = x.1 := by
    unfold sampleKernel
    rw [run, Option.getD_some]
  rw [is]
  exact ⟨_, sampleBoot_booted, (Recorded.run (play_recorded run)).steps⟩

/-- Process 0 creates a process of its own kind, which exits and is reaped. -/
def kernelLife : List Cmd :=
  [.createKernelProc, .yield, .dispatch 1, .exit 5, .dispatch 0, .wait]

theorem kernelLife_reaped : ((play (Thrifty sampleKernel) kernelLife (sampleKernel, .empty)).any
    fun x => decide (∀ q, ¬ sampleKernel.live q → ¬ x.1.live q)) = true := by
  decide +kernel

theorem pages_conserved_sample : ∃ t, Run (Thrifty sampleKernel) sampleKernel t ∧
    (∀ q, ¬ sampleKernel.live q → ¬ t.live q) ∧ SameFree sampleKernel t := by
  obtain ⟨x, played, reaped⟩ := (Option.any_eq_true _ _).mp kernelLife_reaped
  have run := Recorded.run (play_recorded played)
  exact ⟨x.1, run, of_decide_eq_true reaped,
    pages_conserved sampleKernel_reachable run (of_decide_eq_true reaped)⟩

/-- Process 0 creates a user process, which exits and is reaped. -/
def userLife : List Cmd :=
  [.createUserProc, .yield, .dispatch 1, .exit 0, .dispatch 0, .wait]

/-- Pages 5, 8 and 9 were the text and the stack of the process. -/
theorem userLife_reaped :
    ((play (fun _ _ => True) userLife (sampleKernel, .empty)).any fun x =>
      decide ((∀ q, ¬ sampleKernel.live q → ¬ x.1.live q) ∧
        Chain x.1.mem x.1.freelist (pagesAt ([4, 3, 10, 11, 6, 7, 2] ++ List.range' 12 12)))) =
      true := by
  decide +kernel

/-- A user process that has come and gone has taken its frames with it. -/
theorem user_frames_lost : Reachable sampleKernel ∧ ∃ t, Run (fun _ _ => True) sampleKernel t ∧
    (∀ q, ¬ sampleKernel.live q → ¬ t.live q) ∧ ¬ SameFree sampleKernel t := by
  obtain ⟨x, played, facts⟩ := (Option.any_eq_true _ _).mp userLife_reaped
  obtain ⟨reaped, after⟩ := of_decide_eq_true facts
  refine ⟨sampleKernel_reachable, x.1, Recorded.run (play_recorded played), reaped, ?_⟩
  rintro ⟨l, l', chain, -, chain', -, members⟩
  rw [chain.unique sampleKernel_facts.2, chain'.unique after] at members
  exact absurd ((members (0x87000000 + BitVec.ofNat 64 (4096 * 5))).mpr (by decide)) (by decide)

end Xv6Lab.Vm

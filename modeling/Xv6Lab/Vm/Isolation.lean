import Xv6Lab.Vm.FiniteMap
import Xv6Lab.Vm.System

/-! Address-space isolation: a frame that a user process can touch belongs to that process, at one
page of its space, and to nothing else. -/

namespace Xv6Lab.Vm

open Rv64 Sv39 Exec Relation

/-- The state after boot.  Besides the free list and the kernel's tables there are the pages of the
process table and the page of the trampoline; the kernel's table gives the user nothing. -/
structure Prepared (ptable : Slot → Word) (s : Kernel) : Prop extends Booted s where
  sealed : Sealed s
  taken : ∀ pg, (pg = s.trampolinePhysAddr ∨ ∃ q, pg = ptable q) →
    (∀ l, Chain s.mem s.freelist l → pg ∉ l) ∧
    ∀ ds, ds.length ≤ 2 → node s.mem s.kernelPagetable ds ≠ some pg

/-- Process `p` has the frame `pg` mapped at `va` with user access. -/
def UserFrame (s : Kernel) (p : Slot) (va pg : Word) : Prop :=
  ∃ e, translate s.mem (s.procs p).pagetable va = some e ∧ e &&& U ≠ 0 ∧ pte2pa e = pg

structure Isolated (ptable : Slot → Word) (s : Kernel) : Prop where
  alone : ∀ p q va va' pg, s.live p → (s.procs p).isUser = true → s.live q →
    Canonical va → Canonical va' → UserFrame s p va pg → UserFrame s q va' pg →
    q = p ∧ va'.toNat / 4096 = va.toNat / 4096
  notFree : ∀ p va pg, s.live p → (s.procs p).isUser = true → UserFrame s p va pg →
    ∀ l, Chain s.mem s.freelist l → pg ∉ l
  noTable : ∀ p va pg, s.live p → (s.procs p).isUser = true → UserFrame s p va pg →
    (∀ ds, ds.length ≤ 2 → node s.mem s.kernelPagetable ds ≠ some pg) ∧
    ∀ q, s.live q → ∀ ds, ds.length ≤ 2 → node s.mem (s.procs q).pagetable ds ≠ some pg
  noKernelPage : ∀ p va pg, s.live p → (s.procs p).isUser = true → UserFrame s p va pg →
    pg ≠ s.trampolinePhysAddr ∧
    ∀ q, pg ≠ ptable q ∧ (s.live q → pg ≠ (s.procs q).trapframe ∧ pg ≠ (s.procs q).kstack)
  upper : ∀ p va e, s.live p → Canonical va → USER_LIMIT ≤ va →
    translate s.mem (s.procs p).pagetable va = some e → e &&& U = 0

variable {s t s₀ : Kernel} {o o' : Owners} {p q : Slot} {va va' pg : Word} {ptable : Slot → Word}

theorem Owns.not_free (w : Owns s o) (used : o pg ≠ .free) (l : List Word)
    (chain : Chain s.mem s.freelist l) : pg ∉ l := by
  obtain ⟨l', chain', -, members⟩ := w.free
  rw [chain.unique chain']
  exact fun inside => used ((members pg).mp inside)

theorem not_low {va : Word} (canonical : Canonical va) (high : USER_LIMIT ≤ va) : ¬ Low va := by
  have limit : USER_LIMIT.toNat = 2147483648 := by decide
  have above := BitVec.le_def.mp high
  have bound := va.isLt
  unfold Canonical at canonical
  rw [Low, toNat_index]
  omega

/-- A frame with user access is a frame of its process. -/
theorem Inv.userFrame (inv : Inv s o) (sealed : Sealed s) (live : s.live p)
    (frame : UserFrame s p va pg) :
    (s.procs p).isUser = true ∧ o pg = .frame (some p) (path va) := by
  obtain ⟨e, is, user, rfl⟩ := frame
  have alive := inv.alive p live
  cases isUser : (s.procs p).isUser with
  | false =>
    rw [alive.kernel isUser] at is
    exact absurd (sealed va e is) user
  | true =>
    have space := (alive.user isUser).space
    by_cases low : Low va
    · exact ⟨rfl, (space.low va e is low).1⟩
    · exact absurd (space.high va e is low).1 user

/-- Frames are no tables. -/
theorem Owns.frame_ne_node (w : Owns s o) {h h' : Holder} {pt : Word} {ds ds' : List Index}
    (root : o pt = .table h []) (frame : o pg = .frame h' ds') (short : ds.length ≤ 2) :
    node s.mem pt ds ≠ some pg := by
  intro walk
  have table := label_eq.mp ((w.tree h).node (label_eq.mpr root) (by simpa using short) walk)
  rw [frame] at table
  cases table

theorem Inv.isolated (inv : Inv s o) (sealed : Sealed s)
    (taken : ∀ pg, (pg = s.trampolinePhysAddr ∨ ∃ q, pg = ptable q) → o pg = .other) :
    Isolated ptable s where
  alone p q va va' pg live _ live' canonical canonical' frame frame' := by
    have owner := (inv.userFrame sealed live frame).2
    have owner' := (inv.userFrame sealed live' frame').2
    rw [owner] at owner'
    injection owner' with holder same
    exact ⟨(Option.some.inj holder).symm,
      ((path_eq_iff_canonical canonical canonical').mp same).symm⟩
  notFree p va pg live _ frame := by
    have owner := (inv.userFrame sealed live frame).2
    exact inv.owns.not_free (by simp [owner])
  noTable p va pg live _ frame := by
    have owner := (inv.userFrame sealed live frame).2
    refine ⟨fun ds short => inv.owns.frame_ne_node inv.kernelRoot owner short, fun q live' ds short => ?_⟩
    have alive := inv.alive q live'
    cases isUser : (s.procs q).isUser with
    | false =>
      rw [alive.kernel isUser]
      exact inv.owns.frame_ne_node inv.kernelRoot owner short
    | true => exact inv.owns.frame_ne_node (alive.user isUser).space.root owner short
  noKernelPage p va pg live _ frame := by
    have owner := (inv.userFrame sealed live frame).2
    have apart : ∀ pg' own, o pg' = own → own ≠ .frame (some p) (path va) → pg ≠ pg' := by
      rintro pg' own is ne rfl
      exact ne (is.symm.trans owner)
    refine ⟨apart _ _ (taken _ (.inl rfl)) (by simp), fun q =>
      ⟨apart _ _ (taken _ (.inr ⟨q, rfl⟩)) (by simp), fun live' => ?_⟩⟩
    have alive := inv.alive q live'
    exact ⟨apart _ _ alive.trapframe (by simp), apart _ _ alive.kstack (by simp)⟩
  upper p va e live canonical high is := by
    by_contra user
    obtain ⟨isUser, -⟩ := inv.userFrame sealed live ⟨e, is, user, rfl⟩
    exact user (((inv.alive p live).user isUser).space.high va e is (not_low canonical high)).1

/-- What a whole run keeps: the invariant, the sealed kernel table, and the pages that boot has
taken. -/
theorem Inv.run (inv : Inv s o) (sealed : Sealed s) (run : ReflTransGen Step s t) :
    ∃ o', Next s o t o' ∧ Sealed t := by
  induction run with
  | refl => exact ⟨o, .refl inv, sealed⟩
  | tail _ step ih =>
    obtain ⟨o₁, next, sealed₁⟩ := ih
    obtain ⟨o₂, next₂⟩ := next.inv.step step
    exact ⟨o₂, next.trans next₂, next₂.sealed sealed₁⟩

theorem Prepared.inv (prepared : Prepared ptable s) : ∃ o, Inv s o ∧
    ∀ pg, (pg = s.trampolinePhysAddr ∨ ∃ q, pg = ptable q) → o pg = .other := by
  obtain ⟨l, chain, -, -⟩ := prepared.free
  refine ⟨_, prepared.toBooted.inv_of_chain chain, fun pg is => ?_⟩
  obtain ⟨notFree, noTable⟩ := prepared.taken pg is
  have none : ¬ ∃ ds : List Index, ds.length ≤ 2 ∧ node s.mem s.kernelPagetable ds = some pg :=
    fun ⟨ds, short, walk⟩ => noTable ds short walk
  rw [bootOwners, if_neg (notFree l chain), dif_neg none]

/-- In every state that the machine reaches, address spaces are isolated. -/
theorem address_spaces_isolated (prepared : Prepared ptable s₀) (run : ReflTransGen Step s₀ s) :
    Isolated ptable s := by
  obtain ⟨o, inv, taken⟩ := prepared.inv
  obtain ⟨o', next, sealed⟩ := inv.run prepared.sealed run
  refine next.inv.isolated sealed fun pg is => ?_
  rw [next.trampoline] at is
  exact next.keeps pg (taken pg is)

/-- Pages of the process table, below the free pages of the small memory. -/
def samplePtable (q : Slot) : Word := 0x80300000 + BitVec.ofNat 64 (4096 * q)

theorem sampleBoot_prepared : Prepared samplePtable sampleBoot where
  toBooted := sampleBoot_booted
  sealed va e is := by
    rw [Sv39.translate, Option.bind_eq_some_iff] at is
    obtain ⟨pg, walk, -⟩ := is
    exact absurd (sampleBoot_node walk).1 (by simp)
  taken pg is := by
    have low : pg < 0x87000000 ∧ pg ≠ sampleBoot.kernelPagetable := by
      rcases is with rfl | ⟨q, rfl⟩
      · decide
      · have all : ∀ q : Slot, samplePtable q < 0x87000000 ∧
            samplePtable q ≠ sampleBoot.kernelPagetable := by decide +kernel
        exact all q
    refine ⟨fun l chain inside => ?_, fun ds _ walk => low.2 (sampleBoot_node walk).2⟩
    have free : Chain sampleBoot.mem sampleBoot.freelist samplePages := by decide +kernel
    have above : (samplePages.all fun pg => ¬ pg < 0x87000000) = true := by decide +kernel
    rw [chain.unique free] at inside
    exact of_decide_eq_true (List.all_eq_true.mp above pg inside) low.1

theorem address_spaces_isolated_sample : Isolated samplePtable sampleStarted ∧
    sampleStarted.live 0 ∧ ∃ pg, UserFrame sampleStarted 0 0x10000 pg := by
  have live : (sampleStarted.procs 0).state = .running := by decide +kernel
  have mapped : (translate sampleStarted.mem (sampleStarted.procs 0).pagetable 0x10000).any
      (fun e => e &&& U ≠ 0) = true := by
    decide +kernel
  obtain ⟨e, is, user⟩ := (Option.any_eq_true _ _).mp mapped
  exact ⟨address_spaces_isolated sampleBoot_prepared sampleStarted_run, by simp [Kernel.live, live],
    _, e, is, of_decide_eq_true user, rfl⟩

end Xv6Lab.Vm

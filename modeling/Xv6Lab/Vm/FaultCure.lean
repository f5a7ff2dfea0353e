import Xv6Lab.Vm.Faults
import Xv6Lab.Vm.FiniteMap

/-! What `handle_page_fault` leaves when it returns 1, for any current process and any table. -/

namespace Xv6Lab.Vm

open Rv64 Sv39 Exec
open Trap (PGSIZE TRAMPOLINE TRAPFRAME)

/-- The page of `va` keeps the frame of the entry `old`.  The frame is as it was; if it is the table
that holds the entry of `va`, then but for that entry. -/
structure FrameKept (s : Kernel) (pt va : Word) (t : Kernel) (old e : Word) : Prop where
  was : translate s.mem pt va = some old
  frame : pte2pa e = pte2pa old
  contents : ∀ off, (node s.mem pt [index 2 va, index 1 va] = some (pte2pa e) →
    off ≠ slot (index 0 va)) → t.mem (pte2pa e) off = s.mem (pte2pa e) off

/-- The page of `va` gets a page of zeros from the free list. -/
structure FrameNew (s : Kernel) (pt va : Word) (t : Kernel) (e : Word) : Prop where
  was : translate s.mem pt va = none
  free : ∃ l, Chain s.mem s.freelist l ∧ pte2pa e ∈ l
  taken : ∃ l, Chain t.mem t.freelist l ∧ pte2pa e ∉ l
  zeros : t.mem (pte2pa e) = fun _ => 0

/-- The table of `h` at `pt` maps the page of `va` by the entry `e`, which has what the access needs,
and no other translation has changed, of this table or those of others.  `user` says that the entry
is the user's. -/
structure Cured (h : Holder) (pt va : Word) (type : Access) (user : Bool) (s : Kernel) (o : Owners)
    (t : Kernel) (e : Word) : Prop where
  maps : translate t.mem pt va = some e
  valid : e &&& V ≠ 0
  perms : e &&& type.perm = type.perm
  user : user = true → e &&& U ≠ 0
  frame : (∃ old, FrameKept s pt va t old e) ∨ FrameNew s pt va t e
  others : ∀ h' pt' va', o pt' = .table h' [] → (h' = h → pt' = pt ∧ path va' ≠ path va) →
    translate t.mem pt' va' = translate s.mem pt' va'

variable {s t : Kernel} {o o' : Owners} {h : Holder} {pt va e : Word}

/-! ### The two ways to cure a fault -/

/-- What is mapped for one table leaves the other translations. -/
theorem Mapped.elsewhere (w : Owns s o) (m : Mapped h pt va e s o t o') (h' : Holder) (pt' va' : Word)
    (root : o pt' = .table h' []) (other : h' = h → pt' = pt ∧ path va' ≠ path va) :
    Sv39.translate t.mem pt' va' = Sv39.translate s.mem pt' va' := by
  by_cases mine : h' = h
  · obtain ⟨rfl, apart⟩ := other mine
    rw [m.translate va', if_neg apart]
  · exact m.grows.spares.translate w mine root va'

theorem Fixed.cured {type : Access} {user : Bool} (w : Owns s o) (fixed : Fixed h pt va user s o t o' e)
    (granted : Granted pt va type s o t e) : Cured h pt va type user s o t e := by
  have m := fixed.mapped
  have maps : translate t.mem pt va = some e := (m.translate va).trans (if_pos rfl)
  refine ⟨maps, translate_valid maps, granted.perms, fixed.user, ?_, m.elsewhere w⟩
  cases was : translate s.mem pt va with
  | some old =>
    obtain ⟨frame, contents⟩ := granted.kept old was
    exact .inl ⟨old, was, frame, contents⟩
  | none =>
    have free := granted.fresh was
    obtain ⟨l, chain, -, members⟩ := w.free
    obtain ⟨l', chain', -, members'⟩ := m.owns.free
    refine .inr ⟨was, ⟨l, chain, (members _).mpr free⟩, ⟨l', chain', fun inside => ?_⟩,
      fixed.zeros was⟩
    have still := (members' _).mp inside
    rcases fixed.frame with owner | ⟨old, is, -⟩
    · rw [owner] at still
      cases still
    · rw [was] at is
      cases is

/-- A mapping that is denied does not return. -/
theorem demandPage_denied (w : Owns s o) (denied : ¬ MayMap s va) (type : Access) (user : Bool) :
    wp (demandPage pt va type user) (fun _ _ => False) (fun _ _ => True) s := by
  unfold demandPage
  rw [wp_bind]
  refine wp_mono (allocPage_wp w) ?_ fun _ _ _ => trivial
  rintro page t ⟨free, -, quiet, -⟩
  rw [if_neg (w.ne_zero (by simp [free]))]
  simp only [clearPage, wp_bind, wp_modify]
  refine wp_of_run (fun r u run => ?_) fun _ _ _ => trivial
  have may := mayMap_of_run run
  refine absurd (fun isUser => may ?_) denied
  simpa [Kernel.userCurrent, quiet.procs, quiet.current] using isUser

theorem handlePageFault_cures (w : Owns s o) (root : o s.faultTable.1 = .table h []) (va : Word)
    (type : Access) : wp (handlePageFault va type) (fun _ t => ∃ e, Cured h s.faultTable.1
      (pageStart va) type (s.faultTable.2 && pageStart va < USER_LIMIT) s o t e)
      (fun _ _ => True) s := by
  unfold handlePageFault
  rw [wp_bind, wp_get]
  generalize s.faultTable = table at root ⊢
  obtain ⟨pt, isUser⟩ := table
  dsimp only at root ⊢
  split
  · exact trivial
  split
  · exact trivial
  split
  · exact trivial
  split
  · exact trivial
  have translated := translate_of_walkLookup w root (pageStart va)
  split
  · next pte found =>
    obtain ⟨is, valid⟩ := Option.filter_eq_some_iff.mp found
    refine wp_mono (raisePerm_wp w root type _ is (by simpa using valid)) ?_ fun _ _ _ => trivial
    rintro - t ⟨o', e, fixed, granted⟩
    exact ⟨e, fixed.cured w granted⟩
  · next missing =>
    split
    · exact trivial
    have unset : translate s.mem pt (pageStart va) = none := by
      rw [translated]
      cases is : walkLookup s.mem pt (pageStart va) with
      | none => rfl
      | some pte =>
        rw [is] at missing
        simpa [Option.filter] using missing
    by_cases may : MayMap s (pageStart va)
    · refine wp_mono (demandPage_wp w root may type _ unset fun user => ?_) ?_ fun _ _ _ => trivial
      · exact of_decide_eq_true (Bool.and_eq_true_iff.mp user).2
      · rintro - t ⟨o', e, fixed, granted⟩
        exact ⟨e, fixed.cured w granted⟩
    · exact wp_conseq (demandPage_denied w may type _) fun _ _ never => never.elim

/-- A page fault that is handled is cured, and nothing else changes. -/
theorem handle_page_fault_cures (w : Owns s o) (root : o s.faultTable.1 = .table h []) (va : Word)
    (type : Access) (run : handlePageFault va type s = .ok 1 t) :
    ∃ e, Cured h s.faultTable.1 (pageStart va) type
      (s.faultTable.2 && pageStart va < USER_LIMIT) s o t e :=
  wp_ok (handlePageFault_cures w root va type) run

theorem handle_page_fault_cures_sample : ∃ o h e, Cured h sampleStarted.faultTable.1
    (pageStart 0x400008) .store (sampleStarted.faultTable.2 && pageStart 0x400008 < USER_LIMIT)
    sampleStarted o (after (handlePageFault 0x400008 .store) sampleStarted) e := by
  have handled : value (handlePageFault 0x400008 .store) sampleStarted = some 1 := by decide +kernel
  obtain ⟨o, inv⟩ := Reachable.inv ⟨_, sampleBoot_booted, sampleStarted_run⟩
  rcases inv.faultTable with ⟨p, -, user, is⟩ | ⟨-, is⟩
  · have root : o sampleStarted.faultTable.1 = .table (some p) [] := by
      rw [is]
      exact user.space.root
    exact ⟨o, _, handle_page_fault_cures inv.owns root 0x400008 .store (run_of_value handled)⟩
  · have root : o sampleStarted.faultTable.1 = .table none [] := by
      rw [is]
      exact inv.kernelRoot
    exact ⟨o, _, handle_page_fault_cures inv.owns root 0x400008 .store (run_of_value handled)⟩

/-! ### A table that maps itself -/

/-- Before the first process there is only the kernel's table. -/
theorem Owns.booted (w : Owns s o) (root : o s.kernelPagetable = .table none [])
    (unused : ∀ p, (s.procs p).state = .unused) (current : s.current = none) : Booted s := by
  have at_node : ∀ {ds pg}, ds.length ≤ 2 → node s.mem s.kernelPagetable ds = some pg →
      o pg = .table none ds := fun {ds pg} short walk =>
    label_eq.mp ((w.tree none).node (label_eq.mpr root) (show 0 + ds.length ≤ 2 by omega) walk)
  obtain ⟨l, chain, nodup, members⟩ := w.free
  refine ⟨w.base, ⟨l, chain, nodup, fun pg inside => ⟨?_, fun ds short walk => ?_⟩⟩,
    fun ds pg short walk => ⟨?_, fun ds' short' walk' => ?_⟩, fun ds pg i len walk => ?_, unused,
    current⟩
  · exact w.managed pg (by rw [(members pg).mp inside]; simp)
  · have table := at_node short walk
    rw [(members pg).mp inside] at table
    cases table
  · exact w.managed pg (by rw [at_node short walk]; simp)
  · have table := at_node short walk
    rw [at_node short' walk'] at table
    injection table
  · exact w.solid pg none ds i (at_node len.le walk) len

/-- The page in which the kernel's table keeps the entry of this very page. -/
def ownTable : Word := 0x87001000

/-- The kernel's table maps a page of its own to itself, as `kvmmake` maps all of memory. -/
@[irreducible] def sampleIdentity : Kernel :=
  after (mapPage sampleBoot.kernelPagetable ownTable ownTable (R ||| W)) sampleBoot

theorem sampleIdentity_reachable : Reachable sampleIdentity := by
  have mapped : value (mapPage sampleBoot.kernelPagetable ownTable ownTable (R ||| W)) sampleBoot =
      some 0 := by
    decide +kernel
  obtain ⟨o, inv⟩ := sampleBoot_booted.inv
  have run := run_of_value mapped
  obtain ⟨-, o', done⟩ := wp_ok (mapPage_wp inv.owns inv.kernelRoot (mayMap_of_run run) (by decide)) run
  unfold sampleIdentity
  refine ⟨_, done.owns.booted ?_ ?_ ?_, .refl⟩
  · rw [done.quiet.kernelPagetable]
    exact done.grows.table inv.kernelRoot
  · rw [done.quiet.procs]
    exact fun _ => rfl
  · exact done.quiet.current

/-- A fault on that page is handled, and the page is not what it was. -/
theorem cured_page_changes : Reachable sampleIdentity ∧
    value (handlePageFault ownTable .fetch) sampleIdentity = some 1 ∧
    (translate sampleIdentity.mem sampleIdentity.kernelPagetable ownTable).map pte2pa =
      some ownTable ∧
    (translate (after (handlePageFault ownTable .fetch) sampleIdentity).mem
      sampleIdentity.kernelPagetable ownTable).map pte2pa = some ownTable ∧
    (after (handlePageFault ownTable .fetch) sampleIdentity).mem ownTable (slot (index 0 ownTable)) ≠
      sampleIdentity.mem ownTable (slot (index 0 ownTable)) :=
  ⟨sampleIdentity_reachable, by decide +kernel, by decide +kernel, by decide +kernel,
    by decide +kernel⟩

end Xv6Lab.Vm

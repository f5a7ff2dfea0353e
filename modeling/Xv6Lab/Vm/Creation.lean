import Xv6Lab.Vm.Invariant
import Xv6Lab.Vm.Copying

/-! The creation of processes: what it makes of an unused slot, and that it keeps the invariant. -/

namespace Xv6Lab.Vm

open Rv64 Sv39 Exec
open Trap (PGSIZE TRAMPOLINE TRAPFRAME Field makeSatp)

variable {s t u : Kernel} {o o' o'' : Owners} {h : Holder} {p q : Slot} {pg pt va : Word}

/-! ### The special pages -/

/-- `map_page` never gives the user access to the upper half. -/
theorem mapEntry_high (high : USER_LIMIT ≤ va) (pa perm : Word) (old : Option Word) :
    mapEntry va pa perm old &&& U = 0 := by
  have clear : ∀ x : Word, (pa2pte pa ||| mapPerm va x ||| V) &&& U = 0 := by
    intro x
    rw [mapPerm, if_pos high, BitVec.or_assoc, make_bit _ _ (by decide), BitVec.and_or_distrib_right,
      BitVec.and_assoc]
    have none : x &&& (~~~U &&& U) = 0 := by
      have zero : ~~~U &&& U = 0 := by decide
      rw [zero]
      exact BitVec.and_zero
    rw [none]
    decide
  cases old <;> exact clear _

theorem special_high (special : va = TRAPFRAME ∨ va = TRAMPOLINE) : ¬ Low va ∧ USER_LIMIT ≤ va := by
  rcases special with rfl | rfl <;> decide

theorem Draft.mapSpecial_wp (d : Draft q s o t o') (special : va = TRAPFRAME ∨ va = TRAMPOLINE)
    (pa perm : Word) (solid : perm &&& (R ||| W ||| X) ≠ 0) :
    wp (mapPage (t.procs q).pagetable va pa perm) (fun r u => r = 0 ∧ ∃ o'' e, Draft q s o u o'' ∧
      Mapped (some q) (t.procs q).pagetable va e t o' u o'') Panics t := by
  refine wp_conseq (mapPage_wp d.owns d.space.root (fun _ => .inr special.symm) solid) ?_
  rintro r u ⟨zero, o'', mapped⟩
  refine ⟨zero, o'', _, d.grow mapped.owns mapped.quiet mapped.grows (d.space.mapped mapped
    (fun low => absurd low (special_high special).1) fun _ => ⟨mapEntry_high (special_high special).2 ..,
      special.imp (congrArg path) (congrArg path)⟩), mapped⟩

/-! ### Kernel processes -/

/-- The kernel process `c` has taken two pages and no more. -/
def Slim (c : Slot) (o : Owners) (t : Kernel) (o' : Owners) : Prop :=
  ∀ pg, o pg = .free ↔ o' pg = .free ∨ pg = (t.procs c).trapframe ∨ pg = (t.procs c).kstack

theorem createKernelProc_wp (inv : Inv s o) (entry : Word) :
    wp (createKernelProc entry) (fun r t => (r = -1 ∧ t = s) ∨
      ∃ c : Slot, r = c.val ∧ ∃ o', Created c false s o t o' ∧ Slim c o t o') Panics s := by
  unfold createKernelProc
  rw [wp_bind]
  refine wp_conseq (allocProc_wp inv.owns false) ?_
  rintro r t (⟨rfl, rfl⟩ | ⟨q, o', rfl, a⟩)
  · exact .inl ⟨rfl, rfl⟩
  · simp only [wp_bind, wp_get, storeField, updProc, wp_modify, wp_pure]
    set tf := (t.procs q).trapframe
    have own : (o' tf).of (some q) := by rw [a.trapframe]; exact rfl
    have away : ∀ pg ≠ tf, Trap.set t.mem tf .epc entry pg = t.mem pg :=
      fun pg ne => funext fun off => Mem.store_page _ _ _ _ ne
    have owns := a.owns.setMem (Trap.set t.mem tf .epc entry) fun pg owned => away pg (by
      rintro rfl
      rw [a.trapframe] at owned
      simp at owned)
    have spares := a.grows.spares.trans (.store own _ away)
    refine .inr ⟨q, a.pid, o', {
      keeps := a.grows.keeps
      sealed := inv.sealed_of_spares spares a.only.kernelPagetable
      trampoline := a.only.trampolinePhysAddr
      chosen := a.chosen
      only := a.only.trans (((Quiet.setMem t _).only q).trans (.setProc q _ _))
      runnable := by simp
      parent := by simp [a.only.current]
      pid := by simpa using a.pid
      isUser := by simpa using a.isUser
      inv := ?_ }, fun pg => by simpa using a.takes rfl pg⟩
    refine inv.change (some q) (owns.setProc q _) spares a.only.kernelPagetable
      (inv.root_of_spares spares a.only.kernelPagetable) (fun p ne => ?_) (fun p mine free => ?_)
      (fun p mine _ => ?_) (fun p cur => ?_)
    · have ne' : p ≠ q := fun same => ne (same ▸ rfl)
      have same : ((t.setMem (Trap.set t.mem tf .epc entry)).setProc q
          { t.procs q with state := .runnable, parent := t.current }).procs p = s.procs p := by
        rw [setProc_procs, Function.update_of_ne ne']
        exact a.only.procs p ne'
      exact same ▸ .refl _
    · obtain rfl := Option.some.inj mine
      simp at free
    · obtain rfl := Option.some.inj mine
      refine ⟨by simpa using a.trapframe, by simpa using a.kstack, fun user => ?_, fun _ => ?_⟩
      · rw [setProc_procs, Function.update_self] at user
        exact absurd (a.isUser.symm.trans user) (by simp)
      · rw [setProc_procs, Function.update_self]
        exact a.kernel rfl
    · have cur' : s.current = some p := a.only.current.symm.trans cur
      have running := inv.current p cur'
      have ne : p ≠ q := by
        rintro rfl
        rw [nextSlot_unused a.chosen] at running
        cases running
      rw [setProc_procs, Function.update_of_ne ne]
      show (t.procs p).state = _
      rw [a.only.procs p ne]
      exact running

/-! ### User processes -/

theorem byteMask_bit (m : Nat) : (0xff : Word).getLsbD m = decide (m < 8) := by
  by_cases small : m < 64
  · have all : ∀ m : Fin 64, (0xff : Word).getLsbD m = decide (m.val < 8) := by decide
    exact all ⟨m, small⟩
  · rw [BitVec.getLsbD_of_ge _ _ (by omega), decide_eq_false (by omega)]

theorem putByte_bit (w : Word) (k m : Nat) (hm : m < 64) (b : BitVec 8) :
    (putByte w k b).getLsbD m =
      if 8 * k ≤ m ∧ m < 8 * k + 8 then b.getLsbD (m - 8 * k) else w.getLsbD m := by
  unfold putByte
  simp only [BitVec.getLsbD_or, BitVec.getLsbD_and, BitVec.getLsbD_not, BitVec.getLsbD_shiftLeft,
    BitVec.getLsbD_setWidth, byteMask_bit]
  by_cases below : m < 8 * k
  · rw [if_neg (by omega)]
    simp [hm, below]
  · by_cases inside : m < 8 * k + 8
    · have low : m - 8 * k < 8 := by omega
      have small : m - 8 * k < 64 := by omega
      rw [if_pos ⟨by omega, inside⟩]
      simp [hm, below, low, small]
    · have high : ¬ m - 8 * k < 8 := by omega
      rw [if_neg (by omega)]
      simp [hm, below, high, BitVec.getLsbD_of_ge b (m - 8 * k) (by omega)]

/-- Byte `j` of a doubleword after byte `k` is replaced. -/
theorem putByte_byte (w : Word) {k j : Nat} (hj : j < 8) (b : BitVec 8) :
    (putByte w k b >>> (8 * j)).setWidth 8 = if j = k then b else (w >>> (8 * j)).setWidth 8 := by
  apply BitVec.eq_of_getLsbD_eq
  intro i hi
  rw [BitVec.getLsbD_setWidth, BitVec.getLsbD_ushiftRight, putByte_bit _ _ _ (by omega)]
  by_cases same : j = k
  · subst same
    rw [if_pos (by omega), if_pos rfl, Nat.add_sub_cancel_left]
    simp [hi]
  · rw [if_neg (by omega), if_neg same, BitVec.getLsbD_setWidth, BitVec.getLsbD_ushiftRight]

/-- A byte of a page after one byte is replaced. -/
theorem byteAt_putByte (contents : Word → Word) {k i : Nat} (hk : k < 4096) (hi : i < 4096)
    (b : BitVec 8) : byteAt (Function.update contents (BitVec.ofNat 64 (k / 8 * 8))
      (putByte (contents (BitVec.ofNat 64 (k / 8 * 8))) (k % 8) b)) i =
        if i = k then b else byteAt contents i := by
  unfold byteAt
  by_cases word : i / 8 = k / 8
  · rw [word, Function.update_self, putByte_byte _ (by omega)]
    by_cases same : i = k
    · rw [if_pos same, if_pos (by omega)]
    · rw [if_neg same, if_neg (by omega)]
  · have other : (BitVec.ofNat 64 (i / 8 * 8) : Word) ≠ BitVec.ofNat 64 (k / 8 * 8) := by
      intro same
      have eq := congrArg BitVec.toNat same
      rw [BitVec.toNat_ofNat, BitVec.toNat_ofNat] at eq
      omega
    rw [Function.update_of_ne other, if_neg (by omega)]

/-- `memcpy` of at most a page into a page. -/
theorem memcpy_wp {dst : Word} (aligned : dst.toNat % 4096 = 0) (src : Nat → BitVec 8) {n : Nat}
    (fits : n ≤ 4096) {E : Halt → Kernel → Prop} :
    wp (memcpy dst src n) (fun _ t => ∃ mem, t = s.setMem mem ∧ (∀ pg ≠ dst, mem pg = s.mem pg) ∧
      ∀ i < 4096, byteAt (mem dst) i = if i < n then src i else byteAt (s.mem dst) i) E s := by
  unfold memcpy
  refine wp_conseq (wp_forM (fun rest t => ∃ k ≤ n, rest = List.range' k (n - k) ∧
    ∃ mem, t = s.setMem mem ∧ (∀ pg ≠ dst, mem pg = s.mem pg) ∧
      ∀ i < 4096, byteAt (mem dst) i = if i < k then src i else byteAt (s.mem dst) i) ?_ (List.range n)
    ⟨0, Nat.zero_le _, List.range_eq_range', s.mem, rfl, fun _ _ => rfl, fun _ _ => rfl⟩) ?_
  · rintro i rest t ⟨k, le, is, mem, rfl, away, bytes⟩
    obtain ⟨m, left⟩ : ∃ m, n - k = m + 1 := by
      cases count : n - k with
      | zero =>
        rw [count] at is
        cases is
      | succ m => exact ⟨m, rfl⟩
    rw [left, List.range'_succ, List.cons.injEq] at is
    obtain ⟨rfl, rfl⟩ := is
    have bound := dst.isLt
    have sum : (dst + BitVec.ofNat 64 i).toNat = dst.toNat + i := by
      rw [BitVec.toNat_add, BitVec.toNat_ofNat]
      omega
    have page : (BitVec.ofNat 64 ((dst + BitVec.ofNat 64 i).toNat / 4096 * 4096) : Word) = dst := by
      apply BitVec.eq_of_toNat_eq
      rw [sum, BitVec.toNat_ofNat]
      omega
    have inPage : (dst + BitVec.ofNat 64 i).toNat % 4096 / 8 * 8 = i / 8 * 8 ∧
        (dst + BitVec.ofNat 64 i).toNat % 8 = i % 8 := by
      rw [sum]
      omega
    simp only [storeByte, wp_bind, wp_get, storeWord, wp_modify, page, inPage.1, inPage.2]
    refine ⟨i + 1, by omega, by rw [show n - (i + 1) = m by omega], _, rfl, fun pg ne => ?_,
      fun j inside => ?_⟩
    · funext off
      rw [Mem.store_page _ _ _ _ ne]
      exact congrFun (away pg ne) off
    · simp only [setMem_mem, Mem.store, Function.update_self]
      rw [byteAt_putByte _ (by omega) inside, bytes j inside]
      by_cases same : j = i
      · rw [if_pos same, if_pos (by omega), same]
      · rw [if_neg same]
        by_cases below : j < i
        · rw [if_pos below, if_pos (by omega)]
        · rw [if_neg below, if_neg (by omega)]
  · rintro - t ⟨k, le, is, mem, rfl, away, bytes⟩
    obtain rfl : k = n := by
      have length := congrArg List.length is
      rw [List.length_range'] at length
      simp only [List.length_nil] at length
      omega
    exact ⟨mem, rfl, away, bytes⟩

/-- A new page is mapped for a process under construction. -/
structure Extended (q : Slot) (va page : Word) (s : Kernel) (o : Owners) (t u : Kernel)
    (o' : Owners) : Prop where
  draft : Draft q s o u o'
  owner : o' page = .frame (some q) (path va)
  procs : u.procs = t.procs
  others : ∀ va', path va' ≠ path va →
    translate u.mem (t.procs q).pagetable va' = translate t.mem (t.procs q).pagetable va'

theorem Draft.mapFrame_grows {page perm : Word} (d : Draft q s o t o') (free : o' page = .free)
    (filled : Filled (some q) page (.frame (some q) (path va)) t o' u) (low : va < USER_LIMIT)
    (unset : translate t.mem (t.procs q).pagetable va = none)
    (solid : perm &&& (R ||| W ||| X) ≠ 0) (user : perm &&& U ≠ 0) (small : perm.toNat < 1024) :
    wp (mapPage (t.procs q).pagetable va page perm) (fun r v => r = 0 ∧ ∃ o'',
      Extended q va page s o t v o'' ∧ Grows (some q) t o' v o'') Panics u := by
  refine wp_conseq (mapFrame_wp d.owns free filled d.space low unset solid user small) ?_
  rintro r v ⟨zero, o'', framed⟩
  refine ⟨zero, o'', ⟨d.grow framed.owns framed.quiet framed.grows framed.space, framed.owner,
    framed.quiet.procs, fun va' ne => ?_⟩, framed.grows⟩
  rw [framed.translate va', if_neg ne]

/-- The stack page that turn `i` of the loop of `create_user_proc` maps. -/
def stackVa (i : Nat) : Word := USER_STACK_SIZE - PGSIZE * BitVec.ofNat 64 (i + 1)

theorem mapStack_wp (l : List Nat) {done : K Int} {Q : Int → Kernel → Prop} (d : Draft q s o t o')
    (low : ∀ i ∈ l, stackVa i < USER_LIMIT)
    (distinct : l.Pairwise fun i j => path (stackVa j) ≠ path (stackVa i))
    (unset : ∀ i ∈ l, translate t.mem (t.procs q).pagetable (stackVa i) = none)
    (next : ∀ u o'', Draft q s o u o'' → Adds (some q) t o' u o'' → wp done Q Panics u) :
    wp (mapStack q done l) Q Panics t := by
  induction l generalizing t o' with
  | nil => exact next t o' d (.refl _ t o')
  | cons i rest ih =>
    obtain ⟨apart, distinct⟩ := List.pairwise_cons.mp distinct
    unfold mapStack
    rw [wp_bind]
    refine wp_conseq (allocPage_for d.owns (.frame (some q) (path (stackVa i))) rfl (by simp)) ?_
    rintro page u ⟨free, filled⟩
    rw [if_neg (d.owns.ne_zero (by simp [free]))]
    simp only [wp_bind, wp_get, filled.quiet.procs]
    refine wp_conseq (d.mapFrame_grows free filled (low i (by simp)) (unset i (by simp)) (by decide)
      (by decide) (by decide)) ?_
    rintro r v ⟨rfl, o'', more, grows⟩
    rw [if_neg (by simp)]
    refine ih more.draft (fun j inside => low j (by simp [inside])) distinct (fun j inside => ?_)
      fun w o₃ d' adds => next w o₃ d' (grows.adds.trans adds)
    rw [more.procs, more.others _ (apart j inside)]
    exact unset j (by simp [inside])

/-- Only the page `tf` has been written to. -/
def Scribbled (tf : Word) (t u : Kernel) : Prop :=
  ∃ mem, u = t.setMem mem ∧ ∀ pg ≠ tf, mem pg = t.mem pg

section Scribbled

variable {tf : Word} {E : Halt → Kernel → Prop}

theorem Scribbled.update (sc : Scribbled tf t u) (contents : Word → Word) :
    Scribbled tf t (u.setMem (Function.update u.mem tf contents)) := by
  obtain ⟨mem, rfl, away⟩ := sc
  exact ⟨_, rfl, fun pg ne => (Function.update_of_ne ne _ _).trans (away pg ne)⟩

theorem clearTrapframe_wp (sc : Scribbled tf t u) :
    wp (clearTrapframe tf) (fun _ => Scribbled tf t) E u :=
  sc.update _

theorem storeField_wp (sc : Scribbled tf t u) (f : Field) (v : Word) :
    wp (storeField tf f v) (fun _ => Scribbled tf t) E u :=
  sc.update _

theorem Draft.scribbled (d : Draft q s o t o') (at_tf : o' tf = .trapframe (some q))
    (sc : Scribbled tf t u) : Draft q s o u o' ∧ u.procs = t.procs ∧ Quiet t u ∧
      ∀ va, translate u.mem (t.procs q).pagetable va = translate t.mem (t.procs q).pagetable va := by
  obtain ⟨mem, rfl, away⟩ := sc
  have own : (o' tf).of (some q) := by
    rw [at_tf]
    exact rfl
  obtain ⟨draft, moved⟩ := d.write own (by simp [at_tf]) mem away
  exact ⟨draft, rfl, .setMem t mem, moved⟩

theorem Scribbled.adds (sc : Scribbled tf t u) (at_tf : o' tf = .trapframe h) :
    Adds h t o' u o' := by
  obtain ⟨mem, rfl, away⟩ := sc
  exact .store (by rw [at_tf]; exact rfl) mem away

end Scribbled

/-- The user's pages are as they were when the rest of `create_user_proc` began. -/
structure Finished (q : Slot) (t : Kernel) (o' : Owners) (u : Kernel) : Prop where
  pagetable : (u.procs q).pagetable = (t.procs q).pagetable
  low : ∀ va, Low va → translate u.mem (t.procs q).pagetable va =
    translate t.mem (t.procs q).pagetable va
  frames : ∀ pg ds, o' pg = .frame (some q) ds → u.mem pg = t.mem pg

/-- The rest of `create_user_proc`: the trapframe and the two special pages. -/
theorem finishUserProc_adds (d : Draft q s o t o') (inv : Inv s o) (chosen : s.nextSlot = some q)
    (usertrap kernelvec : Word) :
    wp (finishUserProc q usertrap kernelvec) (fun r u => r = q.val ∧
      (∃ o'', Created q true s o u o'' ∧ Adds (some q) t o' u o'') ∧ Finished q t o' u) Panics t := by
  unfold finishUserProc
  simp only [wp_bind, updProc, wp_modify, wp_get]
  have d₁ := d.assign { t.procs q with sz := USER_STACK_SIZE } rfl rfl rfl ⟨rfl, rfl⟩
  set t₁ := t.setProc q { t.procs q with sz := USER_STACK_SIZE } with is₁
  refine wp_conseq (d₁.mapSpecial_wp (.inl rfl) _ _ (by decide)) ?_
  rintro r u ⟨rfl, o₂, e, d₂, mapped⟩
  rw [if_neg (by simp)]
  simp only [wp_bind]
  have procs₂ : u.procs q = t₁.procs q := by rw [mapped.quiet.procs]
  refine wp_conseq (clearTrapframe_wp ⟨u.mem, rfl, fun _ _ => rfl⟩) fun _ v sc => ?_
  iterate 7 refine wp_conseq (storeField_wp sc _ _) fun _ v sc => ?_
  have at_tf : o₂ (t₁.procs q).trapframe = .trapframe (some q) := procs₂ ▸ d₂.trapframe
  obtain ⟨d₃, procs₃, quiet₃, moved₃⟩ := d₂.scribbled at_tf sc
  have procs : v.procs q = t₁.procs q := by rw [procs₃, procs₂]
  rw [wp_modify]
  have d₄ := d₃.assign { v.procs q with state := .runnable } rfl rfl rfl ⟨rfl, rfl⟩
  set v₁ := v.setProc q { v.procs q with state := .runnable } with is₄
  have table : (t₁.procs q).pagetable = (v₁.procs q).pagetable := by simp [is₄, procs]
  rw [table]
  refine wp_conseq (d₄.mapSpecial_wp (.inr rfl) _ _ (by decide)) ?_
  rintro r x ⟨rfl, o₅, e', d₅, mapped'⟩
  rw [if_neg (by simp), wp_bind, wp_modify, wp_pure]
  have procs₅ : x.procs q = v₁.procs q := by rw [mapped'.quiet.procs]
  have same : { x.procs q with parent := t₁.current }.pagetable = (v₁.procs q).pagetable := by
    rw [procs₅]
  have old : ∀ va, translate v.mem (v₁.procs q).pagetable va =
      translate u.mem (v₁.procs q).pagetable va := by
    intro va
    have moved := moved₃ va
    rwa [procs₂, table] at moved
  have frame : translate v.mem (v₁.procs q).pagetable TRAPFRAME = some e := by
    rw [old, ← table, mapped.translate, if_pos rfl]
  have adds : Adds (some q) t o' x o₅ :=
    (mapped.grows.adds.trans (sc.adds at_tf)).trans mapped'.grows.adds
  refine ⟨d₁.pid, ⟨o₅, (d₅.assign { x.procs q with parent := t₁.current } rfl rfl rfl
    ⟨rfl, rfl⟩).created inv chosen ?_ ?_ ?_ ?_ ?_, adds⟩, ?_, fun va low => ?_,
    fun pg ds owner => ?_⟩
  · rw [setProc_procs, Function.update_self, same, setProc_mem, mapped'.translate, if_neg (by decide)]
    show translate v.mem (v₁.procs q).pagetable TRAPFRAME ≠ none
    rw [frame]
    simp
  · rw [setProc_procs, Function.update_self, same, setProc_mem, mapped'.translate, if_pos rfl]
    simp
  · simp [procs₅, is₄, procs, is₁]
  · simp [procs₅, is₄]
  · rw [setProc_procs, Function.update_self]
    exact d₁.only.current
  · rw [setProc_procs, Function.update_self, same, ← table, is₁, setProc_procs, Function.update_self]
  · have root : (t.procs q).pagetable = (v₁.procs q).pagetable := by
      rw [← table, is₁, setProc_procs, Function.update_self]
    have notSpecial : ∀ va', ¬ Low va' → path va ≠ path va' :=
      fun va' high eq => high ((low_congr eq).mp low)
    rw [setProc_mem, root, mapped'.translate, if_neg (notSpecial _ (by decide)),
      show v₁.mem = v.mem from rfl, old, ← table, mapped.translate,
      if_neg (notSpecial _ (by decide))]
    rfl
  · obtain ⟨mem, is, away⟩ := sc
    obtain ⟨owner₂, kept₂⟩ := mapped.grows.frame owner
    obtain ⟨-, kept₅⟩ := mapped'.grows.frame owner₂
    have apart : pg ≠ (t₁.procs q).trapframe := by
      rintro rfl
      rw [at_tf] at owner₂
      cases owner₂
    have written : v.mem pg = u.mem pg := by
      rw [is]
      exact away pg apart
    rw [setProc_mem, kept₅]
    exact written.trans kept₂

theorem finishUserProc_wp (d : Draft q s o t o') (inv : Inv s o) (chosen : s.nextSlot = some q)
    (usertrap kernelvec : Word) :
    wp (finishUserProc q usertrap kernelvec) (fun r u => r = q.val ∧
      (∃ o', Created q true s o u o') ∧ Finished q t o' u) Panics t :=
  wp_conseq (finishUserProc_adds d inv chosen usertrap kernelvec)
    fun _ _ ⟨is, ⟨o'', created, _⟩, finished⟩ => ⟨is, ⟨o'', created⟩, finished⟩

/-- `create_user_proc` makes a process of the unused slot, and writes to no page but the ones it
takes. -/
theorem createUserProc_adds (inv : Inv s o) (userBin : Nat → BitVec 8) {binSize : Nat}
    (fits : binSize ≤ 4096) (usertrap kernelvec : Word) :
    wp (createUserProc userBin binSize usertrap kernelvec) (fun r t => (r = -1 ∧ t = s) ∨
      ∃ c : Slot, r = c.val ∧ ∃ o', Created c true s o t o' ∧ Adds (some c) s o t o') Panics s := by
  unfold createUserProc
  rw [wp_bind]
  refine wp_conseq (allocProc_wp inv.owns true) ?_
  rintro r t (⟨rfl, rfl⟩ | ⟨q, o', rfl, a⟩)
  · exact .inl ⟨rfl, rfl⟩
  · have d := a.draft
    have empty := (a.user rfl).2
    simp only [wp_bind]
    refine wp_conseq (allocPage_for d.owns (.frame (some q) (path USER_TEXT_START)) rfl (by simp)) ?_
    rintro page u ⟨free, filled⟩
    have m := d.owns.managed page (by simp [free])
    rw [if_neg (d.owns.ne_zero (by simp [free]))]
    simp only [wp_bind, wp_get, filled.quiet.procs]
    refine wp_conseq (d.mapFrame_grows free filled (by decide) (empty _) (by decide) (by decide)
      (by decide)) ?_
    rintro r v ⟨-, o'', more, grows⟩
    refine wp_conseq (memcpy_wp m.aligned userBin fits) ?_
    rintro - x ⟨mem, rfl, away, -⟩
    have own : (o'' page).of (some q) := by
      rw [more.owner]
      exact rfl
    have copied : Adds (some q) s o (v.setMem mem) o'' :=
      (a.grows.trans grows).adds.trans (.store own mem away)
    obtain ⟨d', moved⟩ := more.draft.write own (by simp [more.owner]) mem away
    refine mapStack_wp (List.range 2) d' (by decide) (by decide) (fun i inside => ?_)
      fun y o₃ d'' wrote => wp_conseq (finishUserProc_adds d'' inv a.chosen usertrap kernelvec)
        fun _ _ ⟨is, ⟨o₄, created, rest⟩, _⟩ =>
          .inr ⟨q, is, o₄, created, (copied.trans wrote).trans rest⟩
    have apart : ∀ i ∈ List.range 2, path (stackVa i) ≠ path USER_TEXT_START := by decide
    show translate mem (v.procs q).pagetable _ = none
    rw [moved, more.procs, more.others _ (apart i inside)]
    exact empty _

theorem createUserProc_wp (inv : Inv s o) (userBin : Nat → BitVec 8) {binSize : Nat}
    (fits : binSize ≤ 4096) (usertrap kernelvec : Word) :
    wp (createUserProc userBin binSize usertrap kernelvec) (fun r t => (r = -1 ∧ t = s) ∨
      ∃ c : Slot, r = c.val ∧ ∃ o', Created c true s o t o') Panics s :=
  wp_conseq (createUserProc_adds inv userBin fits usertrap kernelvec)
    fun _ _ => Or.imp_right fun ⟨c, is, o', created, _⟩ => ⟨c, is, o', created⟩

/-! ### Fork -/

/-- Memory with the child's trapframe as `fork_proc` writes it. -/
def forkFrame (mem : Mem) (tf parent kernelSp satp : Word) : Mem :=
  let mem := Function.update mem tf fun off => if off < 312 then mem parent off else mem tf off
  let mem := Trap.set (Trap.set mem tf .kernelSp kernelSp) tf .kernelSatp satp
  let mem := Trap.set mem tf .epc (Trap.get mem tf .epc + 4)
  Trap.set mem tf (.reg .a0) 0

theorem forkFrame_other (mem : Mem) {tf pg : Word} (parent kernelSp satp : Word) (ne : pg ≠ tf) :
    forkFrame mem tf parent kernelSp satp pg = mem pg := by
  simp [forkFrame, Trap.set, Mem.store, ne]

theorem copy_get (mem : Mem) (tf parent : Word) (f : Field) :
    Trap.get (Function.update mem tf fun off => if off < 312 then mem parent off else mem tf off) tf f =
      Trap.get mem parent f := by
  have inside : f.offset < 312 := by
    cases f with
    | reg r => cases r <;> decide
    | _ => decide
  rw [Trap.get, Trap.get, Function.update_self]
  exact if_pos inside

/-- The user registers in the child's trapframe. -/
theorem forkFrame_get (mem : Mem) (tf parent kernelSp satp : Word) {f : Field} (saved : savedField f)
    (notA0 : f ≠ .reg .a0) : Trap.get (forkFrame mem tf parent kernelSp satp) tf f =
      if f = .epc then Trap.get mem parent .epc + 4 else Trap.get mem parent f := by
  have notSp : f ≠ .kernelSp := by rintro rfl; simp [savedField] at saved
  have notSatp : f ≠ .kernelSatp := by rintro rfl; simp [savedField] at saved
  rw [forkFrame, Trap.get_set_ne _ _ _ notA0]
  split
  · next epc =>
    subst epc
    rw [Trap.get_set_same, Trap.get_set_ne _ _ _ (by simp), Trap.get_set_ne _ _ _ (by simp), copy_get]
  · next other =>
    rw [Trap.get_set_ne _ _ _ other, Trap.get_set_ne _ _ _ notSatp, Trap.get_set_ne _ _ _ notSp,
      copy_get]

theorem forkFrame_a0 (mem : Mem) (tf parent kernelSp satp : Word) :
    Trap.get (forkFrame mem tf parent kernelSp satp) tf (.reg .a0) = 0 := by
  rw [forkFrame, Trap.get_set_same]

/-- What a successful `fork_proc` has made of the free slot `c`. -/
structure Forked (p c : Slot) (s : Kernel) (o : Owners) (t : Kernel) (o' : Owners) : Prop
    extends Created c true s o t o' where
  apart : p ≠ c
  spares : Spares (some c) s o t o'
  copies : ∀ i ∈ pagesBelow USER_STACK_SIZE,
    Copied s.mem t.mem o' c (s.procs p).pagetable (t.procs c).pagetable i
  nothingElse : ∀ va, (∀ i ∈ pagesBelow USER_STACK_SIZE, path i ≠ path va) →
    path va ≠ path TRAPFRAME → path va ≠ path TRAMPOLINE →
      translate t.mem (t.procs c).pagetable va = none
  a0 : Trap.get t.mem (t.procs c).trapframe (.reg .a0) = 0
  saved : ∀ f, savedField f → f ≠ .reg .a0 → Trap.get t.mem (t.procs c).trapframe f =
    if f = .epc then Trap.get s.mem (s.procs p).trapframe .epc + 4
    else Trap.get s.mem (s.procs p).trapframe f

/-- Copies outlast what leaves their frames alone. -/
theorem Copied.after {before mem mem' : Mem} {c : Slot} {old new : Word}
    (cp : Copied before mem o c old new va)
    (moved : translate mem' new va = translate mem new va)
    (kept : ∀ pg ds, o pg = .frame (some c) ds → o' pg = o pg ∧ mem' pg = mem pg) :
    Copied before mem' o' c old new va := by
  rw [Copied] at cp ⊢
  rw [moved]
  cases is : translate before old va with
  | none => rw [is] at cp; exact cp
  | some e =>
    rw [is] at cp
    obtain ⟨e', new, flags, contents, owner⟩ := cp
    obtain ⟨same, mem⟩ := kept _ _ owner
    exact ⟨e', new, flags, mem.trans contents, same.trans owner⟩

/-- What is copied is what the parent had before the slot was taken. -/
theorem Copied.before {mem : Mem} {c : Slot} {old new : Word} (w : Owns s o)
    (parent : Space s.mem o p old) (spares : Spares (some c) s o t o') (ne : p ≠ c)
    (low : Low va) (cp : Copied t.mem mem o'' c old new va) : Copied s.mem mem o'' c old new va := by
  have other : some p ≠ some c := fun same => ne (Option.some.inj same)
  rw [Copied, spares.translate w other parent.root] at cp
  rw [Copied]
  cases is : translate s.mem old va with
  | none => rw [is] at cp; exact cp
  | some e =>
    rw [is] at cp
    obtain ⟨e', new, flags, contents, owner⟩ := cp
    have source := (parent.low va e is low).1
    exact ⟨e', new, flags,
      contents.trans (spares _ (some p) other (.inl (by rw [source]; exact rfl))).2, owner⟩

theorem below_limit : ∀ i ∈ pagesBelow USER_STACK_SIZE, i < USER_LIMIT := by
  intro i inside
  have below := (mem_pagesBelow.mp inside).2
  have limit : USER_STACK_SIZE.toNat ≤ USER_LIMIT.toNat := by decide
  exact BitVec.lt_def.mpr (by omega)

/-- The last part of `fork_proc`, for a child whose pages have been copied. -/
theorem forkTrapframe_wp {c : Slot} (inv : Inv s o) (cur : s.current = some p) (ne : p ≠ c)
    (chosen : s.nextSlot = some c) (at_p : o (s.procs p).trapframe = .trapframe (some p))
    (d : Draft c s o t o') (sz : (t.procs c).sz = USER_STACK_SIZE)
    (copies : ∀ i ∈ pagesBelow USER_STACK_SIZE,
      Copied s.mem t.mem o' c (s.procs p).pagetable (t.procs c).pagetable i)
    (nothing : ∀ va, (∀ i ∈ pagesBelow USER_STACK_SIZE, path i ≠ path va) →
      translate t.mem (t.procs c).pagetable va = none) :
    wp (forkTrapframe p c) (fun r t => r = c.val ∧ ∃ o', Forked p c s o t o') Panics t := by
  have m := d.owns.managed (t.procs c).trapframe (by simp [d.trapframe])
  have other : some p ≠ some c := fun same => ne (Option.some.inj same)
  unfold forkTrapframe
  simp only [wp_bind, wp_get]
  rw [if_neg (not_not.mpr m.aligned)]
  simp only [wp_bind]
  refine wp_conseq (d.mapSpecial_wp (.inl rfl) _ _ (by decide)) ?_
  rintro r t₁ ⟨rfl, o₁, e₁, d₁, mapped₁⟩
  have procs₁ : t₁.procs = t.procs := mapped₁.quiet.procs
  rw [if_neg (by simp)]
  simp only [wp_bind]
  have second := d₁.mapSpecial_wp (.inr rfl) t.trampolinePhysAddr (R ||| X) (by decide)
  rw [procs₁] at second
  refine wp_conseq second ?_
  rintro r t₂ ⟨rfl, o₂, e₂, d₂, mapped₂⟩
  have procs₂ : t₂.procs = t.procs := mapped₂.quiet.procs.trans procs₁
  rw [if_neg (by simp)]
  simp only [wp_bind, copyTrapframe, storeField, skipEcall, updProc, wp_modify]
  rw [wp_pure]
  set pt := (t.procs c).pagetable
  set tf := (t.procs c).trapframe with isTf
  set mem := forkFrame t₂.mem tf (t.procs p).trapframe ((t.procs c).kstack + PGSIZE)
    (makeSatp t.kernelPagetable) with isMem
  have at_tf : o₂ tf = .trapframe (some c) := by
    rw [isTf, ← procs₂]
    exact d₂.trapframe
  have own : (o₂ tf).of (some c) := by
    rw [at_tf]
    exact rfl
  have away : ∀ pg ≠ tf, mem pg = t₂.mem pg := fun pg away => forkFrame_other _ _ _ _ away
  obtain ⟨d₃, moved⟩ := d₂.write own (by simp [at_tf]) mem away
  rw [procs₂] at moved
  have final : ∀ va, translate mem pt va = if path va = path TRAMPOLINE then some e₂ else
      if path va = path TRAPFRAME then some e₁ else translate t.mem pt va := by
    intro va
    rw [moved va, mapped₂.translate va, mapped₁.translate va]
  set proc : Proc := { t₂.procs c with state := .runnable, parent := some p } with isProc
  have pages : proc.trapframe = tf ∧ proc.pagetable = pt ∧ proc.sz = USER_STACK_SIZE := by
    simp [isProc, procs₂, sz, isTf, pt]
  have d₄ := d₃.assign proc rfl rfl rfl ⟨rfl, rfl⟩
  show _ ∧ ∃ o', Forked p c s o ((t₂.setMem mem).setProc c proc) o'
  have at_c : ((t₂.setMem mem).setProc c proc).procs c = proc := by simp
  refine ⟨d.pid, o₂, ?_, ne, d₄.spares, fun i inside => ?_,
    fun va out notFrame notTramp => ?_, ?_, fun f saved notA0 => ?_⟩
  · refine d₄.created inv chosen ?_ ?_ ?_ ?_ ?_
    · rw [at_c, pages.2.1, setProc_mem, setMem_mem, final, if_neg (by decide), if_pos rfl]
      simp
    · rw [at_c, pages.2.1, setProc_mem, setMem_mem, final, if_pos rfl]
      simp
    · rw [at_c, pages.2.2]
    · rw [at_c]
    · rw [at_c, cur]
  · have low : Low i := low_of_lt (below_limit i inside)
    have notSpecial : ∀ va, ¬ Low va → path i ≠ path va :=
      fun va high same => high ((low_congr same).mp low)
    rw [at_c, pages.2.1, setProc_mem, setMem_mem]
    refine (copies i inside).after ?_ fun pg ds frame => ?_
    · rw [final, if_neg (notSpecial _ (by decide)), if_neg (notSpecial _ (by decide))]
    · have grows := mapped₁.grows.trans mapped₂.grows
      have same : o₂ pg = o' pg := grows.known (by simp [frame])
      refine ⟨same, (away pg ?_).trans ?_⟩
      · rintro rfl
        rw [same, frame] at at_tf
        cases at_tf
      · exact (grows.frame frame).2
  · rw [at_c, pages.2.1, setProc_mem, setMem_mem, final, if_neg notTramp, if_neg notFrame]
    exact nothing va out
  · rw [at_c, pages.1, setProc_mem, setMem_mem]
    exact forkFrame_a0 _ _ _ _ _
  · have parent : t.procs p = s.procs p := d.only.procs p ne
    have kept : t₂.mem (s.procs p).trapframe = s.mem (s.procs p).trapframe :=
      (d₂.spares _ (some p) other (.inl (by rw [at_p]; exact rfl))).2
    rw [at_c, pages.1, setProc_mem, setMem_mem, isMem, forkFrame_get _ _ _ _ _ saved notA0, parent]
    simp only [Trap.get, kept]

/-- `fork_proc` makes a copy of the caller, or finds no slot. -/
theorem forkProc_wp (inv : Inv s o) (cur : s.current = some p) (isUser : (s.procs p).isUser = true) :
    wp (forkProc p) (fun r t => (r = -1 ∧ t = s) ∨ ∃ c : Slot, r = c.val ∧ ∃ o', Forked p c s o t o')
      Panics s := by
  have running := inv.current p cur
  have alive := inv.alive p (by simp [running])
  have user := alive.user isUser
  unfold forkProc
  simp only [wp_bind, wp_get, isUser]
  refine wp_conseq (allocProc_wp inv.owns true) ?_
  rintro r t (⟨rfl, rfl⟩ | ⟨c, o₁, rfl, a⟩)
  · exact .inl ⟨rfl, rfl⟩
  have ne : p ≠ c := by
    rintro rfl
    have unused := nextSlot_unused a.chosen
    rw [running] at unused
    cases unused
  have other : some p ≠ some c := fun same => ne (Option.some.inj same)
  have empty := (a.user rfl).2
  have d := a.draft
  have low := below_limit
  simp only [wp_bind, wp_get, user.sz, uvmcopy]
  obtain ⟨l, chain, -, -⟩ := d.owns.free
  refine wp_mono (uvmcopyPages_wp d.owns (user.space.spared inv.owns d.spares other) d.space ne chain
    (by decide) fun i _ => empty i) ?_ fun _ _ stopped => stopped.1
  rintro r u ⟨rfl, ⟨o₂, copied, -⟩, -⟩
  rw [if_neg (by simp)]
  simp only [wp_bind, updProc, wp_modify]
  have procs : u.procs c = t.procs c := by rw [copied.quiet.procs]
  have d₂ := (d.grow copied.owns copied.quiet copied.grows copied.space).assign
    { u.procs c with sz := USER_STACK_SIZE } rfl rfl rfl ⟨rfl, rfl⟩
  refine wp_conseq (forkTrapframe_wp inv cur ne a.chosen alive.trapframe d₂ (by simp) ?_ ?_)
    fun r v done => .inr ⟨c, done⟩
  · intro i inside
    rw [setProc_procs, Function.update_self, procs, setProc_mem]
    exact Copied.before inv.owns user.space d.spares ne (low_of_lt (low i inside))
      (copied.copies i inside)
  · intro va out
    rw [setProc_procs, Function.update_self, procs, setProc_mem, copied.others va out]
    exact empty va

end Xv6Lab.Vm

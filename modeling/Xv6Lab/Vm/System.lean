import Xv6Lab.Vm.Creation

/-! Page faults and the reaping of processes keep the invariant, and so does every step of a run. -/

namespace Xv6Lab.Vm

open Rv64 Sv39 Exec Relation
open Trap (PGSIZE TRAMPOLINE TRAPFRAME Field makeSatp)

variable {s t u : Kernel} {o o' o'' : Owners} {h : Holder} {p q z : Slot} {pg pt va : Word}

/-! ### Reaping -/

/-- Process `z` has given back the pages of `l'`. -/
structure Releasing (z : Slot) (o : Owners) (l l' : List Word) (s t : Kernel) : Prop where
  chain : Chain t.mem t.freelist (l' ++ l)
  nodup : l'.Nodup
  own : ∀ pg ∈ l', (o pg).of (some z)
  only : Only z s t
  outside : ∀ pg, ¬ (o pg).of (some z) → t.mem pg = s.mem pg

variable {l l' : List Word}

theorem Releasing.assign (r : Releasing z o l l' s t) (proc : Proc) :
    Releasing z o l l' s (t.setProc z proc) :=
  ⟨r.chain, r.nodup, r.own, r.only.trans (.setProc z t proc), r.outside⟩

theorem Releasing.freePage_wp (r : Releasing z o l l' s t) (w : Owns s o)
    (members : ∀ pg, pg ∈ l ↔ o pg = .free) (own : (o pg).of (some z)) (fresh : pg ∉ l') :
    wp (freePage pg) (fun _ u => Releasing z o l (pg :: l') s u ∧ u.procs = t.procs ∧
      ∀ pg' ≠ pg, u.mem pg' = t.mem pg') Never t := by
  have known : o pg ≠ .other := by
    intro eq
    rw [eq] at own
    exact own
  have used : pg ∉ l := by
    intro inside
    rw [members] at inside
    rw [inside] at own
    exact own
  have m := w.managed pg known
  have base : KERNBASE ≤ t.kernelEnd := r.only.kernelEnd ▸ w.base
  refine wp_conseq (Vm.freePage_wp r.chain base ⟨m.1, r.only.kernelEnd ▸ m.2, m.3⟩ (by
    simp [fresh, used])) ?_
  rintro - u ⟨chain, quiet, away⟩
  refine ⟨⟨chain, List.nodup_cons.mpr ⟨fresh, r.nodup⟩, ?_, r.only.trans (quiet.only z),
    fun pg' out => (away pg' ?_).trans (r.outside pg' out)⟩, quiet.procs, away⟩
  · intro pg' inside
    rcases List.mem_cons.mp inside with rfl | inside
    · exact own
    · exact r.own pg' inside
  · rintro rfl
    exact out own

/-- The map after process `z` is gone: what it has not given back is lost. -/
def releasedOwners (z : Slot) (o : Owners) (l' : List Word) : Owners := fun pg =>
  if pg ∈ l' then .free else if (o pg).of (some z) then .other else o pg

theorem Releasing.spares (r : Releasing z o l l' s t) :
    Spares (some z) s o t (releasedOwners z o l') := by
  intro pg h' ne own
  have other : ¬ (o pg).of (some z) := by
    intro mine
    rcases own with own | own
    · exact ne (Owner.of_unique own mine)
    · unfold releasedOwners at own
      split at own
      · exact own
      · exact own
  have kept : releasedOwners z o l' pg = o pg := by
    rw [releasedOwners, if_neg fun inside => other (r.own pg inside), if_neg other]
  exact ⟨kept, r.outside pg other⟩

theorem releasedOwners_table {ds : List Index}
    (at_pg : releasedOwners z o l' pg = .table h ds) : o pg = .table h ds ∧ h ≠ some z := by
  unfold releasedOwners at at_pg
  split at at_pg
  · cases at_pg
  · split at at_pg
    · cases at_pg
    · next other =>
      refine ⟨at_pg, ?_⟩
      rintro rfl
      rw [at_pg] at other
      exact other rfl

theorem Releasing.owns (r : Releasing z o l l' s t) (w : Owns s o) (nodup : l.Nodup)
    (members : ∀ pg, pg ∈ l ↔ o pg = .free) : Owns t (releasedOwners z o l') where
  base := r.only.kernelEnd ▸ w.base
  free := by
    refine ⟨l' ++ l, r.chain, List.nodup_append.mpr ⟨r.nodup, nodup, ?_⟩, fun pg => ?_⟩
    · intro pg inside pg' inside' same
      subst same
      have own := r.own pg inside
      rw [(members pg).mp inside'] at own
      exact own
    · rw [List.mem_append, members, releasedOwners]
      by_cases inside : pg ∈ l'
      · simp [inside]
      · by_cases own : (o pg).of (some z)
        · simp only [inside, own, if_true, if_false, false_or]
          constructor
          · intro free
            rw [free] at own
            exact own.elim
          · intro impossible
            cases impossible
        · simp [inside, own]
  managed pg known := by
    have old : o pg ≠ .other := by
      intro eq
      apply known
      have out : pg ∉ l' := by
        intro inside
        have own := r.own pg inside
        rw [eq] at own
        exact own
      have other : ¬ (o pg).of (some z) := by
        rw [eq]
        exact id
      rw [releasedOwners, if_neg out, if_neg other, eq]
    have m := w.managed pg old
    exact ⟨m.1, r.only.kernelEnd ▸ m.2, m.3⟩
  tree h := by
    intro pg ds i next at_pg short step
    rw [label_eq] at at_pg ⊢
    obtain ⟨old, ne⟩ := releasedOwners_table at_pg
    have own : (o pg).of h := by rw [old]; exact rfl
    rw [child, entry, (r.spares pg h ne (.inl own)).2] at step
    have target := label_eq.mp (w.tree h pg ds i next (label_eq.mpr old) short step)
    have own' : (o next).of h := by rw [target]; exact rfl
    exact (r.spares next h ne (.inl own')).1.trans target
  solid pg h ds i at_pg len valid := by
    obtain ⟨old, ne⟩ := releasedOwners_table at_pg
    have own : (o pg).of h := by rw [old]; exact rfl
    rw [entry, (r.spares pg h ne (.inl own)).2] at valid ⊢
    exact w.solid pg h ds i old len valid

/-- The record of `z` while `free_proc` works on it. -/
structure SamePages (a b : Proc) : Prop where
  kstack : a.kstack = b.kstack
  pagetable : a.pagetable = b.pagetable
  isUser : a.isUser = b.isUser

theorem freeTrapframe_wp (r : Releasing z o l [] s s) (w : Owns s o)
    (members : ∀ pg, pg ∈ l ↔ o pg = .free) (a : Alive s o z) :
    wp (freeTrapframe z) (fun _ t => Releasing z o l [(s.procs z).trapframe] s t ∧
      SamePages (t.procs z) (s.procs z) ∧ ∀ pg ≠ (s.procs z).trapframe, t.mem pg = s.mem pg) Never
        s := by
  have own : (o (s.procs z).trapframe).of (some z) := by
    rw [a.trapframe]
    exact rfl
  unfold freeTrapframe
  simp only [wp_bind, wp_get]
  rw [if_pos (w.ne_zero (by simp [a.trapframe])), wp_bind]
  refine wp_conseq (r.freePage_wp w members own (by simp)) ?_
  rintro - t ⟨r', procs, away⟩
  exact ⟨r'.assign _, by constructor <;> simp [procs], away⟩

theorem freeTable_wp {tf : Word} (r : Releasing z o l [tf] s t) (w : Owns s o)
    (members : ∀ pg, pg ∈ l ↔ o pg = .free) (a : Alive s o z) (at_tf : o tf = .trapframe (some z))
    (same : SamePages (t.procs z) (s.procs z)) (kept : ∀ pg ≠ tf, t.mem pg = s.mem pg) :
    wp (freeTable z) (fun _ u => ∃ l', Releasing z o l l' s u ∧ (s.procs z).kstack ∉ l' ∧
      (u.procs z).kstack = (s.procs z).kstack ∧ ((s.procs z).isUser = false → l' = [tf])) Never t := by
  have apart : (s.procs z).kstack ∉ [tf] := by
    intro inside
    rw [List.mem_singleton] at inside
    have stack := a.kstack
    rw [inside, at_tf] at stack
    cases stack
  unfold freeTable
  simp only [wp_bind, wp_get, same.pagetable, r.only.kernelPagetable]
  split
  · next own =>
    have user : (s.procs z).isUser = true := by
      by_contra kernel
      exact own.2 (a.kernel (by simpa using kernel))
    have at_pt := (a.user user).space.root
    have below : ∀ pg, Below o (some z) [] pg → (o pg).of (some z) ∧ pg ≠ tf := by
      rintro pg ⟨q, eq⟩
      refine ⟨by rw [eq]; exact rfl, ?_⟩
      rintro rfl
      rw [at_tf] at eq
      cases eq
    have spec := freePagetable_wp w levels at_pt (by simp) (by decide) r.only.kernelEnd r.chain
      (fun pg inside b => by
        rcases List.mem_append.mp inside with inside | inside
        · exact (below pg b).2 (List.mem_singleton.mp inside)
        · have own := (below pg b).1
          rw [(members pg).mp inside] at own
          exact own)
      (fun pg b => kept pg (below pg b).2)
    rw [wp_bind]
    refine wp_conseq spec ?_
    rintro - u ⟨l', freed⟩
    have procs : u.procs z = t.procs z := by rw [freed.quiet.procs]
    refine ⟨l' ++ [tf], Releasing.assign ⟨?_, ?_, ?_, r.only.trans (freed.quiet.only z), ?_⟩ _, ?_,
      by simp [procs, same.kstack], by simp [user]⟩
    · rw [List.append_assoc]
      exact freed.chain
    · refine List.nodup_append.mpr ⟨freed.nodup, r.nodup, fun pg inside pg' inside' eq => ?_⟩
      exact (below pg (freed.below pg inside)).2 (eq.trans (List.mem_singleton.mp inside'))
    · intro pg inside
      rcases List.mem_append.mp inside with inside | inside
      · exact (below pg (freed.below pg inside)).1
      · exact r.own pg inside
    · intro pg out
      exact (freed.outside pg fun b => out (below pg b).1).trans (r.outside pg out)
    · intro inside
      rcases List.mem_append.mp inside with inside | inside
      · obtain ⟨q, eq⟩ := freed.below _ inside
        rw [a.kstack] at eq
        cases eq
      · exact apart inside
  · exact ⟨[tf], r.assign _, apart, by simp [same.kstack], fun _ => rfl⟩

theorem freeStack_wp (r : Releasing z o l l' s t) (w : Owns s o)
    (members : ∀ pg, pg ∈ l ↔ o pg = .free) (a : Alive s o z) (fresh : (s.procs z).kstack ∉ l')
    (same : (t.procs z).kstack = (s.procs z).kstack) :
    wp (freeStack z) (fun _ u => Releasing z o l ((s.procs z).kstack :: l') s u) Never t := by
  have own : (o (s.procs z).kstack).of (some z) := by
    rw [a.kstack]
    exact rfl
  unfold freeStack
  simp only [wp_bind, wp_get, same]
  rw [if_pos (w.ne_zero (by simp [a.kstack])), wp_bind]
  refine wp_conseq (r.freePage_wp w members own fresh) ?_
  rintro - u ⟨r', procs, away⟩
  exact r'.assign _

theorem releasedOwners_keeps (z : Slot) {o : Owners} (own : ∀ pg ∈ l', (o pg).of (some z)) :
    Keeps o (releasedOwners z o l') := by
  intro pg other
  have mine : ¬ (o pg).of (some z) := by
    rw [other]
    exact id
  rw [releasedOwners, if_neg fun inside => mine (own pg inside), if_neg mine, other]

/-- The slot `z` is unused again. -/
structure Gone (z : Slot) (s : Kernel) (o : Owners) (t : Kernel) (o' : Owners) : Prop
    extends Next s o t o' where
  only : Only z s t
  unused : (t.procs z).state = .unused
  returns : (s.procs z).isUser = false → ∀ pg, o' pg = .free ↔
    o pg = .free ∨ pg = (s.procs z).trapframe ∨ pg = (s.procs z).kstack

/-- `free_proc` gives back pages of its process and takes away its slot. -/
theorem freeProc_releases (inv : Inv s o) (used : (s.procs z).state ≠ .unused)
    (chain : Chain s.mem s.freelist l) (members : ∀ pg, pg ∈ l ↔ o pg = .free) :
    wp (freeProc z) (fun _ t => ∃ l', Releasing z o l l' s t ∧ (t.procs z).state = .unused ∧
      ((s.procs z).isUser = false → l' = [(s.procs z).kstack, (s.procs z).trapframe])) Never s := by
  have a := inv.alive z used
  have start : Releasing z o l [] s s :=
    ⟨chain, List.nodup_nil, by simp, (Quiet.refl s).only z, fun _ _ => rfl⟩
  unfold freeProc
  simp only [wp_bind]
  refine wp_conseq (freeTrapframe_wp start inv.owns members a) ?_
  rintro - t₁ ⟨r₁, same₁, kept₁⟩
  refine wp_conseq (freeTable_wp r₁ inv.owns members a a.trapframe same₁ kept₁) ?_
  rintro - t₂ ⟨l₂, r₂, fresh, same₂, exact₂⟩
  refine wp_conseq (freeStack_wp r₂ inv.owns members a fresh same₂) ?_
  rintro - t₃ r₃
  rw [updProc, wp_modify]
  refine ⟨_, r₃.assign _, by simp, fun kernel => ?_⟩
  rw [exact₂ kernel]

/-- `free_proc` of a process that is not running. -/
theorem freeProc_wp (inv : Inv s o) (used : (s.procs z).state ≠ .unused)
    (notCurrent : s.current ≠ some z) :
    wp (freeProc z) (fun _ t => ∃ o', Gone z s o t o') Never s := by
  obtain ⟨l, chain, nodup, members⟩ := inv.owns.free
  refine wp_conseq (freeProc_releases inv used chain members) ?_
  rintro - t ⟨l', r, unused, exact'⟩
  have returns : (s.procs z).isUser = false → ∀ pg, releasedOwners z o l' pg = .free ↔
      o pg = .free ∨ pg = (s.procs z).trapframe ∨ pg = (s.procs z).kstack := by
    intro kernel pg
    have lists : pg ∈ l' ↔ pg = (s.procs z).trapframe ∨ pg = (s.procs z).kstack := by
      rw [exact' kernel, List.mem_cons, List.mem_singleton]
      exact or_comm
    rw [← lists, releasedOwners]
    by_cases inside : pg ∈ l'
    · simp [inside]
    · by_cases own : (o pg).of (some z)
      · have used : o pg ≠ .free := by
          intro free
          rw [free] at own
          exact own
        simp [inside, own, used]
      · simp [inside, own]
  refine ⟨releasedOwners z o l', {
    keeps := releasedOwners_keeps z r.own
    sealed := inv.sealed_of_spares r.spares r.only.kernelPagetable
    trampoline := r.only.trampolinePhysAddr
    only := r.only
    unused := unused
    returns := returns
    inv := ?_ }⟩
  refine inv.change (some z) (r.owns inv.owns nodup members) r.spares
    r.only.kernelPagetable (inv.root_of_spares r.spares r.only.kernelPagetable) (fun p ne => ?_)
    (fun p mine _ pg own => ?_) (fun p mine still => ?_) (fun p cur => ?_)
  · rw [r.only.procs p fun same => ne (same ▸ rfl)]
    exact .refl _
  · obtain rfl := Option.some.inj mine
    unfold releasedOwners at own
    split at own
    · exact own
    · split at own
      · exact own
      · next other => exact other own
  · obtain rfl := Option.some.inj mine
    exact absurd unused still
  · have cur' : s.current = some p := r.only.current.symm.trans cur
    have ne : p ≠ z := by
      rintro rfl
      exact notCurrent cur'
    rw [r.only.procs p ne]
    exact inv.current p cur'

/-! ### Page faults -/

/-- The page of `va` is mapped with an entry for the frame it had, or for a new one. -/
structure Fixed (h : Holder) (pt va : Word) (user : Bool) (s : Kernel) (o : Owners) (t : Kernel)
    (o' : Owners) (e : Word) : Prop where
  mapped : Mapped h pt va e s o t o'
  closed : user = false → (∀ old, translate s.mem pt va = some old → old &&& U = 0) → e &&& U = 0
  user : user = true → e &&& U ≠ 0
  same : translate s.mem pt va ≠ none → o' = o
  frame : o' (pte2pa e) = .frame h (path va) ∨
    ∃ old, translate s.mem pt va = some old ∧ o' (pte2pa e) = o (pte2pa old)
  zeros : translate s.mem pt va = none → t.mem (pte2pa e) = fun _ => 0

/-- The entry has what the access needs; its frame is the one before, with what it held but for the
entry itself, or one from the free list. -/
structure Granted (pt va : Word) (type : Access) (s : Kernel) (o : Owners) (t : Kernel) (e : Word) :
    Prop where
  perms : e &&& type.perm = type.perm
  fresh : translate s.mem pt va = none → o (pte2pa e) = .free
  kept : ∀ old, translate s.mem pt va = some old → pte2pa e = pte2pa old ∧
    ∀ off, (node s.mem pt [index 2 va, index 1 va] = some (pte2pa e) → off ≠ slot (index 0 va)) →
      t.mem (pte2pa e) off = s.mem (pte2pa e) off

/-- The permissions of an access, with `PTE_U` for the user. -/
def faultPerm (type : Access) (user : Bool) : Word := if user then type.perm ||| U else type.perm

theorem faultPerm_facts (type : Access) (user : Bool) :
    faultPerm type user &&& (R ||| W ||| X) ≠ 0 ∧ (faultPerm type user).toNat < 1024 ∧
      (user = true → faultPerm type user &&& U ≠ 0) := by
  cases type <;> cases user <;> decide

theorem faultPerm_closed (type : Access) : faultPerm type false &&& U = 0 := by
  cases type <;> decide

theorem or_user (x : Word) {y : Word} (user : y &&& U ≠ 0) : (x ||| y) &&& U ≠ 0 := by
  rw [BitVec.and_or_distrib_right]
  intro zero
  exact user (BitVec.or_eq_zero_iff.mp zero).2

theorem or_perm (x : Word) {y p : Word} (has : y &&& p = p) : (x ||| y) &&& p = p := by
  rw [BitVec.and_or_distrib_right, has]
  apply BitVec.eq_of_getLsbD_eq
  intro i _
  rw [BitVec.getLsbD_or, BitVec.getLsbD_and]
  cases x.getLsbD i <;> cases p.getLsbD i <;> rfl

theorem faultPerm_perm (type : Access) (user : Bool) :
    faultPerm type user &&& type.perm = type.perm := by
  cases type <;> cases user <;> decide

theorem mapPerm_perm (va : Word) (type : Access) (user : Bool) :
    mapPerm va (faultPerm type user) &&& type.perm = type.perm := by
  unfold mapPerm
  split
  · cases type <;> cases user <;> decide
  · exact faultPerm_perm type user

theorem raisePerm_wp (w : Owns s o) (root : o pt = .table h []) (type : Access) (user : Bool)
    {pte : PteRef} (found : walkLookup s.mem pt va = some pte) (valid : pte.read s.mem &&& V ≠ 0) :
    wp (raisePerm pte type user) (fun _ t => ∃ o' e, Fixed h pt va user s o t o' e ∧
      Granted pt va type s o t e) Panics s := by
  have old : translate s.mem pt va = some (pte.read s.mem) := by
    rw [translate_of_walkLookup w root, found, Option.bind_some, if_neg valid]
  obtain ⟨walk, idx⟩ : node s.mem pt [index 2 va, index 1 va] = some pte.table ∧
      pte.idx = index 0 va := by
    rw [walkLookup_eq w root, Option.map_eq_some_iff] at found
    obtain ⟨pg, walk, rfl⟩ := found
    exact ⟨walk, rfl⟩
  unfold raisePerm
  simp only [wp_bind, wp_get]
  split
  · have raised : (if user then pte.read s.mem ||| type.perm ||| U else pte.read s.mem ||| type.perm) =
        pte.read s.mem ||| faultPerm type user := by
      cases user
      · rfl
      · exact BitVec.or_assoc ..
    obtain ⟨solid, small, userBit⟩ := faultPerm_facts type user
    have validBit : (pte.read s.mem ||| faultPerm type user) &&& V ≠ 0 := by
      rw [BitVec.and_or_distrib_right]
      intro zero
      exact valid (BitVec.or_eq_zero_iff.mp zero).1
    obtain ⟨owns, grows, moved⟩ := w.storeLeaf root walk pte.idx validBit (or_rwx _ solid)
    simp only [PteRef.write, storeWord, raised]
    have frame := pte2pa_or (pte.read s.mem) small
    have set : translate s.mem pt va ≠ none := by simp [old]
    refine ⟨o, pte.read s.mem ||| faultPerm type user,
      ⟨⟨owns, .setMem s _, grows, fun va' => ?_⟩, ?_, fun isUser => or_user _ (userBit isUser),
        fun _ => rfl, .inr ⟨_, old, ?_⟩, fun unset => absurd unset set⟩,
      or_perm _ (faultPerm_perm type user), fun unset => absurd unset set, fun e is => ?_⟩
    · rw [setMem_mem, moved va', idx]
      rfl
    · rintro rfl before
      rw [BitVec.and_or_distrib_right, before _ old, faultPerm_closed]
      exact BitVec.zero_or
    · rw [frame]
    · obtain rfl := Option.some.inj (old.symm.trans is)
      refine ⟨frame, fun off other => ?_⟩
      rw [setMem_mem]
      by_cases here : pte2pa (pte.read s.mem ||| faultPerm type user) = pte.table
      · rw [here] at other ⊢
        exact Mem.store_off _ _ _ (idx ▸ other walk)
      · exact Mem.store_page _ _ _ _ here
  · exact ⟨_, rfl⟩

theorem demandPage_wp (w : Owns s o) (root : o pt = .table h []) (may : MayMap s va) (type : Access)
    (user : Bool) (unset : translate s.mem pt va = none) (userLow : user = true → va < USER_LIMIT) :
    wp (demandPage pt va type user) (fun _ t => ∃ o' e, Fixed h pt va user s o t o' e ∧
      Granted pt va type s o t e) Panics s := by
  unfold demandPage
  rw [wp_bind]
  refine wp_conseq (allocPage_wp w) fun page t ⟨free, w', quiet, away⟩ => ?_
  rw [if_neg (w.ne_zero (by simp [free]))]
  simp only [clearPage, wp_bind, wp_modify]
  have filled : Filled h page (.frame h (path va)) s o
      (t.setMem (Function.update t.mem page fun _ => 0)) :=
    w.fill w' free quiet away _ rfl (by simp)
  obtain ⟨solid, small, userBit⟩ := faultPerm_facts type user
  have may' : MayMap (t.setMem (Function.update t.mem page fun _ => 0)) va := by
    intro isUser
    apply may
    simpa [Kernel.userCurrent, quiet.procs, quiet.current] using isUser
  have unset' := (filled.translate _ _ root va).trans unset
  have root' : Function.update o page (.frame h (path va)) pt = .table h [] :=
    (filled.grows.known (by simp [root])).trans root
  refine wp_conseq (mapPage_wp filled.owns root' may' solid) ?_
  rintro r u ⟨rfl, o', mapped⟩
  rw [if_neg (by simp), wp_pure]
  rw [unset'] at mapped
  have frame : pte2pa (mapEntry va page (faultPerm type user) none) = page := by
    rw [mapEntry, BitVec.or_assoc]
    refine pte2pa_make (w.managed page (by simp [free])).toFrame ?_
    rw [BitVec.toNat_or]
    refine Nat.or_lt_two_pow (n := 10) ?_ (by decide)
    unfold mapPerm
    split
    · rw [BitVec.toNat_and]
      exact lt_of_le_of_lt Nat.and_le_left small
    · exact small
  obtain ⟨owner, zeros⟩ := mapped.grows.frame (Function.update_self page (.frame h (path va)) o)
  refine ⟨o', mapEntry va page (faultPerm type user) none, ⟨⟨mapped.owns,
    filled.quiet.trans mapped.quiet, filled.grows.trans mapped.grows, fun va' => ?_⟩,
    ?_, fun isUser => ?_, fun mapped => absurd unset mapped, .inl ?_, fun _ => ?_⟩,
    ?_, fun _ => ?_, fun old is => ?_⟩
  · rw [mapped.translate va', filled.translate _ _ root]
    rfl
  · rintro rfl -
    rw [mapEntry, BitVec.or_assoc, make_bit _ _ (by decide), BitVec.and_or_distrib_right]
    have perm : mapPerm va (faultPerm type false) &&& U = 0 := by
      unfold mapPerm
      split
      · rw [BitVec.and_assoc, BitVec.and_comm (~~~U), ← BitVec.and_assoc, faultPerm_closed]
        exact BitVec.zero_and
      · exact faultPerm_closed type
    rw [perm]
    decide
  · rw [mapEntry, mapPerm, if_neg (BitVec.not_le.mpr (userLow isUser)), BitVec.or_comm]
    exact or_user _ (or_user _ (userBit isUser))
  · rw [frame]
    exact owner
  · rw [frame, zeros, setMem_mem, Function.update_self]
  · rw [mapEntry, BitVec.or_comm]
    exact or_perm _ (or_perm _ (mapPerm_perm va type user))
  · rw [frame]
    exact free
  · rw [unset] at is
    cases is

/-- The table on which a page fault works belongs to the current process or to the kernel. -/
theorem Inv.faultTable (inv : Inv s o) :
    (∃ p, s.current = some p ∧ UserProc s o p ∧ s.faultTable = ((s.procs p).pagetable, true)) ∨
      (s.userCurrent = false ∧ s.faultTable = (s.kernelPagetable, false)) := by
  cases cur : s.current with
  | none => exact .inr ⟨by simp [Kernel.userCurrent, cur], by simp [Kernel.faultTable, cur]⟩
  | some p =>
    have alive := inv.alive p (by simp [inv.current p cur])
    cases isUser : (s.procs p).isUser with
    | true =>
      have user := alive.user isUser
      have nonzero : (s.procs p).pagetable ≠ 0 := inv.owns.ne_zero (by simp [user.space.root])
      refine .inl ⟨p, rfl, user, ?_⟩
      simp only [Kernel.faultTable, cur, isUser]
      exact if_pos ⟨nonzero, trivial⟩
    | false =>
      refine .inr ⟨by simp [Kernel.userCurrent, cur, isUser], ?_⟩
      simp [Kernel.faultTable, cur, isUser]

/-- A repair of the space of the current process. -/
theorem Fixed.inv_user (inv : Inv s o) (user : UserProc s o p) (cur : s.current = some p)
    {e : Word} (low : va < USER_LIMIT)
    (f : Fixed (some p) (s.procs p).pagetable va true s o t o' e) : Inv t o' := by
  have m := f.mapped
  have procs : t.procs = s.procs := m.quiet.procs
  have space : Space t.mem o' p (s.procs p).pagetable := by
    refine user.space.mapped m (fun isLow => ⟨?_, f.user rfl⟩) fun high => absurd (low_of_lt low) high
    rcases f.frame with owner | ⟨old, is, same⟩
    · exact owner
    · exact same.trans (user.space.low va old is isLow).1
  have alive := inv.alive p (by simp [inv.current p cur])
  have special : ∀ va', ¬ Low va' → translate t.mem (s.procs p).pagetable va' =
      translate s.mem (s.procs p).pagetable va' := by
    intro va' high
    rw [m.translate va', if_neg fun same => high ((low_congr same).mpr (low_of_lt low))]
  refine inv.change (some p) m.owns m.grows.spares m.quiet.kernelPagetable
    (inv.root_of_spares m.grows.spares m.quiet.kernelPagetable) (fun q _ => by rw [procs]; exact .refl _)
    (fun q mine unused => ?_) (fun q mine _ => ?_) (fun q cur' => ?_)
  · obtain rfl := Option.some.inj mine
    rw [procs, inv.current q cur] at unused
    cases unused
  · obtain rfl := Option.some.inj mine
    refine ⟨?_, ?_, fun _ => ⟨?_, ?_, ?_, ?_⟩, fun kernel => ?_⟩
    · rw [procs]
      exact (m.grows.known (by simp [alive.trapframe])).trans alive.trapframe
    · rw [procs]
      exact (m.grows.known (by simp [alive.kstack])).trans alive.kstack
    · rw [procs]
      exact space
    · rw [procs, special _ (by decide)]
      exact user.trapframe
    · rw [procs, special _ (by decide)]
      exact user.trampoline
    · rw [procs]
      exact user.sz
    · rw [procs] at kernel
      rw [procs, m.quiet.kernelPagetable]
      exact alive.kernel kernel
  · rw [procs]
    exact inv.current q (m.quiet.current.symm.trans cur')

/-- A repair of the kernel's table. -/
theorem Fixed.inv_kernel (inv : Inv s o) {e : Word}
    (f : Fixed none s.kernelPagetable va false s o t o' e) : Inv t o' := by
  have m := f.mapped
  have procs : t.procs = s.procs := m.quiet.procs
  refine inv.change none m.owns m.grows.spares m.quiet.kernelPagetable ?_
    (fun q _ => by rw [procs]; exact .refl _) (by simp) (by simp) (fun q cur => ?_)
  · rw [m.quiet.kernelPagetable]
    exact m.grows.table inv.kernelRoot
  · rw [procs]
    exact inv.current q (m.quiet.current.symm.trans cur)

theorem Fixed.sealed_kernel {e : Word} (f : Fixed none s.kernelPagetable va false s o t o' e)
    (before : Sealed s) : Sealed t := by
  intro va' e' is
  rw [f.mapped.quiet.kernelPagetable, f.mapped.translate va'] at is
  split at is
  · obtain rfl := Option.some.inj is
    exact f.closed rfl (before va)
  · exact before va' e' is

/-- A page fault has been handled: no process but for its memory has changed. -/
structure Repaired (va : Word) (s : Kernel) (o : Owners) (t : Kernel) (o' : Owners) : Prop
    extends Next s o t o' where
  procs : t.procs = s.procs
  current : t.current = s.current
  same : translate s.mem s.faultTable.1 (pageStart va) ≠ none → o' = o
  fresh : s.faultTable.2 = true → translate s.mem s.faultTable.1 (pageStart va) = none →
    ∃ e, translate t.mem s.faultTable.1 (pageStart va) = some e ∧ e &&& U ≠ 0 ∧
      t.mem (pte2pa e) = fun _ => 0

theorem pageStart_lt {limit : Word} (below : va < limit) : pageStart va < limit := by
  have lt := BitVec.lt_def.mp below
  have bound := va.isLt
  rw [BitVec.lt_def, pageStart, BitVec.toNat_ofNat]
  omega

/-- What `handle_page_fault` does at a page, once the table is chosen. -/
theorem handleMapping_wp (inv : Inv s o) {va pt : Word} (type : Access) {h : Holder} {isUser : Bool}
    (root : o pt = .table h []) (may : s.userCurrent = true → isUser = true)
    (low : isUser = true → pageStart va < USER_LIMIT)
    (keeps : ∀ t o' e, Fixed h pt (pageStart va) isUser s o t o' e → Repaired va s o t o') :
    wp (match (walkLookup s.mem pt (pageStart va)).filter fun pte => pte.read s.mem &&& V ≠ 0 with
        | some pte => raisePerm pte type (isUser && pageStart va < USER_LIMIT)
        | none =>
          if (0xffffff0000000000 : Word) ≤ va then
            panic "Abnormally high address access"
          else
            demandPage pt (pageStart va) type (isUser && pageStart va < USER_LIMIT))
      (fun _ t => ∃ o', Repaired va s o t o') Panics s := by
  have same : (isUser && decide (pageStart va < USER_LIMIT)) = isUser := by
    cases isUser with
    | false => rfl
    | true => simp [low rfl]
  rw [same]
  have translated := translate_of_walkLookup inv.owns root (pageStart va)
  split
  · next pte found =>
    obtain ⟨is, valid⟩ := Option.filter_eq_some_iff.mp found
    refine wp_conseq (raisePerm_wp inv.owns root type isUser is (by simpa using valid)) ?_
    rintro - t ⟨o', e, fixed, -⟩
    exact ⟨o', keeps t o' e fixed⟩
  · next missing =>
    split
    · exact ⟨_, rfl⟩
    · refine wp_conseq (demandPage_wp inv.owns root (fun user => .inl (low (may user))) type isUser ?_
        low) ?_
      · rw [translated]
        cases is : walkLookup s.mem pt (pageStart va) with
        | none => rfl
        | some pte =>
          rw [is] at missing
          simpa [Option.filter] using missing
      · rintro - t ⟨o', e, fixed, -⟩
        exact ⟨o', keeps t o' e fixed⟩

/-- A page fault that is handled keeps the invariant. -/
theorem handlePageFault_wp (inv : Inv s o) (va : Word) (type : Access) :
    wp (handlePageFault va type) (fun _ t => ∃ o', Repaired va s o t o') Panics s := by
  have stop : ∀ (msg : String), wp (panic msg : K Int) (fun _ t => ∃ o', Repaired va s o t o') Panics s :=
    fun msg => ⟨msg, rfl⟩
  unfold handlePageFault
  rw [wp_bind, wp_get]
  rcases inv.faultTable with ⟨p, cur, user, is⟩ | ⟨kernel, is⟩
  · rw [is]
    dsimp only
    split
    · exact stop _
    split
    · exact stop _
    split
    · exact stop _
    split
    · exact stop _
    next inRange notKernel =>
    have low : pageStart va < USER_LIMIT := by
      by_cases below : va < USER_LIMIT
      · exact pageStart_lt below
      · have high := BitVec.not_lt.mp below
        have special : va = TRAMPOLINE ∨ va = TRAPFRAME := by
          by_contra neither
          exact notKernel ⟨rfl, high, fun tramp => neither (.inl tramp), fun frame => neither (.inr frame)⟩
        rcases special with rfl | rfl <;> exact absurd (by decide) inRange
    exact handleMapping_wp inv type user.space.root (fun _ => rfl) (fun _ => low)
      fun t o' e fixed => {
        inv := fixed.inv_user inv user cur low
        keeps := fixed.mapped.grows.keeps
        sealed := inv.sealed_of_spares fixed.mapped.grows.spares fixed.mapped.quiet.kernelPagetable
        trampoline := fixed.mapped.quiet.trampolinePhysAddr
        procs := fixed.mapped.quiet.procs
        current := fixed.mapped.quiet.current
        same := fun mapped => fixed.same (by rwa [is] at mapped)
        fresh := fun _ unset => by
          rw [is] at unset ⊢
          exact ⟨e, (fixed.mapped.translate _).trans (if_pos rfl), fixed.user rfl,
            fixed.zeros unset⟩ }
  · rw [is]
    dsimp only
    split
    · exact stop _
    split
    · exact stop _
    split
    · exact stop _
    split
    · exact stop _
    exact handleMapping_wp inv type inv.kernelRoot (fun user => by simp [kernel] at user) (by simp)
      fun t o' e fixed => {
        inv := fixed.inv_kernel inv
        keeps := fixed.mapped.grows.keeps
        sealed := fixed.sealed_kernel
        trampoline := fixed.mapped.quiet.trampolinePhysAddr
        procs := fixed.mapped.quiet.procs
        current := fixed.mapped.quiet.current
        same := fun mapped => fixed.same (by rwa [is] at mapped)
        fresh := fun user => by
          rw [is] at user
          cases user }

/-! ### Steps and runs -/

/-- Changes to fields of a slot that the invariant does not speak of. -/
theorem Inv.assign (inv : Inv s o) (p : Slot) (proc : Proc) (current : Option Slot)
    (same : SameProc proc (s.procs p))
    (cur : ∀ q, current = some q → (Function.update s.procs p proc q).state = .running) :
    Inv { s.setProc p proc with current := current } o := by
  refine inv.change (some p) ?_ (.refl (some p) s o) rfl inv.kernelRoot (fun q ne => ?_)
    (fun q mine unused => ?_) (fun q mine used => ?_) cur
  · have w := inv.owns.setProc p proc
    exact ⟨w.base, w.free, fun pg known => ⟨(w.managed pg known).1, (w.managed pg known).2,
      (w.managed pg known).3⟩, w.tree, w.solid⟩
  · have ne' : q ≠ p := fun eq => ne (eq ▸ rfl)
    simp only [setProc_procs, Function.update_of_ne ne']
    exact .refl _
  · obtain rfl := Option.some.inj mine
    simp only [setProc_procs, Function.update_self] at unused
    exact inv.unused q (same.unused.mp unused)
  · obtain rfl := Option.some.inj mine
    simp only [setProc_procs, Function.update_self] at used
    have alive := inv.alive q fun unused => used (same.unused.mpr unused)
    have at_q : ({ s.setProc q proc with current := current } : Kernel).procs q = proc := by simp
    refine ⟨?_, ?_, fun user => ?_, fun kernel => ?_⟩
    · rw [at_q, same.trapframe]
      exact alive.trapframe
    · rw [at_q, same.kstack]
      exact alive.kstack
    · rw [at_q, same.isUser] at user
      have old := alive.user user
      refine ⟨?_, ?_, ?_, ?_⟩
      · rw [at_q, same.pagetable]
        exact old.space
      · rw [at_q, same.pagetable]
        exact old.trapframe
      · rw [at_q, same.pagetable]
        exact old.trampoline
      · rw [at_q, same.sz]
        exact old.sz
    · rw [at_q, same.isUser] at kernel
      rw [at_q, same.pagetable]
      exact alive.kernel kernel

/-- A store into a trapframe or a frame of the current process. -/
theorem Inv.write (inv : Inv s o) {own : Owner} (at_pg : o pg = own) (mine : own.of (some p))
    (plain : ∀ h ds, own ≠ .table h ds) (used : (s.procs p).state ≠ .unused) (off v : Word) :
    Inv (s.setMem (s.mem.store pg off v)) o := by
  subst at_pg
  have away : ∀ pg' ≠ pg, s.mem.store pg off v pg' = s.mem pg' :=
    fun pg' ne => funext fun off' => Mem.store_page _ _ _ _ ne
  have tables : ∀ pg', (o pg' = .free ∨ ∃ h ds, o pg' = .table h ds) →
      s.mem.store pg off v pg' = s.mem pg' := by
    intro pg' owned
    refine away pg' ?_
    rintro rfl
    rcases owned with free | ⟨h, ds, table⟩
    · rw [free] at mine
      exact mine
    · exact plain h ds table
  have alive := inv.alive p used
  refine inv.change (some p) (inv.owns.setMem _ tables) (.store mine _ away) rfl inv.kernelRoot
    (fun q _ => .refl _) (fun q same unused => ?_) (fun q same _ => ?_) inv.current
  · obtain rfl := Option.some.inj same
    exact absurd unused used
  · obtain rfl := Option.some.inj same
    refine ⟨alive.trapframe, alive.kstack, fun user => ?_, alive.kernel⟩
    have old := alive.user user
    have moved : ∀ va, translate (s.mem.store pg off v) (s.procs q).pagetable va =
        translate s.mem (s.procs q).pagetable va :=
      (inv.owns.tree (some q)).translate_congr
        (fun pg' ds at_pg => tables pg' (.inr ⟨_, ds, label_eq.mp at_pg⟩))
        (label_eq.mpr old.space.root)
    refine ⟨⟨old.space.root, fun va e is => old.space.low va e (moved va ▸ is),
      fun va e is => old.space.high va e (moved va ▸ is)⟩, ?_, ?_, old.sz⟩
    · exact (moved _).symm ▸ old.trapframe
    · exact (moved _).symm ▸ old.trampoline

theorem Inv.write_next (inv : Inv s o) {own : Owner} (at_pg : o pg = own) (mine : own.of (some p))
    (plain : ∀ h ds, own ≠ .table h ds) (used : (s.procs p).state ≠ .unused) (off v : Word) :
    Next s o (s.setMem (s.mem.store pg off v)) o where
  inv := inv.write at_pg mine plain used off v
  keeps := .refl o
  sealed := by
    have away : ∀ pg' ≠ pg, s.mem.store pg off v pg' = s.mem pg' :=
      fun pg' ne => funext fun off' => Mem.store_page _ _ _ _ ne
    exact inv.sealed_of_spares (.store (at_pg ▸ mine) _ away) rfl
  trampoline := rfl

theorem ends_of_wp {α : Type} {x : K α} {Q : α → Kernel → Prop} (spec : wp x Q Panics s)
    (run : Ends x s t) : ∃ a, Q a t := by
  rcases run with ⟨a, run⟩ | run
  · exact ⟨a, wp_ok spec run⟩
  · obtain ⟨msg, impossible⟩ := wp_error spec run
    cases impossible

/-- The state after `exit_proc` of process `p`. -/
def Kernel.exited (s : Kernel) (p : Slot) (status : Int) : Kernel :=
  { s.setProc p { s.procs p with exitStatus := status, state := .zombie } with current := none }

/-- `exit_proc` makes a zombie of the current process, which has a parent. -/
theorem exitProc_wp {α : Type} (status : Int) :
    wp (exitProc status : K α) (fun _ _ => False) (fun e t => e = .exited → ∃ p,
      s.current = some p ∧ (s.procs p).parent ≠ none ∧ t = s.exited p status) s := by
  unfold exitProc
  simp only [wp_bind, wp_get]
  cases cur : s.current with
  | none => exact fun impossible => by cases impossible
  | some p =>
    simp only [wp_bind, wp_set]
    split
    · exact fun impossible => by cases impossible
    · next parent => exact fun _ => ⟨p, rfl, parent, rfl⟩

theorem exitProc_ends {α : Type} {status : Int} (run : Ends (exitProc status : K α) s t) :
    ∃ p, s.current = some p ∧ t = s.exited p status := by
  have spec := exitProc_wp (s := s) (α := α) status
  rcases run with ⟨a, run⟩ | run
  · exact (wp_ok spec run).elim
  · obtain ⟨p, cur, -, is⟩ := wp_error spec run rfl
    exact ⟨p, cur, is⟩

/-- The slot `c` has been filled by the current process; no other slot has changed. -/
structure Spawned (c : Slot) (s t : Kernel) : Prop where
  chosen : s.nextSlot = some c
  others : ∀ q ≠ c, t.procs q = s.procs q
  runnable : (t.procs c).state = .runnable
  parent : (t.procs c).parent = s.current
  pid : (t.procs c).pid = c.val
  current : t.current = s.current

theorem Created.spawned {user : Bool} (c : Created q user s o t o') : Spawned q s t :=
  ⟨c.chosen, c.only.procs, c.runnable, c.parent, c.pid, c.only.current⟩

theorem Next.refl (inv : Inv s o) : Next s o s o := .of_same inv rfl rfl rfl

theorem Next.trans (first : Next s o t o') (second : Next t o' u o'') : Next s o u o'' :=
  ⟨second.inv, first.keeps.trans second.keeps, fun before => second.sealed (first.sealed before),
    second.trampoline.trans first.trampoline⟩

/-- A system call leaves its result and the address at which the user goes on. -/
theorem Inv.return_next {tf : Word} (inv : Inv s o) (at_tf : o tf = .trapframe (some p))
    (used : (s.procs p).state ≠ .unused) (a0 epc : Word) :
    Next s o (s.setMem (Trap.set (Trap.set s.mem tf (.reg .a0) a0) tf .epc epc)) o := by
  have once := inv.write_next at_tf rfl (by simp) used (Trap.Field.offset (.reg .a0)) a0
  exact once.trans (once.inv.write_next at_tf rfl (by simp) used (Trap.Field.offset .epc) epc)

/-- `SYS_fork` finds no slot, or fills one. -/
theorem sysFork_wp (inv : Inv s o) (cur : s.current = some p) (isUser : (s.procs p).isUser = true) :
    wp (sysFork p) (fun _ t => (∃ o', Next s o t o') ∧
      ((t.procs = s.procs ∧ t.current = s.current) ∨ ∃ c, Spawned c s t)) Panics s := by
  have running := inv.current p cur
  have alive := inv.alive p (by simp [running])
  unfold sysFork
  simp only [wp_bind, wp_get, storeField]
  refine wp_conseq (forkProc_wp inv cur isUser) ?_
  rintro r t (⟨-, rfl⟩ | ⟨c, -, o', forked⟩)
  · exact ⟨⟨o, inv.return_next alive.trapframe (by simp [running]) _ _⟩, .inl ⟨rfl, rfl⟩⟩
  · have ne : some p ≠ some c := fun same => forked.apart (Option.some.inj same)
    have spawned := forked.spawned
    refine ⟨⟨o', forked.toNext.trans (forked.inv.return_next (p := p) ?_ ?_ _ _)⟩,
      .inr ⟨c, spawned.1, spawned.2, spawned.3, spawned.4, spawned.5, spawned.6⟩⟩
    · exact (forked.spares _ (some p) ne (.inl (by rw [alive.trapframe]; exact rfl))).1.trans
        alive.trapframe
    · rw [forked.only.procs p forked.apart, running]
      simp

/-- `wait_proc` that finds a zombie frees its slot. -/
theorem reapZombie_wp (inv : Inv s o) (p : Slot) :
    wp (reapZombie p) (fun r t => (r = none ∧ t = s) ∨ ∃ z, s.zombieChild p = some z ∧
      r = some ((s.procs z).pid, (s.procs z).exitStatus) ∧ ∃ o', Gone z s o t o') Never s := by
  unfold reapZombie
  simp only [wp_bind, wp_get]
  split
  · exact .inl ⟨rfl, rfl⟩
  · next z found =>
    have zombie : (s.procs z).state = .zombie ∧ (s.procs z).parent = some p := by
      simpa using List.find?_some found
    have notCurrent : s.current ≠ some z := by
      intro is
      have running := inv.current z is
      rw [zombie.1] at running
      cases running
    rw [wp_bind]
    refine wp_conseq (freeProc_wp inv (by simp [zombie.1]) notCurrent) ?_
    rintro - t gone
    exact .inr ⟨z, found, rfl, gone⟩

/-- A store of the user goes to a frame of the process that runs. -/
theorem Inv.store_next (inv : Inv s o) (cur : s.current = some p)
    (user : (s.procs p).isUser = true) (off v : Word) {pte : PteRef}
    (found : walkLookup s.mem (s.procs p).pagetable va = some pte)
    (valid : pte.read s.mem &&& V ≠ 0) (mine : pte.read s.mem &&& U ≠ 0) :
    Next s o (s.setMem (s.mem.store (pte2pa (pte.read s.mem)) off v)) o := by
  have running : (s.procs p).state ≠ .unused := by simp [inv.current p cur]
  have space := ((inv.alive p running).user user).space
  have is : translate s.mem (s.procs p).pagetable va = some (pte.read s.mem) := by
    rw [translate_of_walkLookup inv.owns space.root, found, Option.bind_some, if_neg valid]
  by_cases low : Low va
  · exact inv.write_next (space.low va _ is low).1 rfl (by simp) running off v
  · exact absurd (space.high va _ is low).1 mine

/-- Every step keeps the invariant. -/
theorem Inv.step (inv : Inv s o) (step : Step s t) : ∃ o', Next s o t o' := by
  have same : ∀ {p proc current}, Inv { s.setProc p proc with current := current } o →
      ∃ o', Next s o { s.setProc p proc with current := current } o' :=
    fun inv' => ⟨o, .of_same inv' rfl rfl rfl⟩
  cases step with
  | createKernelProc entry run =>
    obtain ⟨r, ⟨-, rfl⟩ | ⟨c, -, o', created, -⟩⟩ := ends_of_wp (createKernelProc_wp inv entry) run
    · exact ⟨o, .refl inv⟩
    · exact ⟨o', created.toNext⟩
  | createUserProc bin size fits usertrap kernelvec run =>
    obtain ⟨r, ⟨-, rfl⟩ | ⟨c, -, o', created⟩⟩ :=
      ends_of_wp (createUserProc_wp inv bin fits usertrap kernelvec) run
    · exact ⟨o, .refl inv⟩
    · exact ⟨o', created.toNext⟩
  | dispatch p idle ready =>
    refine same (inv.assign p _ (some p) ⟨by simp [ready], rfl, rfl, rfl, rfl, rfl⟩ fun q is => ?_)
    obtain rfl := Option.some.inj is
    simp
  | yield p cur =>
    exact same (inv.assign p _ none ⟨by simp [inv.current p cur], rfl, rfl, rfl, rfl, rfl⟩ (by simp))
  | sleep p cur =>
    exact same (inv.assign p _ none ⟨by simp [inv.current p cur], rfl, rfl, rfl, rfl, rfl⟩ (by simp))
  | wakeup p asleep =>
    refine same (inv.assign p _ s.current ⟨by simp [asleep], rfl, rfl, rfl, rfl, rfl⟩ fun q is => ?_)
    have running := inv.current q is
    have ne : q ≠ p := by
      rintro rfl
      rw [asleep] at running
      cases running
    rw [Function.update_of_ne ne, running]
  | kill p =>
    refine same (inv.assign p _ s.current ⟨.rfl, rfl, rfl, rfl, rfl, rfl⟩ fun q is => ?_)
    by_cases same : q = p
    · subst same
      simpa using inv.current q is
    · rw [Function.update_of_ne same, inv.current q is]
  | exit status run =>
    obtain ⟨p, cur, rfl⟩ := exitProc_ends run
    exact same (inv.assign _ _ none ⟨by simp [inv.current _ cur], rfl, rfl, rfl, rfl, rfl⟩ (by simp))
  | wait p cur run =>
    obtain ⟨r, done⟩ := ends_of_wp (wp_mono (reapZombie_wp inv p) (fun _ _ h => h)
      fun _ _ impossible => impossible.elim) run
    rcases done with ⟨-, rfl⟩ | ⟨z, -, -, o', gone⟩
    · exact ⟨o, .refl inv⟩
    · exact ⟨o', gone.toNext⟩
  | fork p cur user run => exact (ends_of_wp (sysFork_wp inv cur user) run).elim fun _ h => h.1
  | pageFault va type run =>
    obtain ⟨-, o', repaired⟩ := ends_of_wp (handlePageFault_wp inv va type) run
    exact ⟨o', repaired.toNext⟩
  | trapframe p cur f user v =>
    have alive := inv.alive p (by simp [inv.current p cur])
    exact ⟨o, inv.write_next alive.trapframe rfl (by simp) (by simp [inv.current p cur]) f.offset v⟩
  | store p cur user va off v pte found valid mine =>
    exact ⟨o, inv.store_next cur user off v found valid mine⟩

/-! ### The first state -/

open Classical in
/-- The map after boot: the free list, the kernel's tables, and the rest. -/
noncomputable def bootOwners (s : Kernel) (l : List Word) : Owners := fun pg =>
  if pg ∈ l then .free
  else if tables : ∃ ds : List Index, ds.length ≤ 2 ∧ node s.mem s.kernelPagetable ds = some pg then
    .table none tables.choose
  else .other

theorem bootOwners_table {l : List Word} {ds : List Index} (is : bootOwners s l pg = .table h ds) :
    h = none ∧ ds.length ≤ 2 ∧ node s.mem s.kernelPagetable ds = some pg := by
  unfold bootOwners at is
  split at is
  · cases is
  · split at is
    · next tables =>
      injection is with holder eq
      exact ⟨holder.symm, eq ▸ tables.choose_spec⟩
    · cases is

theorem Booted.table_owner (b : Booted s) {l : List Word}
    (free : ∀ pg ∈ l, ∀ ds : List Index, ds.length ≤ 2 → node s.mem s.kernelPagetable ds ≠ some pg)
    {ds : List Index} (short : ds.length ≤ 2) (walk : node s.mem s.kernelPagetable ds = some pg) :
    bootOwners s l pg = .table none ds := by
  have tables : ∃ ds : List Index, ds.length ≤ 2 ∧ node s.mem s.kernelPagetable ds = some pg :=
    ⟨ds, short, walk⟩
  obtain ⟨short', walk'⟩ := tables.choose_spec
  rw [bootOwners, if_neg fun inside => free pg inside ds short walk, dif_pos tables,
    (b.table ds pg short walk).2 _ short' walk']

/-- The invariant holds after boot. -/
theorem Booted.inv_of_chain (b : Booted s) {l : List Word} (chain : Chain s.mem s.freelist l) :
    Inv s (bootOwners s l) := by
  obtain ⟨l', chain', nodup, free⟩ := b.free
  obtain rfl : l = l' := chain.unique chain'
  have outside : ∀ pg ∈ l, ∀ ds : List Index, ds.length ≤ 2 →
      node s.mem s.kernelPagetable ds ≠ some pg := fun pg inside => (free pg inside).2
  refine ⟨⟨b.base, ⟨l, chain, nodup, fun pg => ?_⟩, fun pg known => ?_, fun h => ?_, ?_⟩,
    b.table_owner outside (by simp) rfl, fun p _ pg own => ?_, fun p used => absurd (b.unused p) used,
    fun p cur => by simp [b.current] at cur⟩
  · unfold bootOwners
    by_cases inside : pg ∈ l
    · simp [inside]
    · simp only [inside, if_false, false_iff]
      split <;> simp
  · unfold bootOwners at known
    split at known
    · next inside => exact (free pg inside).1
    · split at known
      · next tables => exact (b.table _ pg tables.choose_spec.1 tables.choose_spec.2).1
      · exact absurd rfl known
  · intro pg ds i next at_pg short step
    rw [label_eq] at at_pg ⊢
    obtain ⟨rfl, -, walk⟩ := bootOwners_table at_pg
    refine b.table_owner outside (by simp only [List.length_append, List.length_singleton]; omega) ?_
    rw [node_append, walk]
    exact step
  · intro pg h ds i at_pg len valid
    obtain ⟨-, -, walk⟩ := bootOwners_table at_pg
    exact b.solid ds pg i len walk valid
  · unfold bootOwners at own
    split at own
    · exact own
    · split at own
      · cases own
      · exact own

theorem Booted.inv (b : Booted s) : ∃ o, Inv s o := by
  obtain ⟨l, chain, -, -⟩ := b.free
  exact ⟨_, b.inv_of_chain chain⟩

/-- A state that the machine can reach. -/
def Reachable (s : Kernel) : Prop := ∃ s₀, Booted s₀ ∧ ReflTransGen Step s₀ s

theorem Reachable.inv (r : Reachable s) : ∃ o, Inv s o := by
  obtain ⟨s₀, boot, run⟩ := r
  exact Transition.invariant (I := fun s => ∃ o, Inv s o)
    (fun _ _ ⟨_, inv⟩ step => (inv.step step).imp fun _ next => next.inv) boot.inv run

/-! ### A small run -/

theorem step_of_value {α : Type} {x : K α} {a : α}
    (step : Ends x s (after x s) → Step s (after x s)) (is : value x s = some a) :
    Step s (after x s) :=
  step (.inl ⟨a, run_of_value is⟩)

theorem sampleBoot_node {ds : List Index} {pg : Word}
    (walk : node sampleBoot.mem sampleBoot.kernelPagetable ds = some pg) :
    ds = [] ∧ pg = sampleBoot.kernelPagetable := by
  cases ds with
  | nil => exact ⟨rfl, (Option.some.inj walk).symm⟩
  | cons i rest =>
    have zero : entry sampleBoot.mem sampleBoot.kernelPagetable i = 0 := by
      rw [entry]
      exact if_neg fun inside => absurd inside.2.1 (by decide)
    rw [node, child, zero] at walk
    cases walk

theorem sampleBoot_booted : Booted sampleBoot where
  base := by decide
  free := by
    refine ⟨samplePages, by decide +kernel, by decide +kernel, fun pg inside => ?_⟩
    have good := of_decide_eq_true (List.all_eq_true.mp samplePages_managed pg inside)
    exact ⟨good.1, fun ds _ walk => good.2 (sampleBoot_node walk).2⟩
  table ds pg _ walk := by
    obtain ⟨rfl, rfl⟩ := sampleBoot_node walk
    exact ⟨by decide +kernel, fun ds' _ walk' => (sampleBoot_node walk').1⟩
  solid ds pg i len walk := by
    rw [(sampleBoot_node walk).1] at len
    cases len
  unused _ := rfl
  current := rfl

/-- The state after `create_user_proc` of a program of four bytes. -/
@[irreducible] def sampleCreated : Kernel :=
  after (createUserProc (fun _ => 0x73) 4 0x80001000 0x80002000) sampleBoot

/-- Process 0 runs. -/
@[irreducible] def sampleStarted : Kernel :=
  { sampleCreated.setProc 0 { sampleCreated.procs 0 with state := .running } with current := some 0 }

theorem sampleCreated_run : ReflTransGen Step sampleBoot sampleCreated := by
  have created : value (createUserProc (fun _ => 0x73) 4 0x80001000 0x80002000) sampleBoot =
      some 0 := by
    decide +kernel
  unfold sampleCreated
  exact .single (step_of_value (.createUserProc _ _ (by decide) _ _) created)

theorem sampleStarted_run : ReflTransGen Step sampleBoot sampleStarted := by
  have idle : sampleCreated.current = none := by decide +kernel
  have ready : (sampleCreated.procs 0).state = .runnable := by decide +kernel
  unfold sampleStarted
  exact sampleCreated_run.tail (Step.dispatch 0 idle ready)

end Xv6Lab.Vm

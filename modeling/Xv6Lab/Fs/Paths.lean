import Xv6Lab.Fs.Directories

/-! What walks along paths, `create` and `unlink` keep.  A walk drops a reference for each one that
it takes; where every inode without links is held by somebody else, it frees nothing and logs
nothing. -/

namespace Xv6Lab.Fs

open Bytes Exec

/-- The inode at `ip` has links, or a reference besides the one that is about to be dropped. -/
def Spare (s : State) (v : Disk) (ip : InodePtr) : Prop :=
  (v.inode (s.itable ip).inum).type ≠ 0 → (v.inode (s.itable ip).inum).nlink = 0 →
    2 ≤ (s.itable ip).ref

section Paths

variable {sb : Superblock} {P : Nat → Prop} {ip jp : InodePtr} {s t u : State} {v v' : Disk} {i : Nat}

theorem Spare.onward (spare : Spare s v ip) (onward : Onward s t) (live : 0 < (s.itable ip).ref) :
    Spare t v ip := by
  intro used zero
  rw [onward.inum ip live] at used zero
  exact Int.le_trans (spare used zero) (onward.ref ip live)

theorem Spare.notLast (spare : Spare s v ip) (h : Good sb s v) : ¬ Last s ip := by
  rintro ⟨one, read, zero⟩
  have live : 0 < (s.itable ip).ref := by omega
  have slot := h.cached.slot ip live
  have two : 2 ≤ (s.itable ip).ref := by
    refine spare ?_ ?_
    · rw [← slot.synced read]
      exact slot.typed read
    · rw [← slot.synced read]
      exact zero
  omega

/-- The reference that `iget` takes comes on top of the one that holds an inode without links. -/
theorem Got.spare (got : Got ip i s t) (step : Step sb P s t v) (none : NoOrphan sb s v) :
    Spare t v ip := by
  intro used zero
  have inside := (step.good.cached.slot ip got.live).inside
  obtain ⟨jp, live, -, is⟩ := none _ inside used zero
  have same : ip = jp := by
    refine step.good.cached.unique ip jp got.live (step.onward.live live) ?_
    rw [step.onward.inum jp live, is]
  rw [← same] at live
  have more := got.more live
  omega

/-- A reference that is spare is dropped: nothing is freed. -/
theorem Put.spared (h : Good sb s v) (put : Put sb ip s v t v') (spare : Spare s v ip) :
    v' = v ∧ t.logged = s.logged ∧
      t.itable ip = { s.itable ip with ref := (s.itable ip).ref - 1 } := by
  have more := spare.notLast h
  obtain ⟨here, same⟩ := put.kept more
  obtain ⟨l, is, all⟩ := put.logged
  refine ⟨same, ?_, here⟩
  cases l with
  | nil => rw [is, List.append_nil]
  | cons b l => exact absurd (all b List.mem_cons_self).1 more

theorem Relocked.inum (h : Relocked ip s t) (jp : InodePtr) :
    (t.itable jp).inum = (s.itable jp).inum := by
  obtain ⟨lock, rfl⟩ := h
  by_cases this : jp = ip
  · rw [this, State.setInode_itable, Function.update_self]
  · rw [State.setInode_itable, Function.update_of_ne this]

theorem Spare.relocked (spare : Spare s v jp) (h : Relocked ip s t) : Spare t v jp := by
  intro used zero
  rw [h.inum] at used zero
  rw [h.refs]
  exact spare used zero

/-- `iunlockput` of an inode, which logs nothing if the reference is spare. -/
theorem iunlockput_moves (valid : sb.Valid) (h : Good sb s v) :
    Ends (iunlockput sb ip) (fun _ t => ∃ v',
      Moves sb (fun b => ¬ Spare s v ip ∧ (sb.IsBitmap b ∨ b = sb.iblock (s.itable ip).inum)) s v t v' ∧
      (Spare s v ip → v' = v ∧ (∀ jp ≠ ip, (t.itable jp).ref = (s.itable jp).ref) ∧
        (∀ jp, (t.itable jp).inum = (s.itable jp).inum) ∧
        (t.itable ip).ref = (s.itable ip).ref - 1)) s := by
  refine (iunlockput_ends valid h).conseq ?_
  rintro _ t ⟨s', v', relocked, put⟩
  have step := relocked.step h
  have last : ∀ b, (Last s' ip ∧ (sb.IsBitmap b ∨ b = sb.iblock (s'.itable ip).inum)) →
      ¬ Spare s v ip ∧ (sb.IsBitmap b ∨ b = sb.iblock (s.itable ip).inum) := by
    rintro b ⟨last, log⟩
    rw [relocked.inum] at log
    exact ⟨fun spare => (spare.relocked relocked).notLast step.good last, log⟩
  refine ⟨v', ((step.any).moves .refl).trans ((put.moves step.good).mono last), fun spare => ?_⟩
  obtain ⟨same, -, here⟩ := put.spared step.good (spare.relocked relocked)
  refine ⟨same, fun jp other => ?_, fun jp => ?_, ?_⟩
  · rw [put.others jp other, relocked.refs]
  · by_cases this : jp = ip
    · rw [this, here]
      exact relocked.inum ip
    · rw [put.others jp this, relocked.inum]
  · rw [put.ref, relocked.refs]

theorem iput_moves (valid : sb.Valid) (h : Good sb s v) :
    Ends (iput sb ip) (fun _ t => ∃ v', Moves sb (fun b => ¬ Spare s v ip ∧
      (sb.IsBitmap b ∨ b = sb.iblock (s.itable ip).inum)) s v t v') s := by
  refine (iput_ends valid h).conseq fun _ t ⟨v', put⟩ => ⟨v', (put.moves h).mono ?_⟩
  rintro b ⟨last, log⟩
  exact ⟨fun spare => spare.notLast h last, log⟩

/-- A walk along a path logs nothing, where no inode without links depends on it. -/
theorem namexFrom_moves (valid : sb.Valid) (parent : Bool) (fuel : Nat) (h : Good sb s v)
    (path name : Path) : Ends (namexFrom sb parent fuel ip path name) (fun _ t => ∃ v',
      Moves sb (fun _ => ¬ (NoOrphan sb s v ∧ Spare s v ip)) s v t v') s := by
  induction fuel generalizing s v ip path name with
  | zero => exact ends_pure ⟨v, .refl h⟩
  | succ fuel ih =>
    unfold namexFrom
    split
    · split
      · refine (iput_moves valid h).bind fun _ t ⟨v', moves⟩ => ends_pure ⟨v', moves.mono ?_⟩
        rintro b ⟨none, -⟩ ⟨-, spare⟩
        exact none spare
      · exact ends_pure ⟨v, .refl h⟩
    · next name path _ =>
      refine (ilock_ends h).bind fun _ t ⟨step, ready, refs⟩ => ends_get ?_
      have live : 0 < (s.itable ip).ref := refs ip ▸ ready.live
      have first : Moves sb (fun _ => ¬ (NoOrphan sb s v ∧ Spare s v ip)) s v t v :=
        step.any.moves .refl
      have drop : Ends (do iunlockput sb ip; pure none : F (Option (InodePtr × Path))) (fun _ u => ∃ v',
          Moves sb (fun _ => ¬ (NoOrphan sb s v ∧ Spare s v ip)) s v u v') t := by
        refine (iunlockput_moves valid step.good).bind fun _ u ⟨v', moves, _⟩ =>
          ends_pure ⟨v', first.trans (moves.mono ?_)⟩
        rintro b ⟨none, -⟩ ⟨-, spare⟩
        exact none (spare.onward step.onward live)
      split
      · exact drop
      · split
        · refine iunlock_ends.bind fun _ u relocked => ends_pure ⟨v, first.trans ?_⟩
          exact (relocked.step step.good).any.moves .refl
        · refine (dirlookup_ends step.good ready name).bind fun r u post => ?_
          rcases post with ⟨rfl, rfl⟩ | ⟨next, off, i, rfl, -, -, found, got⟩
          · exact drop
          · refine (iunlockput_moves valid found.good).bind fun _ w ⟨v', moves, kept⟩ => ?_
            refine (ih moves.good path name).conseq fun _ x ⟨v'', rest⟩ => ⟨v'', ?_⟩
            -- where the walk starts tidy, it goes on so
            have goes : NoOrphan sb s v ∧ Spare s v ip → Spare u v ip ∧ NoOrphan sb w v' ∧
                Spare w v' next := by
              rintro ⟨none, spare⟩
              have none' := step.onward.tidy .refl none
              have spare' := spare.onward step.onward live
              have spare'' := spare'.onward found.onward ready.live
              obtain ⟨rfl, others, inums, one⟩ := kept spare''
              refine ⟨spare'', moves.tidy (found.onward.tidy .refl none'), fun used zero => ?_⟩
              rw [inums] at used zero
              by_cases this : next = ip
              · subst this
                have more := got.more ready.live
                rw [found.onward.inum next ready.live] at used zero
                have two := spare' used zero
                rw [one]
                omega
              · rw [others next this]
                exact got.spare found none' used zero
            refine first.trans ((found.any.moves .refl).trans ?_)
            refine (moves.mono ?_).trans (rest.mono ?_)
            · rintro b ⟨none, -⟩ tidy
              exact none (goes tidy).1
            · rintro b none tidy
              exact none (goes tidy).2

theorem namex_moves (valid : sb.Valid) (parent : Bool) (h : Good sb s v) (path : Path)
    (cwd : path.head? = some SLASH ∨ ∀ ip, (s.procs s.current).cwd = some ip →
      0 < (s.itable ip).ref) :
    Ends (namex sb parent path) (fun _ t => ∃ v', Moves sb (fun _ => ¬ NoOrphan sb s v) s v t v') s := by
  have walk : ∀ ip t i, Step sb nothing s t v → Got ip i s t →
      Ends (namexFrom sb parent (path.length + 1) ip path []) (fun _ u => ∃ v',
        Moves sb (fun _ => ¬ NoOrphan sb s v) s v u v') t := by
    intro ip t i step got
    refine (namexFrom_moves valid parent _ step.good path []).conseq fun _ u ⟨v', moves⟩ => ⟨v', ?_⟩
    refine (step.any.moves .refl).trans (moves.mono fun b none tidy => none ⟨?_, ?_⟩)
    · exact step.onward.tidy .refl tidy
    · exact got.spare step tidy
  unfold namex
  refine ends_get ?_
  split
  · exact (iget_ends h valid.root).bind fun ip t ⟨step, got⟩ => walk ip t _ step got
  · next relative =>
    split
    · next ip is =>
      have live := cwd.resolve_left relative ip is
      refine (idup_ends h live).bind fun jp t ⟨same, step, got⟩ => ?_
      subst same
      exact walk jp t _ step got
    · exact ends_throw (by decide)

end Paths

/-! ### `create` and `unlink` -/

/-- Blocks of the bitmap, and the blocks in `l`. -/
def Among (sb : Superblock) (l : List Nat) (b : Nat) : Prop := sb.IsBitmap b ∨ b ∈ l

section Calls

variable {sb : Superblock} {dp ip : InodePtr} {s t : State} {v v' : Disk}

/-- An inode that is held is changed. -/
theorem NoOrphan.update (none : NoOrphan sb s v) (onward : Onward s t) (ready : Ready t ip)
    (elsewhere : ∀ j ≠ (t.itable ip).inum, v'.inode j = v.inode j) : NoOrphan sb t v' := by
  intro i hi used zero
  by_cases this : i = (t.itable ip).inum
  · exact ⟨ip, ready.live, ready.valid, this.symm⟩
  · rw [elsewhere i this] at used zero
    obtain ⟨jp, live, read, is⟩ := none i hi used zero
    exact ⟨jp, onward.live live, onward.valid jp live read, (onward.inum jp live).trans is⟩

theorem Moves.among {P : Nat → Prop} {l : List Nat} (moves : Moves sb P s v t v')
    (within : ∀ b, P b → sb.IsBitmap b ∨ b ∈ l) : Moves sb (Among sb l) s v t v' :=
  moves.mono within

theorem relogged_moves {P : Nat → Prop} (h : Good sb s v) (relogged : Relogged s t) :
    Moves sb P s v t v :=
  (relogged.step h).any.moves .refl

theorem relocked_moves {P : Nat → Prop} (h : Good sb s v) (relocked : Relocked ip s t) :
    Moves sb P s v t v :=
  (relocked.step h).any.moves .refl

/-- `iunlockput` at the end of an operation. -/
theorem iunlockput_among (valid : sb.Valid) (h : Good sb s v) {l : List Nat}
    (here : sb.iblock (s.itable ip).inum ∈ l) :
    Ends (iunlockput sb ip) (fun _ t => ∃ v', Moves sb (Among sb l) s v t v') s := by
  refine (iunlockput_moves valid h).conseq fun _ t ⟨v', moves, _⟩ => ⟨v', moves.among ?_⟩
  rintro b ⟨-, bitmap | is⟩
  · exact .inl bitmap
  · exact .inr (is ▸ here)

variable (valid : sb.Valid)
include valid

theorem createExisting_moves (h : Good sb s v) (type : Int16) :
    Ends (createExisting sb dp ip type) (fun _ t => ∃ v' l, l.length ≤ 4 ∧
      Moves sb (Among sb l) s v t v') s := by
  unfold createExisting
  refine (iunlockput_moves valid h).bind fun _ t ⟨v₁, first, _⟩ => ?_
  refine (ilock_ends first.good).bind fun _ u ⟨locked, _, _⟩ => ends_get ?_
  set l := [sb.iblock (s.itable dp).inum, sb.iblock (u.itable ip).inum] with list
  have one : Moves sb (Among sb l) s v u v₁ := by
    refine (first.among ?_).trans (locked.any.moves .refl)
    rintro b ⟨-, bitmap | is⟩
    · exact .inl bitmap
    · exact .inr (by rw [list, is]; exact List.mem_cons_self)
  split
  · refine iunlock_ends.bind fun _ w relocked => ?_
    have two := relocked_moves (P := Among sb l) locked.good relocked
    refine endOp_ends.bind fun _ x ended => ends_pure ⟨v₁, l, by simp [list], ?_⟩
    exact (one.trans two).trans (relogged_moves two.good ended)
  · refine (iunlockput_among valid locked.good (l := l) (by simp [list])).bind
      fun _ w ⟨v₂, two⟩ => ?_
    refine endOp_ends.bind fun _ x ended => ends_pure ⟨v₂, l, by simp [list], ?_⟩
    exact (one.trans two).trans (relogged_moves two.good ended)

theorem linkParent_moves (h : Good sb s v) (ready : Ready s dp) (type : Int16) :
    Ends (linkParent sb dp type) (fun _ t => ∃ v', Step sb (· = sb.iblock (s.itable dp).inum) s t v' ∧
      (NoOrphan sb s v → NoOrphan sb t v')) s := by
  unfold linkParent
  split
  · have relinks : Relinks fun inode => { inode with nlink := inode.nlink + 1 } :=
      relinks_nlink (·.nlink + 1)
    refine (store_ends valid h ready relinks).conseq fun _ t ⟨v', step, inodes, _⟩ =>
      ⟨v', step, fun none => none.update step.onward (step.onward.ready ready) fun j other => ?_⟩
    rw [step.onward.inum dp ready.live] at other
    rw [inodes, Function.update_of_ne other]
  · exact ends_pure ⟨v, .refl h, id⟩

theorem createEntry_moves (h : Good sb s v) (ready : Ready s dp) (live : 0 < (s.itable ip).ref)
    (name : Path) :
    Ends (createEntry sb dp ip name) (fun _ t => ∃ v' l, l.length ≤ 3 ∧
      sb.iblock (s.itable dp).inum ∈ l ∧ Moves sb (Among sb l) s v t v') s := by
  unfold createEntry
  refine ends_get ?_
  have inside := (h.cached.slot ip live).inside
  refine (dirlink_ends valid h ready name inside).bind fun r t entered => ?_
  split
  · exact ends_throw (by decide)
  · next done =>
    obtain ⟨v₁, data, indirect, step, links⟩ := entered (by omega)
    set l := [sb.iblock (s.itable dp).inum, data, indirect] with list
    have one : Moves sb (Among sb l) s v t v₁ := by
      refine (step.moves links).among ?_
      rintro b (is | is | bitmap | is)
      · exact .inr (by simp [list, is])
      · exact .inr (by simp [list, is])
      · exact .inl bitmap
      · exact .inr (by simp [list, is])
    have same : sb.iblock (t.itable dp).inum ∈ l := by
      rw [step.onward.inum dp ready.live]
      exact List.mem_cons_self
    refine (iunlockput_among valid step.good same).bind fun _ u ⟨v₂, two⟩ => ?_
    refine iunlock_ends.bind fun _ w relocked => ?_
    have three := relocked_moves (P := Among sb l) two.good relocked
    refine endOp_ends.bind fun _ x ended => ends_pure ⟨v₂, l, by simp [list], by simp [list], ?_⟩
    exact ((one.trans two).trans three).trans (relogged_moves three.good ended)

theorem createNew_moves (h : Good sb s v) (ready : Ready s dp) (name : Path)
    (type major minor : Int16) :
    Ends (createNew sb dp name type major minor) (fun _ t => ∃ v' l, l.length ≤ 4 ∧
      Moves sb (Among sb l) s v t v') s := by
  unfold createNew
  refine ends_get ?_
  rw [(h.cached.slot dp ready.live).dev]
  refine (ialloc_ends valid h type).bind fun r t post => ?_
  rcases post with ⟨rfl, rfl⟩ | ⟨ip, i, v₁, rfl, -, allocated⟩
  · exact ends_throw (by decide)
  obtain ⟨-, -, inodes, step, got⟩ := allocated
  refine (ilock_ends step.good).bind fun _ u ⟨locked, read, _⟩ => ?_
  have inum : (u.itable ip).inum = i := (locked.onward.inum ip got.live).trans got.inum
  have onward := step.onward.trans locked.onward
  have relinks : Relinks fun inode => { inode with major, minor, nlink := 1 } :=
    relinks_fresh major minor 1
  refine (store_ends valid locked.good read relinks).bind (f := fun _ => do
    linkParent sb dp type
    createEntry sb dp ip name) fun _ w ⟨v₂, stored, changed, _⟩ => ?_
  rw [inum] at stored changed
  have dpReady := stored.onward.ready (onward.ready ready)
  have ipReady := stored.onward.ready read
  refine (linkParent_moves valid stored.good dpReady type).bind fun _ x ⟨v₃, linked, tidy⟩ => ?_
  have dp' : (w.itable dp).inum = (s.itable dp).inum := by
    rw [stored.onward.inum dp (onward.live ready.live), onward.inum dp ready.live]
  refine (createEntry_moves valid linked.good (linked.onward.ready dpReady)
    (linked.onward.live ipReady.live) name).conseq fun _ y ⟨v₄, l, short, member, moves⟩ =>
      ⟨v₄, sb.iblock i :: l, Nat.succ_le_succ short, ?_⟩
  rw [linked.onward.inum dp dpReady.live, dp'] at member
  rw [dp'] at linked
  have before : Moves sb (Among sb (sb.iblock i :: l)) s v x v₃ := by
    have logged : Logged (Among sb (sb.iblock i :: l)) s x := by
      have one := step.logged.trans (locked.logged.mono fun _ none => none.elim)
      have two := (one.trans stored.logged).mono (Q := Among sb (sb.iblock i :: l)) fun b is =>
        .inr (is ▸ List.mem_cons_self)
      exact two.trans (linked.logged.mono fun b is => .inr (List.mem_cons_of_mem _ (is ▸ member)))
    refine ⟨linked.good, ?_, ?_, ?_, logged, fun none => tidy ?_⟩
    · rw [linked.ftable, stored.ftable, locked.ftable, step.ftable]
    · rw [linked.procs, stored.procs, locked.procs, step.procs]
    · rw [linked.current, stored.current, locked.current, step.current]
    · refine none.update (onward.trans stored.onward) ipReady fun j other => ?_
      rw [stored.onward.inum ip read.live, inum] at other
      rw [changed, Function.update_of_ne other, inodes]
      exact Function.update_of_ne other ..
  refine before.trans (moves.mono fun b log => ?_)
  exact log.imp_right fun inside => List.mem_cons_of_mem _ inside

/-- What `create` and `unlink` leave: besides the bitmap they log at most five blocks, unless they
free inodes without links on the way. -/
def CallPost (sb : Superblock) (s : State) (v : Disk) (t : State) : Prop :=
  ∃ v' l, l.length ≤ 5 ∧ Moves sb (fun b => ¬ NoOrphan sb s v ∨ Among sb l b) s v t v'

omit valid in
theorem CallPost.after {u : State} {l : List Nat} {v'' : Disk} (short : l.length ≤ 5)
    (one : Moves sb (fun _ => ¬ NoOrphan sb s v) s v t v') (two : Moves sb (Among sb l) t v' u v'') :
    CallPost sb s v u :=
  ⟨v'', l, short, (one.mono fun _ untidy => .inl untidy).trans (two.mono fun _ among => .inr among)⟩

/-- The inode that holds the last name of the path. -/
theorem nameiparent_moves (h : Good sb s v) (begun : Relogged s t) (path : Path)
    (cwd : path.head? = some SLASH ∨ ∀ ip, (s.procs s.current).cwd = some ip →
      0 < (s.itable ip).ref) :
    Ends (nameiparent sb path) (fun _ u => ∃ v', Moves sb (fun _ => ¬ NoOrphan sb s v) s v u v') t := by
  have step := begun.step h
  have same : t.procs = s.procs ∧ t.current = s.current ∧ t.itable = s.itable := by
    obtain ⟨n, lh, rfl⟩ := begun
    exact ⟨rfl, rfl, rfl⟩
  obtain ⟨procs, current, itable⟩ := same
  refine (namex_moves valid true step.good path ?_).conseq fun _ u ⟨v', moves⟩ => ⟨v', ?_⟩
  · rw [procs, current, itable]
    exact cwd
  · refine (step.any.moves .refl).trans (moves.mono fun b untidy tidy => untidy ?_)
    exact step.onward.tidy .refl tidy

theorem create_moves (h : Good sb s v) (path : Path) (type major minor : Int16)
    (cwd : path.head? = some SLASH ∨ ∀ ip, (s.procs s.current).cwd = some ip →
      0 < (s.itable ip).ref) :
    Ends (create sb path type major minor) (fun _ t => CallPost sb s v t) s := by
  unfold create
  refine beginOp_ends.bind fun _ s' begun => ?_
  refine (nameiparent_moves valid h begun path cwd).bind fun r t ⟨v₁, first⟩ => ?_
  split
  · refine endOp_ends.bind fun _ u ended => ends_pure ?_
    exact .after (l := []) (by decide) first (relogged_moves first.good ended)
  · next dp name =>
    refine (ilock_ends first.good).bind fun _ u ⟨locked, ready, _⟩ => ?_
    have second := first.trans (locked.any.moves .refl)
    refine (dirlookup_ends locked.good ready name).bind fun r w post => ?_
    rcases post with ⟨rfl, rfl⟩ | ⟨ip, off, i, rfl, -, -, found, -⟩
    · exact (createNew_moves valid locked.good ready name type major minor).conseq
        fun _ x ⟨v₂, l, short, last⟩ => .after (Nat.le_succ_of_le short) second last
    · have third := second.trans (found.any.moves .refl)
      exact (createExisting_moves valid found.good type).conseq
        fun _ x ⟨v₂, l, short, last⟩ => .after (Nat.le_succ_of_le short) third last

theorem unlinkFound_moves (h : Good sb s v) (ready : Ready s dp) {off : Nat}
    (aligned : off % DIRENT = 0) :
    Ends (unlinkFound sb dp ip off) (fun _ t => ∃ v' l, l.length ≤ 5 ∧
      Moves sb (Among sb l) s v t v') s := by
  unfold unlinkFound
  refine (ilock_ends h).bind fun _ t ⟨locked, read, _⟩ => ends_get ?_
  split
  · exact ends_throw (by decide)
  have relinks : Relinks fun inode => { inode with nlink := inode.nlink - 1 } :=
    relinks_nlink (·.nlink - 1)
  refine (store_ends valid locked.good read relinks).bind (f := fun _ => do
    let r ← writei sb dp (fun _ => 0) off DIRENT
    if r ≠ DIRENT then
      panic "unlink: writei"
    else
      iunlockput sb ip
      iunlockput sb dp
      endOp
      pure 0) fun _ u ⟨v₁, stored, changed, _⟩ => ?_
  have onward := locked.onward.trans stored.onward
  have dpReady := onward.ready ready
  have ipReady := stored.onward.ready read
  have fitting : Fitting sb (u.itable dp) (fun _ => 0) off DIRENT := by
    refine fun _ => ⟨aligned, rfl, ?_⟩
    have root : 1 < sb.ninodes := valid.root
    show le (fun _ => 0) 0 2 < sb.ninodes
    have zero : le (fun _ => 0) 0 2 = 0 := by decide
    omega
  refine (writei_ends valid stored.good dpReady (by decide) fitting).bind fun r w post => ?_
  split
  · exact ends_throw (by decide)
  · next done =>
    obtain ⟨v₂, data, indirect, written, links⟩ :=
      post.entered stored.good dpReady (not_not.mp done) aligned
    refine (iunlockput_ends valid written.good).bind fun _ x ⟨w', v₃, relocked, put⟩ => ?_
    set l := [sb.iblock (t.itable ip).inum, sb.iblock (u.itable dp).inum, data, indirect,
      sb.iblock (x.itable dp).inum] with list
    have one : Moves sb (Among sb l) s v u v₁ := by
      refine ⟨stored.good, stored.ftable.trans locked.ftable, stored.procs.trans locked.procs,
        stored.current.trans locked.current, ?_, fun none => ?_⟩
      · refine (locked.logged.mono fun _ none => none.elim).trans (stored.logged.mono fun b is => ?_)
        exact .inr (by simp [list, is])
      · refine none.update onward ipReady fun j other => ?_
        rw [stored.onward.inum ip read.live] at other
        rw [changed, Function.update_of_ne other]
    have two : Moves sb (Among sb l) u v₁ w v₂ := by
      refine (written.moves links).among ?_
      rintro b (is | is | bitmap | is)
      · exact .inr (by simp [list, is])
      · exact .inr (by simp [list, is])
      · exact .inl bitmap
      · exact .inr (by simp [list, is])
    have member : sb.iblock (w.itable ip).inum ∈ l := by
      rw [written.onward.inum ip ipReady.live, stored.onward.inum ip read.live]
      exact List.mem_cons_self
    have step := relocked.step written.good
    have three : Moves sb (Among sb l) w v₂ x v₃ := by
      refine (step.any.moves .refl).trans ((put.moves step.good).among ?_)
      rintro b ⟨-, bitmap | is⟩
      · exact .inl bitmap
      · rw [relocked.inum] at is
        exact .inr (is ▸ member)
    refine (iunlockput_among valid three.good (l := l) (by simp [list])).bind fun _ y ⟨v₄, four⟩ => ?_
    refine endOp_ends.bind fun _ z ended => ends_pure ⟨v₄, l, by simp [list], ?_⟩
    exact (((one.trans two).trans three).trans four).trans (relogged_moves four.good ended)

theorem unlink_moves (h : Good sb s v) (path : Path)
    (cwd : path.head? = some SLASH ∨ ∀ ip, (s.procs s.current).cwd = some ip →
      0 < (s.itable ip).ref) : Ends (unlink sb path) (fun _ t => CallPost sb s v t) s := by
  unfold unlink
  refine beginOp_ends.bind fun _ s' begun => ?_
  refine (nameiparent_moves valid h begun path cwd).bind fun r t ⟨v₁, first⟩ => ?_
  split
  · refine endOp_ends.bind fun _ u ended => ends_pure ?_
    exact .after (l := []) (by decide) first (relogged_moves first.good ended)
  · next dp name =>
    refine (ilock_ends first.good).bind fun _ u ⟨locked, ready, _⟩ => ?_
    have second := first.trans (locked.any.moves .refl)
    refine (dirlookup_ends locked.good ready name).bind fun r w post => ?_
    rcases post with ⟨rfl, rfl⟩ | ⟨ip, off, i, rfl, aligned, -, found, -⟩
    · have member : sb.iblock (w.itable dp).inum ∈ [sb.iblock (w.itable dp).inum] :=
        List.mem_cons_self
      refine (iunlockput_among valid locked.good member).bind fun _ x ⟨v₂, third⟩ => ?_
      refine endOp_ends.bind fun _ y ended => ends_pure ?_
      exact .after (by simp) second (third.trans (relogged_moves third.good ended))
    · have third := second.trans (found.any.moves .refl)
      exact (unlinkFound_moves valid found.good (found.onward.ready ready) aligned).conseq
        fun _ x ⟨v₂, l, short, last⟩ => .after short third last

end Calls

end Xv6Lab.Fs

import Xv6Lab.Fs.Linking
import Xv6Lab.Fs.Paths

/-! Walks along paths.  Where every inode without links is held by somebody, a walk changes nothing
on the disk, and it ends at the directory that the tables of entries lead to. -/

namespace Xv6Lab.Fs

open Bytes Exec

/-- Every directory is a table. -/
def Tables (sb : Superblock) (v : Disk) : Prop :=
  ∀ i < sb.ninodes, (v.inode i).type = T_DIR → Tabular v i

/-- The directory that the elements of a path but the last lead to from inode `i`, with the last
element. -/
def Disk.parentFrom (v : Disk) : Nat → Nat → Path → Option (Nat × Path)
  | 0, _, _ => none
  | fuel + 1, i, path =>
    match skipelem path with
    | none => none
    | some (name, rest) =>
      if (v.inode i).type ≠ T_DIR then none
      else if rest = [] then some (i, name)
      else
        match v.lookup i name with
        | none => none
        | some j => v.parentFrom fuel j rest

/-- The inode at which a walk along the path starts. -/
def State.origin (s : State) (path : Path) : Option Nat :=
  if path.head? = some SLASH then some ROOTINO
  else (s.procs s.current).cwd.map fun ip => (s.itable ip).inum

/-- The directory of the last element of a path, with that element. -/
def State.parent (s : State) (v : Disk) (path : Path) : Option (Nat × Path) :=
  (s.origin path).bind fun i => v.parentFrom (path.length + 1) i path

/-- The file system is as it was, but for references. -/
structure Calm (sb : Superblock) (s : State) (v : Disk) (t : State) : Prop where
  good : Good sb t v
  files : SameFiles s t
  tidy : NoOrphan sb t v

section Walk

variable {sb : Superblock} {dp ip : InodePtr} {s t u : State} {v : Disk}

theorem Step.calm {P : Nat → Prop} (step : Step sb P s t v) (tidy : NoOrphan sb s v) :
    Calm sb s v t :=
  ⟨step.good, ⟨step.ftable, step.procs, step.current⟩, step.onward.tidy .refl tidy⟩

theorem SameFiles.trans (one : SameFiles s t) (two : SameFiles t u) : SameFiles s u :=
  ⟨two.ftable.trans one.ftable, two.procs.trans one.procs, two.current.trans one.current⟩

theorem Calm.trans (one : Calm sb s v t) (two : Calm sb t v u) : Calm sb s v u :=
  ⟨two.good, one.files.trans two.files, two.tidy⟩

theorem dirlookup_stops (other : (s.itable dp).type ≠ T_DIR) (name : Path) :
    Ends (dirlookup sb dp name) (fun _ _ => False) s := by
  unfold dirlookup
  refine ends_get ?_
  rw [if_pos other]
  exact ends_throw (by decide)

/-- `dirlookup` panics, or searches the table. -/
theorem dirlookup_finds (h : Good sb s v) (ready : Ready s dp) (tables : Tables sb v) (name : Path) :
    Ends (dirlookup sb dp name) (fun r t => (s.itable dp).type = T_DIR ∧
      ((r = none ∧ t = s ∧ v.lookup (s.itable dp).inum name = none) ∨
      ∃ ip k, r = some (ip, DIRENT * k) ∧ v.find (s.itable dp).inum name = some k ∧
        Step sb nothing s t v ∧ Got ip (deInum (v.entry (s.itable dp).inum k)) s t)) s := by
  have slot := h.cached.slot dp ready.live
  by_cases dir : (s.itable dp).type = T_DIR
  swap
  · exact (dirlookup_stops dir name).conseq fun _ _ none => none.elim
  have type : (v.inode (s.itable dp).inum).type = T_DIR := by
    rw [← slot.synced ready.valid]
    exact dir
  have tabular := tables _ slot.inside type
  unfold Ends
  rw [wp_congr (dirlookup_eq h.toConsistent ready dir tabular.whole name)]
  cases found : v.find (s.itable dp).inum name with
  | none => exact ⟨dir, .inl ⟨rfl, rfl, Disk.find_eq_none.mp found⟩⟩
  | some k =>
    have inside : deInum (v.entry (s.itable dp).inum k) < sb.ninodes :=
      h.entries _ slot.inside type _ (Nat.mul_mod_right ..) (Disk.entry_whole (Slots.find_some found).1)
    show Ends (iget ROOTDEV _ >>= fun ip => pure (some (ip, DIRENT * k))) _ s
    exact (iget_ends h inside).bind fun ip t ⟨step, got⟩ =>
      ends_pure ⟨dir, .inr ⟨ip, k, rfl, rfl, step, got⟩⟩

/-- `iunlockput` of an inode that has links or is held by another. -/
theorem iunlockput_calm (valid : sb.Valid) (h : Good sb s v) (tidy : NoOrphan sb s v)
    (spare : Spare s v ip) : Ends (iunlockput sb ip) (fun _ t => Calm sb s v t ∧
      (∀ jp ≠ ip, (t.itable jp).ref = (s.itable jp).ref) ∧
      (∀ jp, (t.itable jp).inum = (s.itable jp).inum) ∧
      (t.itable ip).ref = (s.itable ip).ref - 1) s := by
  refine (iunlockput_moves valid h).conseq fun _ t ⟨v', moves, kept⟩ => ?_
  obtain ⟨rfl, rest⟩ := kept spare
  exact ⟨⟨moves.good, ⟨moves.ftable, moves.procs, moves.current⟩, moves.tidy tidy⟩, rest⟩

theorem iput_calm (valid : sb.Valid) (h : Good sb s v) (tidy : NoOrphan sb s v)
    (spare : Spare s v ip) : Ends (iput sb ip) (fun _ t => Calm sb s v t) s := by
  refine (iput_ends valid h).conseq fun _ t ⟨v', put⟩ => ?_
  obtain ⟨rfl, -, -⟩ := put.spared h spare
  exact ⟨put.good, ⟨put.ftable, put.procs, put.current⟩, (put.moves h).tidy tidy⟩

/-- The reference to the next inode is left when the one before is dropped. -/
theorem Got.passes {jp : InodePtr} {w : State} {i : Nat} (got : Got jp i t u) (tidy : NoOrphan sb t v)
    (ready : Ready t ip) (spare : Spare t v ip) (took : Step sb nothing t u v)
    (others : ∀ kp ≠ ip, (w.itable kp).ref = (u.itable kp).ref)
    (inums : ∀ kp, (w.itable kp).inum = (u.itable kp).inum)
    (one : (w.itable ip).ref = (u.itable ip).ref - 1) : 0 < (w.itable jp).ref ∧ Spare w v jp := by
  by_cases this : jp = ip
  · subst this
    have more := got.more ready.live
    have before := ready.live
    refine ⟨by omega, fun used zero => ?_⟩
    rw [inums, took.onward.inum jp ready.live] at used zero
    have two := spare used zero
    omega
  · refine ⟨by rw [others jp this]; exact got.live, fun used zero => ?_⟩
    rw [inums] at used zero
    rw [others jp this]
    exact got.spare took tidy used zero

/-- What a walk from inode `i` leaves, with its result. -/
def WalkPost (sb : Superblock) (parent : Bool) (fuel i : Nat) (path : Path) (s : State) (v : Disk)
    (r : Option (InodePtr × Path)) (t : State) : Prop :=
  Calm sb s v t ∧ ∀ dp name, r = some (dp, name) → 0 < (t.itable dp).ref ∧ Spare t v dp ∧
    (parent = true → v.parentFrom fuel i path = some ((t.itable dp).inum, name))

theorem namexFrom_walks (valid : sb.Valid) (parent : Bool) (fuel : Nat) (h : Good sb s v)
    (tidy : NoOrphan sb s v) (tables : Tables sb v) (live : 0 < (s.itable ip).ref)
    (spare : Spare s v ip) (path name : Path) :
    Ends (namexFrom sb parent fuel ip path name)
      (WalkPost sb parent fuel (s.itable ip).inum path s v) s := by
  have still : Calm sb s v s := ⟨h, ⟨rfl, rfl, rfl⟩, tidy⟩
  have none' : ∀ {t}, Calm sb s v t →
      WalkPost sb parent fuel (s.itable ip).inum path s v none t := by
    intro t calm
    exact ⟨calm, fun _ _ is => nomatch is⟩
  induction fuel generalizing s ip path name with
  | zero => exact ends_pure (none' still)
  | succ fuel ih =>
    unfold namexFrom
    split
    · split
      · exact (iput_calm valid h tidy spare).bind fun _ t calm => ends_pure (none' calm)
      · next other =>
        refine ends_pure ⟨still, fun dp name' is => ?_⟩
        obtain ⟨rfl, rfl⟩ := Prod.mk.inj (Option.some.inj is)
        exact ⟨live, spare, fun yes => absurd yes other⟩
    · next first rest next =>
      refine (ilock_ends h).bind fun _ t ⟨step, ready, refs⟩ => ends_get ?_
      have calm := step.calm tidy
      have spare' := spare.onward step.onward live
      have inum : (t.itable ip).inum = (s.itable ip).inum := step.onward.inum ip live
      have slot := step.good.cached.slot ip ready.live
      have drop : Ends (do iunlockput sb ip; pure none : F (Option (InodePtr × Path)))
          (WalkPost sb parent (fuel + 1) (s.itable ip).inum path s v) t :=
        (iunlockput_calm valid step.good calm.tidy spare').bind fun _ u ⟨calm', _⟩ =>
          ends_pure (none' (calm.trans calm'))
      split
      · exact drop
      · next dir =>
        have type : (v.inode (s.itable ip).inum).type = T_DIR := by
          rw [← inum, ← slot.synced ready.valid]
          exact not_not.mp dir
        split
        · next last =>
          refine iunlock_ends.bind fun _ u relocked => ends_pure ⟨?_, fun dp name' is => ?_⟩
          · exact calm.trans ((relocked.step step.good).calm calm.tidy)
          · obtain ⟨rfl, rfl⟩ := Prod.mk.inj (Option.some.inj is)
            refine ⟨by rw [relocked.refs]; exact ready.live, spare'.relocked relocked, fun _ => ?_⟩
            unfold Disk.parentFrom
            rw [next]
            dsimp only
            rw [if_neg (not_not.mpr type), if_pos last.2, relocked.inum, inum]
        · next more =>
          refine (dirlookup_finds step.good ready tables first).bind fun r u ⟨_, post⟩ => ?_
          rcases post with ⟨rfl, rfl, -⟩ | ⟨jp, k, rfl, found, took, got⟩
          · exact drop
          · have tidy' := took.calm calm.tidy
            have spare'' := spare'.onward took.onward ready.live
            refine (iunlockput_calm valid took.good tidy'.tidy spare'').bind
              fun _ w ⟨calm', others, inums, one⟩ => ?_
            have live' := got.passes calm.tidy ready spare' took others inums one
            have all := (calm.trans tidy').trans calm'
            refine (ih calm'.good calm'.tidy live'.1 live'.2 rest first ⟨calm'.good, ⟨rfl, rfl, rfl⟩,
              calm'.tidy⟩ fun calm => ⟨calm, fun _ _ is => nomatch is⟩).conseq
              fun r x ⟨after, result⟩ => ⟨all.trans after, fun dp name' is => ?_⟩
            obtain ⟨live, spare, leads⟩ := result dp name' is
            refine ⟨live, spare, fun yes => ?_⟩
            have next' : v.lookup (s.itable ip).inum first = some (w.itable jp).inum := by
              rw [← inum, Disk.lookup_of_find found, inums, got.inum]
            unfold Disk.parentFrom
            rw [next]
            dsimp only
            rw [if_neg (not_not.mpr type), if_neg fun none => more ⟨yes, none⟩, next']
            exact leads yes

/-- A walk from where the path starts. -/
theorem namex_walks (valid : sb.Valid) (parent : Bool) (h : Good sb s v) (tidy : NoOrphan sb s v)
    (tables : Tables sb v) (path : Path)
    (cwd : path.head? = some SLASH ∨ ∀ ip, (s.procs s.current).cwd = some ip →
      0 < (s.itable ip).ref) :
    Ends (namex sb parent path) (fun r t => Calm sb s v t ∧ ∀ dp name, r = some (dp, name) →
      0 < (t.itable dp).ref ∧ Spare t v dp ∧
        (parent = true → s.parent v path = some ((t.itable dp).inum, name))) s := by
  have walk : ∀ ip t i, Step sb nothing s t v → Got ip i s t → s.origin path = some i →
      Ends (namexFrom sb parent (path.length + 1) ip path []) (fun r u => Calm sb s v u ∧
        ∀ dp name, r = some (dp, name) → 0 < (u.itable dp).ref ∧ Spare u v dp ∧
          (parent = true → s.parent v path = some ((u.itable dp).inum, name))) t := by
    intro ip t i step got start
    have calm := step.calm tidy
    refine (namexFrom_walks valid parent _ step.good calm.tidy tables got.live (got.spare step tidy)
      path []).conseq fun r u ⟨after, result⟩ => ⟨calm.trans after, fun dp name is => ?_⟩
    obtain ⟨live, spare, leads⟩ := result dp name is
    refine ⟨live, spare, fun yes => ?_⟩
    rw [State.parent, start, Option.bind_some, ← got.inum]
    exact leads yes
  unfold namex
  refine ends_get ?_
  split
  · next absolute =>
    refine (iget_ends h valid.root).bind fun ip t ⟨step, got⟩ => walk ip t _ step got ?_
    exact if_pos absolute
  · next relative =>
    split
    · next ip is =>
      have live := cwd.resolve_left relative ip is
      refine (idup_ends h live).bind fun jp t ⟨same, step, got⟩ => ?_
      subst same
      refine walk jp t _ step got ?_
      rw [State.origin, if_neg relative, is]
      rfl
    · exact ends_throw (by decide)

/-- The walk to the directory of the last element, at the start of an operation. -/
theorem nameiparent_walks (valid : sb.Valid) (h : Good sb s v) (tidy : NoOrphan sb s v)
    (tables : Tables sb v) (begun : Relogged s t) (path : Path)
    (cwd : path.head? = some SLASH ∨ ∀ ip, (s.procs s.current).cwd = some ip →
      0 < (s.itable ip).ref) :
    Ends (nameiparent sb path) (fun r u => Calm sb s v u ∧ ∀ dp name, r = some (dp, name) →
      0 < (u.itable dp).ref ∧ Spare u v dp ∧ s.parent v path = some ((u.itable dp).inum, name)) t := by
  have first := (begun.step h).calm tidy
  have same : t.procs = s.procs ∧ t.current = s.current ∧ t.itable = s.itable := by
    obtain ⟨n, lh, rfl⟩ := begun
    exact ⟨rfl, rfl, rfl⟩
  obtain ⟨procs, current, itable⟩ := same
  have origin : t.parent v path = s.parent v path := by
    unfold State.parent State.origin
    rw [procs, current, itable]
  refine (namex_walks valid true first.good first.tidy tables path (by
    rw [procs, current, itable]
    exact cwd)).conseq fun r u ⟨calm, result⟩ => ⟨first.trans calm, fun dp name is => ?_⟩
  obtain ⟨live, spare, leads⟩ := result dp name is
  exact ⟨live, spare, origin.symm.trans (leads rfl)⟩

end Walk

end Xv6Lab.Fs

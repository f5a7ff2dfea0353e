import Xv6Lab.Fs.Completion
import Xv6Lab.Fs.Halts

/-! The locks of `unlink`.  It holds the lock of the directory when it acquires that of the inode that
the name has there, and nothing keeps the two apart: it acquires a lock twice exactly where the last
name of the path leads from the directory to that directory. -/

namespace Xv6Lab.Fs

open Bytes Exec

/-- The path ends in a name that a directory has for itself, and the walk gets as far. -/
def State.Circles (s : State) (v : Disk) (path : Path) : Prop :=
  s.Boards v path (components path).dropLast ∧
    ∃ d name, s.place v path = some (d, name) ∧ v.lookup d name = some d

section Unlink

variable {sb : Superblock} {dp ip : InodePtr} {s t : State} {v : Disk}

/-! ### Locks that are given back first -/

/-- `ilock` of an inode that nobody has locked. -/
theorem ilock_unentangled (free : (s.itable ip).lock = none) :
    wp (ilock sb ip) (fun _ _ => True) (fun e _ => e ≠ recursiveLock) s := by
  unfold ilock
  rw [wp_bind, wp_get]
  split
  · exact (by decide : Halt.panic "ilock" ≠ recursiveLock)
  · rw [wp_goes (bind_ok (acquiresleep_free free))]
    split
    · trivial
    · exact (ilockRead_avoids : Unentangled _) _

/-- `iput` of an inode that nobody has locked. -/
theorem iput_unentangled (free : (s.itable ip).lock = none) :
    wp (iput sb ip) (fun _ _ => True) (fun e _ => e ≠ recursiveLock) s := by
  have drop : Unentangled (updInode ip fun inode => { inode with ref := inode.ref - 1 }) :=
    updInode_avoids
  unfold iput
  rw [wp_bind, wp_get]
  dsimp only
  split
  · rw [wp_bind]
    unfold ifree
    rw [wp_goes (bind_ok (acquiresleep_free free))]
    refine wp_conseq ((?_ : Unentangled _) _) fun _ u _ => drop u
    apply Avoids.bind itrunc_avoids
    intro _
    apply Avoids.bind updInode_avoids
    intro _
    apply Avoids.bind iupdate_avoids
    intro _
    exact Avoids.bind updInode_avoids fun _ => releasesleep_avoids
  · exact drop s

theorem iunlock_frees : wp (iunlock ip) (fun _ t => (t.itable ip).lock = none)
    (fun e _ => e ≠ recursiveLock) s := by
  unfold iunlock
  rw [wp_bind, wp_get]
  split
  · exact (by decide : Halt.panic "iunlock" ≠ recursiveLock)
  · unfold releasesleep
    rw [wp_bind, wp_get]
    cases (s.itable ip).lock with
    | none => exact (by decide : Halt.panic "releasesleep: lock not held" ≠ recursiveLock)
    | some p =>
      dsimp only
      split
      · show (Function.update s.itable ip _ ip).lock = none
        rw [Function.update_self]
      · exact (by decide : Halt.panic "releasesleep: not lock owner" ≠ recursiveLock)

theorem iunlockput_unentangled : Unentangled (iunlockput sb ip) := by
  intro s
  unfold iunlockput
  rw [wp_bind]
  exact wp_conseq iunlock_frees fun _ t free => iput_unentangled free

/-! ### `unlink` -/

/-- Once it has both locks, `unlink` acquires no lock that it holds. -/
theorem unlinkFound_locks (h : wp (ilock sb ip) (fun _ _ => True) (fun e _ => e ≠ recursiveLock) s)
    (off : Nat) :
    wp (unlinkFound sb dp ip off) (fun _ _ => True) (fun e _ => e ≠ recursiveLock) s := by
  unfold unlinkFound
  rw [wp_bind]
  refine wp_conseq h fun _ t _ => ?_
  refine (?_ : Unentangled _) t
  apply avoids_get
  intro s
  split
  · exact panic_avoids (by decide)
  · apply Avoids.bind updInode_avoids
    intro _
    apply Avoids.bind iupdate_avoids
    intro _
    apply Avoids.bind (writei_avoids _ _ _)
    intro r
    split
    · exact panic_avoids (by decide)
    · apply Avoids.bind iunlockput_unentangled
      intro _
      apply Avoids.bind iunlockput_unentangled
      intro _
      exact Avoids.bind endOp_avoids fun _ => avoids_pure

theorem unlink_wp (valid : sb.Valid) (h : Good sb s v) (noOrphan : NoOrphan sb s v)
    (tree : Tree sb v) (idle : Idle s) (path : Path) (start : s.Stands v path) :
    wp (unlink sb path) (fun _ _ => ¬ s.Circles v path)
      (fun e _ => e = recursiveLock ↔ s.Circles v path) s := by
  have begun : beginOp s = .ok () (s.setLog 1 []) := beginOp_run idle.outstanding idle.lh
  set s' := s.setLog 1 [] with sIs
  have good : Good sb s' v := h.setLog 1 []
  have free : ∀ jp, s'.locks jp = none := idle.unlocked
  unfold unlink
  rw [wp_goes (bind_ok begun), wp_bind]
  refine wp_mono (namex_place valid h noOrphan tree idle path start)
    (fun r t ⟨i, walked, answers, boards'⟩ => ?_) fun e _ ⟨reason, unboarded⟩ => ?_
  swap
  · rw [reason]
    exact iff_of_false (by decide) fun circles => unboarded circles.1
  rcases r with _ | ⟨dp, name⟩
  · -- the path leads to no directory
    rintro ⟨-, d, name, is, -⟩
    rw [is] at answers
    cases answers
  set d := (t.itable dp).inum with dIs
  have at' : s.place v path = some (d, name) := answers.symm
  have dir : (v.inode d).type = T_DIR := place_dir at'
  have circles : s.Circles v path ↔ v.lookup d name = some d := by
    constructor
    · rintro ⟨-, d', name', is, there⟩
      rw [at'] at is
      cases is
      exact there
    · exact fun there => ⟨boards', d, name, at', there⟩
  have live := walked.live _ rfl
  have borrowed : Borrowed sb v s' (one dp) s'.locks t := walked.borrowed
  dsimp only
  rw [wp_bind]
  refine wp_mono (ilock_borrowed borrowed live (by rw [← dIs, dir]; decide))
    (fun _ u ⟨_, locked, step, ready⟩ => ?_) ?_
  swap
  · rintro _ _ ⟨jp, q, is, -⟩
    rw [free] at is
    cases is
  have inum : (u.itable dp).inum = d := step.onward.inum dp live
  have inside : d < sb.ninodes := inum ▸ (step.good.cached.slot dp ready.live).inside
  rw [wp_bind]
  refine wp_mono (dirlookup_borrowed locked ready inum dir (tree.whole d inside dir) name)
    (fun r w post => ?_) ?_
  swap
  · -- the directory itself is in the table
    rintro _ _ ⟨rfl, j, there, unseated⟩
    refine iff_of_false (by decide) fun circle => ?_
    rw [circles.mp circle] at there
    cases there
    exact unseated (.inl ⟨dp, ready.live, inum⟩)
  rcases post with ⟨rfl, -, missing⟩ | ⟨ip, off, j, rfl, there, -, -, took, onto, got⟩
  · have other : ¬ s.Circles v path := by
      rw [circles, missing]
      exact (Option.some_ne_none d).symm
    have finish : Unentangled (iunlockput sb dp >>= fun _ => endOp >>= fun _ => (pure (-1) : F Int)) := by
      apply Avoids.bind iunlockput_unentangled
      intro _
      exact Avoids.bind endOp_avoids fun _ => avoids_pure
    exact wp_mono (finish w) (fun _ _ _ => other) fun _ _ never => iff_of_false never other
  have held : ∀ jp, (w.itable jp).lock = Function.update s'.locks dp (some s.current) jp := took.locks
  by_cases same : ip = dp
  · -- the name leads to the directory
    subst same
    have circle : v.lookup d name = some d := by
      rw [there, ← got.inum, onto.onward.inum ip ready.live, inum]
    have mine : (w.itable ip).lock = some w.current := by
      rw [held, Function.update_self, took.current]
      rfl
    have stuck := acquiresleep_stuck mine
    rw [if_pos rfl] at stuck
    dsimp only
    unfold unlinkFound ilock
    rw [wp_bind, wp_bind, wp_get, if_neg (not_lt.mpr got.live), wp_bind]
    rw [wp_stop stuck]
    exact iff_of_true rfl (circles.mpr circle)
  · have other : ¬ s.Circles v path := by
      rw [circles, there]
      intro is
      refine same (took.good.cached.unique ip dp got.live (onto.onward.live ready.live) ?_)
      rw [got.inum, onto.onward.inum dp ready.live, inum]
      exact Option.some.inj is
    have unlocked : (w.itable ip).lock = none := by
      rw [held, Function.update_of_ne same]
      exact free ip
    exact wp_mono (unlinkFound_locks (ilock_unentangled unlocked) off) (fun _ _ _ => other)
      fun _ _ never => iff_of_false never other

/-- `unlink` acquires a lock that it holds exactly where the path ends in a name that a directory has
for itself. -/
theorem unlink_locks_iff (valid : sb.Valid) (h : Good sb s v) (noOrphan : NoOrphan sb s v)
    (tree : Tree sb v) (idle : Idle s) (path : Path) (start : s.Stands v path) :
    wp (kerUnlink sb path) (fun _ _ => True) (fun e _ => e ≠ recursiveLock) s ↔
      ¬ s.Circles v path := by
  apply wp_decides
  exact wp_mono (unlink_wp valid h noOrphan tree idle path start) (fun _ _ other => iff_of_true trivial other)
    fun _ _ circles => not_congr circles

end Unlink

/-- The path `/.`. -/
def pathDot : Path := [SLASH, 46]

theorem unlink_locks_booted :
    wp (kerUnlink fsImg pathDot) (fun _ _ => True) (fun e _ => e ≠ recursiveLock) booted ↔
      ¬ booted.Circles imageDisk pathDot :=
  unlink_locks_iff fsImg_valid booted_ordered.good booted_ordered.tidy image_tree booted_idle pathDot
    (.inl rfl)

/-- The root directory of `mkfs` has the name `.` for itself. -/
theorem unlink_dot_panics : Good fsImg booted imageDisk ∧ NoOrphan fsImg booted imageDisk ∧
    Tree fsImg imageDisk ∧ Idle booted ∧ booted.Stands imageDisk pathDot ∧
    panics (kerUnlink fsImg pathDot) booted = some recursiveLock :=
  ⟨booted_ordered.good, booted_ordered.tidy, image_tree, booted_idle, .inl rfl, by decide +kernel⟩

end Xv6Lab.Fs

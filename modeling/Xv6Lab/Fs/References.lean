import Mathlib.Algebra.Group.Pi.Basic
import Mathlib.Tactic.Abel
import Xv6Lab.Fs.Process
import Xv6Lab.Lib.Effect

/-! References to in-memory inodes: every function of `fs.c` takes and drops a fixed number of them,
which its result tells, on each of its paths that return. -/

namespace Xv6Lab.Fs

open Exec Effect

/-! ### Effects on the counts -/

/-- Nothing that points to an inode changes, and the counts change by `d`. -/
structure RefsBy (d : InodePtr → Int) (s t : State) : Prop where
  ftable : t.ftable = s.ftable
  procs : t.procs = s.procs
  current : t.current = s.current
  ref : ∀ ip, (t.itable ip).ref = (s.itable ip).ref + d ip

def refs : Effect State (InodePtr → Int) where
  rel := RefsBy
  zero s := ⟨rfl, rfl, rfl, fun ip => (add_zero _).symm⟩
  add {d e s t u} one two := by
    refine ⟨two.ftable.trans one.ftable, two.procs.trans one.procs,
      two.current.trans one.current, fun ip => ?_⟩
    rw [two.ref, one.ref, Pi.add_apply, add_assoc]

/-- One reference to an inode. -/
def one (ip : InodePtr) : InodePtr → Int := Pi.single ip 1

/-- The reference that a function returns. -/
def given : Option InodePtr → InodePtr → Int
  | some ip => one ip
  | none => 0

variable {sb : Superblock} {ip dp : InodePtr}

theorem refsBy_zero {s t : State} (ftable : t.ftable = s.ftable) (procs : t.procs = s.procs)
    (current : t.current = s.current) (ref : ∀ ip, (t.itable ip).ref = (s.itable ip).ref) :
    RefsBy 0 s t :=
  ⟨ftable, procs, current, fun ip => (ref ip).trans (add_zero _).symm⟩

theorem bread_refs (b : Nat) : refs.Neutral (bread b) := has_get fun _ => neutral_pure

theorem bstore_refs (b : Nat) (data : Block) : refs.Neutral (bstore b data) :=
  neutral_modify fun _ => refsBy_zero rfl rfl rfl fun _ => rfl

theorem setLog_refs (s : State) (n : Nat) (lh : List Nat) : RefsBy 0 s (s.setLog n lh) :=
  refsBy_zero rfl rfl rfl fun _ => rfl

theorem logWrite_refs (b : Nat) : refs.Neutral (logWrite b) := by
  refine Neutral.bind (neutral_modify fun _ => refsBy_zero rfl rfl rfl fun _ => rfl) fun _ s => ?_
  show wp (if _ then _ else _) _ _ s
  split
  · trivial
  · split
    · trivial
    · split
      · exact refs.zero s
      · exact setLog_refs s _ _

theorem beginOp_refs : refs.Neutral beginOp := by
  intro s
  show wp (if _ then _ else _) _ _ s
  split
  · trivial
  · exact setLog_refs s _ _

theorem endOp_refs : refs.Neutral endOp := neutral_modify fun s => setLog_refs s _ _

theorem setInode_ref (s : State) (ip j : InodePtr) (inode : Inode) :
    ((s.setInode ip inode).itable j).ref =
      (s.itable j).ref + (inode.ref - (s.itable ip).ref) * one ip j := by
  rw [State.setInode_itable, one]
  by_cases here : j = ip
  · subst here
    rw [Function.update_self, Pi.single_eq_same]
    omega
  · rw [Function.update_of_ne here, Pi.single_eq_of_ne here, mul_zero, add_zero]

/-- An assignment to other fields than `ref`. -/
theorem updInode_refs {g : Inode → Inode} (same : ∀ inode, (g inode).ref = inode.ref) :
    refs.Neutral (updInode ip g) := by
  refine neutral_modify fun s => refsBy_zero rfl rfl rfl fun j => ?_
  rw [setInode_ref, same, sub_self, zero_mul, add_zero]

theorem acquiresleep_refs : refs.Neutral (acquiresleep ip) := by
  refine has_get fun s => ?_
  split
  · exact updInode_refs fun _ => rfl
  · split
    · exact has_throw
    · exact has_throw

theorem releasesleep_refs : refs.Neutral (releasesleep ip) := by
  refine has_get fun s => ?_
  split
  · exact has_throw
  · split
    · exact updInode_refs fun _ => rfl
    · exact has_throw

/-! ### Blocks and inodes -/

theorem bzero_refs (b : Nat) : refs.Neutral (bzero b) :=
  Neutral.bind (bstore_refs b _) fun _ => logWrite_refs b

theorem ballocFrom_refs (fuel b : Nat) : refs.Neutral (ballocFrom sb fuel b) := by
  induction fuel generalizing b with
  | zero => exact neutral_pure
  | succ fuel ih =>
    unfold ballocFrom
    split
    · refine Neutral.bind (bread_refs _) fun data => ?_
      split
      · refine Neutral.bind (bstore_refs _ _) fun _ => Neutral.bind (logWrite_refs _) fun _ => ?_
        exact Neutral.bind (bzero_refs _) fun _ => neutral_pure
      · exact ih _
    · exact neutral_pure

theorem balloc_refs : refs.Neutral (balloc sb) := ballocFrom_refs _ _

theorem bfree_refs (b : Nat) : refs.Neutral (bfree sb b) := by
  refine Neutral.bind (bread_refs _) fun data => ?_
  split
  · exact Neutral.bind (bstore_refs _ _) fun _ => logWrite_refs _
  · exact has_throw

/-- `iget` takes one reference. -/
theorem iget_refs (dev inum : Nat) : refs.Has (iget dev inum) one := by
  intro s
  unfold iget
  rw [wp_bind, wp_get]
  split
  · next ip _ =>
    refine ⟨rfl, rfl, rfl, fun j => ?_⟩
    rw [setInode_ref, add_sub_cancel_left, one_mul]
  · split
    · next ip found =>
      have free : (s.itable ip).ref = 0 := by simpa using List.find?_some found
      refine ⟨rfl, rfl, rfl, fun j => ?_⟩
      rw [setInode_ref, free, sub_zero, one_mul]
    · trivial

theorem idup_refs : refs.Has (idup ip) one := by
  intro s
  refine ⟨rfl, rfl, rfl, fun j => ?_⟩
  rw [setInode_ref, add_sub_cancel_left, one_mul]

theorem iupdate_refs : refs.Neutral (iupdate sb ip) := by
  refine has_get fun s => Neutral.bind (bread_refs _) fun data => ?_
  exact Neutral.bind (bstore_refs _ _) fun _ => logWrite_refs _

/-- `ialloc` takes one reference where it finds an inode. -/
theorem ialloc_refs (dev : Nat) (type : Int16) : refs.Has (ialloc sb dev type) given := by
  have loop : ∀ count inum, refs.Has (iallocFrom sb dev type count inum) given := by
    intro count
    induction count with
    | zero => exact fun _ => has_pure rfl
    | succ count ih =>
      intro inum
      refine Neutral.bind (bread_refs _) fun data => ?_
      split
      · refine Neutral.bind beginOp_refs fun _ => Neutral.bind (bstore_refs _ _) fun _ => ?_
        refine Neutral.bind (logWrite_refs _) fun _ => Neutral.bind endOp_refs fun _ => ?_
        exact Has.bind (iget_refs dev inum) fun ip => has_pure (sub_self _)
      · exact ih _
  exact loop _ _

theorem ilock_refs : refs.Neutral (ilock sb ip) := by
  refine has_get fun s => ?_
  split
  · exact has_throw
  · refine Neutral.bind acquiresleep_refs fun _ => ?_
    split
    · exact neutral_pure
    · refine has_get fun s => Neutral.bind (bread_refs _) fun data => ?_
      refine Neutral.bind (updInode_refs fun _ => rfl) fun _ => ?_
      split
      · exact has_throw
      · exact neutral_pure

theorem iunlock_refs : refs.Neutral (iunlock ip) := by
  refine has_get fun s => ?_
  split
  · exact has_throw
  · exact releasesleep_refs

theorem bmapSlot_refs (k : Fin 13) : refs.Neutral (bmapSlot sb ip k) := by
  refine has_get fun s => ?_
  dsimp only
  split
  · refine Neutral.bind balloc_refs fun addr => ?_
    split
    · exact neutral_pure
    · exact Neutral.bind (updInode_refs fun _ => rfl) fun _ => neutral_pure
  · exact neutral_pure

theorem bmapWord_refs (addr bn : Nat) : refs.Neutral (bmapWord sb addr bn) := by
  refine Neutral.bind (bread_refs _) fun data => ?_
  split
  · refine Neutral.bind balloc_refs fun new => ?_
    split
    · exact neutral_pure
    · refine Neutral.bind (bstore_refs _ _) fun _ => Neutral.bind (logWrite_refs _) fun _ => ?_
      exact neutral_pure
  · exact neutral_pure

theorem bmap_refs (bn : Nat) : refs.Neutral (bmap sb ip bn) := by
  unfold bmap
  split
  · exact bmapSlot_refs _
  · split
    · refine Neutral.bind (bmapSlot_refs _) fun addr => ?_
      split
      · exact neutral_pure
      · exact bmapWord_refs _ _
    · exact has_throw

theorem itrunc_refs : refs.Neutral (itrunc sb ip) := by
  refine Neutral.bind (neutral_forM (fun k => ?_) _) fun _ => Neutral.bind ?_ fun _ => ?_
  · refine has_get fun s => ?_
    split
    · exact Neutral.bind (bfree_refs _) fun _ => updInode_refs fun _ => rfl
    · exact neutral_pure
  · refine has_get fun s => ?_
    dsimp only
    split
    · refine Neutral.bind (bread_refs _) fun data => Neutral.bind (neutral_forM (fun j => ?_) _) ?_
      · split
        · exact bfree_refs _
        · exact neutral_pure
      · exact fun _ => Neutral.bind (bfree_refs _) fun _ => updInode_refs fun _ => rfl
    · exact neutral_pure
  · exact Neutral.bind (updInode_refs fun _ => rfl) fun _ => iupdate_refs

theorem ifree_refs : refs.Neutral (ifree sb ip) := by
  refine Neutral.bind acquiresleep_refs fun _ => Neutral.bind itrunc_refs fun _ => ?_
  refine Neutral.bind (updInode_refs fun _ => rfl) fun _ => Neutral.bind iupdate_refs fun _ => ?_
  exact Neutral.bind (updInode_refs fun _ => rfl) fun _ => releasesleep_refs

/-- `iput` drops one reference. -/
theorem iput_refs : refs.Has (iput sb ip) fun _ => -one ip := by
  have drop : refs.Has (updInode ip fun inode => { inode with ref := inode.ref - 1 })
      fun _ => -one ip := by
    refine fun s => ⟨rfl, rfl, rfl, fun j => ?_⟩
    rw [setInode_ref, sub_sub_cancel_left, neg_one_mul]
    rfl
  refine has_get fun s => ?_
  dsimp only
  split
  · exact Neutral.bind ifree_refs fun _ => drop
  · exact drop

theorem iunlockput_refs : refs.Has (iunlockput sb ip) fun _ => -one ip :=
  Neutral.bind iunlock_refs fun _ => iput_refs

theorem readi_refs (dst : Bytes.Buffer) (off n : Nat) : refs.Neutral (readi sb ip dst off n) := by
  have loop : ∀ n fuel tot off dst, refs.Neutral (readiLoop sb ip n fuel tot off dst) := by
    intro n fuel
    induction fuel with
    | zero => exact fun _ _ _ => neutral_pure
    | succ fuel ih =>
      intro tot off dst
      unfold readiLoop
      split
      · refine Neutral.bind (bmap_refs _) fun addr => ?_
        split
        · exact neutral_pure
        · exact Neutral.bind (bread_refs _) fun data => ih _ _ _
      · exact neutral_pure
  refine has_get fun s => ?_
  dsimp only
  split
  · exact neutral_pure
  · exact Neutral.bind (loop _ _ _ _ _) fun _ => neutral_pure

theorem writei_refs (src : Bytes.Buffer) (off n : Nat) : refs.Neutral (writei sb ip src off n) := by
  have loop : ∀ fuel tot off, refs.Neutral (writeiLoop sb ip src n fuel tot off) := by
    intro fuel
    induction fuel with
    | zero => exact fun _ _ => neutral_pure
    | succ fuel ih =>
      intro tot off
      unfold writeiLoop
      split
      · refine Neutral.bind (bmap_refs _) fun addr => ?_
        split
        · exact neutral_pure
        · refine Neutral.bind (bread_refs _) fun data => Neutral.bind (bstore_refs _ _) fun _ => ?_
          exact Neutral.bind (logWrite_refs _) fun _ => ih _ _
      · exact neutral_pure
  refine has_get fun s => ?_
  split
  · exact neutral_pure
  · split
    · exact neutral_pure
    · refine Neutral.bind (loop _ _ _) fun r => Neutral.bind (updInode_refs fun _ => rfl) fun _ => ?_
      exact Neutral.bind iupdate_refs fun _ => neutral_pure

/-! ### Directories -/

/-- The reference that a lookup returns. -/
def found {α : Type} (r : Option (InodePtr × α)) : InodePtr → Int := given (r.map Prod.fst)

theorem dirlookup_refs (name : Path) : refs.Has (dirlookup sb dp name) found := by
  have loop : ∀ fuel off, refs.Has (dirlookupFrom sb dp name fuel off) found := by
    intro fuel
    induction fuel with
    | zero => exact fun _ => has_pure rfl
    | succ fuel ih =>
      intro off
      refine has_get fun s => ?_
      split
      · refine Neutral.bind (readi_refs _ _ _) fun ⟨r, de⟩ => ?_
        dsimp only
        split
        · exact has_throw
        · split
          · exact Has.bind (iget_refs _ _) fun ip => has_pure (sub_self _)
          · exact ih _
      · exact has_pure rfl
  refine has_get fun s => ?_
  split
  · exact has_throw
  · exact loop _ _

theorem emptyDirent_refs (fuel off : Nat) (de : Bytes.Buffer) :
    refs.Neutral (emptyDirent sb dp fuel off de) := by
  induction fuel generalizing off de with
  | zero => exact neutral_pure
  | succ fuel ih =>
    refine has_get fun s => ?_
    split
    · refine Neutral.bind (readi_refs _ _ _) fun ⟨r, de⟩ => ?_
      dsimp only
      split
      · exact has_throw
      · split
        · exact neutral_pure
        · exact ih _ _
    · exact neutral_pure

theorem dirlink_refs (name : Path) (inum : Nat) : refs.Neutral (dirlink sb dp name inum) := by
  refine Has.bind (dirlookup_refs name) fun r => ?_
  rcases r with _ | ⟨ip, off⟩
  · refine (has_get fun s => Neutral.bind (emptyDirent_refs _ _ _) fun ⟨off, de⟩ => ?_).congr
      fun _ => (sub_zero 0).symm
    refine Neutral.bind (writei_refs _ _ _) fun r => ?_
    split
    · exact neutral_pure
    · exact neutral_pure
  · exact Has.bind iput_refs fun _ => has_pure (by rw [zero_sub]; exact sub_self _)

/-- The loop of `namex` uses up the reference it starts with, and gives the one it returns. -/
theorem namexFrom_refs (parent : Bool) (fuel : Nat) (ip : InodePtr) (path name : Path)
    (enough : path.length < fuel) :
    refs.Has (namexFrom sb parent fuel ip path name) fun r => found r - one ip := by
  induction fuel generalizing ip path name with
  | zero => omega
  | succ fuel ih =>
    have drop : refs.Has (iunlockput sb ip >>= fun _ => (pure none : F (Option (InodePtr × Path))))
        fun r => found r - one ip :=
      Has.bind iunlockput_refs fun _ => has_pure (by simp [found, given])
    unfold namexFrom
    split
    · split
      · exact Has.bind iput_refs fun _ => has_pure (by simp [found, given])
      · exact has_pure (sub_self _)
    · next name rest next =>
      have shorter := skipelem_length next
      refine Neutral.bind ilock_refs fun _ => has_get fun s => ?_
      split
      · exact drop
      · split
        · exact Neutral.bind iunlock_refs fun _ => has_pure (sub_self _)
        · refine Has.bind (dirlookup_refs name) fun r => ?_
          rcases r with _ | ⟨child, off⟩
          · exact drop.congr fun r => (sub_zero _).symm
          · refine Has.bind iunlockput_refs fun _ => (ih child rest name (by omega)).congr fun r => ?_
            show _ = found r - one ip - one child - -one ip
            abel

theorem namex_refs (parent : Bool) (path : Path) : refs.Has (namex sb parent path) found := by
  refine has_get fun s => ?_
  split
  · exact Has.bind (iget_refs _ _) fun ip => namexFrom_refs _ _ _ _ _ (Nat.lt_succ_self _)
  · split
    · exact Has.bind idup_refs fun ip => namexFrom_refs _ _ _ _ _ (Nat.lt_succ_self _)
    · exact has_throw

theorem namei_refs (path : Path) : refs.Has (namei sb path) given :=
  Has.bind (namex_refs _ _) fun _ => has_pure (sub_self _)

theorem createExisting_refs (type : Int16) :
    refs.Has (createExisting sb dp ip type) fun r => given r - one ip - one dp := by
  refine Has.bind iunlockput_refs fun _ => Neutral.bind ilock_refs fun _ => has_get fun s => ?_
  split
  · refine Neutral.bind iunlock_refs fun _ => Neutral.bind endOp_refs fun _ => has_pure ?_
    show one ip - one ip - one dp - -one dp = 0
    abel
  · refine Has.bind iunlockput_refs fun _ => Neutral.bind endOp_refs fun _ => has_pure ?_
    show 0 - one ip - one dp - -one dp - -one ip = 0
    abel

theorem createNew_refs (name : Path) (type major minor : Int16) :
    refs.Has (createNew sb dp name type major minor) fun r => given r - one dp := by
  refine has_get fun s => Has.bind (ialloc_refs _ _) fun r => ?_
  rcases r with _ | ip
  · exact has_throw
  refine Neutral.bind ilock_refs fun _ => Neutral.bind (updInode_refs fun _ => rfl) fun _ => ?_
  refine Neutral.bind iupdate_refs fun _ => Neutral.bind ?_ fun _ => has_get fun s => ?_
  · unfold linkParent
    split
    · exact Neutral.bind (updInode_refs fun _ => rfl) fun _ => iupdate_refs
    · exact neutral_pure
  · refine Neutral.bind (dirlink_refs _ _) fun r => ?_
    split
    · exact has_throw
    · refine Has.bind iunlockput_refs fun _ => Neutral.bind iunlock_refs fun _ => ?_
      refine Neutral.bind endOp_refs fun _ => has_pure ?_
      show one ip - one dp - one ip - -one dp = 0
      abel

/-- `create` takes one reference to the inode it returns. -/
theorem create_refs (path : Path) (type major minor : Int16) :
    refs.Has (create sb path type major minor) given := by
  refine Neutral.bind beginOp_refs fun _ => Has.bind (namex_refs _ _) fun r => ?_
  rcases r with _ | ⟨dp, name⟩
  · exact Neutral.bind endOp_refs fun _ => has_pure (sub_self _)
  refine Neutral.bind ilock_refs fun _ => Has.bind (dirlookup_refs _) fun r => ?_
  rcases r with _ | ⟨ip, off⟩
  · exact (createNew_refs name type major minor).congr fun _ => (sub_zero _).symm
  · refine (createExisting_refs type).congr fun r => ?_
    show _ = given r - one dp - one ip
    abel

theorem unlinkFound_refs (off : Nat) :
    refs.Has (unlinkFound sb dp ip off) fun _ => -one ip - one dp := by
  refine Neutral.bind ilock_refs fun _ => has_get fun s => ?_
  split
  · exact has_throw
  · refine Neutral.bind (updInode_refs fun _ => rfl) fun _ => Neutral.bind iupdate_refs fun _ => ?_
    refine Neutral.bind (writei_refs _ _ _) fun r => ?_
    split
    · exact has_throw
    · refine Has.bind iunlockput_refs fun _ => Has.bind iunlockput_refs fun _ => ?_
      refine Neutral.bind endOp_refs fun _ => has_pure ?_
      abel

theorem unlink_refs (path : Path) : refs.Neutral (unlink sb path) := by
  refine Neutral.bind beginOp_refs fun _ => Has.bind (namex_refs _ _) fun r => ?_
  rcases r with _ | ⟨dp, name⟩
  · exact Neutral.bind endOp_refs fun _ => has_pure (sub_self _)
  refine Neutral.bind ilock_refs fun _ => Has.bind (dirlookup_refs _) fun r => ?_
  rcases r with _ | ⟨ip, off⟩
  · refine Has.bind iunlockput_refs fun _ => Neutral.bind endOp_refs fun _ => has_pure ?_
    show 0 - one dp - 0 - -one dp = 0
    abel
  · refine (unlinkFound_refs off).congr fun r => ?_
    show _ = 0 - one dp - one ip
    abel

end Xv6Lab.Fs

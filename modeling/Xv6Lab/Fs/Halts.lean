import Xv6Lab.Fs.Dir
import Xv6Lab.Lib.Avoid

/-! How a call may stop short of its end.  Most of what `fs.c` does ends in a panic of its own or in a
wait; only a path that starts nowhere uses a null pointer, and only a lock that is acquired twice is
recursive. -/

namespace Xv6Lab.Fs

open Exec

/-- The panic of `acquiresleep` of a lock that the caller holds. -/
abbrev recursiveLock : Halt := .panic "acquiresleep: recursive lock"

/-- No wait, and no panic but the one of `acquiresleep`. -/
class Particular (bad : Halt → Prop) : Prop where
  panic : ∀ {msg}, msg ≠ "acquiresleep: recursive lock" → ¬ bad (.panic msg)
  blocked : ¬ bad .blocked

instance : Particular (· = .nullPointer) :=
  ⟨fun _ is => Halt.noConfusion is, fun is => Halt.noConfusion is⟩

instance : Particular (· = recursiveLock) :=
  ⟨fun other is => other (Halt.panic.inj is), fun is => Halt.noConfusion is⟩

section Avoid

variable {bad : Halt → Prop} [Particular bad] {sb : Superblock} {ip dp : InodePtr} {s : State}

theorem panic_avoids {α : Type} {msg : String} (other : msg ≠ "acquiresleep: recursive lock") :
    Avoids bad (panic msg : F α) :=
  avoids_throw (Particular.panic other)

theorem blocked_avoids {α : Type} : Avoids bad (throw .blocked : F α) :=
  avoids_throw Particular.blocked

theorem logWrite_avoids (b : Nat) : Avoids bad (logWrite b) := by
  apply Avoids.bind avoids_modify
  intro _
  apply avoids_get
  intro s
  split
  · exact panic_avoids (by decide)
  · split
    · exact panic_avoids (by decide)
    · split
      · exact avoids_pure
      · exact fun _ => trivial

theorem bread_avoids (b : Nat) : Avoids bad (bread b) := avoids_get fun _ => avoids_pure

theorem bstore_avoids (b : Nat) (data : Block) : Avoids bad (bstore b data) := avoids_modify

theorem beginOp_avoids : Avoids bad beginOp := by
  apply avoids_get
  intro s
  split
  · exact blocked_avoids
  · exact fun _ => trivial

theorem endOp_avoids : Avoids bad endOp := avoids_modify

theorem updInode_avoids {g : Inode → Inode} : Avoids bad (updInode ip g) := avoids_modify

theorem releasesleep_avoids : Avoids bad (releasesleep ip) := by
  apply avoids_get
  intro s
  split
  · exact panic_avoids (by decide)
  · split
    · exact updInode_avoids
    · exact panic_avoids (by decide)

theorem bzero_avoids (b : Nat) : Avoids bad (bzero b) :=
  Avoids.bind (bstore_avoids b _) fun _ => logWrite_avoids b

theorem ballocFrom_avoids (fuel b : Nat) : Avoids bad (ballocFrom sb fuel b) := by
  induction fuel generalizing b with
  | zero => exact avoids_pure
  | succ fuel ih =>
    unfold ballocFrom
    split
    · apply Avoids.bind (bread_avoids _)
      intro data
      split
      · apply Avoids.bind (bstore_avoids _ _)
        intro _
        apply Avoids.bind (logWrite_avoids _)
        intro _
        exact Avoids.bind (bzero_avoids _) fun _ => avoids_pure
      · exact ih _
    · exact avoids_pure

theorem balloc_avoids : Avoids bad (balloc sb) := ballocFrom_avoids _ _

theorem bfree_avoids (b : Nat) : Avoids bad (bfree sb b) := by
  apply Avoids.bind (bread_avoids _)
  intro data
  split
  · exact Avoids.bind (bstore_avoids _ _) fun _ => logWrite_avoids _
  · exact panic_avoids (by decide)

theorem iget_avoids (dev inum : Nat) : Avoids bad (iget dev inum) := by
  apply avoids_get
  intro s
  split
  · exact Avoids.bind updInode_avoids fun _ => avoids_pure
  · split
    · exact Avoids.bind updInode_avoids fun _ => avoids_pure
    · exact panic_avoids (by decide)

theorem idup_avoids : Avoids bad (idup ip) := Avoids.bind updInode_avoids fun _ => avoids_pure

theorem iupdate_avoids : Avoids bad (iupdate sb ip) := by
  apply avoids_get
  intro s
  apply Avoids.bind (bread_avoids _)
  intro data
  exact Avoids.bind (bstore_avoids _ _) fun _ => logWrite_avoids _

theorem iallocFrom_avoids (dev : Nat) (type : Int16) (count inum : Nat) :
    Avoids bad (iallocFrom sb dev type count inum) := by
  induction count generalizing inum with
  | zero => exact avoids_pure
  | succ count ih =>
    apply Avoids.bind (bread_avoids _)
    intro data
    split
    · apply Avoids.bind beginOp_avoids
      intro _
      apply Avoids.bind (bstore_avoids _ _)
      intro _
      apply Avoids.bind (logWrite_avoids _)
      intro _
      apply Avoids.bind endOp_avoids
      intro _
      exact Avoids.bind (iget_avoids _ _) fun _ => avoids_pure
    · exact ih _

theorem ilockRead_avoids : Avoids bad (ilockRead sb ip) := by
  apply avoids_get
  intro s
  apply Avoids.bind (bread_avoids _)
  intro data
  apply Avoids.bind updInode_avoids
  intro _
  split
  · exact panic_avoids (by decide)
  · exact avoids_pure

theorem iunlock_avoids : Avoids bad (iunlock ip) := by
  apply avoids_get
  intro s
  split
  · exact panic_avoids (by decide)
  · exact releasesleep_avoids

theorem bmapSlot_avoids (k : Fin 13) : Avoids bad (bmapSlot sb ip k) := by
  apply avoids_get
  intro s
  dsimp only
  split
  · apply Avoids.bind balloc_avoids
    intro addr
    split
    · exact avoids_pure
    · exact Avoids.bind updInode_avoids fun _ => avoids_pure
  · exact avoids_pure

theorem bmapWord_avoids (addr bn : Nat) : Avoids bad (bmapWord sb addr bn) := by
  apply Avoids.bind (bread_avoids _)
  intro data
  split
  · apply Avoids.bind balloc_avoids
    intro new
    split
    · exact avoids_pure
    · apply Avoids.bind (bstore_avoids _ _)
      intro _
      exact Avoids.bind (logWrite_avoids _) fun _ => avoids_pure
  · exact avoids_pure

theorem bmap_avoids (bn : Nat) : Avoids bad (bmap sb ip bn) := by
  unfold bmap
  split
  · exact bmapSlot_avoids _
  · split
    · apply Avoids.bind (bmapSlot_avoids _)
      intro addr
      split
      · exact avoids_pure
      · exact bmapWord_avoids _ _
    · exact panic_avoids (by decide)

theorem itrunc_avoids : Avoids bad (itrunc sb ip) := by
  apply Avoids.bind (avoids_forM (fun k => ?_) _)
  · intro _
    apply Avoids.bind
    · apply avoids_get
      intro s
      dsimp only
      split
      · apply Avoids.bind (bread_avoids _)
        intro data
        apply Avoids.bind (avoids_forM (fun j => ?_) _)
        · exact fun _ => Avoids.bind (bfree_avoids _) fun _ => updInode_avoids
        · split
          · exact bfree_avoids _
          · exact avoids_pure
      · exact avoids_pure
    · exact fun _ => Avoids.bind updInode_avoids fun _ => iupdate_avoids
  · apply avoids_get
    intro s
    split
    · exact Avoids.bind (bfree_avoids _) fun _ => updInode_avoids
    · exact avoids_pure

theorem readi_avoids (dst : Bytes.Buffer) (off n : Nat) : Avoids bad (readi sb ip dst off n) := by
  have loop : ∀ n fuel tot off dst, Avoids bad (readiLoop sb ip n fuel tot off dst) := by
    intro n fuel
    induction fuel with
    | zero => exact fun _ _ _ => avoids_pure
    | succ fuel ih =>
      intro tot off dst
      unfold readiLoop
      split
      · apply Avoids.bind (bmap_avoids _)
        intro addr
        split
        · exact avoids_pure
        · exact Avoids.bind (bread_avoids _) fun data => ih _ _ _
      · exact avoids_pure
  apply avoids_get
  intro s
  dsimp only
  split
  · exact avoids_pure
  · exact Avoids.bind (loop _ _ _ _ _) fun _ => avoids_pure

theorem writei_avoids (src : Bytes.Buffer) (off n : Nat) : Avoids bad (writei sb ip src off n) := by
  have loop : ∀ fuel tot off, Avoids bad (writeiLoop sb ip src n fuel tot off) := by
    intro fuel
    induction fuel with
    | zero => exact fun _ _ => avoids_pure
    | succ fuel ih =>
      intro tot off
      unfold writeiLoop
      split
      · apply Avoids.bind (bmap_avoids _)
        intro addr
        split
        · exact avoids_pure
        · apply Avoids.bind (bread_avoids _)
          intro data
          apply Avoids.bind (bstore_avoids _ _)
          intro _
          exact Avoids.bind (logWrite_avoids _) fun _ => ih _ _
      · exact avoids_pure
  apply avoids_get
  intro s
  split
  · exact avoids_pure
  · split
    · exact avoids_pure
    · apply Avoids.bind (loop _ _ _)
      intro r
      apply Avoids.bind updInode_avoids
      intro _
      exact Avoids.bind iupdate_avoids fun _ => avoids_pure

theorem dirlookup_avoids (name : Path) : Avoids bad (dirlookup sb dp name) := by
  have loop : ∀ fuel off, Avoids bad (dirlookupFrom sb dp name fuel off) := by
    intro fuel
    induction fuel with
    | zero => exact fun _ => avoids_pure
    | succ fuel ih =>
      intro off
      apply avoids_get
      intro s
      split
      · apply Avoids.bind (readi_avoids _ _ _)
        intro ⟨r, de⟩
        dsimp only
        split
        · exact panic_avoids (by decide)
        · split
          · exact Avoids.bind (iget_avoids _ _) fun _ => avoids_pure
          · exact ih _
      · exact avoids_pure
  apply avoids_get
  intro s
  split
  · exact panic_avoids (by decide)
  · exact loop _ _

theorem emptyDirent_avoids (fuel off : Nat) (de : Bytes.Buffer) :
    Avoids bad (emptyDirent sb dp fuel off de) := by
  induction fuel generalizing off de with
  | zero => exact avoids_pure
  | succ fuel ih =>
    apply avoids_get
    intro s
    split
    · apply Avoids.bind (readi_avoids _ _ _)
      intro ⟨r, de⟩
      dsimp only
      split
      · exact panic_avoids (by decide)
      · split
        · exact avoids_pure
        · exact ih _ _
    · exact avoids_pure

/-! ### Recursive locks -/

/-- A program never acquires a lock that it holds. -/
abbrev Unentangled {α : Type} (x : F α) : Prop := Avoids (· = recursiveLock) x

end Avoid

end Xv6Lab.Fs

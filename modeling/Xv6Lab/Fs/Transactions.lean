import Mathlib.Algebra.Group.PUnit
import Xv6Lab.Fs.Runs
import Xv6Lab.Lib.Effect
import Xv6Lab.Lib.Journal

/-! The log commands that the functions of `fs.c` and `file.c` issue.  Blocks change by a store to a
buffer that `log_write` follows, and by nothing else; what a function asks of the log is read off
its code, and each operation is one transaction, whose last command is the `end_op`. -/

namespace Xv6Lab.Fs

open Bytes Exec Effect

abbrev LogActs := List (Journal.Act Block)

/-- Blocks and log stay as they are. -/
structure Unlogged (s t : State) : Prop where
  blocks : t.blocks = s.blocks
  outstanding : t.outstanding = s.outstanding
  lh : t.lh = s.lh
  logged : t.logged = s.logged

def unlogged : Effect State PUnit where
  rel _ s t := Unlogged s t
  zero _ := ⟨rfl, rfl, rfl, rfl⟩
  add one two := ⟨two.blocks.trans one.blocks, two.outstanding.trans one.outstanding,
    two.lh.trans one.lh, two.logged.trans one.logged⟩

/-- Code that leaves blocks and log alone. -/
abbrev Quiet {α : Type} (x : F α) : Prop := unlogged.Neutral x

/-- A run of `x` from `s` that ends with `a` in `t` issues the commands `acts` in this order. -/
inductive Emits : {α : Type} → F α → State → LogActs → α → State → Prop
  | quiet {α : Type} {x : F α} {s t : State} {a : α} (quiet : Quiet x) (run : x s = .ok a t) :
      Emits x s [] a t
  | begin {s t : State} (run : beginOp s = .ok () t) : Emits beginOp s [.begin] () t
  | finish {s t : State} (run : endOp s = .ok () t) : Emits endOp s [.finish] () t
  | store {b : Nat} {data : Block} {s t : State}
      (run : (bstore b data >>= fun _ => logWrite b) s = .ok () t) :
      Emits (bstore b data >>= fun _ => logWrite b) s [.write b data] () t
  | bind {α β : Type} {x : F α} {f : α → F β} {s t u : State} {l m : LogActs} {a : α} {b : β}
      (first : Emits x s l a t) (then' : Emits (f a) t m b u) : Emits (x >>= f) s (l ++ m) b u

/-- Whenever `x` ends, it has issued commands as `P` allows. -/
def Issues {α : Type} (P : LogActs → Prop) (x : F α) : Prop :=
  ∀ s a t, x s = .ok a t → ∃ l, Emits x s l a t ∧ P l

section Sound

variable {α : Type} {x : F α} {s t : State} {a : α} {l : LogActs}

theorem store_ok {b : Nat} {data : Block}
    (run : (bstore b data >>= fun _ => logWrite b) s = .ok () t) :
    t.blocks = Function.update s.blocks b data ∧ t.outstanding = s.outstanding ∧
      1 ≤ s.outstanding := by
  have spec : wp (bstore b data >>= fun _ => logWrite b)
      (fun _ t => t.blocks = Function.update s.blocks b data ∧ t.outstanding = s.outstanding ∧
        1 ≤ s.outstanding) (fun _ _ => True) s := by
    unfold bstore logWrite
    simp only [wp_bind, wp_modify, wp_get]
    split
    · trivial
    · split
      · trivial
      · next inside =>
        have some : 1 ≤ s.outstanding := Nat.le_of_not_lt inside
        split
        · exact ⟨rfl, rfl, some⟩
        · exact ⟨rfl, rfl, some⟩
  exact (wp_value run).mp spec

theorem beginOp_ok (run : beginOp s = .ok () t) :
    t.blocks = s.blocks ∧ t.outstanding = s.outstanding + 1 := by
  have spec : wp beginOp (fun _ t => t.blocks = s.blocks ∧ t.outstanding = s.outstanding + 1)
      (fun _ _ => True) s := by
    unfold beginOp
    rw [wp_bind, wp_get]
    split
    · trivial
    · exact ⟨rfl, rfl⟩
  exact (wp_value run).mp spec

/-- The commands account for what happens to the blocks, and writes are inside operations. -/
theorem Emits.sound (emits : Emits x s l a t) :
    x s = .ok a t ∧ t.blocks = Journal.content s.blocks l ∧
      t.outstanding = Journal.depth s.outstanding l ∧ Journal.Allowed s.outstanding l := by
  induction emits with
  | quiet quiet run =>
    have same := quiet.ok run
    exact ⟨run, same.blocks, same.outstanding, trivial⟩
  | begin run =>
    obtain ⟨blocks, outstanding⟩ := beginOp_ok run
    exact ⟨run, blocks, outstanding, trivial⟩
  | finish run =>
    cases run
    exact ⟨rfl, rfl, rfl, trivial⟩
  | store run =>
    obtain ⟨blocks, outstanding, some⟩ := store_ok run
    exact ⟨run, blocks, outstanding, some, trivial⟩
  | bind first then' one two =>
    obtain ⟨run, blocks, outstanding, allowed⟩ := one
    obtain ⟨run', blocks', outstanding', allowed'⟩ := two
    refine ⟨(bind_ok run).trans run', ?_, ?_, allowed.append (outstanding ▸ allowed')⟩
    · rw [Journal.content_append, ← blocks, blocks']
    · rw [Journal.depth_append, ← outstanding, outstanding']

end Sound

/-! ### Rules -/

section Rules

variable {α β : Type} {P Q R : LogActs → Prop} {x : F α} {f : α → F β}

theorem Issues.mono (h : Issues P x) (weaker : ∀ l, P l → Q l) : Issues Q x := by
  intro s a t run
  obtain ⟨l, emits, shape⟩ := h s a t run
  exact ⟨l, emits, weaker l shape⟩

theorem Issues.join (first : Issues P x) (then' : ∀ a, Issues Q (f a))
    (joins : ∀ l m, P l → Q m → R (l ++ m)) : Issues R (x >>= f) := by
  intro s b u run
  obtain ⟨a, t, one, two⟩ := ok_of_bind run
  obtain ⟨l, emits, shape⟩ := first s a t one
  obtain ⟨m, emits', shape'⟩ := then' a t b u two
  exact ⟨l ++ m, emits.bind emits', joins l m shape shape'⟩

theorem issues_throw {e : Halt} : Issues P (throw e : F α) := fun _ _ _ run => nomatch run

theorem issues_panic {msg : String} : Issues P (panic msg : F α) := issues_throw

theorem issues_quiet (quiet : Quiet x) (none : P []) : Issues P x := fun _ _ _ run =>
  ⟨[], .quiet quiet run, none⟩

theorem issues_pure {a : α} (none : P []) : Issues P (pure a : F α) :=
  issues_quiet neutral_pure none

/-- What comes after quiet code issues the commands. -/
theorem quiet_then (quiet : Quiet x) (then' : ∀ a, Issues P (f a)) : Issues P (x >>= f) :=
  (issues_quiet quiet (P := (· = [])) rfl).join then' fun _ _ none shape => none ▸ shape

theorem get_then {f : State → F β} (then' : ∀ s, Issues P (f s)) : Issues P (get >>= f) :=
  quiet_then neutral_get then'

/-- Code that only writes. -/
abbrev Writes (x : F α) : Prop := Issues Journal.Flat x

/-- Code inside an operation. -/
abbrev Inside (x : F α) : Prop := Issues Journal.Stays x

/-- The last part of an operation. -/
abbrev Closes (x : F α) : Prop := Issues Journal.Closing x

theorem Writes.bind (first : Writes x) (then' : ∀ a, Writes (f a)) : Writes (x >>= f) :=
  first.join then' fun _ _ => Journal.Flat.append

theorem writes_quiet (quiet : Quiet x) : Writes x := issues_quiet quiet Journal.flat_nil

theorem writes_pure {a : α} : Writes (pure a : F α) := issues_pure Journal.flat_nil

theorem Writes.inside (h : Writes x) : Inside x := h.mono fun _ => Journal.Flat.stays

theorem Inside.bind (first : Inside x) (then' : ∀ a, Inside (f a)) : Inside (x >>= f) :=
  first.join then' fun _ _ => Journal.Stays.append

theorem Inside.closes (first : Inside x) (then' : ∀ a, Closes (f a)) : Closes (x >>= f) :=
  first.join then' fun _ _ => Journal.Closing.append

theorem Writes.closes (first : Writes x) (then' : ∀ a, Closes (f a)) : Closes (x >>= f) :=
  first.inside.closes then'

theorem writes_store (b : Nat) (data : Block) : Writes (bstore b data >>= fun _ => logWrite b) := by
  intro s _ t run
  refine ⟨_, .store run, fun a inside => ?_⟩
  obtain rfl := List.mem_singleton.mp inside
  exact ⟨b, data, rfl⟩

/-- A store to a buffer that `log_write` follows. -/
theorem store_then {b : Nat} {data : Block} {g : F β} (then' : Writes g) :
    Writes (bstore b data >>= fun _ => logWrite b >>= fun _ => g) := by
  rw [← bind_assoc]
  exact (writes_store b data).bind fun _ => then'

theorem writes_forM {body : α → F PUnit} (each : ∀ a, Writes (body a)) (l : List α) :
    Writes (l.forM body) := by
  induction l with
  | nil => exact writes_pure
  | cons a rest ih => exact (each a).bind fun _ => ih

/-- `end_op`, and what does nothing to the log after it. -/
theorem endOp_closes {f : Unit → F β} (quiet : Quiet (f ())) : Closes (endOp >>= f) := by
  intro s b u run
  obtain ⟨⟨⟩, t, one, two⟩ := ok_of_bind run
  exact ⟨_, (Emits.finish one).bind (.quiet quiet two), [], rfl, Journal.flat_nil.stays⟩

theorem finish_closes : Closes endOp := fun _ _ _ run =>
  ⟨_, .finish run, [], rfl, Journal.flat_nil.stays⟩

/-- An operation inside another one. -/
theorem nested_then {y : F Unit} {g : F β} (writes : Writes y) (quiet : Quiet g) :
    Inside (beginOp >>= fun _ => y >>= fun _ => endOp >>= fun _ => g) := by
  intro s b u run
  obtain ⟨⟨⟩, _, one, run⟩ := ok_of_bind run
  obtain ⟨⟨⟩, _, two, run⟩ := ok_of_bind run
  obtain ⟨⟨⟩, _, three, run⟩ := ok_of_bind run
  obtain ⟨l, emits, flat⟩ := writes _ _ _ two
  exact ⟨_, (Emits.begin one).bind (emits.bind ((Emits.finish three).bind (.quiet quiet run))),
    flat.stays.nested⟩

/-- An operation from its `begin_op` to its `end_op`. -/
theorem begin_whole {f : Unit → F β} (closes : Closes (f ())) :
    Issues Journal.Shape (beginOp >>= f) := by
  intro s b u run
  obtain ⟨⟨⟩, t, one, two⟩ := ok_of_bind run
  obtain ⟨_, emits, m, rfl, stays⟩ := closes t b u two
  exact ⟨_, (Emits.begin one).bind emits, .whole stays⟩

end Rules

/-! ### Code that leaves the log alone -/

section Quiet

variable {sb : Superblock} {ip : InodePtr} {f : FilePtr}

theorem bread_quiet (b : Nat) : Quiet (bread b) := has_get fun _ => neutral_pure

theorem updInode_quiet (g : Inode → Inode) : Quiet (updInode ip g) :=
  neutral_modify fun _ => ⟨rfl, rfl, rfl, rfl⟩

theorem updFile_quiet (g : File → File) : Quiet (updFile f g) :=
  neutral_modify fun _ => ⟨rfl, rfl, rfl, rfl⟩

theorem acquiresleep_quiet : Quiet (acquiresleep ip) := by
  refine has_get fun s => ?_
  split
  · exact updInode_quiet _
  · split
    · exact has_throw
    · exact has_throw

theorem releasesleep_quiet : Quiet (releasesleep ip) := by
  refine has_get fun s => ?_
  split
  · exact has_throw
  · split
    · exact updInode_quiet _
    · exact has_throw

theorem iget_quiet (dev inum : Nat) : Quiet (iget dev inum) := by
  refine has_get fun s => ?_
  split
  · exact (updInode_quiet _).bind fun _ => neutral_pure
  · split
    · exact (updInode_quiet _).bind fun _ => neutral_pure
    · exact has_throw

theorem idup_quiet : Quiet (idup ip) := (updInode_quiet _).bind fun _ => neutral_pure

theorem ilockRead_quiet : Quiet (ilockRead sb ip) := by
  refine has_get fun s => (bread_quiet _).bind fun data => (updInode_quiet _).bind fun _ => ?_
  split
  · exact has_throw
  · exact neutral_pure

theorem ilock_quiet : Quiet (ilock sb ip) := by
  refine has_get fun s => ?_
  split
  · exact has_throw
  · refine acquiresleep_quiet.bind fun _ => ?_
    split
    · exact neutral_pure
    · exact ilockRead_quiet

theorem iunlock_quiet : Quiet (iunlock ip) := by
  refine has_get fun s => ?_
  split
  · exact has_throw
  · exact releasesleep_quiet

theorem filealloc_quiet : Quiet filealloc := by
  refine has_get fun s => ?_
  split
  · exact (updFile_quiet _).bind fun _ => neutral_pure
  · exact neutral_pure

theorem fileopen_quiet (readable writable : Bool) : Quiet (fileopen ip readable writable) := by
  refine filealloc_quiet.bind fun r => ?_
  split
  · exact neutral_pure
  · exact idup_quiet.bind fun _ => (updFile_quiet _).bind fun _ => neutral_pure

theorem filelock_quiet : Quiet (filelock sb f) := by
  refine has_get fun s => ?_
  split
  · exact ilock_quiet
  · exact has_throw
  · exact neutral_pure

theorem fileunlock_quiet : Quiet (fileunlock f) := by
  refine has_get fun s => ?_
  split
  · exact iunlock_quiet
  · exact has_throw
  · exact neutral_pure

theorem advance_quiet (r : Int) : Quiet (advance f r) := by
  unfold advance
  split
  · exact updFile_quiet _
  · exact neutral_pure

end Quiet

/-! ### Blocks and inodes -/

section Inodes

variable {sb : Superblock} {ip dp : InodePtr}

theorem bzero_writes (b : Nat) : Writes (bzero b) := writes_store b _

theorem ballocFrom_writes (fuel b : Nat) : Writes (ballocFrom sb fuel b) := by
  induction fuel generalizing b with
  | zero => exact writes_pure
  | succ fuel ih =>
    unfold ballocFrom
    split
    · refine quiet_then (bread_quiet _) fun data => ?_
      split
      · exact store_then ((bzero_writes _).bind fun _ => writes_pure)
      · exact ih _
    · exact writes_pure

theorem balloc_writes : Writes (balloc sb) := ballocFrom_writes _ _

theorem bfree_writes (b : Nat) : Writes (bfree sb b) := by
  refine quiet_then (bread_quiet _) fun data => ?_
  split
  · exact writes_store _ _
  · exact issues_panic

theorem iupdate_writes : Writes (iupdate sb ip) :=
  get_then fun _ => quiet_then (bread_quiet _) fun _ => writes_store _ _

/-- `ialloc` has an operation of its own. -/
theorem iallocFrom_inside (dev : Nat) (type : Int16) (count inum : Nat) :
    Inside (iallocFrom sb dev type count inum) := by
  induction count generalizing inum with
  | zero => exact writes_pure.inside
  | succ count ih =>
    refine quiet_then (bread_quiet _) fun data => ?_
    split
    · have quiet : Quiet (do
          let ip ← iget dev inum
          pure (some ip)) := (iget_quiet _ _).bind fun _ => neutral_pure
      have nested := nested_then (writes_store (sb.iblock inum)
        (clearDinode data (inodeOff inum) type)) quiet
      simp only [bind_assoc] at nested
      exact nested
    · exact ih _

theorem ialloc_inside (dev : Nat) (type : Int16) : Inside (ialloc sb dev type) :=
  iallocFrom_inside _ _ _ _

/-! ### Contents -/

theorem bmapSlot_writes (k : Fin 13) : Writes (bmapSlot sb ip k) := by
  refine get_then fun s => ?_
  dsimp only
  split
  · refine balloc_writes.bind fun addr => ?_
    split
    · exact writes_pure
    · exact quiet_then (updInode_quiet _) fun _ => writes_pure
  · exact writes_pure

theorem bmapWord_writes (addr bn : Nat) : Writes (bmapWord sb addr bn) := by
  refine quiet_then (bread_quiet _) fun data => ?_
  split
  · refine balloc_writes.bind fun new => ?_
    split
    · exact writes_pure
    · exact store_then writes_pure
  · exact writes_pure

theorem bmap_writes (bn : Nat) : Writes (bmap sb ip bn) := by
  unfold bmap
  split
  · exact bmapSlot_writes _
  · split
    · refine (bmapSlot_writes _).bind fun addr => ?_
      split
      · exact writes_pure
      · exact bmapWord_writes _ _
    · exact issues_panic

theorem freeSlot_writes (k : Fin 13) : Writes (freeSlot sb ip k) := by
  refine get_then fun s => ?_
  split
  · exact (bfree_writes _).bind fun _ => writes_quiet (updInode_quiet _)
  · exact writes_pure

theorem freeIndirect_writes : Writes (freeIndirect sb ip) := by
  refine get_then fun s => ?_
  dsimp only
  split
  · refine quiet_then (bread_quiet _) fun data => ?_
    refine (writes_forM (fun j => ?_) _).bind fun _ =>
      (bfree_writes _).bind fun _ => writes_quiet (updInode_quiet _)
    split
    · exact bfree_writes _
    · exact writes_pure
  · exact writes_pure

theorem itrunc_writes : Writes (itrunc sb ip) :=
  (writes_forM (fun _ => freeSlot_writes _) _).bind fun _ =>
    freeIndirect_writes.bind fun _ => quiet_then (updInode_quiet _) fun _ => iupdate_writes

theorem ifree_writes : Writes (ifree sb ip) :=
  quiet_then acquiresleep_quiet fun _ => itrunc_writes.bind fun _ =>
    quiet_then (updInode_quiet _) fun _ => iupdate_writes.bind fun _ =>
      quiet_then (updInode_quiet _) fun _ => writes_quiet releasesleep_quiet

theorem iput_writes : Writes (iput sb ip) := by
  refine get_then fun s => ?_
  have last : Writes (updInode ip fun inode => { inode with ref := inode.ref - 1 }) :=
    writes_quiet (updInode_quiet _)
  dsimp only
  split
  · exact ifree_writes.bind fun _ => last
  · exact last

theorem iunlockput_writes : Writes (iunlockput sb ip) :=
  quiet_then iunlock_quiet fun _ => iput_writes

theorem readiLoop_writes (n fuel tot off : Nat) (dst : Buffer) :
    Writes (readiLoop sb ip n fuel tot off dst) := by
  induction fuel generalizing tot off dst with
  | zero => exact writes_pure
  | succ fuel ih =>
    unfold readiLoop
    split
    · refine (bmap_writes _).bind fun addr => ?_
      split
      · exact writes_pure
      · exact quiet_then (bread_quiet _) fun data => ih _ _ _
    · exact writes_pure

theorem readi_writes (dst : Buffer) (off n : Nat) : Writes (readi sb ip dst off n) := by
  refine get_then fun s => ?_
  dsimp only
  split
  · exact writes_pure
  · exact (readiLoop_writes _ _ _ _ _).bind fun _ => writes_pure

theorem writeiLoop_writes (src : Buffer) (n fuel tot off : Nat) :
    Writes (writeiLoop sb ip src n fuel tot off) := by
  induction fuel generalizing tot off with
  | zero => exact writes_pure
  | succ fuel ih =>
    unfold writeiLoop
    split
    · refine (bmap_writes _).bind fun addr => ?_
      split
      · exact writes_pure
      · exact quiet_then (bread_quiet _) fun data => store_then (ih _ _)
    · exact writes_pure

theorem writei_writes (src : Buffer) (off n : Nat) : Writes (writei sb ip src off n) := by
  refine get_then fun s => ?_
  split
  · exact writes_pure
  · split
    · exact writes_pure
    · exact (writeiLoop_writes _ _ _ _ _).bind fun _ => quiet_then (updInode_quiet _) fun _ =>
        iupdate_writes.bind fun _ => writes_pure

end Inodes

/-! ### Directories and paths -/

section Directories

variable {sb : Superblock} {ip dp : InodePtr}

theorem dirlookupFrom_writes (name : Path) (fuel off : Nat) :
    Writes (dirlookupFrom sb dp name fuel off) := by
  induction fuel generalizing off with
  | zero => exact writes_pure
  | succ fuel ih =>
    refine get_then fun s => ?_
    split
    · refine (readi_writes _ _ _).bind fun ⟨r, de⟩ => ?_
      dsimp only
      split
      · exact issues_panic
      · split
        · exact quiet_then (iget_quiet _ _) fun _ => writes_pure
        · exact ih _
    · exact writes_pure

theorem dirlookup_writes (name : Path) : Writes (dirlookup sb dp name) := by
  refine get_then fun s => ?_
  split
  · exact issues_panic
  · exact dirlookupFrom_writes _ _ _

theorem emptyDirent_writes (fuel off : Nat) (de : Buffer) :
    Writes (emptyDirent sb dp fuel off de) := by
  induction fuel generalizing off de with
  | zero => exact writes_pure
  | succ fuel ih =>
    refine get_then fun s => ?_
    split
    · refine (readi_writes _ _ _).bind fun ⟨r, de⟩ => ?_
      dsimp only
      split
      · exact issues_panic
      · split
        · exact writes_pure
        · exact ih _ _
    · exact writes_pure

theorem dirlink_writes (name : Path) (inum : Nat) : Writes (dirlink sb dp name inum) := by
  refine (dirlookup_writes _).bind fun r => ?_
  split
  · exact iput_writes.bind fun _ => writes_pure
  · refine get_then fun s => (emptyDirent_writes _ _ _).bind fun ⟨off, de⟩ => ?_
    refine (writei_writes _ _ _).bind fun r => ?_
    split
    · exact writes_pure
    · exact writes_pure

theorem namexFrom_writes (parent : Bool) (fuel : Nat) (path name : Path) :
    Writes (namexFrom sb parent fuel ip path name) := by
  induction fuel generalizing ip path name with
  | zero => exact writes_pure
  | succ fuel ih =>
    unfold namexFrom
    split
    · split
      · exact iput_writes.bind fun _ => writes_pure
      · exact writes_pure
    · refine quiet_then ilock_quiet fun _ => get_then fun s => ?_
      split
      · exact iunlockput_writes.bind fun _ => writes_pure
      · split
        · exact quiet_then iunlock_quiet fun _ => writes_pure
        · refine (dirlookup_writes _).bind fun r => ?_
          split
          · exact iunlockput_writes.bind fun _ => writes_pure
          · exact iunlockput_writes.bind fun _ => ih _ _

theorem namex_writes (parent : Bool) (path : Path) : Writes (namex sb parent path) := by
  refine get_then fun s => ?_
  split
  · exact quiet_then (iget_quiet _ _) fun _ => namexFrom_writes _ _ _ _
  · split
    · exact quiet_then idup_quiet fun _ => namexFrom_writes _ _ _ _
    · exact Writes.bind issues_throw fun _ => namexFrom_writes _ _ _ _

/-! ### Operations -/

theorem endOp_pure {α : Type} {a : α} : Closes (do
    endOp
    pure a) :=
  endOp_closes neutral_pure

theorem createExisting_closes (type : Int16) : Closes (createExisting sb dp ip type) := by
  refine iunlockput_writes.closes fun _ => quiet_then ilock_quiet fun _ => get_then fun s => ?_
  split
  · exact quiet_then iunlock_quiet fun _ => endOp_pure
  · exact iunlockput_writes.closes fun _ => endOp_pure

theorem linkParent_writes (type : Int16) : Writes (linkParent sb dp type) := by
  unfold linkParent
  split
  · exact quiet_then (updInode_quiet _) fun _ => iupdate_writes
  · exact writes_pure

theorem createEntry_closes (name : Path) : Closes (createEntry sb dp ip name) := by
  refine get_then fun s => (dirlink_writes _ _).closes fun r => ?_
  split
  · exact issues_panic
  · exact iunlockput_writes.closes fun _ => quiet_then iunlock_quiet fun _ => endOp_pure

theorem createNew_closes (name : Path) (type major minor : Int16) :
    Closes (createNew sb dp name type major minor) := by
  refine get_then fun s => (ialloc_inside _ _).closes fun r => ?_
  split
  · exact issues_panic
  · refine quiet_then ilock_quiet fun _ => quiet_then (updInode_quiet _) fun _ => ?_
    exact iupdate_writes.closes fun _ => (linkParent_writes _).closes fun _ => createEntry_closes _

theorem create_whole (path : Path) (type major minor : Int16) :
    Issues Journal.Shape (create sb path type major minor) := by
  refine begin_whole ((namex_writes _ _).closes fun r => ?_)
  split
  · exact endOp_pure
  · refine quiet_then ilock_quiet fun _ => (dirlookup_writes _).closes fun r => ?_
    split
    · exact createExisting_closes _
    · exact createNew_closes _ _ _ _

theorem unlinkFound_closes (off : Nat) : Closes (unlinkFound sb dp ip off) := by
  refine quiet_then ilock_quiet fun _ => get_then fun s => ?_
  split
  · exact issues_panic
  · refine quiet_then (updInode_quiet _) fun _ => iupdate_writes.closes fun _ => ?_
    refine (writei_writes _ _ _).closes fun r => ?_
    split
    · exact issues_panic
    · exact iunlockput_writes.closes fun _ => iunlockput_writes.closes fun _ => endOp_pure

theorem unlink_whole (path : Path) : Issues Journal.Shape (unlink sb path) := by
  refine begin_whole ((namex_writes _ _).closes fun r => ?_)
  split
  · exact endOp_pure
  · refine quiet_then ilock_quiet fun _ => (dirlookup_writes _).closes fun r => ?_
    split
    · exact iunlockput_writes.closes fun _ => endOp_pure
    · exact unlinkFound_closes _

end Directories

section Files

variable {sb : Superblock} {ip : InodePtr} {f : FilePtr}

theorem fileclose_writes : Writes (fileclose sb f) := by
  refine get_then fun s => ?_
  dsimp only
  split
  · exact issues_panic
  · split
    · exact writes_quiet (updFile_quiet _)
    · refine quiet_then (updFile_quiet _) fun _ => ?_
      split
      · exact iput_writes
      · exact issues_throw
      · exact writes_pure

theorem fileread_writes (dst : Buffer) (n : Int) : Writes (fileread sb f dst n) := by
  refine get_then fun s => ?_
  dsimp only
  split
  · exact writes_pure
  · split
    · split
      · refine (readi_writes _ _ _).bind fun ⟨r, dst⟩ => ?_
        exact quiet_then (advance_quiet _) fun _ => writes_pure
      · exact writes_pure
    · exact issues_throw
    · exact issues_panic

theorem filewriteLoop_writes (src : Buffer) (n fuel i : Nat) :
    Writes (filewriteLoop sb f ip src n fuel i) := by
  induction fuel generalizing i with
  | zero => exact writes_pure
  | succ fuel ih =>
    unfold filewriteLoop
    split
    · refine get_then fun s => (writei_writes _ _ _).bind fun r => ?_
      refine quiet_then (advance_quiet _) fun _ => ?_
      split
      · exact ih _
      · exact writes_pure
    · exact writes_pure

theorem filewrite_writes (src : Buffer) (n : Int) : Writes (filewrite sb f src n) := by
  refine get_then fun s => ?_
  dsimp only
  split
  · exact writes_pure
  · split
    · split
      · exact (filewriteLoop_writes _ _ _ _).bind fun _ => writes_pure
      · exact writes_pure
    · exact issues_throw
    · exact issues_panic

/-- A call of `file.c` that locks the file for what it does. -/
theorem locked_whole {α : Type} {x : F α} (writes : Writes x) : Issues Journal.Shape (do
    beginOp
    filelock sb f
    let r ← x
    fileunlock f
    endOp
    pure r) :=
  begin_whole (quiet_then filelock_quiet fun _ => writes.closes fun _ =>
    quiet_then fileunlock_quiet fun _ => endOp_pure)

end Files

section Calls

variable {α : Type} {P : LogActs → Prop} {x : F α}

theorem Issues.ignore (h : Issues P x) : Issues P (ignore x) := by
  intro s b u run
  obtain ⟨a, t, one, two⟩ := ok_of_bind run
  obtain ⟨l, emits, shape⟩ := h s a t one
  exact ⟨l ++ [], emits.bind (.quiet neutral_pure two), (List.append_nil l).symm ▸ shape⟩

theorem Writes.shape (h : Writes x) : Issues Journal.Shape x := h.mono fun _ => .flat

/-- Every call is one transaction, or takes part in one, or is the beginning or the end of one. -/
theorem Operation.shape (sb : Superblock) (op : Operation) : Issues Journal.Shape (op.run sb) := by
  cases op with
  | create path type major minor => exact (create_whole _ _ _ _).ignore
  | unlink path => exact (unlink_whole _).ignore
  | fsOpen ip readable writable =>
    exact (begin_whole (quiet_then (fileopen_quiet _ _) fun _ => endOp_pure)).ignore
  | close f => exact begin_whole (fileclose_writes.closes fun _ => finish_closes)
  | read f dst n => exact (locked_whole (fileread_writes _ _)).ignore
  | write f src n => exact (locked_whole (filewrite_writes _ _)).ignore
  | iput ip => exact iput_writes.shape
  | ilock ip => exact (writes_quiet ilock_quiet).shape
  | iunlock ip => exact (writes_quiet iunlock_quiet).shape
  | beginOp =>
    exact fun _ _ _ run => ⟨_, .begin run, .begin⟩
  | endOp => exact fun _ _ _ run => ⟨_, .finish run, .finish⟩
  | schedule p =>
    have quiet : Quiet (modify fun s => s.setCurrent p) :=
      neutral_modify fun _ => ⟨rfl, rfl, rfl, rfl⟩
    exact (writes_quiet quiet).shape

end Calls

end Xv6Lab.Fs

import Mathlib.Algebra.Order.BigOperators.Group.Finset
import Xv6Lab.Fs.Accounts
import Xv6Lab.Fs.Halts

/-! Working directories.  A path that does not begin with a slash is walked from the working directory
of the process.  `create_user_proc` gives its process none, and `fork_proc` passes on what the parent
has; where a process has one, it is an inode in use. -/

namespace Xv6Lab.Fs

open Exec Effect

section Code

variable (sb : Superblock)

/-- `create_user_proc`; `built` says whether its pages could be had and mapped. -/
def createUserProc (memory built : Bool) : F Int := do
  match ← allocProc memory with
  | none => pure (-1)
  | some p =>
    if built then
      let s ← get
      updProc p fun proc => { proc with state := .runnable, parent := some s.current }
      pure p.val
    else
      freeProc sb p
      pure (-1)

/-- The inode from which `namex` starts. -/
def namexStart (path : Path) : F InodePtr := do
  let s ← get
  if path.head? = some SLASH then iget ROOTDEV ROOTINO
  else match (s.procs s.current).cwd with
    | some ip => idup ip
    | none => throw .nullPointer

theorem namex_eq (parent : Bool) (path : Path) : namex sb parent path =
    namexStart path >>= fun ip => namexFrom sb parent (path.length + 1) ip path [] := by
  unfold namex namexStart
  rw [bind_assoc]
  apply bind_congr
  intro s
  split
  · rfl
  · cases (s.procs s.current).cwd <;> rfl

end Code

/-! ### No null pointer -/

section Avoid

variable {sb : Superblock} {ip dp : InodePtr} {f : FilePtr}

/-- The program uses no null pointer. -/
abbrev Pointed {α : Type} (x : F α) : Prop := Avoids (· = .nullPointer) x

theorem pointed_panic {α : Type} {msg : String} : Pointed (panic msg : F α) :=
  avoids_throw (by simp)

theorem acquiresleep_pointed : Pointed (acquiresleep ip) := by
  apply avoids_get
  intro s
  split
  · exact updInode_avoids
  · split
    · exact pointed_panic
    · exact blocked_avoids

theorem ilock_pointed : Pointed (ilock sb ip) := by
  apply avoids_get
  intro s
  split
  · exact pointed_panic
  · apply Avoids.bind acquiresleep_pointed
    intro _
    split
    · exact avoids_pure
    · exact ilockRead_avoids

theorem iput_pointed : Pointed (iput sb ip) := by
  apply avoids_get
  intro s
  dsimp only
  split
  · apply Avoids.bind
    · apply Avoids.bind acquiresleep_pointed
      intro _
      apply Avoids.bind itrunc_avoids
      intro _
      apply Avoids.bind updInode_avoids
      intro _
      apply Avoids.bind iupdate_avoids
      intro _
      exact Avoids.bind updInode_avoids fun _ => releasesleep_avoids
    · exact fun _ => updInode_avoids
  · exact updInode_avoids

theorem iunlockput_pointed : Pointed (iunlockput sb ip) :=
  Avoids.bind iunlock_avoids fun _ => iput_pointed

theorem dirlink_pointed (name : Path) (inum : Nat) : Pointed (dirlink sb dp name inum) := by
  apply Avoids.bind (dirlookup_avoids name)
  intro r
  rcases r with _ | ⟨ip, off⟩
  · apply avoids_get
    intro s
    apply Avoids.bind (emptyDirent_avoids _ _ _)
    intro ⟨off, de⟩
    apply Avoids.bind (writei_avoids _ _ _)
    intro r
    split
    · exact avoids_pure
    · exact avoids_pure
  · exact Avoids.bind iput_pointed fun _ => avoids_pure

theorem namexFrom_pointed (parent : Bool) (fuel : Nat) (ip : InodePtr) (path name : Path) :
    Pointed (namexFrom sb parent fuel ip path name) := by
  induction fuel generalizing ip path name with
  | zero => exact avoids_pure
  | succ fuel ih =>
    unfold namexFrom
    split
    · split
      · exact Avoids.bind iput_pointed fun _ => avoids_pure
      · exact avoids_pure
    · apply Avoids.bind ilock_pointed
      intro _
      apply avoids_get
      intro s
      split
      · exact Avoids.bind iunlockput_pointed fun _ => avoids_pure
      · split
        · exact Avoids.bind iunlock_avoids fun _ => avoids_pure
        · apply Avoids.bind (dirlookup_avoids _)
          intro r
          rcases r with _ | ⟨next, off⟩
          · exact Avoids.bind iunlockput_pointed fun _ => avoids_pure
          · exact Avoids.bind iunlockput_pointed fun _ => ih _ _ _

/-! ### Where the path is walked from -/

/-- The path is absolute, or the process has a working directory. -/
def State.Sourced (s : State) (path : Path) : Prop :=
  path.head? = some SLASH ∨ (s.procs s.current).cwd ≠ none

variable {s t : State} {path : Path}

/-- Programs that run from a state without using a null pointer. -/
abbrev PointedFrom {α : Type} (x : F α) (s : State) : Prop :=
  wp x (fun _ _ => True) (fun e _ => e ≠ .nullPointer) s

theorem namexStart_pointed (sourced : s.Sourced path) : PointedFrom (namexStart path) s := by
  unfold namexStart
  rw [PointedFrom, wp_bind, wp_get]
  split
  · exact iget_avoids _ _ s
  · next relative =>
    split
    · exact idup_avoids s
    · next none => exact absurd none (sourced.resolve_left relative)

theorem namexStart_null (unsourced : ¬ s.Sourced path) :
    namexStart path s = .error .nullPointer s := by
  obtain ⟨relative, none⟩ := not_or.mp unsourced
  unfold namexStart
  rw [bind_get, if_neg relative, not_not.mp none]
  rfl

theorem namex_pointed (sourced : s.Sourced path) (parent : Bool) :
    PointedFrom (namex sb parent path) s := by
  rw [namex_eq, PointedFrom, wp_bind]
  exact wp_conseq (namexStart_pointed sourced) fun ip t _ => namexFrom_pointed _ _ _ _ _ t

/-- Without a place to start, `namex` has no result. -/
theorem namex_null (unsourced : ¬ s.Sourced path) (parent : Bool)
    (r : Option (InodePtr × Path)) : namex sb parent path s ≠ .ok r t := by
  intro run
  rw [namex_eq] at run
  obtain ⟨ip, u, start, -⟩ := ok_of_bind run
  rw [namexStart_null unsourced] at start
  cases start

/-- `begin_op` leaves the processes alone. -/
theorem beginOp_sourced (path : Path) : wp beginOp (fun _ t => t.Sourced path ↔ s.Sourced path)
    (fun e _ => e ≠ .nullPointer) s := by
  unfold beginOp
  rw [wp_bind, wp_get]
  split
  · exact fun is => nomatch is
  · exact Iff.rfl

theorem createExisting_pointed (type : Int16) : Pointed (createExisting sb dp ip type) := by
  apply Avoids.bind iunlockput_pointed
  intro _
  apply Avoids.bind ilock_pointed
  intro _
  apply avoids_get
  intro s
  split
  · exact Avoids.bind iunlock_avoids fun _ => Avoids.bind endOp_avoids fun _ => avoids_pure
  · exact Avoids.bind iunlockput_pointed fun _ => Avoids.bind endOp_avoids fun _ => avoids_pure

theorem createNew_pointed (name : Path) (type major minor : Int16) :
    Pointed (createNew sb dp name type major minor) := by
  apply avoids_get
  intro s
  apply Avoids.bind (iallocFrom_avoids _ _ _ _)
  intro r
  rcases r with _ | ip
  · exact pointed_panic
  apply Avoids.bind ilock_pointed
  intro _
  apply Avoids.bind updInode_avoids
  intro _
  apply Avoids.bind iupdate_avoids
  intro _
  apply Avoids.bind
  · unfold linkParent
    split
    · exact Avoids.bind updInode_avoids fun _ => iupdate_avoids
    · exact avoids_pure
  intro _
  apply avoids_get
  intro s
  apply Avoids.bind (dirlink_pointed _ _)
  intro r
  split
  · exact pointed_panic
  · apply Avoids.bind iunlockput_pointed
    intro _
    exact Avoids.bind iunlock_avoids fun _ => Avoids.bind endOp_avoids fun _ => avoids_pure

/-- An operation that starts at the directory that holds the last element of a path. -/
theorem parent_pointed {α : Type} {none' : α} {found : InodePtr → Path → F α}
    (sourced : s.Sourced path) (pointed : ∀ dp name, Pointed (found dp name)) :
    PointedFrom (do
      beginOp
      match ← nameiparent sb path with
      | none =>
        endOp
        pure none'
      | some (dp, name) => found dp name) s := by
  rw [PointedFrom, wp_bind]
  refine wp_conseq (beginOp_sourced path) fun _ t same => ?_
  rw [wp_bind]
  refine wp_conseq (namex_pointed (same.mpr sourced) true) fun r u _ => ?_
  rcases r with _ | ⟨dp, name⟩
  · exact Avoids.bind endOp_avoids (fun _ => avoids_pure) u
  · exact pointed dp name u

theorem create_pointed (sourced : s.Sourced path) (type major minor : Int16) :
    PointedFrom (create sb path type major minor) s := by
  refine parent_pointed sourced fun dp name => ?_
  apply Avoids.bind ilock_pointed
  intro _
  apply Avoids.bind (dirlookup_avoids _)
  intro r
  rcases r with _ | ⟨ip, off⟩
  · exact createNew_pointed _ _ _ _
  · exact createExisting_pointed _

theorem create_null (unsourced : ¬ s.Sourced path) (type major minor : Int16)
    (r : Option InodePtr) : create sb path type major minor s ≠ .ok r t := by
  intro run
  obtain ⟨_, u, begun, run⟩ := ok_of_bind run
  obtain ⟨r, w, walked, -⟩ := ok_of_bind run
  have same := wp_ok (beginOp_sourced path) begun
  exact namex_null (fun sourced => unsourced (same.mp sourced)) true r walked

theorem unlinkFound_pointed (off : Nat) : Pointed (unlinkFound sb dp ip off) := by
  apply Avoids.bind ilock_pointed
  intro _
  apply avoids_get
  intro s
  split
  · exact pointed_panic
  · apply Avoids.bind updInode_avoids
    intro _
    apply Avoids.bind iupdate_avoids
    intro _
    apply Avoids.bind (writei_avoids _ _ _)
    intro r
    split
    · exact pointed_panic
    · apply Avoids.bind iunlockput_pointed
      intro _
      apply Avoids.bind iunlockput_pointed
      intro _
      exact Avoids.bind endOp_avoids fun _ => avoids_pure

theorem unlink_pointed (sourced : s.Sourced path) : PointedFrom (kerUnlink sb path) s := by
  refine parent_pointed sourced fun dp name => ?_
  apply Avoids.bind ilock_pointed
  intro _
  apply Avoids.bind (dirlookup_avoids _)
  intro r
  rcases r with _ | ⟨ip, off⟩
  · exact Avoids.bind iunlockput_pointed fun _ => Avoids.bind endOp_avoids fun _ => avoids_pure
  · exact unlinkFound_pointed off

theorem unlink_null (unsourced : ¬ s.Sourced path) (r : Int) : kerUnlink sb path s ≠ .ok r t := by
  intro run
  obtain ⟨_, u, begun, run⟩ := ok_of_bind run
  obtain ⟨r, w, walked, -⟩ := ok_of_bind run
  have same := wp_ok (beginOp_sourced path) begun
  exact namex_null (fun sourced => unsourced (same.mp sourced)) true r walked

/-- `fileopen` makes a file that has an inode. -/
theorem fileopen_inode (readable writable : Bool) : wp (fileopen ip readable writable)
    (fun r t => ∀ f, r = some f → (t.ftable f).ip = some ip) (fun e _ => e ≠ .nullPointer) s := by
  unfold fileopen filealloc
  simp only [wp_bind, wp_get]
  split
  · simp only [wp_bind, wp_pure, updFile, wp_modify, idup, updInode]
    intro f is
    cases is
    simp
  · intro f is
    cases is

theorem fdalloc_files : wp (fdalloc f) (fun _ t => t.ftable = s.ftable)
    (fun e _ => e ≠ .nullPointer) s := by
  unfold fdalloc
  rw [wp_bind, wp_get]
  split
  · exact rfl
  · exact rfl

theorem close_pointed (file : (s.ftable f).ip ≠ none) : PointedFrom (close sb f) s := by
  unfold close
  rw [PointedFrom, wp_bind]
  have begun : wp beginOp (fun _ t => t.ftable = s.ftable) (fun e _ => e ≠ .nullPointer) s := by
    unfold beginOp
    rw [wp_bind, wp_get]
    split
    · exact fun is => nomatch is
    · exact rfl
  refine wp_conseq begun fun _ t same => ?_
  rw [← same] at file
  rw [wp_bind]
  have closed : PointedFrom (fileclose sb f) t := by
    unfold fileclose
    rw [PointedFrom, wp_bind, wp_get]
    dsimp only
    split
    · exact pointed_panic t
    · split
      · exact trivial
      · rw [wp_bind]
        show wp _ _ _ (t.setFile f _)
        split
        · exact iput_pointed _
        · next none => exact absurd none file
        · exact trivial
  exact wp_conseq closed fun _ u _ => endOp_avoids u

theorem fsOpen_inode (readable writable : Bool) : wp (fsOpen ip readable writable)
    (fun r t => ∀ f, r = some f → (t.ftable f).ip = some ip) (fun e _ => e ≠ .nullPointer) s := by
  unfold fsOpen
  rw [wp_bind]
  refine wp_conseq (beginOp_avoids s) fun _ t _ => ?_
  rw [wp_bind]
  exact wp_conseq (fileopen_inode _ _) fun r u opened => opened

theorem openFile_pointed (omode : Omode) : PointedFrom (openFile sb ip omode) s := by
  unfold openFile
  rw [PointedFrom, wp_bind]
  refine wp_conseq (fsOpen_inode _ _) fun r t opened => ?_
  rcases r with _ | f
  · exact Avoids.bind iunlock_avoids (fun _ => Avoids.bind iput_pointed fun _ => avoids_pure) t
  · rw [wp_bind]
    refine wp_conseq fdalloc_files fun fd u files => ?_
    split
    · rw [wp_bind]
      refine wp_conseq (close_pointed ?_) fun _ _ _ => trivial
      rw [files]
      exact fun none => nomatch (opened f rfl).symm.trans none
    · split
      · exact trivial
      · exact Avoids.bind iunlock_avoids (fun _ => avoids_pure) u

theorem kerOpen_pointed (sourced : s.Sourced path) (omode : Omode) :
    PointedFrom (kerOpen sb path omode) s := by
  have opened : PointedFrom (openInode sb path omode) s := by
    unfold openInode
    split
    · exact create_pointed sourced _ _ _
    · unfold namei
      simp only [PointedFrom, wp_bind]
      refine wp_conseq (namex_pointed sourced false) fun r t _ => ?_
      rw [wp_pure]
      rcases r with _ | ⟨ip, name⟩
      · exact trivial
      · have found : Pointed (do
            ilock sb ip
            let s ← get
            if (s.itable ip).type = T_DIR ∧ omode ≠ O_RDONLY then
              iunlockput sb ip
              pure none
            else
              pure (some ip)) := by
          apply Avoids.bind ilock_pointed
          intro _
          apply avoids_get
          intro s
          split
          · exact Avoids.bind iunlockput_pointed fun _ => avoids_pure
          · exact avoids_pure
        exact found t
  unfold kerOpen
  rw [PointedFrom, wp_bind]
  refine wp_conseq opened fun r t _ => ?_
  rcases r with _ | ip
  · exact trivial
  · exact openFile_pointed omode

theorem kerOpen_null (unsourced : ¬ s.Sourced path) (omode : Omode) (r : Int) :
    kerOpen sb path omode s ≠ .ok r t := by
  intro run
  obtain ⟨r, u, opened, -⟩ := ok_of_bind run
  unfold openInode at opened
  split at opened
  · exact create_null unsourced _ _ _ r opened
  · obtain ⟨r, w, named, -⟩ := ok_of_bind opened
    obtain ⟨r, x, walked, -⟩ := ok_of_bind named
    exact namex_null unsourced false r walked

end Avoid

/-! ### Where working directories come from -/

/-- What a process asks for: a call, or a user process. -/
inductive Act
  | call (c : Call)
  | createUserProc (memory built : Bool)

def Act.run (sb : Superblock) : Act → F Unit
  | .call c => c.run sb
  | .createUserProc memory built => ignore (Fs.createUserProc sb memory built)

/-- Process `p` asks for `a`, and gets it. -/
def Acts (sb : Superblock) (p : Pid) (a : Act) (s t : State) : Prop :=
  s.Runs p ∧ a.run sb (s.setCurrent p) = .ok () t

/-- The process that `a` makes has a working directory if its parent has one. -/
def Act.Inherits : Act → Prop
  | .createUserProc _ _ => False
  | .call _ => True

/-- The slot has a process that it did not have before. -/
def Born (s t : State) (q : Pid) : Prop :=
  (s.procs q).state = .unused ∧ (t.procs q).state ≠ .unused

/-- A run from `start`, and the processes among whose ancestors and themselves nobody was made by
`create_user_proc`. -/
inductive History (sb : Superblock) (start : State) : State → (Pid → Prop) → Prop
  | start : History sb start start fun _ => True
  | act {s t : State} {native : Pid → Prop} {p : Pid} {a : Act} (before : History sb start s native)
      (acts : Acts sb p a s t) :
      History sb start t fun q => (¬ Born s t q ∧ native q) ∨ (Born s t q ∧ a.Inherits ∧ native p)

/-- The references to an inode that do not come from files. -/
def State.idle (s : State) (ip : InodePtr) : Int := (s.itable ip).ref - s.files ip

/-- Every process has a working directory, to which there is a reference. -/
def State.Settled (s : State) : Prop :=
  ∀ p, (s.procs p).state ≠ .unused → ∃ ip, (s.procs p).cwd = some ip ∧ 0 < s.idle ip

section Forward

variable {sb : Superblock} {ip : InodePtr} {s t u : State}

/-- What a call leaves of working directories: references that do not come from files only become
more, and processes that live on keep their directory.  The working directory of a process that is
new is `cwd`. -/
structure Forward (cwd : Option InodePtr) (s t : State) : Prop where
  idle : ∀ ip, s.idle ip ≤ t.idle ip
  kept : ∀ p, (s.procs p).state ≠ .unused → (t.procs p).state ≠ .unused →
    (t.procs p).cwd = (s.procs p).cwd
  born : ∀ p, Born s t p → (t.procs p).cwd = cwd

theorem SurplusBy.forward {d : InodePtr → Int} (h : SurplusBy d s t) (up : ∀ ip, 0 ≤ d ip)
    (cwd : Option InodePtr) : Forward cwd s t := by
  refine ⟨fun ip => ?_, fun p _ _ => h.cwd p, fun p ⟨unused, used⟩ => ?_⟩
  · have cwds : t.cwds ip = s.cwds ip := by
      unfold State.cwds tally
      refine Finset.sum_congr rfl fun p _ => ?_
      unfold Proc.holds
      rw [h.cwd p]
      exact if_congr (and_congr_left fun _ => not_congr (h.live p)) rfl rfl
    have surplus := h.surplus ip
    have more := up ip
    unfold State.surplus at surplus
    unfold State.idle
    omega
  · exact absurd ((h.live p).mpr unused) used

/-- `ker_open` may keep a reference. -/
theorem openFile_account (omode : Omode) : wp (openFile sb ip omode)
    (fun _ t => ∃ d : InodePtr → Int, (∀ jp, -one ip jp ≤ d jp) ∧ SurplusBy d s t)
    (fun _ _ => True) s := by
  have nonneg : ∀ jp, (0 : Int) ≤ one ip jp := fun jp => by
    unfold one
    rw [Pi.single_apply]
    split <;> decide
  have opened : account.Neutral (fsOpen ip (!omode.has O_WRONLY) (omode.has O_WRONLY || omode.has O_RDWR)) :=
    fsOpen_account _ _
  unfold openFile
  rw [wp_bind]
  refine wp_conseq (opened s) fun f t before => ?_
  rcases f with _ | f
  · have rest : account.Has (do iunlock ip; iput sb ip; pure (-1 : Int)) fun _ => -one ip :=
      Neutral.bind (has_account iunlock_refs) fun _ =>
        Has.bind (has_account iput_refs) fun _ => has_pure (sub_self _)
    refine wp_conseq (rest t) fun _ u after => ⟨0 + -one ip, fun jp => ?_, account.add before after⟩
    simp
  · have rest : account.Neutral (do
        let fd ← fdalloc f
        if fd < 0 then
          close sb f
          pure (-1)
        else
          if omode.has O_CREATE then pure () else iunlock ip
          pure fd) := by
      refine Neutral.bind fdalloc_account fun fd => ?_
      split
      · exact Neutral.bind close_account fun _ => neutral_pure
      · split
        · exact Neutral.bind neutral_pure fun _ => neutral_pure
        · exact Neutral.bind (has_account iunlock_refs) fun _ => neutral_pure
    refine wp_conseq (rest t) fun _ u after => ⟨0 + 0, fun jp => ?_, account.add before after⟩
    have up := nonneg jp
    show -one ip jp ≤ 0 + 0
    omega

theorem kerOpen_forward (path : Path) (omode : Omode) (cwd : Option InodePtr) :
    wp (kerOpen sb path omode) (fun _ t => Forward cwd s t) (fun _ _ => True) s := by
  unfold kerOpen
  rw [wp_bind]
  refine wp_conseq (openInode_refs path omode s) fun r t opened => ?_
  cases r with
  | none => exact opened.surplusBy.forward (fun ip => Int.le_refl 0) cwd
  | some ip =>
    refine wp_conseq (openFile_account omode) fun _ u ⟨d, down, closed⟩ => ?_
    have sum := account.add opened.surplusBy closed
    apply SurplusBy.forward sum
    intro jp
    have le := down jp
    show 0 ≤ one ip jp + d jp
    omega

/-- The state of a slot that the calling process does not have. -/
theorem allocProc_forward (memory : Bool) : wp (allocProc memory) (fun r t =>
    (∀ ip, t.idle ip = s.idle ip) ∧ t.current = s.current ∧ t.itable = s.itable ∧
    match r with
    | none => ∀ p, (t.procs p).state ≠ .unused → t.procs p = s.procs p
    | some q => (s.procs q).state = .unused ∧ (t.procs q).cwd = none ∧
        ∀ p ≠ q, t.procs p = s.procs p) (fun _ _ => True) s := by
  unfold allocProc
  simp only [wp_bind, wp_get]
  split
  · exact ⟨fun _ => rfl, rfl, rfl, fun _ _ => rfl⟩
  · next q found =>
    have unused : (s.procs q).state = .unused := by simpa using List.find?_some found
    simp only [updProc, wp_bind, wp_modify]
    split
    · rw [wp_bind, wp_modify, wp_pure]
      refine ⟨fun _ => rfl, rfl, rfl, unused, ?_, fun p other => ?_⟩
      · simp
      · simp [other]
    · rw [wp_bind, wp_modify, wp_pure]
      refine ⟨fun _ => rfl, rfl, rfl, fun p live => ?_⟩
      by_cases here : p = q
      · subst here
        simp at live
      · simp [here]

/-- What `free_proc` leaves of working directories. -/
structure Emptied (q : Pid) (s t : State) : Prop where
  idle : ∀ ip, s.idle ip ≤ t.idle ip
  others : ∀ p ≠ q, ((t.procs p).state = .unused ↔ (s.procs p).state = .unused) ∧
    (t.procs p).cwd = (s.procs p).cwd
  unused : (t.procs q).state = .unused

theorem freeProc_freed (q : Pid) : wp (freeProc sb q) (fun _ t => Emptied q s t) (fun _ _ => True) s := by
  unfold freeProc
  rw [wp_bind]
  refine wp_conseq (neutral_forM (closeFd_account q) _ s) fun _ t closed => ?_
  have forward := closed.forward (fun _ => Int.le_refl 0) none
  refine ⟨forward.idle, fun p other => ?_, ?_⟩
  · rw [State.setProc_procs, Function.update_of_ne other]
    exact ⟨closed.live p, closed.cwd p⟩
  · rw [State.setProc_procs, Function.update_self]

theorem Emptied.forward {q : Pid} (h : Emptied q s t) (cwd : Option InodePtr) : Forward cwd s t := by
  refine ⟨h.idle, fun p _ live => ?_, fun p ⟨unused, live⟩ => ?_⟩
  · have other : p ≠ q := fun same => live (same ▸ h.unused)
    exact (h.others p other).2
  · have other : p ≠ q := fun same => live (same ▸ h.unused)
    exact absurd ((h.others p other).1.mpr unused) live

/-- A process that could not be completed is freed again. -/
theorem Emptied.forward_after {q : Pid} (h : Emptied q t u) (idle : ∀ ip, t.idle ip = s.idle ip)
    (unused : (s.procs q).state = .unused) (others : ∀ p ≠ q, t.procs p = s.procs p)
    (cwd : Option InodePtr) : Forward cwd s u := by
  have apart : ∀ p, (u.procs p).state ≠ .unused → p ≠ q := fun p live same =>
    live (same ▸ h.unused)
  refine ⟨fun ip => idle ip ▸ h.idle ip, fun p _ live => ?_, fun p ⟨before, live⟩ => ?_⟩
  · rw [(h.others p (apart p live)).2, others p (apart p live)]
  · have same := (h.others p (apart p live)).1
    rw [others p (apart p live)] at same
    exact absurd (same.mpr before) live

/-- The slot of a process that could be completed. -/
theorem forward_born {q : Pid} (idle : ∀ ip, s.idle ip ≤ t.idle ip)
    (unused : (s.procs q).state = .unused) (others : ∀ p ≠ q, t.procs p = s.procs p) :
    Forward (t.procs q).cwd s t := by
  refine ⟨idle, fun p live _ => ?_, fun p ⟨before, live⟩ => ?_⟩
  · have other : p ≠ q := fun same => live (same ▸ unused)
    rw [others p other]
  · by_cases here : p = q
    · rw [here]
    · rw [others p here] at live
      exact absurd before live

theorem setProc_others {q p : Pid} {proc : Proc} (others : ∀ p ≠ q, t.procs p = s.procs p)
    (other : p ≠ q) : (t.setProc q proc).procs p = s.procs p := by
  rw [State.setProc_procs, Function.update_of_ne other, others p other]

theorem allocProc_none {cwd : Option InodePtr} (idle : ∀ ip, t.idle ip = s.idle ip)
    (same : ∀ p, (t.procs p).state ≠ .unused → t.procs p = s.procs p) : Forward cwd s t := by
  refine ⟨fun ip => Int.le_of_eq (idle ip).symm, fun p _ live => by rw [same p live], fun p born => ?_⟩
  have unused := born.1
  rw [← same p born.2] at unused
  exact absurd unused born.2

theorem createUserProc_forward (memory built : Bool) : wp (createUserProc sb memory built)
    (fun _ t => Forward none s t) (fun _ _ => True) s := by
  unfold createUserProc
  rw [wp_bind]
  refine wp_conseq (allocProc_forward memory) fun r t ⟨idle, current, _, new⟩ => ?_
  rcases r with _ | q
  · exact allocProc_none idle new
  obtain ⟨unused, none, others⟩ := new
  dsimp only
  split
  · simp only [wp_bind, wp_get, updProc, wp_modify, wp_pure]
    have born := forward_born (t := t.setProc q { t.procs q with
      state := .runnable, parent := some t.current }) (fun ip => Int.le_of_eq (idle ip).symm) unused
      fun p other => setProc_others others other
    rwa [State.setProc_procs, Function.update_self, none] at born
  · rw [wp_bind]
    exact wp_conseq (freeProc_freed q) fun _ u freed => freed.forward_after idle unused others _

theorem forkProc_forward (memory copied : Bool) (live : (s.procs s.current).state ≠ .unused) :
    wp (forkProc sb memory copied) (fun _ t => Forward (s.procs s.current).cwd s t)
      (fun _ _ => True) s := by
  unfold forkProc
  rw [wp_bind]
  refine wp_conseq (allocProc_forward memory) fun r t ⟨idle, current, _, new⟩ => ?_
  rcases r with _ | q
  · exact allocProc_none idle new
  obtain ⟨unused, none, others⟩ := new
  have parent : t.procs t.current = s.procs s.current := by
    rw [current]
    exact others _ fun same => live (same ▸ unused)
  dsimp only
  split
  · simp only [wp_bind, wp_get, updProc, wp_modify, wp_pure]
    have born := forward_born (t := t.setProc q { t.procs q with
      state := .runnable, parent := some t.current, cwd := (t.procs t.current).cwd })
      (fun ip => Int.le_of_eq (idle ip).symm) unused fun p other => setProc_others others other
    rw [State.setProc_procs, Function.update_self] at born
    rw [← parent]
    exact born
  · rw [wp_bind]
    exact wp_conseq (freeProc_freed q) fun _ u freed => freed.forward_after idle unused others _

theorem createKernelProc_forward (memory : Bool) (live : (s.procs s.current).state ≠ .unused) :
    wp (createKernelProc memory) (fun _ t => Forward (s.procs s.current).cwd s t)
      (fun _ _ => True) s := by
  unfold createKernelProc
  rw [wp_bind]
  refine wp_conseq (allocProc_forward memory) fun r t ⟨idle, current, itable, new⟩ => ?_
  rcases r with _ | q
  · exact allocProc_none idle new
  obtain ⟨unused, none, others⟩ := new
  have apart : s.current ≠ q := fun same => live (same ▸ unused)
  have parent : t.procs t.current = s.procs s.current := by
    rw [current]
    exact others _ apart
  simp only [wp_bind, wp_get, updProc, wp_modify]
  rw [parent]
  have published : ∀ p ≠ q, (t.setProc q { t.procs q with
      state := .runnable, parent := some t.current }).procs p = s.procs p := fun p other =>
    setProc_others others other
  cases cwd : (s.procs s.current).cwd with
  | some ip =>
    simp only [idup, updInode, wp_bind, wp_modify, wp_pure]
    have born := forward_born (s := s) (t := ((t.setProc q { t.procs q with
      state := .runnable, parent := some t.current }).setInode ip { t.itable ip with
        ref := (t.itable ip).ref + 1 }).setProc q { t.procs q with
          state := .runnable, parent := some t.current, cwd := some ip }) (fun jp => ?_) unused
      fun p other => setProc_others published other
    · rw [State.setProc_procs, Function.update_self] at born
      simpa using born
    · have same := idle jp
      show s.idle jp ≤ (Function.update t.itable ip { t.itable ip with
        ref := (t.itable ip).ref + 1 } jp).ref - t.files jp
      unfold State.idle at same ⊢
      by_cases here : jp = ip
      · subst here
        rw [Function.update_self]
        show _ ≤ (t.itable jp).ref + 1 - _
        omega
      · rw [Function.update_of_ne here]
        omega
  | none =>
    rw [wp_bind, wp_modify, wp_pure]
    have born := forward_born (s := s) (t := (t.setProc q { t.procs q with
      state := .runnable, parent := some t.current }).setProc q { t.procs q with
        state := .runnable, parent := some t.current, cwd := Option.none })
      (fun ip => Int.le_of_eq (idle ip).symm) unused fun p other => setProc_others published other
    rw [State.setProc_procs, Function.update_self] at born
    simpa using born

theorem exitProc_forward (live : (s.procs s.current).state ≠ .unused) (cwd : Option InodePtr) :
    wp exitProc (fun _ t => Forward cwd s t) (fun _ _ => True) s := by
  unfold exitProc
  simp only [wp_bind, wp_get]
  split
  · trivial
  · refine ⟨fun _ => Int.le_refl _, fun p _ _ => ?_, fun p born => ?_⟩
    · by_cases here : p = s.current
      · subst here
        simp
      · simp [here]
    · by_cases here : p = s.current
      · exact absurd (here ▸ born.1) live
      · have used := born.2
        rw [State.setProc_procs, Function.update_of_ne here] at used
        exact absurd born.1 used

theorem waitProc_forward (cwd : Option InodePtr) :
    wp (waitProc sb) (fun _ t => Forward cwd s t) (fun _ _ => True) s := by
  unfold waitProc
  simp only [wp_bind, wp_get]
  split
  · next child _ =>
    rw [wp_bind]
    exact wp_conseq (freeProc_freed child) fun _ t freed => freed.forward cwd
  · split
    · trivial
    · exact (account.zero s).forward (fun _ => Int.le_refl 0) cwd

/-- The working directory of the process that an act may make. -/
def Act.cwd (s : State) : Act → Option InodePtr
  | .createUserProc _ _ => none
  | .call _ => (s.procs s.current).cwd

theorem ignore_wp {α : Type} {x : F α} {Q : State → Prop}
    (h : wp x (fun _ t => Q t) (fun _ _ => True) s) :
    wp (ignore x) (fun _ t => Q t) (fun _ _ => True) s := by
  unfold ignore
  rw [wp_bind]
  exact h

theorem Act.forward (a : Act) (live : (s.procs s.current).state ≠ .unused) :
    wp (a.run sb) (fun _ t => Forward (a.cwd s) s t) (fun _ _ => True) s := by
  have neutral : ∀ {α : Type} {x : F α}, account.Neutral x →
      wp (ignore x) (fun _ t => Forward (s.procs s.current).cwd s t) (fun _ _ => True) s :=
    fun neutral => ignore_wp (wp_conseq (neutral s) fun _ t same =>
      same.forward (fun _ => Int.le_refl 0) _)
  cases a with
  | createUserProc memory built => exact ignore_wp (createUserProc_forward memory built)
  | call c =>
    cases c with
    | kerOpen path omode => exact ignore_wp (kerOpen_forward path omode _)
    | kerClose fd => exact neutral (kerClose_account fd)
    | kerRead fd addr n kbuf user => exact neutral (kerRead_account fd addr n kbuf user)
    | kerWrite fd addr n kbuf user => exact neutral (kerWrite_account fd addr n kbuf user)
    | kerUnlink path => exact neutral (has_account (unlink_refs path))
    | createKernelProc memory => exact ignore_wp (createKernelProc_forward memory live)
    | forkProc memory copied => exact ignore_wp (forkProc_forward memory copied live)
    | exitProc => exact exitProc_forward live _
    | waitProc => exact ignore_wp (waitProc_forward _)

/-- The processes that `create_user_proc` and its descendants make have no working directory, and
the others have one. -/
structure Homes (s : State) (native : Pid → Prop) : Prop where
  some : ∀ p, (s.procs p).state ≠ .unused → native p →
    ∃ ip, (s.procs p).cwd = some ip ∧ 0 < s.idle ip
  none : ∀ p, (s.procs p).state ≠ .unused → ¬ native p → (s.procs p).cwd = none

theorem State.Runs.live {p : Pid} (runs : s.Runs p) : (s.procs p).state ≠ .unused := by
  rcases runs with is | is <;> rw [is] <;> decide

theorem Homes.act {native : Pid → Prop} {p : Pid} {a : Act} (h : Homes s native)
    (acts : Acts sb p a s t) : Homes t fun q =>
      (¬ Born s t q ∧ native q) ∨ (Born s t q ∧ a.Inherits ∧ native p) := by
  obtain ⟨runs, done⟩ := acts
  have forward : Forward (a.cwd (s.setCurrent p)) (s.setCurrent p) t :=
    wp_ok (Q := fun _ t => Forward _ _ t) (a.forward (s := s.setCurrent p) runs.live) done
  have kept : ∀ q, (t.procs q).state ≠ .unused → ¬ Born s t q →
      (s.procs q).state ≠ .unused ∧ (t.procs q).cwd = (s.procs q).cwd := by
    intro q live old
    have before : (s.procs q).state ≠ .unused := fun unused => old ⟨unused, live⟩
    exact ⟨before, forward.kept q before live⟩
  have higher : ∀ ip, 0 < s.idle ip → 0 < t.idle ip := fun ip positive =>
    Int.lt_of_lt_of_le positive (forward.idle ip)
  refine ⟨fun q live is => ?_, fun q live is => ?_⟩
  · rcases is with ⟨old, nat⟩ | ⟨born, inherits, nat⟩
    · obtain ⟨before, same⟩ := kept q live old
      obtain ⟨ip, cwd, positive⟩ := h.some q before nat
      exact ⟨ip, same.trans cwd, higher ip positive⟩
    · cases a with
      | createUserProc _ _ => exact inherits.elim
      | call c =>
        obtain ⟨ip, cwd, positive⟩ := h.some p runs.live nat
        exact ⟨ip, (forward.born q born).trans cwd, higher ip positive⟩
  · obtain ⟨old, new⟩ := not_or.mp is
    by_cases born : Born s t q
    · rw [forward.born q born]
      cases a with
      | createUserProc _ _ => rfl
      | call c => exact h.none p runs.live fun nat => new ⟨born, trivial, nat⟩
    · obtain ⟨before, same⟩ := kept q live born
      rw [same]
      exact h.none q before fun nat => old ⟨born, nat⟩

theorem History.homes {start : State} {native : Pid → Prop} (settled : start.Settled)
    (history : History sb start s native) : Homes s native := by
  induction history with
  | start => exact ⟨fun p live _ => settled p live, fun p _ not => absurd trivial not⟩
  | act _ acts ih => exact ih.act acts

theorem files_nonneg (s : State) (ip : InodePtr) : 0 ≤ s.files ip := by
  unfold State.files tally
  apply Finset.sum_nonneg
  intro f _
  unfold File.holds
  split <;> decide

end Forward

/-- The call of a process starts to walk the path from an inode in use, and uses no null pointer. -/
structure Starts (sb : Superblock) (s : State) (path : Path) : Prop where
  start : ∀ t, namexStart path s ≠ .error .nullPointer t
  live : path.head? ≠ some SLASH → ∀ ip t, namexStart path s = .ok ip t → 0 < (s.itable ip).ref
  kerOpen : ∀ omode t, Fs.kerOpen sb path omode s ≠ .error .nullPointer t
  kerUnlink : ∀ t, Fs.kerUnlink sb path s ≠ .error .nullPointer t

theorem booted_settled : booted.Settled := by
  intro p live
  by_cases first : p = 0
  · subst first
    exact ⟨0, rfl, by decide +kernel⟩
  · have unused : (booted.procs p).state = .unused := by
      show (if p = 0 then _ else _ : Proc).state = _
      rw [if_neg first]
    exact absurd unused live

theorem user_runs : (match (Act.createUserProc true true).run fsImg (booted.setCurrent 0) with
    | .ok _ t => decide (t.Runs 1 ∧ (t.procs 1).cwd = none)
    | .error _ _ => false) = true := by
  decide +kernel

end Xv6Lab.Fs

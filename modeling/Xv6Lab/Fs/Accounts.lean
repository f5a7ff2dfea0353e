import Mathlib.Algebra.BigOperators.Group.Finset.Basic
import Mathlib.Data.Fintype.Card
import Mathlib.Logic.Relation
import Xv6Lab.Fs.References
import Xv6Lab.Lib.Transition

/-! Accounting of inode references: the `ref` of an in-memory inode against the open files and the
working directories that point to it.  Every system call leaves the account balanced, but for three
slips: the reference that `ker_open` keeps, and the working directories that `fork_proc` copies and
`free_proc` forgets. -/

namespace Xv6Lab.Fs

open Exec Effect Relation

/-! ### Tallies -/

section Tally

variable {ι α : Type} [Fintype ι] [DecidableEq ι]

/-- The weights of the entries of a table, added up. -/
def tally (w : α → Int) (table : ι → α) : Int := ∑ i, w (table i)

theorem tally_update (w : α → Int) (table : ι → α) (i : ι) (x : α) :
    tally w (Function.update table i x) = tally w table + (w x - w (table i)) := by
  unfold tally
  rw [← Finset.add_sum_erase _ _ (Finset.mem_univ i), ← Finset.add_sum_erase _ _ (Finset.mem_univ i),
    Function.update_self]
  have rest : ∑ j ∈ Finset.univ.erase i, w (Function.update table i x j) =
      ∑ j ∈ Finset.univ.erase i, w (table j) :=
    Finset.sum_congr rfl fun j other => by rw [Function.update_of_ne (Finset.ne_of_mem_erase other)]
  rw [rest]
  omega

end Tally

/-! ### The account -/

/-- The references that an entry of the file table holds. -/
def File.holds (ip : InodePtr) (f : File) : Int :=
  if 0 < f.ref ∧ f.type = .inode ∧ f.ip = some ip then 1 else 0

/-- The references that a slot of the process table holds. -/
def Proc.holds (ip : InodePtr) (p : Proc) : Int :=
  if p.state ≠ .unused ∧ p.cwd = some ip then 1 else 0

namespace State

/-- The live files that point to the inode. -/
def files (s : State) (ip : InodePtr) : Int := tally (File.holds ip) s.ftable

/-- The live processes whose working directory is the inode. -/
def cwds (s : State) (ip : InodePtr) : Int := tally (Proc.holds ip) s.procs

/-- The references that nothing holds. -/
def surplus (s : State) (ip : InodePtr) : Int := (s.itable ip).ref - s.files ip - s.cwds ip

/-- The count of every inode is the number of pointers to it. -/
def Accounted (s : State) : Prop := ∀ ip, (s.itable ip).ref = s.files ip + s.cwds ip

theorem accounted_iff (s : State) : s.Accounted ↔ ∀ ip, s.surplus ip = 0 :=
  forall_congr' fun ip => by
    rw [surplus]
    omega

end State

/-- No process begins or ends or changes its working directory, and the surplus changes by `d`. -/
structure SurplusBy (d : InodePtr → Int) (s t : State) : Prop where
  current : t.current = s.current
  live : ∀ p, (t.procs p).state = .unused ↔ (s.procs p).state = .unused
  cwd : ∀ p, (t.procs p).cwd = (s.procs p).cwd
  surplus : ∀ ip, t.surplus ip = s.surplus ip + d ip

def account : Effect State (InodePtr → Int) where
  rel := SurplusBy
  zero s := ⟨rfl, fun _ => .rfl, fun _ => rfl, fun ip => (add_zero _).symm⟩
  add {d e s t u} one two := by
    refine ⟨two.current.trans one.current, fun p => (two.live p).trans (one.live p),
      fun p => (two.cwd p).trans (one.cwd p), fun ip => ?_⟩
    rw [two.surplus, one.surplus, Pi.add_apply, add_assoc]

variable {sb : Superblock} {ip : InodePtr} {f : FilePtr} {α : Type} {x : F α}
  {d : α → InodePtr → Int}

theorem RefsBy.surplusBy {d : InodePtr → Int} {s t : State} (h : RefsBy d s t) :
    SurplusBy d s t := by
  refine ⟨h.current, fun p => by rw [h.procs], fun p => by rw [h.procs], fun ip => ?_⟩
  rw [State.surplus, State.surplus, State.files, State.files, State.cwds, State.cwds, h.ftable,
    h.procs, h.ref]
  omega

theorem has_account (h : refs.Has x d) : account.Has x d := fun s =>
  wp_conseq (h s) fun _ _ => RefsBy.surplusBy

/-! ### Files -/

theorem setFile_files (s : State) (f : FilePtr) (file : File) (ip : InodePtr) :
    (s.setFile f file).files ip = s.files ip + (file.holds ip - (s.ftable f).holds ip) :=
  tally_update _ _ _ _

theorem setFile_surplus (s : State) (f : FilePtr) (file : File) (ip : InodePtr) :
    (s.setFile f file).surplus ip = s.surplus ip + ((s.ftable f).holds ip - file.holds ip) := by
  rw [State.surplus, State.surplus, setFile_files]
  show (s.itable ip).ref - _ - s.cwds ip = _
  omega

/-- A file changes, but not in what it points to. -/
theorem updFile_account {g : File → File}
    (same : ∀ file, (g file).ref = file.ref ∧ (g file).type = file.type ∧ (g file).ip = file.ip) :
    account.Neutral (updFile f g) := by
  refine neutral_modify fun s => ⟨rfl, fun _ => .rfl, fun _ => rfl, fun ip => ?_⟩
  obtain ⟨ref, type, is⟩ := same (s.ftable f)
  have holds : (g (s.ftable f)).holds ip = (s.ftable f).holds ip := by
    rw [File.holds, File.holds, ref, type, is]
  rw [setFile_surplus, holds, sub_self]
  rfl

/-- The descriptors of a process change. -/
theorem updProc_account {p : Pid} {g : Proc → Proc}
    (same : ∀ proc, (g proc).state = proc.state ∧ (g proc).cwd = proc.cwd) :
    account.Neutral (updProc p g) := by
  refine neutral_modify fun s => ?_
  obtain ⟨state, cwd⟩ := same (s.procs p)
  have procs : ∀ q, ((s.setProc p (g (s.procs p))).procs q).state = (s.procs q).state ∧
      ((s.setProc p (g (s.procs p))).procs q).cwd = (s.procs q).cwd := by
    intro q
    rw [State.setProc_procs]
    by_cases here : q = p
    · rw [here, Function.update_self]
      exact ⟨state, cwd⟩
    · rw [Function.update_of_ne here]
      exact ⟨rfl, rfl⟩
  refine ⟨rfl, fun q => by rw [(procs q).1], fun q => (procs q).2, fun ip => ?_⟩
  have holds : ((g (s.procs p)).holds ip) = (s.procs p).holds ip := by
    rw [Proc.holds, Proc.holds, state, cwd]
  have cwds : (s.setProc p (g (s.procs p))).cwds ip = s.cwds ip := by
    rw [State.cwds, State.setProc_procs, tally_update, holds, sub_self, add_zero]
    rfl
  rw [State.surplus, State.surplus, cwds]
  exact (add_zero _).symm

theorem setInode_surplus (s : State) (ip jp : InodePtr) (inode : Inode) :
    (s.setInode ip inode).surplus jp =
      s.surplus jp + (inode.ref - (s.itable ip).ref) * one ip jp := by
  rw [State.surplus, State.surplus, setInode_ref]
  show _ - s.files jp - s.cwds jp = _
  omega

/-- A live file for inode `ip` holds one reference. -/
theorem holds_live {file : File} (live : 0 < file.ref) (type : file.type = .inode)
    (is : file.ip = some ip) (jp : InodePtr) : file.holds jp = one ip jp := by
  rw [File.holds, type, is, one, Pi.single_apply]
  refine if_congr ?_ rfl rfl
  simp [live, eq_comm]

theorem holds_dead {file : File} (dead : ¬ (0 < file.ref ∧ file.type = .inode)) (jp : InodePtr) :
    file.holds jp = 0 :=
  if_neg fun h => dead ⟨h.1, h.2.1⟩

/-- `fileopen` takes a reference for the file it makes. -/
theorem fileopen_account (readable writable : Bool) :
    account.Neutral (fileopen ip readable writable) := by
  intro s
  unfold fileopen filealloc
  simp only [wp_bind, wp_get]
  split
  · next f found =>
    have free : (s.ftable f).ref = 0 := by simpa using List.find?_some found
    simp only [wp_bind, wp_pure, updFile, wp_modify, idup, updInode]
    refine ⟨rfl, fun _ => .rfl, fun _ => rfl, fun jp => ?_⟩
    have before : (s.ftable f).holds jp = 0 := holds_dead (by omega) jp
    have after : ({ s.ftable f with
        ref := 1, type := .inode, ip := some ip, readable, writable, off := 0 } : File).holds jp =
        one ip jp := holds_live Int.one_pos rfl rfl jp
    rw [setFile_surplus, setInode_surplus, setFile_surplus]
    simp only [State.setInode_ftable, State.setFile_ftable, State.setFile_itable,
      Function.update_self, add_sub_cancel_left, one_mul, Pi.zero_apply, before, after]
    omega
  · exact account.zero s

/-- `fileclose` drops the reference of the file it frees. -/
theorem fileclose_account : account.Neutral (fileclose sb f) := by
  intro s
  unfold fileclose
  simp only [wp_bind, wp_get]
  split
  · trivial
  · next used =>
    split
    · next more =>
      refine ⟨rfl, fun _ => .rfl, fun _ => rfl, fun jp => ?_⟩
      have same : ({ s.ftable f with ref := (s.ftable f).ref - 1 } : File).holds jp =
          (s.ftable f).holds jp := by
        unfold File.holds
        refine if_congr (and_congr_left fun _ => ?_) rfl rfl
        show 0 < (s.ftable f).ref - 1 ↔ _
        omega
      rw [setFile_surplus, same, sub_self]
      rfl
    · have freed : ∀ jp, (s.setFile f { s.ftable f with ref := 0, type := .none }).surplus jp =
          s.surplus jp + (s.ftable f).holds jp := by
        intro jp
        have dead : ({ s.ftable f with ref := 0, type := .none } : File).holds jp = 0 :=
          holds_dead (by simp) jp
        rw [setFile_surplus, dead, sub_zero]
      rw [wp_bind]
      simp only [updFile, wp_modify]
      split
      · next jp type is =>
        refine wp_conseq (has_account iput_refs _) fun _ t put => ?_
        refine ⟨put.current, put.live, put.cwd, fun kp => ?_⟩
        rw [put.surplus, freed, holds_live (by omega) type is]
        show _ + -one jp kp = _ + 0
        omega
      · trivial
      · next type =>
        refine ⟨rfl, fun _ => .rfl, fun _ => rfl, fun jp => ?_⟩
        rw [freed, holds_dead (fun h => by rw [type] at h; cases h.2)]
        rfl

theorem filelock_account : account.Neutral (filelock sb f) := by
  refine has_get fun s => ?_
  split
  · exact has_account ilock_refs
  · exact has_throw
  · exact neutral_pure

theorem fileunlock_account : account.Neutral (fileunlock f) := by
  refine has_get fun s => ?_
  split
  · exact has_account iunlock_refs
  · exact has_throw
  · exact neutral_pure

theorem advance_account (r : Int) : account.Neutral (advance f r) := by
  unfold advance
  split
  · exact updFile_account fun _ => ⟨rfl, rfl, rfl⟩
  · exact neutral_pure

theorem fileread_account (dst : Bytes.Buffer) (n : Int) :
    account.Neutral (fileread sb f dst n) := by
  refine has_get fun s => ?_
  dsimp only
  split
  · exact neutral_pure
  · split
    · split
      · refine Neutral.bind (has_account (readi_refs _ _ _)) fun r => ?_
        exact Neutral.bind (advance_account _) fun _ => neutral_pure
      · exact neutral_pure
    · exact has_throw
    · exact has_throw

theorem filewrite_account (src : Bytes.Buffer) (n : Int) :
    account.Neutral (filewrite sb f src n) := by
  have loop : ∀ ip n fuel i, account.Neutral (filewriteLoop sb f ip src n fuel i) := by
    intro ip n fuel
    induction fuel with
    | zero => exact fun _ => neutral_pure
    | succ fuel ih =>
      intro i
      unfold filewriteLoop
      split
      · refine has_get fun s => Neutral.bind (has_account (writei_refs _ _ _)) fun r => ?_
        refine Neutral.bind (advance_account _) fun _ => ?_
        split
        · exact ih _
        · exact neutral_pure
      · exact neutral_pure
  refine has_get fun s => ?_
  dsimp only
  split
  · exact neutral_pure
  · split
    · split
      · exact Neutral.bind (loop _ _ _ _) fun _ => neutral_pure
      · exact neutral_pure
    · exact has_throw
    · exact has_throw

theorem beginOp_account : account.Neutral beginOp := has_account beginOp_refs

theorem endOp_account : account.Neutral endOp := has_account endOp_refs

theorem close_account : account.Neutral (close sb f) :=
  Neutral.bind beginOp_account fun _ => Neutral.bind fileclose_account fun _ => endOp_account

theorem fsOpen_account (readable writable : Bool) :
    account.Neutral (fsOpen ip readable writable) := by
  refine Neutral.bind beginOp_account fun _ => Neutral.bind (fileopen_account _ _) fun f => ?_
  exact Neutral.bind endOp_account fun _ => neutral_pure

theorem read_account (dst : Bytes.Buffer) (n : Int) : account.Neutral (read sb f dst n) := by
  refine Neutral.bind beginOp_account fun _ => Neutral.bind filelock_account fun _ => ?_
  refine Neutral.bind (fileread_account _ _) fun r => Neutral.bind fileunlock_account fun _ => ?_
  exact Neutral.bind endOp_account fun _ => neutral_pure

theorem write_account (src : Bytes.Buffer) (n : Int) : account.Neutral (write sb f src n) := by
  refine Neutral.bind beginOp_account fun _ => Neutral.bind filelock_account fun _ => ?_
  refine Neutral.bind (filewrite_account _ _) fun r => Neutral.bind fileunlock_account fun _ => ?_
  exact Neutral.bind endOp_account fun _ => neutral_pure

/-! ### System calls -/

theorem fdalloc_account : account.Neutral (fdalloc f) := by
  refine has_get fun s => ?_
  split
  · exact Neutral.bind (updProc_account fun _ => ⟨rfl, rfl⟩) fun _ => neutral_pure
  · exact neutral_pure

theorem fdget_account (fd : Int) : account.Neutral (fdget fd) := by
  refine has_get fun s => ?_
  split
  · exact neutral_pure
  · exact neutral_pure

theorem kerClose_account (fd : Int) : account.Neutral (kerClose sb fd) := by
  refine Neutral.bind (fdget_account fd) fun r => ?_
  rcases r with _ | ⟨fd, f⟩
  · exact neutral_pure
  · refine has_get fun s => Neutral.bind (updProc_account fun _ => ⟨rfl, rfl⟩) fun _ => ?_
    exact Neutral.bind close_account fun _ => neutral_pure

theorem kerRead_account (fd : Int) (addr : UserAddr) (n : Int) (kbuf : Bytes.Buffer)
    (user : UserMem) : account.Neutral (kerRead sb fd addr n kbuf user) := by
  have loop : ∀ f n fuel total kbuf user,
      account.Neutral (kerReadLoop sb f addr n fuel total kbuf user) := by
    intro f n fuel
    induction fuel with
    | zero => exact fun _ _ _ => neutral_pure
    | succ fuel ih =>
      intro total kbuf user
      unfold kerReadLoop
      split
      · refine Neutral.bind (read_account _ _) fun ⟨r, kbuf⟩ => ?_
        dsimp only
        split
        · exact neutral_pure
        · split
          · exact neutral_pure
          · split
            · exact neutral_pure
            · exact ih _ _ _
      · exact neutral_pure
  refine Neutral.bind (fdget_account fd) fun r => ?_
  rcases r with _ | ⟨fd, f⟩
  · exact neutral_pure
  · exact loop _ _ _ _ _ _

theorem kerWrite_account (fd : Int) (addr : UserAddr) (n : Int) (kbuf : Bytes.Buffer)
    (user : UserMem) : account.Neutral (kerWrite sb fd addr n kbuf user) := by
  have loop : ∀ f n fuel total kbuf,
      account.Neutral (kerWriteLoop sb f addr n user fuel total kbuf) := by
    intro f n fuel
    induction fuel with
    | zero => exact fun _ _ => neutral_pure
    | succ fuel ih =>
      intro total kbuf
      unfold kerWriteLoop
      split
      · dsimp only
        split
        · exact neutral_pure
        · refine Neutral.bind (write_account _ _) fun r => ?_
          split
          · exact neutral_pure
          · split
            · exact neutral_pure
            · exact ih _ _
      · exact neutral_pure
  refine Neutral.bind (fdget_account fd) fun r => ?_
  rcases r with _ | ⟨fd, f⟩
  · exact neutral_pure
  · exact loop _ _ _ _ _

theorem openInode_refs (path : Path) (omode : Omode) :
    refs.Has (openInode sb path omode) given := by
  unfold openInode
  split
  · exact create_refs _ _ _ _
  · refine Has.bind (namei_refs _) fun r => ?_
    rcases r with _ | ip
    · exact has_pure (sub_self _)
    · refine Neutral.bind ilock_refs fun _ => has_get fun s => ?_
      split
      · refine Has.bind iunlockput_refs fun _ => has_pure ?_
        show 0 - one ip - -one ip = 0
        abel
      · exact has_pure (sub_self _)

/-- The file table has no free entry. -/
def State.FilesFull (s : State) : Prop := ∀ f, (s.ftable f).ref ≠ 0

variable {s : State}

theorem fileopen_full (full : s.FilesFull) (readable writable : Bool) :
    wp (fileopen ip readable writable) (fun r t => r = none ∧ t = s) (fun _ _ => True) s := by
  have none : (List.finRange NFILE).find? (fun f => (s.ftable f).ref = 0) = none := by
    refine List.find?_eq_none.mpr fun f _ => ?_
    simpa using full f
  unfold fileopen filealloc
  simp only [wp_bind, wp_get, none]
  exact ⟨rfl, rfl⟩

/-- Without a free file, `ker_open` gives back the inode. -/
theorem openFile_full (full : s.FilesFull) (omode : Omode) :
    wp (openFile sb ip omode) (fun _ t => SurplusBy (-one ip) s t) (fun _ _ => True) s := by
  unfold openFile fsOpen
  simp only [wp_bind]
  refine wp_conseq (beginOp_refs s) fun _ t begun => ?_
  have fullThen : t.FilesFull := fun f => by rw [begun.ftable]; exact full f
  refine wp_conseq (fileopen_full fullThen _ _) fun r u ⟨is, same⟩ => ?_
  subst is same
  have rest : account.Has (do endOp; iunlock ip; iput sb ip; pure (-1 : Int)) fun _ => -one ip := by
    refine Neutral.bind endOp_account fun _ => Neutral.bind (has_account iunlock_refs) fun _ => ?_
    exact Has.bind (has_account iput_refs) fun _ => has_pure (sub_self _)
  have whole : wp _ (fun _ v => SurplusBy (-one ip) s v) _ u := wp_conseq (rest u) fun _ v after => by
    have sum := account.add begun.surplusBy after
    rwa [zero_add] at sum
  rw [wp_bind] at whole
  exact whole

/-- `ker_open` that finds no inode, or no free file. -/
theorem kerOpen_account (path : Path) (omode : Omode)
    (fails : s.FilesFull ∨ ∀ ip t, openInode sb path omode s ≠ .ok (some ip) t) :
    wp (kerOpen sb path omode) (fun _ t => SurplusBy 0 s t) (fun _ _ => True) s := by
  unfold kerOpen
  rw [wp_bind]
  unfold wp
  cases run : openInode sb path omode s with
  | error e t => trivial
  | ok r t =>
    have opened := (openInode_refs path omode).ok run
    cases r with
    | none => exact opened.surplusBy
    | some ip =>
      have full := fails.resolve_right fun none => none ip t run
      have fullThen : t.FilesFull := fun f => by rw [opened.ftable]; exact full f
      refine wp_conseq (openFile_full fullThen omode) fun _ u closed => ?_
      have sum := account.add opened.surplusBy closed
      rwa [show given (some ip) + -one ip = 0 from add_neg_cancel _] at sum

/-! ### Processes -/

/-- The surplus stays as it is. -/
def SameSurplus (s t : State) : Prop := ∀ ip, t.surplus ip = s.surplus ip

theorem SurplusBy.same {t : State} (h : SurplusBy 0 s t) : SameSurplus s t := fun ip =>
  (h.surplus ip).trans (add_zero _)

theorem SameSurplus.trans {t u : State} (one : SameSurplus s t) (two : SameSurplus t u) :
    SameSurplus s u := fun ip => (two ip).trans (one ip)

theorem setProc_surplus (s : State) (p : Pid) (proc : Proc) (ip : InodePtr) :
    (s.setProc p proc).surplus ip = s.surplus ip + ((s.procs p).holds ip - proc.holds ip) := by
  have cwds : (s.setProc p proc).cwds ip = s.cwds ip + (proc.holds ip - (s.procs p).holds ip) :=
    tally_update _ _ _ _
  rw [State.surplus, State.surplus, cwds]
  show (s.itable ip).ref - s.files ip - _ = _
  omega

theorem holds_cwd {proc : Proc} (none : proc.cwd = none) (ip : InodePtr) : proc.holds ip = 0 :=
  if_neg fun h => by rw [none] at h; cases h.2

theorem holds_unused {proc : Proc} (unused : proc.state = .unused) (ip : InodePtr) :
    proc.holds ip = 0 :=
  if_neg fun h => h.1 unused

/-- A slot without reference is given other contents without reference. -/
theorem setProc_same {p : Pid} {proc : Proc} (before : ∀ ip, (s.procs p).holds ip = 0)
    (after : ∀ ip, proc.holds ip = 0) : SameSurplus s (s.setProc p proc) := by
  intro ip
  rw [setProc_surplus, before, after, sub_self, add_zero]

/-- What a successful `alloc_proc` leaves. -/
structure Allocated (s : State) (p : Pid) (t : State) : Prop where
  same : SameSurplus s t
  unused : (s.procs p).state = .unused
  cwd : (t.procs p).cwd = none
  others : ∀ q ≠ p, t.procs q = s.procs q
  current : t.current = s.current

theorem allocProc_wp (memory : Bool) : wp (allocProc memory)
    (fun r t => match r with
      | none => SameSurplus s t
      | some p => memory = true ∧ Allocated s p t) (fun _ _ => True) s := by
  unfold allocProc
  simp only [wp_bind, wp_get]
  split
  · exact fun _ => rfl
  · next p found =>
    have unused : (s.procs p).state = .unused := by simpa using List.find?_some found
    have first : SameSurplus s (s.setProc p { s.procs p with cwd := none, state := .used }) :=
      setProc_same (holds_unused unused) (holds_cwd rfl)
    simp only [updProc, wp_bind, wp_modify]
    split
    · next memory =>
      rw [wp_bind, wp_modify, wp_pure]
      refine ⟨memory, first.trans (setProc_same ?_ ?_), unused, ?_, fun q other => ?_, rfl⟩
      · exact holds_cwd (by simp)
      · exact holds_cwd (by simp)
      · simp
      · simp [other]
    · rw [wp_bind, wp_modify, wp_pure]
      exact first.trans (setProc_same (holds_cwd (by simp)) (holds_cwd (by simp)))

theorem createKernelProc_surplus (memory : Bool) :
    wp (createKernelProc memory) (fun _ t => SameSurplus s t) (fun _ _ => True) s := by
  unfold createKernelProc
  rw [wp_bind]
  refine wp_conseq (allocProc_wp memory) fun r t => ?_
  rcases r with _ | p
  · exact id
  rintro ⟨-, new⟩
  simp only [wp_bind, wp_get, updProc, wp_modify]
  have published : SameSurplus t (t.setProc p { t.procs p with
      state := .runnable, parent := some t.current }) :=
    setProc_same (holds_cwd new.cwd) (holds_cwd (by exact new.cwd))
  have before := new.same.trans published
  split
  · next ip _ =>
    simp only [idup, updInode, wp_bind, wp_modify, wp_pure]
    refine before.trans fun jp => ?_
    set u := t.setProc p { t.procs p with state := .runnable, parent := some t.current } with is
    have self : u.procs p = { t.procs p with state := .runnable, parent := some t.current } := by
      simp [is]
    have none : (u.procs p).holds jp = 0 := holds_cwd (by rw [self]; exact new.cwd) jp
    rw [setProc_surplus, setInode_surplus]
    show _ + ((u.procs p).holds jp - _) = _
    have here : ({ u.procs p with cwd := some ip } : Proc).holds jp = one ip jp := by
      rw [Proc.holds, self, one, Pi.single_apply]
      refine if_congr ?_ rfl rfl
      simp [eq_comm]
    have dup : (u.itable ip).ref + 1 - (u.itable ip).ref = 1 := by omega
    show _ + (_ - ({ u.procs p with cwd := some ip } : Proc).holds jp) = _
    rw [none, here]
    show u.surplus jp + ((u.itable ip).ref + 1 - (u.itable ip).ref) * one ip jp + _ = _
    rw [dup, one_mul]
    omega
  · rw [wp_bind, wp_modify, wp_pure]
    refine before.trans (setProc_same (holds_cwd ?_) (holds_cwd rfl))
    simpa using new.cwd

theorem closeFd_account (p : Pid) (fd : Fin NOFILE) : account.Neutral (closeFd sb p fd) := by
  refine has_get fun s => ?_
  split
  · exact neutral_pure
  · exact Neutral.bind close_account fun _ => updProc_account fun _ => ⟨rfl, rfl⟩

/-- `free_proc` of a process without working directory. -/
theorem freeProc_surplus {p : Pid} (none : (s.procs p).cwd = none) :
    wp (freeProc sb p) (fun _ t => SameSurplus s t) (fun _ _ => True) s := by
  unfold freeProc
  rw [wp_bind]
  refine wp_conseq (neutral_forM (closeFd_account p) _ s) fun _ t closed => ?_
  have noneThen : (t.procs p).cwd = Option.none := (closed.cwd p).trans none
  exact closed.same.trans (setProc_same (holds_cwd noneThen) (holds_unused rfl))

theorem forkProc_surplus {memory copied : Bool}
    (fails : (s.procs s.current).cwd = none ∨ memory = false ∨ copied = false ∨
      ∀ p, (s.procs p).state ≠ .unused) :
    wp (forkProc sb memory copied) (fun _ t => SameSurplus s t) (fun _ _ => True) s := by
  unfold forkProc
  rw [wp_bind]
  refine wp_conseq (allocProc_wp memory) fun r t => ?_
  rcases r with _ | p
  · exact id
  rintro ⟨got, new⟩
  dsimp only
  split
  · next done =>
    have orphan : (t.procs t.current).cwd = none := by
      by_cases same : t.current = p
      · rw [same]
        exact new.cwd
      · rw [new.others _ same, new.current]
        rcases fails with none | no | no | full
        · exact none
        · rw [got] at no
          cases no
        · rw [done] at no
          cases no
        · exact absurd new.unused (full p)
    simp only [wp_bind, wp_get, updProc, wp_modify, wp_pure]
    exact new.same.trans (setProc_same (holds_cwd new.cwd) (holds_cwd (by exact orphan)))
  · rw [wp_bind]
    exact wp_conseq (freeProc_surplus new.cwd) fun _ u freed => new.same.trans freed

theorem exitProc_surplus (live : (s.procs s.current).state ≠ .unused) :
    wp exitProc (fun _ t => SameSurplus s t) (fun _ _ => True) s := by
  unfold exitProc
  simp only [wp_bind, wp_get]
  split
  · trivial
  · intro ip
    have same : ({ s.procs s.current with state := .zombie } : Proc).holds ip =
        (s.procs s.current).holds ip := by
      unfold Proc.holds
      refine if_congr (and_congr_left fun _ => ?_) rfl rfl
      simp [live]
    rw [setProc_surplus, same, sub_self, add_zero]

theorem waitProc_surplus (none : ∀ child, s.zombieChild = some child → (s.procs child).cwd = none) :
    wp (waitProc sb) (fun _ t => SameSurplus s t) (fun _ _ => True) s := by
  unfold waitProc
  simp only [wp_bind, wp_get]
  split
  · next child is =>
    rw [wp_bind]
    exact wp_conseq (freeProc_surplus (none child is)) fun _ t freed => freed
  · split
    · trivial
    · exact fun _ => rfl

/-! ### Runs -/

/-- The calls that do not reach one of the three slips: `ker_open` gets no inode or no file,
`fork_proc` fails or has no working directory to pass on, and the child that `wait_proc` reaps has
none. -/
def Call.Balanced (sb : Superblock) (s : State) : Call → Prop
  | .kerOpen path omode =>
    s.FilesFull ∨ ∀ ip t, openInode sb path omode s ≠ .ok (some ip) t
  | .forkProc memory copied =>
    (s.procs s.current).cwd = none ∨ memory = false ∨ copied = false ∨
      ∀ p, (s.procs p).state ≠ .unused
  | .waitProc => ∀ child, s.zombieChild = some child → (s.procs child).cwd = none
  | _ => True

theorem Call.run_surplus {c : Call} (live : (s.procs s.current).state ≠ .unused)
    (balanced : c.Balanced sb s) :
    wp (c.run sb) (fun _ t => SameSurplus s t) (fun _ _ => True) s := by
  have call : ∀ {α : Type} {x : F α}, account.Neutral x →
      wp (ignore x) (fun _ t => SameSurplus s t) (fun _ _ => True) s := by
    intro α x neutral
    unfold ignore
    rw [wp_bind]
    exact wp_conseq (neutral s) fun _ t changed => changed.same
  have drop : ∀ {α : Type} {x : F α}, wp x (fun _ t => SameSurplus s t) (fun _ _ => True) s →
      wp (ignore x) (fun _ t => SameSurplus s t) (fun _ _ => True) s := by
    intro α x ends
    unfold ignore
    rw [wp_bind]
    exact ends
  cases c with
  | kerOpen path omode =>
    exact drop (wp_conseq (kerOpen_account path omode balanced) fun _ t changed => changed.same)
  | kerClose fd => exact call (kerClose_account fd)
  | kerRead fd addr n kbuf user => exact call (kerRead_account fd addr n kbuf user)
  | kerWrite fd addr n kbuf user => exact call (kerWrite_account fd addr n kbuf user)
  | kerUnlink path => exact call (has_account (unlink_refs path))
  | createKernelProc memory => exact drop (createKernelProc_surplus memory)
  | forkProc memory copied => exact drop (forkProc_surplus balanced)
  | exitProc => exact exitProc_surplus live
  | waitProc => exact drop (waitProc_surplus balanced)

/-- A call of some process that does not reach a slip. -/
def BalancedCall (sb : Superblock) (s t : State) : Prop :=
  ∃ p c, c.Balanced sb (s.setCurrent p) ∧ Calls sb p c s t

/-- In every run of calls that do not reach a slip, every inode's count is the number of files and
working directories that point to it. -/
theorem references_accounted {t : State} (start : s.Accounted)
    (run : ReflTransGen (BalancedCall sb) s t) : t.Accounted := by
  refine Transition.invariant (fun s t accounted ⟨p, c, balanced, runs, done⟩ => ?_) start run
  have live : ((s.setCurrent p).procs (s.setCurrent p).current).state ≠ .unused := by
    show (s.procs p).state ≠ .unused
    rcases runs with is | is <;> rw [is] <;> decide
  have same := wp_ok (Call.run_surplus live balanced) done
  rw [State.accounted_iff] at accounted ⊢
  intro ip
  rw [same ip]
  exact accounted ip

/-! ### Opening and closing the root directory -/

instance (s : State) : Decidable s.Accounted := inferInstanceAs (Decidable (∀ _, _))

/-- The first process makes a process, which gets its working directory. -/
theorem spawn_runs : ((runCalls fsImg [(0, .createKernelProc true)] booted).any fun s =>
    decide (booted.Accounted ∧ (s.itable 0).ref = 2)) = true := by
  decide +kernel

theorem references_accounted_sample : ∃ t : State, ReflTransGen (BalancedCall fsImg) booted t ∧
    (t.itable 0).ref = 2 ∧ t.Accounted := by
  obtain ⟨t, done, facts⟩ := (Option.any_eq_true _ _).mp spawn_runs
  obtain ⟨start, count⟩ := of_decide_eq_true facts
  have run : ReflTransGen (BalancedCall fsImg) booted t := runCalls_some (fun p c s t inside call => by
    obtain ⟨rfl, rfl⟩ := Prod.mk.inj (List.mem_singleton.mp inside)
    exact ⟨0, .createKernelProc true, trivial, call⟩) done
  exact ⟨t, run, count, references_accounted start run⟩

/-- The first process opens the root directory for reading and closes it again. -/
def openAndClose : List (Pid × Call) := [(0, .kerOpen [SLASH] O_RDONLY), (0, .kerClose 3)]

theorem openAndClose_runs : ((runCalls fsImg openAndClose booted).any fun s =>
    decide (booted.Accounted ∧ (s.itable 0).ref ≠ s.files 0 + s.cwds 0)) = true := by
  decide +kernel

/-- `ker_open` keeps the reference that it has taken to find the file. -/
theorem open_close_leaks : booted.Accounted ∧
    ∃ t : State, ReflTransGen (fun s t => ∃ p c, Calls fsImg p c s t) booted t ∧ ¬ t.Accounted := by
  obtain ⟨t, done, facts⟩ := (Option.any_eq_true _ _).mp openAndClose_runs
  obtain ⟨start, off⟩ := of_decide_eq_true facts
  exact ⟨start, t, runCalls_some (fun p c s t _ call => ⟨p, c, call⟩) done, fun all => off (all 0)⟩

end Xv6Lab.Fs

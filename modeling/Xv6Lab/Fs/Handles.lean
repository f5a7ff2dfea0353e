import Mathlib.Algebra.BigOperators.Ring.Finset
import Mathlib.Data.Fintype.BigOperators
import Xv6Lab.Fs.Accounts

/-! Accounting of open files: the `ref` of a `struct file` against the descriptors that point to it.
A descriptor is the only thing that holds a file between system calls, and a process that is reaped
leaves none behind. -/

namespace Xv6Lab.Fs

open Exec Effect Relation

/-! ### Descriptors -/

/-- The descriptors of a process that point to the file. -/
def Proc.opens (f : FilePtr) (p : Proc) : Int := tally (fun o => if o = some f then 1 else 0) p.ofile

namespace State

/-- The pairs of a process slot and a descriptor that point to the file. -/
def handles (s : State) (f : FilePtr) : Finset (Pid × Fin NOFILE) :=
  Finset.univ.filter fun h => (s.procs h.1).ofile h.2 = some f

/-- The references to the file that no descriptor holds. -/
def unheld (s : State) (f : FilePtr) : Int := (s.ftable f).ref - tally (Proc.opens f) s.procs

theorem handles_card (s : State) (f : FilePtr) :
    ((s.handles f).card : Int) = tally (Proc.opens f) s.procs := by
  unfold handles tally Proc.opens tally
  rw [Finset.card_filter, Fintype.sum_prod_type]
  push_cast
  rfl

/-- A file without references is no file. -/
def Closed (s : State) : Prop := ∀ f, (s.ftable f).ref = 0 → (s.ftable f).type = .none

end State

/-- Every file is held by as many descriptors as it counts, and only processes have descriptors. -/
structure FilesCounted (s : State) : Prop where
  counted : ∀ f, (s.ftable f).ref = (s.handles f).card
  closed : ∀ f, (s.ftable f).ref = 0 → (s.ftable f).type = .none ∧
    ∀ p fd, (s.procs p).ofile fd ≠ some f
  reaped : ∀ p, (s.procs p).state = .unused → ∀ fd, (s.procs p).ofile fd = none

theorem unheld_zero {s : State} {f : FilePtr} :
    s.unheld f = 0 ↔ (s.ftable f).ref = (s.handles f).card := by
  rw [State.handles_card, State.unheld]
  omega

theorem filesCounted {s : State} (unheld : ∀ f, s.unheld f = 0) (closed : s.Closed)
    (reaped : ∀ p, (s.procs p).state = .unused → ∀ fd, (s.procs p).ofile fd = none) :
    FilesCounted s := by
  have counted : ∀ f, (s.ftable f).ref = (s.handles f).card := fun f => unheld_zero.mp (unheld f)
  refine ⟨counted, fun f none => ⟨closed f none, fun p fd is => ?_⟩, reaped⟩
  have empty : (s.handles f).card = 0 := by
    have same := counted f
    omega
  have inside : (p, fd) ∈ s.handles f := by
    unfold State.handles
    simp [is]
  rw [Finset.card_eq_zero.mp empty] at inside
  exact absurd inside (Finset.notMem_empty _)

/-! ### The account of the calls -/

/-- No process begins or ends, only the calling one changes its descriptors, and the references that
no descriptor holds change by `d`. -/
structure UnheldBy (d : FilePtr → Int) (s t : State) : Prop where
  current : t.current = s.current
  states : ∀ p, (t.procs p).state = (s.procs p).state
  ofile : ∀ p ≠ s.current, (t.procs p).ofile = (s.procs p).ofile
  closed : s.Closed → t.Closed
  unheld : ∀ f, t.unheld f = s.unheld f + d f

def handling : Effect State (FilePtr → Int) where
  rel := UnheldBy
  zero s := ⟨rfl, fun _ => rfl, fun _ _ => rfl, id, fun f => (add_zero _).symm⟩
  add {d e s t u} one two := by
    refine ⟨two.current.trans one.current, fun p => (two.states p).trans (one.states p),
      fun p other => ?_, fun closed => two.closed (one.closed closed), fun f => ?_⟩
    · rw [two.ofile p (one.current.symm ▸ other), one.ofile p other]
    · rw [two.unheld, one.unheld, Pi.add_apply, add_assoc]

variable {sb : Superblock} {ip : InodePtr} {f : FilePtr} {α : Type} {x : F α} {s t : State}

/-- Programs that touch neither files nor processes. -/
theorem has_handling {d : α → InodePtr → Int} (h : refs.Has x d) : handling.Neutral x := fun s =>
  wp_conseq (h s) fun _ t same => by
    refine ⟨same.current, fun p => by rw [same.procs], fun p _ => by rw [same.procs],
      fun closed => ?_, fun f => ?_⟩
    · unfold State.Closed
      rw [same.ftable]
      exact closed
    · rw [State.unheld, State.unheld, same.ftable, same.procs]
      exact (add_zero _).symm

/-- One reference to `f`. -/
def oneFile (f : FilePtr) : FilePtr → Int := Pi.single f 1

def fileGiven : Option FilePtr → FilePtr → Int
  | none => 0
  | some f => oneFile f

theorem setFile_unheld (s : State) (f : FilePtr) (file : File) (g : FilePtr) :
    (s.setFile f file).unheld g = s.unheld g + (file.ref - (s.ftable f).ref) * oneFile f g := by
  show (Function.update s.ftable f file g).ref - _ = _
  rw [State.unheld, oneFile]
  by_cases here : g = f
  · subst here
    rw [Function.update_self, Pi.single_eq_same]
    show _ - tally (Proc.opens g) s.procs = _
    omega
  · rw [Function.update_of_ne here, Pi.single_eq_of_ne here, mul_zero, add_zero]
    rfl

theorem setFile_closed (h : s.Closed) (file : File) (this : file.ref = 0 → file.type = .none) :
    (s.setFile f file).Closed := by
  intro g none
  by_cases here : g = f
  · subst here
    rw [State.setFile_ftable, Function.update_self] at none ⊢
    exact this none
  · rw [State.setFile_ftable, Function.update_of_ne here] at none ⊢
    exact h g none

/-- A file changes, but not in what it counts. -/
theorem updFile_handling {g : File → File}
    (same : ∀ file, (g file).ref = file.ref ∧ (g file).type = file.type) :
    handling.Neutral (updFile f g) := by
  refine neutral_modify fun s => ⟨rfl, fun _ => rfl, fun _ _ => rfl, fun closed => ?_, fun h => ?_⟩
  · obtain ⟨ref, type⟩ := same (s.ftable f)
    apply setFile_closed closed
    rw [ref, type]
    exact closed f
  · rw [setFile_unheld, (same _).1, sub_self, zero_mul]
    rfl

/-- `fileopen` makes a file that nobody holds yet. -/
theorem fileopen_handling (readable writable : Bool) :
    handling.Has (fileopen ip readable writable) fileGiven := by
  intro s
  unfold fileopen filealloc
  simp only [wp_bind, wp_get]
  split
  · next f found =>
    have free : (s.ftable f).ref = 0 := by simpa using List.find?_some found
    simp only [wp_bind, wp_pure, updFile, wp_modify, idup, updInode]
    refine ⟨rfl, fun _ => rfl, fun _ _ => rfl, fun closed => ?_, fun g => ?_⟩
    · apply setFile_closed (setFile_closed closed _ fun none => ?_) _ fun none => ?_
      · exact absurd none Int.one_ne_zero
      · simp at none
    · rw [setFile_unheld]
      show (s.setFile f _).unheld g + _ = _
      rw [setFile_unheld]
      simp only [State.setInode_ftable, State.setFile_ftable, Function.update_self, sub_self, zero_mul,
        add_zero, free, sub_zero, one_mul]
      rfl
  · exact handling.zero s

/-- `fileclose` drops a reference. -/
theorem fileclose_handling : handling.Has (fileclose sb f) fun _ => -oneFile f := by
  intro s
  unfold fileclose
  simp only [wp_bind, wp_get]
  split
  · trivial
  · next used =>
    have drop (file : File) (ref : file.ref = (s.ftable f).ref - 1)
        (type : file.ref = 0 → file.type = .none) : UnheldBy (-oneFile f) s (s.setFile f file) := by
      refine ⟨rfl, fun _ => rfl, fun _ _ => rfl, fun closed => setFile_closed closed _ type, fun g => ?_⟩
      rw [setFile_unheld, ref, sub_sub_cancel_left, neg_one_mul]
      rfl
    split
    · next more =>
      exact drop _ rfl fun none => absurd none (by dsimp only; omega)
    · have dropped := drop { s.ftable f with ref := 0, type := .none } (by dsimp only; omega) fun _ => rfl
      rw [wp_bind]
      simp only [updFile, wp_modify]
      split
      · next jp _ _ =>
        refine wp_conseq (has_handling iput_refs _) fun _ t put => ?_
        have sum := handling.add dropped put
        rwa [add_zero] at sum
      · trivial
      · exact dropped

theorem filelock_handling : handling.Neutral (filelock sb f) := by
  refine has_get fun s => ?_
  split
  · exact has_handling ilock_refs
  · exact has_throw
  · exact neutral_pure

theorem fileunlock_handling : handling.Neutral (fileunlock f) := by
  refine has_get fun s => ?_
  split
  · exact has_handling iunlock_refs
  · exact has_throw
  · exact neutral_pure

theorem advance_handling (r : Int) : handling.Neutral (advance f r) := by
  unfold advance
  split
  · exact updFile_handling fun _ => ⟨rfl, rfl⟩
  · exact neutral_pure

theorem fileread_handling (dst : Bytes.Buffer) (n : Int) :
    handling.Neutral (fileread sb f dst n) := by
  refine has_get fun s => ?_
  dsimp only
  split
  · exact neutral_pure
  · split
    · split
      · refine Neutral.bind (has_handling (readi_refs _ _ _)) fun r => ?_
        exact Neutral.bind (advance_handling _) fun _ => neutral_pure
      · exact neutral_pure
    · exact has_throw
    · exact has_throw

theorem filewrite_handling (src : Bytes.Buffer) (n : Int) :
    handling.Neutral (filewrite sb f src n) := by
  have loop : ∀ ip n fuel i, handling.Neutral (filewriteLoop sb f ip src n fuel i) := by
    intro ip n fuel
    induction fuel with
    | zero => exact fun _ => neutral_pure
    | succ fuel ih =>
      intro i
      unfold filewriteLoop
      split
      · refine has_get fun s => Neutral.bind (has_handling (writei_refs _ _ _)) fun r => ?_
        refine Neutral.bind (advance_handling _) fun _ => ?_
        split
        · exact ih _
        · exact neutral_pure
      · exact neutral_pure
  refine has_get fun s => ?_
  dsimp only
  split
  · exact neutral_pure
  · split
    · split
      · exact Neutral.bind (loop _ _ _ _) fun _ => neutral_pure
      · exact neutral_pure
    · exact has_throw
    · exact has_throw

theorem beginOp_handling : handling.Neutral beginOp := has_handling beginOp_refs

theorem endOp_handling : handling.Neutral endOp := has_handling endOp_refs

theorem close_handling : handling.Has (close sb f) fun _ => -oneFile f := by
  apply Neutral.bind beginOp_handling
  intro _
  refine Has.bind fileclose_handling fun _ => endOp_handling.congr fun _ => ?_
  exact (sub_self _).symm

theorem fsOpen_handling (readable writable : Bool) :
    handling.Has (fsOpen ip readable writable) fileGiven := by
  apply Neutral.bind beginOp_handling
  intro _
  refine Has.bind (fileopen_handling _ _) fun f => ?_
  exact Neutral.bind endOp_handling fun _ => has_pure (sub_self _)

theorem read_handling (dst : Bytes.Buffer) (n : Int) : handling.Neutral (read sb f dst n) := by
  refine Neutral.bind beginOp_handling fun _ => Neutral.bind filelock_handling fun _ => ?_
  refine Neutral.bind (fileread_handling _ _) fun r => Neutral.bind fileunlock_handling fun _ => ?_
  exact Neutral.bind endOp_handling fun _ => neutral_pure

theorem write_handling (src : Bytes.Buffer) (n : Int) : handling.Neutral (write sb f src n) := by
  refine Neutral.bind beginOp_handling fun _ => Neutral.bind filelock_handling fun _ => ?_
  refine Neutral.bind (filewrite_handling _ _) fun r => Neutral.bind fileunlock_handling fun _ => ?_
  exact Neutral.bind endOp_handling fun _ => neutral_pure

/-! ### System calls -/

/-- A slot of the process table changes. -/
theorem setProc_unheld (s : State) (p : Pid) (proc : Proc) (g : FilePtr) :
    (s.setProc p proc).unheld g = s.unheld g + ((s.procs p).opens g - proc.opens g) := by
  have opens : tally (Proc.opens g) (s.setProc p proc).procs =
      tally (Proc.opens g) s.procs + (proc.opens g - (s.procs p).opens g) := tally_update _ _ _ _
  rw [State.unheld, State.unheld, opens]
  show (s.ftable g).ref - _ = _
  omega

theorem opens_update (ofile : Fin NOFILE → Option FilePtr) (fd : Fin NOFILE) (o : Option FilePtr)
    (p : Proc) (g : FilePtr) (is : p.ofile = ofile) :
    ({ p with ofile := Function.update ofile fd o } : Proc).opens g =
      p.opens g + ((if o = some g then 1 else 0) - if ofile fd = some g then 1 else 0) := by
  subst is
  exact tally_update _ _ _ _

theorem oneFile_apply (f g : FilePtr) : oneFile f g = if some f = some g then 1 else 0 := by
  rw [oneFile, Pi.single_apply]
  refine if_congr ?_ rfl rfl
  rw [Option.some.injEq, eq_comm]

/-- Descriptor `fd` of process `p` is set to `o`. -/
theorem setFd_unheld (s : State) (p : Pid) (fd : Fin NOFILE) (o : Option FilePtr) (g : FilePtr) :
    (s.setProc p { s.procs p with ofile := Function.update (s.procs p).ofile fd o }).unheld g =
      s.unheld g + ((if (s.procs p).ofile fd = some g then 1 else 0) - if o = some g then 1 else 0) := by
  rw [setProc_unheld, opens_update _ _ _ _ _ rfl]
  omega

theorem setFd_unheldBy {d : FilePtr → Int} {fd : Fin NOFILE} {o : Option FilePtr}
    (change : ∀ g, (if (s.procs s.current).ofile fd = some g then 1 else 0) -
      (if o = some g then 1 else 0) = d g) :
    UnheldBy d s (s.setProc s.current { s.procs s.current with
      ofile := Function.update (s.procs s.current).ofile fd o }) := by
  refine ⟨rfl, fun p => ?_, fun p other => ?_, fun closed => closed, fun g => ?_⟩
  · rw [State.setProc_procs]
    by_cases here : p = s.current
    · rw [here, Function.update_self]
    · rw [Function.update_of_ne here]
  · rw [State.setProc_procs, Function.update_of_ne other]
  · rw [setFd_unheld, change]

/-- `fdalloc` gives the file a descriptor, if one is free. -/
theorem fdalloc_handling : handling.Has (fdalloc f) fun fd => if fd < 0 then 0 else -oneFile f := by
  intro s
  unfold fdalloc
  rw [wp_bind, wp_get]
  split
  · next fd found =>
    have free : (s.procs s.current).ofile fd = none := by
      have both : 3 ≤ fd.val ∧ (s.procs s.current).ofile fd = none := by
        simpa using List.find?_some found
      exact both.2
    show UnheldBy (if (fd.val : Int) < 0 then 0 else -oneFile f) s _
    rw [if_neg (by omega)]
    apply setFd_unheldBy
    intro g
    rw [free, if_neg (by simp), zero_sub, Pi.neg_apply, oneFile_apply]
  · exact handling.zero s

theorem openFile_handling (omode : Omode) : handling.Neutral (openFile sb ip omode) := by
  refine Has.bind (fsOpen_handling _ _) fun r => ?_
  rcases r with _ | f
  · refine (Neutral.bind (has_handling iunlock_refs) fun _ => Neutral.bind (has_handling iput_refs)
      fun _ => neutral_pure).congr fun _ => ?_
    exact (sub_self _).symm
  · refine Has.bind fdalloc_handling fun fd => ?_
    split
    · exact Has.bind close_handling fun _ => has_pure (by simp [fileGiven])
    · split
      · exact Neutral.bind neutral_pure fun _ => has_pure (by simp [fileGiven])
      · exact Neutral.bind (has_handling iunlock_refs) fun _ => has_pure (by simp [fileGiven])

theorem kerOpen_handling (path : Path) (omode : Omode) : handling.Neutral (kerOpen sb path omode) := by
  refine Neutral.bind (has_handling (openInode_refs path omode)) fun r => ?_
  rcases r with _ | ip
  · exact neutral_pure
  · exact openFile_handling omode

theorem kerClose_handling (fd : Int) : handling.Neutral (kerClose sb fd) := by
  intro s
  unfold kerClose fdget
  simp only [wp_bind, wp_get]
  cases fdIndex fd with
  | none => exact handling.zero s
  | some fd =>
    simp only [wp_pure]
    cases is : (s.procs s.current).ofile fd with
    | none => exact handling.zero s
    | some f =>
      simp only [Option.map_some, wp_bind, wp_get, updProc, wp_modify]
      have taken : UnheldBy (oneFile f) s (s.setProc s.current { s.procs s.current with
          ofile := Function.update (s.procs s.current).ofile fd none }) := by
        apply setFd_unheldBy
        intro g
        rw [is, if_neg (by simp : ¬ (none : Option FilePtr) = some g), sub_zero, oneFile_apply]
      refine wp_conseq (close_handling _) fun _ t closed => ?_
      have sum := handling.add taken closed
      rwa [add_neg_cancel] at sum

theorem fdget_handling (fd : Int) : handling.Neutral (fdget fd) := by
  refine has_get fun s => ?_
  split
  · exact neutral_pure
  · exact neutral_pure

theorem kerRead_handling (fd : Int) (addr : UserAddr) (n : Int) (kbuf : Bytes.Buffer)
    (user : UserMem) : handling.Neutral (kerRead sb fd addr n kbuf user) := by
  have loop : ∀ f n fuel total kbuf user,
      handling.Neutral (kerReadLoop sb f addr n fuel total kbuf user) := by
    intro f n fuel
    induction fuel with
    | zero => exact fun _ _ _ => neutral_pure
    | succ fuel ih =>
      intro total kbuf user
      unfold kerReadLoop
      split
      · refine Neutral.bind (read_handling _ _) ?_
        rintro ⟨r, kbuf⟩
        dsimp only
        split
        · exact neutral_pure
        · split
          · exact neutral_pure
          · split
            · exact neutral_pure
            · exact ih _ _ _
      · exact neutral_pure
  refine Neutral.bind (fdget_handling fd) fun r => ?_
  rcases r with _ | ⟨fd, f⟩
  · exact neutral_pure
  · exact loop _ _ _ _ _ _

theorem kerWrite_handling (fd : Int) (addr : UserAddr) (n : Int) (kbuf : Bytes.Buffer)
    (user : UserMem) : handling.Neutral (kerWrite sb fd addr n kbuf user) := by
  have loop : ∀ f n fuel total kbuf,
      handling.Neutral (kerWriteLoop sb f addr n user fuel total kbuf) := by
    intro f n fuel
    induction fuel with
    | zero => exact fun _ _ => neutral_pure
    | succ fuel ih =>
      intro total kbuf
      unfold kerWriteLoop
      split
      · dsimp only
        split
        · exact neutral_pure
        · refine Neutral.bind (write_handling _ _) fun r => ?_
          split
          · exact neutral_pure
          · split
            · exact neutral_pure
            · exact ih _ _
      · exact neutral_pure
  refine Neutral.bind (fdget_handling fd) fun r => ?_
  rcases r with _ | ⟨fd, f⟩
  · exact neutral_pure
  · exact loop _ _ _ _ _

/-! ### Processes -/

/-- A call that is accounted for keeps the count. -/
theorem FilesCounted.changed (h : FilesCounted s) (live : (s.procs s.current).state ≠ .unused)
    (same : UnheldBy 0 s t) : FilesCounted t := by
  refine filesCounted (fun f => ?_) (same.closed fun f none => (h.closed f none).1) fun p unused fd => ?_
  · rw [same.unheld, unheld_zero.mpr (h.counted f)]
    rfl
  · rw [same.states] at unused
    rw [same.ofile p fun is => live (is ▸ unused)]
    exact h.reaped p unused fd

/-- A process slot changes, but for its descriptors. -/
theorem FilesCounted.setProc (h : FilesCounted s) {p : Pid} {proc : Proc}
    (same : proc.ofile = (s.procs p).ofile)
    (unused : proc.state = .unused → ∀ fd, proc.ofile fd = none) : FilesCounted (s.setProc p proc) := by
  have opens : ∀ f, proc.opens f = (s.procs p).opens f := fun f => by rw [Proc.opens, same, Proc.opens]
  refine filesCounted (fun f => ?_) (fun f none => (h.closed f none).1) fun q none fd => ?_
  · rw [setProc_unheld, opens, sub_self, add_zero]
    exact unheld_zero.mpr (h.counted f)
  · by_cases here : q = p
    · rw [here, State.setProc_procs, Function.update_self] at none ⊢
      exact unused none fd
    · rw [State.setProc_procs, Function.update_of_ne here] at none ⊢
      exact h.reaped q none fd

/-- `alloc_proc` takes a slot that has no descriptor. -/
theorem allocProc_counted (h : FilesCounted s) (memory : Bool) : wp (allocProc memory) (fun r t =>
    FilesCounted t ∧ t.current = s.current ∧ ∀ p, r = some p → (s.procs p).state = .unused ∧
      (∀ fd, (t.procs p).ofile fd = none) ∧ ∀ q ≠ p, t.procs q = s.procs q) (fun _ _ => True) s := by
  unfold allocProc
  simp only [wp_bind, wp_get]
  split
  · exact ⟨h, rfl, fun _ is => nomatch is⟩
  · next p found =>
    have unused : (s.procs p).state = .unused := by simpa using List.find?_some found
    have empty := h.reaped p unused
    have first : FilesCounted (s.setProc p { s.procs p with cwd := none, state := .used }) :=
      h.setProc rfl fun is => nomatch is
    simp only [updProc, wp_bind, wp_modify]
    split
    · rw [wp_bind, wp_modify, wp_pure]
      refine ⟨first.setProc ?_ fun _ _ => rfl, rfl, fun q is => ?_⟩
      · rw [State.setProc_procs, Function.update_self]
        exact (funext empty).symm
      · cases is
        refine ⟨unused, fun fd => ?_, fun q other => ?_⟩
        · simp
        · simp [other]
    · rw [wp_bind, wp_modify, wp_pure]
      refine ⟨first.setProc rfl fun _ fd => ?_, rfl, fun q is => nomatch is⟩
      rw [State.setProc_procs, Function.update_self]
      exact empty fd

/-- What `free_proc` has done of slot `p` before it has closed the descriptors `l`. -/
structure Closing (p : Pid) (s : State) (l : List (Fin NOFILE)) (t : State) : Prop where
  counted : FilesCounted t
  current : t.current = s.current
  states : ∀ q, (t.procs q).state = (s.procs q).state
  done : ∀ fd ∉ l, (t.procs p).ofile fd = none

theorem closeFd_closing {p : Pid} {fd : Fin NOFILE} {rest : List (Fin NOFILE)}
    (live : (s.procs s.current).state ≠ .unused) (other : p ≠ s.current)
    (h : Closing p s (fd :: rest) t) :
    wp (closeFd sb p fd) (fun _ => Closing p s rest) (fun _ _ => True) t := by
  unfold closeFd
  rw [wp_bind, wp_get]
  cases is : (t.procs p).ofile fd with
  | none =>
    refine ⟨h.counted, h.current, h.states, fun gd out => ?_⟩
    by_cases here : gd = fd
    · rw [here, is]
    · exact h.done gd (by simp [here, out])
  | some f =>
    dsimp only
    rw [wp_bind]
    refine wp_conseq (close_handling _) fun _ u (closed : UnheldBy (-oneFile f) t u) => ?_
    have ofile := closed.ofile p (h.current.symm ▸ other)
    have gone : (u.procs p).ofile fd = some f := by rw [ofile, is]
    simp only [updProc, wp_modify]
    have states : ∀ q, ((u.setProc p { u.procs p with
        ofile := Function.update (u.procs p).ofile fd none }).procs q).state = (s.procs q).state := by
      intro q
      rw [← h.states q, ← closed.states q, State.setProc_procs]
      by_cases here : q = p
      · rw [here, Function.update_self]
      · rw [Function.update_of_ne here]
    refine ⟨filesCounted (fun g => ?_) ?_ fun q unused gd => ?_, closed.current.trans h.current, states,
      fun gd out => ?_⟩
    · rw [setFd_unheld, closed.unheld, unheld_zero.mpr (h.counted.counted g), gone,
        if_neg (by simp : ¬ (none : Option FilePtr) = some g), Pi.neg_apply, oneFile_apply]
      omega
    · exact closed.closed fun g none => (h.counted.closed g none).1
    · by_cases here : q = p
      · rw [here, State.setProc_procs, Function.update_self]
        show Function.update (u.procs p).ofile fd none gd = none
        by_cases this : gd = fd
        · rw [this, Function.update_self]
        · rw [Function.update_of_ne this, ofile]
          refine h.counted.reaped p ?_ gd
          rw [h.states, ← here]
          exact (states q).symm.trans unused
      · rw [states] at unused
        rw [State.setProc_procs, Function.update_of_ne here,
          closed.ofile q (fun same => live (by rw [← h.current, ← same]; exact unused))]
        exact h.counted.reaped q ((h.states q).trans unused) gd
    · rw [State.setProc_procs, Function.update_self]
      show Function.update (u.procs p).ofile fd none gd = none
      by_cases this : gd = fd
      · rw [this, Function.update_self]
      · rw [Function.update_of_ne this, ofile]
        exact h.done gd (by simp [this, out])

/-- `free_proc` leaves no descriptor. -/
theorem freeProc_counted (h : FilesCounted s) {p : Pid} (live : (s.procs s.current).state ≠ .unused)
    (other : p ≠ s.current) : wp (freeProc sb p) (fun _ t => FilesCounted t ∧
      (t.procs p).state = .unused ∧ ∀ fd, (t.procs p).ofile fd = none) (fun _ _ => True) s := by
  unfold freeProc
  rw [wp_bind]
  have start : Closing p s (List.finRange NOFILE) s :=
    ⟨h, rfl, fun _ => rfl, fun fd out => absurd (List.mem_finRange fd) out⟩
  refine wp_conseq (wp_forM (Closing p s)
    (fun fd rest t closing => closeFd_closing live other closing) _ start) fun _ t closing => ?_
  have empty : ∀ fd, (t.procs p).ofile fd = none := fun fd => closing.done fd List.not_mem_nil
  refine ⟨closing.counted.setProc rfl fun _ => empty, ?_, fun fd => ?_⟩
  · rw [State.setProc_procs, Function.update_self]
  · rw [State.setProc_procs, Function.update_self]
    exact empty fd

theorem createKernelProc_counted (h : FilesCounted s) (memory : Bool) :
    wp (createKernelProc memory) (fun _ t => FilesCounted t) (fun _ _ => True) s := by
  unfold createKernelProc
  rw [wp_bind]
  refine wp_conseq (allocProc_counted h memory) fun r t ⟨counted, _, _⟩ => ?_
  rcases r with _ | p
  · exact counted
  simp only [wp_bind, wp_get, updProc, wp_modify]
  have published : FilesCounted (t.setProc p { t.procs p with
      state := .runnable, parent := some t.current }) := counted.setProc rfl fun is => by cases is
  split
  · next ip _ =>
    simp only [idup, updInode, wp_bind, wp_modify, wp_pure]
    have duped : FilesCounted ((t.setProc p { t.procs p with
        state := .runnable, parent := some t.current }).setInode ip { t.itable ip with
          ref := (t.itable ip).ref + 1 }) :=
      ⟨published.counted, published.closed, published.reaped⟩
    exact duped.setProc rfl fun is => by simp at is
  · rw [wp_bind, wp_modify, wp_pure]
    exact published.setProc rfl fun is => by simp at is

theorem forkProc_counted (h : FilesCounted s) (live : (s.procs s.current).state ≠ .unused)
    (memory copied : Bool) :
    wp (forkProc sb memory copied) (fun _ t => FilesCounted t) (fun _ _ => True) s := by
  unfold forkProc
  rw [wp_bind]
  refine wp_conseq (allocProc_counted h memory) fun r t ⟨counted, current, new⟩ => ?_
  rcases r with _ | p
  · exact counted
  obtain ⟨unused, -, others⟩ := new p rfl
  have apart : s.current ≠ p := fun same => live (same ▸ unused)
  dsimp only
  split
  · simp only [wp_bind, wp_get, updProc, wp_modify, wp_pure]
    exact counted.setProc rfl fun is => by cases is
  · rw [wp_bind]
    have liveThen : (t.procs t.current).state ≠ .unused := by
      rw [current, others _ apart]
      exact live
    exact wp_conseq (freeProc_counted counted liveThen (current.symm ▸ apart.symm)) fun _ u freed => freed.1

theorem exitProc_counted (h : FilesCounted s) :
    wp exitProc (fun _ t => FilesCounted t) (fun _ _ => True) s := by
  unfold exitProc
  simp only [wp_bind, wp_get]
  split
  · trivial
  · exact h.setProc rfl fun is => nomatch is

/-- The child that `wait_proc` reaps is another process than the one that waits. -/
theorem zombieChild_other (runs : s.Runs s.current) {child : Pid} (is : s.zombieChild = some child) :
    child ≠ s.current := by
  intro same
  have both : (s.procs child).state = .zombie ∧ (s.procs child).parent = some s.current := by
    have found := List.find?_some is
    simpa using found
  rw [same] at both
  rcases runs with runnable | running
  · exact nomatch runnable.symm.trans both.1
  · exact nomatch running.symm.trans both.1

theorem waitProc_counted (h : FilesCounted s) (runs : s.Runs s.current) :
    wp (waitProc sb) (fun _ t => FilesCounted t ∧ ∀ child, s.zombieChild = some child →
      (t.procs child).state = .unused ∧ ∀ fd, (t.procs child).ofile fd = none) (fun _ _ => True) s := by
  have live : (s.procs s.current).state ≠ .unused := by
    rcases runs with is | is <;> rw [is] <;> decide
  unfold waitProc
  simp only [wp_bind, wp_get]
  split
  · next child is =>
    rw [wp_bind]
    refine wp_conseq (freeProc_counted h live (zombieChild_other runs is)) fun _ t ⟨counted, reaped⟩ =>
      ⟨counted, fun other same => ?_⟩
    cases is.symm.trans same
    exact reaped
  · next none =>
    split
    · trivial
    · exact ⟨h, fun child is => nomatch none.symm.trans is⟩

theorem Call.run_counted {c : Call} (h : FilesCounted s) (runs : s.Runs s.current) :
    wp (c.run sb) (fun _ t => FilesCounted t) (fun _ _ => True) s := by
  have live : (s.procs s.current).state ≠ .unused := by
    rcases runs with is | is <;> rw [is] <;> decide
  have drop : ∀ {α : Type} {x : F α}, wp x (fun _ t => FilesCounted t) (fun _ _ => True) s →
      wp (ignore x) (fun _ t => FilesCounted t) (fun _ _ => True) s := by
    intro α x ends
    unfold ignore
    rw [wp_bind]
    exact ends
  have call : ∀ {α : Type} {x : F α}, handling.Neutral x →
      wp (ignore x) (fun _ t => FilesCounted t) (fun _ _ => True) s := fun neutral =>
    drop (wp_conseq (neutral s) fun _ t same => h.changed live same)
  cases c with
  | kerOpen path omode => exact call (kerOpen_handling path omode)
  | kerClose fd => exact call (kerClose_handling fd)
  | kerRead fd addr n kbuf user => exact call (kerRead_handling fd addr n kbuf user)
  | kerWrite fd addr n kbuf user => exact call (kerWrite_handling fd addr n kbuf user)
  | kerUnlink path => exact call (has_handling (unlink_refs path))
  | createKernelProc memory => exact drop (createKernelProc_counted h memory)
  | forkProc memory copied => exact drop (forkProc_counted h live memory copied)
  | exitProc => exact exitProc_counted h
  | waitProc => exact drop (wp_conseq (waitProc_counted h runs) fun _ t counted => counted.1)

/-- In every run of the calls every file counts the descriptors that point to it, and a process that
is reaped has none left. -/
theorem open_files_accounted (start : FilesCounted s)
    (run : ReflTransGen (fun s t => ∃ p c, Calls sb p c s t) s t) :
    FilesCounted t ∧ ∀ p u child, t.Runs p → (t.setCurrent p).zombieChild = some child →
      (waitProc sb (t.setCurrent p) = .ok child.val u →
        (u.procs child).state = .unused ∧ ∀ fd, (u.procs child).ofile fd = none) := by
  have counted : FilesCounted t := by
    refine Transition.invariant (fun s t counted ⟨p, c, runs, done⟩ => ?_) start run
    have before : FilesCounted (s.setCurrent p) := ⟨counted.counted, counted.closed, counted.reaped⟩
    exact wp_ok (Q := fun _ t => FilesCounted t) (Call.run_counted before runs) done
  refine ⟨counted, fun p u child runs is done => ?_⟩
  have before : FilesCounted (t.setCurrent p) := ⟨counted.counted, counted.closed, counted.reaped⟩
  exact (wp_ok (waitProc_counted before runs) done).2 child is

theorem booted_counted : FilesCounted booted := by
  have closed : ∀ p fd, (booted.procs p).ofile fd = none := by
    intro p fd
    show (if p = 0 then _ else _ : Proc).ofile fd = none
    split <;> rfl
  refine filesCounted (fun f => ?_) (fun _ _ => rfl) fun p _ => closed p
  rw [unheld_zero]
  symm
  refine Int.natCast_eq_zero.mpr (Finset.card_eq_zero.mpr ?_)
  unfold State.handles
  rw [Finset.filter_eq_empty_iff]
  intro h _
  rw [closed]
  exact nofun

/-- The first process opens the root directory twice, and closes it once. -/
def openTwice : List (Pid × Call) :=
  [(0, .kerOpen [SLASH] O_RDONLY), (0, .kerOpen [SLASH] O_RDONLY), (0, .kerClose 3)]

theorem openTwice_runs : ((runCalls fsImg openTwice booted).any fun s =>
    decide ((s.ftable 0).ref = 0 ∧ (s.ftable 1).ref = 1)) = true := by
  decide +kernel

theorem open_files_accounted_sample : ∃ t : State,
    ReflTransGen (fun s t => ∃ p c, Calls fsImg p c s t) booted t ∧ (t.ftable 0).ref = 0 ∧
    (t.ftable 1).ref = 1 ∧ FilesCounted t := by
  obtain ⟨t, done, facts⟩ := (Option.any_eq_true _ _).mp openTwice_runs
  obtain ⟨first, second⟩ := of_decide_eq_true facts
  have run : ReflTransGen (fun s t => ∃ p c, Calls fsImg p c s t) booted t :=
    runCalls_some (fun p c s t _ call => ⟨p, c, call⟩) done
  exact ⟨t, run, first, second, (open_files_accounted booted_counted run).1⟩

end Xv6Lab.Fs

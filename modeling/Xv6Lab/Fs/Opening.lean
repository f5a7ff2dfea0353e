import Xv6Lab.Fs.Accounts
import Xv6Lab.Fs.Completion

/-! What `ker_open` does where it fails.  It takes a reference, a lock, a file and a descriptor one
after the other, and gives back what it has taken wherever the path has no inode for it; but not where
only the descriptors have run out, and with `O_CREATE` not where the files have. -/

namespace Xv6Lab.Fs

open Bytes Exec

/-- The current process has no free descriptor. -/
def State.DescriptorsFull (s : State) : Prop :=
  ∀ fd : Fin NOFILE, 3 ≤ fd.val → (s.procs s.current).ofile fd ≠ none

/-- A call that returns -1 has left the files, and the counts and locks of the inodes, as they were. -/
def Restores (s : State) (r : Int) (t : State) : Prop :=
  r = -1 → t.ftable = s.ftable ∧ (t.procs t.current).ofile = (s.procs s.current).ofile ∧
    ∀ ip, (t.itable ip).ref = (s.itable ip).ref ∧ (t.itable ip).lock = (s.itable ip).lock

/-! ### Files -/

section Files

variable {sb : Superblock} {ip : InodePtr} {f : FilePtr} {s t : State}

/-- File `f` is open for the inode, which has one more reference. -/
structure OpenFor (ip : InodePtr) (f : FilePtr) (s t : State) : Prop where
  ref : (t.ftable f).ref = 1
  type : (t.ftable f).type = .inode
  inode : (t.ftable f).ip = some ip
  itable : t.itable = Function.update s.itable ip { s.itable ip with ref := (s.itable ip).ref + 1 }
  procs : t.procs = s.procs
  current : t.current = s.current
  outstanding : t.outstanding = s.outstanding
  lh : t.lh = s.lh

theorem fileopen_wp (readable writable : Bool) :
    wp (fileopen ip readable writable) (fun r t => (r = none ∧ s.FilesFull ∧ t = s) ∨
      ∃ f, r = some f ∧ ¬ s.FilesFull ∧ OpenFor ip f s t) (fun _ _ => False) s := by
  unfold fileopen filealloc
  rw [wp_bind, wp_bind, wp_get]
  split
  · next f found =>
    have facts := List.find?_some found
    have free : (s.ftable f).ref = 0 := of_decide_eq_true facts
    refine .inr ⟨f, rfl, fun full => full f free, ?_, ?_, ?_, rfl, rfl, rfl, rfl, rfl⟩ <;>
    simp [State.setFile, State.setInode]
  · next none' =>
    refine .inl ⟨rfl, fun f free => ?_, rfl⟩
    have other := List.find?_eq_none.mp none' f (List.mem_finRange f)
    exact other (decide_eq_true free)

theorem fsOpen_wp (outstanding : s.outstanding = 0) (empty : s.lh = []) (readable writable : Bool) :
    wp (fsOpen ip readable writable) (fun r t => (r = none ∧ s.FilesFull ∧ t = s) ∨
      ∃ f, r = some f ∧ ¬ s.FilesFull ∧ OpenFor ip f s t) (fun _ _ => False) s := by
  unfold fsOpen
  rw [wp_goes (bind_ok (beginOp_run outstanding empty)), wp_bind]
  refine wp_conseq (fileopen_wp readable writable) fun r t post => ?_
  rw [wp_bind]
  rcases post with ⟨rfl, full, rfl⟩ | ⟨f, rfl, free, filed⟩
  · refine .inl ⟨rfl, full, ?_⟩
    obtain ⟨⟩ := s
    cases outstanding
    cases empty
    rfl
  · have one : t.outstanding = 1 := filed.outstanding
    refine .inr ⟨f, rfl, free, filed.ref, filed.type, filed.inode, filed.itable, filed.procs,
      filed.current, ?_, ?_⟩
    · show t.outstanding - 1 = s.outstanding
      omega
    · show (if t.outstanding - 1 = 0 then [] else t.lh) = s.lh
      rw [if_pos (by omega), empty]

/-- `fdalloc` -/
theorem fdalloc_wp : wp (fdalloc f) (fun fd t => (fd = -1 ∧ s.DescriptorsFull ∧ t = s) ∨
    (3 ≤ fd ∧ ¬ s.DescriptorsFull ∧ t.itable = s.itable ∧ t.current = s.current))
    (fun _ _ => False) s := by
  unfold fdalloc
  rw [wp_bind, wp_get]
  split
  · next fd found =>
    have facts := List.find?_some found
    obtain ⟨above, free⟩ := of_decide_eq_true facts
    refine .inr ⟨?_, fun full => full fd above free, rfl, rfl⟩
    show (3 : Int) ≤ fd.val
    omega
  · next none' =>
    refine .inl ⟨rfl, fun fd above free => ?_, rfl⟩
    have other := List.find?_eq_none.mp none' fd (List.mem_finRange fd)
    exact other (decide_eq_true ⟨above, free⟩)

/-- Closing a file gives back the reference that it took. -/
theorem close_wp (filed : OpenFor ip f s t) (live : 0 < (s.itable ip).ref)
    (outstanding : s.outstanding = 0) (empty : s.lh = []) :
    wp (close sb f) (fun _ u => (u.itable ip).ref = (s.itable ip).ref) (fun _ _ => False) t := by
  have two : (t.itable ip).ref = (s.itable ip).ref + 1 := by
    rw [filed.itable, Function.update_self]
  unfold close fileclose
  rw [wp_goes (bind_ok (beginOp_run (filed.outstanding.trans outstanding) (filed.lh.trans empty))),
    wp_bind, wp_bind, wp_get]
  dsimp only [State.setLog_ftable]
  rw [filed.ref, if_neg (by decide), if_neg (by decide), wp_bind, filed.type, filed.inode]
  set u := (t.setLog 1 []).setFile f _ with is
  have same : u.itable = t.itable := rfl
  have more : ¬ Last u ip := by
    rintro ⟨one, -, -⟩
    rw [same] at one
    omega
  show wp (iput sb ip) _ _ u
  rw [wp_value (iput_kept more)]
  show (Function.update u.itable ip _ ip).ref = _
  rw [Function.update_self, same]
  show (t.itable ip).ref - 1 = _
  omega

/-- With a free file, `ker_open` returns a descriptor, or it keeps the reference to the inode. -/
theorem openFile_wp (outstanding : s.outstanding = 0) (empty : s.lh = []) (free : ¬ s.FilesFull)
    (live : 0 < (s.itable ip).ref) (omode : Omode)
    (held : omode.has O_CREATE = false → (s.itable ip).lock = some s.current) :
    wp (openFile sb ip omode) (fun r t => (¬ s.DescriptorsFull ∧ r ≠ -1) ∨
      (s.DescriptorsFull ∧ r = -1 ∧ (t.itable ip).ref = (s.itable ip).ref)) (fun _ _ => False) s := by
  unfold openFile
  rw [wp_bind]
  refine wp_conseq (fsOpen_wp outstanding empty _ _) fun r t post => ?_
  rcases post with ⟨-, full, -⟩ | ⟨f, rfl, -, filed⟩
  · exact absurd full free
  dsimp only
  have same : t.DescriptorsFull ↔ s.DescriptorsFull := by
    unfold State.DescriptorsFull
    rw [filed.procs, filed.current]
  rw [wp_bind]
  refine wp_conseq fdalloc_wp fun fd u post => ?_
  rcases post with ⟨rfl, full, rfl⟩ | ⟨above, some', table, current⟩
  · rw [if_pos (by decide), wp_bind]
    exact wp_conseq (close_wp filed live outstanding empty) fun _ w back => .inr ⟨same.mp full, rfl, back⟩
  · rw [if_neg (by omega)]
    have ends : ¬ s.DescriptorsFull ∧ fd ≠ -1 := ⟨fun full => some' (same.mpr full), by omega⟩
    split
    · exact .inl ends
    · next plain =>
      have self : u.itable ip = { s.itable ip with ref := (s.itable ip).ref + 1 } := by
        rw [table, filed.itable, Function.update_self]
      have mine : (u.itable ip).lock = some u.current := by
        rw [self, current, filed.current]
        exact held (by simpa using plain)
      have live' : 0 < (u.itable ip).ref := by
        rw [self]
        show 0 < (s.itable ip).ref + 1
        omega
      rw [wp_goes (bind_ok (iunlock_run live' mine))]
      exact .inl ends

/-- Without a free file, `ker_open` unlocks the inode and drops it. -/
theorem openFile_none (outstanding : s.outstanding = 0) (empty : s.lh = []) (full : s.FilesFull)
    (omode : Omode) {Q : Int → State → Prop} {E : Halt → State → Prop}
    (next : wp (do iunlockput sb ip; pure (-1)) Q E s) : wp (openFile sb ip omode) Q E s := by
  unfold openFile
  rw [wp_bind]
  refine wp_mono (fsOpen_wp outstanding empty _ _) (fun r t post => ?_) fun _ _ never => never.elim
  rcases post with ⟨rfl, -, rfl⟩ | ⟨-, -, free, -⟩
  · unfold iunlockput at next
    rw [wp_bind, wp_bind] at next
    dsimp only
    simp only [wp_bind]
    exact next
  · exact absurd full free

end Files

/-! ### `ker_open` -/

/-- The inode that a path leads to. -/
def State.target (s : State) (v : Disk) (path : Path) : Option Nat :=
  (s.origin path).bind fun i => v.resolve i (components path)

/-- `ker_open` fails where it has nothing to give back, or where it does so. -/
def Recovers (sb : Superblock) (s : State) (v : Disk) (path : Path) (omode : Omode) : Prop :=
  if omode.has O_CREATE then
    Creatable sb s v path T_FILE ∧
      (Refuses s v path T_FILE ∨ ¬ s.FilesFull ∧ ¬ s.DescriptorsFull)
  else
    s.Boards v path (components path) ∧
      ((∀ j, s.target v path = some j → (v.inode j).type = T_DIR ∧ omode ≠ O_RDONLY) ∨
        s.FilesFull ∨ ¬ s.DescriptorsFull)

section Open

variable {sb : Superblock} {s t : State} {v : Disk}

/-- What only borrows and has given everything back has changed nothing. -/
theorem Borrowed.restores {r : Int} (h : Borrowed sb v s 0 s.locks t) : Restores s r t := by
  intro _
  obtain ⟨itable, is⟩ := h.table
  refine ⟨by rw [is], by rw [is], fun ip => ⟨(h.refs ip).trans (add_zero _), h.locks ip⟩⟩

/-- With `O_CREATE`, `ker_open` keeps what it has taken where the files or the descriptors have run
out. -/
theorem kerOpen_creates (valid : sb.Valid) (few : sb.ninodes ≤ 65536) (h : Ordered sb s v)
    (tree : Tree sb v) (idle : Idle s) (path : Path) (omode : Omode) (start : s.Stands v path)
    (creates : omode.has O_CREATE = true) :
    wp (kerOpen sb path omode)
      (fun r t => Restores s r t ↔ Recovers sb s v path omode)
      (fun _ _ => ¬ Recovers sb s v path omode) s := by
  unfold kerOpen openInode Recovers
  simp only [if_pos creates]
  rw [wp_bind]
  have made := create_wp valid few h tree idle path T_FILE 0 0 start
  have counts : refs.Has (create sb path T_FILE 0 0) given := create_refs path T_FILE 0 0
  refine wp_of_run (fun r t run => ?_) fun e t run both => ?_
  swap
  · exact wp_error (E := fun _ _ => ¬ Creatable sb s v path T_FILE) made run both.1
  obtain ⟨completes, ended, typed⟩ := wp_ok made run
  have creatable := typed (by decide)
  have done := completes.mpr creatable
  obtain ⟨⟨outstanding, empty⟩, files, unlocked, refuses⟩ := ended creatable
  have count := (counts.ok run).ref
  cases r with
  | none =>
    refine iff_of_true (fun _ => ⟨files.ftable, ?_, done.2⟩) ⟨creatable, .inl (refuses.mp rfl)⟩
    rw [files.procs, files.current]
  | some ip =>
    have opens : ¬ Refuses s v path T_FILE := fun refused =>
      absurd (refuses.mpr refused) (Option.some_ne_none ip)
    obtain ⟨d, name, -, -, -, live⟩ := done
    have kept := count ip
    rw [given, one_self] at kept
    have filesFull : t.FilesFull ↔ s.FilesFull := by
      unfold State.FilesFull
      rw [files.ftable]
    have descriptorsFull : t.DescriptorsFull ↔ s.DescriptorsFull := by
      unfold State.DescriptorsFull
      rw [files.procs, files.current]
    by_cases full : t.FilesFull
    · -- the inode that `create` returns is not locked, so `iunlock` panics
      refine openFile_none outstanding empty full omode ?_
      have panics : iunlock ip t = .error (.panic "iunlock") t := by
        have other : ¬ t.holdingsleep ip := by
          intro mine
          have held : (t.itable ip).lock = some t.current := mine
          rw [unlocked ip rfl] at held
          cases held
        unfold iunlock
        rw [bind_get, if_pos (.inl other)]
        rfl
      unfold iunlockput
      rw [wp_bind, wp_bind, wp_stop panics]
      rintro ⟨-, refused | ⟨free, -⟩⟩
      · exact opens refused
      · exact free (filesFull.mp full)
    · have some' : ¬ s.FilesFull := fun full' => full (filesFull.mpr full')
      refine wp_mono (openFile_wp outstanding empty full live omode fun no => ?_) (fun r u post => ?_)
        fun _ _ never => never.elim
      · rw [creates] at no
        cases no
      rcases post with ⟨free, opened⟩ | ⟨none', rfl, back⟩
      · exact iff_of_true (fun failed => absurd failed opened)
          ⟨creatable, .inr ⟨some', fun full' => free (descriptorsFull.mpr full')⟩⟩
      · refine iff_of_false (fun restores => ?_) ?_
        · have same := ((restores rfl).2.2 ip).1
          omega
        · rintro ⟨-, refused | ⟨-, free⟩⟩
          · exact opens refused
          · exact free (descriptorsFull.mp none')

/-- Without `O_CREATE`, `ker_open` keeps what it has taken where only the descriptors have run out. -/
theorem kerOpen_plain (valid : sb.Valid) (h : Ordered sb s v) (tree : Tree sb v) (idle : Idle s)
    (path : Path) (omode : Omode) (start : s.Stands v path) (plain : omode.has O_CREATE = false) :
    wp (kerOpen sb path omode)
      (fun r t => Restores s r t ↔ Recovers sb s v path omode)
      (fun _ _ => ¬ Recovers sb s v path omode) s := by
  have free : ∀ jp, s.locks jp = none := idle.unlocked
  obtain ⟨i, origin, walk⟩ := namei_resolves valid h.good h.tidy tree path start
  have target : s.target v path = v.resolve i (components path) := by
    rw [State.target, origin, Option.bind_some]
  have other : ¬ omode.has O_CREATE = true := Bool.eq_false_iff.mp plain
  unfold kerOpen openInode Recovers
  simp only [if_neg other]
  rw [wp_bind, wp_bind]
  refine wp_mono walk (fun r t ⟨named, boards⟩ => ?_) fun e _ stop both => ?_
  swap
  · rcases stop with ⟨-, unboarded⟩ | ⟨ip, q, held, -⟩
    · exact unboarded both.1
    · rw [free] at held
      cases held
  have answers := named.answers.trans target.symm
  cases r with
  | none =>
    refine iff_of_true (Borrowed.restores named.borrowed) ⟨boards, .inl fun j is => ?_⟩
    rw [is] at answers
    cases answers
  | some ip =>
    have is : s.target v path = some (t.itable ip).inum := answers.symm
    have live := named.live ip rfl
    have borrowed : Borrowed sb v s (one ip) s.locks t := named.borrowed
    dsimp only
    rw [wp_bind]
    refine wp_mono (ilock_borrowed borrowed live (named.typed ip rfl))
      (fun _ u ⟨_, locked, step, ready⟩ => ?_) ?_
    swap
    · rintro _ _ ⟨jp, q, held, -⟩
      rw [free] at held
      cases held
    have held : Function.update s.locks ip (some s.current) ip = some s.current :=
      Function.update_self ..
    have kind : (u.itable ip).type = (v.inode (t.itable ip).inum).type := by
      rw [(step.good.cached.slot ip ready.live).synced ready.valid, step.onward.inum ip live]
    have gives : wp (iunlockput sb ip) (fun _ w => Borrowed sb v s 0 s.locks w) (fun _ _ => False) u := by
      refine wp_conseq (iunlockput_borrowed locked h.tidy one_self.ge ready.live held)
        fun _ w ⟨dropped, _⟩ => ?_
      rwa [sub_self, relock (free ip)] at dropped
    rw [wp_bind, wp_get, kind]
    split
    · next refused =>
      rw [wp_bind]
      refine wp_mono gives (fun _ w back => ?_) fun _ _ never => never.elim
      refine iff_of_true back.restores ⟨boards, .inl fun j found => ?_⟩
      rw [is] at found
      cases found
      exact refused
    · next opens =>
      have open' : ¬ ∀ j, s.target v path = some j → (v.inode j).type = T_DIR ∧ omode ≠ O_RDONLY :=
        fun refused => opens (refused _ is)
      have same : u.ftable = s.ftable ∧ u.procs = s.procs ∧ u.outstanding = 0 ∧ u.lh = [] := by
        obtain ⟨itable, rfl⟩ := locked.table
        exact ⟨rfl, rfl, idle.outstanding, idle.lh⟩
      have filesFull : u.FilesFull ↔ s.FilesFull := by
        unfold State.FilesFull
        rw [same.1]
      have descriptorsFull : u.DescriptorsFull ↔ s.DescriptorsFull := by
        unfold State.DescriptorsFull
        rw [same.2.1, locked.current]
      show wp (openFile sb ip omode) _ _ u
      by_cases full : u.FilesFull
      · refine openFile_none same.2.2.1 same.2.2.2 full omode ?_
        rw [wp_bind]
        refine wp_mono gives (fun _ w back => ?_) fun _ _ never => never.elim
        exact iff_of_true back.restores ⟨boards, .inr (.inl (filesFull.mp full))⟩
      · have mine : (u.itable ip).lock = some u.current := by
          rw [locked.locks, held, locked.current]
        refine wp_mono (openFile_wp same.2.2.1 same.2.2.2 full ready.live omode fun _ => mine)
          (fun r w post => ?_) fun _ _ never => never.elim
        rcases post with ⟨some', opened⟩ | ⟨none', rfl, back⟩
        · exact iff_of_true (fun failed => absurd failed opened)
            ⟨boards, .inr (.inr fun full' => some' (descriptorsFull.mpr full'))⟩
        · refine iff_of_false (fun restores => ?_) ?_
          · have kept := ((restores rfl).2.2 ip).1
            have took := locked.refs ip
            rw [one_self] at took
            omega
          · rintro ⟨-, refused | full' | some'⟩
            · exact open' refused
            · exact full (filesFull.mpr full')
            · exact some' (descriptorsFull.mp none')

/-- `ker_open` returns, and where it returns -1 it leaves everything as it was, exactly where nothing
that it needs has run out, or only the files without `O_CREATE`. -/
theorem open_restores_iff (valid : sb.Valid) (few : sb.ninodes ≤ 65536) (h : Ordered sb s v)
    (tree : Tree sb v) (idle : Idle s) (path : Path) (omode : Omode) (start : s.Stands v path) :
    wp (kerOpen sb path omode) (Restores s) (fun _ _ => False) s ↔ Recovers sb s v path omode := by
  have all : wp (kerOpen sb path omode) (fun r t => Restores s r t ↔ Recovers sb s v path omode)
      (fun _ _ => ¬ Recovers sb s v path omode) s := by
    cases creates : omode.has O_CREATE with
    | true => exact kerOpen_creates valid few h tree idle path omode start creates
    | false => exact kerOpen_plain valid h tree idle path omode start creates
  exact wp_decides (wp_mono all (fun _ _ same => same) fun _ _ never => iff_of_false not_false never)

end Open

theorem open_restores_booted :
    wp (kerOpen fsImg pathA O_RDONLY) (Restores booted) (fun _ _ => False) booted ↔
      Recovers fsImg booted imageDisk pathA O_RDONLY :=
  open_restores_iff fsImg_valid (by decide) booted_ordered image_tree booted_idle pathA O_RDONLY
    (.inl rfl)

/-- The first process opens the root directory 13 times. -/
def openAll : List (Pid × Call) := List.replicate 13 (0, .kerOpen [SLASH] O_RDONLY)

theorem openAll_runs : ((runCalls fsImg openAll booted).any fun s =>
    match kerOpen fsImg [SLASH] O_RDONLY s with
    | .ok r t => decide (r = -1 ∧ (s.itable 0).lock = none ∧ (t.itable 0).lock = some 0 ∧
        (t.itable 0).ref = (s.itable 0).ref + 1)
    | .error _ _ => false) = true := by
  decide +kernel

/-- Without a free descriptor, `ker_open` returns -1, and leaves the root directory locked. -/
theorem open_keeps_lock : ∃ s r t, runCalls fsImg openAll booted = some s ∧
    kerOpen fsImg [SLASH] O_RDONLY s = .ok r t ∧ r = -1 ∧ (s.itable 0).lock = none ∧
    (t.itable 0).lock = some 0 ∧ (t.itable 0).ref = (s.itable 0).ref + 1 := by
  obtain ⟨s, done, facts⟩ := (Option.any_eq_true _ _).mp openAll_runs
  split at facts
  · next r t run => exact ⟨s, r, t, done, run, of_decide_eq_true facts⟩
  · cases facts

end Xv6Lab.Fs

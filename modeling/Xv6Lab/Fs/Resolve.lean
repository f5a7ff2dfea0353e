import Mathlib.Data.List.TakeWhile
import Xv6Lab.Fs.Borrow
import Xv6Lab.Fs.Reach

/-! What a path means: its components are looked up one after another.  `namei` and `nameiparent`
return the inode that this leads to, and keep no lock and no other reference; all that stops them is
an inode table without an entry for the next inode, or a lock that somebody holds. -/

namespace Xv6Lab.Fs

open Bytes Exec

/-! ### Components -/

/-- The longest runs of bytes without a slash, cut to `DIRSIZ` bytes. -/
def components (path : Path) : List Path :=
  ((path.splitOnP (· = SLASH)).filter (· ≠ [])).map (List.take DIRSIZ)

theorem components_slash (path : Path) : components (SLASH :: path) = components path := by
  unfold components
  rw [List.splitOnP_cons_eq_if_modifyHead, if_pos (by simp), List.filter_cons_of_neg (by simp)]

theorem components_skip (path : Path) : components (path.dropWhile (· = SLASH)) = components path := by
  induction path with
  | nil => rfl
  | cons c path ih =>
    by_cases slash : c = SLASH
    · subst slash
      rw [List.dropWhile_cons_of_pos (by simp), ih, components_slash]
    · rw [List.dropWhile_cons_of_neg (by simpa using slash)]

/-- The first component of a path that does not begin with a slash. -/
theorem components_start {c : UInt8} {path : Path} (plain : c ≠ SLASH) :
    components (c :: path) = ((c :: path).takeWhile (· ≠ SLASH)).take DIRSIZ ::
      components ((c :: path).dropWhile (· ≠ SLASH)) := by
  set run := (c :: path).takeWhile (· ≠ SLASH) with runIs
  set rest := (c :: path).dropWhile (· ≠ SLASH) with restIs
  have whole : c :: path = run ++ rest := List.takeWhile_append_dropWhile.symm
  have some' : run ≠ [] := by
    rw [runIs, List.takeWhile_cons_of_pos (by simpa using plain)]
    exact List.cons_ne_nil _ _
  have apart : ∀ b ∈ run, decide (b = SLASH) = false := by
    intro b inside
    have other := List.mem_takeWhile_imp inside
    simpa using other
  cases rest' : rest with
  | nil =>
    rw [whole, rest', List.append_nil]
    unfold components
    rw [List.splitOnP_eq_singleton apart, List.filter_cons_of_pos (by simpa using some')]
    rfl
  | cons b tail =>
    have slash : b = SLASH := by
      have head := List.head?_dropWhile_not (fun b => decide (b ≠ SLASH)) (c :: path)
      rw [← restIs, rest'] at head
      simpa using head
    subst slash
    rw [whole, rest', components_slash]
    unfold components
    rw [List.splitOnP_append_cons_of_forall_mem apart SLASH (by simp) tail,
      List.filter_cons_of_pos (by simpa using some'), List.map_cons]

theorem components_none {path : Path} (none' : skipelem path = none) : components path = [] := by
  unfold skipelem at none'
  dsimp only at none'
  split at none'
  · next empty =>
    rw [← components_skip, empty]
    rfl
  · cases none'

/-- What is left behind leading slashes is empty or begins a component. -/
theorem skip_cases (path : Path) : path.dropWhile (· = SLASH) = [] ∨
    ∃ c tail, path.dropWhile (· = SLASH) = c :: tail ∧ c ≠ SLASH := by
  cases is : path.dropWhile (· = SLASH) with
  | nil => exact .inl rfl
  | cons c tail =>
    refine .inr ⟨c, tail, rfl, ?_⟩
    have head := List.head?_dropWhile_not (· = SLASH) path
    rw [is] at head
    simpa using head

/-- `skipelem` takes the first component from the path. -/
theorem components_some {path name rest : Path} (next : skipelem path = some (name, rest)) :
    components path = name :: components rest ∧ (components rest = [] ↔ rest = []) := by
  unfold skipelem at next
  dsimp only at next
  split at next
  · cases next
  next some' =>
  obtain ⟨rfl, rfl⟩ := Prod.mk.inj (Option.some.inj next)
  constructor
  · obtain ⟨c, tail, is, plain⟩ := (skip_cases path).resolve_left some'
    rw [← components_skip path, is, components_start plain, components_skip]
  · rcases skip_cases ((path.dropWhile (· = SLASH)).dropWhile (· ≠ SLASH)) with is | ⟨c, tail, is, plain⟩
    · rw [is]
      exact iff_of_true rfl rfl
    · rw [is, components_start plain]
      exact iff_of_false (List.cons_ne_nil _ _) (List.cons_ne_nil _ _)

/-! ### Resolution -/

namespace Disk

variable (v : Disk)

/-- One component is looked up. -/
def step (i : Nat) (name : Path) : Option Nat :=
  if (v.inode i).type = T_DIR then v.lookup i name else none

/-- The inode that the components lead to from inode `i`. -/
def resolve (i : Nat) (names : List Path) : Option Nat := names.foldlM v.step i

/-- The directory that all components but the last lead to, with the last. -/
def resolveParent (i : Nat) (names : List Path) : Option (Nat × Path) := do
  let last ← names.getLast?
  let d ← v.resolve i names.dropLast
  if (v.inode d).type = T_DIR then some (d, last) else none

variable {v} {i : Nat} {name : Path} {rest : List Path}

theorem resolve_cons : v.resolve i (name :: rest) = (v.step i name).bind fun j => v.resolve j rest :=
  List.foldlM_cons

theorem step_none (other : (v.inode i).type ≠ T_DIR) : v.step i name = none := if_neg other

theorem step_dir (dir : (v.inode i).type = T_DIR) : v.step i name = v.lookup i name := if_pos dir

theorem resolveParent_last :
    v.resolveParent i [name] = if (v.inode i).type = T_DIR then some (i, name) else none := rfl

theorem resolveParent_cons (more : rest ≠ []) :
    v.resolveParent i (name :: rest) = (v.step i name).bind fun j => v.resolveParent j rest := by
  obtain ⟨next, tail, rfl⟩ := List.exists_cons_of_ne_nil more
  unfold resolveParent
  rw [List.dropLast_cons_of_ne_nil more, resolve_cons, List.getLast?_cons_cons]
  cases (next :: tail).getLast? with
  | none => cases v.step i name <;> rfl
  | some last => cases v.step i name <;> rfl

end Disk

/-- The components that a walk looks up. -/
def walked (parent : Bool) (names : List Path) : List Path := if parent then names.dropLast else names

theorem walked_cons {parent : Bool} {name : Path} {rest : List Path}
    (more : ¬ (parent = true ∧ rest = [])) :
    walked parent (name :: rest) = name :: walked parent rest := by
  cases parent with
  | false => rfl
  | true => exact List.dropLast_cons_of_ne_nil fun none => more ⟨rfl, none⟩

/-- The inode table has an entry for each inode on the way. -/
def State.Seated (s : State) (v : Disk) : Nat → List Path → Prop
  | _, [] => True
  | i, name :: rest => ∀ j, v.step i name = some j → s.Seats i j ∧ s.Seated v j rest

/-- The directories are tables of entries for inodes in use. -/
structure Tree (sb : Superblock) (v : Disk) : Prop where
  whole : ∀ i < sb.ninodes, (v.inode i).type = T_DIR → (v.inode i).size % DIRENT = 0
  typed : ∀ i < sb.ninodes, (v.inode i).type = T_DIR → ∀ name j, v.lookup i name = some j →
    (v.inode j).type ≠ 0
  root : (v.inode ROOTINO).type ≠ 0

/-- What a walk from inode `i` over the components returns. -/
def Answers (v : Disk) (parent : Bool) (i : Nat) (names : List Path) (r : Option (InodePtr × Path))
    (t : State) : Prop :=
  if parent then r.map (fun p => ((t.itable p.1).inum, p.2)) = v.resolveParent i names
  else r.map (fun p => (t.itable p.1).inum) = v.resolve i names

section Walk

variable {sb : Superblock} {v : Disk} {s t : State} {ip : InodePtr} {i : Nat}

theorem answers_none {parent : Bool} {names : List Path} {t : State}
    (parents : parent = true → v.resolveParent i names = none)
    (plain : parent = false → v.resolve i names = none) : Answers v parent i names none t := by
  unfold Answers
  cases parent with
  | false => exact (plain rfl).symm
  | true => exact (parents rfl).symm

/-- A lock that was free is released again. -/
theorem relock {l : InodePtr → Option Pid} (free : l ip = none) (p : Pid) :
    Function.update (Function.update l ip (some p)) ip none = l := by
  rw [Function.update_idem, ← free, Function.update_eq_self]

/-- What a walk leaves, with its result. -/
structure Walked (sb : Superblock) (v : Disk) (s : State) (parent : Bool) (i : Nat)
    (names : List Path) (r : Option (InodePtr × Path)) (t : State) : Prop where
  borrowed : Borrowed sb v s (found r) s.locks t
  live : ∀ p, r = some p → 0 < (t.itable p.1).ref
  typed : ∀ p, r = some p → (v.inode (t.itable p.1).inum).type ≠ 0
  seated : s.Seated v i (walked parent names)
  answers : Answers v parent i names r t

/-- The first component is looked up, and the walk goes on. -/
theorem Walked.cons {parent : Bool} {j : Nat} {name : Path} {rest : List Path}
    {r : Option (InodePtr × Path)} (more : ¬ (parent = true ∧ rest = []))
    (next : v.step i name = some j) (seats : s.Seats i j) (h : Walked sb v s parent j rest r t) :
    Walked sb v s parent i (name :: rest) r t := by
  refine ⟨h.borrowed, h.live, h.typed, ?_, ?_⟩
  · rw [walked_cons more]
    intro k is
    rw [next] at is
    cases is
    exact ⟨seats, h.seated⟩
  · have answers := h.answers
    unfold Answers at answers ⊢
    cases parent with
    | false =>
      rw [if_neg Bool.false_ne_true] at answers ⊢
      rw [answers, Disk.resolve_cons, next, Option.bind_some]
    | true =>
      rw [if_pos rfl] at answers ⊢
      rw [answers, Disk.resolveParent_cons fun none => more ⟨rfl, none⟩, next, Option.bind_some]

/-- A walk that ends early has looked up a component in vain. -/
theorem Walked.early {parent : Bool} {name : Path} {rest : List Path}
    (none' : v.step i name = none) (other : parent = true → rest = [] → (v.inode i).type ≠ T_DIR)
    (h : Borrowed sb v s 0 s.locks t) : Walked sb v s parent i (name :: rest) none t := by
  refine ⟨h, (fun _ is => nomatch is), (fun _ is => nomatch is), ?_,
    answers_none (fun yes => ?_) fun _ => ?_⟩
  · by_cases last : parent = true ∧ rest = []
    · obtain ⟨rfl, rfl⟩ := last
      trivial
    · rw [walked_cons last]
      intro j is
      rw [none'] at is
      cases is
  · by_cases last : rest = []
    · subst last
      rw [Disk.resolveParent_last, if_neg (other yes rfl)]
    · rw [Disk.resolveParent_cons last, none', Option.bind_none]
  · rw [Disk.resolve_cons, none', Option.bind_none]

theorem namexFrom_resolves (tidy : NoOrphan sb s v) (tree : Tree sb v) (parent : Bool) (fuel : Nat)
    (h : Borrowed sb v s (one ip) s.locks t) (live : 0 < (t.itable ip).ref)
    (inum : (t.itable ip).inum = i) (typed : (v.inode i).type ≠ 0) (path name : Path)
    (enough : path.length < fuel) :
    wp (namexFrom sb parent fuel ip path name) (Walked sb v s parent i (components path))
      (fun e _ => (e = noInodes ∧ ¬ s.Seated v i (walked parent (components path))) ∨
        Stuck s.locks s.current e) t := by
  induction fuel generalizing ip t i path name with
  | zero => exact absurd enough (Nat.not_lt_zero _)
  | succ fuel ih =>
    have mine : 1 ≤ one ip ip := by rw [one_self]
    unfold namexFrom
    split
    · next none' =>
      rw [components_none none']
      split
      · next isParent =>
        rw [wp_bind]
        refine wp_mono (iput_borrowed h tidy mine live) (fun _ u ⟨dropped, _⟩ => ?_) fun _ _ never =>
          never.elim
        rw [sub_self] at dropped
        refine ⟨dropped, (fun _ is => nomatch is), (fun _ is => nomatch is), ?_,
          answers_none (fun _ => rfl) fun no => ?_⟩
        · rw [isParent]
          trivial
        · rw [isParent] at no
          cases no
      · next plain =>
        have no : parent = false := by simpa using plain
        subst no
        refine ⟨h, fun p is => ?_, fun p is => ?_, trivial, ?_⟩
        · cases is
          exact live
        · cases is
          rw [inum]
          exact typed
        show some (t.itable ip).inum = _
        rw [inum]
        rfl
    · next first rest next =>
      obtain ⟨is, ended⟩ := components_some next
      rw [is]
      have shorter := skipelem_length next
      rw [wp_bind]
      refine wp_mono (ilock_borrowed h live (inum.symm ▸ typed)) (fun _ u ⟨free, locked, step, ready⟩ => ?_)
        fun e _ stuck => .inr stuck
      rw [wp_bind, wp_get]
      have inum' : (u.itable ip).inum = i := (step.onward.inum ip live).trans inum
      have slot := step.good.cached.slot ip ready.live
      have inside : i < sb.ninodes := inum' ▸ slot.inside
      have type : (u.itable ip).type = (v.inode i).type := by rw [slot.synced ready.valid, inum']
      have held : Function.update s.locks ip (some s.current) ip = some s.current :=
        Function.update_self ..
      have drop : v.step i first = none →
          (parent = true → components rest = [] → (v.inode i).type ≠ T_DIR) →
          wp (do iunlockput sb ip; pure none : F (Option (InodePtr × Path)))
            (Walked sb v s parent i (first :: components rest))
            (fun e _ => (e = noInodes ∧ ¬ s.Seated v i (walked parent (first :: components rest))) ∨
              Stuck s.locks s.current e) u := by
        intro missing other
        rw [wp_bind]
        refine wp_mono (iunlockput_borrowed locked tidy mine ready.live held)
          (fun _ w ⟨dropped, _⟩ => ?_) fun _ _ never => never.elim
        rw [sub_self, relock free] at dropped
        exact .early missing other dropped
      rw [type]
      split
      · next other => exact drop (Disk.step_none other) fun _ _ => other
      · next dir' =>
        have dir : (v.inode i).type = T_DIR := not_not.mp dir'
        split
        · next last =>
          obtain ⟨rfl, rfl⟩ := last
          rw [wp_bind]
          refine wp_mono (iunlock_borrowed locked ready.live held) (fun _ w ⟨unlocked, relocked⟩ => ?_)
            fun _ _ never => never.elim
          rw [relock free] at unlocked
          refine ⟨unlocked, fun p is => ?_, fun p is => ?_, trivial, ?_⟩
          · cases is
            rw [relocked.refs]
            exact ready.live
          · cases is
            rw [relocked.inum, inum']
            exact typed
          show some ((w.itable ip).inum, first) = v.resolveParent i [first]
          rw [Disk.resolveParent_last, if_pos dir, relocked.inum, inum']
        · next more =>
          have more' : ¬ (parent = true ∧ components rest = []) := fun ⟨yes, none'⟩ =>
            more ⟨yes, ended.mp none'⟩
          have seat := fun {j : Nat} => locked.seat_iff (j := j) ready.live inum'
          rw [wp_bind]
          refine wp_mono (dirlookup_borrowed locked ready inum' dir (tree.whole i inside dir) first)
            (fun r w post => ?_) ?_
          · rcases post with ⟨rfl, rfl, missing⟩ | ⟨jp, off, j, rfl, there, within, seated, took, onto, got⟩
            · exact drop (by rw [Disk.step_dir dir, missing]) fun yes none' => absurd ⟨yes, none'⟩ more'
            · dsimp only
              rw [wp_bind]
              refine wp_mono (iunlockput_borrowed took tidy ?_ (onto.onward.live ready.live) held)
                (fun _ x ⟨dropped, inums⟩ => ?_) fun _ _ never => never.elim
              · have none' := one_nonneg jp ip
                rw [Pi.add_apply]
                omega
              rw [relock free, add_sub_cancel_left] at dropped
              have found' : v.step i first = some j := by rw [Disk.step_dir dir, there]
              refine wp_mono (ih dropped ?_ ?_ (tree.typed i inside dir first j there) rest first
                (by omega)) (fun r y walked => ?_) fun e _ stop => ?_
              · have before := h.refs ip
                have after := dropped.refs jp
                have now := took.refs jp
                have live' := got.live
                rw [one_self] at before after
                rw [Pi.add_apply, one_self] at now
                by_cases this : jp = ip
                · subst this
                  omega
                · rw [one_other this] at now
                  omega
              · rw [inums, got.inum]
              · exact walked.cons more' found' (seat.mp seated)
              · refine stop.imp_left fun ⟨reason, unseated⟩ => ⟨reason, fun all => unseated ?_⟩
                rw [walked_cons more'] at all
                exact (all j found').2
          · rintro e _ ⟨reason, j, there, unseated⟩
            refine .inl ⟨reason, fun all => unseated ?_⟩
            rw [walked_cons more'] at all
            exact seat.mpr (all j (by rw [Disk.step_dir dir, there])).1

/-- A walk can begin: at the root, or in a working directory that is in use. -/
def State.Stands (s : State) (v : Disk) (path : Path) : Prop :=
  path.head? = some SLASH ∨ ∃ ip, (s.procs s.current).cwd = some ip ∧ 0 < (s.itable ip).ref ∧
    (v.inode (s.itable ip).inum).type ≠ 0

/-- The inode table has an entry for each inode of a walk, the first included. -/
def State.Boards (s : State) (v : Disk) (path : Path) (names : List Path) : Prop :=
  (path.head? = some SLASH → s.Seat ROOTINO) ∧ ∀ i, s.origin path = some i → s.Seated v i names

/-- What stops a walk: a full inode table, or a lock that is held. -/
def State.Stops (s : State) (v : Disk) (path : Path) (names : List Path) (e : Halt) : Prop :=
  (e = noInodes ∧ ¬ s.Boards v path names) ∨ Stuck s.locks s.current e

theorem namex_resolves (valid : sb.Valid) (h : Good sb s v) (tidy : NoOrphan sb s v)
    (tree : Tree sb v) (parent : Bool) (path : Path) (start : s.Stands v path) :
    ∃ i, s.origin path = some i ∧
      wp (namex sb parent path) (fun r t => Walked sb v s parent i (components path) r t ∧
          s.Boards v path (walked parent (components path)))
        (fun e _ => s.Stops v path (walked parent (components path)) e) s := by
  have walk : ∀ {ip t i}, Borrowed sb v s (one ip) s.locks t → 0 < (t.itable ip).ref →
      (t.itable ip).inum = i → (v.inode i).type ≠ 0 → s.origin path = some i →
      (path.head? = some SLASH → s.Seat ROOTINO) →
      wp (namexFrom sb parent (path.length + 1) ip path []) (fun r t =>
          Walked sb v s parent i (components path) r t ∧
          s.Boards v path (walked parent (components path)))
        (fun e _ => s.Stops v path (walked parent (components path)) e) t := by
    intro ip t i borrowed live inum typed origin root
    refine wp_mono (namexFrom_resolves tidy tree parent _ borrowed live inum typed path []
      (Nat.lt_succ_self _)) (fun r u walked => ⟨walked, root, fun j is => ?_⟩) fun e _ stop => ?_
    · rw [origin] at is
      cases is
      exact walked.seated
    · exact stop.imp_left fun ⟨reason, unseated⟩ => ⟨reason, fun boards => unseated (boards.2 i origin)⟩
  by_cases absolute : path.head? = some SLASH
  · refine ⟨ROOTINO, if_pos absolute, ?_⟩
    unfold namex
    rw [wp_bind, wp_get, if_pos absolute, wp_bind]
    refine wp_mono (iget_borrowed (.start h) valid.root) (fun ip t ⟨borrowed, _, got, seat⟩ => ?_)
      fun e _ ⟨reason, unseated⟩ => .inl ⟨reason, fun boards => unseated (boards.1 absolute)⟩
    rw [zero_add] at borrowed
    exact walk borrowed got.live got.inum tree.root (if_pos absolute) fun _ => seat
  · obtain ⟨ip, is, live, typed⟩ := start.resolve_left absolute
    have origin : s.origin path = some (s.itable ip).inum := by
      rw [State.origin, if_neg absolute, is]
      rfl
    refine ⟨_, origin, ?_⟩
    unfold namex
    rw [wp_bind, wp_get, if_neg absolute, is]
    dsimp only
    rw [wp_bind]
    refine wp_mono (idup_borrowed (.start h) live) ?_ fun _ _ never => never.elim
    rintro _ t ⟨rfl, borrowed, live', inum⟩
    rw [zero_add] at borrowed
    exact walk borrowed live' inum typed origin fun yes => absurd yes absolute

/-- What `namei` borrows and returns. -/
structure Named (sb : Superblock) (v : Disk) (s : State) (names : List Path) (i : Nat)
    (r : Option InodePtr) (t : State) : Prop where
  borrowed : Borrowed sb v s (given r) s.locks t
  live : ∀ ip, r = some ip → 0 < (t.itable ip).ref
  typed : ∀ ip, r = some ip → (v.inode (t.itable ip).inum).type ≠ 0
  answers : r.map (fun ip => (t.itable ip).inum) = v.resolve i names

theorem namei_resolves (valid : sb.Valid) (h : Good sb s v) (tidy : NoOrphan sb s v)
    (tree : Tree sb v) (path : Path) (start : s.Stands v path) :
    ∃ i, s.origin path = some i ∧
      wp (namei sb path)
        (fun r t => Named sb v s (components path) i r t ∧ s.Boards v path (components path))
        (fun e _ => s.Stops v path (components path) e) s := by
  obtain ⟨i, origin, plain⟩ := namex_resolves valid h tidy tree false path start
  refine ⟨i, origin, ?_⟩
  unfold namei
  rw [wp_bind]
  refine wp_conseq plain fun r t ⟨walked, boards⟩ => ⟨⟨walked.borrowed, ?_, ?_, ?_⟩, boards⟩
  · rintro ip is
    obtain ⟨p, rfl, rfl⟩ := Option.map_eq_some_iff.mp is
    exact walked.live p rfl
  · rintro ip is
    obtain ⟨p, rfl, rfl⟩ := Option.map_eq_some_iff.mp is
    exact walked.typed p rfl
  · have answers : r.map (fun p => (t.itable p.1).inum) = _ := walked.answers
    rw [Option.map_map]
    exact answers

end Walk

/-! ### In the file system that `mkfs` makes -/

theorem image_tree : Tree fsImg imageDisk := by
  refine ⟨fun i inside dir => (image_tables i inside dir).whole, fun i inside dir name j there => ?_,
    by decide⟩
  have root : i = ROOTINO := by
    by_contra other
    have free : imageDisk.inode i = freshDinode 0 := if_neg other
    rw [free] at dir
    exact absurd dir (by decide)
  subst root
  have only : selfNaming imageDisk = true := by decide +kernel
  obtain ⟨k, less, is⟩ := Slots.lookup_some there
  have this := List.all_eq_true.mp only k (List.mem_range.mpr less)
  rw [is] at this
  have same : j = ROOTINO := of_decide_eq_true this
  rw [same]
  decide

/-- The path `//../`. -/
def pathUp : Path := [SLASH, SLASH, 46, 46, SLASH]

/-- Every entry of the inode table is in use, and none is for the root directory. -/
def crowded : State :=
  { booted with itable := fun ip => ⟨freshDinode 0, ROOTDEV, ip + 2, 1, false, none⟩ }

theorem crowded_good : Good fsImg crowded imageDisk := by
  refine ⟨⟨image_shows rfl, image_own, fun i _ => image_solid i, ⟨fun ip _ => ?_, fun ip jp _ _ same => ?_⟩⟩,
    image_entries⟩
  · refine ⟨rfl, ?_, fun read => absurd read Bool.false_ne_true,
      fun read => absurd read Bool.false_ne_true⟩
    have small : ip.val < 50 := ip.isLt
    show ip.val + 2 < 200
    omega
  · have number : ip.val + 2 = jp.val + 2 := same
    exact Fin.ext (by omega)

end Xv6Lab.Fs

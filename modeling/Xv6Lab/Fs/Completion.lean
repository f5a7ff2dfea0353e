import Xv6Lab.Fs.Exhaustion

/-! What `create` does where something has run out.  Between calls, when nobody holds a lock and the
log is empty, it stops only for want of an entry of the inode table, of a free inode or of room in the
directory; where it returns 0 it leaves everything as it was. -/

namespace Xv6Lab.Fs

open Bytes Exec

/-- Nobody is in the middle of an operation. -/
structure Idle (s : State) : Prop where
  outstanding : s.outstanding = 0
  lh : s.lh = []
  unlocked : ∀ ip, (s.itable ip).lock = none

/-- The directory and the name that a path leads to. -/
def State.place (s : State) (v : Disk) (path : Path) : Option (Nat × Path) :=
  (s.origin path).bind fun i => v.resolveParent i (components path)

/-- The call has found or made the inode that its directory has under the name, or it has returned
0 and changed nothing. -/
def Completes (sb : Superblock) (s : State) (v : Disk) (path : Path) (r : Option InodePtr)
    (t : State) : Prop :=
  match r with
  | some ip => ∃ d name, s.place v path = some (d, name) ∧ ((t.disk sb).inode d).type = T_DIR ∧
      (t.disk sb).lookup d name = some (t.itable ip).inum ∧ 0 < (t.itable ip).ref
  | none => t.blocks = s.blocks ∧ ∀ ip, (t.itable ip).ref = (s.itable ip).ref ∧
      (t.itable ip).lock = (s.itable ip).lock

/-- Nothing that `create` needs has run out. -/
def Creatable (sb : Superblock) (s : State) (v : Disk) (path : Path) (type : Int16) : Prop :=
  s.Boards v path (components path).dropLast ∧ ∀ d name, s.place v path = some (d, name) →
    (∃ j, v.lookup d name = some j ∧ s.Seats d j) ∨
    (v.lookup d name = none ∧ type ≠ 0 ∧ ¬ Full sb v d ∧
      (∃ i, v.firstFree sb = some i ∧ s.Seats d i) ∧
      (type = T_DIR → (v.inode d).nlink = -1 → s.Has d))

/-- The path leads to no directory, or to an inode that `create` does not open. -/
def Refuses (s : State) (v : Disk) (path : Path) (type : Int16) : Prop :=
  ∀ d name, s.place v path = some (d, name) →
    ∃ j, v.lookup d name = some j ∧ ¬ (type = T_FILE ∧ (v.inode j).type = T_FILE)

/-- The operation has ended, and the inode that the call returns is not locked. -/
structure Ended (s : State) (v : Disk) (path : Path) (type : Int16) (r : Option InodePtr)
    (t : State) : Prop where
  log : t.outstanding = 0 ∧ t.lh = []
  files : SameFiles s t
  unlocked : ∀ ip, r = some ip → (t.itable ip).lock = none
  refuses : r = none ↔ Refuses s v path type

section Create

variable {sb : Superblock} {dp ip : InodePtr} {s t : State} {v : Disk} {l : InodePtr → Option Pid}

/-- The first operation of a transaction begins. -/
theorem beginOp_run (outstanding : s.outstanding = 0) (empty : s.lh = []) :
    beginOp s = .ok () (s.setLog 1 []) := by
  unfold beginOp
  rw [bind_get, outstanding, empty, if_neg (by decide)]
  rfl

theorem seated_setLog (n : Nat) (lh : List Nat) (i : Nat) (names : List Path) :
    (s.setLog n lh).Seated v i names ↔ s.Seated v i names := by
  induction names generalizing i with
  | nil => exact .rfl
  | cons name rest ih =>
    exact forall_congr' fun j => imp_congr_right fun _ => and_congr .rfl (ih j)

theorem boards_setLog (n : Nat) (lh : List Nat) (path : Path) (names : List Path) :
    (s.setLog n lh).Boards v path names ↔ s.Boards v path names :=
  and_congr .rfl (forall_congr' fun i => imp_congr_right fun _ => seated_setLog n lh i names)

theorem resolveParent_dir {i d : Nat} {names : List Path} {name : Path}
    (is : v.resolveParent i names = some (d, name)) : (v.inode d).type = T_DIR := by
  unfold Disk.resolveParent at is
  obtain ⟨last, -, rest⟩ := Option.bind_eq_some_iff.mp is
  obtain ⟨d', -, rest⟩ := Option.bind_eq_some_iff.mp rest
  split at rest
  · next dir =>
    cases rest
    exact dir
  · cases rest

/-- `create` finds an inode under the name: it returns the inode, or gives everything back. -/
theorem createExisting_borrowed (tidy : NoOrphan sb s v) (free : ∀ jp, l jp = none)
    (h : Borrowed sb v s (one dp + one ip) (Function.update l dp (some s.current)) t)
    (live : 0 < (t.itable dp).ref) (counted : 0 ≤ (s.itable ip).ref)
    (typed : (v.inode (t.itable ip).inum).type ≠ 0) (type : Int16) :
    wp (createExisting sb dp ip type) (fun r u => ∃ w, endOp w = .ok () u ∧
        Borrowed sb v s (given r) l w ∧ (∀ jp, r = some jp → jp = ip ∧ 0 < (w.itable ip).ref ∧
          (w.itable ip).inum = (t.itable ip).inum) ∧
        (r = none ↔ ¬ (type = T_FILE ∧ (v.inode (t.itable ip).inum).type = T_FILE)))
      (fun _ _ => False) t := by
  have held : ∀ jp, Function.update l jp (some s.current) jp = some s.current := fun jp =>
    Function.update_self ..
  unfold createExisting
  rw [wp_bind]
  have mine : 1 ≤ (one dp + one ip) dp := by
    have more := one_nonneg ip dp
    rw [Pi.add_apply, one_self]
    omega
  refine wp_mono (iunlockput_borrowed h tidy mine live (held dp)) (fun _ u ⟨dropped, inums⟩ => ?_)
    fun _ _ never => never
  rw [add_sub_cancel_left, relock (free dp)] at dropped
  have live' : 0 < (u.itable ip).ref := by
    have count := dropped.refs ip
    rw [one_self] at count
    omega
  rw [wp_bind]
  refine wp_mono (ilock_borrowed dropped live' (by rw [inums]; exact typed))
    (fun _ w ⟨_, locked, step, ready⟩ => ?_) ?_
  swap
  · rintro _ _ ⟨jp, q, is, -⟩
    rw [free jp] at is
    cases is
  have kind : (w.itable ip).type = (v.inode (t.itable ip).inum).type := by
    rw [(step.good.cached.slot ip ready.live).synced ready.valid, step.onward.inum ip live', inums]
  rw [wp_bind, wp_get, kind]
  split
  · next both =>
    rw [wp_bind]
    refine wp_mono (iunlock_borrowed locked ready.live (held ip)) (fun _ x ⟨unlocked, relocked⟩ => ?_)
      fun _ _ never => never
    rw [relock (free ip)] at unlocked
    refine ⟨x, rfl, unlocked, fun jp is => ⟨(Option.some.inj is).symm, ?_, ?_⟩,
      iff_of_false (Option.some_ne_none _) (not_not.mpr both)⟩
    · rw [relocked.refs]
      exact ready.live
    · rw [relocked.inum, step.onward.inum ip live', inums]
  · next other =>
    rw [wp_bind]
    refine wp_mono (iunlockput_borrowed locked tidy one_self.ge ready.live (held ip))
      (fun _ x ⟨dropped', _⟩ => ?_) fun _ _ never => never
    rw [sub_self, relock (free ip)] at dropped'
    exact ⟨x, rfl, dropped', (fun jp is => nomatch is), iff_of_true rfl other⟩

/-- The end of an operation that has changed the inode table only. -/
theorem Borrowed.ended {d : InodePtr → Int} (h : Borrowed sb v (s.setLog 1 []) d l t) :
    endOp t = .ok () (t.setLog 0 []) ∧ t.blocks = s.blocks ∧ SameFiles s (t.setLog 0 []) := by
  obtain ⟨itable, rfl⟩ := h.table
  exact ⟨rfl, rfl, rfl, rfl, rfl⟩

/-- What is on the disk is what the state shows. -/
theorem Good.disk_lists (h : Good sb s v) {d j : Nat} {name : Path} (inside : d < sb.ninodes)
    (dir : (v.inode d).type = T_DIR) (there : v.lookup d name = some j) :
    ((s.disk sb).inode d).type = T_DIR ∧ (s.disk sb).lookup d name = some j := by
  have same := h.toConsistent.disk_alike inside
  refine ⟨same.type.trans dir, ?_⟩
  rw [same.toKept.lookup (h.solid d inside).size, there]

theorem place_dir {d : Nat} {name path : Path} (at' : s.place v path = some (d, name)) :
    (v.inode d).type = T_DIR := by
  obtain ⟨i, -, is⟩ := Option.bind_eq_some_iff.mp at'
  exact resolveParent_dir is

/-- The walk that an operation on a path begins with: it finds the place of the path, unless the
table has no room for the inodes on the way. -/
theorem namex_place (valid : sb.Valid) (h : Good sb s v) (tidy : NoOrphan sb s v) (tree : Tree sb v)
    (idle : Idle s) (path : Path) (start : s.Stands v path) :
    wp (namex sb true path) (fun r t => ∃ i,
        Walked sb v (s.setLog 1 []) true i (components path) r t ∧
        r.map (fun p => ((t.itable p.1).inum, p.2)) = s.place v path ∧
        s.Boards v path (components path).dropLast)
      (fun e _ => e = noInodes ∧ ¬ s.Boards v path (components path).dropLast) (s.setLog 1 []) := by
  have good : Good sb (s.setLog 1 []) v := h.setLog 1 []
  obtain ⟨i, origin, walk⟩ := namex_resolves valid good tidy tree true path start
  have place : s.place v path = v.resolveParent i (components path) := by
    have origin' : s.origin path = some i := origin
    rw [State.place, origin', Option.bind_some]
  refine wp_mono walk (fun r t ⟨walked, boards⟩ => ⟨i, walked, walked.answers.trans place.symm,
    (boards_setLog 1 [] path _).mp boards⟩) fun e _ stop => ?_
  rcases stop with ⟨reason, unboarded⟩ | ⟨ip, q, held, -⟩
  · exact ⟨reason, fun boards => unboarded ((boards_setLog 1 [] path _).mpr boards)⟩
  · have free : (s.setLog 1 []).locks ip = none := idle.unlocked ip
    rw [free] at held
    cases held

theorem create_wp (valid : sb.Valid) (few : sb.ninodes ≤ 65536) (h : Ordered sb s v)
    (tree : Tree sb v) (idle : Idle s) (path : Path) (type major minor : Int16)
    (start : s.Stands v path) :
    wp (create sb path type major minor)
      (fun r t => (Completes sb s v path r t ↔ Creatable sb s v path type) ∧
        (Creatable sb s v path type → Ended s v path type r t) ∧
        (type ≠ T_DIR → Creatable sb s v path type))
      (fun _ _ => ¬ Creatable sb s v path type) s := by
  have begun : beginOp s = .ok () (s.setLog 1 []) := beginOp_run idle.outstanding idle.lh
  set s' := s.setLog 1 [] with sIs
  have good : Good sb s' v := h.good.setLog 1 []
  have tidy : NoOrphan sb s' v := h.tidy
  have free : ∀ jp, s'.locks jp = none := idle.unlocked
  unfold create
  rw [wp_goes (bind_ok begun), wp_bind]
  refine wp_mono (namex_place valid h.good h.tidy tree idle path start)
    (fun r t ⟨i, walked, answers, boards'⟩ => ?_)
    fun e _ ⟨_, unboarded⟩ creatable => unboarded creatable.1
  rcases r with _ | ⟨dp, name⟩
  · -- the path leads to no directory
    obtain ⟨done, blocks, files⟩ := walked.borrowed.ended
    dsimp only
    rw [wp_goes (bind_ok done)]
    have creatable : Creatable sb s v path type := by
      refine ⟨boards', fun d name is => ?_⟩
      rw [is] at answers
      cases answers
    refine ⟨iff_of_true ⟨blocks, fun ip => ⟨?_, walked.borrowed.locks ip⟩⟩ creatable,
      fun _ => ⟨⟨rfl, rfl⟩, files, (fun _ is => nomatch is), iff_of_true rfl fun d name is => ?_⟩,
      fun _ => creatable⟩
    · exact (walked.borrowed.refs ip).trans (add_zero _)
    · rw [is] at answers
      cases answers
  set d := (t.itable dp).inum with dIs
  have at' : s.place v path = some (d, name) := answers.symm
  have dir : (v.inode d).type = T_DIR := place_dir at'
  have live := walked.live _ rfl
  have borrowed : Borrowed sb v s' (one dp) s'.locks t := walked.borrowed
  dsimp only
  rw [wp_bind]
  refine wp_mono (ilock_borrowed borrowed live (by rw [← dIs, dir]; decide))
    (fun _ u ⟨_, locked, step, ready⟩ => ?_) ?_
  swap
  · rintro _ _ ⟨jp, q, is, -⟩
    rw [free] at is
    cases is
  have inum : (u.itable dp).inum = d := step.onward.inum dp live
  have inside : d < sb.ninodes := inum ▸ (step.good.cached.slot dp ready.live).inside
  have seat : ∀ j, u.Seat j ↔ s.Seats d j := fun j => locked.seat_iff ready.live inum
  rw [wp_bind]
  refine wp_mono (dirlookup_borrowed locked ready inum dir (h.tables d inside dir).whole name)
    (fun r w post => ?_) ?_
  swap
  · rintro _ _ ⟨-, j, there, unseated⟩ creatable
    rcases creatable.2 d name at' with ⟨j', there', seats⟩ | ⟨missing, -⟩
    · rw [there] at there'
      cases there'
      exact unseated ((seat j).mpr seats)
    · rw [there] at missing
      cases missing
  rcases post with ⟨rfl, same, missing⟩ | ⟨ip, off, j, rfl, there, within, seated, took, onto, got⟩
  · -- the name is new
    obtain rfl := same.symm
    have mine : (u.itable dp).lock = some u.current := by
      rw [locked.locks, Function.update_self, locked.current]
    have others : ∀ jp ≠ dp, (u.itable jp).lock = none := fun jp other => by
      rw [locked.locks, Function.update_of_ne other]
      exact free jp
    have log : u.outstanding = 1 ∧ u.lh = [] := by
      obtain ⟨itable, rfl⟩ := locked.table
      exact ⟨rfl, rfl⟩
    have ordered : Ordered sb u v := ⟨step.good, locked.tidy tidy, h.tables⟩
    have count := locked.refs dp
    rw [one_self] at count
    by_cases wraps : type = T_DIR → (v.inode d).nlink = -1 → s.Has d
    · have held : type = T_DIR → (v.inode (u.itable dp).inum).nlink = -1 → 2 ≤ (u.itable dp).ref := by
        intro isDir last
        rw [inum] at last
        obtain ⟨jp, used, is⟩ := wraps isDir last
        have same : jp = dp := by
          apply step.good.cached.unique jp dp (locked.onward.live used) ready.live
          rw [locked.onward.inum jp used, inum]
          exact is
        subst same
        have one : (s'.itable jp).ref = (s.itable jp).ref := rfl
        omega
      have spare := locked.spare tidy one_self.ge ready.live
      have made := createNew_wp valid few major minor ordered ready spare
        (by rw [inum]; exact dir) name (by rw [inum]; exact missing) held log.1 log.2 mine others
      rw [inum] at made
      refine wp_mono made ?_ fun _ _ never creatable => never ?_
      · rintro _ x ⟨makes, ip, rfl, listed⟩
        obtain ⟨w, good', dir', there⟩ := listed.listed
        have onDisk := good'.disk_lists inside dir' there
        have creatable : Creatable sb s v path type := by
          refine ⟨boards', fun d' name' is => ?_⟩
          rw [at'] at is
          cases is
          obtain ⟨typed, notFull, j, first, seated⟩ := makes
          exact .inr ⟨missing, typed, notFull, ⟨j, first, (seat j).mp seated⟩, wraps⟩
        refine ⟨iff_of_true ⟨d, name, at', onDisk.1, onDisk.2, listed.live⟩ creatable,
          fun _ => ⟨listed.log, ?_, fun jp is => ?_, iff_of_false (Option.some_ne_none _) ?_⟩,
          fun _ => creatable⟩
        · obtain ⟨itable, rfl⟩ := locked.table
          exact ⟨listed.files.ftable, listed.files.procs, listed.files.current⟩
        · cases is
          exact listed.unlocked
        · intro refused
          obtain ⟨j, there, -⟩ := refused d name at'
          rw [missing] at there
          cases there
      · rcases creatable.2 d name at' with ⟨j, there, -⟩ | ⟨-, typed, notFull, ⟨j, first, seats⟩, -⟩
        · rw [missing] at there
          cases there
        · exact ⟨typed, notFull, j, first, (seat j).mpr seats⟩
    · obtain ⟨isDir, rest⟩ := Classical.not_imp.mp wraps
      obtain ⟨last, alone⟩ := Classical.not_imp.mp rest
      subst isDir
      have never : ¬ Creatable sb s v path T_DIR := by
        intro creatable
        rcases creatable.2 d name at' with ⟨j, there, -⟩ | ⟨-, -, -, -, shared⟩
        · rw [missing] at there
          cases there
        · exact alone (shared rfl last)
      have single : (u.itable dp).ref = 1 := by
        have used := ready.live
        have unused : ¬ 0 < (s'.itable dp).ref := fun used => alone ⟨dp, used, by
          rw [← inum, locked.onward.inum dp used]
          rfl⟩
        omega
      have freed := createNew_frees valid few major minor ordered ready
        (by rw [inum]; exact dir) name (by rw [inum]; exact last) single log.1 log.2 mine others
      rw [inum] at freed
      refine wp_mono freed (fun r x ⟨some', v', good', gone⟩ => ?_) fun _ _ _ => never
      refine ⟨iff_of_false (fun completes => ?_) never, fun creatable => absurd creatable never,
        fun other => absurd rfl other⟩
      rcases r with _ | ip
      · exact some' rfl
      · obtain ⟨d', name', is, dir', -⟩ := completes
        rw [at'] at is
        cases is
        rw [(good'.toConsistent.disk_alike inside).type, gone] at dir'
        exact absurd dir' (by decide)
  · have creatable : Creatable sb s v path type := by
      refine ⟨boards', fun d' name' is => ?_⟩
      rw [at'] at is
      cases is
      exact .inl ⟨j, there, (seat j).mp seated⟩
    have counted : 0 ≤ (s'.itable ip).ref := by
      have one := took.refs ip
      have two := locked.refs dp
      have used := ready.live
      have used' := got.live
      rw [one_self] at two
      rw [Pi.add_apply, one_self] at one
      by_cases this : ip = dp
      · subst this
        omega
      · rw [one_other this] at one
        omega
    have typed : (v.inode (w.itable ip).inum).type ≠ 0 := by
      rw [got.inum]
      exact tree.typed d inside dir name j there
    refine wp_mono (createExisting_borrowed tidy free took (onto.onward.live ready.live) counted typed
      type) ?_ fun _ _ never => never.elim
    rintro r x ⟨y, done, back, which, refused⟩
    obtain ⟨done', blocks, files⟩ := back.ended
    rw [done'] at done
    cases done
    refine ⟨iff_of_true ?_ creatable, fun _ => ⟨⟨rfl, rfl⟩, files, fun jp _ => ?_, refused.trans ?_⟩,
      fun _ => creatable⟩
    · rcases r with _ | jp
      · exact ⟨blocks, fun jp => ⟨(back.refs jp).trans (add_zero _), back.locks jp⟩⟩
      · obtain ⟨rfl, live', inum'⟩ := which jp rfl
        have onDisk := (back.good.setLog 0 []).disk_lists inside dir there
        refine ⟨d, name, at', onDisk.1, ?_, live'⟩
        rw [onDisk.2, ← got.inum, ← inum']
        rfl
    · exact (back.locks jp).trans (free jp)
    · rw [got.inum]
      constructor
      · intro other d' name' is
        rw [at'] at is
        cases is
        exact ⟨j, there, other⟩
      · intro refuses
        obtain ⟨j', there', other⟩ := refuses d name at'
        rw [there] at there'
        cases there'
        exact other

/-- `create` completes, or returns 0 and changes nothing, exactly where nothing that it needs has run
out. -/
theorem create_completes_iff (valid : sb.Valid) (few : sb.ninodes ≤ 65536) (h : Ordered sb s v)
    (tree : Tree sb v) (idle : Idle s) (path : Path) (type major minor : Int16)
    (start : s.Stands v path) :
    wp (create sb path type major minor) (Completes sb s v path) (fun _ _ => False) s ↔
      Creatable sb s v path type :=
  wp_decides (wp_mono (create_wp valid few h tree idle path type major minor start)
    (fun _ _ both => both.1) fun _ _ never => iff_of_false not_false never)

end Create

/-! ### On the disk of `mkfs` -/

theorem booted_idle : Idle booted := by
  refine ⟨rfl, rfl, fun ip => ?_⟩
  show (if ip = 0 then _ else _ : Inode).lock = none
  split <;> rfl

theorem create_completes_booted :
    wp (create fsImg pathA T_FILE 0 0) (Completes fsImg booted imageDisk pathA) (fun _ _ => False)
      booted ↔ Creatable fsImg booted imageDisk pathA T_FILE :=
  create_completes_iff fsImg_valid (by decide) booted_ordered image_tree booted_idle pathA T_FILE 0 0
    (.inl rfl)

/-- An empty file. -/
def emptyFile : Dinode := ⟨T_FILE, 0, 0, 1, 0, fun _ => 0⟩

/-- A root directory with 200 entries. -/
def stuffedRoot : Dinode := ⟨T_DIR, 0, 0, 1, 3200, fun k => if k.val < 4 then 47 + k else 0⟩

/-- The names of its entries: `.`, `..`, `002` and so on. -/
def stuffedName (k : Nat) : Path :=
  if k < 2 then List.replicate (k + 1) 46
  else [k / 100, k / 10 % 10, k % 10].map fun digit => UInt8.ofNat (48 + digit)

/-- Byte `j` of entry `k`. -/
def stuffedByte (k j : Nat) : UInt8 :=
  if j = 0 then UInt8.ofNat (max k 1) else if j = 1 then 0 else (stuffedName k).getD (j - 2) 0

/-- A block of inodes that are empty files. -/
def filesBlock (o : Nat) : UInt8 := if o % 64 = 0 then 2 else if o % 64 = 6 then 1 else 0

/-- The blocks of a file system in which every inode is taken, 198 of them by empty files in the root
directory. -/
def stuffedImage (b : Nat) : Block :=
  if b = 33 then fun o =>
    if o < 64 then 0 else if o < 128 then setDinode (fun _ => 0) 64 stuffedRoot o else filesBlock o
  else if b < 46 then filesBlock
  else if b = 46 then fun o => if o < 6 then 0xff else if o = 6 then 7 else 0
  else if b < 51 then fun o => stuffedByte (64 * (b - 47) + o / 16) (o % 16)
  else fun _ => 0

def stuffedDisk : Disk where
  used b := decide (b < 51)
  inode i := if i = ROOTINO then stuffedRoot else if i = 0 then freshDinode 0 else emptyFile
  data := stuffedImage

def stuffed : State := { booted with blocks := stuffedImage }

theorem filesBlock_inode : ∀ k : Fin 16, getShort filesBlock (64 * k) = 2 ∧
    getShort filesBlock (64 * k + 2) = 0 ∧ getShort filesBlock (64 * k + 4) = 0 ∧
    getShort filesBlock (64 * k + 6) = 1 ∧ le filesBlock (64 * k + 8) 4 = 0 ∧
    ∀ j : Fin 13, le filesBlock (64 * k + 12 + 4 * j) 4 = 0 := by
  decide +kernel

theorem stuffed_bits :
    ((List.range 2000).all fun b => testBit (stuffedImage 46) b == decide (b < 51)) = true := by
  decide +kernel

theorem stuffed_shows : Shows fsImg stuffed stuffedDisk := by
  refine ⟨fun b small => ?_, fun i small => ?_, fun b _ _ => rfl⟩
  · have bound : b < 2000 := small
    have block : fsImg.bblock b = 46 := by
      show b / (1024 * 8) + 46 = 46
      omega
    have bit : b % BPB = b := Nat.mod_eq_of_lt (show b < 1024 * 8 by omega)
    rw [block, bit]
    exact beq_iff_eq.mp (List.all_eq_true.mp stuffed_bits b (List.mem_range.mpr bound))
  · have bound : i < 200 := small
    have low : inodeOff i < 1024 := by
      unfold inodeOff IPB BSIZE
      omega
    have files : getDinode filesBlock (inodeOff i) = emptyFile := by
      obtain ⟨type, major, minor, nlink, size, addrs⟩ := filesBlock_inode ⟨i % 16, Nat.mod_lt _ (by decide)⟩
      ext k
      · exact type
      · exact major
      · exact minor
      · exact nlink
      · exact size
      · exact addrs k
    by_cases first : i < 16
    · have block : fsImg.iblock i = 33 := by
        show i / (1024 / 64) + 33 = 33
        omega
      have offset : inodeOff i = 64 * i := by
        unfold inodeOff IPB BSIZE
        omega
      rw [block]
      have is : stuffedDisk.inode i =
          getDinode (if i = 1 then setDinode (fun _ => 0) 64 stuffedRoot else if i = 0 then fun _ => 0
            else filesBlock) (inodeOff i) := by
        by_cases root : i = 1
        · subst root
          exact (getDinode_setDinode ⟨by decide, by decide⟩).symm
        · by_cases zero : i = 0
          · subst zero
            exact (getDinode_zero 0).symm
          · rw [if_neg root, if_neg zero, files]
            exact (if_neg root).trans (if_neg zero)
      rw [is]
      refine getDinode_congr fun o above below => ?_
      rw [offset] at above below
      show (if o < 64 then 0 else if o < 128 then setDinode (fun _ => 0) 64 stuffedRoot o
        else filesBlock o) = _
      by_cases root : i = 1
      · rw [if_neg (by omega), if_pos (by omega), if_pos root]
      · by_cases zero : i = 0
        · rw [if_pos (by omega), if_neg root, if_pos zero]
        · rw [if_neg (by omega), if_neg (by omega), if_neg root, if_neg zero]
    · have block : stuffed.blocks (fsImg.iblock i) = filesBlock := by
        have above : 33 < fsImg.iblock i ∧ fsImg.iblock i < 46 := by
          show 33 < i / (1024 / 64) + 33 ∧ i / (1024 / 64) + 33 < 46
          omega
        show stuffedImage (fsImg.iblock i) = _
        unfold stuffedImage
        rw [if_neg (by omega), if_pos above.2]
      rw [block, files]
      exact ((if_neg (show i ≠ 1 by omega)).trans (if_neg (show i ≠ 0 by omega))).symm

theorem stuffed_at {i : Nat} {p : Place} (some : stuffedDisk.at (stuffedDisk.inode i) p ≠ 0) :
    i = ROOTINO ∧ ∃ k : Fin 13, p = .slot k ∧ k.val < 4 ∧
      stuffedDisk.at (stuffedDisk.inode i) p = 47 + k := by
  by_cases root : i = ROOTINO
  · have inode : stuffedDisk.inode i = stuffedRoot := if_pos root
    rw [inode] at some ⊢
    cases p with
    | slot k =>
      have few : k.val < 4 := (ite_ne_right_iff.mp some).1
      exact ⟨root, k, rfl, few, if_pos few⟩
    | word j => exact absurd (at_word_none rfl j) some
  · have none : ∀ k, (stuffedDisk.inode i).addrs k = 0 := by
      intro k
      have inode : stuffedDisk.inode i = if i = 0 then freshDinode 0 else emptyFile := if_neg root
      rw [inode]
      split <;> rfl
    cases p with
    | slot k => exact absurd (none k) some
    | word j => exact absurd (at_word_none (none INDIRECT) j) some

theorem stuffed_own : Own fsImg stuffedDisk stuffedDisk.inode := by
  refine ⟨fun i _ p some => ?_, fun i _ j _ p q some same => ?_, fun b above below used => ?_,
    fun b low => ?_, fun i _ free => ?_⟩
  · obtain ⟨-, k, -, few, is⟩ := stuffed_at some
    rw [is]
    refine ⟨?_, ?_, decide_eq_true (show 47 + k.val < 51 by omega)⟩
    · show 47 ≤ 47 + k.val
      omega
    · show 47 + k.val < 2000
      omega
  · obtain ⟨root, k, slot, -, is⟩ := stuffed_at some
    obtain ⟨root', k', slot', -, is'⟩ := stuffed_at (same ▸ some)
    have number : k = k' := Fin.ext (by omega)
    exact ⟨root.trans root'.symm, by rw [slot, slot', number]⟩
  · have low : 47 ≤ b := above
    have high : b < 51 := of_decide_eq_true used
    refine ⟨ROOTINO, by decide, .slot ⟨b - 47, by omega⟩, ?_⟩
    show (if b - 47 < 4 then 47 + (b - 47) else 0) = b
    rw [if_pos (by omega)]
    omega
  · have small : b < 47 := low
    exact decide_eq_true (show b < 51 by omega)
  · by_cases root : i = ROOTINO
    · subst root
      exact absurd free (by decide)
    · intro k
      by_contra some
      exact root (stuffed_at (p := .slot k) some).1

theorem stuffed_solid (i : Nat) : Solid stuffedDisk (stuffedDisk.inode i) := by
  by_cases root : i = ROOTINO
  · subst root
    refine ⟨by decide, fun o less => ?_⟩
    have size : o < 3200 := less
    have block : o / BSIZE < 4 := by
      show o / 1024 < 4
      omega
    have place : dataPlace (o / BSIZE) = .slot ⟨o / BSIZE, by omega⟩ :=
      dif_pos (show o / BSIZE < 12 by omega)
    rw [place]
    show (if o / BSIZE < 4 then 47 + o / BSIZE else 0) ≠ 0
    rw [if_pos block]
    exact (Nat.add_pos_left (by decide) _).ne'
  · have size : (stuffedDisk.inode i).size = 0 := by
      have inode : stuffedDisk.inode i = if i = 0 then freshDinode 0 else emptyFile := if_neg root
      rw [inode]
      split <;> rfl
    refine ⟨by rw [size]; exact Nat.zero_le _, fun o less => ?_⟩
    rw [size] at less
    exact absurd less (Nat.not_lt_zero o)

theorem stuffed_root {i : Nat} (dir : (stuffedDisk.inode i).type = T_DIR) : i = ROOTINO := by
  by_contra root
  have inode : stuffedDisk.inode i = if i = 0 then freshDinode 0 else emptyFile := if_neg root
  rw [inode] at dir
  split at dir <;> exact absurd dir (by decide)

/-- The number of the entry that has the name. -/
def stuffedIndex (name : Path) : Nat :=
  if name.length < 3 then name.length - 1
  else name.foldl (fun n c => 10 * n + (c.toNat - 48)) 0

theorem stuffed_slots : ((List.range 200).all fun k =>
    match stuffedDisk.slots ROOTINO k with
    | some (name, inum) => stuffedIndex name == k && inum == max k 1
    | none => false) = true := by
  decide +kernel

theorem stuffed_slot {k : Nat} (less : k < 200) : ∃ name,
    stuffedDisk.slots ROOTINO k = some (name, max k 1) ∧ stuffedIndex name = k := by
  have this := List.all_eq_true.mp stuffed_slots k (List.mem_range.mpr less)
  split at this
  · next name inum is =>
    obtain ⟨index, number⟩ := Bool.and_eq_true_iff.mp this
    exact ⟨name, by rw [is, beq_iff_eq.mp number], beq_iff_eq.mp index⟩
  · cases this

theorem stuffed_tables : Tables fsImg stuffedDisk := by
  intro i _ dir
  rw [stuffed_root dir]
  refine ⟨by decide, fun k hk l hl key a b one two => ?_⟩
  obtain ⟨name, is, index⟩ := stuffed_slot (k := k) hk
  obtain ⟨name', is', index'⟩ := stuffed_slot (k := l) hl
  rw [one] at is
  rw [two] at is'
  cases is
  cases is'
  exact index.symm.trans index'

theorem stuffed_entries : Entries fsImg stuffedDisk := by
  intro i _ dir off aligned inside
  rw [stuffed_root dir] at inside ⊢
  have size : off + 16 ≤ 3200 := inside
  have index : off % 16 = 0 := aligned
  obtain ⟨name, is, -⟩ := stuffed_slot (k := off / 16) (by omega)
  have number := decode_inum is
  have place : DIRENT * (off / 16) = off := show 16 * (off / 16) = off by omega
  unfold Disk.entry at number
  rw [place] at number
  rw [number]
  show max (off / 16) 1 < 200
  omega

theorem stuffed_ordered : Ordered fsImg stuffed stuffedDisk := by
  refine ⟨⟨⟨stuffed_shows, stuffed_own, fun i _ => stuffed_solid i, ⟨fun ip live => ?_,
    booted_good.cached.unique⟩⟩, stuffed_entries⟩, fun i _ used zero => ?_, stuffed_tables⟩
  · obtain ⟨dev, inside, -, -⟩ := booted_good.cached.slot ip live
    have unread : (stuffed.itable ip).valid ≠ true := by
      show (if ip = 0 then _ else _ : Inode).valid ≠ true
      split <;> exact Bool.false_ne_true
    exact ⟨dev, inside, fun read => absurd read unread, fun read => absurd read unread⟩
  · by_cases root : i = ROOTINO
    · subst root
      exact absurd zero (by decide)
    · have inode : stuffedDisk.inode i = if i = 0 then freshDinode 0 else emptyFile := if_neg root
      rw [inode] at used zero
      by_cases first : i = 0
      · rw [if_pos first] at used
        exact absurd rfl used
      · rw [if_neg first] at zero
        exact absurd zero (by decide)

theorem stuffed_tree : Tree fsImg stuffedDisk := by
  refine ⟨fun i inside dir => (stuffed_tables i inside dir).whole, fun i _ dir name j there => ?_,
    by decide⟩
  rw [stuffed_root dir] at there
  obtain ⟨k, less, is⟩ := Slots.lookup_some there
  obtain ⟨name', is', -⟩ := stuffed_slot (k := k) less
  rw [is] at is'
  cases is'
  have positive : max k 1 ≠ 0 := by omega
  show (if max k 1 = 1 then stuffedRoot else if max k 1 = 0 then freshDinode 0 else emptyFile).type ≠ 0
  rw [if_neg positive]
  split <;> decide

/-- No inode is free: `create` panics. -/
theorem create_panics : Ordered fsImg stuffed stuffedDisk ∧ Tree fsImg stuffedDisk ∧ Idle stuffed ∧
    stuffedDisk.firstFree fsImg = none ∧
    panics (create fsImg pathA T_FILE 0 0) stuffed = some (.panic "create: ialloc") :=
  ⟨stuffed_ordered, stuffed_tree, ⟨rfl, rfl, booted_idle.unlocked⟩, by decide +kernel, by decide +kernel⟩

end Xv6Lab.Fs

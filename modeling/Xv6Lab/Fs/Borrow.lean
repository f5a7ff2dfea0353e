import Xv6Lab.Fs.Making
import Xv6Lab.Fs.References

/-! What a call has borrowed: the references that it has taken and the locks that it holds.  Where
every inode without links is held by somebody, taking and dropping them changes only the inode table,
and each function returns unless the table has no entry for an inode, or a lock is held. -/

namespace Xv6Lab.Fs

open Bytes Exec

namespace State

variable (s : State)

/-- Who holds the lock of each inode. -/
def locks (ip : InodePtr) : Option Pid := (s.itable ip).lock

/-- The inode table has an entry for inode `i`. -/
def Has (i : Nat) : Prop := ∃ ip, 0 < (s.itable ip).ref ∧ (s.itable ip).inum = i

/-- `iget` finds an entry for inode `i`. -/
def Seat (i : Nat) : Prop := s.Has i ∨ ∃ ip, (s.itable ip).ref = 0

/-- `iget` finds an entry for inode `j` besides the one for inode `i`. -/
def Seats (i j : Nat) : Prop :=
  j = i ∨ s.Has j ∨ ∃ ip, (s.itable ip).ref = 0 ∧ (s.Has i ∨ ∃ jp ≠ ip, (s.itable jp).ref = 0)

instance (i : Nat) : Decidable (s.Has i) := inferInstanceAs (Decidable (∃ _, _ ∧ _))

instance (i : Nat) : Decidable (s.Seat i) := inferInstanceAs (Decidable (_ ∨ ∃ _, _))

instance (i j : Nat) : Decidable (s.Seats i j) :=
  inferInstanceAs (Decidable (_ ∨ _ ∨ ∃ _, _ ∧ (_ ∨ ∃ _, _ ∧ _)))

end State

section One

variable {ip jp : InodePtr}

theorem one_self : one ip ip = 1 := Pi.single_eq_same ip 1

theorem one_other (apart : jp ≠ ip) : one ip jp = 0 := Pi.single_eq_of_ne apart 1

theorem one_nonneg (ip jp : InodePtr) : 0 ≤ one ip jp := by
  by_cases this : jp = ip
  · rw [this, one_self]
    decide
  · rw [one_other this]

end One

/-- Only the inode table has changed since `s`: the counts are up by `d`, and the locks are `l`. -/
structure Borrowed (sb : Superblock) (v : Disk) (s : State) (d : InodePtr → Int)
    (l : InodePtr → Option Pid) (t : State) : Prop where
  good : Good sb t v
  onward : Onward s t
  table : ∃ itable, t = { s with itable := itable }
  refs : ∀ ip, (t.itable ip).ref = (s.itable ip).ref + d ip
  locks : ∀ ip, (t.itable ip).lock = l ip

/-- A lock that is held stops a call: it waits, or panics if the lock is its own. -/
def Stuck (l : InodePtr → Option Pid) (p : Pid) (e : Halt) : Prop :=
  ∃ ip q, l ip = some q ∧
    e = if q = p then .panic "acquiresleep: recursive lock" else .blocked

/-- The inode table has no entry left. -/
abbrev noInodes : Halt := .panic "iget: no inodes"

section Table

variable {sb : Superblock} {v : Disk} {s t u : State} {d : InodePtr → Int}
  {l : InodePtr → Option Pid} {ip dp : InodePtr} {i j : Nat}

theorem Borrowed.start (h : Good sb s v) : Borrowed sb v s 0 s.locks s :=
  ⟨h, .refl s, ⟨s.itable, rfl⟩, fun _ => (add_zero _).symm, fun _ => rfl⟩

namespace Borrowed

theorem tidy (h : Borrowed sb v s d l t) (tidy : NoOrphan sb s v) : NoOrphan sb t v :=
  h.onward.tidy .refl tidy

theorem current (h : Borrowed sb v s d l t) : t.current = s.current := by
  obtain ⟨itable, rfl⟩ := h.table
  rfl

/-- An inode without links that the call has borrowed is held by somebody else as well. -/
theorem spare (h : Borrowed sb v s d l t) (tidy : NoOrphan sb s v) (taken : 1 ≤ d ip)
    (live : 0 < (t.itable ip).ref) : Spare t v ip := by
  intro used zero
  have inside := (h.good.cached.slot ip live).inside
  obtain ⟨jp, held, -, is⟩ := tidy _ inside used zero
  have same : jp = ip := by
    apply h.good.cached.unique jp ip (h.onward.live held) live
    rw [h.onward.inum jp held, is]
  subst same
  have count := h.refs jp
  omega

/-- The entry of the inode that is held takes no other's place twice. -/
theorem seat_iff (h : Borrowed sb v s (one ip) l t) (live : 0 < (t.itable ip).ref)
    (inum : (t.itable ip).inum = i) : t.Seat j ↔ s.Seats i j := by
  have here := h.refs ip
  rw [one_self] at here
  have others : ∀ jp ≠ ip, (t.itable jp).ref = (s.itable jp).ref := by
    intro jp other
    have count := h.refs jp
    rw [one_other other] at count
    omega
  have held : 0 < (s.itable ip).ref → s.Has i := by
    intro before
    refine ⟨ip, before, ?_⟩
    rw [← h.onward.inum ip before, inum]
  constructor
  · rintro (⟨jp, used, is⟩ | ⟨jp, free⟩)
    · by_cases this : jp = ip
      · rw [this, inum] at is
        exact .inl is.symm
      · have before : 0 < (s.itable jp).ref := others jp this ▸ used
        refine .inr (.inl ⟨jp, before, ?_⟩)
        rw [← h.onward.inum jp before, is]
    · have apart : jp ≠ ip := by
        rintro rfl
        omega
      refine .inr (.inr ⟨jp, others jp apart ▸ free, ?_⟩)
      by_cases before : 0 < (s.itable ip).ref
      · exact .inl (held before)
      · exact .inr ⟨ip, apart.symm, by omega⟩
  · rintro (rfl | ⟨jp, used, is⟩ | ⟨jp, free, more⟩)
    · exact .inl ⟨ip, live, inum⟩
    · refine .inl ⟨jp, h.onward.live used, ?_⟩
      rw [h.onward.inum jp used, is]
    · rcases more with ⟨kp, used, is⟩ | ⟨kp, apart, free'⟩
      · have same : kp = ip := by
          apply h.good.cached.unique kp ip (h.onward.live used) live
          rw [h.onward.inum kp used, is, inum]
        have other : jp ≠ ip := by
          rintro rfl
          rw [same] at used
          omega
        exact .inr ⟨jp, (others jp other).trans free⟩
      · by_cases this : jp = ip
        · rw [this] at apart
          exact .inr ⟨kp, (others kp apart).trans free'⟩
        · exact .inr ⟨jp, (others jp this).trans free⟩

end Borrowed

theorem State.setInode_setInode (inode inode' : Inode) :
    (s.setInode ip inode).setInode ip inode' = s.setInode ip inode' := by
  simp [State.setInode]

/-! ### References -/

/-- `iget` panics where the table has neither an entry for the inode nor a free one. -/
theorem iget_seats (devs : ∀ ip, 0 < (s.itable ip).ref → (s.itable ip).dev = ROOTDEV) :
    wp (iget ROOTDEV i) (fun _ _ => s.Seat i) (fun e _ => e = noInodes ∧ ¬ s.Seat i) s := by
  unfold iget
  rw [wp_bind, wp_get]
  split
  · next ip found =>
    have facts := List.find?_some found
    obtain ⟨live, -, is⟩ := of_decide_eq_true facts
    exact .inl ⟨ip, live, is⟩
  · next missing =>
    split
    · next ip found =>
      have facts := List.find?_some found
      exact .inr ⟨ip, of_decide_eq_true facts⟩
    · next full =>
      refine ⟨rfl, ?_⟩
      rintro (⟨ip, live, is⟩ | ⟨ip, free⟩)
      · have other := List.find?_eq_none.mp missing ip (List.mem_finRange ip)
        exact other (decide_eq_true ⟨live, devs ip live, is⟩)
      · have other := List.find?_eq_none.mp full ip (List.mem_finRange ip)
        exact other (decide_eq_true free)

/-- `iget` borrows one reference. -/
theorem iget_borrowed (h : Borrowed sb v s d l t) (inside : i < sb.ninodes) :
    wp (iget ROOTDEV i) (fun ip u => Borrowed sb v s (d + one ip) l u ∧ Step sb nothing t u v ∧
        Got ip i t u ∧ t.Seat i)
      (fun e _ => e = noInodes ∧ ¬ t.Seat i) t := by
  have devs : ∀ ip, 0 < (t.itable ip).ref → (t.itable ip).dev = ROOTDEV := fun ip live =>
    (h.good.cached.slot ip live).dev
  refine wp_of_run (fun ip u run => ?_) fun e _ run =>
    wp_error (E := fun e _ => e = noInodes ∧ ¬ t.Seat i) (iget_seats devs) run
  have ends : wp (iget ROOTDEV i) _ _ t := iget_ends h.good inside
  obtain ⟨step, got⟩ := wp_ok ends run
  have counts := (iget_refs ROOTDEV i).ok run
  refine ⟨⟨step.good, h.onward.trans step.onward, ?_, fun jp => ?_, fun jp => ?_⟩, step, got,
    wp_ok (Q := fun _ _ => t.Seat i) (iget_seats devs) run⟩
  · obtain ⟨itable, rfl⟩ := h.table
    rcases wp_ok iget_wp run with ⟨-, rfl⟩ | ⟨-, rfl⟩
    · exact ⟨_, rfl⟩
    · exact ⟨_, rfl⟩
  · rw [counts.ref, h.refs, Pi.add_apply, add_assoc]
  · rw [iget_locks run, h.locks]

/-- `idup` borrows one more reference. -/
theorem idup_borrowed (h : Borrowed sb v s d l t) (live : 0 < (t.itable ip).ref) :
    wp (idup ip) (fun jp u => jp = ip ∧ Borrowed sb v s (d + one ip) l u ∧ 0 < (u.itable ip).ref ∧
      (u.itable ip).inum = (t.itable ip).inum) (fun _ _ => False) t := by
  have run : idup ip t = .ok ip (t.setInode ip { t.itable ip with ref := (t.itable ip).ref + 1 }) :=
    rfl
  have ends := idup_ends h.good live
  obtain ⟨-, step, got⟩ := wp_ok ends run
  have counts := idup_refs.ok run
  rw [wp_value run]
  refine ⟨rfl, ⟨step.good, h.onward.trans step.onward, ?_, fun jp => ?_, fun jp => ?_⟩, got.live,
    got.inum⟩
  · obtain ⟨itable, rfl⟩ := h.table
    exact ⟨_, rfl⟩
  · rw [counts.ref, h.refs, Pi.add_apply, add_assoc]
  · rw [← h.locks, State.setInode_itable]
    by_cases this : jp = ip
    · rw [this, Function.update_self]
    · rw [Function.update_of_ne this]

/-- A borrowed reference is given back. -/
theorem iput_borrowed (h : Borrowed sb v s d l t) (tidy : NoOrphan sb s v) (taken : 1 ≤ d ip)
    (live : 0 < (t.itable ip).ref) :
    wp (iput sb ip) (fun _ u => Borrowed sb v s (d - one ip) l u ∧
        u = t.setInode ip { t.itable ip with ref := (t.itable ip).ref - 1 })
      (fun _ _ => False) t := by
  have more := (h.spare tidy taken live).notLast h.good
  have run := @iput_kept sb _ _ more
  have put := drop_put h.good more
  have counts := iput_refs.ok run
  rw [wp_value run]
  set inode : Inode := { t.itable ip with ref := (t.itable ip).ref - 1 } with is
  have self : (t.setInode ip inode).itable ip = inode := Function.update_self ..
  refine ⟨⟨put.good, ?_, ?_, fun jp => ?_, fun jp => ?_⟩, rfl⟩
  · have counted := h.refs ip
    refine ⟨fun jp used => ?_, fun jp used => ?_, fun jp used read => ?_⟩
    · by_cases this : jp = ip
      · rw [this, self]
        show (s.itable ip).ref ≤ (t.itable ip).ref - 1
        omega
      · rw [put.others jp this]
        exact h.onward.ref jp used
    · rw [← h.onward.inum jp used]
      by_cases this : jp = ip
      · rw [this, self]
      · rw [put.others jp this]
    · have before := h.onward.valid jp used read
      by_cases this : jp = ip
      · subst this
        rw [self]
        exact before
      · rw [put.others jp this]
        exact before
  · obtain ⟨itable, rfl⟩ := h.table
    exact ⟨_, rfl⟩
  · rw [counts.ref, h.refs, Pi.sub_apply, Pi.neg_apply, add_assoc, sub_eq_add_neg]
  · rw [← h.locks]
    by_cases this : jp = ip
    · rw [this, self]
    · rw [put.others jp this]

/-! ### Locks -/

/-- `acquiresleep` of a lock that somebody holds. -/
theorem acquiresleep_stuck {q : Pid} (held : (s.itable ip).lock = some q) :
    acquiresleep ip s =
      .error (if q = s.current then .panic "acquiresleep: recursive lock" else .blocked) s := by
  unfold acquiresleep
  rw [bind_get, held]
  dsimp only
  split <;> rfl

theorem acquiresleep_free (free : (s.itable ip).lock = none) :
    acquiresleep ip s = .ok () (s.setInode ip { s.itable ip with lock := some s.current }) := by
  unfold acquiresleep
  rw [bind_get, free]
  rfl

/-- `ilock` of an inode that has not been read yet, while nobody holds its lock. -/
theorem ilock_reads (shows' : Shows sb s v) (live : 0 < (s.itable ip).ref)
    (inside : (s.itable ip).inum < sb.ninodes) (free : (s.itable ip).lock = none)
    (typed : (v.inode (s.itable ip).inum).type ≠ 0) (unread : ¬ (s.itable ip).valid = true) :
    ilock sb ip s = .ok () (s.setInode ip { s.itable ip with
      toDinode := v.inode (s.itable ip).inum, valid := true, lock := some s.current }) := by
  set inode : Inode := { s.itable ip with lock := some s.current } with is
  have self : (s.setInode ip inode).itable ip = inode := Function.update_self ..
  unfold ilock
  rw [bind_get, if_neg (by omega),
    bind_ok (acquiresleep_free free), if_neg unread]
  unfold ilockRead
  rw [bind_get]
  dsimp only
  rw [self, bind_ok (show bread _ (s.setInode ip inode) = .ok _ (s.setInode ip inode) from rfl),
    State.setInode_blocks, shows'.inode _ inside]
  rw [bind_ok (show updInode ip _ (s.setInode ip inode) = .ok () _ from rfl), if_neg typed]
  show EStateM.Result.ok () ((s.setInode ip inode).setInode ip _) = _
  rw [self, State.setInode_setInode]

/-- `ilock` of an inode that is in use, while nobody holds its lock. -/
theorem ilock_free (shows' : Shows sb s v) (live : 0 < (s.itable ip).ref)
    (inside : (s.itable ip).inum < sb.ninodes) (free : (s.itable ip).lock = none)
    (typed : (v.inode (s.itable ip).inum).type ≠ 0) :
    ∃ inode, ilock sb ip s = .ok () (s.setInode ip inode) ∧ inode.lock = some s.current := by
  by_cases read : (s.itable ip).valid = true
  · refine ⟨{ s.itable ip with lock := some s.current }, ?_, rfl⟩
    unfold ilock
    rw [bind_get, if_neg (by omega),
      bind_ok (acquiresleep_free free), if_pos read]
    rfl
  · exact ⟨_, ilock_reads shows' live inside free typed read, rfl⟩

/-- `ilock` takes the lock if nobody holds it. -/
theorem ilock_borrowed (h : Borrowed sb v s d l t) (live : 0 < (t.itable ip).ref)
    (typed : (v.inode (t.itable ip).inum).type ≠ 0) :
    wp (ilock sb ip) (fun _ u => l ip = none ∧
        Borrowed sb v s d (Function.update l ip (some s.current)) u ∧ Step sb nothing t u v ∧ Ready u ip)
      (fun e _ => Stuck l s.current e) t := by
  have ends := @ilock_ends sb ip _ _ h.good
  have inside := (h.good.cached.slot ip live).inside
  cases held : l ip with
  | some q =>
    have stuck := acquiresleep_stuck ((h.locks ip).trans held)
    rw [h.current] at stuck
    unfold ilock
    rw [wp_bind, wp_get, if_neg (by omega), wp_bind]
    rw [wp_stop stuck]
    exact ⟨ip, q, held, rfl⟩
  | none =>
    obtain ⟨inode, run, lock⟩ :=
      ilock_free h.good.shows live inside ((h.locks ip).trans held) typed
    obtain ⟨step, ready, -⟩ := wp_ok ends run
    have counts := ilock_refs.ok run
    rw [wp_value run]
    refine ⟨rfl, ⟨step.good, h.onward.trans step.onward, ?_, fun jp => ?_, fun jp => ?_⟩, step, ready⟩
    · obtain ⟨itable, rfl⟩ := h.table
      exact ⟨_, rfl⟩
    · rw [counts.ref, h.refs, Pi.zero_apply, add_zero]
    · rw [State.setInode_itable]
      by_cases this : jp = ip
      · rw [this, Function.update_self, Function.update_self, lock, h.current]
      · rw [Function.update_of_ne this, Function.update_of_ne this, h.locks]

/-- `iunlock` of a lock that the caller holds. -/
theorem iunlock_run (live : 0 < (s.itable ip).ref) (mine : (s.itable ip).lock = some s.current) :
    iunlock ip s = .ok () (s.setInode ip { s.itable ip with lock := none }) := by
  have holds : ¬ (¬ s.holdingsleep ip ∨ (s.itable ip).ref < 1) := by
    rintro (other | dead)
    · exact other mine
    · omega
  unfold iunlock
  rw [bind_get, if_neg holds]
  unfold releasesleep
  rw [bind_get, mine]
  dsimp only
  rw [if_pos rfl]
  rfl

theorem iunlock_borrowed (h : Borrowed sb v s d l t) (live : 0 < (t.itable ip).ref)
    (held : l ip = some s.current) :
    wp (iunlock ip) (fun _ u => Borrowed sb v s d (Function.update l ip none) u ∧ Relocked ip t u)
      (fun _ _ => False) t := by
  have run := iunlock_run live (show (t.itable ip).lock = some t.current by
    rw [h.locks, held, h.current])
  have relocked : Relocked ip t (t.setInode ip { t.itable ip with lock := none }) := ⟨none, rfl⟩
  have step := relocked.step h.good
  rw [wp_value run]
  refine ⟨⟨step.good, h.onward.trans step.onward, ?_, fun jp => ?_, fun jp => ?_⟩, relocked⟩
  · obtain ⟨itable, rfl⟩ := h.table
    exact ⟨_, rfl⟩
  · rw [relocked.refs, h.refs]
  · rw [State.setInode_itable]
    by_cases this : jp = ip
    · rw [this, Function.update_self, Function.update_self]
    · rw [Function.update_of_ne this, Function.update_of_ne this, h.locks]

/-- A lock and a reference are given back. -/
theorem iunlockput_borrowed (h : Borrowed sb v s d l t) (tidy : NoOrphan sb s v) (taken : 1 ≤ d ip)
    (live : 0 < (t.itable ip).ref) (held : l ip = some s.current) :
    wp (iunlockput sb ip) (fun _ u => Borrowed sb v s (d - one ip) (Function.update l ip none) u ∧
        (∀ jp, (u.itable jp).inum = (t.itable jp).inum))
      (fun _ _ => False) t := by
  unfold iunlockput
  rw [wp_bind]
  refine wp_conseq (iunlock_borrowed h live held) fun _ u ⟨unlocked, relocked⟩ => ?_
  have live' : 0 < (u.itable ip).ref := by
    rw [relocked.refs]
    exact live
  refine wp_conseq (iput_borrowed unlocked tidy taken live') fun _ w ⟨dropped, is⟩ => ⟨dropped, ?_⟩
  intro jp
  rw [is, ← relocked.inum jp, State.setInode_itable]
  by_cases this : jp = ip
  · rw [this, Function.update_self]
  · rw [Function.update_of_ne this]

/-- `dirlookup` borrows the inode that the directory has under the name. -/
theorem dirlookup_borrowed (h : Borrowed sb v s d l t) (ready : Ready t dp)
    (inum : (t.itable dp).inum = i) (dir : (v.inode i).type = T_DIR)
    (whole : (v.inode i).size % DIRENT = 0) (name : Path) :
    wp (dirlookup sb dp name) (fun r u => (r = none ∧ u = t ∧ v.lookup i name = none) ∨
        ∃ ip off j, r = some (ip, off) ∧ v.lookup i name = some j ∧ j < sb.ninodes ∧ t.Seat j ∧
          Borrowed sb v s (d + one ip) l u ∧ Step sb nothing t u v ∧ Got ip j t u)
      (fun e _ => e = noInodes ∧ ∃ j, v.lookup i name = some j ∧ ¬ t.Seat j) t := by
  have slot := h.good.cached.slot dp ready.live
  have inside := slot.inside
  subst inum
  have type : (t.itable dp).type = T_DIR := by
    rw [slot.synced ready.valid]
    exact dir
  rw [wp_congr (dirlookup_eq h.good.toConsistent ready type whole name)]
  cases found : v.find (t.itable dp).inum name with
  | none => exact .inl ⟨rfl, rfl, Disk.find_eq_none.mp found⟩
  | some k =>
    have named := Disk.lookup_of_find found
    have within : deInum (v.entry (t.itable dp).inum k) < sb.ninodes :=
      h.good.entries _ inside dir _ (Nat.mul_mod_right ..) (Disk.entry_whole (Slots.find_some found).1)
    show wp (iget ROOTDEV _ >>= fun ip => pure (some (ip, DIRENT * k))) _ _ t
    rw [wp_bind]
    refine wp_mono (iget_borrowed h within) (fun ip u ⟨borrowed, step, got, seat⟩ => ?_)
      fun e _ ⟨is, missing⟩ => ⟨is, _, named, missing⟩
    exact .inr ⟨ip, _, _, rfl, named, within, seat, borrowed, step, got⟩

end Table

end Xv6Lab.Fs

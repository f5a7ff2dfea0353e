import Xv6Lab.Fs.Resolve

/-! How `create` makes an inode.  It stops for want of a free inode, of an entry of the inode table for
it, or of room in the directory; and the directory that gets a link too many is freed. -/

namespace Xv6Lab.Fs

open Bytes Exec

/-- The first inode that is free. -/
def Disk.firstFree (sb : Superblock) (v : Disk) : Option Nat :=
  (List.range' 1 (sb.ninodes - 1)).find? fun i => (v.inode i).type = 0

/-! ### Costs -/

section Costs

variable {sb : Superblock} {ip dp : InodePtr} {s t : State}

theorem iupdate_cost : Does 1 (iupdate sb ip) (fun _ _ => True) s := by
  unfold iupdate
  refine does_get (does_get ?_)
  exact (bstore_logWrite_does _ _).conseq fun _ _ _ => trivial

/-- Storing an inode takes one block of the log. -/
theorem store_cost {f : Inode → Inode} :
    Does 1 (do updInode ip f; iupdate sb ip) (fun _ _ => True) s := by
  have updated : Does 0 (updInode ip f) (fun _ _ => True) s := does_modify ⟨rfl, Nat.le_refl _⟩ trivial
  exact updated.bind fun _ t _ => iupdate_cost

theorem linkParent_cost {type : Int16} : Does 1 (linkParent sb dp type) (fun _ _ => True) s := by
  unfold linkParent
  split
  · exact store_cost
  · exact (does_pure trivial).mono (Nat.zero_le 1)

/-- A transaction that has room does not stop a call. -/
theorem Short.never {k : Nat} {e : Halt} (short : Short k s e) (open' : 1 ≤ s.outstanding)
    (room : s.lh.length + k ≤ LOGBLOCKS) : False := by
  rcases short with ⟨-, full⟩ | ⟨-, outside⟩ <;> omega

end Costs

/-! ### `ialloc` -/

section Ialloc

variable {sb : Superblock} {s t : State} {v : Disk}

theorem logWrite_first {b : Nat} (open' : 1 ≤ s.outstanding) (empty : s.lh = []) :
    logWrite b s = .ok () ((s.record b).setLog s.outstanding [b]) := by
  unfold logWrite
  rw [bind_ok (show (modify fun s => s.record b : F PUnit) s = .ok () (s.record b) from rfl),
    bind_get, State.record_lh, empty,
    State.record_outstanding, if_neg (by decide), if_neg (by omega), if_neg List.not_mem_nil]
  rfl

/-- `ialloc` marks a free inode in an operation of its own, and goes on. -/
theorem mark_free {b : Nat} {data : Block} (open' : s.outstanding = 1) (empty : s.lh = []) :
    ∃ t, (∀ {α : Type} (next : F α),
        (do beginOp; bstore b data; logWrite b; endOp; next : F α) s = next t) ∧
      t.itable = s.itable ∧ t.outstanding = 1 ∧ t.lh = [b] := by
  have begun : beginOp s = .ok () (s.setLog 2 []) := by
    unfold beginOp
    rw [bind_get, open', empty, if_neg (by decide)]
    rfl
  have stored : bstore b data (s.setLog 2 []) = .ok () ((s.setLog 2 []).setBlock b data) := rfl
  have logged : logWrite b ((s.setLog 2 []).setBlock b data) =
      .ok () ((((s.setLog 2 []).setBlock b data).record b).setLog 2 [b]) :=
    logWrite_first (show 1 ≤ 2 by decide) rfl
  refine ⟨((((s.setLog 2 []).setBlock b data).record b).setLog 2 [b]).setLog 1 [b], fun next => ?_,
    rfl, rfl, rfl⟩
  rw [bind_ok begun, bind_ok stored, bind_ok logged]
  rfl

theorem iallocFrom_wp (h : Good sb s v) (open' : s.outstanding = 1) (empty : s.lh = [])
    (type : Int16) (count : Nat) {inum : Nat} (upTo : inum + count ≤ sb.ninodes) :
    wp (iallocFrom sb ROOTDEV type count inum)
      (fun r t => (r = none ∧ (List.range' inum count).find? (fun i => (v.inode i).type = 0) = none) ∨
        (r ≠ none ∧ (∃ i, (List.range' inum count).find? (fun i => (v.inode i).type = 0) = some i ∧
          s.Seat i) ∧ t.outstanding = 1 ∧ t.lh.length = 1 ∧
          ∀ jp, (t.itable jp).lock = (s.itable jp).lock))
      (fun e _ => e = noInodes ∧
        ∃ i, (List.range' inum count).find? (fun i => (v.inode i).type = 0) = some i ∧ ¬ s.Seat i) s := by
  induction count generalizing inum with
  | zero => exact .inl ⟨rfl, rfl⟩
  | succ count ih =>
    have inside : inum < sb.ninodes := by omega
    unfold iallocFrom
    rw [wp_bind]
    show wp (if getShort (s.blocks (sb.iblock inum)) (inodeOff inum) = 0 then _ else _) _ _ s
    rw [show getShort (s.blocks (sb.iblock inum)) (inodeOff inum) = (v.inode inum).type from
      congrArg Dinode.type (h.shows.inode inum inside)]
    rw [List.range'_succ, List.find?_cons]
    split
    · next free =>
      obtain ⟨t, goes, table, one, logged⟩ := @mark_free s (sb.iblock inum)
        (clearDinode (s.blocks (sb.iblock inum)) (inodeOff inum) type) open' empty
      have seat : t.Seat inum ↔ s.Seat inum := by
        unfold State.Seat State.Has
        rw [table]
      have devs : ∀ ip, 0 < (t.itable ip).ref → (t.itable ip).dev = ROOTDEV := by
        intro ip live
        rw [table] at live ⊢
        exact (h.cached.slot ip live).dev
      rw [wp_goes (goes _), decide_eq_true free, wp_bind]
      refine wp_of_run (fun ip u run => ?_) fun e u run => ?_
      · have seated := wp_ok (Q := fun _ _ => t.Seat inum) (iget_seats devs) run
        have log : u.outstanding = t.outstanding ∧ u.lh = t.lh := by
          rcases wp_ok iget_wp run with ⟨-, rfl⟩ | ⟨-, rfl⟩
          · exact ⟨rfl, rfl⟩
          · exact ⟨rfl, rfl⟩
        refine .inr ⟨Option.some_ne_none _, ⟨inum, rfl, seat.mp seated⟩, log.1.trans one, ?_, fun jp => ?_⟩
        · rw [log.2, logged]
          rfl
        · rw [iget_locks run, table]
      · obtain ⟨reason, unseated⟩ := wp_error (E := fun e _ => e = noInodes ∧ ¬ t.Seat inum)
          (iget_seats devs) run
        exact ⟨reason, inum, rfl, fun seated => unseated (seat.mpr seated)⟩
    · next used =>
      rw [decide_eq_false used]
      exact ih (by omega)

/-- `ialloc` takes the first inode that is free, if the inode table has an entry for it. -/
theorem ialloc_wp (h : Good sb s v) (open' : s.outstanding = 1) (empty : s.lh = []) (type : Int16)
    (root : 1 ≤ sb.ninodes) :
    wp (ialloc sb ROOTDEV type)
      (fun r t => (r = none ∧ v.firstFree sb = none) ∨
        (r ≠ none ∧ (∃ i, v.firstFree sb = some i ∧ s.Seat i) ∧ t.outstanding = 1 ∧
          t.lh.length = 1 ∧ ∀ jp, (t.itable jp).lock = (s.itable jp).lock))
      (fun e _ => e = noInodes ∧ ∃ i, v.firstFree sb = some i ∧ ¬ s.Seat i) s :=
  iallocFrom_wp h open' empty type _ (by omega)

end Ialloc

/-! ### A new inode -/

section New

variable {sb : Superblock} {dp ip : InodePtr} {s t : State} {v : Disk}

/-- `dirlink` of a name that the directory has not leaves the transaction open, and the locks alone. -/
theorem dirlink_frame (valid : sb.Valid) (h : Consistent sb s v) (ready : Ready s dp)
    (dir : (s.itable dp).type = T_DIR) (whole : (v.inode (s.itable dp).inum).size % DIRENT = 0)
    (name : Path) (inum : Nat) (missing : v.lookup (s.itable dp).inum name = none) :
    wp (dirlink sb dp name inum) (fun r t => t.outstanding = s.outstanding ∧
      (0 ≤ r → ∀ jp, (t.itable jp).lock = (s.itable jp).lock)) (fun _ _ => True) s := by
  have slot := h.cached.slot dp ready.live
  have size : (s.itable dp).size = (v.inode (s.itable dp).inum).size := by
    rw [← slot.synced ready.valid]
  obtain ⟨l, de, empty, upTo, -, -⟩ := emptyDirent_ok h ready whole
    ((s.itable dp).size / DIRENT + 1) (fun _ => 0) (m := v.count (s.itable dp).inum) (k := 0)
    (by rw [size]; exact Nat.lt_succ_self _) (Nat.zero_add _)
  rw [Nat.mul_zero] at empty
  have start : DIRENT * l ≤ (s.itable dp).size := by
    rw [size]
    unfold Disk.count DIRENT at *
    omega
  unfold dirlink
  rw [wp_bind, wp_congr (dirlookup_eq h ready dir whole name), Disk.find_eq_none.mpr missing]
  show wp (emptyDirent sb dp ((s.itable dp).size / DIRENT + 1) 0 (fun _ => 0) >>= _) _ _ s
  rw [wp_congr (bind_ok empty)]
  show wp (writei sb dp (setDirent de name inum) (DIRENT * l) DIRENT >>= _) _ _ s
  rw [wp_bind]
  refine wp_mono (writei_entry valid h ready start) ?_ fun _ _ _ => trivial
  rintro r t ⟨grew, v', -, -, ⟨rfl, -, wrote⟩ | ⟨short, -⟩⟩
  · rw [if_neg (not_not.mpr rfl)]
    refine ⟨grew.outstanding, fun _ jp => ?_⟩
    by_cases this : jp = dp
    · obtain ⟨addrs, is⟩ := wrote.resized.inode
      rw [this, is]
    · rw [wrote.resized.others jp this]
  · rw [if_pos short]
    exact ⟨grew.outstanding, fun done => absurd done (by decide)⟩

/-- The directory has the inode at `ip` under the name, and the operation has ended. -/
structure Listed (sb : Superblock) (d : Nat) (name : Path) (ip : InodePtr) (s t : State) : Prop where
  listed : ∃ w, Good sb t w ∧ (w.inode d).type = T_DIR ∧ w.lookup d name = some (t.itable ip).inum
  live : 0 < (t.itable ip).ref
  unlocked : (t.itable ip).lock = none
  log : t.outstanding = 0 ∧ t.lh = []
  files : SameFiles s t

/-- `create` enters the inode, unless the directory is full. -/
theorem createEntry_wp (valid : sb.Valid) (few : sb.ninodes ≤ 65536) (h : Ordered sb s v)
    (ready : Ready s dp) (dir : (s.itable dp).type = T_DIR) (live : 0 < (s.itable ip).ref)
    (some' : 1 ≤ (s.itable ip).inum) (name : Path) (apart : ip ≠ dp)
    (mine : (s.itable dp).lock = some s.current) (mine' : (s.itable ip).lock = some s.current)
    (open' : s.outstanding = 1) (room : s.lh.length ≤ 3)
    (missing : v.lookup (s.itable dp).inum name = none)
    (held : (v.inode (s.itable dp).inum).nlink = 0 → 2 ≤ (s.itable dp).ref) :
    wp (createEntry sb dp ip name) (fun r t => ¬ Full sb v (s.itable dp).inum ∧ r = some ip ∧
        Listed sb (s.itable dp).inum name ip s t)
      (fun _ _ => Full sb v (s.itable dp).inum) s := by
  have slot := h.good.cached.slot dp ready.live
  have type : (v.inode (s.itable dp).inum).type = T_DIR := by
    rw [← slot.synced ready.valid]
    exact dir
  have inside := (h.good.cached.slot ip live).inside
  have tabular := h.tables _ slot.inside type
  unfold createEntry
  rw [wp_bind, wp_get, wp_bind]
  have linked := dirlink_wp valid h.good.toConsistent ready dir tabular name some'
    (show (s.itable ip).inum ≤ 65535 by omega)
  have frame := dirlink_frame valid h.good.toConsistent ready dir tabular.whole name
    (s.itable ip).inum missing
  refine wp_of_run (fun r t run => ?_) fun e _ run => ?_
  · obtain ⟨v', post⟩ := wp_ok linked run
    obtain ⟨outstanding, locks⟩ := wp_ok frame run
    have refs := (dirlink_refs name (s.itable ip).inum).ok run
    have after := post.ordered h type slot.inside inside
    rcases post.result with ⟨rfl, present | full, -⟩ | ⟨rfl, -, room', k, filled⟩
    · exact absurd missing present
    · exact full
    have same := locks (Int.le_refl 0)
    have ready' := post.onward.ready ready
    have live' := post.onward.live live
    have here : (t.itable dp).lock = some t.current := by
      rw [same, mine, post.files.current]
    have notLast : ¬ Last (t.setInode dp { t.itable dp with lock := none }) dp := by
      rintro ⟨one, read, zero⟩
      rw [State.setInode_itable, Function.update_self] at one read zero
      have synced := (after.good.cached.slot dp ready'.live).synced read
      have zero' : (t.itable dp).nlink = 0 := zero
      rw [synced, post.onward.inum dp ready.live, post.links.2] at zero'
      have two := held zero'
      have counts := refs.ref dp
      have one' : (t.itable dp).ref = 1 := one
      rw [Pi.zero_apply] at counts
      omega
    rw [if_neg (by decide), wp_goes (bind_ok (show iunlockput sb dp t = _ from
      (bind_ok (iunlock_run ready'.live here)).trans (iput_kept notLast)))]
    have dropped := drop_put (Relocked.step after.good ⟨none, rfl⟩).good notLast
    set u := (t.setInode dp { t.itable dp with lock := none }).setInode dp _ with is
    have same' : u.itable ip = t.itable ip := by
      rw [is, State.setInode_setInode, State.setInode_itable, Function.update_of_ne apart]
    have mine'' : (u.itable ip).lock = some u.current := by
      rw [same', same, mine']
      exact congrArg some post.files.current.symm
    rw [wp_goes (bind_ok (iunlock_run (same' ▸ live') mine''))]
    set w := u.setInode ip { u.itable ip with lock := none } with wIs
    have self : w.itable ip = { t.itable ip with lock := none } := by
      rw [wIs, State.setInode_itable, Function.update_self, same']
    have good : Good sb w v' := (Relocked.step dropped.good ⟨none, rfl⟩).good
    refine ⟨room', rfl, ⟨v', good.setLog _ _, post.links.1.trans type, ?_⟩, ?_, ?_, ⟨?_, ?_⟩,
      ⟨post.files.ftable, post.files.procs, post.files.current⟩⟩
    · show _ = some (w.itable ip).inum
      rw [(filled.lookup tabular missing).1, self]
      exact congrArg some (post.onward.inum ip live).symm
    · show 0 < (w.itable ip).ref
      rw [self]
      exact live'
    · show (w.itable ip).lock = none
      rw [self]
    · show t.outstanding - 1 = 0
      omega
    · show (if t.outstanding - 1 = 0 then [] else t.lh) = []
      rw [if_pos (by omega)]
  · rcases wp_error linked run with ⟨-, present⟩ | ⟨short, -⟩
    · exact absurd missing present
    · refine (short.never ?_ ?_).elim
      · omega
      · show s.lh.length + 7 ≤ 30
        omega

/-- Inode `j` has the same type, size and blocks. -/
structure Relinked (v v' : Disk) (j : Nat) : Prop where
  used : v'.used = v.used
  data : v'.data = v.data
  type : (v'.inode j).type = (v.inode j).type
  size : (v'.inode j).size = (v.inode j).size
  addrs : (v'.inode j).addrs = (v.inode j).addrs

theorem Relinked.at {v' : Disk} {j : Nat} (h : Relinked v v' j) (p : Place) :
    v'.at (v'.inode j) p = v.at (v.inode j) p :=
  at_congr h.addrs (fun _ => by rw [h.data]) p

theorem Relinked.kept {v' : Disk} {j : Nat} (h : Relinked v v' j) : Kept v v' j := by
  refine ⟨h.type, h.size, fun o _ => ?_⟩
  unfold Disk.content
  rw [h.at, h.data]

/-- Other inodes and links do not make room in a directory. -/
theorem Relinked.full {v' : Disk} {j : Nat} (h : Relinked v v' j)
    (bound : (v.inode j).size ≤ MAXFILE * BSIZE) : Full sb v' j ↔ Full sb v j := by
  have room : v'.room sb = v.room sb := by
    unfold Disk.room
    rw [h.used]
  have fits : Fits sb v' j (v.count j) ↔ Fits sb v j (v.count j) := by
    unfold Fits Disk.missing
    rw [h.at, h.addrs, room]
  unfold Full
  rw [h.kept.count, fits]
  refine and_congr_left fun _ => forall_congr' fun k => ?_
  exact forall_congr' fun less => by rw [h.kept.slots bound less]

/-- Fields of an inode that keep its blocks are stored. -/
theorem store_relinks (valid : sb.Valid) (h : Good sb s v) (ready : Ready s ip) {f : Inode → Inode}
    (relinks : Relinks f) (locks : ∀ inode, (f inode).lock = inode.lock) :
    Ends (do updInode ip f; iupdate sb ip) (fun _ t => ∃ v',
      Step sb (· = sb.iblock (s.itable ip).inum) s t v' ∧ Relinked v v' (s.itable ip).inum ∧
      (∀ j ≠ (s.itable ip).inum, v'.inode j = v.inode j) ∧
      (v'.inode (s.itable ip).inum).nlink = (f (s.itable ip)).nlink ∧
      ∀ jp, (t.itable jp).lock = (s.itable jp).lock) s := by
  have before := (h.cached.slot ip ready.live).synced ready.valid
  have here : ∀ d, (v.setInode (s.itable ip).inum d).inode (s.itable ip).inum = d := fun d =>
    Function.update_self ..
  refine (store_tells valid h ready relinks).conseq fun _ t ⟨step, table⟩ =>
    ⟨_, step, ⟨rfl, rfl, ?_, ?_, ?_⟩, fun j other => Function.update_of_ne other .., ?_, fun jp => ?_⟩
  · rw [here, ← before]
    exact relinks.type _
  · rw [here, ← before]
    exact relinks.size _
  · rw [here, ← before]
    exact relinks.addrs _
  · rw [here]
  · rw [table]
    by_cases this : jp = ip
    · rw [this, Function.update_self, locks]
    · rw [Function.update_of_ne this]

theorem linkParent_relinks (valid : sb.Valid) (h : Good sb s v) (ready : Ready s dp) (type : Int16) :
    Ends (linkParent sb dp type) (fun _ t => ∃ v',
      Step sb (· = sb.iblock (s.itable dp).inum) s t v' ∧ Relinked v v' (s.itable dp).inum ∧
      (∀ j ≠ (s.itable dp).inum, v'.inode j = v.inode j) ∧
      (v'.inode (s.itable dp).inum).nlink =
        (v.inode (s.itable dp).inum).nlink + (if type = T_DIR then 1 else 0) ∧
      ∀ jp, (t.itable jp).lock = (s.itable jp).lock) s := by
  unfold linkParent
  split
  · have relinks : Relinks fun inode => { inode with nlink := inode.nlink + 1 } :=
      relinks_nlink (·.nlink + 1)
    refine (store_relinks valid h ready relinks fun _ => rfl).conseq
      fun _ t ⟨v', step, relinked, others, nlink, locks⟩ => ⟨v', step, relinked, others, ?_, locks⟩
    rw [nlink, ← (h.cached.slot dp ready.live).synced ready.valid]
  · refine ends_pure ⟨v, .refl h, ⟨rfl, rfl, rfl, rfl, rfl⟩, fun _ _ => rfl, ?_, fun _ => rfl⟩
    rw [Int16.add_zero]

/-- An inode can be made and entered in directory `d`. -/
def Makes (sb : Superblock) (s : State) (v : Disk) (d : Nat) (type : Int16) : Prop :=
  type ≠ 0 ∧ ¬ Full sb v d ∧ ∃ i, v.firstFree sb = some i ∧ s.Seat i

theorem store_refs {f : Inode → Inode} (same : ∀ inode, (f inode).ref = inode.ref) :
    refs.Neutral (do updInode ip f; iupdate sb ip) :=
  Effect.Neutral.bind (updInode_refs same) fun _ => iupdate_refs

theorem linkParent_refs (type : Int16) : refs.Neutral (linkParent sb dp type) := by
  unfold linkParent
  split
  · exact store_refs fun _ => rfl
  · exact Effect.neutral_pure

/-- The state in which `create` enters the inode at `ip` that it has made. -/
structure Entering (sb : Superblock) (dp ip : InodePtr) (type : Int16) (s : State) (v : Disk)
    (t : State) (v' : Disk) : Prop where
  ordered : Ordered sb t v'
  ready : Ready t dp
  live : 0 < (t.itable ip).ref
  above : 1 ≤ (t.itable ip).inum
  inum : (t.itable dp).inum = (s.itable dp).inum
  apart : ip ≠ dp
  count : (t.itable dp).ref = (s.itable dp).ref
  locks : (t.itable dp).lock = some t.current ∧ (t.itable ip).lock = some t.current
  log : t.outstanding = 1 ∧ t.lh.length ≤ 3
  files : SameFiles s t
  relinked : Relinked v v' (s.itable dp).inum
  nlink : (v'.inode (s.itable dp).inum).nlink =
    (v.inode (s.itable dp).inum).nlink + (if type = T_DIR then 1 else 0)

/-- `create` has taken inode `i`, and comes to the point where it enters it. -/
theorem createNew_enters (valid : sb.Valid) {v' : Disk} {i : Nat} {type major minor : Int16}
    (h : Ordered sb s v) (ready : Ready s dp)
    (dir : (v.inode (s.itable dp).inum).type = T_DIR) (name : Path)
    (above : 1 ≤ i) (assigned : Assigned sb type i ip s v t v') (open' : t.outstanding = 1)
    (room : t.lh.length = 1) (some' : type ≠ 0) (locks : ∀ jp, (t.itable jp).lock = (s.itable jp).lock)
    (mine : (s.itable dp).lock = some s.current) (free : ∀ jp ≠ dp, (s.itable jp).lock = none)
    (count : ip ≠ dp → (t.itable dp).ref = (s.itable dp).ref)
    {Q : Option InodePtr → State → Prop} {E : Halt → State → Prop}
    (next : ∀ x v₃, Entering sb dp ip type s v x v₃ → wp (createEntry sb dp ip name) Q E x) :
    wp (do
        ilock sb ip
        updInode ip fun inode => { inode with major, minor, nlink := 1 }
        iupdate sb ip
        linkParent sb dp type
        createEntry sb dp ip name) Q E t := by
  obtain ⟨inside, unused, inodes, step, got⟩ := assigned
  have slot := h.good.cached.slot dp ready.live
  set d := (s.itable dp).inum with dirIs
  have other : d ≠ i := by
    intro same
    rw [same, unused] at dir
    exact absurd dir (by decide)
  have apart : ip ≠ dp := by
    rintro rfl
    exact other ((step.onward.inum ip ready.live).symm.trans got.inum)
  have new : v'.inode i = freshDinode type := by
    rw [inodes]
    exact Function.update_self ..
  have old : ∀ j ≠ i, v'.inode j = v.inode j := by
    intro j differs
    rw [inodes]
    exact Function.update_of_ne differs ..
  obtain ⟨inode, run, lock⟩ := ilock_free step.good.shows got.live (got.inum ▸ inside)
    ((locks ip).trans (free ip apart)) (by rw [got.inum, new]; exact some')
  obtain ⟨locked, read, -⟩ := wp_ok (@ilock_ends sb ip t v' step.good) run
  rw [wp_goes (bind_ok run)]
  set u := t.setInode ip inode with uIs
  have uLocks : ∀ jp ≠ ip, (u.itable jp).lock = (s.itable jp).lock := by
    intro jp differs
    rw [uIs, State.setInode_itable, Function.update_of_ne differs, locks]
  have uMine : (u.itable ip).lock = some s.current := by
    rw [uIs, State.setInode_itable, Function.update_self, lock, step.current]
  have inum : (u.itable ip).inum = i := (locked.onward.inum ip got.live).trans got.inum
  have onward := step.onward.trans locked.onward
  have relinks : Relinks fun inode => { inode with major, minor, nlink := 1 } :=
    relinks_fresh major minor 1
  show wp ((do updInode ip fun inode => { inode with major, minor, nlink := 1 }; iupdate sb ip) >>=
    fun _ => do linkParent sb dp type; createEntry sb dp ip name) _ _ u
  rw [wp_bind]
  refine wp_of_run (fun _ w run => ?_) fun e _ run => ?_
  swap
  · refine ((wp_error store_cost run).never ?_ ?_).elim
    · exact open'.ge
    · show t.lh.length + 1 ≤ 30
      omega
  obtain ⟨wGrew, -⟩ := wp_ok store_cost run
  obtain ⟨v₂, stored, relinked, same, -, wLocks⟩ :=
    wp_ok (store_relinks valid locked.good read relinks fun _ => rfl) run
  rw [inum] at relinked same
  have onward' := onward.trans stored.onward
  have dpReady := onward'.ready ready
  have dpInum : (w.itable dp).inum = d := onward'.inum dp ready.live
  rw [wp_bind]
  refine wp_of_run (fun _ x run' => ?_) fun e _ run' => ?_
  swap
  · have size : u.lh.length = 1 := room
    have grown := wGrew.lh
    refine ((wp_error linkParent_cost run').never ?_ ?_).elim
    · rw [wGrew.outstanding]
      exact open'.ge
    · show w.lh.length + 1 ≤ 30
      omega
  obtain ⟨xGrew, -⟩ := wp_ok linkParent_cost run'
  obtain ⟨v₃, linked, relinked', same', nlink, xLocks⟩ :=
    wp_ok (linkParent_relinks valid stored.good dpReady type) run'
  rw [dpInum] at relinked' same' nlink
  -- the directory is as it was but for its links
  have before : v₂.inode d = v.inode d := (same d other).trans (old d other)
  have all : Relinked v v₃ d := by
    refine ⟨?_, ?_, ?_, ?_, ?_⟩
    · rw [relinked'.used, relinked.used, inodes]
      rfl
    · rw [relinked'.data, relinked.data, inodes]
      rfl
    · rw [relinked'.type, before]
    · rw [relinked'.size, before]
    · rw [relinked'.addrs, before]
  have node : (v₃.inode i).size = 0 := by
    rw [same' i other.symm, relinked.size, new]
    rfl
  have kept : ∀ j ≠ i, Kept v v₃ j := by
    intro j differs
    by_cases this : j = d
    · rw [this]
      exact all.kept
    · have inode : v₃.inode j = v.inode j :=
        (same' j this).trans ((same j differs).trans (old j differs))
      refine Relinked.kept ⟨all.used, all.data, ?_, ?_, ?_⟩ <;> rw [inode]
  have tidy : NoOrphan sb x v₃ := by
    have one : NoOrphan sb w v₂ := by
      refine h.tidy.update onward' (stored.onward.ready read) fun j differs => ?_
      rw [stored.onward.inum ip read.live, inum] at differs
      rw [same j differs, old j differs]
    refine one.update linked.onward (linked.onward.ready dpReady) fun j differs => ?_
    rw [linked.onward.inum dp dpReady.live, dpInum] at differs
    exact same' j differs
  have tables : Tables sb v₃ := by
    intro j hj type'
    by_cases this : j = i
    · have none : v₃.count j = 0 := by
        unfold Disk.count
        rw [this, node]
        rfl
      refine ⟨by rw [this, node]; exact Nat.zero_mod _, fun l less => ?_⟩
      omega
    · exact (kept j this).tabular (h.good.solid j hj).size (h.tables j hj ((kept j this).type ▸ type'))
  have onward'' := onward'.trans linked.onward
  have dpReady' := onward''.ready ready
  have dpInum' : (x.itable dp).inum = d := onward''.inum dp ready.live
  have ipReady := linked.onward.ready (stored.onward.ready read)
  have ipInum : (x.itable ip).inum = i := by
    rw [linked.onward.inum ip (stored.onward.live read.live), stored.onward.inum ip read.live, inum]
  have files : SameFiles s x :=
    ((step.files.trans locked.files).trans stored.files).trans linked.files
  have current := files.current
  have logged : x.outstanding = 1 ∧ x.lh.length ≤ 3 := by
    have one := wGrew.outstanding
    have two := xGrew.outstanding
    have three := wGrew.lh
    have four := xGrew.lh
    have five : u.outstanding = t.outstanding ∧ u.lh = t.lh := ⟨rfl, rfl⟩
    rw [five.1] at one
    rw [five.2] at three
    omega
  have counts : (x.itable dp).ref = (s.itable dp).ref := by
    have one : (u.itable dp).ref = (t.itable dp).ref := by
      rw [uIs, State.setInode_itable, Function.update_of_ne apart.symm]
    have neutral : refs.Neutral (do
        updInode ip fun inode => { inode with major, minor, nlink := 1 }
        iupdate sb ip) := store_refs fun _ => rfl
    have two := (neutral.ok run).ref dp
    have three := ((linkParent_refs type).ok run').ref dp
    rw [Pi.zero_apply] at two three
    rw [three, two, one, count apart, add_zero, add_zero]
  refine next x v₃ ⟨⟨linked.good, tidy, tables⟩, dpReady', ipReady.live, ?_, dpInum', apart, counts,
    ⟨?_, ?_⟩, logged, files, all, ?_⟩
  · rw [ipInum]
    exact above
  · rw [xLocks, wLocks, uLocks dp apart.symm, mine, current]
  · rw [xLocks, wLocks, uMine, current]
  · rw [nlink, before]

/-- `create` gets to the point where it enters an inode, if it finds one that is free. -/
theorem createNew_starts (valid : sb.Valid) {type major minor : Int16} (h : Ordered sb s v)
    (ready : Ready s dp) (dir : (v.inode (s.itable dp).inum).type = T_DIR) (name : Path)
    (open' : s.outstanding = 1) (empty : s.lh = []) (mine : (s.itable dp).lock = some s.current)
    (free : ∀ jp ≠ dp, (s.itable jp).lock = none) {Q : Option InodePtr → State → Prop}
    {E : Halt → State → Prop}
    (stop : ¬ (type ≠ 0 ∧ ∃ i, v.firstFree sb = some i ∧ s.Seat i) → ∀ e t, E e t)
    (next : type ≠ 0 → (∃ i, v.firstFree sb = some i ∧ s.Seat i) → ∀ ip x v₃,
      Entering sb dp ip type s v x v₃ → wp (createEntry sb dp ip name) Q E x) :
    wp (createNew sb dp name type major minor) Q E s := by
  have slot := h.good.cached.slot dp ready.live
  have root : 1 < sb.ninodes := valid.root
  unfold createNew
  rw [wp_bind, wp_get, slot.dev, wp_bind]
  have exact' := ialloc_wp h.good open' empty type root.le
  have ends := ialloc_ends valid h.good type
  refine wp_of_run (fun r t run => ?_) fun e t run => ?_
  swap
  · refine stop ?_ e t
    rintro ⟨-, i, first, seat⟩
    obtain ⟨-, j, first', unseated⟩ := wp_error (E := fun e _ => e = noInodes ∧
      ∃ i, v.firstFree sb = some i ∧ ¬ s.Seat i) exact' run
    rw [first] at first'
    cases first'
    exact unseated seat
  rcases wp_ok exact' run with ⟨rfl, none'⟩ | ⟨some', seated, outstanding, room, locks⟩
  · refine stop ?_ _ t
    rintro ⟨-, i, first, -⟩
    rw [none'] at first
    cases first
  rcases wp_ok ends run with ⟨rfl, -⟩ | ⟨ip, i, v', rfl, above, assigned⟩
  · exact absurd rfl some'
  by_cases typeless : type = 0
  · -- an inode without a type cannot be locked
    have new : v'.inode i = freshDinode type := by
      rw [assigned.inodes]
      exact Function.update_self ..
    show wp (ilock sb ip >>= _) _ _ t
    rw [wp_bind]
    refine wp_of_run (fun _ u locking => ?_) fun e u _ => stop (fun makes => makes.1 typeless) e u
    obtain ⟨step, read, -⟩ := wp_ok (@ilock_ends sb ip t v' assigned.step.good) locking
    have inode := step.good.cached.slot ip read.live
    have typed := inode.typed read.valid
    rw [inode.synced read.valid, step.onward.inum ip assigned.got.live, assigned.got.inum, new] at typed
    exact absurd typeless typed
  · refine createNew_enters valid h ready dir name above assigned outstanding room typeless locks mine
      free (fun apart => ?_) (next typeless seated ip)
    have count := ((ialloc_refs ROOTDEV type).ok run).ref dp
    rw [count, given, one_other apart.symm, add_zero]

/-- `create` makes an inode exactly if it can be made and entered. -/
theorem createNew_wp (valid : sb.Valid) (few : sb.ninodes ≤ 65536) {type : Int16} (major minor : Int16)
    (h : Ordered sb s v) (ready : Ready s dp) (spare : Spare s v dp)
    (dir : (v.inode (s.itable dp).inum).type = T_DIR) (name : Path)
    (missing : v.lookup (s.itable dp).inum name = none)
    (held : type = T_DIR → (v.inode (s.itable dp).inum).nlink = -1 → 2 ≤ (s.itable dp).ref)
    (open' : s.outstanding = 1) (empty : s.lh = []) (mine : (s.itable dp).lock = some s.current)
    (free : ∀ jp ≠ dp, (s.itable jp).lock = none) :
    wp (createNew sb dp name type major minor)
      (fun r t => Makes sb s v (s.itable dp).inum type ∧
        ∃ ip, r = some ip ∧ Listed sb (s.itable dp).inum name ip s t)
      (fun _ _ => ¬ Makes sb s v (s.itable dp).inum type) s := by
  have bound := (h.good.solid _ (h.good.cached.slot dp ready.live).inside).size
  refine createNew_starts valid h ready dir name open' empty mine free
    (fun never _ _ makes => never ⟨makes.1, makes.2.2⟩) fun typed seated ip x v₃ entering => ?_
  obtain ⟨ordered, ready', live, above, inum, apart, count, locks, log, files, relinked, nlink⟩ := entering
  have dir' : (x.itable dp).type = T_DIR := by
    rw [(ordered.good.cached.slot dp ready'.live).synced ready'.valid, inum, relinked.type]
    exact dir
  have entry := createEntry_wp valid few ordered ready' dir' live above name apart locks.1 locks.2
    log.1 log.2 (by rw [inum, relinked.kept.lookup bound]; exact missing) fun zero => ?_
  · rw [inum, relinked.full bound] at entry
    refine wp_mono entry (fun r t ⟨notFull, is, entered⟩ => ⟨⟨typed, notFull, seated⟩, ip, is, ?_⟩)
      fun _ _ full makes => makes.2.1 full
    exact { entered with files := files.trans entered.files }
  · rw [inum, nlink] at zero
    rw [count]
    by_cases isDir : type = T_DIR
    · rw [if_pos isDir] at zero
      exact held isDir (by rw [← Int16.add_left_inj 1, zero]; decide)
    · rw [if_neg isDir, Int16.add_zero] at zero
      exact spare (by rw [dir]; decide) zero

/-- The directory whose count of links comes round to zero is freed. -/
theorem createEntry_frees (valid : sb.Valid) (few : sb.ninodes ≤ 65536) (h : Ordered sb s v)
    (ready : Ready s dp) (dir : (s.itable dp).type = T_DIR) (live : 0 < (s.itable ip).ref)
    (some' : 1 ≤ (s.itable ip).inum) (name : Path) (alone : (s.itable dp).ref = 1)
    (zero : (v.inode (s.itable dp).inum).nlink = 0) :
    wp (createEntry sb dp ip name) (fun r t => r ≠ none ∧ ∃ v', Good sb t v' ∧
      (v'.inode (s.itable dp).inum).type = 0) (fun _ _ => True) s := by
  have slot := h.good.cached.slot dp ready.live
  have type : (v.inode (s.itable dp).inum).type = T_DIR := by
    rw [← slot.synced ready.valid]
    exact dir
  have inside := (h.good.cached.slot ip live).inside
  have linked := dirlink_wp valid h.good.toConsistent ready dir (h.tables _ slot.inside type) name some'
    (show (s.itable ip).inum ≤ 65535 by omega)
  unfold createEntry
  rw [wp_bind, wp_get, wp_bind]
  refine wp_of_run (fun r t run => ?_) fun _ _ _ => trivial
  obtain ⟨v', post⟩ := wp_ok linked run
  have after := post.ordered h type slot.inside inside
  have count := ((dirlink_refs name (s.itable ip).inum).ok run).ref dp
  rw [Pi.zero_apply, alone] at count
  split
  · trivial
  have inum := post.onward.inum dp ready.live
  have read := post.onward.valid dp ready.live ready.valid
  rw [wp_bind]
  refine wp_mono (iunlockput_ends valid after.good) (fun _ u ⟨t', v'', relocked, put⟩ => ?_)
    fun _ _ _ => trivial
  have unlocked := relocked.step after.good
  have last : Last t' dp := by
    have live' := post.onward.live ready.live
    have read' := unlocked.onward.valid dp live' read
    refine ⟨by rw [relocked.refs, count]; rfl, read', ?_⟩
    rw [(unlocked.good.cached.slot dp (unlocked.onward.live live')).synced read', relocked.inum, inum,
      post.links.2]
    exact zero
  have gone := (put.freed last).1
  rw [relocked.inum, inum] at gone
  rw [wp_bind]
  refine wp_mono iunlock_ends (fun _ w relocked' => ?_) fun _ _ _ => trivial
  have good := (relocked'.step put.good).good
  rw [wp_bind]
  refine wp_mono endOp_ends (fun _ x ended => ?_) fun _ _ _ => trivial
  exact ⟨Option.some_ne_none _, v'', (ended.step good).good, gone⟩

/-- `create` of a directory frees the parent, if its count of links comes round to zero and nobody
else holds it. -/
theorem createNew_frees (valid : sb.Valid) (few : sb.ninodes ≤ 65536) (major minor : Int16)
    (h : Ordered sb s v) (ready : Ready s dp) (dir : (v.inode (s.itable dp).inum).type = T_DIR)
    (name : Path) (wraps : (v.inode (s.itable dp).inum).nlink = -1) (alone : (s.itable dp).ref = 1)
    (open' : s.outstanding = 1) (empty : s.lh = []) (mine : (s.itable dp).lock = some s.current)
    (free : ∀ jp ≠ dp, (s.itable jp).lock = none) :
    wp (createNew sb dp name T_DIR major minor) (fun r t => r ≠ none ∧ ∃ v', Good sb t v' ∧
      (v'.inode (s.itable dp).inum).type = 0) (fun _ _ => True) s := by
  refine createNew_starts valid h ready dir name open' empty mine free (fun _ _ _ => trivial)
    fun _ _ ip x v₃ entering => ?_
  obtain ⟨ordered, ready', live, above, inum, -, count, -, -, -, relinked, nlink⟩ := entering
  have dir' : (x.itable dp).type = T_DIR := by
    rw [(ordered.good.cached.slot dp ready'.live).synced ready'.valid, inum, relinked.type]
    exact dir
  have entry := createEntry_frees valid few ordered ready' dir' live above name (count.trans alone) (by
    rw [inum, nlink, wraps, if_pos rfl]
    decide)
  rw [inum] at entry
  exact entry

end New

end Xv6Lab.Fs

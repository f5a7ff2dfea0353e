import Xv6Lab.Fs.Completion

/-! Files that a process reads.  `ker_read` goes through the file in chunks of its buffer, each in a
transaction of its own, and copies each to the user; it returns the bytes that there are, and its
descriptor's offset moves past them. -/

namespace Xv6Lab.Fs

open Bytes Exec

/-- Between two operations, the open file `f` is that of inode `i`, which `ip` has in memory. -/
structure Handle (sb : Superblock) (v : Disk) (f : FilePtr) (ip : InodePtr) (i : Nat) (s : State) :
    Prop where
  consistent : Consistent sb s v
  idle : Idle s
  type : (s.ftable f).type = .inode
  inode : (s.ftable f).ip = some ip
  live : 0 < (s.itable ip).ref
  inum : (s.itable ip).inum = i
  typed : (v.inode i).type ≠ 0

/-- An operation on the file has changed nothing but the file's offset, which is `off`, and what is
in memory of its inode. -/
structure Moved (f : FilePtr) (off : Nat) (s t : State) : Prop where
  ftable : t.ftable = Function.update s.ftable f { s.ftable f with off := off }
  procs : t.procs = s.procs
  current : t.current = s.current

section Read

variable {sb : Superblock} {v : Disk} {f : FilePtr} {ip : InodePtr} {i off off' : Nat} {s t u : State}

theorem Moved.refl (s : State) (f : FilePtr) : Moved f (s.ftable f).off s s :=
  ⟨(Function.update_eq_self f s.ftable).symm, rfl, rfl⟩

theorem Moved.off_eq (h : Moved f off s t) : (t.ftable f).off = off := by
  rw [h.ftable, Function.update_self]

theorem Moved.trans (one : Moved f off s t) (two : Moved f off' t u) : Moved f off' s u := by
  refine ⟨?_, two.procs.trans one.procs, two.current.trans one.current⟩
  rw [two.ftable, one.ftable, Function.update_self, Function.update_idem]

theorem Moved.readable (h : Moved f off s t) : (t.ftable f).readable = (s.ftable f).readable := by
  rw [h.ftable, Function.update_self]

theorem Moved.writable (h : Moved f off s t) : (t.ftable f).writable = (s.ftable f).writable := by
  rw [h.ftable, Function.update_self]

/-! ### The lock of the file -/

/-- The inode at `ip`, read from the disk. -/
def State.cached (s : State) (v : Disk) (ip : InodePtr) (lock : Option Pid) : Inode :=
  { s.itable ip with toDinode := v.inode (s.itable ip).inum, valid := true, lock := lock }

/-- `ilock` takes a free lock, and has the inode in memory afterwards. -/
theorem ilock_run (h : Consistent sb s v) (live : 0 < (s.itable ip).ref)
    (free : (s.itable ip).lock = none) (typed : (v.inode (s.itable ip).inum).type ≠ 0) :
    ilock sb ip s = .ok () (s.setInode ip (s.cached v ip (some s.current))) := by
  have slot := h.cached.slot ip live
  by_cases read : (s.itable ip).valid = true
  · have same : s.cached v ip (some s.current) = { s.itable ip with lock := some s.current } := by
      unfold State.cached
      rw [← slot.synced read, ← read]
    unfold ilock
    rw [bind_get, if_neg (by omega),
      bind_ok (acquiresleep_free free), if_pos read, same]
    rfl
  · exact ilock_reads h.shows live slot.inside free typed read

/-- The entry of an inode in use is read, locked or unlocked. -/
theorem Consistent.recached (h : Consistent sb s v) (live : 0 < (s.itable ip).ref)
    (typed : (v.inode (s.itable ip).inum).type ≠ 0) (lock : Option Pid) :
    Consistent sb (s.setInode ip (s.cached v ip lock)) v := by
  have slot := h.cached.slot ip live
  have self : (s.setInode ip (s.cached v ip lock)).itable ip = s.cached v ip lock :=
    Function.update_self ..
  have others : ∀ jp ≠ ip, (s.setInode ip (s.cached v ip lock)).itable jp = s.itable jp :=
    fun jp other => Function.update_of_ne other ..
  refine ⟨h.shows.congr rfl, h.own, h.solid, h.cached.change others (fun _ _ _ => rfl) fun _ => ?_⟩
  rw [self]
  refine ⟨⟨slot.dev, slot.inside, fun _ => rfl, fun _ => typed⟩, fun jp other used same => other ?_⟩
  exact h.cached.unique jp ip used live same

/-- In an operation on the file, with the lock of its inode. -/
structure Locked (sb : Superblock) (v : Disk) (f : FilePtr) (ip : InodePtr) (i : Nat) (s : State) :
    Prop where
  consistent : Consistent sb s v
  outstanding : s.outstanding = 1
  type : (s.ftable f).type = .inode
  inode : (s.ftable f).ip = some ip
  ready : Ready s ip
  inum : (s.itable ip).inum = i
  lock : (s.itable ip).lock = some s.current
  others : ∀ jp ≠ ip, (s.itable jp).lock = none

/-- An operation on the file has got the lock. -/
def State.started (s : State) (v : Disk) (ip : InodePtr) : State :=
  (s.setLog 1 []).setInode ip (s.cached v ip (some s.current))

/-- The lock is given back, and the transaction ends. -/
def State.ended (s : State) (ip : InodePtr) : State :=
  (s.setInode ip { s.itable ip with lock := none }).setLog 0 []

theorem Handle.started (h : Handle sb v f ip i s) : Locked sb v f ip i (s.started v ip) := by
  have typed : (v.inode (s.itable ip).inum).type ≠ 0 := h.inum ▸ h.typed
  have self : (s.started v ip).itable ip = s.cached v ip (some s.current) := Function.update_self ..
  have logged : Consistent sb (s.setLog 1 []) v :=
    ⟨h.consistent.shows.congr rfl, h.consistent.own, h.consistent.solid, h.consistent.cached.slot,
      h.consistent.cached.unique⟩
  have again : Consistent sb (s.started v ip) v := logged.recached h.live typed _
  refine ⟨again, rfl, h.type, h.inode, ⟨?_, ?_⟩, ?_, ?_,
    fun jp other => ?_⟩
  · rw [self]
    exact h.live
  · rw [self]
    rfl
  · rw [self]
    exact h.inum
  · rw [self]
    rfl
  · exact (congrArg Inode.lock (Function.update_of_ne other ..)).trans (h.idle.unlocked jp)

theorem Locked.ended (h : Locked sb v f ip i s) : Handle sb v f ip i (s.ended ip) := by
  have self : (s.ended ip).itable ip = { s.itable ip with lock := none } := Function.update_self ..
  have others : ∀ jp ≠ ip, (s.ended ip).itable jp = s.itable jp := fun jp other =>
    Function.update_of_ne other ..
  have slot := h.consistent.cached.slot ip h.ready.live
  have typed : (s.itable ip).type ≠ 0 := slot.typed h.ready.valid
  refine ⟨⟨h.consistent.shows.congr rfl, h.consistent.own, h.consistent.solid,
    h.consistent.cached.change others (fun _ _ _ => rfl) fun _ => ?_⟩, ⟨rfl, rfl, fun jp => ?_⟩, h.type,
    h.inode, ?_, ?_, ?_⟩
  · rw [self]
    refine ⟨⟨slot.dev, slot.inside, slot.synced, slot.typed⟩, fun jp other used same => other ?_⟩
    exact h.consistent.cached.unique jp ip used h.ready.live same
  · by_cases this : jp = ip
    · rw [this, self]
    · rw [others jp this]
      exact h.others jp this
  · rw [self]
    exact h.ready.live
  · rw [self]
    exact h.inum
  · rw [← h.inum, ← slot.synced h.ready.valid]
    exact typed

/-- The last operation of a transaction ends. -/
theorem endOp_run (last : s.outstanding = 1) : endOp s = .ok () (s.setLog 0 []) := by
  show EStateM.Result.ok () (s.setLog (s.outstanding - 1) (if s.outstanding - 1 = 0 then [] else s.lh)) =
    _
  rw [last]
  rfl

/-- `read` and `write` run in a transaction, with the lock of the inode. -/
theorem operation_wp {α : Type} {x : F α} {Q : α → State → Disk → Prop} {E : Halt → State → Prop}
    (h : Handle sb v f ip i s)
    (body : wp x (fun r t => ∃ w, Locked sb w f ip i t ∧ Q r t w) E (s.started v ip)) :
    wp (do
        beginOp
        filelock sb f
        let r ← x
        fileunlock f
        endOp
        pure r) (fun r u => ∃ t w, u = t.ended ip ∧ Handle sb w f ip i u ∧ Q r t w) E s := by
  have typed : (v.inode (s.itable ip).inum).type ≠ 0 := h.inum ▸ h.typed
  have logged : Consistent sb (s.setLog 1 []) v :=
    ⟨h.consistent.shows.congr rfl, h.consistent.own, h.consistent.solid, h.consistent.cached.slot,
      h.consistent.cached.unique⟩
  have locks : filelock sb f (s.setLog 1 []) = .ok () (s.started v ip) := by
    unfold filelock
    rw [bind_get]
    rw [State.setLog_ftable, h.type, h.inode]
    exact ilock_run (s := s.setLog 1 []) logged h.live (h.idle.unlocked ip) typed
  rw [wp_goes (bind_ok (beginOp_run h.idle.outstanding h.idle.lh)), wp_goes (bind_ok locks), wp_bind]
  refine wp_conseq body fun r t ⟨w, locked, q⟩ => ?_
  have unlocks : fileunlock f t = .ok () (t.setInode ip { t.itable ip with lock := none }) := by
    unfold fileunlock
    rw [bind_get, locked.type, locked.inode]
    exact iunlock_run locked.ready.live locked.lock
  rw [wp_goes (bind_ok unlocks), wp_goes (bind_ok (endOp_run (s := t.setInode ip _) locked.outstanding)),
    wp_pure]
  exact ⟨t, w, rfl, locked.ended, q⟩

/-- An operation that finds nothing to do. -/
theorem operation_still {α : Type} {x : F α} {a : α} (h : Handle sb v f ip i s)
    (run : x (s.started v ip) = .ok a (s.started v ip)) :
    wp (do
        beginOp
        filelock sb f
        let r ← x
        fileunlock f
        endOp
        pure r) (fun r t => Handle sb v f ip i t ∧ Moved f (s.ftable f).off s t ∧ r = a)
      (fun _ _ => False) s := by
  have body : wp x (fun r t => ∃ w, Locked sb w f ip i t ∧ w = v ∧ t = s.started v ip ∧ r = a)
      (fun _ _ => False) (s.started v ip) := by
    rw [wp_value run]
    exact ⟨v, h.started, rfl, rfl, rfl⟩
  refine wp_conseq (operation_wp h body) ?_
  rintro r u ⟨t, w, is, handle, rfl, rfl, value⟩
  refine ⟨handle, ?_, value⟩
  rw [is]
  exact ⟨(Function.update_eq_self f s.ftable).symm, rfl, rfl⟩

/-! ### `read` -/

/-- The number of bytes that a file has from an offset on, at most `n`. -/
def Disk.available (v : Disk) (i off n : Nat) : Nat := min n ((v.inode i).size - off)

/-- `readi` of few bytes, from any offset on. -/
theorem readi_run (h : Consistent sb s v) (ready : Ready s ip) (inum : (s.itable ip).inum = i)
    (dst : Buffer) (off : Nat) {n : Nat} (few : n ≤ KBUF) : readi sb ip dst off n s =
      .ok (v.available i off n, blit dst 0 (fun k => v.content (v.inode i) (off + k))
        (v.available i off n)) s := by
  have synced : (s.itable ip).toDinode = v.inode i := by
    rw [(h.cached.slot ip ready.live).synced ready.valid, inum]
  have size := (h.solidInode ready).size
  have bound : MAXFILE * BSIZE = 274432 := by decide
  have buffer : KBUF = 256 := rfl
  unfold Disk.available
  rw [← synced]
  by_cases small : off + n < 2 ^ 32
  · exact readi_ok h ready dst small
  · unfold readi
    show (if _ then _ else _ : F (Int × Buffer)) s = _
    rw [if_pos (.inl (by omega)), show min n ((s.itable ip).size - off) = 0 by omega]
    have none : blit dst 0 (fun k => v.content (s.itable ip).toDinode (off + k)) 0 = dst := by
      funext k
      exact blit_out (by omega)
    rw [none]
    rfl

theorem advance_run (r : Nat) (fits : 0 < r → (s.ftable f).off + r < 2 ^ 32) : advance f r s =
    .ok () (s.setFile f { s.ftable f with off := (s.ftable f).off + r }) := by
  unfold advance
  by_cases some : 0 < (r : Int)
  · have wraps : ((s.ftable f).off + (r : Int).toNat) % 2 ^ 32 = (s.ftable f).off + r := by
      rw [Int.toNat_natCast, Nat.mod_eq_of_lt (fits (by omega))]
    rw [if_pos some]
    show EStateM.Result.ok () (s.setFile f { s.ftable f with
      off := ((s.ftable f).off + (r : Int).toNat) % 2 ^ 32 }) = _
    rw [wraps]
  · have same : s.setFile f (s.ftable f) = s := by
      unfold State.setFile
      rw [Function.update_eq_self]
    rw [if_neg some, show r = 0 by omega, Nat.add_zero, same]
    rfl

/-- The file's offset changes, while an operation holds the lock. -/
theorem Locked.setOff (h : Locked sb v f ip i s) (off : Nat) :
    Locked sb v f ip i (s.setFile f { s.ftable f with off := off }) := by
  have self : (s.setFile f { s.ftable f with off := off }).ftable f = { s.ftable f with off := off } :=
    Function.update_self ..
  refine ⟨⟨h.consistent.shows.congr rfl, h.consistent.own, h.consistent.solid, h.consistent.cached.slot,
    h.consistent.cached.unique⟩, h.outstanding, ?_, ?_, ⟨h.ready.live, h.ready.valid⟩, h.inum, h.lock,
    h.others⟩
  · rw [self]
    exact h.type
  · rw [self]
    exact h.inode

/-- `fileread` returns the bytes that there are, and moves the offset past them. -/
theorem fileread_run (h : Locked sb v f ip i s) (readable : (s.ftable f).readable = true)
    (kbuf : Buffer) {n : Nat} (few : n ≤ KBUF) :
    fileread sb f kbuf n s = .ok (v.available i (s.ftable f).off n,
        blit kbuf 0 (fun k => v.content (v.inode i) ((s.ftable f).off + k))
          (v.available i (s.ftable f).off n))
      (s.setFile f { s.ftable f with off := (s.ftable f).off + v.available i (s.ftable f).off n }) := by
  have buffer : KBUF = 256 := rfl
  have count : asUint n = n := by
    unfold asUint
    omega
  have synced : (s.itable ip).toDinode = v.inode i := by
    rw [(h.consistent.cached.slot ip h.ready.live).synced h.ready.valid, h.inum]
  have size := (h.consistent.solidInode h.ready).size
  have bound : MAXFILE * BSIZE = 274432 := by decide
  have within : 0 < v.available i (s.ftable f).off n →
      (s.ftable f).off + v.available i (s.ftable f).off n < 2 ^ 32 := by
    unfold Disk.available
    rw [← synced]
    omega
  have mine : s.holdingsleep ip := h.lock
  have moves := advance_run _ within
  set moved := s.setFile f { s.ftable f with
    off := (s.ftable f).off + v.available i (s.ftable f).off n }
  unfold fileread
  rw [bind_get]
  dsimp only
  rw [if_neg (by rw [readable]; decide), h.type, h.inode]
  dsimp only
  rw [if_pos mine, count, bind_ok (readi_run h.consistent h.ready h.inum kbuf _ few)]
  dsimp only
  rw [bind_ok moves]
  rfl

/-- The file is not open for reading. -/
theorem fileread_refuses (readable : (s.ftable f).readable = false) (kbuf : Buffer) (n : Int) :
    fileread sb f kbuf n s = .ok (-1, kbuf) s := by
  unfold fileread
  rw [bind_get]
  dsimp only
  rw [if_pos readable]
  rfl

/-- `read` of few bytes. -/
theorem read_wp (h : Handle sb v f ip i s) (readable : (s.ftable f).readable = true) (kbuf : Buffer)
    {n : Nat} (few : n ≤ KBUF) :
    wp (read sb f kbuf n) (fun r t => Handle sb v f ip i t ∧
        Moved f ((s.ftable f).off + v.available i (s.ftable f).off n) s t ∧
        r = ((v.available i (s.ftable f).off n : Int),
          blit kbuf 0 (fun k => v.content (v.inode i) ((s.ftable f).off + k))
            (v.available i (s.ftable f).off n)))
      (fun _ _ => False) s := by
  have run := fileread_run h.started readable kbuf few
  have body : wp (fileread sb f kbuf n) (fun r t => ∃ w, Locked sb w f ip i t ∧ w = v ∧
      t = (s.started v ip).setFile f { s.ftable f with
        off := (s.ftable f).off + v.available i (s.ftable f).off n } ∧
      r = ((v.available i (s.ftable f).off n : Int),
        blit kbuf 0 (fun k => v.content (v.inode i) ((s.ftable f).off + k))
          (v.available i (s.ftable f).off n))) (fun _ _ => False) (s.started v ip) := by
    rw [wp_value run]
    exact ⟨v, h.started.setOff _, rfl, rfl, rfl⟩
  refine wp_conseq (operation_wp h body) ?_
  rintro r u ⟨t, w, is, handle, rfl, rfl, value⟩
  refine ⟨handle, ?_, value⟩
  rw [is]
  exact ⟨rfl, rfl, rfl⟩

/-- `read` of a file that is not open for reading. -/
theorem read_refuses (h : Handle sb v f ip i s) (readable : (s.ftable f).readable = false)
    (kbuf : Buffer) (n : Int) :
    wp (read sb f kbuf n) (fun r t => Handle sb v f ip i t ∧ Moved f (s.ftable f).off s t ∧ r.1 = -1)
      (fun _ _ => False) s := by
  have run : fileread sb f kbuf n (s.started v ip) = _ :=
    fileread_refuses (s := s.started v ip) readable kbuf n
  refine wp_conseq (operation_still h run) ?_
  rintro r t ⟨handle, moved, rfl⟩
  exact ⟨handle, moved, rfl⟩

end Read

/-! ### User memory -/

/-- The first `n` bytes from `addr` on are those of `src`. -/
def delivered (user : UserMem) (addr : UserAddr) (src : Buffer) (n : Nat) : UserMem := fun a =>
  if (a - addr).toNat < n then some (src (a - addr).toNat) else user a

/-- Every byte of the range is mapped. -/
def MappedRange (user : UserMem) (addr : UserAddr) (n : Nat) : Prop :=
  ∀ k < n, user (addr + BitVec.ofNat 64 k) ≠ none

section User

variable {user : UserMem} {addr a : UserAddr} {src src' : Buffer} {k n m i left : Nat}

/-- The offset of an address in a range that starts `k` bytes later. -/
theorem offset_later (fits : k + n ≤ 2 ^ 64) : (a - (addr + BitVec.ofNat 64 k)).toNat < n ↔
    k ≤ (a - addr).toNat ∧ (a - addr).toNat < k + n := by
  by_cases none : n = 0
  · omega
  · have small : (BitVec.ofNat 64 k).toNat = k := by
      rw [BitVec.toNat_ofNat]
      exact Nat.mod_eq_of_lt (by omega)
    rw [show a - (addr + BitVec.ofNat 64 k) = (a - addr) - BitVec.ofNat 64 k by bv_omega,
      BitVec.toNat_sub, small]
    have bound := (a - addr).isLt
    omega

theorem offset_sub (later : k ≤ (a - addr).toNat) (fits : k < 2 ^ 64) :
    (a - (addr + BitVec.ofNat 64 k)).toNat = (a - addr).toNat - k := by
  have small : (BitVec.ofNat 64 k).toNat = k := by
    rw [BitVec.toNat_ofNat]
    exact Nat.mod_eq_of_lt fits
  rw [show a - (addr + BitVec.ofNat 64 k) = (a - addr) - BitVec.ofNat 64 k by bv_omega,
    BitVec.toNat_sub, small]
  have bound := (a - addr).isLt
  omega

theorem offset_self (fits : k < 2 ^ 64) : (addr + BitVec.ofNat 64 k - addr).toNat = k := by
  rw [show addr + BitVec.ofNat 64 k - addr = BitVec.ofNat 64 k by bv_omega, BitVec.toNat_ofNat]
  exact Nat.mod_eq_of_lt fits

theorem eq_of_offset (is : (a - addr).toNat = k) : a = addr + BitVec.ofNat 64 k := by
  have same : a - addr = BitVec.ofNat 64 k := by
    rw [← is, BitVec.ofNat_toNat, BitVec.setWidth_eq]
  rw [← same]
  bv_omega

theorem delivered_zero : delivered user addr src 0 = user := by
  funext a
  exact if_neg (Nat.not_lt_zero _)

/-- A delivery goes on where another ends. -/
theorem delivered_more (fits : k + n ≤ 2 ^ 64) (same : ∀ j < n, src' j = src (k + j)) :
    delivered (delivered user addr src k) (addr + BitVec.ofNat 64 k) src' n =
      delivered user addr src (k + n) := by
  funext a
  unfold delivered
  by_cases more : (a - (addr + BitVec.ofNat 64 k)).toNat < n
  · have within := (offset_later fits).mp more
    have later := offset_sub within.1 (by omega)
    rw [if_pos more, if_pos within.2, same _ more, later]
    congr 2
    omega
  · rw [if_neg more]
    by_cases before : (a - addr).toNat < k
    · rw [if_pos before, if_pos (by omega)]
    · have out : ¬ (a - addr).toNat < k + n := fun less =>
        more ((offset_later fits).mpr ⟨by omega, less⟩)
      rw [if_neg before, if_neg out]

/-- `copyout` of a range that is mapped. -/
theorem copyout_mapped (fits : i + left ≤ 2 ^ 64)
    (mapped : ∀ j, i ≤ j → j < i + left → user (addr + BitVec.ofNat 64 j) ≠ none) :
    copyout user addr src i left = (0, delivered user (addr + BitVec.ofNat 64 i)
      (fun j => src (i + j)) left) := by
  induction left generalizing i user with
  | zero => rw [delivered_zero]; rfl
  | succ left ih =>
    obtain ⟨c, is⟩ := Option.ne_none_iff_exists'.mp (mapped i (Nat.le_refl i) (by omega))
    unfold copyout
    rw [is]
    dsimp only
    have one : Function.update user (addr + BitVec.ofNat 64 i) (some (src i)) =
        delivered user (addr + BitVec.ofNat 64 i) (fun j => src (i + j)) 1 := by
      funext a
      unfold delivered
      by_cases here : a = addr + BitVec.ofNat 64 i
      · rw [here, Function.update_self, if_pos (by rw [BitVec.sub_self]; decide), BitVec.sub_self]
        rfl
      · rw [Function.update_of_ne here, if_neg]
        intro less
        have same := eq_of_offset (Nat.lt_one_iff.mp less)
        rw [BitVec.add_zero] at same
        exact here same
    have next : addr + BitVec.ofNat 64 (i + 1) = addr + BitVec.ofNat 64 i + BitVec.ofNat 64 1 := by
      rw [BitVec.ofNat_add, BitVec.add_assoc]
    rw [one, ih (by omega) fun j above below => ?_, next,
      delivered_more (by omega) fun j _ => by rw [Nat.add_assoc], Nat.add_comm 1 left]
    unfold delivered
    split
    · exact Option.some_ne_none _
    · exact mapped j (by omega) (by omega)

/-- `copyout` of a range that is not mapped. -/
theorem copyout_unmapped (missing : ∃ j, i ≤ j ∧ j < i + left ∧ user (addr + BitVec.ofNat 64 j) = none) :
    (copyout user addr src i left).1 = -1 := by
  induction left generalizing i user with
  | zero =>
    obtain ⟨j, above, below, -⟩ := missing
    omega
  | succ left ih =>
    unfold copyout
    obtain ⟨j, above, below, none⟩ := missing
    cases is : user (addr + BitVec.ofNat 64 i) with
    | none => rfl
    | some c =>
      have other : j ≠ i := by
        rintro rfl
        rw [is] at none
        cases none
      have apart : addr + BitVec.ofNat 64 j ≠ addr + BitVec.ofNat 64 i := by
        intro same
        rw [same, is] at none
        cases none
      refine ih ⟨j, by omega, by omega, ?_⟩
      rw [Function.update_of_ne apart]
      exact none

end User

/-! ### `ker_read` -/

section KerRead

variable {sb : Superblock} {v : Disk} {f : FilePtr} {ip : InodePtr} {i : Nat} {s t : State}
  {user : UserMem} {addr : UserAddr}

/-- The bytes of the file from the descriptor's offset on. -/
def Disk.ahead (v : Disk) (i off : Nat) : Buffer := fun k => v.content (v.inode i) (off + k)

/-- `ker_read` has delivered the `m` bytes that there are, or it has met a byte of the user's buffer
that is not mapped, after the offset had moved. -/
def ReadOutcome (v : Disk) (f : FilePtr) (i m : Nat) (user : UserMem) (addr : UserAddr) (s : State)
    (r : Int × UserMem) (t : State) : Prop :=
  (MappedRange user addr m ∧ r = (↑m, delivered user addr (v.ahead i (s.ftable f).off) m) ∧
    Moved f ((s.ftable f).off + m) s t) ∨
  (¬ MappedRange user addr m ∧ r.1 = -1 ∧ ∃ c, 0 < c ∧ Moved f ((s.ftable f).off + c) s t)

/-- The loop of `ker_read`, with `total` bytes delivered. -/
theorem kerReadLoop_wp (readable : (s.ftable f).readable = true) {n : Nat} (small : n < 2 ^ 31)
    (fuel : Nat) {total : Nat} (h : Handle sb v f ip i t)
    (moved : Moved f ((s.ftable f).off + total) s t) (upTo : total ≤ v.available i (s.ftable f).off n)
    (enough : n ≤ total + fuel) (mapped : MappedRange user addr total) (kbuf : Buffer) :
    wp (kerReadLoop sb f addr n fuel total kbuf
        (delivered user addr (v.ahead i (s.ftable f).off) total))
      (fun r u => Handle sb v f ip i u ∧
        ReadOutcome v f i (v.available i (s.ftable f).off n) user addr s r u)
      (fun _ _ => False) t := by
  have atMost : v.available i (s.ftable f).off n ≤ n := Nat.min_le_left ..
  have done : total = v.available i (s.ftable f).off n → ReadOutcome v f i
      (v.available i (s.ftable f).off n) user addr s
      (↑total, delivered user addr (v.ahead i (s.ftable f).off) total) t := by
    intro all
    rw [← all]
    exact .inl ⟨mapped, rfl, moved⟩
  induction fuel generalizing total t kbuf with
  | zero => exact ⟨h, done (by omega)⟩
  | succ fuel ih =>
    unfold kerReadLoop
    by_cases more : total < n
    swap
    · rw [if_neg more]
      exact ⟨h, done (by omega)⟩
    rw [if_pos more]
    dsimp only
    have few : min (n - total) KBUF ≤ KBUF := Nat.min_le_right ..
    have buffer : KBUF = 256 := rfl
    set toRead := min (n - total) KBUF with toReadIs
    set m := v.available i (t.ftable f).off toRead with mIs
    rw [wp_bind]
    refine wp_conseq (read_wp h (moved.readable.trans readable) kbuf few) ?_
    rintro _ u ⟨handle, step, rfl⟩
    rw [moved.off_eq] at step mIs
    rw [moved.off_eq, ← mIs]
    rw [← mIs] at step
    have moved' : Moved f ((s.ftable f).off + (total + m)) s u := by
      rw [← Nat.add_assoc]
      exact moved.trans step
    have atMost' : m ≤ toRead := Nat.min_le_left ..
    have further : total + m ≤ v.available i (s.ftable f).off n := by
      unfold Disk.available at mIs upTo ⊢
      omega
    dsimp only
    by_cases end' : (m : Int) ≤ 0
    · -- the end of the file
      have none : total + m = total := by omega
      rw [if_pos end']
      rw [none] at moved'
      refine ⟨handle, ?_⟩
      have all : total = v.available i (s.ftable f).off n := by
        unfold Disk.available at mIs upTo ⊢
        omega
      rw [← all]
      exact .inl ⟨mapped, rfl, moved'⟩
    rw [if_neg end', Int.toNat_natCast]
    set kbuf' := blit kbuf 0 (fun k => v.content (v.inode i) ((s.ftable f).off + total + k)) m
    set user' := delivered user addr (v.ahead i (s.ftable f).off) total with user'Is
    have address : ∀ j, addr + BitVec.ofNat 64 total + BitVec.ofNat 64 j =
        addr + BitVec.ofNat 64 (total + j) := fun j => by rw [BitVec.ofNat_add, BitVec.add_assoc]
    have untouched : ∀ j < m, user' (addr + BitVec.ofNat 64 (total + j)) =
        user (addr + BitVec.ofNat 64 (total + j)) := by
      intro j less
      rw [user'Is]
      unfold delivered
      rw [if_neg]
      rw [offset_self (by omega)]
      omega
    by_cases here : ∀ j < m, user (addr + BitVec.ofNat 64 (total + j)) ≠ none
    swap
    · -- a byte of the chunk is not mapped
      push Not at here
      obtain ⟨j, less, none⟩ := here
      have fails : (copyout user' (addr + BitVec.ofNat 64 total) kbuf' 0 m).1 = -1 := by
        refine copyout_unmapped ⟨j, Nat.zero_le _, by omega, ?_⟩
        rw [address, untouched j less]
        exact none
      rw [if_pos (by rw [fails]; decide)]
      refine ⟨handle, .inr ⟨fun all => all (total + j) (by omega) none, rfl, total + m, by omega, moved'⟩⟩
    have mapped' : MappedRange user addr (total + m) := by
      intro k less
      by_cases before : k < total
      · exact mapped k before
      · have later := here (k - total) (by omega)
        rwa [show total + (k - total) = k by omega] at later
    have copies : copyout user' (addr + BitVec.ofNat 64 total) kbuf' 0 m =
        (0, delivered user addr (v.ahead i (s.ftable f).off) (total + m)) := by
      rw [copyout_mapped (by omega) fun j _ below => ?_, BitVec.add_zero]
      · rw [user'Is, delivered_more (by omega)]
        intro j less
        rw [Nat.zero_add]
        show blit kbuf 0 _ m j = _
        rw [blit_in (Nat.zero_le j) (by omega), Nat.sub_zero]
        unfold Disk.ahead
        rw [Nat.add_assoc]
      · rw [address, untouched j (by omega)]
        exact here j (by omega)
    rw [copies]
    dsimp only
    rw [if_neg (by decide)]
    by_cases last : (m : Int) < toRead
    · -- fewer bytes than were asked for
      rw [if_pos last]
      refine ⟨handle, ?_⟩
      have all : total + m = v.available i (s.ftable f).off n := by
        unfold Disk.available at mIs upTo ⊢
        omega
      rw [← all]
      exact .inl ⟨mapped', by rw [Nat.cast_add], moved'⟩
    · have whole : m = toRead := by omega
      rw [if_neg last, ← whole]
      refine ih handle moved' further (by omega) mapped' kbuf' fun all => ?_
      rw [← all]
      exact .inl ⟨mapped', rfl, moved'⟩

/-- `fd` is a descriptor of the current process for the open file `f`. -/
def State.Descriptor (s : State) (fd : Int) (f : FilePtr) : Prop :=
  ∃ k, fdIndex fd = some k ∧ (s.procs s.current).ofile k = some f

theorem State.Descriptor.fdget {fd : Int} (h : s.Descriptor fd f) :
    ∃ k, fdget fd s = .ok (some (k, f)) s := by
  obtain ⟨k, index, entry⟩ := h
  refine ⟨k, ?_⟩
  unfold Fs.fdget
  rw [bind_get, index]
  show EStateM.Result.ok _ s = _
  rw [entry]
  rfl

theorem kerRead_wp {fd : Int} (open' : s.Descriptor fd f) (h : Handle sb v f ip i s)
    (readable : (s.ftable f).readable = true) {n : Int} (small : n < 2 ^ 31) (kbuf : Buffer) :
    wp (kerRead sb fd addr n kbuf user)
      (fun r t => Handle sb v f ip i t ∧
        ReadOutcome v f i (v.available i (s.ftable f).off n.toNat) user addr s r t)
      (fun _ _ => False) s := by
  obtain ⟨k, found⟩ := open'.fdget
  have start : Moved f ((s.ftable f).off + 0) s s := .refl s f
  have nothing : MappedRange user addr 0 := fun j less => absurd less (Nat.not_lt_zero j)
  have loop := kerReadLoop_wp readable (show n.toNat < 2 ^ 31 by omega) n.toNat h start
    (Nat.zero_le _) (by omega) nothing kbuf
  rw [delivered_zero] at loop
  unfold kerRead
  rw [wp_goes (bind_ok found)]
  exact loop

/-- Nothing is read from a file that is not open for reading. -/
theorem kerRead_refused {fd : Int} (open' : s.Descriptor fd f) (h : Handle sb v f ip i s)
    (readable : (s.ftable f).readable = false) (n : Int) (kbuf : Buffer) :
    wp (kerRead sb fd addr n kbuf user)
      (fun r t => Handle sb v f ip i t ∧ Moved f (s.ftable f).off s t ∧ r = (0, user))
      (fun _ _ => False) s := by
  obtain ⟨k, found⟩ := open'.fdget
  unfold kerRead
  rw [wp_goes (bind_ok found)]
  show wp (kerReadLoop sb f addr n.toNat n.toNat 0 kbuf user) _ _ s
  cases n.toNat with
  | zero => exact ⟨h, .refl s f, rfl⟩
  | succ n =>
    unfold kerReadLoop
    rw [if_pos (Nat.zero_lt_succ n), wp_bind]
    refine wp_conseq (read_refuses h readable kbuf _) ?_
    rintro ⟨r, kbuf'⟩ t ⟨handle, moved, rfl⟩
    exact ⟨handle, moved, rfl⟩

/-- `ker_read` delivers exactly the bytes that the file has, and no others. -/
theorem kerRead_delivers {fd : Int} (open' : s.Descriptor fd f) (h : Handle sb v f ip i s)
    (readable : (s.ftable f).readable = true) (n : Nat) (small : n < 2 ^ 31)
    (mapped : MappedRange user addr n) (kbuf : Buffer) :
    wp (kerRead sb fd addr n kbuf user)
      (fun (r, user') t => ∃ m : Nat, r = m ∧
        (m : Int) = min (n : Int) (max 0 ((v.inode i).size - (s.ftable f).off)) ∧
        (∀ k < m, user' (addr + BitVec.ofNat 64 k) =
          some (v.content (v.inode i) ((s.ftable f).off + k))) ∧
        (∀ a, (∀ k < m, a ≠ addr + BitVec.ofNat 64 k) → user' a = user a) ∧
        (t.ftable f).off = (s.ftable f).off + m)
      (fun _ _ => False) s := by
  refine wp_conseq (kerRead_wp open' h readable (n := n) (by omega) kbuf) ?_
  rintro ⟨r, user'⟩ t ⟨-, outcome⟩
  rw [Int.toNat_natCast] at outcome
  set m := v.available i (s.ftable f).off n with mIs
  have within : m ≤ n := Nat.min_le_left ..
  have all : MappedRange user addr m := fun k less => mapped k (by omega)
  rcases outcome with ⟨-, is, moved⟩ | ⟨missing, -⟩
  swap
  · exact absurd all missing
  obtain ⟨rfl, rfl⟩ := Prod.mk.inj is
  refine ⟨m, rfl, ?_, fun k less => ?_, fun a away => ?_, moved.off_eq⟩
  · unfold Disk.available at mIs
    omega
  · unfold delivered
    rw [offset_self (by omega), if_pos less]
    rfl
  · unfold delivered
    rw [if_neg]
    intro less
    exact away _ less (eq_of_offset rfl)

end KerRead

/-! ### The root directory of `mkfs`, opened -/

theorem three_lt_nofile : 3 < NOFILE := by decide

/-- The first process has the root directory open for reading, as descriptor 3. -/
def rootOpen : State :=
  (booted.setFile 0 ⟨.inode, 1, true, false, some 0, 0⟩).setProc 0
    ⟨.running, none, some 0, fun fd => if fd = ⟨3, three_lt_nofile⟩ then some 0 else none⟩

theorem rootOpen_handle : Handle fsImg imageDisk 0 0 ROOTINO rootOpen := by
  have consistent := booted_ordered.good.toConsistent
  have type : (imageDisk.inode ROOTINO).type ≠ 0 := by decide
  exact ⟨⟨consistent.shows.congr rfl, consistent.own, consistent.solid, consistent.cached.slot,
    consistent.cached.unique⟩, ⟨rfl, rfl, booted_idle.unlocked⟩, rfl, rfl, by decide, rfl, type⟩

theorem rootOpen_descriptor : rootOpen.Descriptor 3 0 :=
  ⟨⟨3, by decide⟩, by decide, rfl⟩

theorem rootOpen_readable : (rootOpen.ftable 0).readable = true := rfl

/-- More bytes are asked for than the directory has. -/
theorem kerRead_delivers_root :
    wp (kerRead fsImg 3 0x10000 (2000 : Nat) (fun _ => 0) fun _ => some 0)
      (fun (r, user') t => ∃ m : Nat, r = m ∧
        (m : Int) = min ((2000 : Nat) : Int) (max 0 ((imageDisk.inode ROOTINO).size -
          (rootOpen.ftable 0).off)) ∧
        (∀ k < m, user' (0x10000 + BitVec.ofNat 64 k) =
          some (imageDisk.content (imageDisk.inode ROOTINO) ((rootOpen.ftable 0).off + k))) ∧
        (∀ a, (∀ k < m, a ≠ 0x10000 + BitVec.ofNat 64 k) → user' a = some 0) ∧
        (t.ftable 0).off = (rootOpen.ftable 0).off + m)
      (fun _ _ => False) rootOpen := by
  have mapped : MappedRange (fun _ => some 0) 0x10000 2000 := fun _ _ => Option.some_ne_none 0
  have small : 2000 < 2 ^ 31 := by decide
  have open' := rootOpen_descriptor
  have handle := rootOpen_handle
  have readable := rootOpen_readable
  generalize rootOpen = s at open' handle readable ⊢
  generalize 2000 = n at small mapped ⊢
  exact kerRead_delivers open' handle readable n small mapped fun _ => 0

end Xv6Lab.Fs

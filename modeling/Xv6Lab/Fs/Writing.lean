import Xv6Lab.Fs.Growth
import Xv6Lab.Fs.Reading

/-! Files that a process writes.  `ker_write` fills its buffer with `copyin`, which stops at a zero
byte, and writes chunk after chunk, each in a transaction of its own; a chunk that the disk has no
room for is written in part, and moves the offset without being counted. -/

namespace Xv6Lab.Fs

open Bytes Exec

/-- `m` bytes of `src` are in file `i` from `off` on, and the rest of the file system's contents is
as before. -/
structure Overwritten (sb : Superblock) (i off m : Nat) (src : Buffer) (v w : Disk) : Prop where
  size : (w.inode i).size = max (v.inode i).size (off + m)
  others : ∀ j ≠ i, w.inode j = v.inode j
  content : ∀ j < sb.ninodes, ∀ o, o / BSIZE < MAXFILE → w.content (w.inode j) o =
    if j = i ∧ off ≤ o ∧ o < off + m then src (o - off) else v.content (v.inode j) o

/-- `writei` takes on `n` bytes at `off`. -/
def Disk.Accepts (v : Disk) (i off n : Nat) : Prop :=
  off ≤ (v.inode i).size ∧ off + n ≤ MAXFILE * BSIZE

/-- What `write` of `n` bytes leaves: the file refuses them, or it has taken `m` of them, which count
only if they are all. -/
def Stored (sb : Superblock) (v : Disk) (f : FilePtr) (i : Nat) (src : Buffer) (n : Nat) (s : State)
    (r : Int) (t : State) (w : Disk) : Prop :=
  (¬ v.Accepts i (s.ftable f).off n ∧ r = -1 ∧ w = v ∧ Moved f (s.ftable f).off s t) ∨
  (v.Accepts i (s.ftable f).off n ∧ ∃ m ≤ n, r = (if m = n then (n : Int) else -1) ∧
    Overwritten sb i (s.ftable f).off m src v w ∧
    Grows sb (s.ftable f).off m n v (v.inode i) w (w.inode i) ∧ Moved f ((s.ftable f).off + m) s t)

section Write

variable {sb : Superblock} {v v' w : Disk} {f : FilePtr} {ip : InodePtr} {i off m n k : Nat}
  {src src' : Buffer} {s t u : State}

theorem Overwritten.refl (within : off ≤ (v.inode i).size) : Overwritten sb i off 0 src v v := by
  refine ⟨by rw [Nat.add_zero, Nat.max_eq_left within], fun _ _ => rfl, fun j _ o _ => ?_⟩
  rw [if_neg fun inside => by omega]

/-- Bytes are written behind others. -/
theorem Overwritten.trans (one : Overwritten sb i off m src v v')
    (two : Overwritten sb i (off + m) k src' v' w) (same : ∀ j < k, src' j = src (m + j)) :
    Overwritten sb i off (m + k) src v w := by
  refine ⟨?_, fun j other => (two.others j other).trans (one.others j other), fun j inside o small => ?_⟩
  · rw [two.size, one.size]
    omega
  · rw [two.content j inside o small, one.content j inside o small]
    by_cases this : j = i
    · by_cases late : off + m ≤ o ∧ o < off + m + k
      · rw [if_pos ⟨this, late⟩, if_pos ⟨this, by omega, by omega⟩, same _ (by omega)]
        congr 1
        omega
      · rw [if_neg fun h => late h.2]
        by_cases early : off ≤ o ∧ o < off + m
        · rw [if_pos ⟨this, early⟩, if_pos ⟨this, by omega, by omega⟩]
        · rw [if_neg fun h => early h.2, if_neg fun h => by omega]
    · rw [if_neg fun h => this h.1, if_neg fun h => this h.1, if_neg fun h => this h.1]

theorem Wrote.overwritten (h : Wrote sb ip src off m s v t w) (ready : Ready s ip)
    (consistent : Consistent sb s v) (inum : (s.itable ip).inum = i) :
    Overwritten sb i off m src v w := by
  have synced := (consistent.cached.slot ip ready.live).synced ready.valid
  subst inum
  refine ⟨?_, fun j other => ?_, h.content⟩
  · rw [h.inodes, Function.update_self, h.resized.size_eq, ← synced]
  · rw [h.inodes, Function.update_of_ne other]

/-! ### `write` -/

/-- `writei` of few bytes, in a transaction that has logged nothing yet. -/
theorem writei_wp (valid : sb.Valid) (h : Consistent sb s v) (ready : Ready s ip)
    (open' : 1 ≤ s.outstanding) (empty : s.lh = []) (few : n ≤ KBUF) (start : off ≤ (s.itable ip).size)
    (fits : off + n ≤ MAXFILE * BSIZE) :
    wp (writei sb ip src off n) (fun r t => t.outstanding = s.outstanding ∧
        ∃ (m : Nat) (w : Disk), r = m ∧ m ≤ n ∧ Wrote sb ip src off m s v t w ∧ SameFiles s t ∧
          Grows sb off m n v (s.itable ip).toDinode w (t.itable ip).toDinode)
      (fun _ _ => False) s := by
  have does : Does (6 * blocksIn off n + 1) (writei sb ip src off n) _ s :=
    writei_does valid h ready start fits
  refine wp_of_run (fun r t run => ⟨(wp_ok does run).1.outstanding, ?_⟩) fun e t run => ?_
  · exact writei_grows valid h ready start fits run
  · refine (wp_error does run).never open' ?_
    -- the bytes lie in two blocks at most
    have blocks : blocksIn off n ≤ 2 := by
      have buffer : KBUF = 256 := rfl
      unfold blocksIn BSIZE
      split <;> omega
    rw [empty]
    show 0 + (6 * blocksIn off n + 1) ≤ 30
    omega

/-- The inode that an operation has locked is written. -/
theorem Wrote.locked (h : Locked sb v f ip i s) (wrote : Wrote sb ip src off m s v t w)
    (files : SameFiles s t) (same : t.outstanding = s.outstanding) : Locked sb w f ip i t := by
  obtain ⟨addrs, is⟩ := wrote.resized.inode
  refine ⟨wrote.consistent, same.trans h.outstanding, ?_, ?_, wrote.resized.ready h.ready, ?_, ?_,
    fun jp other => ?_⟩
  · rw [files.ftable]
    exact h.type
  · rw [files.ftable]
    exact h.inode
  · rw [wrote.resized.inum]
    exact h.inum
  · rw [is, files.current]
    exact h.lock
  · rw [wrote.resized.others jp other]
    exact h.others jp other

theorem filewriteLoop_done (fuel : Nat) : filewriteLoop sb f ip src n fuel n = pure n := by
  cases fuel with
  | zero => rfl
  | succ fuel =>
    unfold filewriteLoop
    exact if_neg (Nat.lt_irrefl n)

/-- The loop of `filewrite` makes one `writei` of few bytes. -/
theorem filewriteLoop_once (some : 0 < n) (few : n ≤ MAXCHUNK) :
    filewriteLoop sb f ip src n n 0 s = (do
      let r ← writei sb ip src (s.ftable f).off n
      advance f r
      if r = n then pure n else pure 0) s := by
  obtain ⟨fuel, rfl⟩ := Nat.exists_eq_succ_of_ne_zero some.ne'
  rw [filewriteLoop.eq_2, if_pos some, bind_get, Nat.sub_zero, Nat.min_eq_left few]
  simp only [Nat.zero_add, filewriteLoop_done]

/-- `writei` of bytes that it does not take on. -/
theorem writei_refuses (size : (s.itable ip).size ≤ MAXFILE * BSIZE) (few : n ≤ KBUF)
    (refuses : ¬ (off ≤ (s.itable ip).size ∧ off + n ≤ MAXFILE * BSIZE)) :
    writei sb ip src off n s = .ok (-1) s := by
  have bound : MAXFILE * BSIZE = 274432 := by decide
  have buffer : KBUF = 256 := rfl
  unfold writei
  rw [bind_get]
  by_cases past : (s.itable ip).size < off
  · rw [if_pos (.inl past)]
    rfl
  · rw [Nat.mod_eq_of_lt (by omega), if_neg (by omega), if_pos (by omega)]
    rfl

/-- `filewrite` of few bytes. -/
theorem filewrite_wp (valid : sb.Valid) (h : Locked sb v f ip i s) (empty : s.lh = [])
    (writable : (s.ftable f).writable = true) (src : Buffer) (some : 0 < n) (few : n ≤ KBUF) :
    wp (filewrite sb f src n) (fun r t => ∃ w, Locked sb w f ip i t ∧ Stored sb v f i src n s r t w)
      (fun _ _ => False) s := by
  have buffer : KBUF = 256 := rfl
  have chunk : MAXCHUNK = 3072 := by decide
  have bound : MAXFILE * BSIZE = 274432 := by decide
  have synced : (s.itable ip).toDinode = v.inode i := by
    rw [(h.consistent.cached.slot ip h.ready.live).synced h.ready.valid, h.inum]
  have size : (v.inode i).size ≤ MAXFILE * BSIZE := synced ▸ (h.consistent.solidInode h.ready).size
  have mine : s.holdingsleep ip := h.lock
  unfold filewrite
  rw [wp_bind, wp_get]
  dsimp only
  rw [if_neg (by rw [writable]; decide), h.type, h.inode]
  dsimp only
  rw [if_pos mine, Int.toNat_natCast, wp_bind, wp_goes (filewriteLoop_once some (by omega))]
  by_cases accepts : v.Accepts i (s.ftable f).off n
  · obtain ⟨start, fits⟩ := accepts
    rw [wp_bind]
    refine wp_conseq (writei_wp valid h.consistent h.ready (Nat.le_of_eq h.outstanding.symm) empty few
      (synced ▸ start) fits) ?_
    rintro r t ⟨same, m, w, rfl, within, wrote, files, grows⟩
    have locked := wrote.locked h files same
    have moves := advance_run (s := t) (f := f) m fun _ => by
      rw [files.ftable]
      omega
    rw [files.ftable] at moves
    have synced' : (t.itable ip).toDinode = w.inode i := by
      rw [(locked.consistent.cached.slot ip locked.ready.live).synced locked.ready.valid, locked.inum]
    rw [synced, synced'] at grows
    have moved : Moved f ((s.ftable f).off + m) s (t.setFile f { s.ftable f with
        off := (s.ftable f).off + m }) := by
      refine ⟨?_, files.procs, files.current⟩
      rw [State.setFile_ftable, files.ftable]
    have after := locked.setOff ((s.ftable f).off + m)
    rw [files.ftable] at after
    rw [wp_goes (bind_ok moves)]
    have overwritten := wrote.overwritten h.ready h.consistent h.inum
    by_cases whole : m = n
    · rw [if_pos (show (m : Int) = n by omega)]
      refine ⟨w, after, .inr ⟨⟨start, fits⟩, m, within, ?_, overwritten, grows, moved⟩⟩
      rw [if_pos rfl, if_pos whole]
    · rw [if_neg (show ¬ (m : Int) = n by omega)]
      refine ⟨w, after, .inr ⟨⟨start, fits⟩, m, within, ?_, overwritten, grows, moved⟩⟩
      rw [if_neg (by omega), if_neg whole]
  · rw [wp_goes (bind_ok (writei_refuses (synced ▸ size) few (synced ▸ accepts)))]
    show wp (if (-1 : Int) = n then pure n else pure 0) _ _ s
    rw [if_neg (by omega)]
    refine ⟨v, h, .inl ⟨accepts, ?_, rfl, .refl s f⟩⟩
    rw [if_neg (by omega)]

/-- The file is not open for writing. -/
theorem filewrite_refuses (writable : (s.ftable f).writable = false) (src : Buffer) (n : Int) :
    filewrite sb f src n s = .ok (-1) s := by
  unfold filewrite
  rw [bind_get, if_pos writable]
  rfl

theorem Moved.operation (h : Moved f off (s.started v ip) t) : Moved f off s (t.ended ip) :=
  ⟨h.ftable, h.procs, h.current⟩

/-- `write` of few bytes. -/
theorem write_wp (valid : sb.Valid) (h : Handle sb v f ip i s)
    (writable : (s.ftable f).writable = true) (src : Buffer) (some : 0 < n) (few : n ≤ KBUF) :
    wp (write sb f src n) (fun r t => ∃ w, Handle sb w f ip i t ∧ Stored sb v f i src n s r t w)
      (fun _ _ => False) s := by
  have body := filewrite_wp valid h.started rfl writable src some few
  refine wp_conseq (operation_wp h body) ?_
  rintro r u ⟨t, w, rfl, handle, stored⟩
  refine ⟨w, handle, ?_⟩
  rcases stored with ⟨refuses, value, same, moved⟩ | ⟨accepts, m, within, value, over', grows, moved⟩
  · exact .inl ⟨refuses, value, same, moved.operation⟩
  · exact .inr ⟨accepts, m, within, value, over', grows, moved.operation⟩

/-- `write` to a file that is not open for writing. -/
theorem write_refuses (h : Handle sb v f ip i s) (writable : (s.ftable f).writable = false)
    (src : Buffer) (n : Int) :
    wp (write sb f src n) (fun r t => Handle sb v f ip i t ∧ Moved f (s.ftable f).off s t ∧ r = -1)
      (fun _ _ => False) s :=
  operation_still h (filewrite_refuses (s := s.started v ip) writable src n)

end Write

/-! ### `copyin` -/

/-- Every byte of the range that is not mapped comes after a zero byte of it. -/
def Fetched (user : UserMem) (src : UserAddr) (i left : Nat) : Prop :=
  ∀ j, i ≤ j → j < i + left → user (src + BitVec.ofNat 64 j) = none →
    ∃ k, i ≤ k ∧ k < j ∧ user (src + BitVec.ofNat 64 k) = some 0

/-- The buffer with the bytes of the range up to the first zero byte; the rest of it is as before. -/
def copiedIn (user : UserMem) (src : UserAddr) (dst : Buffer) (i left : Nat) : Buffer := fun j =>
  if i ≤ j ∧ j < i + left ∧ ∀ k < j, i ≤ k → user (src + BitVec.ofNat 64 k) ≠ some 0 then
    (user (src + BitVec.ofNat 64 j)).getD 0
  else dst j

section Copyin

variable {user : UserMem} {src : UserAddr} {dst : Buffer} {i left : Nat}

theorem copyin_fetched (h : Fetched user src i left) :
    copyin user src dst i left = (0, copiedIn user src dst i left) := by
  induction left generalizing i dst with
  | zero =>
    refine congrArg (Prod.mk 0) (funext fun j => ?_)
    exact (if_neg fun inside => by omega).symm
  | succ left ih =>
    unfold copyin
    cases first : user (src + BitVec.ofNat 64 i) with
    | none =>
      obtain ⟨k, above, below, -⟩ := h i (Nat.le_refl i) (by omega) first
      omega
    | some c =>
      have self : copiedIn user src dst i (left + 1) i = c := by
        unfold copiedIn
        rw [if_pos ⟨Nat.le_refl i, by omega, fun k below above => by omega⟩, first]
        rfl
      dsimp only
      by_cases zero : c = 0
      · -- it stops here
        rw [if_pos zero]
        refine congrArg (Prod.mk 0) (funext fun j => ?_)
        by_cases here : j = i
        · rw [here, self]
          exact Function.update_self ..
        · refine (Function.update_of_ne here ..).trans (if_neg ?_).symm
          rintro ⟨above, -, none⟩
          exact none i (by omega) (Nat.le_refl i) (first.trans (congrArg some zero))
      · rw [if_neg zero, ih]
        swap
        · intro j above below none
          obtain ⟨k, low, high, is⟩ := h j (by omega) (by omega) none
          refine ⟨k, ?_, high, is⟩
          by_contra start
          obtain rfl : k = i := by omega
          rw [first] at is
          exact zero (Option.some.inj is)
        refine congrArg (Prod.mk 0) (funext fun j => ?_)
        by_cases here : j = i
        · rw [here, self]
          refine (if_neg fun inside => by omega).trans ?_
          exact Function.update_self ..
        · unfold copiedIn
          have same : (i + 1 ≤ j ∧ j < i + 1 + left ∧
              ∀ k < j, i + 1 ≤ k → user (src + BitVec.ofNat 64 k) ≠ some 0) ↔
              (i ≤ j ∧ j < i + (left + 1) ∧ ∀ k < j, i ≤ k → user (src + BitVec.ofNat 64 k) ≠ some 0) := by
            constructor
            · rintro ⟨above, below, none⟩
              refine ⟨by omega, by omega, fun k less low is => ?_⟩
              by_cases start : k = i
              · rw [start, first] at is
                exact zero (Option.some.inj is)
              · exact none k less (by omega) is
            · rintro ⟨above, below, none⟩
              exact ⟨by omega, by omega, fun k less low => none k less (by omega)⟩
          simp only [same]
          congr 1
          exact Function.update_of_ne here ..

theorem copyin_unfetched (h : ¬ Fetched user src i left) : (copyin user src dst i left).1 = -1 := by
  induction left generalizing i dst with
  | zero => exact absurd (fun j above below => by omega) h
  | succ left ih =>
    unfold copyin
    cases first : user (src + BitVec.ofNat 64 i) with
    | none => rfl
    | some c =>
      dsimp only
      by_cases zero : c = 0
      · refine absurd (fun j above below none => ⟨i, Nat.le_refl i, ?_, first.trans (congrArg some zero)⟩) h
        by_contra same
        obtain rfl : j = i := by omega
        rw [first] at none
        cases none
      · rw [if_neg zero]
        refine ih fun fetched => h fun j above below none => ?_
        by_cases here : j = i
        · rw [here, first] at none
          cases none
        · obtain ⟨k, low, high, is⟩ := fetched j (by omega) (by omega) none
          exact ⟨k, by omega, high, is⟩

end Copyin

/-! ### `ker_write` -/

/-- The bytes of the first `q` chunks of `n` bytes. -/
def sent (n q : Nat) : Nat := min n (KBUF * q)

/-- The user's bytes from chunk `q` on. -/
def chunkAddr (addr : UserAddr) (n q : Nat) : UserAddr := addr + BitVec.ofNat 64 (sent n q)

/-- `copyin` fetches chunk `q`. -/
def ChunkFetched (user : UserMem) (addr : UserAddr) (n q : Nat) : Prop :=
  Fetched user (chunkAddr addr n q) 0 (sent n (q + 1) - sent n q)

/-- The kernel's buffer before chunk `q`. -/
def buffered (user : UserMem) (addr : UserAddr) (n : Nat) (kbuf : Buffer) : Nat → Buffer
  | 0 => kbuf
  | q + 1 => copiedIn user (chunkAddr addr n q) (buffered user addr n kbuf q) 0 (sent n (q + 1) - sent n q)

/-- The bytes that the chunks pass to `write`. -/
def passed (user : UserMem) (addr : UserAddr) (n : Nat) (kbuf : Buffer) : Buffer := fun j =>
  buffered user addr n kbuf (j / KBUF + 1) (j % KBUF)

/-- `ker_write` of `n` bytes to file `i` at `off` gets as far as the end of chunk `q - 1`. -/
structure GetsTo (sb : Superblock) (v : Disk) (i off : Nat) (user : UserMem) (addr : UserAddr)
    (n q : Nat) : Prop where
  fetched : ∀ p < q, ChunkFetched user addr n p
  fits : off + sent n q ≤ MAXFILE * BSIZE
  room : v.RoomFor sb i (off + sent n q)

/-- Why `ker_write` stops after `q` whole chunks, and `m` bytes of the next, with `r`. -/
inductive WriteStop (sb : Superblock) (v : Disk) (i off : Nat) (user : UserMem) (addr : UserAddr)
    (n q : Nat) : (m : Nat) → (r : Int) → Prop
  | done (all : n ≤ KBUF * q) : WriteStop sb v i off user addr n q 0 (sent n q)
  | unmapped (more : KBUF * q < n) (missing : ¬ ChunkFetched user addr n q) :
    WriteStop sb v i off user addr n q 0 (-1)
  | large (more : KBUF * q < n) (fetched : ChunkFetched user addr n q)
    (past : MAXFILE * BSIZE < off + sent n (q + 1)) : WriteStop sb v i off user addr n q 0 (sent n q)
  | full {m : Nat} (more : KBUF * q < n) (fetched : ChunkFetched user addr n q)
    (fits : off + sent n (q + 1) ≤ MAXFILE * BSIZE) (less : sent n q + m < sent n (q + 1))
    (room : v.RoomFor sb i (off + (sent n q + m))) (none : ¬ v.RoomFor sb i (off + (sent n q + m) + 1)) :
    WriteStop sb v i off user addr n q m (sent n q)

section KerWrite

variable {sb : Superblock} {v w : Disk} {f : FilePtr} {ip : InodePtr} {i n q m k : Nat} {s t : State}
  {user : UserMem} {addr : UserAddr} {kbuf : Buffer}

theorem sent_zero (n : Nat) : sent n 0 = 0 := Nat.min_eq_right (Nat.zero_le n)

theorem sent_start (more : KBUF * q < n) : sent n q = KBUF * q := Nat.min_eq_right more.le

theorem sent_succ (more : KBUF * q < n) : sent n (q + 1) = sent n q + min (n - sent n q) KBUF := by
  rw [sent_start more, sent, Nat.mul_succ]
  omega

theorem sent_mono (more : q ≤ k) : sent n q ≤ sent n k := by
  have := Nat.mul_le_mul_left KBUF more
  unfold sent
  omega

/-- The bytes of one chunk are those of the buffer. -/
theorem passed_chunk (more : KBUF * q < n) (less : m < KBUF) :
    passed user addr n kbuf (sent n q + m) = buffered user addr n kbuf (q + 1) m := by
  rw [passed, sent_start more, Nat.mul_add_div (by decide), Nat.div_eq_of_lt less, Nat.add_zero,
    Nat.mul_add_mod, Nat.mod_eq_of_lt less]

/-- The first `q` chunks are written. -/
structure Sent (sb : Superblock) (v : Disk) (f : FilePtr) (ip : InodePtr) (i : Nat) (user : UserMem)
    (addr : UserAddr) (n : Nat) (kbuf : Buffer) (s : State) (q : Nat) (t : State) (w : Disk) : Prop where
  handle : Handle sb w f ip i t
  moved : Moved f ((s.ftable f).off + sent n q) s t
  fetched : ∀ p < q, ChunkFetched user addr n p
  fits : (s.ftable f).off + sent n q ≤ MAXFILE * BSIZE
  overwritten : Overwritten sb i (s.ftable f).off (sent n q) (passed user addr n kbuf) v w
  grows : Grows sb (s.ftable f).off (sent n q) (sent n q) v (v.inode i) w (w.inode i)

theorem Handle.solid (h : Handle sb w f ip i t) : Solid w (w.inode i) :=
  h.consistent.solid i (h.inum ▸ (h.consistent.cached.slot ip h.live).inside)

/-- Nothing is written yet. -/
theorem Handle.sent (h : Handle sb v f ip i s) (start : (s.ftable f).off ≤ (v.inode i).size) :
    Sent sb v f ip i user addr n kbuf s 0 s v := by
  have size := h.solid.size
  refine ⟨h, ?_, fun p less => absurd less (Nat.not_lt_zero p), ?_, ?_, ?_⟩
  · rw [sent_zero]
    exact .refl s f
  · rw [sent_zero]
    omega
  · rw [sent_zero]
    exact .refl start
  · rw [sent_zero]
    exact .refl ..

theorem Sent.getsTo (h : Sent sb v f ip i user addr n kbuf s q t w) :
    GetsTo sb v i (s.ftable f).off user addr n q := by
  refine ⟨h.fetched, h.fits, h.grows.enough h.handle.solid ?_⟩
  rw [h.overwritten.size]
  exact Nat.le_max_right ..

/-- How `ker_write` ends. -/
def WriteOutcome (sb : Superblock) (v : Disk) (f : FilePtr) (ip : InodePtr) (i : Nat) (user : UserMem)
    (addr : UserAddr) (n : Nat) (kbuf : Buffer) (s : State) (r : Int) (t : State) : Prop :=
  ∃ q m w, Handle sb w f ip i t ∧ Moved f ((s.ftable f).off + (sent n q + m)) s t ∧
    Overwritten sb i (s.ftable f).off (sent n q + m) (passed user addr n kbuf) v w ∧
    GetsTo sb v i (s.ftable f).off user addr n q ∧
    WriteStop sb v i (s.ftable f).off user addr n q m r

/-- It stops with the chunks that are written. -/
theorem Sent.outcome (h : Sent sb v f ip i user addr n kbuf s q t w) {r : Int}
    (stop : WriteStop sb v i (s.ftable f).off user addr n q 0 r) :
    WriteOutcome sb v f ip i user addr n kbuf s r t :=
  ⟨q, 0, w, h.handle, h.moved, h.overwritten, h.getsTo, stop⟩

/-- The loop of `ker_write`, with `q` chunks written. -/
theorem kerWriteLoop_wp (valid : sb.Valid) (writable : (s.ftable f).writable = true) (fuel : Nat)
    (h : Sent sb v f ip i user addr n kbuf s q t w) (enough : n ≤ sent n q + fuel) :
    wp (kerWriteLoop sb f addr n user fuel (sent n q) (buffered user addr n kbuf q))
      (fun r u => WriteOutcome sb v f ip i user addr n kbuf s r u) (fun _ _ => False) t := by
  have buffer : KBUF = 256 := rfl
  have done : n ≤ sent n q → WriteOutcome sb v f ip i user addr n kbuf s (sent n q) t := fun all =>
    h.outcome (.done (by unfold sent at all; omega))
  induction fuel generalizing q t w with
  | zero => exact done enough
  | succ fuel ih =>
    unfold kerWriteLoop
    by_cases more : sent n q < n
    swap
    · rw [if_neg more]
      exact done (Nat.le_of_not_lt more)
    have more' : KBUF * q < n := by
      unfold sent at more
      omega
    have next := sent_succ more'
    rw [if_pos more]
    dsimp only
    have size : min (n - sent n q) KBUF = sent n (q + 1) - sent n q := by omega
    set len := min (n - sent n q) KBUF with lenIs
    have some : 0 < len := by omega
    have few : len ≤ KBUF := Nat.min_le_right ..
    by_cases fetched : ChunkFetched user addr n q
    swap
    · have fails : (copyin user (addr + BitVec.ofNat 64 (sent n q)) (buffered user addr n kbuf q) 0 len).1 =
          -1 := by
        rw [size]
        exact copyin_unfetched fetched
      rw [if_pos (by rw [fails]; decide)]
      exact h.outcome (.unmapped more' fetched)
    have copies : copyin user (addr + BitVec.ofNat 64 (sent n q)) (buffered user addr n kbuf q) 0 len =
        (0, buffered user addr n kbuf (q + 1)) := by
      rw [size]
      exact copyin_fetched fetched
    rw [copies]
    dsimp only
    rw [if_neg (by decide), wp_bind]
    refine wp_conseq (write_wp valid h.handle (h.moved.writable.trans writable) _ some few) ?_
    rintro r u ⟨w', handle, stored⟩
    have off := h.moved.off_eq
    rw [Stored, off] at stored
    have longer : (w.inode i).size = max (v.inode i).size ((s.ftable f).off + sent n q) :=
      h.overwritten.size
    rcases stored with ⟨refuses, rfl, rfl, moved⟩ | ⟨⟨-, fits⟩, m, within, rfl, over', grows, moved⟩
    · -- the chunk does not fit into the largest file
      rw [if_pos (by decide)]
      have still : Sent sb v f ip i user addr n kbuf s q u w' :=
        ⟨handle, h.moved.trans moved, h.fetched, h.fits, h.overwritten, h.grows⟩
      refine still.outcome (.large more' fetched ?_)
      unfold Disk.Accepts at refuses
      omega
    have overwritten := h.overwritten.trans over' fun j less =>
      (passed_chunk more' (by omega)).symm
    have moved' : Moved f ((s.ftable f).off + (sent n q + m)) s u := by
      rw [← Nat.add_assoc]
      exact h.moved.trans moved
    have grows' : Grows sb (s.ftable f).off (sent n q + m) (sent n q + len) v (v.inode i) w' (w'.inode i) := by
      refine h.grows.trans ?_
      rw [Nat.add_sub_cancel_left]
      exact grows
    by_cases whole : m = len
    · rw [if_pos whole, if_neg (by omega), if_neg (Int.lt_irrefl _), ← next]
      subst whole
      rw [← next] at overwritten moved' grows'
      have sent' : Sent sb v f ip i user addr n kbuf s (q + 1) u w' := by
        refine ⟨handle, moved', fun p less => ?_, by omega, overwritten, grows'⟩
        rcases Nat.lt_succ_iff_lt_or_eq.mp less with before | rfl
        · exact h.fetched p before
        · exact fetched
      refine ih sent' (by omega) fun all => ?_
      refine sent'.outcome (.done ?_)
      unfold sent at all
      omega
    · rw [if_neg whole, if_pos (by decide)]
      refine ⟨q, m, w', handle, moved', overwritten, h.getsTo, .full more' fetched (by omega) (by omega) ?_ ?_⟩
      · refine grows'.enough handle.solid ?_
        rw [overwritten.size]
        exact Nat.le_max_right ..
      · exact grows'.short (by omega)

theorem kerWrite_wp (valid : sb.Valid) {fd : Int} (open' : s.Descriptor fd f)
    (h : Handle sb v f ip i s) (writable : (s.ftable f).writable = true)
    (start : (s.ftable f).off ≤ (v.inode i).size) (n : Int) (kbuf : Buffer) :
    wp (kerWrite sb fd addr n kbuf user)
      (fun r t => WriteOutcome sb v f ip i user addr n.toNat kbuf s r t) (fun _ _ => False) s := by
  obtain ⟨k, found⟩ := open'.fdget
  have none : Sent sb v f ip i user addr n.toNat kbuf s 0 s v := h.sent start
  have loop := kerWriteLoop_wp valid writable n.toNat none (by omega)
  rw [sent_zero] at loop
  unfold kerWrite
  rw [wp_goes (bind_ok found)]
  exact loop

/-- Nothing is written to a file that is not open for writing, or from past its end on. -/
theorem kerWrite_refused (valid : sb.Valid) {fd : Int} (open' : s.Descriptor fd f)
    (h : Handle sb v f ip i s)
    (refuses : (s.ftable f).writable = false ∨ (v.inode i).size < (s.ftable f).off) (n : Int)
    (kbuf : Buffer) :
    wp (kerWrite sb fd addr n kbuf user)
      (fun r t => Handle sb v f ip i t ∧ Moved f (s.ftable f).off s t ∧ (r = 0 ∨ r = -1))
      (fun _ _ => False) s := by
  obtain ⟨k, found⟩ := open'.fdget
  have buffer : KBUF = 256 := rfl
  unfold kerWrite
  rw [wp_goes (bind_ok found)]
  show wp (kerWriteLoop sb f addr n.toNat user n.toNat 0 kbuf) _ _ s
  cases n.toNat with
  | zero => exact ⟨h, .refl s f, .inl rfl⟩
  | succ n =>
    unfold kerWriteLoop
    rw [if_pos (Nat.zero_lt_succ n)]
    dsimp only
    generalize copyin user (addr + BitVec.ofNat 64 0) kbuf 0 (min (n + 1 - 0) KBUF) = fetched
    obtain ⟨failed, kbuf'⟩ := fetched
    dsimp only
    by_cases fails : failed < 0
    · rw [if_pos fails]
      exact ⟨h, .refl s f, .inr rfl⟩
    have writes : wp (write sb f kbuf' ↑(min (n + 1 - 0) KBUF))
        (fun r t => Handle sb v f ip i t ∧ Moved f (s.ftable f).off s t ∧ r = -1) (fun _ _ => False) s := by
      cases writable : (s.ftable f).writable with
      | false => exact write_refuses h writable kbuf' _
      | true =>
        have past := refuses.resolve_left (by rw [writable]; decide)
        refine wp_conseq (write_wp valid h writable kbuf' (by omega) (Nat.min_le_right ..)) ?_
        rintro r t ⟨w, handle, ⟨-, is, rfl, moved⟩ | ⟨accepts, -⟩⟩
        · exact ⟨handle, moved, is⟩
        · exact absurd accepts.1 (Nat.not_le.mpr past)
    rw [if_neg fails, wp_bind]
    refine wp_conseq writes ?_
    rintro r t ⟨handle, moved, rfl⟩
    rw [if_pos (by decide)]
    exact ⟨handle, moved, .inl rfl⟩

/-! ### How far it gets -/

variable {off : Nat} {r : Int}

theorem GetsTo.earlier (h : GetsTo sb v i off user addr n k) (less : q < k) :
    ChunkFetched user addr n q ∧ off + sent n (q + 1) ≤ MAXFILE * BSIZE ∧
      v.RoomFor sb i (off + sent n (q + 1)) := by
  have within : sent n (q + 1) ≤ sent n k := sent_mono less
  have fits := h.fits
  exact ⟨h.fetched q less, by omega, h.room.mono (by omega)⟩

theorem GetsTo.mono (h : GetsTo sb v i off user addr n k) (less : q ≤ k) :
    GetsTo sb v i off user addr n q := by
  have within : sent n q ≤ sent n k := sent_mono less
  have fits := h.fits
  exact ⟨fun p before => h.fetched p (by omega), by omega, h.room.mono (by omega)⟩

/-- No chunk comes after the one that `ker_write` stops at. -/
theorem WriteStop.last (stop : WriteStop sb v i off user addr n q m r) (more : KBUF * k < n)
    (gets : GetsTo sb v i off user addr n k) : k ≤ q := by
  by_contra later
  obtain ⟨fetched, fits, room⟩ := gets.earlier (Nat.lt_of_not_le later)
  have order : KBUF * q ≤ KBUF * k := Nat.mul_le_mul_left KBUF (by omega)
  cases stop with
  | done all => omega
  | unmapped _ missing => exact missing fetched
  | large _ _ past => omega
  | full _ _ _ less _ none => exact none (room.mono (by omega))

end KerWrite

/-! ### The bytes that are written -/

/-- Byte `o` of file `i`. -/
def State.byte (sb : Superblock) (s : State) (i o : Nat) : UInt8 :=
  (s.disk sb).content ((s.disk sb).inode i) o

/-- The `r` bytes that `ker_write` counts are in the file, its offset has moved past them, and every
other byte of a file is as before. -/
structure StoresExactly (sb : Superblock) (f : FilePtr) (i : Nat) (user : UserMem) (addr : UserAddr)
    (s : State) (r : Int) (t : State) : Prop where
  bytes : ∀ k : Nat, (k : Int) < r →
    user (addr + BitVec.ofNat 64 k) = some (t.byte sb i ((s.ftable f).off + k))
  offset : ((t.ftable f).off : Int) = (s.ftable f).off + r
  sizes : ∀ j < sb.ninodes, (((t.disk sb).inode j).size : Int) =
    if j = i then max (((s.disk sb).inode j).size : Int) ((s.ftable f).off + r)
      else ((s.disk sb).inode j).size
  others : ∀ j < sb.ninodes, ∀ o : Nat, o / BSIZE < MAXFILE →
    ¬ (j = i ∧ (s.ftable f).off ≤ o ∧ (o : Int) < (s.ftable f).off + r) →
      t.byte sb j o = s.byte sb j o

/-- Where there is room for a byte of chunk `q`, there is room for all of them. -/
def ChunkRoom (sb : Superblock) (v : Disk) (i off n q : Nat) : Prop :=
  off + sent n (q + 1) ≤ MAXFILE * BSIZE → v.RoomFor sb i (off + sent n q + 1) →
    v.RoomFor sb i (off + sent n (q + 1))

/-- After its first zero byte, chunk `q` is what the kernel's buffer held before. -/
def ChunkStale (user : UserMem) (addr : UserAddr) (n : Nat) (kbuf : Buffer) (q : Nat) : Prop :=
  ∀ j < sent n (q + 1) - sent n q, (∃ k < j, user (chunkAddr addr n q + BitVec.ofNat 64 k) = some 0) →
    user (chunkAddr addr n q + BitVec.ofNat 64 j) = some (buffered user addr n kbuf q j)

/-- `ker_write` writes what the user has: no chunk but the first is cut off by a full disk, and what
`copyin` leaves out of a chunk that is written is in the kernel's buffer already. -/
def WritesExactly (sb : Superblock) (v : Disk) (i off : Nat) (user : UserMem) (addr : UserAddr)
    (n : Nat) (kbuf : Buffer) : Prop :=
  ∀ q, GetsTo sb v i off user addr n q → KBUF * q < n →
    (0 < q → ChunkRoom sb v i off n q) ∧
    (off + sent n (q + 1) ≤ MAXFILE * BSIZE → v.RoomFor sb i (off + sent n (q + 1)) →
      ChunkStale user addr n kbuf q)

section Bytes

variable {sb : Superblock} {v w : Disk} {f : FilePtr} {ip : InodePtr} {i n q m k : Nat} {s t : State}
  {user : UserMem} {addr : UserAddr} {kbuf : Buffer}

theorem Handle.byte (h : Handle sb v f ip i s) {j : Nat} (inside : j < sb.ninodes) (o : Nat) :
    s.byte sb j o = v.content (v.inode j) o :=
  h.consistent.shows.disk_content h.consistent.own inside o

theorem chunkAddr_add (j : Nat) :
    chunkAddr addr n q + BitVec.ofNat 64 j = addr + BitVec.ofNat 64 (sent n q + j) := by
  rw [chunkAddr, BitVec.ofNat_add, BitVec.add_assoc]

/-- A chunk of a range that is mapped is fetched. -/
theorem MappedRange.fetched (mapped : MappedRange user addr n) (q : Nat) : ChunkFetched user addr n q := by
  intro j _ below none
  rw [chunkAddr_add] at none
  have within : sent n (q + 1) ≤ n := Nat.min_le_left ..
  exact absurd none (mapped _ (by omega))

/-- The buffer holds the user's bytes exactly if it held those that `copyin` leaves out. -/
theorem chunkStale_iff (mapped : MappedRange user addr n) (more : KBUF * q < n) :
    ChunkStale user addr n kbuf q ↔ ∀ j < sent n (q + 1) - sent n q,
      user (addr + BitVec.ofNat 64 (sent n q + j)) = some (passed user addr n kbuf (sent n q + j)) := by
  have next := sent_succ more
  have few : min (n - sent n q) KBUF ≤ KBUF := Nat.min_le_right ..
  have within : sent n (q + 1) ≤ n := Nat.min_le_left ..
  refine forall_congr' fun j => forall_congr' fun less => ?_
  rw [passed_chunk more (by omega), buffered, copiedIn, chunkAddr_add]
  by_cases zero : ∃ k < j, user (chunkAddr addr n q + BitVec.ofNat 64 k) = some 0
  · obtain ⟨k, before, is⟩ := zero
    rw [if_neg fun inside => inside.2.2 k before (Nat.zero_le k) is]
    exact ⟨fun stale => stale ⟨k, before, is⟩, fun same _ => same⟩
  · have none : ∀ k < j, 0 ≤ k → user (chunkAddr addr n q + BitVec.ofNat 64 k) ≠ some 0 :=
      fun k before _ is => zero ⟨k, before, is⟩
    rw [if_pos ⟨Nat.zero_le j, by omega, none⟩]
    obtain ⟨c, is⟩ := Option.ne_none_iff_exists'.mp (mapped (sent n q + j) (by omega))
    rw [is]
    exact iff_of_true (fun before => absurd before zero) rfl

/-- What `ker_write` has passed to `write` is what the user has, as far as it gets. -/
theorem WritesExactly.passed (h : WritesExactly sb v i (s.ftable f).off user addr n kbuf)
    (mapped : MappedRange user addr n) (gets : GetsTo sb v i (s.ftable f).off user addr n q)
    (less : k < sent n q) : user (addr + BitVec.ofNat 64 k) = some (passed user addr n kbuf k) := by
  have buffer : KBUF = 256 := rfl
  have split := Nat.div_add_mod k KBUF
  have small := Nat.mod_lt k (show 0 < KBUF by decide)
  have bound : sent n q ≤ KBUF * q := Nat.min_le_right ..
  have within : sent n q ≤ n := Nat.min_le_left ..
  have before : k / KBUF < q := by
    rw [Nat.div_lt_iff_lt_mul (by decide)]
    rw [Nat.mul_comm]
    omega
  have more : KBUF * (k / KBUF) < n := by omega
  have next := sent_succ more
  have start := sent_start more
  obtain ⟨-, fits, room⟩ := gets.earlier before
  have stale := (h _ (gets.mono before.le) more).2 fits room
  have all := (chunkStale_iff mapped more).mp stale (k % KBUF) (by omega)
  rwa [start, split] at all

/-- A write stores exactly the user's bytes, where all of these are mapped, if and only if
`WritesExactly` holds. -/
theorem kerWrite_stores_iff (valid : sb.Valid) {fd : Int} (open' : s.Descriptor fd f)
    (h : Handle sb v f ip i s) (writable : (s.ftable f).writable = true) (n : Nat)
    (mapped : MappedRange user addr n) (kbuf : Buffer) :
    wp (kerWrite sb fd addr n kbuf user) (fun r t => 0 < r → StoresExactly sb f i user addr s r t)
        (fun _ _ => False) s ↔
      ((s.ftable f).off ≤ (v.inode i).size →
        WritesExactly sb v i (s.ftable f).off user addr n kbuf) := by
  by_cases start : (s.ftable f).off ≤ (v.inode i).size
  swap
  · refine iff_of_true (wp_conseq (kerWrite_refused valid open' h (.inr (by omega)) n kbuf) ?_)
      fun within => absurd within start
    rintro r t ⟨-, -, is⟩ positive
    omega
  have inside : i < sb.ninodes := h.inum ▸ (h.consistent.cached.slot ip h.live).inside
  refine Iff.trans ?_ (forall_prop_of_true start).symm
  refine wp_decides (wp_mono (kerWrite_wp valid open' h writable start n kbuf) ?_
    fun _ _ never => never.elim)
  rintro r t ⟨q, m, w, handle, moved, over', gets, stop⟩
  rw [Int.toNat_natCast] at over' gets stop moved
  have offset := moved.off_eq
  have size := h.solid.size
  have most : MAXFILE * BSIZE = 274432 := by decide
  -- the bytes of the chunks that are counted
  have written : ∀ k < sent n q + m, (s.ftable f).off + k < MAXFILE * BSIZE →
      t.byte sb i ((s.ftable f).off + k) = passed user addr n kbuf k := by
    intro k less below
    rw [handle.byte inside, over'.content i inside _ (by rw [Nat.div_lt_iff_lt_mul (by decide)]; omega),
      if_pos ⟨rfl, by omega, by omega⟩]
    congr 1
    omega
  have fits := gets.fits
  have counted : r = sent n q := by
    cases stop with
    | unmapped _ missing => exact absurd (mapped.fetched q) missing
    | done => rfl
    | large => rfl
    | full => rfl
  subst counted
  constructor
  · intro stores k gets' more
    have upTo := stop.last more gets'
    rcases Nat.lt_or_eq_of_le upTo with before | rfl
    · obtain ⟨-, fits', room⟩ := gets.earlier before
      have within : sent n (k + 1) ≤ sent n q := sent_mono before
      have start' := sent_start more
      have next := sent_succ more
      refine ⟨fun _ _ _ => room, fun _ _ => (chunkStale_iff mapped more).mpr fun j less => ?_⟩
      rw [(stores (by omega)).bytes (sent n k + j) (by omega), written _ (by omega) (by omega)]
    · cases stop with
      | done all => omega
      | large _ _ past => exact ⟨fun _ fits' => by omega, fun fits' => by omega⟩
      | full _ _ _ less room none =>
        refine ⟨fun later _ one => ?_, fun _ all => absurd (all.mono (by omega)) none⟩
        -- nothing of the chunk is written, or the offset is past the bytes that count
        have start' : sent n k = 256 * k := sent_start more
        have moves := (stores (by omega)).offset
        obtain rfl : m = 0 := by omega
        exact absurd one none
  · intro exact' positive
    have whole : m = 0 := by
      cases stop with
      | full more _ fits' less room none =>
        by_contra some
        have later : 0 < q := by
          by_contra zero
          obtain rfl : q = 0 := by omega
          rw [sent_zero] at positive
          omega
        exact none (((exact' q gets more).1 later fits' (room.mono (by omega))).mono (by omega))
      | _ => rfl
    subst whole
    refine ⟨fun k less => ?_, by omega, fun j inside' => ?_, fun j inside' o small away => ?_⟩
    · rw [written k (by omega) (by omega)]
      exact exact'.passed mapped gets (by omega)
    · rw [handle.consistent.shows.disk_inode inside', h.consistent.shows.disk_inode inside']
      by_cases this : j = i
      · rw [if_pos this, this, over'.size]
        omega
      · rw [if_neg this, over'.others j this]
    · rw [handle.byte inside', h.byte inside', over'.content j inside' o small, if_neg]
      rintro ⟨is, low, high⟩
      exact away ⟨is, low, by omega⟩

end Bytes

/-! ### An empty file, opened -/

/-- The disk of `mkfs` with an empty file. -/
def fileDisk : Disk := imageDisk.setInode 2 emptyFile

/-- The first process has the file open for reading and writing, as descriptor 3. -/
def fileOpen : State :=
  (((booted.setBlock (fsImg.iblock 2) (setDinode (image (fsImg.iblock 2)) (inodeOff 2) emptyFile)).setInode
    1 ⟨emptyFile, ROOTDEV, 2, 1, false, none⟩).setFile 0 ⟨.inode, 1, true, true, some 1, 0⟩).setProc 0
      ⟨.running, none, some 0, fun fd => if fd = ⟨3, three_lt_nofile⟩ then some 0 else none⟩

theorem fileDisk_inode : fileDisk.inode 2 = emptyFile := by
  show Function.update imageDisk.inode 2 emptyFile 2 = _
  rw [Function.update_self]

theorem fileOpen_entry : fileOpen.itable 1 = ⟨emptyFile, ROOTDEV, 2, 1, false, none⟩ := by
  show Function.update booted.itable 1 ⟨emptyFile, ROOTDEV, 2, 1, false, none⟩ 1 = _
  rw [Function.update_self]

theorem fileOpen_others {ip : InodePtr} (other : ip ≠ 1) : fileOpen.itable ip = booted.itable ip :=
  Function.update_of_ne other ..

/-- At boot only the root directory is in memory. -/
theorem booted_live {ip : InodePtr} (live : 0 < (booted.itable ip).ref) :
    (booted.itable ip).inum = ROOTINO := by
  change 0 < (if ip = 0 then _ else _ : Inode).ref at live
  show (if ip = 0 then _ else _ : Inode).inum = ROOTINO
  split at live
  · next first => rw [if_pos first]
  · exact absurd live (by decide)

theorem fileOpen_consistent : Consistent fsImg fileOpen fileDisk := by
  have shows := image_shows (s := booted) rfl
  have stored := shows.setInode fsImg_valid (i := 2) (by decide)
    (setDinode (image (fsImg.iblock 2)) (inodeOff 2) emptyFile) emptyFile
    (getDinode_setDinode ⟨by decide, by decide⟩) fun j away => setDinode_out away
  have others : ∀ i ≠ 2, fileDisk.inode i = imageDisk.inode i := fun i other =>
    Function.update_of_ne other ..
  refine ⟨stored.congr rfl, image_own.setInode rfl fun free => absurd free (by decide), fun i _ => ?_, ?_⟩
  · by_cases this : i = 2
    · rw [this, fileDisk_inode]
      exact ⟨by decide, fun o less => absurd less (Nat.not_lt_zero o)⟩
    · rw [others i this]
      exact ⟨(image_solid i).size, (image_solid i).mapped⟩
  · have rest : ∀ jp ≠ 1, fileOpen.itable jp = booted.itable jp := fun jp other => fileOpen_others other
    refine booted_consistent.cached.change rest (fun jp _ used => ?_) fun _ => ?_
    · rw [booted_live used]
      exact others ROOTINO (by decide)
    · rw [fileOpen_entry]
      refine ⟨⟨rfl, by decide, fun read => absurd read (by decide), fun read => absurd read (by decide)⟩,
        fun jp _ used => ?_⟩
      rw [booted_live used]
      decide

theorem fileOpen_handle : Handle fsImg fileDisk 0 1 2 fileOpen := by
  have idle : Idle fileOpen := by
    refine ⟨rfl, rfl, fun ip => ?_⟩
    by_cases this : ip = 1
    · rw [this, fileOpen_entry]
    · rw [fileOpen_others this]
      exact booted_idle.unlocked ip
  refine ⟨fileOpen_consistent, idle, rfl, rfl, ?_, ?_, ?_⟩
  · rw [fileOpen_entry]
    exact Int.one_pos
  · rw [fileOpen_entry]
  · rw [fileDisk_inode]
    decide

theorem fileOpen_descriptor : fileOpen.Descriptor 3 0 :=
  ⟨⟨3, by decide⟩, by decide, rfl⟩

theorem fileOpen_writable : (fileOpen.ftable 0).writable = true := rfl

theorem kerWrite_stores_iff_file :
    wp (kerWrite fsImg 3 0x10000 (2 : Nat) (fun _ => 1) fun _ => some 0)
        (fun r t => 0 < r → StoresExactly fsImg 0 2 (fun _ => some 0) 0x10000 fileOpen r t)
        (fun _ _ => False) fileOpen ↔
      ((fileOpen.ftable 0).off ≤ (fileDisk.inode 2).size →
        WritesExactly fsImg fileDisk 2 (fileOpen.ftable 0).off (fun _ => some 0) 0x10000 2 fun _ => 1) := by
  have mapped : MappedRange (fun _ => some 0) 0x10000 2 := fun _ _ => Option.some_ne_none 0
  have open' := fileOpen_descriptor
  have handle := fileOpen_handle
  have writable := fileOpen_writable
  generalize fileOpen = s at open' handle writable ⊢
  exact kerWrite_stores_iff fsImg_valid open' handle writable 2 mapped fun _ => 1

/-- The first process makes a file, and opens it. -/
def openNew : List (Pid × Call) := [(0, .kerOpen pathA (O_CREATE ||| O_RDWR))]

theorem openNew_runs : ((runCalls fsImg openNew booted).any fun s =>
    match kerWrite fsImg 3 0x10000 2 (fun _ => 1) (fun _ => some 0) s with
    | .ok r t => decide (r = 2 ∧ (s.ftable 0).writable = true ∧ (s.ftable 0).off = 0 ∧
        (s.procs s.current).ofile ⟨3, by decide⟩ = some 0 ∧ (s.ftable 0).ip = some 1 ∧
        (s.itable 1).inum = 2 ∧ (t.disk fsImg).content ((t.disk fsImg).inode 2) 1 = 1)
    | .error _ _ => false) = true := by
  decide +kernel

/-- Of two zero bytes, the second is written as what the kernel's stack has. -/
theorem kerWrite_leaves_stale : ∃ s r t, runCalls fsImg openNew booted = some s ∧ s.Descriptor 3 0 ∧
    (s.ftable 0).writable = true ∧ (s.ftable 0).ip = some 1 ∧ (s.itable 1).inum = 2 ∧
    kerWrite fsImg 3 0x10000 2 (fun _ => 1) (fun _ => some 0) s = .ok r t ∧ 0 < r ∧
    ¬ StoresExactly fsImg 0 2 (fun _ => some 0) 0x10000 s r t := by
  obtain ⟨s, done, facts⟩ := (Option.any_eq_true _ _).mp openNew_runs
  split at facts
  · next r t run =>
    obtain ⟨rfl, writable, off, entry, ip, inum, byte⟩ := of_decide_eq_true facts
    refine ⟨s, 2, t, done, ⟨⟨3, by decide⟩, by decide, entry⟩, writable, ip, inum, run, by decide,
      fun stores => ?_⟩
    have same := Option.some.inj (stores.bytes 1 (by decide))
    rw [off] at same
    exact absurd (same.trans byte) (by decide)
  · cases facts

end Xv6Lab.Fs

import Xv6Lab.Fs.Upkeep

/-! What the functions on directories keep.  A directory is written one entry at a time, so that
every entry that is read back names an inode that exists. -/

namespace Xv6Lab.Fs

open Bytes Exec

/-- Every inode without links is held by an entry of the table. -/
def NoOrphan (sb : Superblock) (s : State) (v : Disk) : Prop :=
  ∀ i < sb.ninodes, (v.inode i).type ≠ 0 → (v.inode i).nlink = 0 →
    ∃ jp, 0 < (s.itable jp).ref ∧ (s.itable jp).valid = true ∧ (s.itable jp).inum = i

/-- A function of `fs.c` has run, and has logged blocks that satisfy `P`. -/
structure Moves (sb : Superblock) (P : Nat → Prop) (s : State) (v : Disk) (t : State) (v' : Disk) :
    Prop where
  good : Good sb t v'
  ftable : t.ftable = s.ftable
  procs : t.procs = s.procs
  current : t.current = s.current
  logged : Logged P s t
  tidy : NoOrphan sb s v → NoOrphan sb t v'

/-- Inodes keep their types and links. -/
def SameLinks (sb : Superblock) (v v' : Disk) : Prop :=
  ∀ i < sb.ninodes, (v'.inode i).type = (v.inode i).type ∧ (v'.inode i).nlink = (v.inode i).nlink

section Moves

variable {sb : Superblock} {P Q : Nat → Prop} {ip : InodePtr} {s t u : State} {v v' v'' : Disk}

theorem Moves.refl (h : Good sb s v) : Moves sb P s v s v :=
  ⟨h, rfl, rfl, rfl, .none rfl, id⟩

theorem Moves.trans (one : Moves sb P s v t v') (two : Moves sb P t v' u v'') :
    Moves sb P s v u v'' :=
  ⟨two.good, two.ftable.trans one.ftable, two.procs.trans one.procs, two.current.trans one.current,
    one.logged.trans two.logged, fun none => two.tidy (one.tidy none)⟩

theorem Moves.mono (h : Moves sb P s v t v') (weaker : ∀ b, P b → Q b) : Moves sb Q s v t v' :=
  ⟨h.good, h.ftable, h.procs, h.current, h.logged.mono weaker, h.tidy⟩

theorem SameLinks.refl : SameLinks sb v v := fun _ _ => ⟨rfl, rfl⟩

theorem Onward.tidy (onward : Onward s t) (links : SameLinks sb v v') (none : NoOrphan sb s v) :
    NoOrphan sb t v' := by
  intro i hi used zero
  obtain ⟨type, nlink⟩ := links i hi
  obtain ⟨jp, live, read, is⟩ := none i hi (type ▸ used) (nlink ▸ zero)
  exact ⟨jp, onward.live live, onward.valid jp live read, (onward.inum jp live).trans is⟩

theorem Step.moves (step : Step sb P s t v') (links : SameLinks sb v v') : Moves sb P s v t v' :=
  ⟨step.good, step.ftable, step.procs, step.current, step.logged, step.onward.tidy links⟩

theorem Put.moves (h : Good sb s v) (put : Put sb ip s v t v') :
    Moves sb (fun b => Last s ip ∧ (sb.IsBitmap b ∨ b = sb.iblock (s.itable ip).inum)) s v t v' := by
  refine ⟨put.good, put.ftable, put.procs, put.current, put.logged, fun none i hi used zero => ?_⟩
  by_cases last : Last s ip
  · obtain ⟨free, others⟩ := put.freed last
    have other : i ≠ (s.itable ip).inum := by
      rintro rfl
      exact used free
    rw [others i other] at used zero
    obtain ⟨jp, live, read, is⟩ := none i hi used zero
    have apart : jp ≠ ip := by
      rintro rfl
      exact other is.symm
    refine ⟨jp, ?_, ?_, ?_⟩ <;> rw [put.others jp apart]
    · exact live
    · exact read
    · exact is
  · obtain ⟨here, rfl⟩ := put.kept last
    obtain ⟨jp, live, read, is⟩ := none i hi used zero
    by_cases apart : jp = ip
    · subst apart
      refine ⟨jp, ?_, by rw [here]; exact read, by rw [here]; exact is⟩
      have nlink : (s.itable jp).nlink = 0 := by
        rw [(h.cached.slot jp live).synced read, is]
        exact zero
      have more : (s.itable jp).ref ≠ 1 := fun one => last ⟨one, read, nlink⟩
      rw [put.ref]
      omega
    · refine ⟨jp, ?_, ?_, ?_⟩ <;> rw [put.others jp apart]
      · exact live
      · exact read
      · exact is

end Moves

/-! ### `writei` -/

section Writei

variable {sb : Superblock} {ip : InodePtr} {s t : State} {v v' : Disk} {src : Buffer} {off n m : Nat}

theorem Resized.onward {size : Nat} (h : Resized ip size s t) : Onward s t := by
  obtain ⟨addrs, is⟩ := h.inode
  refine .change h.others fun _ => ⟨?_, ?_, fun read => ?_⟩
  · rw [is]
  · rw [is]
  · rw [is]
    exact read

theorem Wrote.links (h : Good sb s v) (ready : Ready s ip) (wrote : Wrote sb ip src off m s v t v') :
    SameLinks sb v v' := by
  intro i _
  rw [wrote.inodes]
  by_cases this : i = (s.itable ip).inum
  · obtain ⟨addrs, is⟩ := wrote.resized.inode
    rw [this, Function.update_self, is, ← (h.cached.slot ip ready.live).synced ready.valid]
    exact ⟨rfl, rfl⟩
  · rw [Function.update_of_ne this]
    exact ⟨rfl, rfl⟩

/-- A directory is written entry by entry, with entries for inodes that exist. -/
def Fitting (sb : Superblock) (inode : Inode) (src : Buffer) (off n : Nat) : Prop :=
  inode.type = T_DIR → off % DIRENT = 0 ∧ n = DIRENT ∧ deInum src < sb.ninodes

theorem deInum_congr {de de' : Buffer} (same : ∀ i < 2, de i = de' i) : deInum de = deInum de' :=
  le_congr fun i _ less => same i (by omega)

theorem Wrote.entries (h : Good sb s v) (ready : Ready s ip)
    (wrote : Wrote sb ip src off m s v t v') (start : off ≤ (s.itable ip).size) (within : m ≤ n)
    (short : m < n → m = 0 ∨ (off + m) % BSIZE = 0) (fitting : Fitting sb (s.itable ip) src off n) :
    Entries sb v' := by
  intro j hj dir o aligned inside
  have bound := (wrote.consistent.solid j hj).size
  have content : ∀ i < 2, v'.content (v'.inode j) (o + i) =
      if j = (s.itable ip).inum ∧ off ≤ o + i ∧ o + i < off + m then src (o + i - off)
      else v.content (v.inode j) (o + i) := by
    intro i less
    refine wrote.content j hj (o + i) ?_
    rw [Nat.div_lt_iff_lt_mul (by decide)]
    unfold DIRENT at inside
    omega
  by_cases this : j = (s.itable ip).inum
  · obtain ⟨addrs, is⟩ := wrote.resized.inode
    have before := (h.cached.slot ip ready.live).synced ready.valid
    have size : (v'.inode j).size = max (s.itable ip).size (off + m) := by
      rw [wrote.inodes, this, Function.update_self, is]
    have type : (v'.inode j).type = (s.itable ip).type := by
      rw [wrote.inodes, this, Function.update_self, is]
    rw [type] at dir
    rw [size] at inside
    obtain ⟨start', rfl, small⟩ := fitting dir
    have part : m = 0 ∨ m = DIRENT := by
      by_contra neither
      push Not at neither
      rcases short (by omega) with none | stop
      · exact neither.1 none
      · unfold DIRENT BSIZE at *
        omega
    by_cases new : o = off ∧ m = DIRENT
    · obtain ⟨rfl, rfl⟩ := new
      rw [@deInum_congr _ src fun i less => ?_]
      · exact small
      · rw [content i less, if_pos ⟨this, by omega, by unfold DIRENT; omega⟩, Nat.add_sub_cancel_left]
    · have old : o + DIRENT ≤ (v.inode j).size := by
        rw [this, ← before]
        show o + DIRENT ≤ (s.itable ip).size
        unfold DIRENT at *
        omega
      rw [@deInum_congr _ (fun k => v.content (v.inode j) (o + k)) fun i less => ?_]
      · refine h.entries j hj ?_ o aligned old
        rw [this, ← before]
        exact dir
      · rw [content i less, if_neg]
        rintro ⟨-, low, high⟩
        unfold DIRENT at *
        omega
  · have same : v'.inode j = v.inode j := by rw [wrote.inodes, Function.update_of_ne this]
    rw [@deInum_congr _ (fun k => v.content (v.inode j) (o + k)) fun i less => ?_]
    · rw [same] at dir inside
      exact h.entries j hj dir o aligned inside
    · rw [content i less, if_neg fun here => this here.1]

/-- What `writei` leaves, with its result. -/
def WriteiPost (sb : Superblock) (ip : InodePtr) (src : Buffer) (off n : Nat) (s : State) (v : Disk)
    (r : Int) (t : State) : Prop :=
  (¬ (off ≤ (s.itable ip).size ∧ off + n ≤ MAXFILE * BSIZE) ∧ r = -1 ∧ t = s) ∨
  ∃ (m : Nat) (v' : Disk), r = m ∧ m ≤ n ∧ (off ≤ (s.itable ip).size ∧ off + n ≤ MAXFILE * BSIZE) ∧
    (m < n → (m = 0 ∨ (off + m) % BSIZE = 0) ∧ ∀ b < sb.size, v'.used b = true) ∧
    Wrote sb ip src off m s v t v' ∧
    Step sb (fun b => b = sb.iblock (s.itable ip).inum ∨ WriteLog sb ip off m n s v t v' b) s t v'

theorem writei_ends (valid : sb.Valid) (h : Good sb s v) (ready : Ready s ip) (small : n < 2 ^ 32)
    (fitting : Fitting sb (s.itable ip) src off n) :
    Ends (writei sb ip src off n) (WriteiPost sb ip src off n s v) s := by
  have bound : (s.itable ip).size ≤ MAXFILE * BSIZE := (h.solidInode ready).size
  have all : MAXFILE * BSIZE = 274432 := by decide
  by_cases fits : off ≤ (s.itable ip).size ∧ off + n ≤ MAXFILE * BSIZE
  · refine (writei_does valid h.toConsistent ready fits.1 fits.2).ends.conseq ?_
    rintro r t ⟨m, v', is, within, short, wrote, files, logged⟩
    have entries := wrote.entries h ready fits.1 within (fun less => (short less).1) fitting
    exact .inr ⟨m, v', is, within, fits, short, wrote, ⟨wrote.consistent, entries⟩,
      wrote.resized.onward, files.ftable, files.procs, files.current, logged⟩
  · have fails : Ends (pure (-1)) (WriteiPost sb ip src off n s v) s :=
      ends_pure (.inl ⟨fits, rfl, rfl⟩)
    unfold writei
    refine ends_get ?_
    by_cases past : (s.itable ip).size < off ∨ (off + n) % 2 ^ 32 < off
    · rw [if_pos past]
      exact fails
    · rw [if_neg past, if_pos (by omega)]
      exact fails

/-- An entry lies in one block. -/
theorem WriteLog.entry {b : Nat} (log : WriteLog sb ip off m DIRENT s v t v' b)
    (aligned : off % DIRENT = 0) (within : m ≤ DIRENT) :
    b = v'.at (t.itable ip).toDinode (dataPlace (off / BSIZE)) ∨ sb.IsBitmap b ∨
      b = (t.itable ip).addrs INDIRECT := by
  rcases log with ⟨o, low, high, is⟩ | ⟨o, low, high, -, bitmap | ⟨-, -, is⟩⟩
  · have block : o / BSIZE = off / BSIZE := by
      unfold DIRENT BSIZE at *
      omega
    rw [block] at is
    exact .inl is.symm
  · exact .inr (.inl bitmap)
  · exact .inr (.inr is.symm)

end Writei

/-! ### `dirlookup` and `dirlink` -/

section Entries

variable {sb : Superblock} {dp : InodePtr} {s : State} {v : Disk} {off n : Nat}

theorem ends_ok {α : Type} {x : F α} {a : α} {t : State} {Q : α → State → Prop}
    (run : x s = .ok a t) (h : Q a t) : Ends x Q s := by
  unfold Ends
  rw [wp_value run]
  exact h

/-- The entry at `off` is read, and is whole. -/
theorem readi_entry (h : Good sb s v) (ready : Ready s dp) (de : Buffer)
    (inside : off < (s.itable dp).size) :
    Ends (readi sb dp de off DIRENT) (fun r t => t = s ∧ (r.1 = DIRENT → off + DIRENT ≤ (s.itable dp).size ∧
      deInum r.2 = deInum fun k => v.content (s.itable dp).toDinode (off + k))) s := by
  have bound : (s.itable dp).size ≤ MAXFILE * BSIZE := (h.solidInode ready).size
  have all : MAXFILE * BSIZE = 274432 := by decide
  refine ends_ok (readi_ok h.toConsistent ready de (by unfold DIRENT; omega)) ⟨rfl, fun whole => ?_⟩
  have count : min DIRENT ((s.itable dp).size - off) = DIRENT := Int.ofNat.inj whole
  refine ⟨by omega, ?_⟩
  dsimp only
  rw [count]
  refine deInum_congr fun i less => ?_
  rw [blit_in (Nat.zero_le i) (by unfold DIRENT; omega), Nat.sub_zero]

/-- What `dirlookup` leaves, with its result. -/
def LookupPost (sb : Superblock) (s : State) (v : Disk)
    (r : Option (InodePtr × Nat)) (t : State) : Prop :=
  (r = none ∧ t = s) ∨ ∃ ip off i, r = some (ip, off) ∧ off % DIRENT = 0 ∧
    i < sb.ninodes ∧ Step sb nothing s t v ∧ Got ip i s t

theorem dirlookupFrom_ends (h : Good sb s v) (ready : Ready s dp) (dir : (s.itable dp).type = T_DIR)
    (name : Path) (fuel : Nat) (aligned : off % DIRENT = 0) :
    Ends (dirlookupFrom sb dp name fuel off) (LookupPost sb s v) s := by
  have slot := h.cached.slot dp ready.live
  induction fuel generalizing off with
  | zero => exact ends_pure (.inl ⟨rfl, rfl⟩)
  | succ fuel ih =>
    unfold dirlookupFrom
    refine ends_get ?_
    split
    · next inside =>
      refine (readi_entry h ready _ inside).bind fun ⟨r, de⟩ t ⟨is, entry⟩ => ?_
      subst is
      dsimp only at entry ⊢
      split
      · exact ends_throw (by decide)
      · next whole =>
        obtain ⟨within, same⟩ := entry (not_not.mp whole)
        split
        · have exists' : deInum de < sb.ninodes := by
            rw [same, slot.synced ready.valid]
            refine h.entries _ slot.inside ?_ off aligned ?_
            · rw [← slot.synced ready.valid]
              exact dir
            · rw [← slot.synced ready.valid]
              exact within
          rw [slot.dev]
          refine (iget_ends h exists').bind fun ip u ⟨step, got⟩ => ?_
          exact ends_pure (.inr ⟨ip, off, _, rfl, aligned, exists', step, got⟩)
        · exact ih (by unfold DIRENT at *; omega)
    · exact ends_pure (.inl ⟨rfl, rfl⟩)

theorem dirlookup_ends (h : Good sb s v) (ready : Ready s dp) (name : Path) :
    Ends (dirlookup sb dp name) (LookupPost sb s v) s := by
  unfold dirlookup
  refine ends_get ?_
  split
  · exact ends_throw (by decide)
  · next dir => exact dirlookupFrom_ends h ready (not_not.mp dir) name _ (Nat.zero_mod _)

theorem emptyDirent_ends (h : Good sb s v) (ready : Ready s dp) (fuel : Nat) (de : Buffer)
    (aligned : off % DIRENT = 0) :
    Ends (emptyDirent sb dp fuel off de) (fun r t => t = s ∧ r.1 % DIRENT = 0) s := by
  induction fuel generalizing off de with
  | zero => exact ends_pure ⟨rfl, aligned⟩
  | succ fuel ih =>
    unfold emptyDirent
    refine ends_get ?_
    split
    · next inside =>
      refine (readi_entry h ready _ inside).bind fun ⟨r, de⟩ t ⟨is, entry⟩ => ?_
      subst is
      dsimp only
      split
      · exact ends_throw (by decide)
      · split
        · exact ends_pure ⟨rfl, aligned⟩
        · exact ih _ (by unfold DIRENT at *; omega)
    · exact ends_pure ⟨rfl, aligned⟩

/-- The inode number of an entry that is made for inode `inum`. -/
theorem deInum_setDirent (de : Buffer) (name : Path) (inum : Nat) :
    deInum (setDirent de name inum) ≤ inum := by
  rw [deInum, setDirent, le_setLe_mod]
  exact Nat.mod_le ..

/-- The blocks of a directory that `dirlink` and `unlink` log. -/
def DirLog (sb : Superblock) (inum data indirect : Nat) (b : Nat) : Prop :=
  b = sb.iblock inum ∨ b = data ∨ sb.IsBitmap b ∨ b = indirect

/-- An entry has been written to the directory. -/
def Entered (sb : Superblock) (dp : InodePtr) (s : State) (v : Disk) (t : State) : Prop :=
  ∃ v' data indirect, Step sb (DirLog sb (s.itable dp).inum data indirect) s t v' ∧ SameLinks sb v v'

theorem WriteiPost.entered {src : Buffer} {r : Int} {t : State} (h : Good sb s v)
    (ready : Ready s dp) (post : WriteiPost sb dp src off DIRENT s v r t) (done : r = DIRENT)
    (aligned : off % DIRENT = 0) : Entered sb dp s v t := by
  rcases post with ⟨-, failed, -⟩ | ⟨m, v', -, within, -, -, wrote, step⟩
  · rw [failed] at done
    exact absurd done (by decide)
  · refine ⟨v', v'.at (t.itable dp).toDinode (dataPlace (off / BSIZE)), (t.itable dp).addrs INDIRECT,
      step.mono fun b log => ?_, wrote.links h ready⟩
    rcases log with here | log
    · exact .inl here
    · exact .inr (log.entry aligned within)

theorem dirlink_ends (valid : sb.Valid) (h : Good sb s v) (ready : Ready s dp) (name : Path)
    {inum : Nat} (inside : inum < sb.ninodes) :
    Ends (dirlink sb dp name inum) (fun r t => 0 ≤ r → Entered sb dp s v t) s := by
  unfold dirlink
  refine (dirlookup_ends h ready name).bind fun r t post => ?_
  rcases post with ⟨rfl, rfl⟩ | ⟨ip, off, i, rfl, -, -, step, -⟩
  · refine ends_get ((emptyDirent_ends h ready _ _ (Nat.zero_mod _)).bind
      fun ⟨off, de⟩ u ⟨is, aligned⟩ => ?_)
    subst is
    dsimp only at aligned ⊢
    have fitting : Fitting sb (u.itable dp) (setDirent de name inum) off DIRENT := fun _ =>
      ⟨aligned, rfl, Nat.lt_of_le_of_lt (deInum_setDirent ..) inside⟩
    refine (writei_ends valid h ready (by decide) fitting).bind fun r w post => ?_
    split
    · refine ends_pure fun positive => ?_
      exact absurd positive (by decide)
    · next done => exact ends_pure fun _ => post.entered h ready (not_not.mp done) aligned
  · refine (iput_ends valid step.good).bind fun _ u _ => ends_pure fun positive => ?_
    exact absurd positive (by decide)

end Entries

end Xv6Lab.Fs

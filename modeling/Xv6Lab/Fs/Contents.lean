import Xv6Lab.Fs.Ownership

/-! Files are byte arrays: `bmap` gives a file the blocks it lacks without changing what any file
reads, `writei` replaces the bytes it writes, and `readi` returns the bytes as they are. -/

namespace Xv6Lab.Fs

open Bytes Exec

/-- The inodes of the disk, but for the one that `ip` has in memory. -/
def held (v : Disk) (s : State) (ip : InodePtr) : Nat → Dinode :=
  Function.update v.inode (s.itable ip).inum (s.itable ip).toDinode

/-- Ownership holds with the inode that `ip` has in memory. -/
structure Holds (sb : Superblock) (ip : InodePtr) (s : State) (v : Disk) : Prop where
  shows : Shows sb s v
  own : Own sb v (held v s ip)
  inside : (s.itable ip).inum < sb.ninodes
  type : (s.itable ip).type ≠ 0

/-- In memory, only the slots of `ip` change. -/
structure OnlyAddrs (ip : InodePtr) (s t : State) : Prop where
  inode : ∃ addrs, t.itable ip = { s.itable ip with addrs := addrs }
  others : ∀ jp ≠ ip, t.itable jp = s.itable jp
  ftable : t.ftable = s.ftable
  procs : t.procs = s.procs
  current : t.current = s.current

section Frames

variable {ip : InodePtr} {s t u : State}

theorem SameTables.onlyAddrs (same : SameTables s t) : OnlyAddrs ip s t :=
  ⟨⟨_, by rw [same.itable]⟩, fun jp _ => by rw [same.itable], same.ftable, same.procs, same.current⟩

theorem OnlyAddrs.trans (one : OnlyAddrs ip s t) (two : OnlyAddrs ip t u) : OnlyAddrs ip s u := by
  obtain ⟨a, first⟩ := one.inode
  obtain ⟨b, second⟩ := two.inode
  refine ⟨⟨b, ?_⟩, fun jp other => (two.others jp other).trans (one.others jp other),
    two.ftable.trans one.ftable, two.procs.trans one.procs, two.current.trans one.current⟩
  rw [second, first]

theorem OnlyAddrs.inum (h : OnlyAddrs ip s t) : (t.itable ip).inum = (s.itable ip).inum := by
  obtain ⟨a, is⟩ := h.inode
  rw [is]

theorem OnlyAddrs.size (h : OnlyAddrs ip s t) : (t.itable ip).size = (s.itable ip).size := by
  obtain ⟨a, is⟩ := h.inode
  rw [is]

end Frames

/-- The blocks that are logged where place `p` gets block `addr`: nothing if it has one. -/
def MapLog (sb : Superblock) (ip : InodePtr) (p : Place) (s : State) (v : Disk) (addr : Nat)
    (t : State) (b : Nat) : Prop :=
  v.at (s.itable ip).toDinode p = 0 ∧ (sb.IsBitmap b ∨ (b ≠ 0 ∧ (b = addr ∨
    (p.IsWord ∧ b = (t.itable ip).addrs INDIRECT))))

/-- What giving a block to a place leaves, with the block number it returns. -/
structure Mapped (sb : Superblock) (ip : InodePtr) (p : Place) (s : State) (v : Disk) (addr : Nat)
    (t : State) (v' : Disk) : Prop where
  holds : Holds sb ip t v'
  only : OnlyAddrs ip s t
  inodes : v'.inode = v.inode
  extends' : Extends sb v (held v s ip) v' (held v' t ip)
  logged : Logged (MapLog sb ip p s v addr t) s t
  result : (addr = 0 ∧ ∀ b < sb.size, v'.used b = true) ∨
    (addr ≠ 0 ∧ v'.at (t.itable ip).toDinode p = addr)

section Bmap

variable {sb : Superblock} {ip : InodePtr} {s t : State} {v v' : Disk} {p : Place} {addr : Nat}

theorem held_self : held v s ip (s.itable ip).inum = (s.itable ip).toDinode :=
  Function.update_self ..

theorem held_congr (inodes : v'.inode = v.inode) (same : t.itable ip = s.itable ip) :
    held v' t ip = held v s ip := by
  rw [held, held, inodes, same]

/-- A place that has a block keeps it. -/
theorem Holds.mapped (h : Holds sb ip s v) (some : addr ≠ 0)
    (is : v.at (s.itable ip).toDinode p = addr) : Mapped sb ip p s v addr s v :=
  ⟨h, (SameTables.refl s).onlyAddrs, rfl, .refl, .none rfl, .inr ⟨some, is⟩⟩

/-- No block is free. -/
theorem Holds.full (h : Holds sb ip s v) (same : SameTables s t) (shows : Shows sb t v)
    (logged : Logged (MapLog sb ip p s v 0 t) s t) (all : ∀ b < sb.size, v.used b = true) :
    Mapped sb ip p s v 0 t v := by
  have inode : t.itable ip = s.itable ip := by rw [same.itable]
  refine ⟨⟨shows, ?_, ?_, ?_⟩, same.onlyAddrs, rfl, ?_, logged, .inl ⟨rfl, all⟩⟩
  · rw [held_congr rfl inode]
    exact h.own
  · rw [inode]
    exact h.inside
  · rw [inode]
    exact h.type
  · rw [held_congr rfl inode]
    exact .refl

theorem held_inum (only : OnlyAddrs ip s t) : held v t ip (s.itable ip).inum =
    (t.itable ip).toDinode := by
  rw [← only.inum]
  exact held_self

/-- A place of the inode that is not empty keeps its block. -/
theorem Mapped.kept {q : Place} (h : Mapped sb ip p s v addr t v')
    (some : v.at (s.itable ip).toDinode q ≠ 0) :
    v'.at (t.itable ip).toDinode q = v.at (s.itable ip).toDinode q := by
  have inside : (s.itable ip).inum < sb.ninodes := h.only.inum ▸ h.holds.inside
  have kept := h.extends'.kept _ inside q
  rw [held_self, held_inum h.only] at kept
  exact kept some

/-- The indirect block first, then one of its words. -/
theorem Mapped.trans {w : Fin NINDIRECT} {u : State} {v'' : Disk} {addr' : Nat}
    (one : Mapped sb ip (.slot INDIRECT) s v addr' t v') (two : Mapped sb ip (.word w) t v' addr u v'')
    (some : addr' ≠ 0) : Mapped sb ip (.word w) s v addr u v'' := by
  have slot : (t.itable ip).addrs INDIRECT = addr' :=
    (one.result.resolve_left fun none => some none.1).2
  have later : (u.itable ip).addrs INDIRECT = addr' := by
    rw [← slot] at some ⊢
    exact two.kept (q := .slot INDIRECT) some
  refine ⟨two.holds, one.only.trans two.only, two.inodes.trans one.inodes,
    one.extends'.trans two.extends', ?_, two.result⟩
  refine (one.logged.mono fun b log => ?_).trans (two.logged.mono fun b log => ?_)
  · obtain ⟨empty, bitmap | ⟨positive, is | ⟨word, -⟩⟩⟩ := log
    · exact ⟨at_word_none empty w, .inl bitmap⟩
    · exact ⟨at_word_none empty w, .inr ⟨positive, .inr ⟨trivial, is.trans later.symm⟩⟩⟩
    · cases word
  · obtain ⟨empty, which⟩ := log
    refine ⟨?_, which⟩
    by_contra filled
    exact filled ((one.kept filled).symm.trans empty)

variable (valid : sb.Valid)
include valid

theorem bmapSlot_does (h : Holds sb ip s v) (k : Fin 13) :
    Does 2 (bmapSlot sb ip k) (fun addr t => ∃ v', Mapped sb ip (.slot k) s v addr t v') s := by
  unfold bmapSlot
  refine does_get ?_
  dsimp only
  split
  · next empty =>
    refine (balloc_does valid h.own.reserved h.shows).bind
      fun b t ⟨same, logged, v', shows, taken⟩ => ?_
    rcases taken with ⟨rfl, rfl, all⟩ | ⟨below, clear, rfl⟩
    · rw [if_pos rfl]
      exact does_pure ⟨v', h.full same shows (logged.mono fun _ log => absurd rfl log.1) all⟩
    · have start := valid.nmeta_pos below
      have positive : b ≠ 0 := by
        rintro rfl
        rw [h.own.reserved 0 start] at clear
        cases clear
      rw [if_neg positive]
      have inode : t.itable ip = s.itable ip := by rw [same.itable]
      have slot : (held v s ip (s.itable ip).inum).addrs k = 0 := by
        rw [held_self]
        exact empty
      have used : (held v s ip (s.itable ip).inum).type ≠ 0 := by
        rw [held_self]
        exact h.type
      obtain ⟨own, extends'⟩ := h.own.placeSlot h.inside start below clear slot used
      rw [held_self, held, Function.update_idem] at own extends'
      set u := t.setInode ip { t.itable ip with addrs := Function.update (t.itable ip).addrs k b }
        with is
      have self : u.itable ip = { s.itable ip with addrs := Function.update (s.itable ip).addrs k b } := by
        rw [is, State.setInode_itable, Function.update_self, inode]
      have inodes : held (v.alloc b) u ip =
          Function.update v.inode (s.itable ip).inum ((s.itable ip).toDinode.setAddr k b) := by
        rw [held, self]
        rfl
      have updated : Does 0 (updInode ip fun inode => { inode with
          addrs := Function.update inode.addrs k b }) (fun _ w => w = u) t :=
        does_modify ⟨rfl, Nat.le_refl _⟩ rfl
      refine updated.bind fun _ w now => does_pure ⟨v.alloc b, ?_⟩
      subst now
      refine ⟨⟨shows.congr rfl, ?_, ?_, ?_⟩, ⟨⟨_, self⟩, fun jp other => ?_, same.ftable, same.procs,
        same.current⟩, rfl, ?_, ?_, .inr ⟨positive, ?_⟩⟩
      · rw [inodes]
        exact own
      · rw [self]
        exact h.inside
      · rw [self]
        exact h.type
      · rw [is, State.setInode_itable, Function.update_of_ne other, same.itable]
      · rw [inodes]
        exact extends'
      · refine logged.mono fun c log => ⟨empty, log.2.imp_right fun is => ?_⟩
        exact ⟨is.symm ▸ positive, .inl is⟩
      · rw [self]
        exact Function.update_self ..
  · next some => exact (does_pure ⟨v, h.mapped some rfl⟩).mono (Nat.zero_le 2)

theorem bmapWord_does (h : Holds sb ip s v) (some : (s.itable ip).addrs INDIRECT ≠ 0)
    (w : Fin NINDIRECT) : Does 3 (bmapWord sb ((s.itable ip).addrs INDIRECT) w)
      (fun addr t => ∃ v', Mapped sb ip (.word w) s v addr t v') s := by
  have some' : (held v s ip (s.itable ip).inum).addrs INDIRECT ≠ 0 := by
    rw [held_self]
    exact some
  obtain ⟨low, high, -⟩ := h.own.range _ h.inside (.slot INDIRECT) some'
  have here : held v s ip (s.itable ip).inum = (s.itable ip).toDinode := held_self
  have lowBlock : sb.nmeta ≤ (s.itable ip).addrs INDIRECT := by rw [here] at low; exact low
  have highBlock : (s.itable ip).addrs INDIRECT < sb.size := by rw [here] at high; exact high
  have block := h.shows.data _ lowBlock highBlock
  unfold bmapWord
  refine does_get ?_
  rw [block]
  have stored : v.at (s.itable ip).toDinode (.word w) =
      word (v.data ((s.itable ip).addrs INDIRECT)) w := at_word some w
  split
  · next empty =>
    refine (balloc_does valid h.own.reserved h.shows).bind
      fun b t ⟨same, logged, v', shows, taken⟩ => ?_
    rcases taken with ⟨rfl, rfl, all⟩ | ⟨below, clear, rfl⟩
    · rw [if_pos rfl]
      have mapped := h.full (p := .word w) same shows (logged.mono fun _ log => absurd rfl log.1) all
      exact (does_pure ⟨v', mapped⟩).mono (Nat.zero_le 1)
    · have start := valid.nmeta_pos below
      have positive : b ≠ 0 := by
        rintro rfl
        rw [h.own.reserved 0 start] at clear
        cases clear
      rw [if_neg positive]
      have small : sb.size < 2 ^ 32 := Nat.lt_trans valid.small (by decide)
      have none : v.at (held v s ip (s.itable ip).inum) (.word w) = 0 := by
        rw [here, stored]
        exact empty
      obtain ⟨own, extends'⟩ := h.own.placeWord h.inside start below small clear some' none
      rw [here] at own extends'
      refine (bstore_logWrite_does _ _).bind (f := fun _ => pure b)
        fun _ u ⟨kept, stores, blocks⟩ => ?_
      have all := same.trans kept
      have inode : u.itable ip = s.itable ip := by rw [all.itable]
      refine does_pure ⟨_, ⟨⟨(shows.setData valid lowBlock highBlock _).congr blocks, ?_, ?_, ?_⟩,
        all.onlyAddrs, rfl, ?_, ?_, .inr ⟨positive, ?_⟩⟩⟩
      · rw [held_congr rfl inode]
        exact own
      · rw [inode]
        exact h.inside
      · rw [inode]
        exact h.type
      · rw [held_congr rfl inode]
        exact extends'
      · have vacant : v.at (s.itable ip).toDinode (.word w) = 0 := stored.trans empty
        refine (logged.mono fun c log => ⟨vacant, log.2.imp_right fun is => ?_⟩).trans
          (stores.mono fun c is => ⟨vacant, .inr ⟨is.symm ▸ some, .inr ⟨trivial, ?_⟩⟩⟩)
        · exact ⟨is.symm ▸ positive, .inl is⟩
        · rw [inode]
          exact is
      · rw [inode, at_word some, Disk.setData_self, word, le_setLe _ _ (by omega)]
  · next filled => exact (does_pure ⟨v, h.mapped filled stored⟩).mono (Nat.zero_le 3)

/-- `bmap` gives block `bn` of the file a block, or finds that none is free. -/
theorem bmap_does (h : Holds sb ip s v) {bn : Nat} (inside : bn < MAXFILE) :
    Does 5 (bmap sb ip bn) (fun addr t => ∃ v', Mapped sb ip (dataPlace bn) s v addr t v') s := by
  unfold bmap
  split
  · next direct =>
    have place := dataPlace_direct direct
    rw [place]
    exact (bmapSlot_does valid h _).mono (by decide)
  · next indirect =>
    have all : MAXFILE = NDIRECT + NINDIRECT := rfl
    have small : bn - NDIRECT < NINDIRECT := by omega
    have place := dataPlace_indirect indirect small
    rw [place, if_pos small]
    refine (bmapSlot_does valid h INDIRECT).bind fun addr t ⟨v', mapped⟩ => ?_
    split
    · next none =>
      refine (does_pure ⟨v', mapped.holds, mapped.only, mapped.inodes, mapped.extends', ?_,
        .inl ⟨rfl, (mapped.result.resolve_right fun some => some.1 none).2⟩⟩).mono (Nat.zero_le 3)
      refine mapped.logged.mono fun b log => ⟨at_word_none log.1 _, log.2.imp_right ?_⟩
      rintro ⟨positive, is | ⟨word, -⟩⟩
      · exact absurd (is.trans none) positive
      · cases word
    · next some =>
      have slot : (t.itable ip).addrs INDIRECT = addr :=
        (mapped.result.resolve_left fun none => some none.1).2
      have word := bmapWord_does valid mapped.holds (slot.symm ▸ some) ⟨bn - NDIRECT, small⟩
      rw [slot] at word
      exact word.conseq fun addr' u ⟨v'', after⟩ => ⟨v'', mapped.trans after some⟩

end Bmap

/-! ### `writei` -/

/-- The blocks of a file that `len` bytes from `off` on lie in. -/
def blocksIn (off len : Nat) : Nat :=
  if len = 0 then 0 else (off + len - 1) / BSIZE - off / BSIZE + 1

/-- The bytes that one iteration of `writei` and `readi` copies. -/
def chunk (off left : Nat) : Nat := min left (BSIZE - off % BSIZE)

theorem blocksIn_chunk {off left : Nat} (some : 0 < left) :
    blocksIn (off + chunk off left) (left - chunk off left) + 1 ≤ blocksIn off left := by
  unfold blocksIn chunk BSIZE
  split <;> split <;> omega

theorem chunk_pos {off left : Nat} (some : 0 < left) : 0 < chunk off left := by
  unfold chunk BSIZE
  omega

/-- The bytes of a chunk lie in one block. -/
theorem inChunk_iff {off left o : Nat} : off ≤ o ∧ o < off + chunk off left ↔
    o / BSIZE = off / BSIZE ∧ off % BSIZE ≤ o % BSIZE ∧ o % BSIZE < off % BSIZE + chunk off left := by
  unfold chunk BSIZE
  omega

/-- `m` bytes of `src`, from `from'` on, have been written to the file at `off`. -/
structure Written (sb : Superblock) (ip : InodePtr) (src : Buffer) (from' off m : Nat) (s : State)
    (v : Disk) (t : State) (v' : Disk) : Prop where
  holds : Holds sb ip t v'
  only : OnlyAddrs ip s t
  inodes : v'.inode = v.inode
  kept : ∀ j < sb.ninodes, ∀ q, v.at (held v s ip j) q ≠ 0 →
    v'.at (held v' t ip j) q = v.at (held v s ip j) q
  mapped : ∀ o, off ≤ o → o < off + m →
    v'.at (t.itable ip).toDinode (dataPlace (o / BSIZE)) ≠ 0
  content : ∀ j < sb.ninodes, ∀ o, o / BSIZE < MAXFILE → v'.content (held v' t ip j) o =
    if j = (s.itable ip).inum ∧ off ≤ o ∧ o < off + m then src (from' + (o - off))
    else v.content (held v s ip j) o

/-- The blocks that are logged where `m` of `len` bytes are written at `off`: the blocks of the
file that they lie in and, where one of these was missing, a bitmap block and the indirect block. -/
def WriteLog (sb : Superblock) (ip : InodePtr) (off m len : Nat) (s : State) (v : Disk) (t : State)
    (v' : Disk) (b : Nat) : Prop :=
  (∃ o, off ≤ o ∧ o < off + m ∧ v'.at (t.itable ip).toDinode (dataPlace (o / BSIZE)) = b) ∨
    ∃ o, off ≤ o ∧ o < off + len ∧ v.at (s.itable ip).toDinode (dataPlace (o / BSIZE)) = 0 ∧
      (sb.IsBitmap b ∨ (b ≠ 0 ∧ (dataPlace (o / BSIZE)).IsWord ∧ (t.itable ip).addrs INDIRECT = b))

section Writei

variable {sb : Superblock} {ip : InodePtr} {s t u : State} {v v' v'' : Disk} {src : Buffer}
  {from' off m k : Nat}

/-- A block that is found, or not found, for a file changes no byte. -/
theorem Mapped.unwritten {p : Place} {addr : Nat} (h : Mapped sb ip p s v addr t v') :
    Written sb ip src from' off 0 s v t v' := by
  refine ⟨h.holds, h.only, h.inodes, h.extends'.kept, fun o low high => by omega,
    fun j hj o _ => ?_⟩
  rw [h.extends'.content j hj, if_neg fun within => by omega]

theorem Holds.unwritten (h : Holds sb ip s v) : Written sb ip src from' off 0 s v s v := by
  refine ⟨h, (SameTables.refl s).onlyAddrs, rfl, fun _ _ _ _ => rfl, fun o low high => by omega,
    fun j hj o _ => ?_⟩
  rw [if_neg fun within => by omega]

theorem Written.keeps {q : Place} (h : Written sb ip src from' off m s v t v')
    (some : v.at (s.itable ip).toDinode q ≠ 0) :
    v'.at (t.itable ip).toDinode q = v.at (s.itable ip).toDinode q := by
  have inside : (s.itable ip).inum < sb.ninodes := h.only.inum ▸ h.holds.inside
  have kept := h.kept _ inside q
  rw [held_self, held_inum h.only] at kept
  exact kept some

/-- What was logged before more is written, or more was to be written. -/
theorem WriteLog.before {len len' b : Nat} (h : WriteLog sb ip off m len s v t v' b)
    (mapped : ∀ o, off ≤ o → o < off + m → v'.at (t.itable ip).toDinode (dataPlace (o / BSIZE)) ≠ 0)
    (keeps : ∀ q, v'.at (t.itable ip).toDinode q ≠ 0 →
      v''.at (u.itable ip).toDinode q = v'.at (t.itable ip).toDinode q) (longer : len ≤ len') :
    WriteLog sb ip off (m + k) len' s v u v'' b := by
  rcases h with ⟨o, low, high, is⟩ | ⟨o, low, high, empty, which⟩
  · refine .inl ⟨o, low, by omega, ?_⟩
    rw [keeps _ (mapped o low high)]
    exact is
  · refine .inr ⟨o, low, by omega, empty, which.imp_right fun ⟨positive, word, is⟩ => ⟨positive, word, ?_⟩⟩
    rw [← is] at positive ⊢
    exact keeps (.slot INDIRECT) positive

/-- What is logged after something was written. -/
theorem WriteLog.after {len b : Nat} (h : WriteLog sb ip (off + m) k (len - m) t v' u v'' b)
    (keeps : ∀ q, v.at (s.itable ip).toDinode q ≠ 0 →
      v'.at (t.itable ip).toDinode q = v.at (s.itable ip).toDinode q) (within : m ≤ len) :
    WriteLog sb ip off (m + k) len s v u v'' b := by
  rcases h with ⟨o, low, high, is⟩ | ⟨o, low, high, empty, which⟩
  · exact .inl ⟨o, by omega, by omega, is⟩
  · refine .inr ⟨o, by omega, by omega, ?_, which⟩
    by_contra filled
    exact filled ((keeps _ filled).symm.trans empty)

theorem Written.trans (one : Written sb ip src from' off m s v t v')
    (two : Written sb ip src (from' + m) (off + m) k t v' u v'') :
    Written sb ip src from' off (m + k) s v u v'' := by
  have inside := one.holds.inside
  refine ⟨two.holds, one.only.trans two.only, two.inodes.trans one.inodes, fun j hj q filled => ?_,
    fun o low high => ?_, fun j hj o small => ?_⟩
  · have first := one.kept j hj q filled
    rw [two.kept j hj q (first.symm ▸ filled), first]
  · by_cases early : o < off + m
    · have first := one.mapped o low early
      have kept := two.kept (t.itable ip).inum inside (dataPlace (o / BSIZE))
      rw [held_self, held_inum two.only] at kept
      rw [kept first]
      exact first
    · exact two.mapped o (by omega) (by omega)
  · rw [two.content j hj o small, one.content j hj o small, one.only.inum]
    by_cases this : j = (s.itable ip).inum
    · by_cases late : off + m ≤ o ∧ o < off + m + k
      · rw [if_pos ⟨this, late⟩, if_pos ⟨this, by omega, by omega⟩]
        congr 1
        omega
      · rw [if_neg fun h => late h.2]
        by_cases early : off ≤ o ∧ o < off + m
        · rw [if_pos ⟨this, early⟩, if_pos ⟨this, by omega, by omega⟩]
        · rw [if_neg fun h => early h.2, if_neg fun h => by omega]
    · rw [if_neg fun h => this h.1, if_neg fun h => this h.1, if_neg fun h => this h.1]

variable (valid : sb.Valid)
include valid

/-- One iteration of `writei`, once `bmap` has found the block. -/
theorem writeChunk_does {left addr : Nat} (mapped : Mapped sb ip (dataPlace (off / BSIZE)) s v addr t v')
    (some : addr ≠ 0) (inside : off / BSIZE < MAXFILE) (positive : 0 < left) :
    Does 1 (do
        bstore addr (blit (t.blocks addr) (off % BSIZE) (fun i => src (from' + i)) (chunk off left))
        logWrite addr)
      (fun _ u => ∃ v'', Written sb ip src from' off (chunk off left) s v u v'' ∧
        Logged (WriteLog sb ip off (chunk off left) left s v u v'') s u) t := by
  have place : v'.at (t.itable ip).toDinode (dataPlace (off / BSIZE)) = addr :=
    (mapped.result.resolve_left fun none => some none.1).2
  have here : held v' t ip (t.itable ip).inum = (t.itable ip).toDinode := held_self
  have filled : v'.at (held v' t ip (t.itable ip).inum) (dataPlace (off / BSIZE)) ≠ 0 := by
    rw [here, place]
    exact some
  obtain ⟨low, high, -⟩ := mapped.holds.own.range _ mapped.holds.inside _ filled
  rw [here, place] at low high
  set data := blit (t.blocks addr) (off % BSIZE) (fun i => src (from' + i)) (chunk off left) with is
  obtain ⟨same, own, content⟩ := mapped.holds.own.write mapped.holds.inside inside filled data
  rw [here, place] at same own content
  refine (bstore_logWrite_does addr data).conseq fun _ u ⟨kept, stores, blocks⟩ => ?_
  have inode : u.itable ip = t.itable ip := by rw [kept.itable]
  have inodes : held (v'.setData addr data) u ip = held v' t ip := held_congr rfl inode
  have stored := same (t.itable ip).inum mapped.holds.inside (dataPlace (off / BSIZE))
  rw [here, place] at stored
  refine ⟨v'.setData addr data, ⟨⟨(mapped.holds.shows.setData valid low high data).congr blocks, ?_, ?_,
    ?_⟩, mapped.only.trans kept.onlyAddrs, mapped.inodes, fun j hj q before => ?_,
    fun o low' high' => ?_, fun j hj o small => ?_⟩, ?_⟩
  · rw [inodes]
    exact own
  · rw [inode]
    exact mapped.holds.inside
  · rw [inode]
    exact mapped.holds.type
  · rw [inodes, same j hj]
    exact mapped.extends'.kept j hj q before
  · have only : o / BSIZE = off / BSIZE := (inChunk_iff.mp ⟨low', high'⟩).1
    rw [inode, only, stored]
    exact some
  · rw [inodes, content j hj o small, mapped.extends'.content j hj o, mapped.only.inum]
    by_cases this : j = (s.itable ip).inum ∧ o / BSIZE = off / BSIZE
    · rw [if_pos this, is]
      by_cases within : off ≤ o ∧ o < off + chunk off left
      · obtain ⟨-, lower, upper⟩ := inChunk_iff.mp within
        rw [if_pos ⟨this.1, within⟩, blit_in lower upper]
        congr 1
        unfold BSIZE at *
        omega
      · have out : o % BSIZE < off % BSIZE ∨ off % BSIZE + chunk off left ≤ o % BSIZE := by
          by_contra none
          exact within (inChunk_iff.mpr ⟨this.2, by omega, by omega⟩)
        rw [if_neg fun h => within h.2, blit_out out, ← mapped.extends'.content j hj o, this.1,
          ← mapped.only.inum, Disk.content, this.2, if_neg filled, here, place,
          mapped.holds.shows.data addr low high]
    · rw [if_neg this, if_neg]
      rintro ⟨inum, within⟩
      exact this ⟨inum, (inChunk_iff.mp within).1⟩
  · have first : WriteLog sb ip off (chunk off left) left s v u (v'.setData addr data) addr := by
      refine .inl ⟨off, Nat.le_refl _, ?_, ?_⟩
      · have := @chunk_pos off _ positive
        omega
      · rw [inode]
        exact stored
    refine (mapped.logged.mono fun b log => ?_).trans (stores.mono fun b is => is.symm ▸ first)
    obtain ⟨empty, bitmap | ⟨nonzero, is | ⟨word, is⟩⟩⟩ := log
    · exact .inr ⟨off, Nat.le_refl _, by omega, empty, .inl bitmap⟩
    · exact is.symm ▸ first
    · refine .inr ⟨off, Nat.le_refl _, by omega, empty, .inr ⟨nonzero, word, ?_⟩⟩
      rw [inode]
      exact is.symm

theorem writeiLoop_does (fuel : Nat) {tot n : Nat} (h : Holds sb ip s v) (upTo : tot ≤ n)
    (enough : n ≤ tot + fuel) (fits : off + (n - tot) ≤ MAXFILE * BSIZE) :
    Does (6 * blocksIn off (n - tot)) (writeiLoop sb ip src n fuel tot off)
      (fun r t => ∃ m v', r = (tot + m, off + m) ∧ tot + m ≤ n ∧
        (tot + m < n → (m = 0 ∨ (off + m) % BSIZE = 0) ∧ ∀ b < sb.size, v'.used b = true) ∧
        Written sb ip src tot off m s v t v' ∧
        Logged (WriteLog sb ip off m (n - tot) s v t v') s t) s := by
  induction fuel generalizing tot off s v with
  | zero =>
    refine (does_pure ⟨0, v, rfl, upTo, fun less => ?_, h.unwritten, .none rfl⟩).mono (Nat.zero_le _)
    omega
  | succ fuel ih =>
    unfold writeiLoop
    split
    · next more =>
      have positive : 0 < n - tot := by omega
      have block : off / BSIZE < MAXFILE := by
        rw [Nat.div_lt_iff_lt_mul (by decide)]
        omega
      have budget := @blocksIn_chunk off _ positive
      have advanced := @chunk_pos off _ positive
      have size : chunk off (n - tot) ≤ n - tot := Nat.min_le_left ..
      refine (bmap_does valid h block).bind fun addr t ⟨v', mapped⟩ => ?_
      split
      · next none =>
        have full := (mapped.result.resolve_right fun some => some.1 none).2
        refine (does_pure ⟨0, v', rfl, upTo, fun _ => ⟨.inl rfl, full⟩, mapped.unwritten, ?_⟩).mono
          (Nat.zero_le _)
        refine mapped.logged.mono fun b log => .inr ⟨off, Nat.le_refl _, by omega, log.1, ?_⟩
        refine log.2.imp_right fun ⟨nonzero, which⟩ => ?_
        obtain ⟨word, is⟩ := which.resolve_left fun is => nonzero (is.trans none)
        exact ⟨nonzero, word, is.symm⟩
      · next some =>
        refine does_get ?_
        refine (writeChunk_does valid mapped some block positive).bind
          (f := fun _ => writeiLoop sb ip src n fuel _ _) fun _ u ⟨v'', written, logged⟩ => ?_
        have rest := ih written.holds (show tot + chunk off (n - tot) ≤ n by omega) (by omega)
          (show off + chunk off (n - tot) + (n - (tot + chunk off (n - tot))) ≤ _ by omega)
        rw [show n - (tot + chunk off (n - tot)) = n - tot - chunk off (n - tot) by omega] at rest
        refine (rest.conseq ?_).mono (by omega)
        rintro r w ⟨m, last, is, within, full, after, more⟩
        refine ⟨chunk off (n - tot) + m, last, ?_, by omega, fun less => ?_, written.trans after, ?_⟩
        · rw [is, Nat.add_assoc, Nat.add_assoc]
        · obtain ⟨stop, full⟩ := full (by omega)
          refine ⟨.inr ?_, full⟩
          -- a chunk that is not the last one ends with its block
          rcases stop with rfl | stop
          · have ends : chunk off (n - tot) = BSIZE - off % BSIZE := by
              unfold chunk at *
              omega
            have := Nat.mod_lt off (show 0 < BSIZE by decide)
            rw [Nat.add_zero, ends, show off + (BSIZE - off % BSIZE) = BSIZE * (off / BSIZE + 1) by
              have := Nat.div_add_mod off BSIZE
              rw [Nat.mul_succ]
              omega]
            exact Nat.mul_mod_right ..
          · rwa [← Nat.add_assoc]
        · exact (logged.mono fun b log => log.before written.mapped (fun _ => after.keeps)
            (Nat.le_refl _)).trans (more.mono fun b log => WriteLog.after log (fun _ => written.keeps) size)
    · exact (does_pure ⟨0, v, rfl, upTo, fun less => by omega, h.unwritten, .none rfl⟩).mono
        (Nat.zero_le _)

end Writei

end Xv6Lab.Fs

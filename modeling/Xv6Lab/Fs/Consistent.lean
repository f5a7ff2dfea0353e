import Xv6Lab.Fs.Contents

/-! A consistent file system: every block that is in use has one owner, files have no holes, and
the inodes in memory are those on disk. -/

namespace Xv6Lab.Fs

open Bytes Exec

/-- Every byte of the file has a block. -/
structure Solid (v : Disk) (d : Dinode) : Prop where
  size : d.size ≤ MAXFILE * BSIZE
  mapped : ∀ o < d.size, v.at d (dataPlace (o / BSIZE)) ≠ 0

/-- An entry of the inode table that is in use: once it has been read, it is as on disk. -/
structure Slot (sb : Superblock) (v : Disk) (inode : Inode) : Prop where
  dev : inode.dev = ROOTDEV
  inside : inode.inum < sb.ninodes
  synced : inode.valid = true → inode.toDinode = v.inode inode.inum
  typed : inode.valid = true → inode.type ≠ 0

/-- The inode table: every entry in use is for another inode. -/
structure Cached (sb : Superblock) (s : State) (v : Disk) : Prop where
  slot : ∀ ip, 0 < (s.itable ip).ref → Slot sb v (s.itable ip)
  unique : ∀ ip jp, 0 < (s.itable ip).ref → 0 < (s.itable jp).ref →
    (s.itable ip).inum = (s.itable jp).inum → ip = jp

/-- The file system between its calls: blocks have one owner, files have no holes, and what the
inode table says is on the disk. -/
structure Consistent (sb : Superblock) (s : State) (v : Disk) : Prop where
  shows : Shows sb s v
  own : Own sb v v.inode
  solid : ∀ i < sb.ninodes, Solid v (v.inode i)
  cached : Cached sb s v

/-- The inode has a reference, and has been read. -/
structure Ready (s : State) (ip : InodePtr) : Prop where
  live : 0 < (s.itable ip).ref
  valid : (s.itable ip).valid = true

section Inodes

variable {sb : Superblock} {ip : InodePtr} {s t : State} {v v' : Disk}

/-- One entry of the table changes, and the inodes of the other entries stay as they are. -/
theorem Cached.change (h : Cached sb s v) (others : ∀ jp ≠ ip, t.itable jp = s.itable jp)
    (kept : ∀ jp ≠ ip, 0 < (s.itable jp).ref →
      v'.inode (s.itable jp).inum = v.inode (s.itable jp).inum)
    (this : 0 < (t.itable ip).ref → Slot sb v' (t.itable ip) ∧
      ∀ jp ≠ ip, 0 < (s.itable jp).ref → (s.itable jp).inum ≠ (t.itable ip).inum) :
    Cached sb t v' := by
  refine ⟨fun jp live => ?_, fun jp kp one two same => ?_⟩
  · by_cases here : jp = ip
    · subst here
      exact (this live).1
    · rw [others jp here] at live ⊢
      obtain ⟨dev, inside, synced, typed⟩ := h.slot jp live
      exact ⟨dev, inside, fun read => (synced read).trans (kept jp here live).symm, typed⟩
  · by_cases first : jp = ip
    · subst first
      by_contra apart
      rw [others kp (Ne.symm apart)] at two same
      exact (this one).2 kp (Ne.symm apart) two same.symm
    · by_cases second : kp = ip
      · subst second
        rw [others jp first] at one same
        exact absurd same ((this two).2 jp first one)
      · rw [others jp first] at one same
        rw [others kp second] at two same
        exact h.unique jp kp one two same

theorem Consistent.held (h : Consistent sb s v) (ready : Ready s ip) : held v s ip = v.inode := by
  rw [Fs.held, (h.cached.slot ip ready.live).synced ready.valid, Function.update_eq_self]

theorem Consistent.holds (h : Consistent sb s v) (ready : Ready s ip) : Holds sb ip s v :=
  ⟨h.shows, (h.held ready).symm ▸ h.own, (h.cached.slot ip ready.live).inside,
    (h.cached.slot ip ready.live).typed ready.valid⟩

theorem Consistent.solidInode (h : Consistent sb s v) (ready : Ready s ip) :
    Solid v (s.itable ip).toDinode := by
  rw [(h.cached.slot ip ready.live).synced ready.valid]
  exact h.solid _ (h.cached.slot ip ready.live).inside

/-- The numbers of an inode that owns its blocks fit their fields. -/
theorem Holds.fits (valid : sb.Valid) (h : Holds sb ip s v) (k : Fin 13) :
    (s.itable ip).addrs k < 2 ^ 32 := by
  by_cases none : (s.itable ip).addrs k = 0
  · rw [none]
    decide
  · have some : v.at (Fs.held v s ip (s.itable ip).inum) (.slot k) ≠ 0 := by
      rw [held_self]
      exact none
    have range := (h.own.range _ h.inside _ some).2.1
    rw [held_self] at range
    have small := valid.small
    calc (s.itable ip).addrs k < sb.size := range
      _ < 2 ^ 32 := by omega

end Inodes

end Xv6Lab.Fs

import Xv6Lab.Fs.Consistent
import Xv6Lab.Fs.Process

/-! The file system that `mkfs` makes is consistent. -/

namespace Xv6Lab.Fs

open Bytes

/-- The root directory. -/
def rootDinode : Dinode := ⟨T_DIR, 0, 0, 1, 1024, fun k => if k = 0 then 47 else 0⟩

/-- What the blocks of `fs.img` store. -/
def imageDisk : Disk where
  used b := decide (b < 48)
  inode i := if i = ROOTINO then rootDinode else freshDinode 0
  data := image

theorem fsImg_valid : fsImg.Valid := by
  refine ⟨fun i small => ?_, fun b small => ?_, by decide, by decide, by decide, by decide⟩
  · have bound : i < 200 := small
    show i / (1024 / 64) + 33 < 46
    omega
  · have bound : b < 2000 := small
    show b / (1024 * 8) + 46 < 47
    omega

theorem getDinode_zero (off : Nat) : getDinode (fun _ => 0) off = freshDinode 0 := by
  ext k <;> simp [getDinode, freshDinode, getShort, le_zeros]

theorem image_bits : ((List.range 2000).all fun b => testBit (image 46) b == decide (b < 48)) = true := by
  decide +kernel

theorem image_shows {s : State} (blocks : s.blocks = image) : Shows fsImg s imageDisk := by
  refine ⟨fun b small => ?_, fun i small => ?_, fun b _ _ => by rw [blocks]; rfl⟩
  · have bound : b < 2000 := small
    have block : fsImg.bblock b = 46 := by
      show b / (1024 * 8) + 46 = 46
      omega
    have bit : b % BPB = b := Nat.mod_eq_of_lt (show b < 1024 * 8 by omega)
    rw [blocks, block, bit]
    have all := List.all_eq_true.mp image_bits b (List.mem_range.mpr bound)
    exact beq_iff_eq.mp all
  · have bound : i < 200 := small
    have which : fsImg.iblock i = 33 ∧ i < 16 ∨ 33 < fsImg.iblock i ∧ fsImg.iblock i < 46 := by
      show i / (1024 / 64) + 33 = 33 ∧ _ ∨ 33 < i / (1024 / 64) + 33 ∧ i / (1024 / 64) + 33 < 46
      omega
    rw [blocks]
    rcases which with ⟨first, low⟩ | ⟨above, below⟩
    · have data : image 33 = setDinode (fun _ => 0) 64 rootDinode := rfl
      have offset : inodeOff i = 64 * i := by
        unfold inodeOff IPB BSIZE
        omega
      rw [first, data, offset]
      by_cases root : i = ROOTINO
      · subst root
        exact getDinode_setDinode ⟨by decide, by decide⟩
      · have apart : i ≠ 1 := root
        rw [getDinode_setDinode_out (by omega), getDinode_zero]
        exact (if_neg root).symm
    · have data : image (fsImg.iblock i) = fun _ => 0 := by
        unfold image
        rw [if_neg (by omega), if_neg (by omega), if_neg (by omega)]
      have apart : i ≠ ROOTINO := by
        rintro rfl
        exact absurd above (by decide)
      rw [data, getDinode_zero]
      exact (if_neg apart).symm

/-- The root directory has one block. -/
theorem image_at (i : Nat) (p : Place) : imageDisk.at (imageDisk.inode i) p =
    if i = ROOTINO ∧ p = .slot 0 then 47 else 0 := by
  by_cases root : i = ROOTINO
  · have inode : imageDisk.inode i = rootDinode := if_pos root
    rw [inode]
    cases p with
    | slot k =>
      show (if k = 0 then 47 else 0) = _
      simp [root]
    | word j =>
      rw [at_word_none (by decide), if_neg]
      rintro ⟨-, is⟩
      cases is
  · have inode : imageDisk.inode i = freshDinode 0 := if_neg root
    rw [inode, if_neg fun is => root is.1]
    cases p with
    | slot k => rfl
    | word j => exact at_word_none rfl j

theorem image_own : Own fsImg imageDisk imageDisk.inode := by
  refine ⟨fun i _ p some => ?_, fun i _ j _ p q some same => ?_, fun b above below used => ?_,
    fun b low => ?_, fun i _ none => ?_⟩
  · rw [image_at] at some ⊢
    have is := (ite_ne_right_iff.mp some).1
    rw [if_pos is]
    decide
  · rw [image_at] at some same
    have is := (ite_ne_right_iff.mp some).1
    rw [if_pos is, image_at] at same
    have other : (if j = ROOTINO ∧ q = .slot 0 then 47 else 0) ≠ 0 := by
      rw [← same]
      decide
    have is' := (ite_ne_right_iff.mp other).1
    exact ⟨is.1.trans is'.1.symm, is.2.trans is'.2.symm⟩
  · have low : 47 ≤ b := above
    have high : b < 48 := of_decide_eq_true used
    refine ⟨ROOTINO, by decide, .slot 0, ?_⟩
    rw [image_at, if_pos ⟨rfl, rfl⟩]
    omega
  · have small : b < 47 := low
    exact decide_eq_true (show b < 48 by omega)
  · by_cases root : i = ROOTINO
    · subst root
      exact absurd none (by decide)
    · intro k
      have inode : imageDisk.inode i = freshDinode 0 := if_neg root
      rw [inode]
      rfl

theorem image_solid (i : Nat) : Solid imageDisk (imageDisk.inode i) := by
  by_cases root : i = ROOTINO
  · have inode : imageDisk.inode i = rootDinode := if_pos root
    refine ⟨by rw [inode]; decide, fun o less => ?_⟩
    rw [inode] at less
    have block : o / BSIZE = 0 := Nat.div_eq_of_lt less
    rw [image_at, block, if_pos ⟨root, rfl⟩]
    decide
  · have inode : imageDisk.inode i = freshDinode 0 := if_neg root
    rw [inode]
    exact ⟨Nat.zero_le _, fun o less => absurd less (Nat.not_lt_zero o)⟩

/-- A state with the blocks of `fs.img` in which at most the root directory is in memory. -/
theorem image_consistent {s : State} (blocks : s.blocks = image)
    (dev : (s.itable 0).dev = ROOTDEV) (inum : (s.itable 0).inum = ROOTINO)
    (synced : (s.itable 0).valid = true → (s.itable 0).toDinode = rootDinode)
    (others : ∀ ip ≠ 0, (s.itable ip).ref = 0) : Consistent fsImg s imageDisk := by
  have only : ∀ ip, 0 < (s.itable ip).ref → ip = 0 := by
    intro ip live
    by_contra other
    rw [others ip other] at live
    exact absurd live (by decide)
  refine ⟨image_shows blocks, image_own, fun i _ => image_solid i, ⟨fun ip live => ?_,
    fun ip jp one two _ => ?_⟩⟩
  · rw [only ip live]
    refine ⟨dev, by rw [inum]; decide, fun read => ?_, fun read => ?_⟩
    · rw [synced read, inum]
      rfl
    · rw [synced read]
      decide
  · rw [only ip one, only jp two]

theorem booted_consistent : Consistent fsImg booted imageDisk := by
  refine image_consistent rfl rfl rfl (fun read => absurd read (by decide)) fun ip other => ?_
  show (if ip = 0 then _ else _ : Inode).ref = 0
  rw [if_neg other]

/-- The first process has begun an operation and read the root directory. -/
def mounted : State :=
  (booted.setLog 1 []).setInode 0 ⟨rootDinode, ROOTDEV, ROOTINO, 1, true, none⟩

theorem mounted_consistent : Consistent fsImg mounted imageDisk := by
  refine image_consistent rfl rfl rfl (fun _ => rfl) fun ip other => ?_
  show ((booted.setLog 1 []).setInode 0 _ |>.itable ip).ref = 0
  rw [State.setInode_itable, Function.update_of_ne other]
  show (if ip = 0 then _ else _ : Inode).ref = 0
  rw [if_neg other]

theorem mounted_ready : Ready mounted 0 := ⟨by decide, by decide⟩

end Xv6Lab.Fs

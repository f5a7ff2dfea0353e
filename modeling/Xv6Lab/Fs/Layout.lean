import Xv6Lab.Lib.Bytes
import Xv6Lab.Param

/-! The on-disk formats of `defs.h`: the superblock, inodes, the bitmap and directory entries, as
`fs.c` reads and writes them in blocks. -/

namespace Xv6Lab.Fs

open Bytes

abbrev Block := Buffer

def NDIRECT : Nat := 12
def NINDIRECT : Nat := BSIZE / 4
def MAXFILE : Nat := NDIRECT + NINDIRECT

/-- Inodes in a block. -/
def IPB : Nat := BSIZE / 64

/-- Bits in a bitmap block. -/
def BPB : Nat := BSIZE * 8

def DIRSIZ : Nat := 14
def ROOTDEV : Nat := 1
def ROOTINO : Nat := 1
def T_DIR : Int16 := 1
def T_FILE : Int16 := 2

/-- The fields of `struct superblock` that `fs.c` uses, and the number of data blocks. -/
structure Superblock where
  size : Nat
  nblocks : Nat
  ninodes : Nat
  inodestart : Nat
  bmapstart : Nat

namespace Superblock

variable (sb : Superblock)

/-- `IBLOCK(i, sb)` -/
def iblock (i : Nat) : Nat := i / IPB + sb.inodestart

/-- `BBLOCK(b, sb)` -/
def bblock (b : Nat) : Nat := b / BPB + sb.bmapstart

/-- The blocks before the data blocks: boot block, superblock, log, inodes and bitmap. -/
def nmeta : Nat := sb.size - sb.nblocks

/-- The layout that `mkfs` writes: the inode blocks, then the bitmap, then the data blocks. -/
structure Valid : Prop where
  inodes : ∀ i < sb.ninodes, sb.iblock i < sb.bmapstart
  bitmap : ∀ b < sb.size, sb.bblock b < sb.nmeta
  meta_le : sb.nmeta ≤ sb.size
  start : 0 < sb.inodestart
  small : sb.size < 2 ^ 31
  root : ROOTINO < sb.ninodes

end Superblock

/-! ### Inodes -/

instance addrs_neZero : NeZero 13 := ⟨by decide⟩

/-- `struct dinode`.  The last address is the one of the indirect block. -/
@[ext] structure Dinode where
  type : Int16
  major : Int16
  minor : Int16
  nlink : Int16
  size : Nat
  addrs : Fin 13 → Nat

/-- The numbers of the inode fit their fields. -/
def Dinode.Fits (d : Dinode) : Prop := d.size < 2 ^ 32 ∧ ∀ k, d.addrs k < 2 ^ 32

/-- Two bytes as a `short`. -/
def getShort (b : Block) (off : Nat) : Int16 := (UInt16.ofNat (le b off 2)).toInt16

def setShort (b : Block) (off : Nat) (v : Int16) : Block := setLe b off 2 v.toUInt16.toNat

/-- The offset of inode `i` in its block. -/
def inodeOff (i : Nat) : Nat := 64 * (i % IPB)

/-- `struct dinode` at `off`. -/
def getDinode (b : Block) (off : Nat) : Dinode where
  type := getShort b off
  major := getShort b (off + 2)
  minor := getShort b (off + 4)
  nlink := getShort b (off + 6)
  size := le b (off + 8) 4
  addrs k := le b (off + 12 + 4 * k) 4

/-- The stores of `iupdate` to the inode at `off`. -/
def setDinode (b : Block) (off : Nat) (d : Dinode) : Block :=
  let b := setShort b off d.type
  let b := setShort b (off + 2) d.major
  let b := setShort b (off + 4) d.minor
  let b := setShort b (off + 6) d.nlink
  let b := setLe b (off + 8) 4 d.size
  putWords b (off + 12) 13 fun k => if h : k < 13 then d.addrs ⟨k, h⟩ else 0

/-- `memset(dip, 0, sizeof(*dip)); dip->type = type` -/
def clearDinode (b : Block) (off : Nat) (type : Int16) : Block :=
  setShort (blit b off (fun _ => 0) 64) off type

/-- A fresh inode. -/
def freshDinode (type : Int16) : Dinode := ⟨type, 0, 0, 0, 0, fun _ => 0⟩

section Shorts

variable {b : Block} {off off' : Nat} {v : Int16}

theorem getShort_setShort : getShort (setShort b off v) off = v := by
  rw [getShort, setShort, le_setLe _ _ v.toUInt16.toNat_lt, UInt16.ofNat_toNat,
    Int16.toInt16_toUInt16]

theorem getShort_setShort_out (away : off' + 2 ≤ off ∨ off + 2 ≤ off') :
    getShort (setShort b off v) off' = getShort b off' := by
  rw [getShort, getShort, setShort, le_setLe_out away]

theorem le_setShort_out {n : Nat} (away : off' + n ≤ off ∨ off + 2 ≤ off') :
    le (setShort b off v) off' n = le b off' n :=
  le_setLe_out away

theorem getShort_setLe_out {n w : Nat} (away : off' + 2 ≤ off ∨ off + n ≤ off') :
    getShort (setLe b off n w) off' = getShort b off' := by
  rw [getShort, getShort, le_setLe_out away]

theorem getShort_putWords_out {n : Nat} {ws : Nat → Nat}
    (away : off' + 2 ≤ off ∨ off + 4 * n ≤ off') :
    getShort (putWords b off n ws) off' = getShort b off' := by
  rw [getShort, getShort, putWords, le_blit_out away]

end Shorts

section Dinodes

variable {b : Block} {off off' : Nat} {d : Dinode}

theorem getDinode_congr {b' : Block} (same : ∀ i, off ≤ i → i < off + 64 → b i = b' i) :
    getDinode b off = getDinode b' off := by
  have number : ∀ k n, k + n ≤ 64 → le b (off + k) n = le b' (off + k) n := fun k n inside =>
    le_congr fun i hi hi' => same i (by omega) (by omega)
  have short : ∀ k, k + 2 ≤ 64 → getShort b (off + k) = getShort b' (off + k) := fun k inside => by
    rw [getShort, getShort, number k 2 inside]
  ext k
  · exact short 0 (by omega)
  · exact short 2 (by omega)
  · exact short 4 (by omega)
  · exact short 6 (by omega)
  · exact number 8 4 (by omega)
  · have := number (12 + 4 * k) 4 (by omega)
    rwa [← Nat.add_assoc] at this

/-- `iupdate` stores the inode. -/
theorem getDinode_setDinode (fits : d.Fits) : getDinode (setDinode b off d) off = d := by
  obtain ⟨size, addrs⟩ := fits
  ext k
  · simp only [getDinode, setDinode]
    rw [getShort_putWords_out (by omega), getShort_setLe_out (by omega),
      getShort_setShort_out (by omega), getShort_setShort_out (by omega),
      getShort_setShort_out (by omega), getShort_setShort]
  · simp only [getDinode, setDinode]
    rw [getShort_putWords_out (by omega), getShort_setLe_out (by omega),
      getShort_setShort_out (by omega), getShort_setShort_out (by omega), getShort_setShort]
  · simp only [getDinode, setDinode]
    rw [getShort_putWords_out (by omega), getShort_setLe_out (by omega),
      getShort_setShort_out (by omega), getShort_setShort]
  · simp only [getDinode, setDinode]
    rw [getShort_putWords_out (by omega), getShort_setLe_out (by omega), getShort_setShort]
  · simp only [getDinode, setDinode]
    rw [putWords, le_blit_out (by omega), le_setLe _ _ size]
  · simp only [getDinode, setDinode]
    rw [le_putWords k.isLt] <;> simp only [k.isLt, dif_pos]
    exact addrs k

theorem setDinode_out {i : Nat} (away : i < off ∨ off + 64 ≤ i) : setDinode b off d i = b i := by
  simp only [setDinode, putWords, setShort, setLe]
  rw [blit_out (by omega), blit_out (by omega), blit_out (by omega), blit_out (by omega),
    blit_out (by omega), blit_out (by omega)]

/-- `iupdate` leaves the other inodes of the block alone. -/
theorem getDinode_setDinode_out (away : off' + 64 ≤ off ∨ off + 64 ≤ off') :
    getDinode (setDinode b off d) off' = getDinode b off' :=
  getDinode_congr fun _ _ _ => setDinode_out (by omega)

theorem getDinode_clearDinode (type : Int16) :
    getDinode (clearDinode b off type) off = freshDinode type := by
  have zero : ∀ k n, k + n ≤ 64 → le (blit b off (fun _ => 0) 64) (off + k) n = 0 := by
    intro k n inside
    have same : le (blit b off (fun _ => 0) 64) (off + k) n = le (fun _ => 0) (off + k) n :=
      le_congr fun i hi hi' => blit_in (by omega) (by omega)
    rw [same]
    clear inside same
    induction n generalizing k with
    | zero => rfl
    | succ n ih => rw [le, Nat.add_assoc, ih (k + 1)]; rfl
  have short : ∀ k, 2 ≤ k → k + 2 ≤ 64 → getShort (clearDinode b off type) (off + k) = 0 := by
    intro k after inside
    rw [clearDinode, getShort_setShort_out (by omega), getShort, zero k 2 inside]
    rfl
  have number : ∀ k, 2 ≤ k → k + 4 ≤ 64 → le (clearDinode b off type) (off + k) 4 = 0 := by
    intro k after inside
    rw [clearDinode, le_setShort_out (by omega), zero k 4 inside]
  ext k
  · exact getShort_setShort
  · exact short 2 (by omega) (by omega)
  · exact short 4 (by omega) (by omega)
  · exact short 6 (by omega) (by omega)
  · exact number 8 (by omega) (by omega)
  · have := number (12 + 4 * k) (by omega) (by omega)
    rwa [← Nat.add_assoc] at this

theorem clearDinode_out {type : Int16} {i : Nat} (away : i < off ∨ off + 64 ≤ i) :
    clearDinode b off type i = b i := by
  rw [clearDinode, setShort, setLe, blit_out (by omega), blit_out (by omega)]

/-- Inodes that share a block lie apart in it. -/
theorem inodeOff_apart {i j : Nat} (ne : i ≠ j) (block : i / IPB = j / IPB) :
    inodeOff i + 64 ≤ inodeOff j ∨ inodeOff j + 64 ≤ inodeOff i := by
  unfold inodeOff IPB BSIZE at *
  omega

end Dinodes

end Xv6Lab.Fs

import Xv6Lab.Fs.State

/-! Blocks and inodes, as `fs.c` allocates, frees, reads and writes them.  A kernel buffer that the
code passes by address is passed by its contents, and returned where it is written. -/

namespace Xv6Lab.Fs

open Bytes

/-- A `uint` as the `int` that the code takes it for. -/
def asInt (n : Nat) : Int := if n < 2 ^ 31 then n else (n : Int) - 2 ^ 32

/-- The slot of `addrs` with the indirect block. -/
def INDIRECT : Fin 13 := 12

/-- `a[bn]` for a block of addresses. -/
def word (data : Block) (bn : Nat) : Nat := le data (4 * bn) 4

section Code

variable (sb : Superblock)

/-! ### Blocks -/

def bzero (b : Nat) : F Unit := do
  bstore b fun _ => 0
  logWrite b

/-- The outer loop of `balloc`, from block `b` on. -/
def ballocFrom : Nat → Nat → F Nat
  | 0, _ => pure 0
  | fuel + 1, b =>
    if b < sb.size then do
      let data ← bread (sb.bblock b)
      match (List.range (min BPB (sb.size - b))).find? fun bi => !testBit data bi with
      | some bi =>
        bstore (sb.bblock b) (setBit data bi)
        logWrite (sb.bblock b)
        bzero (b + bi)
        pure (b + bi)
      | none => ballocFrom fuel (b + BPB)
    else pure 0

def balloc : F Nat := ballocFrom sb (sb.size / BPB + 1) 0

def bfree (b : Nat) : F Unit := do
  let data ← bread (sb.bblock b)
  if testBit data (b % BPB) then
    bstore (sb.bblock b) (clearBit data (b % BPB))
    logWrite (sb.bblock b)
  else
    panic "freeing free block"

/-! ### The inode table -/

def iget (dev inum : Nat) : F InodePtr := do
  let s ← get
  match (List.finRange NINODE).find? fun ip =>
      0 < (s.itable ip).ref ∧ (s.itable ip).dev = dev ∧ (s.itable ip).inum = inum with
  | some ip =>
    updInode ip fun inode => { inode with ref := inode.ref + 1 }
    pure ip
  | none =>
    match (List.finRange NINODE).find? fun ip => (s.itable ip).ref = 0 with
    | some ip =>
      updInode ip fun inode => { inode with dev, inum, ref := 1, valid := false }
      pure ip
    | none => panic "iget: no inodes"

def idup (ip : InodePtr) : F InodePtr := do
  updInode ip fun inode => { inode with ref := inode.ref + 1 }
  pure ip

/-- The loop of `ialloc` over `count` inodes from `inum` on. -/
def iallocFrom (dev : Nat) (type : Int16) : Nat → Nat → F (Option InodePtr)
  | 0, _ => pure none
  | count + 1, inum => do
    let data ← bread (sb.iblock inum)
    if getShort data (inodeOff inum) = 0 then
      beginOp
      bstore (sb.iblock inum) (clearDinode data (inodeOff inum) type)
      logWrite (sb.iblock inum)
      endOp
      let ip ← iget dev inum
      pure (some ip)
    else
      iallocFrom dev type count (inum + 1)

def ialloc (dev : Nat) (type : Int16) : F (Option InodePtr) :=
  iallocFrom sb dev type (sb.ninodes - 1) 1

def iupdate (ip : InodePtr) : F Unit := do
  let s ← get
  let inode := s.itable ip
  let data ← bread (sb.iblock inode.inum)
  bstore (sb.iblock inode.inum) (setDinode data (inodeOff inode.inum) inode.toDinode)
  logWrite (sb.iblock inode.inum)

/-- `ilock` reads the inode from the disk. -/
def ilockRead (ip : InodePtr) : F Unit := do
  let s ← get
  let inum := (s.itable ip).inum
  let data ← bread (sb.iblock inum)
  let dinode := getDinode data (inodeOff inum)
  updInode ip fun inode => { inode with toDinode := dinode, valid := true }
  if dinode.type = 0 then panic "ilock: no type" else pure ()

def ilock (ip : InodePtr) : F Unit := do
  let s ← get
  if (s.itable ip).ref < 1 then
    panic "ilock"
  else
    acquiresleep ip
    if (s.itable ip).valid then pure () else ilockRead sb ip

def iunlock (ip : InodePtr) : F Unit := do
  let s ← get
  if ¬ s.holdingsleep ip ∨ (s.itable ip).ref < 1 then
    panic "iunlock"
  else
    releasesleep ip

/-! ### Contents -/

/-- Slot `k` of `ip->addrs`, to which `bmap` gives a block if it has none. -/
def bmapSlot (ip : InodePtr) (k : Fin 13) : F Nat := do
  let s ← get
  let addr := (s.itable ip).addrs k
  if addr = 0 then
    let addr ← balloc sb
    if addr = 0 then
      pure 0
    else
      updInode ip fun inode => { inode with addrs := Function.update inode.addrs k addr }
      pure addr
  else
    pure addr

/-- Entry `bn` of the indirect block `addr`. -/
def bmapWord (addr bn : Nat) : F Nat := do
  let data ← bread addr
  if word data bn = 0 then
    let new ← balloc sb
    if new = 0 then
      pure 0
    else
      bstore addr (setLe data (4 * bn) 4 new)
      logWrite addr
      pure new
  else
    pure (word data bn)

def bmap (ip : InodePtr) (bn : Nat) : F Nat :=
  if direct : bn < NDIRECT then
    bmapSlot sb ip ⟨bn, Nat.lt_succ_of_lt direct⟩
  else if bn - NDIRECT < NINDIRECT then do
    let addr ← bmapSlot sb ip INDIRECT
    if addr = 0 then pure 0 else bmapWord sb addr (bn - NDIRECT)
  else
    panic "bmap: out of range"

/-- `itrunc`: a direct slot. -/
def freeSlot (ip : InodePtr) (k : Fin 13) : F Unit := do
  let s ← get
  if (s.itable ip).addrs k ≠ 0 then
    bfree sb ((s.itable ip).addrs k)
    updInode ip fun inode => { inode with addrs := Function.update inode.addrs k 0 }
  else
    pure ()

/-- `itrunc`: the blocks that the indirect block lists, and that block. -/
def freeIndirect (ip : InodePtr) : F Unit := do
  let s ← get
  let addr := (s.itable ip).addrs INDIRECT
  if addr ≠ 0 then
    let data ← bread addr
    (List.range NINDIRECT).forM fun j =>
      if word data j ≠ 0 then bfree sb (word data j) else pure ()
    bfree sb addr
    updInode ip fun inode => { inode with addrs := Function.update inode.addrs INDIRECT 0 }
  else
    pure ()

def itrunc (ip : InodePtr) : F Unit := do
  (List.finRange NDIRECT).forM fun k => freeSlot sb ip (Fin.castSucc k)
  freeIndirect sb ip
  updInode ip fun inode => { inode with size := 0 }
  iupdate sb ip

/-- `iput` of the last reference to an inode without links. -/
def ifree (ip : InodePtr) : F Unit := do
  acquiresleep ip
  itrunc sb ip
  updInode ip fun inode => { inode with type := 0 }
  iupdate sb ip
  updInode ip fun inode => { inode with valid := false }
  releasesleep ip

def iput (ip : InodePtr) : F Unit := do
  let s ← get
  let inode := s.itable ip
  if inode.ref = 1 ∧ inode.valid = true ∧ inode.nlink = 0 then ifree sb ip else pure ()
  updInode ip fun inode => { inode with ref := inode.ref - 1 }

def iunlockput (ip : InodePtr) : F Unit := do
  iunlock ip
  iput sb ip

/-- The loop of `readi`, with `tot` bytes copied to `dst` so far. -/
def readiLoop (ip : InodePtr) (n : Nat) : Nat → Nat → Nat → Buffer → F (Nat × Buffer)
  | 0, tot, _, dst => pure (tot, dst)
  | fuel + 1, tot, off, dst =>
    if tot < n then do
      let addr ← bmap sb ip (off / BSIZE)
      if addr = 0 then
        pure (tot, dst)
      else
        let data ← bread addr
        let m := min (n - tot) (BSIZE - off % BSIZE)
        readiLoop ip n fuel (tot + m) (off + m)
          (blit dst tot (fun i => data (off % BSIZE + i)) m)
    else
      pure (tot, dst)

/-- `readi` into the kernel buffer `dst`. -/
def readi (ip : InodePtr) (dst : Buffer) (off n : Nat) : F (Int × Buffer) := do
  let s ← get
  let size := (s.itable ip).size
  if size < off ∨ (off + n) % 2 ^ 32 < off then
    pure (0, dst)
  else
    let n := if size < (off + n) % 2 ^ 32 then size - off else n
    let (tot, dst) ← readiLoop sb ip n n 0 off dst
    pure (asInt tot, dst)

/-- The loop of `writei`, with `tot` bytes of `src` written so far.  It returns `tot` and `off`. -/
def writeiLoop (ip : InodePtr) (src : Buffer) (n : Nat) : Nat → Nat → Nat → F (Nat × Nat)
  | 0, tot, off => pure (tot, off)
  | fuel + 1, tot, off =>
    if tot < n then do
      let addr ← bmap sb ip (off / BSIZE)
      if addr = 0 then
        pure (tot, off)
      else
        let data ← bread addr
        let m := min (n - tot) (BSIZE - off % BSIZE)
        bstore addr (blit data (off % BSIZE) (fun i => src (tot + i)) m)
        logWrite addr
        writeiLoop ip src n fuel (tot + m) (off + m)
    else
      pure (tot, off)

/-- `writei` from the kernel buffer `src`. -/
def writei (ip : InodePtr) (src : Buffer) (off n : Nat) : F Int := do
  let s ← get
  if (s.itable ip).size < off ∨ (off + n) % 2 ^ 32 < off then
    pure (-1)
  else if MAXFILE * BSIZE < (off + n) % 2 ^ 32 then
    pure (-1)
  else
    let (tot, off) ← writeiLoop sb ip src n n 0 off
    updInode ip fun inode => { inode with size := max inode.size off }
    iupdate sb ip
    pure (asInt tot)

end Code

end Xv6Lab.Fs

import Mathlib.Data.Nat.Init

/-! The constants of `defs.h` that several parts of the model use. -/

namespace Xv6Lab

/-- Bytes of a disk block. -/
def BSIZE : Nat := 1024

/-- Blocks that `begin_op` reserves for one operation. -/
def MAXOPBLOCKS : Nat := 10

/-- Data blocks of the on-disk log. -/
def LOGBLOCKS : Nat := MAXOPBLOCKS * 3

/-- Buffers of the block cache. -/
def NBUF : Nat := MAXOPBLOCKS * 3

/-- The device number of the disk. -/
def ROOTDEV : Nat := 1

end Xv6Lab

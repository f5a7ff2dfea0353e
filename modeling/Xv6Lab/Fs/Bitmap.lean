import Mathlib.Data.BitVec
import Mathlib.Data.List.Find
import Xv6Lab.Fs.Disk

/-! `balloc` and `bfree` of `fs.c` with the `int`s and `uint`s of the code: the loops over blocks and
bits, the byte and the mask of a bit, and the two ways in which the code finds them.  `balloc` takes
the first free block, and `bfree` undoes what it does to the bitmap. -/

namespace Xv6Lab.Fs.Bitmap

open Bytes Exec

/-- `BPB` -/
def bpb : BitVec 32 := .ofNat 32 BPB

/-- `1 << (bi % 8)` -/
def maskOf (bi : BitVec 32) : BitVec 32 := (1 : BitVec 32) <<< bi.srem 8

/-- `bp->data[bi / 8]`, as the `int` that the code takes it for. -/
def byteAt (data : Block) (bi : BitVec 32) : BitVec 32 :=
  (data (bi.sdiv 8).toNat).toBitVec.setWidth 32

/-- `bp->data[bi / 8] = x` -/
def putByte (data : Block) (bi x : BitVec 32) : Block :=
  Function.update data (bi.sdiv 8).toNat ⟨x.setWidth 8⟩

section Code

variable (sb : Superblock)

/-- `sb.size` -/
def size : BitVec 32 := .ofNat 32 sb.size

/-- `sb.bmapstart` -/
def bmapstart : BitVec 32 := .ofNat 32 sb.bmapstart

/-- The inner loop of `balloc`, from bit `bi` of the buffer of block `blockno` on.  Its value is what
the function returns there, if it does. -/
def ballocBits (b blockno : BitVec 32) (data : Block) :
    Nat → BitVec 32 → F (Option (BitVec 32))
  | 0, _ => throw .blocked
  | fuel + 1, bi =>
    if bi.slt bpb ∧ (b + bi).ult (size sb) then
      if byteAt data bi &&& maskOf bi = 0 then do
        bstore blockno.toNat (putByte data bi (byteAt data bi ||| maskOf bi))
        logWrite blockno.toNat
        bzero (b + bi).toNat
        pure (some (b + bi))
      else
        ballocBits b blockno data fuel (bi + 1)
    else pure none

/-- The outer loop of `balloc`, from block `b` on. -/
def ballocBlocks : Nat → BitVec 32 → F (BitVec 32)
  | 0, _ => throw .blocked
  | fuel + 1, b =>
    if b.ult (size sb) then do
      let blockno := b.sdiv bpb + bmapstart sb
      let data ← bread blockno.toNat
      let found ← ballocBits sb b blockno data (BPB + 1) 0
      match found with
      | some c => pure c
      | none => ballocBlocks fuel (b + bpb)
    else
      -- the message "balloc: out of blocks" is all that the code adds
      pure 0

/-- `balloc`.  A loop that goes on for longer than the bitmap is long never ends. -/
def balloc : F (BitVec 32) := ballocBlocks sb (sb.size / BPB + 2) 0

def bfree (b : BitVec 32) : F Unit := do
  let blockno := b.udiv bpb + bmapstart sb
  let data ← bread blockno.toNat
  let bi := b.umod bpb
  if byteAt data bi &&& maskOf bi = 0 then
    panic "freeing free block"
  else
    bstore blockno.toNat (putByte data bi (byteAt data bi &&& ~~~ maskOf bi))
    logWrite blockno.toNat

end Code

/-! ### Bits of a block -/

section Bits

variable {n m k : Nat} {data : Block}

theorem toNat_int (small : n < 2 ^ 31) : (BitVec.ofNat 32 n).toNat = n := by
  rw [BitVec.toNat_ofNat, Nat.mod_eq_of_lt (by omega)]

theorem msb_int (small : n < 2 ^ 31) : (BitVec.ofNat 32 n).msb = false := by
  rw [BitVec.msb_eq_false_iff_two_mul_lt, toNat_int small]
  omega

theorem sdiv_int (small : n < 2 ^ 31) (divisor : m < 2 ^ 31) :
    (BitVec.ofNat 32 n).sdiv (.ofNat 32 m) = .ofNat 32 (n / m) := by
  have less : n / m ≤ n := Nat.div_le_self n m
  rw [BitVec.sdiv_eq, msb_int small, msb_int divisor]
  apply BitVec.eq_of_toNat_eq
  show (BitVec.udiv _ _).toNat = _
  rw [BitVec.udiv_eq, BitVec.toNat_udiv, toNat_int small, toNat_int divisor, toNat_int (by omega)]

theorem srem_int (small : n < 2 ^ 31) (divisor : m < 2 ^ 31) :
    (BitVec.ofNat 32 n).srem (.ofNat 32 m) = .ofNat 32 (n % m) := by
  have less : n % m ≤ n := Nat.mod_le n m
  rw [BitVec.srem_eq, msb_int small, msb_int divisor]
  apply BitVec.eq_of_toNat_eq
  show (BitVec.umod _ _).toNat = _
  rw [BitVec.umod_eq, BitVec.toNat_umod, toNat_int small, toNat_int divisor, toNat_int (by omega)]

theorem ult_int (small : n < 2 ^ 31) (bound : m < 2 ^ 31) :
    (BitVec.ofNat 32 n).ult (.ofNat 32 m) = decide (n < m) := by
  rw [BitVec.ult, toNat_int small, toNat_int bound]

theorem slt_int (small : n < 2 ^ 31) (bound : m < 2 ^ 31) :
    (BitVec.ofNat 32 n).slt (.ofNat 32 m) = decide (n < m) := by
  rw [BitVec.slt_eq_ult, msb_int small, msb_int bound, ult_int small bound, bne_self_eq_false,
    Bool.false_xor]

theorem maskOf_int (small : n < 2 ^ 31) : maskOf (.ofNat 32 n) = BitVec.twoPow 32 (n % 8) := by
  have bit : n % 8 < 8 := Nat.mod_lt n (by decide)
  rw [maskOf, show (8 : BitVec 32) = .ofNat 32 8 from rfl, srem_int small (by decide)]
  rw [BitVec.shiftLeft_eq', toNat_int (by omega), BitVec.twoPow_eq]
  rfl

theorem byteAt_int (small : n < 2 ^ 31) :
    byteAt data (.ofNat 32 n) = (data (n / 8)).toBitVec.setWidth 32 := by
  have less : n / 8 ≤ n := Nat.div_le_self n 8
  rw [byteAt, show (8 : BitVec 32) = .ofNat 32 8 from rfl, sdiv_int small (by decide),
    toNat_int (by omega)]

theorem putByte_int (small : n < 2 ^ 31) (x : BitVec 32) :
    putByte data (.ofNat 32 n) x = Function.update data (n / 8) ⟨x.setWidth 8⟩ := by
  have less : n / 8 ≤ n := Nat.div_le_self n 8
  rw [putByte, show (8 : BitVec 32) = .ofNat 32 8 from rfl, sdiv_int small (by decide),
    toNat_int (by omega)]

/-- The test of the code is one of the bit. -/
theorem byteAt_and (small : n < 2 ^ 31) :
    byteAt data (.ofNat 32 n) &&& maskOf (.ofNat 32 n) = 0 ↔ testBit data n = false := by
  have bit : n % 8 < 8 := Nat.mod_lt n (by decide)
  have some : BitVec.twoPow 32 (n % 8) ≠ 0#32 := by
    have all : ∀ k : Fin 8, BitVec.twoPow 32 k ≠ 0#32 := by decide
    exact all ⟨_, bit⟩
  rw [byteAt_int small, maskOf_int small, BitVec.and_twoPow, BitVec.getLsbD_setWidth]
  rw [Bool.eq_false_iff, testBit, ne_eq, decide_eq_true_eq, and_mask bit]
  cases (data (n / 8)).toBitVec.getLsbD (n % 8)
  · simp
  · simp [some, show n % 8 < 32 by omega]

theorem twoPow_narrow (bit : k < 8) : (BitVec.twoPow 32 k).setWidth 8 = (mask k).toBitVec := by
  have all : ∀ k : Fin 8, (BitVec.twoPow 32 k).setWidth 8 = (mask k).toBitVec := by decide
  exact all ⟨k, bit⟩

theorem putByte_or (small : n < 2 ^ 31) :
    putByte data (.ofNat 32 n) (byteAt data (.ofNat 32 n) ||| maskOf (.ofNat 32 n)) =
      setBit data n := by
  have bit : n % 8 < 8 := Nat.mod_lt n (by decide)
  rw [putByte_int small, byteAt_int small, maskOf_int small, setBit, BitVec.setWidth_or,
    twoPow_narrow bit, BitVec.setWidth_setWidth_of_le _ (by decide), BitVec.setWidth_eq]
  rfl

theorem putByte_andNot (small : n < 2 ^ 31) :
    putByte data (.ofNat 32 n) (byteAt data (.ofNat 32 n) &&& ~~~ maskOf (.ofNat 32 n)) =
      clearBit data n := by
  have bit : n % 8 < 8 := Nat.mod_lt n (by decide)
  rw [putByte_int small, byteAt_int small, maskOf_int small, clearBit, BitVec.setWidth_and,
    BitVec.setWidth_not (by decide), twoPow_narrow bit,
    BitVec.setWidth_setWidth_of_le _ (by decide), BitVec.setWidth_eq]
  rfl

end Bits

/-! ### The loops -/

/-- The bitmap block with the bit of block `c`: `BBLOCK(c, sb)` as a `uint`. -/
def bblock (sb : Superblock) (c : Nat) : Nat := sb.bblock c % 2 ^ 32

/-- The bit of block `c`. -/
def used (sb : Superblock) (s : State) (c : Nat) : Bool :=
  testBit (s.blocks (bblock sb c)) (c % BPB)

/-- The first block from `n` on whose bit is clear. -/
def firstFree (sb : Superblock) (s : State) (n : Nat) : Option Nat :=
  (List.range' n (sb.size - n)).find? fun c => !used sb s c

/-- Block `c` is marked, and zeroed. -/
def take (sb : Superblock) (c : Nat) : F (BitVec 32) := do
  let data ← bread (bblock sb c)
  bstore (bblock sb c) (setBit data (c % BPB))
  logWrite (bblock sb c)
  bzero c
  pure (.ofNat 32 c)

section Loops

variable {sb : Superblock} {n k : Nat} {data : Block} {s : State}

theorem blockno_toNat (n : Nat) :
    (BitVec.ofNat 32 (n / BPB) + bmapstart sb).toNat = bblock sb n := by
  rw [bmapstart, ← BitVec.ofNat_add, BitVec.toNat_ofNat]
  rfl

theorem bblock_add (aligned : n % BPB = 0) {bi : Nat} (low : bi < BPB) :
    bblock sb (n + bi) = bblock sb n := by
  rw [bblock, bblock_aligned aligned low, bblock]

/-- The blocks from `n` on are those of one bitmap block, and the ones behind it. -/
theorem firstFree_step (aligned : n % BPB = 0) :
    firstFree sb s n = (((List.range' 0 (min BPB (sb.size - n))).find? fun bi =>
      !testBit (s.blocks (bblock sb n)) bi).map (n + ·)).or (firstFree sb s (n + BPB)) := by
  have split : List.range' n (sb.size - n) = (List.range' 0 (min BPB (sb.size - n))).map (n + ·) ++
      List.range' (n + BPB) (sb.size - (n + BPB)) := by
    rw [← List.range_eq_range', ← List.range'_eq_map_range]
    by_cases past : sb.size - n ≤ BPB
    · rw [Nat.min_eq_right past, show sb.size - (n + BPB) = 0 by omega, List.range'_zero,
        List.append_nil]
    · have more : sb.size - n = BPB + (sb.size - (n + BPB)) := by omega
      rw [Nat.min_eq_left (by omega), List.range'_append_1, ← more]
  rw [firstFree, split, List.find?_append, List.find?_map]
  congr 2
  refine List.find?_congr fun bi inside => ?_
  have low : bi < BPB := by
    have := (List.mem_range'_1.mp inside).2
    omega
  rw [Function.comp, used, bblock_add aligned low, mod_aligned aligned low]

variable (small : sb.size < 2 ^ 30)
include small

/-- The inner loop finds the first clear bit of its block that is one of a block below the size. -/
theorem ballocBits_eq {blockno : BitVec 32} (low : n < sb.size) (fuel : Nat) (within : k ≤ BPB)
    (enough : BPB < k + fuel) :
    ballocBits sb (.ofNat 32 n) blockno data fuel (.ofNat 32 k) =
      match (List.range' k (min BPB (sb.size - n) - k)).find? fun bi => !testBit data bi with
      | some bi => do
        bstore blockno.toNat (setBit data bi)
        logWrite blockno.toNat
        bzero (n + bi)
        pure (some (.ofNat 32 (n + bi)))
      | none => pure none := by
  have bits : BPB = 8192 := rfl
  induction fuel generalizing k with
  | zero => omega
  | succ fuel ih =>
    rw [ballocBits, bpb, size, ← BitVec.ofNat_add, slt_int (by omega) (by decide),
      ult_int (by omega) (by omega)]
    by_cases more : k < BPB ∧ n + k < sb.size
    · obtain ⟨rest, is⟩ : ∃ rest, min BPB (sb.size - n) - k = rest + 1 :=
        ⟨min BPB (sb.size - n) - k - 1, by omega⟩
      have last : min BPB (sb.size - n) - (k + 1) = rest := by omega
      rw [if_pos (by simpa using more), is, List.range'_succ, List.find?_cons]
      by_cases clear : testBit data k = false
      · rw [if_pos ((byteAt_and (by omega)).mpr clear), putByte_or (by omega),
          toNat_int (by omega), clear]
        rfl
      · rw [if_neg (fun zero => clear ((byteAt_and (by omega)).mp zero))]
        rw [show (1 : BitVec 32) = .ofNat 32 1 from rfl, ← BitVec.ofNat_add,
          ih (by omega) (by omega), last]
        rw [Bool.not_eq_false] at clear
        rw [clear]
        rfl
    · have none : min BPB (sb.size - n) - k = 0 := by omega
      rw [if_neg (by simpa using more), none]
      rfl

/-- A turn of the outer loop. -/
theorem ballocBlocks_turn (low : n < sb.size) (fuel : Nat) :
    ballocBlocks sb (fuel + 1) (.ofNat 32 n) = (do
      let data ← bread (bblock sb n)
      match (List.range' 0 (min BPB (sb.size - n))).find? fun bi => !testBit data bi with
      | some bi =>
        bstore (bblock sb n) (setBit data bi)
        logWrite (bblock sb n)
        bzero (n + bi)
        pure (.ofNat 32 (n + bi))
      | none => ballocBlocks sb fuel (.ofNat 32 (n + BPB))) := by
  have bits : BPB = 8192 := rfl
  rw [ballocBlocks, size, ult_int (by omega) (by omega), if_pos (by simpa using low), bpb,
    sdiv_int (by omega) (by decide), ← BitVec.ofNat_add]
  generalize ballocBlocks sb fuel (.ofNat 32 (n + BPB)) = rest
  dsimp only
  rw [blockno_toNat]
  congr 1
  funext data
  have loop := @ballocBits_eq sb n 0 data small (.ofNat 32 (n / BPB) + bmapstart sb) low (BPB + 1)
    (Nat.zero_le _) (by omega)
  rw [blockno_toNat, Nat.sub_zero] at loop
  rw [show (0 : BitVec 32) = .ofNat 32 0 from rfl, loop]
  cases (List.range' 0 (min BPB (sb.size - n))).find? fun bi => !testBit data bi with
  | some bi => simp only [bind_assoc, pure_bind]
  | none => rw [pure_bind]

theorem ballocBlocks_past (past : sb.size ≤ n) (int : n < 2 ^ 31) (fuel : Nat) :
    ballocBlocks sb (fuel + 1) (.ofNat 32 n) = pure 0 := by
  rw [ballocBlocks, size, ult_int int (by omega), decide_eq_false (by omega)]
  rfl

theorem ballocBlocks_eq (aligned : n % BPB = 0) (early : n < sb.size + BPB) (fuel : Nat)
    (enough : sb.size ≤ n + fuel * BPB) :
    ballocBlocks sb (fuel + 1) (.ofNat 32 n) s =
      match firstFree sb s n with
      | some c => take sb c s
      | none => .ok 0 s := by
  have bits : BPB = 8192 := rfl
  have full : ∀ n fuel, sb.size ≤ n → n < 2 ^ 31 → ballocBlocks sb (fuel + 1) (.ofNat 32 n) s =
      match firstFree sb s n with
      | some c => take sb c s
      | none => .ok 0 s := by
    intro n fuel past int
    rw [ballocBlocks_past small past int, firstFree, Nat.sub_eq_zero_of_le past]
    rfl
  induction fuel generalizing n with
  | zero => exact full n 0 (by omega) (by omega)
  | succ fuel ih =>
    by_cases more : n < sb.size
    · have first : bread (bblock sb n) s = .ok (s.blocks (bblock sb n)) s := rfl
      rw [ballocBlocks_turn small more, firstFree_step aligned, bind_ok first]
      cases found : (List.range' 0 (min BPB (sb.size - n))).find? fun bi =>
          !testBit (s.blocks (bblock sb n)) bi with
      | some bi =>
        have low : bi < BPB := by
          have := (List.mem_range'_1.mp (List.mem_of_find?_eq_some found)).2
          omega
        simp only [Option.map_some, Option.some_or]
        rw [take, bblock_add aligned low, mod_aligned aligned low]
        rfl
      | none =>
        have next : (n + BPB) % BPB = 0 := by rw [Nat.add_mod_right, aligned]
        have rest := ih next (by omega) (by rw [Nat.succ_mul] at enough; omega)
        rw [Option.map_none, Option.none_or]
        generalize ballocBlocks sb (fuel + 1) (.ofNat 32 (n + BPB)) = go at rest ⊢
        exact rest
    · exact full n (fuel + 1) (by omega) (by omega)

omit small in
/-- The fuel that `balloc` has is enough. -/
theorem fuel_enough : sb.size ≤ 0 + (sb.size / BPB + 1) * BPB := by
  have split := Nat.div_add_mod sb.size BPB
  have rest := Nat.mod_lt sb.size (show 0 < BPB by decide)
  rw [Nat.add_mul, Nat.mul_comm]
  omega

theorem balloc_eq : balloc sb s =
    match firstFree sb s 0 with
    | some c => take sb c s
    | none => .ok 0 s :=
  ballocBlocks_eq small (Nat.zero_mod _) (Nat.lt_add_left _ (by decide)) _ fuel_enough

theorem ballocBlocks_agrees (unwrapped : sb.bmapstart + sb.size / BPB < 2 ^ 32)
    (early : n < sb.size + BPB) (fuel : Nat) (enough : sb.size ≤ n + fuel * BPB) :
    ballocBlocks sb (fuel + 1) (.ofNat 32 n) = BitVec.ofNat 32 <$> ballocFrom sb fuel n := by
  have bits : BPB = 8192 := rfl
  induction fuel generalizing n with
  | zero => rw [ballocBlocks_past small (by omega) (by omega), ballocFrom, map_pure]; rfl
  | succ fuel ih =>
    rw [ballocFrom]
    by_cases more : n < sb.size
    · have block : bblock sb n = sb.bblock n := by
        have less : n / BPB ≤ sb.size / BPB := Nat.div_le_div_right (Nat.le_of_lt more)
        rw [bblock, Superblock.bblock, Nat.mod_eq_of_lt (by omega)]
      rw [ballocBlocks_turn small more, if_pos more, block, map_bind]
      congr 1
      funext data
      rw [List.range_eq_range']
      cases (List.range' 0 (min BPB (sb.size - n))).find? fun bi => !testBit data bi with
      | some bi => simp only [map_bind, map_pure]
      | none => exact ih (by omega) (by rw [Nat.succ_mul] at enough; omega)
    · rw [ballocBlocks_past small (by omega) (by omega), if_neg more, map_pure]
      rfl

/-- Where the block numbers do not wrap around, this is `Fs.balloc`. -/
theorem balloc_agrees (unwrapped : sb.bmapstart + sb.size / BPB < 2 ^ 32) :
    balloc sb = BitVec.ofNat 32 <$> Fs.balloc sb :=
  ballocBlocks_agrees small unwrapped (Nat.lt_add_left _ (by decide)) _ fuel_enough

end Loops

/-! ### `bfree` -/

section Free

variable {sb : Superblock} {n : Nat} {s : State}

/-- The block and the bit are those that `balloc` uses. -/
theorem bfree_eq (uint : n < 2 ^ 32) : bfree sb (.ofNat 32 n) s =
    (if testBit (s.blocks (bblock sb n)) (n % BPB) then do
      bstore (bblock sb n) (clearBit (s.blocks (bblock sb n)) (n % BPB))
      logWrite (bblock sb n)
    else panic "freeing free block" : F Unit) s := by
  have bits : BPB = 8192 := rfl
  have low : n % BPB < 2 ^ 31 := (Nat.mod_lt n (by decide)).trans (by decide)
  have first : bread (bblock sb n) s = .ok (s.blocks (bblock sb n)) s := rfl
  have bi : (BitVec.ofNat 32 n).umod bpb = .ofNat 32 (n % BPB) := by
    apply BitVec.eq_of_toNat_eq
    rw [BitVec.umod_eq, BitVec.toNat_umod, BitVec.toNat_ofNat, Nat.mod_eq_of_lt uint, bpb,
      toNat_int (by decide), toNat_int low]
  have blockno : (BitVec.ofNat 32 n).udiv bpb = .ofNat 32 (n / BPB) := by
    have less : n / BPB < 2 ^ 31 := by
      rw [bits]
      omega
    apply BitVec.eq_of_toNat_eq
    rw [BitVec.udiv_eq, BitVec.toNat_udiv, BitVec.toNat_ofNat, Nat.mod_eq_of_lt uint, bpb,
      toNat_int (by decide), toNat_int less]
  rw [bfree, bi, blockno, blockno_toNat, bind_ok first]
  by_cases set : testBit (s.blocks (bblock sb n)) (n % BPB) = true
  · have some : byteAt (s.blocks (bblock sb n)) (.ofNat 32 (n % BPB)) &&&
        maskOf (.ofNat 32 (n % BPB)) ≠ 0 := by
      intro zero
      rw [(byteAt_and low).mp zero] at set
      cases set
    rw [if_neg some, if_pos set, putByte_andNot low]
  · have zero := (byteAt_and low).mpr (Bool.eq_false_of_not_eq_true set)
    rw [if_pos zero, if_neg set]

/-- Where the block numbers do not wrap around, this is `Fs.bfree`. -/
theorem bfree_agrees (uint : n < 2 ^ 32) (unwrapped : sb.bmapstart + n / BPB < 2 ^ 32) :
    bfree sb (.ofNat 32 n) = Fs.bfree sb n := by
  have block : bblock sb n = sb.bblock n := by
    rw [bblock, Superblock.bblock, Nat.add_comm, Nat.mod_eq_of_lt unwrapped]
  funext s
  rw [bfree_eq uint, block]
  rfl

end Free

/-! ### What the two do -/

/-- The bits of block 0 and of the bitmap blocks are set. -/
def Reserved (sb : Superblock) (s : State) : Prop :=
  ∀ c < sb.size, (c = 0 ∨ ∃ d < sb.size, c = bblock sb d) → used sb s c = true

/-- Every block is in use. -/
def Full (sb : Superblock) (s : State) : Prop := ∀ c < sb.size, used sb s c = true

/-- The bitmap blocks are the same. -/
def SameBitmap (sb : Superblock) (s t : State) : Prop :=
  ∀ d < sb.size, t.blocks (bblock sb d) = s.blocks (bblock sb d)

/-- From `s` to `t`, block `c` is taken: the first whose bit is clear. -/
structure Takes (sb : Superblock) (s : State) (c : Nat) (t : State) : Prop where
  low : c < sb.size
  clear : used sb s c = false
  least : ∀ d < c, used sb s d = true
  bits : ∀ d < sb.size, used sb t d = (used sb s d || decide (d = c))
  marked : ∀ j, testBit (t.blocks (bblock sb c)) j =
    (testBit (s.blocks (bblock sb c)) j || decide (c % BPB = j))
  zeroed : t.blocks c = fun _ => 0
  others : ∀ b, b ≠ c → b ≠ bblock sb c → t.blocks b = s.blocks b

/-- `bfree` of block `c` turns the bitmap of `t` into that of `s`, whatever the other blocks hold by
then, and leaves these alone. -/
def Restores (sb : Superblock) (s : State) (c : BitVec 32) (t : State) : Prop :=
  ∀ u, SameBitmap sb t u → Does 1 (bfree sb c)
    (fun _ v => SameBitmap sb s v ∧ ∀ b, b ≠ bblock sb c.toNat → v.blocks b = u.blocks b) u

section Exact

variable {sb : Superblock} {s t : State} {c : Nat}

theorem firstFree_some (found : firstFree sb s 0 = some c) :
    c < sb.size ∧ used sb s c = false ∧ ∀ d < c, used sb s d = true := by
  obtain ⟨clear, inside, least⟩ := List.find?_range'_eq_some.mp found
  refine ⟨by have := (List.mem_range'_1.mp inside).2; omega, by simpa using clear, fun d less => ?_⟩
  simpa using least d (Nat.zero_le d) less

theorem firstFree_none : firstFree sb s 0 = none ↔ Full sb s := by
  rw [firstFree, List.find?_range'_eq_none]
  constructor
  · intro all c low
    simpa using all c (Nat.zero_le c) (by omega)
  · intro full c _ low
    simpa using full c (by omega)

theorem take_does (sb : Superblock) (s : State) (c : Nat) :
    Does 2 (take sb c) (fun d t => d = .ofNat 32 c ∧ SameTables s t ∧
      t.blocks = Function.update (Function.update s.blocks (bblock sb c)
        (setBit (s.blocks (bblock sb c)) (c % BPB))) c fun _ => 0) s := by
  refine does_get ?_
  refine (bstore_logWrite_does _ _).bind (f := fun _ => do bzero c; pure (BitVec.ofNat 32 c))
    fun _ t ⟨same, _, blocks⟩ => ?_
  refine (bstore_logWrite_does c _).bind fun _ u ⟨kept, _, zeroed⟩ => ?_
  exact does_pure ⟨rfl, same.trans kept, by rw [zeroed, blocks]⟩

/-- Two blocks have the same bit only if they are the same. -/
theorem bit_inj {d : Nat} (small : sb.size < 2 ^ 30) (cLow : c < sb.size) (dLow : d < sb.size)
    (block : bblock sb d = bblock sb c) (bit : d % BPB = c % BPB) : d = c := by
  have bits : BPB = 8192 := rfl
  unfold bblock Superblock.bblock at block
  rw [bits] at block bit
  omega

/-- A block whose bit is clear is none of the bitmap. -/
theorem Reserved.apart (reserved : Reserved sb s) (low : c < sb.size) (clear : used sb s c = false)
    (d : Nat) (dLow : d < sb.size) : bblock sb d ≠ c := by
  intro same
  rw [reserved c low (.inr ⟨d, dLow, same.symm⟩)] at clear
  cases clear

theorem takes_of_blocks (small : sb.size < 2 ^ 30) (reserved : Reserved sb s) (low : c < sb.size)
    (clear : used sb s c = false) (least : ∀ d < c, used sb s d = true)
    (blocks : t.blocks = Function.update (Function.update s.blocks (bblock sb c)
      (setBit (s.blocks (bblock sb c)) (c % BPB))) c fun _ => 0) : Takes sb s c t := by
  have apart := reserved.apart low clear
  refine ⟨low, clear, least, fun d dLow => ?_, fun j => ?_, ?_, fun b notC notBlock => ?_⟩
  · rw [used, used, blocks, Function.update_of_ne (apart d dLow)]
    by_cases block : bblock sb d = bblock sb c
    · rw [block, Function.update_self, testBit_setBit]
      congr 1
      rw [decide_eq_decide]
      constructor
      · intro bit
        exact bit_inj small low dLow block bit.symm
      · intro is
        rw [is]
    · have other : d ≠ c := fun is => block (by rw [is])
      rw [Function.update_of_ne block, decide_eq_false other, Bool.or_false]
  · rw [blocks, Function.update_of_ne (apart c low), Function.update_self, testBit_setBit]
  · rw [blocks, Function.update_self]
  · rw [blocks, Function.update_of_ne notC, Function.update_of_ne notBlock]

theorem restores_of_blocks (small : sb.size < 2 ^ 30) (reserved : Reserved sb s) (low : c < sb.size)
    (clear : used sb s c = false)
    (blocks : t.blocks = Function.update (Function.update s.blocks (bblock sb c)
      (setBit (s.blocks (bblock sb c)) (c % BPB))) c fun _ => 0) :
    Restores sb s (.ofNat 32 c) t := by
  have apart := reserved.apart low clear
  have marked : t.blocks (bblock sb c) = setBit (s.blocks (bblock sb c)) (c % BPB) := by
    rw [blocks, Function.update_of_ne (apart c low), Function.update_self]
  intro u same
  have here : u.blocks (bblock sb c) = setBit (s.blocks (bblock sb c)) (c % BPB) :=
    (same c low).trans marked
  have set : testBit (u.blocks (bblock sb c)) (c % BPB) = true := by
    rw [here, testBit_setBit, decide_eq_true rfl, Bool.or_true]
  unfold Does
  rw [wp_congr (bfree_eq (by omega)), if_pos set, toNat_int (by omega)]
  refine (bstore_logWrite_does _ _).conseq fun _ v ⟨_, _, after⟩ => ⟨fun d dLow => ?_, fun b not => ?_⟩
  · rw [after]
    by_cases block : bblock sb d = bblock sb c
    · rw [block, Function.update_self, here, clearBit_setBit clear]
    · rw [Function.update_of_ne block, same d dLow, blocks, Function.update_of_ne (apart d dLow),
        Function.update_of_ne block]
  · rw [after, Function.update_of_ne not]

/-- Where every block is in use, `balloc` returns 0 and does nothing.  Otherwise it takes the first
free block, which is not block 0, and `bfree` of it restores the bitmap.  They panic only for want of
room in the log, or outside of a transaction. -/
theorem balloc_exact (small : sb.size < 2 ^ 30) (reserved : Reserved sb s) :
    (Full sb s → balloc sb s = .ok 0 s) ∧
      Does 2 (balloc sb) (fun c t => ((c = 0 ∧ t = s) ↔ Full sb s) ∧
        (¬ Full sb s → c ≠ 0 ∧ Takes sb s c.toNat t ∧ Restores sb s c t ∧ SameTables s t)) s := by
  cases found : firstFree sb s 0 with
  | none =>
    have full := firstFree_none.mp found
    have run : balloc sb s = .ok 0 s := by rw [balloc_eq small, found]
    refine ⟨fun _ => run, ?_⟩
    unfold Does
    rw [wp_value run]
    exact ⟨(Grew.refl s).mono (Nat.zero_le 2), ⟨fun _ => full, fun _ => ⟨rfl, rfl⟩⟩,
      fun not => absurd full not⟩
  | some c =>
    obtain ⟨low, clear, least⟩ := firstFree_some found
    have notFull : ¬ Full sb s := by
      intro full
      rw [full c low] at clear
      cases clear
    have positive : c ≠ 0 := by
      intro zero
      rw [reserved c low (.inl zero)] at clear
      cases clear
    have run : balloc sb s = take sb c s := by rw [balloc_eq small, found]
    refine ⟨fun full => absurd full notFull, ?_⟩
    unfold Does
    rw [wp_congr run]
    refine (take_does sb s c).conseq fun d t ⟨is, same, blocks⟩ => ?_
    subst is
    have number : (BitVec.ofNat 32 c).toNat = c := toNat_int (by omega)
    have nonzero : BitVec.ofNat 32 c ≠ 0 := by
      intro zero
      rw [zero] at number
      exact positive number.symm
    refine ⟨⟨fun h => absurd h.1 nonzero, fun full => absurd full notFull⟩, fun _ => ⟨nonzero, ?_⟩⟩
    rw [number]
    exact ⟨takes_of_blocks small reserved low clear least blocks,
      restores_of_blocks small reserved low clear blocks, same⟩

end Exact

/-- A bitmap in blocks 1 and 2, for 8195 blocks of which only the last two are free. -/
def sampleSuper : Superblock := ⟨8195, 8000, 0, 0, 1⟩

def sample : State where
  blocks b := if b = 1 then fun _ => 0xff else if b = 2 then fun i => if i = 0 then 1 else 0
    else fun _ => 0
  outstanding := 1
  lh := []
  logged := []
  itable _ := ⟨⟨0, 0, 0, 0, 0, fun _ => 0⟩, 0, 0, 0, false, none⟩
  ftable _ := ⟨.none, 0, false, false, none, 0⟩
  procs _ := ⟨.unused, none, none, fun _ => none⟩
  current := 0

theorem sample_first {c : Nat} (low : c < BPB) : used sampleSuper sample c = true := by
  have block : bblock sampleSuper c = 1 := by
    rw [bblock, Superblock.bblock, Nat.div_eq_of_lt low]
    rfl
  have all : ∀ k : Fin 8, (0xff : UInt8) &&& mask k ≠ 0 := by decide
  rw [used, block, testBit, decide_eq_true_eq]
  exact all ⟨_, Nat.mod_lt _ (by decide)⟩

theorem sample_reserved : Reserved sampleSuper sample := by
  intro c low which
  refine sample_first ?_
  have bits : BPB = 8192 := rfl
  rcases which with zero | ⟨d, dLow, is⟩
  · omega
  · unfold bblock Superblock.bblock sampleSuper at is
    have less : d < 8195 := dLow
    rw [bits] at is
    dsimp only at is
    omega

theorem sample_free : used sampleSuper sample 8193 = false := by decide

theorem balloc_exact_sample : sampleSuper.size < 2 ^ 30 ∧ Reserved sampleSuper sample ∧
    Does 2 (balloc sampleSuper) (fun c t => c ≠ 0 ∧ Takes sampleSuper sample c.toNat t ∧
      Restores sampleSuper sample c t) sample := by
  have notFull : ¬ Full sampleSuper sample := by
    intro full
    have used := full 8193 (by decide)
    rw [sample_free] at used
    cases used
  have small : sampleSuper.size < 2 ^ 30 := by decide
  have reserved := sample_reserved
  have exact' := balloc_exact small reserved
  generalize sampleSuper = sb, sample = s at small reserved notFull exact' ⊢
  refine ⟨small, reserved, exact'.2.conseq fun c t ⟨_, takes⟩ => ?_⟩
  obtain ⟨nonzero, taken, restored, _⟩ := takes notFull
  exact ⟨nonzero, taken, restored⟩

end Xv6Lab.Fs.Bitmap

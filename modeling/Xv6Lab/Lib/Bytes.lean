import Mathlib.Data.Nat.Init
import Mathlib.Logic.Function.Basic
import Mathlib.Tactic.Ring

/-! Byte buffers and the little-endian numbers stored in them.  A buffer is a total function on
offsets; its owner decides how many of them it uses. -/

namespace Bytes

abbrev Buffer := Nat → UInt8

/-- Buffer `b` with `n` bytes of `src` copied to `off`. -/
def blit (b : Buffer) (off : Nat) (src : Nat → UInt8) (n : Nat) : Buffer := fun i =>
  if off ≤ i ∧ i < off + n then src (i - off) else b i

theorem blit_in {b : Buffer} {off n i : Nat} {src : Nat → UInt8} (h : off ≤ i) (h' : i < off + n) :
    blit b off src n i = src (i - off) :=
  if_pos ⟨h, h'⟩

theorem blit_out {b : Buffer} {off n i : Nat} {src : Nat → UInt8} (h : i < off ∨ off + n ≤ i) :
    blit b off src n i = b i :=
  if_neg (by omega)

/-- The number stored in the `n` bytes from `off` on, least significant byte first. -/
def le (b : Buffer) : Nat → Nat → Nat
  | _, 0 => 0
  | off, n + 1 => (b off).toNat + 256 * le b (off + 1) n

/-- The bytes of `v`, least significant first. -/
def digits (v : Nat) (k : Nat) : UInt8 := UInt8.ofNat (v / 256 ^ k)

/-- Buffer `b` with `v` stored in the `n` bytes from `off` on. -/
def setLe (b : Buffer) (off n v : Nat) : Buffer := blit b off (digits v) n

theorem le_congr {b b' : Buffer} {off n : Nat}
    (h : ∀ i, off ≤ i → i < off + n → b i = b' i) : le b off n = le b' off n := by
  induction n generalizing off with
  | zero => rfl
  | succ n ih =>
    rw [le, le, h off (by omega) (by omega), ih fun i hi hi' => h i (by omega) (by omega)]

theorem le_zeros (off n : Nat) : le (fun _ => 0) off n = 0 := by
  induction n generalizing off with
  | zero => rfl
  | succ n ih => rw [le, ih]; rfl

theorem digits_succ (v k : Nat) : digits v (k + 1) = digits (v / 256) k := by
  rw [digits, digits, Nat.div_div_eq_div_mul, Nat.pow_succ, Nat.mul_comm]

theorem le_setLe_mod (b : Buffer) (off n v : Nat) : le (setLe b off n v) off n = v % 256 ^ n := by
  induction n generalizing off v with
  | zero => simp [le, Nat.mod_one]
  | succ n ih =>
    have first : (setLe b off (n + 1) v off).toNat = v % 256 := by
      rw [setLe, blit_in (by omega) (by omega)]
      simp [digits]
    have rest : le (setLe b off (n + 1) v) (off + 1) n = le (setLe b (off + 1) n (v / 256)) (off + 1) n := by
      refine le_congr fun i hi hi' => ?_
      rw [setLe, setLe, blit_in (by omega) (by omega), blit_in hi hi', ← digits_succ]
      congr 1
      omega
    rw [le, first, rest, ih, Nat.pow_succ, Nat.mul_comm (256 ^ n), Nat.mod_mul]

/-- A stored number is read back. -/
theorem le_setLe {v n : Nat} (b : Buffer) (off : Nat) (h : v < 256 ^ n) :
    le (setLe b off n v) off n = v := by
  rw [le_setLe_mod, Nat.mod_eq_of_lt h]

theorem le_blit_out {b : Buffer} {off n off' n' : Nat} {src : Nat → UInt8}
    (h : off' + n' ≤ off ∨ off + n ≤ off') : le (blit b off src n) off' n' = le b off' n' :=
  le_congr fun _ hi hi' => blit_out (by omega)

/-- A store elsewhere leaves a number alone. -/
theorem le_setLe_out {b : Buffer} {off n v off' n' : Nat}
    (h : off' + n' ≤ off ∨ off + n ≤ off') : le (setLe b off n v) off' n' = le b off' n' :=
  le_blit_out h

/-! ### Arrays of 32-bit words -/

/-- Buffer `b` with the words `ws 0`, …, `ws (n - 1)` stored from `off` on. -/
def putWords (b : Buffer) (off n : Nat) (ws : Nat → Nat) : Buffer :=
  blit b off (fun i => digits (ws (i / 4)) (i % 4)) (4 * n)

theorem le_putWords {b : Buffer} {off n k : Nat} {ws : Nat → Nat} (h : k < n)
    (small : ws k < 256 ^ 4) : le (putWords b off n ws) (off + 4 * k) 4 = ws k := by
  rw [← le_setLe b (off + 4 * k) small]
  refine le_congr fun i hi hi' => ?_
  rw [putWords, blit_in (by omega) (by omega), setLe, blit_in hi hi']
  rw [show (i - off) / 4 = k by omega, show (i - off) % 4 = i - (off + 4 * k) by omega]

/-! ### Bitmaps -/

/-- The byte in which only bit `k` is set. -/
def mask (k : Nat) : UInt8 := 1 <<< UInt8.ofNat k

/-- Bit `i` of the buffer. -/
def testBit (b : Buffer) (i : Nat) : Bool := b (i / 8) &&& mask (i % 8) ≠ 0

def setBit (b : Buffer) (i : Nat) : Buffer := Function.update b (i / 8) (b (i / 8) ||| mask (i % 8))

def clearBit (b : Buffer) (i : Nat) : Buffer :=
  Function.update b (i / 8) (b (i / 8) &&& ~~~ mask (i % 8))

theorem mask_toBitVec {k : Nat} (h : k < 8) : (mask k).toBitVec = BitVec.twoPow 8 k := by
  have all : ∀ k : Fin 8, (mask k).toBitVec = BitVec.twoPow 8 k := by decide
  exact all ⟨k, h⟩

theorem and_mask {x : UInt8} {k : Nat} (h : k < 8) :
    x &&& mask k ≠ 0 ↔ x.toBitVec.getLsbD k = true := by
  rw [ne_eq, ← UInt8.toBitVec_inj, UInt8.toBitVec_and, mask_toBitVec h, BitVec.and_twoPow]
  have some : BitVec.twoPow 8 k ≠ 0#8 := by
    have all : ∀ k : Fin 8, BitVec.twoPow 8 k ≠ 0#8 := by decide
    exact all ⟨k, h⟩
  cases x.toBitVec.getLsbD k <;> simp [some]

theorem testBit_setBit (b : Buffer) (i j : Nat) :
    testBit (setBit b i) j = (testBit b j || decide (i = j)) := by
  have jBit : j % 8 < 8 := Nat.mod_lt _ (by decide)
  have iBit : i % 8 < 8 := Nat.mod_lt _ (by decide)
  rw [Bool.eq_iff_iff]
  simp only [testBit, decide_eq_true_eq, Bool.or_eq_true, and_mask jBit, setBit]
  by_cases byte : j / 8 = i / 8
  · rw [byte, Function.update_self, UInt8.toBitVec_or, mask_toBitVec iBit, BitVec.getLsbD_or,
      BitVec.getLsbD_twoPow]
    simp only [Bool.or_eq_true, Bool.and_eq_true, decide_eq_true_eq]
    have : i % 8 = j % 8 ↔ i = j := by omega
    simp [iBit, this]
  · rw [Function.update_of_ne byte]
    have : i ≠ j := fun same => byte (by rw [same])
    simp [this]

theorem testBit_clearBit (b : Buffer) (i j : Nat) :
    testBit (clearBit b i) j = (testBit b j && !decide (i = j)) := by
  have jBit : j % 8 < 8 := Nat.mod_lt _ (by decide)
  have iBit : i % 8 < 8 := Nat.mod_lt _ (by decide)
  rw [Bool.eq_iff_iff]
  simp only [testBit, decide_eq_true_eq, Bool.and_eq_true, and_mask jBit, clearBit]
  by_cases byte : j / 8 = i / 8
  · rw [byte, Function.update_self, UInt8.toBitVec_and, UInt8.toBitVec_not, mask_toBitVec iBit,
      BitVec.getLsbD_and, BitVec.getLsbD_not, BitVec.getLsbD_twoPow]
    have : i % 8 = j % 8 ↔ i = j := by omega
    simp [iBit, jBit, this]
  · rw [Function.update_of_ne byte]
    have : i ≠ j := fun same => byte (by rw [same])
    simp [this]

theorem or_and_not {x m : UInt8} (clear : x &&& m = 0) : (x ||| m) &&& ~~~ m = x := by
  have bits := congrArg UInt8.toBitVec clear
  rw [UInt8.toBitVec_and] at bits
  rw [← UInt8.toBitVec_inj, UInt8.toBitVec_and, UInt8.toBitVec_or, UInt8.toBitVec_not]
  ext i inside
  have bit : (x.toBitVec[i] && m.toBitVec[i]) = false := by
    have both := congrArg (fun y : BitVec 8 => y[i]) bits
    rw [BitVec.getElem_and] at both
    exact both.trans (BitVec.getElem_zero inside)
  rw [BitVec.getElem_and, BitVec.getElem_or, BitVec.getElem_not]
  revert bit
  cases x.toBitVec[i] <;> cases m.toBitVec[i] <;> decide

/-- A bit that was clear, set and cleared. -/
theorem clearBit_setBit {b : Buffer} {i : Nat} (clear : testBit b i = false) :
    clearBit (setBit b i) i = b := by
  have none : b (i / 8) &&& mask (i % 8) = 0 := by simpa [testBit] using clear
  rw [clearBit, setBit, Function.update_self, Function.update_idem, or_and_not none,
    Function.update_eq_self]

end Bytes

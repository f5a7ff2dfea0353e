import Mathlib.Data.List.Range
import Mathlib.Data.Nat.ModEq
import Mathlib.Logic.Function.Basic

/-! Rings that two parties share: one writes entries at the upper index, the other reads them at the
lower one, and both indices are machine words that wrap. -/

namespace Ring

variable {w N : Nat} [NeZero N] {α : Type}

/-- The place of an index in the ring. -/
def slot (N : Nat) [NeZero N] (i : BitVec w) : Fin N := Fin.ofNat N i.toNat

/-- The first `n` entries from `lo` on. -/
def window (ring : Fin N → α) (lo : BitVec w) (n : Nat) : List α :=
  (List.range n).map fun j => ring (slot N (lo + BitVec.ofNat w j))

/-- The entries between two indices, which have been written and not been read. -/
def pending (ring : Fin N → α) (lo hi : BitVec w) : List α := window ring lo (hi - lo).toNat

@[simp] theorem length_pending (ring : Fin N → α) (lo hi : BitVec w) :
    (pending ring lo hi).length = (hi - lo).toNat := by simp [pending, window]

theorem pending_self (ring : Fin N → α) (lo : BitVec w) : pending ring lo lo = [] := by
  simp [pending, window]

theorem window_snoc (ring : Fin N → α) (lo : BitVec w) (n : Nat) :
    window ring lo (n + 1) = window ring lo n ++ [ring (slot N (lo + BitVec.ofNat w n))] := by
  simp [window, List.range_succ]

theorem window_cons (ring : Fin N → α) (lo : BitVec w) (n : Nat) :
    window ring lo (n + 1) = ring (slot N lo) :: window ring (lo + 1) n := by
  have shift : ∀ j : Nat, lo + BitVec.ofNat w (j + 1) = lo + 1 + BitVec.ofNat w j := by
    intro j
    rw [BitVec.ofNat_add, BitVec.add_comm (BitVec.ofNat w j), ← BitVec.add_assoc]
    rfl
  rw [window, List.range_succ_eq_map, List.map_cons, List.map_map]
  have first : lo + BitVec.ofNat w 0 = lo := BitVec.add_zero lo
  rw [first]
  refine congrArg _ (List.map_congr_left fun j _ => ?_)
  show ring (slot N (lo + BitVec.ofNat w (j + 1))) = _
  rw [shift]

/-- The reader takes the first entry. -/
theorem pending_pop (ring : Fin N → α) {lo hi : BitVec w} (some : lo ≠ hi) :
    pending ring lo hi = ring (slot N lo) :: pending ring (lo + 1) hi := by
  have positive : (hi - lo).toNat ≠ 0 := by
    intro none
    refine some ?_
    have zero : hi - lo = 0#w := BitVec.eq_of_toNat_eq (by simpa using none)
    rw [← BitVec.sub_add_cancel hi lo, zero, BitVec.zero_add]
  have one : (1#w).toNat = 1 := by
    have small := (hi - lo).isLt
    rw [BitVec.toNat_ofNat, Nat.mod_eq_of_lt (by omega)]
  have less : (hi - (lo + 1)).toNat = (hi - lo).toNat - 1 := by
    have regroup : hi - (lo + 1#w) = hi - lo - 1#w := (BitVec.sub_sub hi lo 1#w).symm
    have below : 1#w ≤ hi - lo := by
      rw [BitVec.le_def, one]
      omega
    exact (congrArg BitVec.toNat regroup).trans
      ((BitVec.toNat_sub_of_le below).trans (congrArg _ one))
  unfold pending
  obtain ⟨n, is⟩ := Nat.exists_eq_succ_of_ne_zero positive
  rw [less, is, Nat.succ_eq_add_one, window_cons]
  rfl

/-- The writer makes an entry known that stands in the ring already. -/
theorem pending_publish (ring : Fin N → α) {lo hi : BitVec w} (room : (hi - lo).toNat + 1 < 2 ^ w) :
    pending ring lo (hi + 1) = pending ring lo hi ++ [ring (slot N hi)] := by
  have one : (1#w).toNat = 1 := by
    rw [BitVec.toNat_ofNat, Nat.mod_eq_of_lt (by omega)]
  have more : (hi + 1 - lo).toNat = (hi - lo).toNat + 1 := by
    have regroup : hi + 1#w - lo = hi - lo + 1#w := by
      rw [BitVec.sub_eq_add_neg, BitVec.sub_eq_add_neg, BitVec.add_assoc,
        BitVec.add_comm (1#w), ← BitVec.add_assoc]
    refine (congrArg BitVec.toNat regroup).trans ?_
    rw [BitVec.toNat_add_of_lt (by rw [one]; exact room), one]
  have last : lo + BitVec.ofNat w (hi - lo).toNat = hi := by
    rw [BitVec.ofNat_toNat, BitVec.setWidth_eq, BitVec.add_comm, BitVec.sub_add_cancel]
  unfold pending
  rw [more, window_snoc, last]

/-- Different places within one turn of the ring. -/
theorem slot_ne (divides : N ∣ 2 ^ w) (lo : BitVec w) {j n : Nat} (less : j < n) (turn : n < N) :
    slot N (lo + BitVec.ofNat w j) ≠ slot N (lo + BitVec.ofNat w n) := by
  intro same
  have values := congrArg Fin.val same
  simp only [slot, Fin.val_ofNat, BitVec.toNat_add, BitVec.toNat_ofNat, Nat.add_mod_mod,
    Nat.mod_mod_of_dvd _ divides] at values
  have congruent : j ≡ n [MOD N] := Nat.ModEq.add_left_cancel' lo.toNat values
  have equal := Nat.ModEq.eq_of_lt_of_lt congruent (less.trans turn) turn
  omega

/-- An entry is written where the ring has room. -/
theorem pending_write (divides : N ∣ 2 ^ w) (ring : Fin N → α) {lo hi : BitVec w} (x : α)
    (room : (hi - lo).toNat < N) :
    pending (Function.update ring (slot N hi) x) lo hi = pending ring lo hi := by
  have last : lo + BitVec.ofNat w (hi - lo).toNat = hi := by
    rw [BitVec.ofNat_toNat, BitVec.setWidth_eq, BitVec.add_comm, BitVec.sub_add_cancel]
  refine List.map_congr_left fun j inside => ?_
  refine Function.update_of_ne ?_ _ _
  have other := slot_ne divides lo (List.mem_range.mp inside) room
  rwa [last] at other

end Ring

import Mathlib.Data.BitVec

/-! Memories of single bytes, known only by how their loads answer to their stores, and copies of a
range of bytes within one memory.  Addresses are machine words, so a range may pass the top of the
address space. -/

/-- A memory whose bytes are loaded and stored one at a time. -/
structure ByteStore (w : Nat) (σ β : Type) where
  load : σ → BitVec w → β
  store : σ → BitVec w → β → σ
  load_store : ∀ m a b a', load (store m a b) a' = if a' = a then b else load m a'

namespace ByteStore

variable {w : Nat} {σ β : Type} (M : ByteStore w σ β) {m t : σ} {dst src : BitVec w} {lo hi k : Nat}

/-- The memory of a function. -/
def ofFun (w : Nat) (β : Type) : ByteStore w (BitVec w → β) β where
  load m a := m a
  store m a b := fun a' => if a' = a then b else m a'
  load_store _ _ _ _ := rfl

/-- In `t`, the places from `lo` up to `hi` of the range at `dst` have the bytes that those of the
range at `src` have in `m`; all other bytes are those of `m`. -/
def Copied (m t : σ) (dst src : BitVec w) (lo hi : Nat) : Prop :=
  ∀ a, M.load t a = if lo ≤ (a - dst).toNat ∧ (a - dst).toNat < hi then M.load m (src + (a - dst))
    else M.load m a

variable {M}

theorem Copied.none (M : ByteStore w σ β) (m : σ) (dst src : BitVec w) (k : Nat) :
    M.Copied m m dst src k k :=
  fun _ => (if_neg (by omega)).symm

/-- A byte that is not among those copied. -/
theorem Copied.kept (copied : M.Copied m t dst src lo hi) {a : BitVec w}
    (outside : ¬ (lo ≤ (a - dst).toNat ∧ (a - dst).toNat < hi)) : M.load t a = M.load m a := by
  rw [copied a, if_neg outside]

theorem toNat_ofNat_lt {w k : Nat} (small : k < 2 ^ w) : (BitVec.ofNat w k).toNat = k := by
  rw [BitVec.toNat_ofNat, Nat.mod_eq_of_lt small]

/-- The byte at place `k` follows the ones already copied, or comes right before them. -/
theorem Copied.store (copied : M.Copied m t dst src lo hi) {lo' hi' : Nat} (small : k < 2 ^ w)
    (ready : M.load t (src + BitVec.ofNat w k) = M.load m (src + BitVec.ofNat w k))
    (grown : ∀ i, (lo' ≤ i ∧ i < hi') ↔ i = k ∨ (lo ≤ i ∧ i < hi)) :
    M.Copied m (M.store t (dst + BitVec.ofNat w k) (M.load t (src + BitVec.ofNat w k))) dst src
      lo' hi' := by
  intro a
  have place : (a - dst).toNat = k ↔ a = dst + BitVec.ofNat w k := by
    rw [← toNat_ofNat_lt small, BitVec.toNat_inj, BitVec.sub_eq_iff_eq_add, BitVec.add_comm,
      toNat_ofNat_lt small]
  rw [M.load_store]
  by_cases here : a = dst + BitVec.ofNat w k
  · rw [if_pos here, if_pos ((grown _).mpr (.inl (place.mpr here))), ready, here,
      BitVec.add_comm dst, BitVec.add_sub_cancel]
  · have same := grown (a - dst).toNat
    rw [or_iff_right (mt place.mp here)] at same
    rw [if_neg here, copied a]
    exact if_congr same.symm rfl rfl

/-- All of the range is copied: its places by number, and the bytes outside of it. -/
theorem Copied.range {n : Nat} (copied : M.Copied m t dst src 0 n) (fits : dst.toNat + n ≤ 2 ^ w) :
    (∀ i < n, M.load t (dst + BitVec.ofNat w i) = M.load m (src + BitVec.ofNat w i)) ∧
    ∀ a, (a.toNat < dst.toNat ∨ dst.toNat + n ≤ a.toNat) → M.load t a = M.load m a := by
  constructor
  · intro i less
    have offset : dst + BitVec.ofNat w i - dst = BitVec.ofNat w i := by
      rw [BitVec.add_comm, BitVec.add_sub_cancel]
    have small : i < 2 ^ w := by omega
    rw [copied, offset, if_pos ⟨Nat.zero_le _, by rwa [toNat_ofNat_lt small]⟩]
  · intro a outside
    refine copied.kept fun inside => ?_
    have limit := a.isLt
    have limit' := dst.isLt
    have offset := BitVec.toNat_sub a dst
    rcases outside with below | above
    · rw [Nat.mod_eq_of_lt (by omega)] at offset
      omega
    · rw [show 2 ^ w - dst.toNat + a.toNat = a.toNat - dst.toNat + 2 ^ w by omega,
        Nat.add_mod_right, Nat.mod_eq_of_lt (by omega)] at offset
      omega

end ByteStore

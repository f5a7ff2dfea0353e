import Xv6Lab.Lib.ByteStore
import Xv6Lab.Vm.UserAccess

/-! `memmove` of `mem.c`, over any memory of bytes, and over the kernel's. -/

namespace Xv6Lab.Vm

open Rv64
open Trap (PGSIZE)

section Moves

variable {σ β : Type} (M : ByteStore 64 σ β)

/-- `while (n-- > 0) *d++ = *s++;` -/
def copyForward : (n : Nat) → (d s : Word) → σ → σ
  | 0, _, _, m => m
  | n + 1, d, s, m => copyForward n (d + 1) (s + 1) (M.store m d (M.load m s))

/-- `while (n-- > 0) *(--d) = *(--s);` -/
def copyBackward : (n : Nat) → (d s : Word) → σ → σ
  | 0, _, _, m => m
  | n + 1, d, s, m =>
    let d := d - 1
    let s := s - 1
    copyBackward n d s (M.store m d (M.load m s))

/-- `memmove`: what it returns, and memory after it. -/
def memmove (dst src n : Word) (m : σ) : Word × σ :=
  let d := dst
  let s := src
  if d < s then
    (dst, copyForward M n.toNat d s m)
  else
    let d := d + n
    let s := s + n
    (dst, copyBackward M n.toNat d s m)

variable {M} {m t : σ} {dst src : Word} {n : Nat}

/-- Upward, the source is read ahead of what has been stored. -/
theorem forward_ready {k : Nat} (below : dst < src) (fits : src.toNat + n ≤ 2 ^ 64) (less : k < n) :
    k ≤ (src + BitVec.ofNat 64 k - dst).toNat := by
  have limit := src.isLt
  have small : (BitVec.ofNat 64 k : Word).toNat = k := ByteStore.toNat_ofNat_lt (by omega)
  bv_omega

/-- Downward, it is read below it, or so far above that the range does not reach there. -/
theorem backward_ready {k : Nat} (above : ¬ dst < src) (fits : dst.toNat + n ≤ 2 ^ 64)
    (less : k < n) : (src + BitVec.ofNat 64 k - dst).toNat ≤ k ∨
      n ≤ (src + BitVec.ofNat 64 k - dst).toNat := by
  have limit := dst.isLt
  have small : (BitVec.ofNat 64 k : Word).toNat = k := ByteStore.toNat_ofNat_lt (by omega)
  bv_omega

theorem address_succ (a : Word) (k : Nat) :
    a + BitVec.ofNat 64 k + 1 = a + BitVec.ofNat 64 (k + 1) := by
  rw [BitVec.add_assoc, BitVec.ofNat_add]
  rfl

/-- The loop upward, with the first `k` bytes copied. -/
theorem copyForward_copies (below : dst < src) (fits : src.toNat + n ≤ 2 ^ 64) (left k : Nat)
    (total : k + left = n) (copied : M.Copied m t dst src 0 k) :
    M.Copied m (copyForward M left (dst + BitVec.ofNat 64 k) (src + BitVec.ofNat 64 k) t) dst src
      0 n := by
  induction left generalizing k t with
  | zero =>
    obtain rfl : k = n := total
    exact copied
  | succ left ih =>
    have ahead := forward_ready below fits (k := k) (by omega)
    have limit := src.isLt
    rw [copyForward, address_succ, address_succ]
    apply ih (k + 1) (by omega)
    apply copied.store (by omega)
    · exact copied.kept (by omega)
    · intro i
      omega

/-- The loop downward, with all but the first `left` bytes copied. -/
theorem copyBackward_copies (above : ¬ dst < src) (fits : dst.toNat + n ≤ 2 ^ 64) (left : Nat)
    (within : left ≤ n) (copied : M.Copied m t dst src left n) :
    M.Copied m (copyBackward M left (dst + BitVec.ofNat 64 left) (src + BitVec.ofNat 64 left) t)
      dst src 0 n := by
  induction left generalizing t with
  | zero => exact copied
  | succ left ih =>
    have apart := backward_ready above fits (k := left) (by omega)
    have limit := dst.isLt
    dsimp only [copyBackward]
    rw [← address_succ, ← address_succ, BitVec.add_sub_cancel, BitVec.add_sub_cancel]
    apply ih (by omega)
    apply copied.store (by omega)
    · exact copied.kept (by omega)
    · intro i
      omega

theorem memmove_copies (M : ByteStore 64 σ β) (m : σ) {dst src n : Word}
    (fitsDst : dst.toNat + n.toNat ≤ 2 ^ 64) (fitsSrc : src.toNat + n.toNat ≤ 2 ^ 64) :
    ∃ t, memmove M dst src n m = (dst, t) ∧ M.Copied m t dst src 0 n.toNat := by
  by_cases below : dst < src
  · refine ⟨_, if_pos below, ?_⟩
    have copied := copyForward_copies (M := M) (m := m) (t := m) below fitsSrc n.toNat 0 (by omega)
      (.none M m dst src 0)
    rwa [BitVec.add_zero, BitVec.add_zero] at copied
  · refine ⟨_, if_neg below, ?_⟩
    have copied := copyBackward_copies (M := M) (m := m) (t := m) below fitsDst n.toNat
      (Nat.le_refl _) (.none M m dst src n.toNat)
    rwa [BitVec.ofNat_toNat, BitVec.setWidth_eq] at copied

end Moves

/-- `memmove` for ranges that do not wrap, wherever they lie: it returns `dst`, the bytes there are
those that the source had, and every other byte is as it was. -/
theorem memmove_moves {σ β : Type} (M : ByteStore 64 σ β) (m : σ) (dst src n : Word)
    (fitsDst : dst.toNat + n.toNat ≤ 2 ^ 64) (fitsSrc : src.toNat + n.toNat ≤ 2 ^ 64) :
    ∃ t, memmove M dst src n m = (dst, t) ∧
      (∀ i < n.toNat,
        M.load t (dst + BitVec.ofNat 64 i) = M.load m (src + BitVec.ofNat 64 i)) ∧
      ∀ a : Word, (a.toNat < dst.toNat ∨ dst.toNat + n.toNat ≤ a.toNat) →
        M.load t a = M.load m a := by
  obtain ⟨t, returns, copied⟩ := memmove_copies M m fitsDst fitsSrc
  exact ⟨t, returns, copied.range fitsDst⟩

/-- Four bytes are moved one place up, over three of their own. -/
theorem memmove_moves_sample : ∃ t : Word → BitVec 8,
    memmove (.ofFun 64 (BitVec 8)) 11 10 4 (fun a => a.setWidth 8) = (11, t) ∧
      (∀ i < (4 : Word).toNat, t (11 + BitVec.ofNat 64 i) = (10 + BitVec.ofNat 64 i : Word).setWidth 8) ∧
      ∀ a : Word, (a.toNat < (11 : Word).toNat ∨ (11 : Word).toNat + (4 : Word).toNat ≤ a.toNat) →
        t a = a.setWidth 8 :=
  memmove_moves (.ofFun 64 (BitVec 8)) (fun a => a.setWidth 8) 11 10 4 (by decide) (by decide)

/-! ### Pages of the kernel -/

/-- Physical memory, byte by byte. -/
def physical : ByteStore 64 Mem (BitVec 8) where
  load := loadByte
  store := putAt
  load_store := fun mem pa b pa' => loadByte_putAt mem pa pa' b

/-- A byte of a page. -/
theorem loadByte_page (mem : Mem) {page : Word} (aligned : page.toNat % 4096 = 0) {i : Nat}
    (inside : i < 4096) : loadByte mem (page + BitVec.ofNat 64 i) = byteAt (mem page) i := by
  have limit := page.isLt
  have place : (page + BitVec.ofNat 64 i).toNat = page.toNat + i := by
    rw [BitVec.toNat_add, ByteStore.toNat_ofNat_lt (by omega), Nat.mod_eq_of_lt (by omega)]
  have page_eq : (BitVec.ofNat 64 (page.toNat / 4096 * 4096) : Word) = page := by
    rw [show page.toNat / 4096 * 4096 = page.toNat by omega, BitVec.ofNat_toNat, BitVec.setWidth_eq]
  rw [loadByte, place, show (page.toNat + i) / 4096 = page.toNat / 4096 by omega, page_eq]
  congr 1
  omega

/-- For whole pages, `memmove` is the copy that the rest of the model makes. -/
theorem memmove_page (mem : Mem) {dst src : Word} (aligned : dst.toNat % 4096 = 0)
    (aligned' : src.toNat % 4096 = 0) (a : Word) :
    loadByte (memmove physical dst src PGSIZE mem).2 a =
      loadByte (Function.update mem dst (mem src)) a := by
  have limit := dst.isLt
  have limit' := src.isLt
  have size : PGSIZE.toNat = 4096 := by decide
  obtain ⟨t, moved, copied⟩ :=
    @memmove_copies _ _ physical mem dst src PGSIZE (by omega) (by omega)
  obtain ⟨inside, outside⟩ := copied.range (by omega)
  rw [moved]
  by_cases within : dst.toNat ≤ a.toNat ∧ a.toNat < dst.toNat + 4096
  · obtain ⟨i, less, rfl⟩ : ∃ i < 4096, a = dst + BitVec.ofNat 64 i := by
      refine ⟨a.toNat - dst.toNat, by omega, BitVec.eq_of_toNat_eq ?_⟩
      have limit'' := a.isLt
      rw [BitVec.toNat_add, ByteStore.toNat_ofNat_lt (by omega)]
      omega
    have copy := loadByte_page (Function.update mem dst (mem src)) aligned less
    rw [Function.update_self, ← loadByte_page mem aligned' less] at copy
    exact (inside i (by omega)).trans copy.symm
  · have other : (BitVec.ofNat 64 (a.toNat / 4096 * 4096) : Word) ≠ dst := by
      intro same
      have eq := congrArg BitVec.toNat same
      have limit'' := a.isLt
      rw [BitVec.toNat_ofNat, Nat.mod_eq_of_lt (by omega)] at eq
      omega
    refine (outside a (by omega)).trans ?_
    show loadByte mem a = _
    rw [loadByte, loadByte, Function.update_of_ne other]

end Xv6Lab.Vm

import Mathlib.Data.List.Find
import Mathlib.Data.List.Range

/-! Tables of numbered slots that hold a key with a value or nothing.  A search takes the first slot
with the key.  A table in which every key has at most one slot is a finite map: filling a slot adds
a key to it and emptying a slot removes one. -/

namespace Slots

variable {K V : Type} {slot slot' : Nat → Option (K × V)} {n n' k : Nat} {key other : K} {a : V}

/-- No two slots hold one key. -/
def Distinct (slot : Nat → Option (K × V)) (n : Nat) : Prop :=
  ∀ i < n, ∀ j < n, ∀ key a b, slot i = some (key, a) → slot j = some (key, b) → i = j

theorem Distinct.agree (distinct : Distinct slot n) (same : ∀ i < n, slot' i = slot i) :
    Distinct slot' n := by
  intro i hi j hj key a b one two
  rw [same i hi] at one
  rw [same j hj] at two
  exact distinct i hi j hj key a b one two

/-! ### Filling a slot -/

section Fill

variable (upTo : k ≤ n) (more : n' = max n (k + 1))
  (after : ∀ i < n', slot' i = if i = k then some (key, a) else slot i)
include upTo more after

theorem fill_distinct (distinct : Distinct slot n) (fresh : ∀ i < n, ∀ b, slot i ≠ some (key, b)) :
    Distinct slot' n' := by
  intro i hi j hj key' b c one two
  rw [after i hi] at one
  rw [after j hj] at two
  split at one
  · next first =>
    obtain ⟨rfl, -⟩ := Prod.mk.inj (Option.some.inj one)
    split at two
    · next second => rw [first, second]
    · exact absurd two (fresh j (by omega) c)
  · split at two
    · obtain ⟨rfl, -⟩ := Prod.mk.inj (Option.some.inj two)
      exact absurd one (fresh i (by omega) b)
    · exact distinct i (by omega) j (by omega) key' b c one two

/-- The slots below the number after one has been filled. -/
theorem fill_iff (vacant : k < n → slot k = none) {b : V} : (∃ i < n', slot' i = some (other, b)) ↔
    (other = key ∧ b = a) ∨ ∃ i < n, slot i = some (other, b) := by
  constructor
  · rintro ⟨i, less, is⟩
    rw [after i less] at is
    split at is
    · obtain ⟨rfl, rfl⟩ := Prod.mk.inj (Option.some.inj is)
      exact .inl ⟨rfl, rfl⟩
    · exact .inr ⟨i, by omega, is⟩
  · rintro (⟨rfl, rfl⟩ | ⟨i, less, is⟩)
    · exact ⟨k, by omega, by rw [after k (by omega), if_pos rfl]⟩
    · have apart : i ≠ k := by
        rintro rfl
        rw [vacant less] at is
        cases is
      exact ⟨i, by omega, by rw [after i (by omega), if_neg apart]; exact is⟩

end Fill

/-! ### Emptying a slot -/

section Clear

variable (after : ∀ i < n, slot' i = if i = k then none else slot i)
include after

theorem clear_iff {b : V} : (∃ i < n, slot' i = some (other, b)) ↔
    ∃ i < n, i ≠ k ∧ slot i = some (other, b) := by
  constructor
  · rintro ⟨i, less, is⟩
    rw [after i less] at is
    split at is
    · cases is
    · next apart => exact ⟨i, less, apart, is⟩
  · rintro ⟨i, less, apart, is⟩
    exact ⟨i, less, by rw [after i less, if_neg apart]; exact is⟩

theorem clear_distinct (distinct : Distinct slot n) : Distinct slot' n := by
  intro i hi j hj key a b one two
  rw [after i hi] at one
  rw [after j hj] at two
  split at one
  · cases one
  · split at two
    · cases two
    · exact distinct i hi j hj key a b one two

end Clear

/-! ### Searching -/

variable [DecidableEq K]

/-- Slot `k` holds `key`. -/
def has (slot : Nat → Option (K × V)) (key : K) (k : Nat) : Bool :=
  (slot k).any fun pair => decide (pair.1 = key)

/-- The first of the slots below `n` that holds `key`. -/
def find (slot : Nat → Option (K × V)) (n : Nat) (key : K) : Option Nat :=
  (List.range n).find? (has slot key)

def lookup (slot : Nat → Option (K × V)) (n : Nat) (key : K) : Option V :=
  (find slot n key).bind fun k => (slot k).map Prod.snd

theorem has_iff : has slot key k = true ↔ ∃ a, slot k = some (key, a) := by
  unfold has
  rw [Option.any_eq_true]
  constructor
  · rintro ⟨⟨_, a⟩, is, same⟩
    obtain rfl := of_decide_eq_true same
    exact ⟨a, is⟩
  · rintro ⟨a, is⟩
    exact ⟨(key, a), is, decide_eq_true rfl⟩

theorem find_eq_none : find slot n key = none ↔ ∀ i < n, ∀ a, slot i ≠ some (key, a) := by
  unfold find
  rw [List.find?_eq_none]
  constructor
  · intro none i less a is
    exact none i (List.mem_range.mpr less) (has_iff.mpr ⟨a, is⟩)
  · intro none i inside found
    obtain ⟨a, is⟩ := has_iff.mp found
    exact none i (List.mem_range.mp inside) a is

theorem find_some (found : find slot n key = some k) : k < n ∧ ∃ a, slot k = some (key, a) :=
  ⟨List.mem_range.mp (List.mem_of_find?_eq_some found), has_iff.mp (List.find?_some found)⟩

theorem lookup_of_find (found : find slot n key = some k) (is : slot k = some (key, a)) :
    lookup slot n key = some a := by
  unfold lookup
  rw [found, Option.bind_some, is]
  rfl

theorem lookup_eq_none : lookup slot n key = none ↔ ∀ i < n, ∀ a, slot i ≠ some (key, a) := by
  rw [← find_eq_none]
  constructor
  · intro none
    cases found : find slot n key with
    | none => rfl
    | some k =>
      obtain ⟨-, a, is⟩ := find_some found
      rw [lookup_of_find found is] at none
      cases none
  · intro none
    unfold lookup
    rw [none]
    rfl

/-- What a key has been found with is in a slot. -/
theorem lookup_some (found : lookup slot n key = some a) : ∃ i < n, slot i = some (key, a) := by
  cases first : find slot n key with
  | none =>
    rw [lookup, first] at found
    cases found
  | some k =>
    obtain ⟨less, b, is⟩ := find_some first
    rw [lookup_of_find first is] at found
    exact ⟨k, less, (Option.some.inj found) ▸ is⟩

theorem lookup_eq_some (distinct : Distinct slot n) :
    lookup slot n key = some a ↔ ∃ i < n, slot i = some (key, a) := by
  refine ⟨lookup_some, fun ⟨i, less, is⟩ => ?_⟩
  cases found : find slot n key with
  | none => exact absurd is (find_eq_none.mp found i less a)
  | some k =>
    obtain ⟨inside, b, held⟩ := find_some found
    obtain rfl := distinct i less k inside key a b is held
    exact lookup_of_find found is

/-- Tables that hold the same map. -/
theorem lookup_congr (one : Distinct slot n) (two : Distinct slot' n')
    (same : ∀ a, (∃ i < n', slot' i = some (key, a)) ↔ ∃ i < n, slot i = some (key, a)) :
    lookup slot' n' key = lookup slot n key := by
  refine Option.ext fun a => ?_
  rw [lookup_eq_some two, lookup_eq_some one]
  exact same a

/-- Only the slots below the number count. -/
theorem lookup_agree (same : ∀ i < n, slot' i = slot i) : lookup slot' n key = lookup slot n key := by
  have found : find slot' n key = find slot n key := by
    unfold find
    refine List.find?_congr fun i inside => ?_
    unfold has
    rw [same i (List.mem_range.mp inside)]
  unfold lookup
  rw [found]
  cases first : find slot n key with
  | none => rfl
  | some k =>
    show (slot' k).map Prod.snd = (slot k).map Prod.snd
    rw [same k (find_some first).1]

/-- The key has been added, and the others are as before. -/
theorem fill_lookup (upTo : k ≤ n) (vacant : k < n → slot k = none) (more : n' = max n (k + 1))
    (after : ∀ i < n', slot' i = if i = k then some (key, a) else slot i)
    (distinct : Distinct slot n) (fresh : ∀ i < n, ∀ b, slot i ≠ some (key, b)) :
    lookup slot' n' key = some a ∧ ∀ other ≠ key, lookup slot' n' other = lookup slot n other := by
  have filled := fill_distinct upTo more after distinct fresh
  refine ⟨?_, fun other apart => lookup_congr distinct filled fun b => ?_⟩
  · rw [lookup_eq_some filled, fill_iff upTo more after vacant]
    exact .inl ⟨rfl, rfl⟩
  · rw [fill_iff upTo more after vacant]
    exact or_iff_right fun is => apart is.1

/-- The key has been removed, and the others are as before. -/
theorem clear_lookup (after : ∀ i < n, slot' i = if i = k then none else slot i)
    (distinct : Distinct slot n) (inside : k < n) (is : slot k = some (key, a)) :
    lookup slot' n key = none ∧ ∀ other ≠ key, lookup slot' n other = lookup slot n other := by
  have cleared := clear_distinct after distinct
  refine ⟨lookup_eq_none.mpr fun i less b held => ?_,
    fun other apart => lookup_congr distinct cleared fun b => ?_⟩
  · obtain ⟨j, hj, apart, old⟩ := (clear_iff after).mp ⟨i, less, held⟩
    exact apart (distinct j hj k inside key b a old is)
  · rw [clear_iff after]
    constructor
    · rintro ⟨i, less, -, held⟩
      exact ⟨i, less, held⟩
    · rintro ⟨i, less, held⟩
      refine ⟨i, less, ?_, held⟩
      rintro rfl
      rw [is] at held
      exact apart (Prod.mk.inj (Option.some.inj held)).1.symm

end Slots

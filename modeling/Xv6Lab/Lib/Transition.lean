import Mathlib.Logic.Relation

/-! Invariants of transition relations. -/

namespace Transition

open Relation

/-- A property that every step preserves holds along every run. -/
theorem invariant {σ : Type*} {step : σ → σ → Prop} {I : σ → Prop}
    (preserved : ∀ s t, I s → step s t → I t) {s t : σ} (h : I s) (run : ReflTransGen step s t) :
    I t := by
  induction run with
  | refl => exact h
  | tail _ last ih => exact preserved _ _ ih last

section Reach

variable {α : Type*} {edge rest : α → α → Prop} {root i j : α}

/-- What is reached by edges is reached by others that every reached place has. -/
theorem reach_mono (edges : ∀ a b, ReflTransGen edge root a → edge a b → rest a b)
    (run : ReflTransGen edge root j) : ReflTransGen rest root j := by
  induction run with
  | refl => exact .refl
  | tail before last ih => exact ih.tail (edges _ _ before last)

/-- Where only edges to `i` are taken away and what `i` has edges to is reached all the same, nothing
but `i` is lost. -/
theorem reach_without (either : ∀ a b, edge a b → rest a b ∨ b = i)
    (onward : ∀ c, edge i c → c = i ∨ ReflTransGen rest root c) (run : ReflTransGen edge root j) :
    j = i ∨ ReflTransGen rest root j := by
  induction run with
  | refl => exact .inr .refl
  | @tail a b _ last ih =>
    rcases ih with rfl | reached
    · exact onward b last
    · rcases either a b last with kept | lost
      · exact .inr (reached.tail kept)
      · exact .inl lost

end Reach

end Transition

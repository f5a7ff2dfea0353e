import Mathlib.Data.List.Basic

/-! Labelled transition systems with silent steps, and forward simulations between them. -/

namespace Simulation

variable {α σ τ : Type*}

/-- A run, with the labels of the steps that have one. -/
inductive Run (step : σ → Option α → σ → Prop) (s : σ) : List α → σ → Prop
  | nil : Run step s [] s
  | silent {trace : List α} {t u : σ} (run : Run step s trace t) (last : step t none u) :
      Run step s trace u
  | visible {trace : List α} {t u : σ} {a : α} (run : Run step s trace t) (last : step t (some a) u) :
      Run step s (trace ++ [a]) u

section Runs

variable {step : σ → Option α → σ → Prop} {s t u : σ} {trace more : List α} {a : α}

theorem Run.trans (run : Run step s trace t) (rest : Run step t more u) :
    Run step s (trace ++ more) u := by
  induction rest with
  | nil => simpa using run
  | silent _ last ih => exact ih.silent last
  | visible _ last ih => simpa using ih.visible last

theorem Run.one (last : step s (some a) t) : Run step s [a] t := Run.nil.visible last

/-- A run can be cut where its trace is cut. -/
theorem Run.split (run : Run step s (trace ++ more) u) :
    ∃ t, Run step s trace t ∧ Run step t more u := by
  generalize joined : trace ++ more = whole at run
  induction run generalizing more with
  | nil =>
    obtain ⟨rfl, rfl⟩ := List.append_eq_nil_iff.mp joined
    exact ⟨s, .nil, .nil⟩
  | silent _ last ih =>
    obtain ⟨t, first, second⟩ := ih joined
    exact ⟨t, first, second.silent last⟩
  | @visible trace' t u a run last ih =>
    rcases List.eq_nil_or_concat more with rfl | ⟨front, b, rfl⟩
    · rw [List.append_nil] at joined
      exact ⟨u, joined ▸ run.visible last, .nil⟩
    · rw [List.concat_eq_append, ← List.append_assoc] at joined
      obtain ⟨same, label⟩ := List.append_inj' joined rfl
      obtain rfl := (List.cons.inj label).1
      obtain ⟨t, first, second⟩ := ih same
      rw [List.concat_eq_append]
      exact ⟨t, first, second.visible last⟩

/-- The step of a label, between silent ones. -/
theorem Run.single (run : Run step s [a] u) :
    ∃ t t', Run step s [] t ∧ step t (some a) t' ∧ Run step t' [] u := by
  generalize one : [a] = trace at run
  induction run with
  | nil => cases one
  | silent _ last ih =>
    obtain ⟨t, t', before, at_, after⟩ := ih one
    exact ⟨t, t', before, at_, after.silent last⟩
  | @visible trace t u b run last =>
    obtain ⟨rfl, rfl⟩ : trace = [] ∧ a = b := by
      cases trace with
      | nil => exact ⟨rfl, (List.cons.inj one).1⟩
      | cons => simp at one
    exact ⟨t, u, run, last, .nil⟩

/-- What every step with an admitted label preserves holds along every run of such labels. -/
theorem Run.invariant {I : σ → Prop} {A : α → Prop}
    (preserved : ∀ {s t a}, I s → (∀ x ∈ a, A x) → step s a t → I t) (h : I s)
    (run : Run step s trace t) (all : ∀ a ∈ trace, A a) : I t := by
  induction run with
  | nil => exact h
  | silent _ last ih => exact preserved (ih all) (by simp) last
  | visible _ last ih =>
    refine preserved (ih fun a inside => all a (List.mem_append_left _ inside)) (fun x is => ?_) last
    obtain rfl := Option.mem_some_iff.mp is
    exact all _ (by simp)

/-- Where every step takes a potential down and a label that counts takes it down by one, the labels
that count are no more than the potential at the start. -/
theorem Run.potential {I : σ → Prop} {A : α → Prop} {F : σ → Nat} {P : α → Bool}
    (falls : ∀ {s t a}, I s → (∀ x ∈ a, A x) → step s a t → I t ∧ F t + a.toList.countP P ≤ F s)
    (h : I s) (run : Run step s trace t) (all : ∀ a ∈ trace, A a) :
    I t ∧ F t + trace.countP P ≤ F s := by
  induction run with
  | nil => exact ⟨h, by simp⟩
  | silent _ last ih =>
    obtain ⟨inv, before⟩ := ih all
    obtain ⟨inv, now⟩ := falls inv (by simp) last
    exact ⟨inv, by simp at now; omega⟩
  | @visible _ _ _ a _ last ih =>
    obtain ⟨inv, before⟩ := ih fun a inside => all a (List.mem_append_left _ inside)
    obtain ⟨inv, now⟩ := falls inv (fun x is => by
      obtain rfl := Option.mem_some_iff.mp is
      exact all _ (by simp)) last
    rw [List.countP_append]
    exact ⟨inv, by simp only [Option.toList_some] at now; omega⟩

end Runs

/-- Where every step of one system is answered by a run of the other with the same label, every run is
answered by a run with the same trace. -/
theorem forward {step : σ → Option α → σ → Prop} {step' : τ → Option α → τ → Prop}
    {R : σ → τ → Prop}
    (answers : ∀ {s s' t a}, R s t → step s a s' → ∃ t', Run step' t a.toList t' ∧ R s' t')
    {s s' : σ} {t : τ} {trace : List α} (related : R s t) (run : Run step s trace s') :
    ∃ t', Run step' t trace t' ∧ R s' t' := by
  induction run with
  | nil => exact ⟨t, .nil, related⟩
  | silent _ last ih =>
    obtain ⟨t', before, now⟩ := ih
    obtain ⟨u', more, after⟩ := answers now last
    exact ⟨u', by simpa using before.trans more, after⟩
  | visible _ last ih =>
    obtain ⟨t', before, now⟩ := ih
    obtain ⟨u', more, after⟩ := answers now last
    exact ⟨u', before.trans more, after⟩

end Simulation

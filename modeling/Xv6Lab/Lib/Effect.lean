import Mathlib.Algebra.Group.Basic
import Xv6Lab.Lib.Exec

/-! Effects of stateful programs that add up.  An `Effect` relates the states before and after a
program by an amount; the amounts of programs that run one after the other are added.  `Has` says
that a program has an effect, by as much as its result tells, whenever it ends with a value, and its
rules follow the shape of the program. -/

namespace Exec

variable {ε σ α β G : Type} [AddCommGroup G]

/-- Changes of a state, by an amount. -/
structure Effect (σ G : Type) [AddCommGroup G] where
  rel : G → σ → σ → Prop
  zero : ∀ s, rel 0 s s
  add : ∀ {d e s t u}, rel d s t → rel e t u → rel (d + e) s u

namespace Effect

variable (R : Effect σ G)

/-- From every state, `x` that ends with `a` changes the state by `d a`. -/
def Has (x : EStateM ε σ α) (d : α → G) : Prop :=
  ∀ s, wp x (fun a t => R.rel (d a) s t) (fun _ _ => True) s

/-- The program changes the state by nothing. -/
def Neutral (x : EStateM ε σ α) : Prop := R.Has x fun _ => 0

variable {R} {x : EStateM ε σ α} {f : α → EStateM ε σ β} {d : α → G} {e : β → G}

theorem Has.ok {s t : σ} {a : α} (h : R.Has x d) (run : x s = .ok a t) : R.rel (d a) s t :=
  wp_ok (Q := fun a t => R.rel (d a) s t) (h s) run

theorem Has.congr {d' : α → G} (h : R.Has x d) (same : ∀ a, d a = d' a) : R.Has x d' := by
  obtain rfl : d = d' := funext same
  exact h

theorem has_pure {a : α} (nothing : d a = 0) : R.Has (pure a : EStateM ε σ α) d := by
  intro s
  rw [wp_pure, nothing]
  exact R.zero s

theorem neutral_pure {a : α} : R.Neutral (pure a : EStateM ε σ α) := has_pure rfl

theorem has_throw {err : ε} : R.Has (throw err : EStateM ε σ α) d := fun _ => trivial

/-- What is left of the effect after the first part is the effect of the second. -/
theorem Has.bind (first : R.Has x d) (then' : ∀ a, R.Has (f a) fun b => e b - d a) :
    R.Has (x >>= f) e := by
  intro s
  rw [wp_bind]
  refine wp_conseq (first s) fun a t before => wp_conseq (then' a t) fun b u after => ?_
  have sum := R.add before after
  rwa [add_sub_cancel] at sum

theorem Neutral.bind (first : R.Neutral x) (then' : ∀ a, R.Has (f a) e) : R.Has (x >>= f) e :=
  Has.bind first fun a => (then' a).congr fun b => (sub_zero (e b)).symm

theorem neutral_get : R.Neutral (get : EStateM ε σ σ) := R.zero

/-- A program that first looks at the state. -/
theorem has_get {f : σ → EStateM ε σ β} (then' : ∀ s, R.Has (f s) e) : R.Has (get >>= f) e :=
  Neutral.bind neutral_get then'

theorem neutral_modify {f : σ → σ} (same : ∀ s, R.rel 0 s (f s)) :
    R.Neutral (modify f : EStateM ε σ PUnit) := by
  intro s
  rw [wp_modify]
  exact same s

theorem neutral_forM {body : α → EStateM ε σ PUnit} (each : ∀ a, R.Neutral (body a))
    (l : List α) : R.Neutral (l.forM body) := by
  induction l with
  | nil => exact neutral_pure
  | cons a rest ih => exact Neutral.bind (each a) fun _ => ih

end Effect

end Exec

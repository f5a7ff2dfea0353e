import Xv6Lab.Lib.Exec

/-! Ways to stop that a program has not.  `Avoids bad x` says that `x` never stops with an error that
is `bad`, whatever state it runs from; its rules follow the shape of the program. -/

namespace Exec

variable {ε σ α β : Type} {bad : ε → Prop} {x : EStateM ε σ α} {f : α → EStateM ε σ β}

def Avoids (bad : ε → Prop) (x : EStateM ε σ α) : Prop :=
  ∀ s, wp x (fun _ _ => True) (fun e _ => ¬ bad e) s

theorem avoids_pure {a : α} : Avoids bad (pure a : EStateM ε σ α) := fun _ => trivial

theorem avoids_throw {e : ε} (other : ¬ bad e) : Avoids bad (throw e : EStateM ε σ α) :=
  fun _ => other

theorem avoids_modify {g : σ → σ} : Avoids bad (modify g : EStateM ε σ PUnit) := fun _ => trivial

theorem Avoids.bind (first : Avoids bad x) (then' : ∀ a, Avoids bad (f a)) :
    Avoids bad (x >>= f) := by
  intro s
  rw [wp_bind]
  exact wp_conseq (first s) fun a t _ => then' a t

theorem avoids_get {f : σ → EStateM ε σ β} (then' : ∀ s, Avoids bad (f s)) :
    Avoids bad (get >>= f) :=
  Avoids.bind (fun _ => trivial) then'

theorem avoids_forM {body : α → EStateM ε σ PUnit} (each : ∀ a, Avoids bad (body a)) (l : List α) :
    Avoids bad (l.forM body) := by
  induction l with
  | nil => exact avoids_pure
  | cons a rest ih => exact Avoids.bind (each a) fun _ => ih

end Exec

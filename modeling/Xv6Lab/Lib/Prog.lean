import Mathlib.Tactic.TypeStar

/-! Programs over a signature of commands: a program is a tree of commands, each with one
continuation for every reply.  `Rules` give the commands a meaning on the view that the running
party has of what it holds, and `wp` collects the conditions under which every command of a program
is used as its rule demands, whatever the replies are. -/

/-- Programs whose commands are `C`; command `c` is answered by an `R c`. -/
inductive Prog (C : Type) (R : C → Type) (α : Type) : Type
  | ret (a : α)
  | cmd (c : C) (k : R c → Prog C R α)

namespace Prog

variable {C : Type} {R : C → Type} {α β : Type}

protected def bind : Prog C R α → (α → Prog C R β) → Prog C R β
  | ret a, f => f a
  | cmd c k, f => cmd c fun r => (k r).bind f

instance : Monad (Prog C R) where
  pure := ret
  bind := Prog.bind

/-- The program of one command. -/
def call (c : C) : Prog C R (R c) := cmd c ret

/-- `body` once for every number below `n`. -/
def times : Nat → Prog C R Unit → Prog C R Unit
  | 0, _ => pure ()
  | n + 1, body => do body; times n body

/-- What a command demands of the view, which replies the view allows, and the view after one. -/
structure Rules (C : Type) (R : C → Type) (V : Type) where
  ok : C → V → Prop
  can : (c : C) → R c → V → Prop
  after : (c : C) → R c → V → V

section Wp

variable {V : Type} (rules : Rules C R V)

/-- Every run of the program from a view keeps the rules, and each that returns meets `Q`. -/
def wp : Prog C R α → (α → V → Prop) → V → Prop
  | ret a, Q, v => Q a v
  | cmd c k, Q, v => rules.ok c v ∧ ∀ r, rules.can c r v → (k r).wp Q (rules.after c r v)

@[simp] theorem wp_ret (a : α) (Q : α → V → Prop) (v : V) : (ret a).wp rules Q v = Q a v := rfl

@[simp] theorem wp_pure (a : α) (Q : α → V → Prop) (v : V) :
    (pure a : Prog C R α).wp rules Q v = Q a v := rfl

@[simp] theorem wp_call (c : C) (Q : R c → V → Prop) (v : V) :
    (call c).wp rules Q v = (rules.ok c v ∧ ∀ r, rules.can c r v → Q r (rules.after c r v)) := rfl

@[simp] theorem wp_bind (x : Prog C R α) (f : α → Prog C R β) (Q : β → V → Prop) :
    (x >>= f).wp rules Q = x.wp rules fun a => (f a).wp rules Q := by
  show (x.bind f).wp rules Q = _
  induction x with
  | ret a => rfl
  | cmd c k ih =>
    funext v
    simp only [Prog.bind, wp, ih]

theorem wp_mono {x : Prog C R α} {Q Q' : α → V → Prop} {v : V} (h : x.wp rules Q v)
    (weaker : ∀ a v, Q a v → Q' a v) : x.wp rules Q' v := by
  induction x generalizing v with
  | ret a => exact weaker a v h
  | cmd c k ih => exact ⟨h.1, fun r can => ih r (h.2 r can)⟩

/-- A loop keeps every invariant that its body keeps. -/
theorem wp_times {body : Prog C R Unit} {I : V → Prop} (kept : ∀ v, I v → body.wp rules (fun _ => I) v)
    (n : Nat) {v : V} (h : I v) : (times n body).wp rules (fun _ => I) v := by
  induction n generalizing v with
  | zero => exact h
  | succ n ih =>
    simp only [times, wp_bind]
    exact wp_mono rules (kept v h) fun _ _ => ih

end Wp

end Prog

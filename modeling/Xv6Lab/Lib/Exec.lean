import Mathlib.Tactic.TypeStar

/-! Weakest preconditions of stateful programs that may stop: `EStateM ε σ` runs from a state, and
ends with a value or stops with an `ε`, in either case in a state.  `wp x Q E s` says that `x`, run
from `s`, ends as `Q` allows or stops as `E` allows.  The rules follow the shape of a program, so a
proof peels it one statement at a time and uses the specification of each function it calls through
`wp_mono`. -/

namespace Exec

variable {ε σ α β : Type}

/-- Every way in which `x` can end from `s` is allowed. -/
def wp (x : EStateM ε σ α) (Q : α → σ → Prop) (E : ε → σ → Prop) (s : σ) : Prop :=
  match x s with
  | .ok a t => Q a t
  | .error e t => E e t

variable {Q : α → σ → Prop} {E : ε → σ → Prop} {s : σ}

@[simp] theorem wp_pure (a : α) : wp (pure a) Q E s = Q a s := rfl

@[simp] theorem wp_get {Q : σ → σ → Prop} : wp get Q E s = Q s s := rfl

@[simp] theorem wp_set {Q : PUnit → σ → Prop} (t : σ) : wp (set t) Q E s = Q ⟨⟩ t := rfl

@[simp] theorem wp_modify {Q : PUnit → σ → Prop} (f : σ → σ) :
    wp (modify f) Q E s = Q ⟨⟩ (f s) := rfl

@[simp] theorem wp_throw (e : ε) : wp (throw e) Q E s = E e s := rfl

@[simp] theorem wp_bind (x : EStateM ε σ α) (f : α → EStateM ε σ β) (Q : β → σ → Prop) :
    wp (x >>= f) Q E = wp x (fun a => wp (f a) Q E) E := by
  funext s
  show wp (EStateM.bind x f) Q E s = _
  unfold wp EStateM.bind
  cases x s <;> rfl

theorem wp_mono {x : EStateM ε σ α} {Q' : α → σ → Prop} {E' : ε → σ → Prop} (h : wp x Q E s)
    (value : ∀ a t, Q a t → Q' a t) (stop : ∀ e t, E e t → E' e t) : wp x Q' E' s := by
  unfold wp at h ⊢
  cases result : x s with
  | ok a t =>
    rw [result] at h
    exact value a t h
  | error e t =>
    rw [result] at h
    exact stop e t h

/-- The rule of consequence for the value alone. -/
theorem wp_conseq {x : EStateM ε σ α} {Q' : α → σ → Prop} (h : wp x Q E s)
    (value : ∀ a t, Q a t → Q' a t) : wp x Q' E s :=
  wp_mono h value fun _ _ stopped => stopped

/-- The precondition of a run that ends with a value. -/
theorem wp_value {x : EStateM ε σ α} {a : α} {t : σ} (run : x s = .ok a t) :
    wp x Q E s = Q a t := by
  rw [wp, run]

/-- The precondition of a run that stops. -/
theorem wp_stop {x : EStateM ε σ α} {e : ε} {t : σ} (run : x s = .error e t) :
    wp x Q E s = E e t := by
  rw [wp, run]

/-- What a precondition says about a run that ends with a value. -/
theorem wp_ok {x : EStateM ε σ α} {a : α} {t : σ} (h : wp x Q E s) (run : x s = .ok a t) :
    Q a t :=
  (wp_value run).mp h

/-- A precondition from the run itself. -/
theorem wp_of_run {x : EStateM ε σ α} (value : ∀ a t, x s = .ok a t → Q a t)
    (stop : ∀ e t, x s = .error e t → E e t) : wp x Q E s := by
  unfold wp
  cases run : x s with
  | ok a t => exact value a t run
  | error e t => exact stop e t run

/-- What a precondition says about a run that stops. -/
theorem wp_error {x : EStateM ε σ α} {e : ε} {t : σ} (h : wp x Q E s) (run : x s = .error e t) :
    E e t :=
  (wp_stop run).mp h

/-- Two preconditions of one run. -/
theorem wp_and {x : EStateM ε σ α} {Q' : α → σ → Prop} {E' : ε → σ → Prop} (h : wp x Q E s)
    (h' : wp x Q' E' s) : wp x (fun a t => Q a t ∧ Q' a t) (fun e t => E e t ∧ E' e t) s :=
  wp_of_run (fun _ _ run => ⟨wp_ok h run, wp_ok h' run⟩)
    fun _ _ run => ⟨wp_error h run, wp_error h' run⟩

/-- A run that is allowed exactly under a condition: it ends well if the condition holds, and
otherwise stops as it must not. -/
theorem wp_iff {x : EStateM ε σ α} {P : Prop} (h : wp x (fun a t => P ∧ Q a t)
    (fun e t => ¬ P ∧ ¬ E e t) s) : wp x Q E s ↔ P := by
  unfold wp at h ⊢
  cases result : x s with
  | ok a t =>
    rw [result] at h
    exact ⟨fun _ => h.1, fun _ => h.2⟩
  | error e t =>
    rw [result] at h
    exact ⟨fun allowed => absurd allowed h.2, fun p => absurd p h.1⟩

/-- A run of which every end is allowed or not as a condition says. -/
theorem wp_decides {x : EStateM ε σ α} {P : Prop} (h : wp x (fun a t => Q a t ↔ P)
    (fun e t => E e t ↔ P) s) : wp x Q E s ↔ P := by
  unfold wp at h ⊢
  cases result : x s with
  | ok a t =>
    rw [result] at h
    exact h
  | error e t =>
    rw [result] at h
    exact h

/-- Programs that run alike from `s`. -/
theorem wp_congr {x y : EStateM ε σ α} (same : x s = y s) : wp x Q E s = wp y Q E s := by
  unfold wp
  rw [same]

/-- A program that goes on as another does from another state. -/
theorem wp_goes {x y : EStateM ε σ α} {t : σ} (same : x s = y t) : wp x Q E s = wp y Q E t := by
  unfold wp
  rw [same]

/-- A run of a sequence, from the run of its first part. -/
theorem bind_ok {x : EStateM ε σ α} {f : α → EStateM ε σ β} {a : α} {t : σ} (run : x s = .ok a t) :
    (x >>= f) s = f a t := by
  show EStateM.bind x f s = _
  unfold EStateM.bind
  rw [run]

/-- A run that begins with a look at the state. -/
theorem bind_get {f : σ → EStateM ε σ β} : (get >>= f) s = f s s := rfl

/-- Sequences that begin alike and, wherever the beginning leads, go on alike. -/
theorem bind_alike {x : EStateM ε σ α} {f g : α → EStateM ε σ β}
    (same : ∀ a t, x s = .ok a t → f a t = g a t) : (x >>= f) s = (x >>= g) s := by
  show EStateM.bind x f s = EStateM.bind x g s
  unfold EStateM.bind
  cases first : x s with
  | ok a t => exact same a t first
  | error e t => rfl

/-- A run of a sequence that ends with a value is a run of its first part and of the rest. -/
theorem ok_of_bind {x : EStateM ε σ α} {f : α → EStateM ε σ β} {b : β} {u : σ}
    (run : (x >>= f) s = .ok b u) : ∃ a t, x s = .ok a t ∧ f a t = .ok b u := by
  change EStateM.bind x f s = _ at run
  unfold EStateM.bind at run
  cases first : x s with
  | ok a t =>
    rw [first] at run
    exact ⟨a, t, rfl, run⟩
  | error e t =>
    rw [first] at run
    cases run

/-- `x`, run from `s`, ends with a value, and as `Q` says. -/
def Yields (x : EStateM ε σ α) (Q : α → σ → Prop) (s : σ) : Prop := ∃ a t, x s = .ok a t ∧ Q a t

theorem yields_of_wp {x : EStateM ε σ α} (h : wp x Q (fun _ _ => False) s) : Yields x Q s := by
  unfold wp at h
  cases run : x s with
  | ok a t =>
    rw [run] at h
    exact ⟨a, t, run, h⟩
  | error e t =>
    rw [run] at h
    exact h.elim

theorem Yields.bind {x : EStateM ε σ α} {f : α → EStateM ε σ β} {Q : α → σ → Prop} {Q' : β → σ → Prop}
    (first : Yields x Q s) (rest : ∀ a t, Q a t → Yields (f a) Q' t) : Yields (x >>= f) Q' s := by
  obtain ⟨a, t, run, holds⟩ := first
  obtain ⟨b, u, run', holds'⟩ := rest a t holds
  exact ⟨b, u, (bind_ok run).trans run', holds'⟩

theorem yields_pure {a : α} (holds : Q a s) : Yields (pure a : EStateM ε σ α) Q s :=
  ⟨a, s, rfl, holds⟩

theorem yields_get {f : σ → EStateM ε σ α} (rest : Yields (f s) Q s) : Yields (get >>= f) Q s := rest

theorem yields_set {f : PUnit → EStateM ε σ α} {t : σ} (rest : Yields (f ⟨⟩) Q t) :
    Yields (set t >>= f) Q s := rest

theorem yields_modify {f : PUnit → EStateM ε σ α} {g : σ → σ} (rest : Yields (f ⟨⟩) Q (g s)) :
    Yields (modify g >>= f) Q s := rest

/-- A loop over a list keeps an invariant that speaks of what is left. -/
theorem wp_forM {body : β → EStateM ε σ PUnit} (I : List β → σ → Prop)
    (kept : ∀ b rest t, I (b :: rest) t → wp (body b) (fun _ => I rest) E t) (l : List β)
    (h : I l s) : wp (l.forM body) (fun _ => I []) E s := by
  induction l generalizing s with
  | nil => exact h
  | cons b rest ih =>
    show wp (body b >>= fun _ => rest.forM body) _ E s
    rw [wp_bind]
    exact wp_conseq (kept b rest s h) fun _ _ after => ih after

end Exec

import Mathlib.Logic.Function.Basic

/-! What a program asks of a log that commits when no operation is open: it begins an operation,
writes a block, or ends an operation, and operations may be nested.  The places of such a list of
acts at which no operation is open are those to which a crash can take the blocks back, so the lists
are sorted by how the number of open operations moves inside them. -/

namespace Journal

variable {β : Type*}

inductive Act (β : Type*)
  | begin
  | write (b : Nat) (data : β)
  | finish

/-- The operations that are open after the act. -/
def Act.depth (n : Nat) : Act β → Nat
  | begin => n + 1
  | write _ _ => n
  | finish => n - 1

/-- The blocks after the act. -/
def Act.content (blocks : Nat → β) : Act β → Nat → β
  | write b data => Function.update blocks b data
  | _ => blocks

def depth (n : Nat) (acts : List (Act β)) : Nat := acts.foldl Act.depth n

def content (blocks : Nat → β) (acts : List (Act β)) : Nat → β := acts.foldl Act.content blocks

section Runs

variable {n : Nat} {l m p : List (Act β)} {a : Act β} {blocks blocks' : Nat → β}

@[simp] theorem depth_nil : depth n ([] : List (Act β)) = n := rfl

@[simp] theorem depth_cons : depth n (a :: l) = depth (a.depth n) l := rfl

@[simp] theorem depth_append : depth n (l ++ m) = depth (depth n l) m := List.foldl_append

@[simp] theorem content_nil : content blocks ([] : List (Act β)) = blocks := rfl

@[simp] theorem content_append : content blocks (l ++ m) = content (content blocks l) m :=
  List.foldl_append

/-- What a block holds afterwards depends on what it held before and on nothing else. -/
theorem content_congr {b : Nat} (same : blocks b = blocks' b) :
    content blocks l b = content blocks' l b := by
  induction l generalizing blocks blocks' with
  | nil => exact same
  | cons a l ih =>
    apply ih
    cases a with
    | begin => exact same
    | finish => exact same
    | write c data =>
      by_cases here : b = c
      · rw [here, Act.content, Act.content, Function.update_self, Function.update_self]
      · rw [Act.content, Act.content, Function.update_of_ne here, Function.update_of_ne here, same]

end Runs

/-! ### Lists of acts -/

/-- With `n` operations open, every write is inside an operation. -/
def Allowed : Nat → List (Act β) → Prop
  | _, [] => True
  | n, .write b data :: l => 1 ≤ n ∧ Allowed ((Act.write b data).depth n) l
  | n, a :: l => Allowed (a.depth n) l

/-- Writes alone. -/
def Flat (l : List (Act β)) : Prop := ∀ a ∈ l, ∃ b data, a = .write b data

/-- Inside an operation, that operation stays open, and whatever is begun is ended. -/
def Stays (l : List (Act β)) : Prop :=
  ∀ n, 1 ≤ n → (∀ p, p <+: l → n ≤ depth n p) ∧ depth n l = n

/-- Inside an operation, the last act ends it. -/
def Closing (l : List (Act β)) : Prop := ∃ m, l = m ++ [.finish] ∧ Stays m

/-- What a call asks of the log: a whole operation, writes for the operation it is in, or the
beginning or the end of one. -/
inductive Shape : List (Act β) → Prop
  | whole {m : List (Act β)} (stays : Stays m) : Shape (.begin :: (m ++ [.finish]))
  | flat {l : List (Act β)} (flat : Flat l) : Shape l
  | begin : Shape [.begin]
  | finish : Shape [.finish]

section Lists

variable {n : Nat} {l m p : List (Act β)}

theorem Allowed.append (one : Allowed n l) (two : Allowed (depth n l) m) : Allowed n (l ++ m) := by
  induction l generalizing n with
  | nil => exact two
  | cons a l ih =>
    cases a with
    | begin => exact ih (n := n + 1) one two
    | finish => exact ih (n := n - 1) one two
    | write b data => exact ⟨one.1, ih (n := n) one.2 two⟩

theorem flat_nil : Flat ([] : List (Act β)) := fun _ inside => absurd inside List.not_mem_nil

theorem Flat.append (one : Flat l) (two : Flat m) : Flat (l ++ m) := fun a inside =>
  (List.mem_append.mp inside).elim (one a) (two a)

theorem Flat.part (flat : Flat l) (inside : p <+: l) : Flat p := fun a here =>
  flat a (inside.subset here)

theorem Flat.depth (flat : Flat l) : depth n l = n := by
  induction l with
  | nil => rfl
  | cons a l ih =>
    obtain ⟨b, data, rfl⟩ := flat a List.mem_cons_self
    exact ih fun c inside => flat c (List.mem_cons_of_mem _ inside)

/-- Outside of operations nothing is written. -/
theorem Flat.none (flat : Flat l) (allowed : Allowed 0 l) : l = [] := by
  cases l with
  | nil => rfl
  | cons a l =>
    obtain ⟨b, data, rfl⟩ := flat a List.mem_cons_self
    exact absurd allowed.1 (Nat.not_succ_le_zero 0)

theorem Flat.stays (flat : Flat l) : Stays l := fun _ _ =>
  ⟨fun _ inside => Nat.le_of_eq (flat.part inside).depth.symm, flat.depth⟩

/-- A beginning of two lists ends in the first or in the second. -/
theorem cut_append (inside : p <+: l ++ m) : p <+: l ∨ ∃ q, p = l ++ q ∧ q <+: m := by
  rcases List.prefix_or_prefix_of_prefix inside (List.prefix_append l m) with first | ⟨q, rfl⟩
  · exact .inl first
  · exact .inr ⟨q, rfl, (List.prefix_append_right_inj l).mp inside⟩

theorem Stays.append (one : Stays l) (two : Stays m) : Stays (l ++ m) := by
  intro n some
  refine ⟨fun p inside => ?_, ?_⟩
  · rcases cut_append inside with first | ⟨q, rfl, second⟩
    · exact (one n some).1 p first
    · rw [depth_append, (one n some).2]
      exact (two n some).1 q second
  · rw [depth_append, (one n some).2, (two n some).2]

/-- An operation inside another one. -/
theorem Stays.nested (stays : Stays l) : Stays (.begin :: (l ++ [.finish])) := by
  intro n some
  have closed : Journal.depth n (Act.begin :: (l ++ [.finish])) = n := by
    rw [depth_cons, depth_append, Act.depth, (stays (n + 1) (by omega)).2]
    exact Nat.add_sub_cancel n 1
  refine ⟨fun p inside => ?_, closed⟩
  rcases List.prefix_cons_iff.mp inside with rfl | ⟨q, rfl, rest⟩
  · exact Nat.le_refl n
  · rcases List.prefix_concat_iff.mp rest with rfl | within
    · exact Nat.le_of_eq closed.symm
    · have := (stays (n + 1) (by omega)).1 q within
      rw [depth_cons, Act.depth]
      omega

theorem Closing.append (one : Stays l) (two : Closing m) : Closing (l ++ m) := by
  obtain ⟨k, rfl, stays⟩ := two
  exact ⟨l ++ k, (List.append_assoc ..).symm, one.append stays⟩

/-- No operation is open in the middle of what a call asks. -/
theorem Shape.quiescent (shape : Shape l) (allowed : Allowed n l) (inside : p <+: l)
    (none : depth n p = 0) : p = [] ∨ p = l := by
  cases shape with
  | whole stays =>
    rcases List.prefix_cons_iff.mp inside with rfl | ⟨q, rfl, rest⟩
    · exact .inl rfl
    · rcases List.prefix_concat_iff.mp rest with rfl | within
      · exact .inr rfl
      · have := (stays (n + 1) (by omega)).1 q within
        rw [depth_cons, Act.depth] at none
        omega
  | flat flat =>
    rw [(flat.part inside).depth] at none
    subst none
    obtain rfl := flat.none allowed
    exact .inl (List.prefix_nil.mp inside)
  | begin =>
    rcases List.prefix_cons_iff.mp inside with rfl | ⟨q, rfl, rest⟩
    · exact .inl rfl
    · exact .inr (by rw [List.prefix_nil.mp rest])
  | finish =>
    rcases List.prefix_cons_iff.mp inside with rfl | ⟨q, rfl, rest⟩
    · exact .inl rfl
    · exact .inr (by rw [List.prefix_nil.mp rest])

end Lists

end Journal

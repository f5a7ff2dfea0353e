import Mathlib.Data.List.Induction
import Mathlib.Data.List.Nodup
import Mathlib.Logic.Function.Iterate

/-! Circular doubly linked lists with a head.  A node is an element or the head, `none`.  A list of
elements describes the links if at each of its cuts the two sides lead to each other: the last node
before the cut is followed by the first one behind it, and the head stands at both ends. -/

namespace Dll

variable {ι : Type*}

/-- The links of all nodes. -/
structure Links (ι : Type*) where
  next : Option ι → Option ι
  prev : Option ι → Option ι

/-- The elements in the order of `next` from the head on. -/
structure Lists (s : Links ι) (l : List ι) : Prop where
  nodup : l.Nodup
  next : ∀ front back, front ++ back = l → s.next front.getLast? = back.head?
  prev : ∀ front back, front ++ back = l → s.prev back.head? = front.getLast?

/-- `for (b = a; b != &head; b = link(b)) if (test(b)) ...`, for so many turns at most; `none` where
the loop does not end in time, and otherwise the element that passed the test. -/
def scan (link : Option ι → Option ι) (test : ι → Bool) : Nat → Option ι → Option (Option ι)
  | 0, _ => none
  | _ + 1, none => some none
  | turns + 1, some b => if test b then some (some b) else scan link test turns (link (some b))

section Updates

variable [DecidableEq ι]

def Links.setNext (s : Links ι) (a b : Option ι) : Links ι :=
  { s with next := Function.update s.next a b }

def Links.setPrev (s : Links ι) (a b : Option ι) : Links ι :=
  { s with prev := Function.update s.prev a b }

/-- `b->next->prev = b->prev; b->prev->next = b->next;` -/
def Links.unlink (s : Links ι) (b : Option ι) : Links ι :=
  let s := s.setPrev (s.next b) (s.prev b)
  s.setNext (s.prev b) (s.next b)

/-- `b->next = head.next; b->prev = &head; head.next->prev = b; head.next = b;` -/
def Links.insertFront (s : Links ι) (b : Option ι) : Links ι :=
  let s := s.setNext b (s.next none)
  let s := s.setPrev b none
  let s := s.setPrev (s.next none) b
  s.setNext none b

/-- `head.prev = &head; head.next = &head;` -/
def Links.clear (s : Links ι) : Links ι :=
  let s := s.setPrev none none
  s.setNext none none

end Updates

variable {s : Links ι} {l front back front' back' : List ι} {x : ι}

/-! ### Cuts -/

/-- Cuts at the same element are the same. -/
theorem front_unique (nodup : (front ++ back).Nodup) (same : front ++ back = front' ++ back')
    (last : front.getLast? = front'.getLast?) : front = front' := by
  rcases List.append_eq_append_iff.mp same with ⟨d, longer, rest⟩ | ⟨d, longer, rest⟩
  · cases d using List.reverseRecOn with
    | nil => rw [longer, List.append_nil]
    | append_singleton d c =>
      rw [longer, ← List.append_assoc, List.getLast?_concat] at last
      have inside := List.mem_of_getLast? last
      rw [rest] at nodup
      exact absurd rfl ((List.nodup_append.mp nodup).2.2 c inside c (by simp))
  · cases d using List.reverseRecOn with
    | nil => rw [longer, List.append_nil]
    | append_singleton d c =>
      rw [longer, ← List.append_assoc, List.getLast?_concat] at last
      have inside := List.mem_of_getLast? last.symm
      rw [same, rest] at nodup
      exact absurd rfl ((List.nodup_append.mp nodup).2.2 c inside c (by simp))

theorem back_unique (nodup : (front ++ back).Nodup) (same : front ++ back = front' ++ back')
    (first : back.head? = back'.head?) : back = back' := by
  have turned := congrArg List.reverse same
  rw [List.reverse_append, List.reverse_append] at turned
  have nodup' := List.nodup_reverse.mpr nodup
  rw [List.reverse_append] at nodup'
  refine List.reverse_injective (front_unique nodup' turned ?_)
  rwa [List.getLast?_reverse, List.getLast?_reverse]

/-! ### Reading -/

theorem Lists.inverse (lists : Lists s l) {a : Option ι} (node : ∀ i, a = some i → i ∈ l) :
    s.prev (s.next a) = a ∧ s.next (s.prev a) = a := by
  cases a with
  | none =>
    have first := lists.next [] l rfl
    have last := lists.prev l [] (List.append_nil l)
    constructor
    · exact (congrArg s.prev first).trans (lists.prev [] l rfl)
    · exact (congrArg s.next last).trans (lists.next l [] (List.append_nil l))
  | some i =>
    obtain ⟨front, back, rfl⟩ := List.append_of_mem (node i rfl)
    have split : (front ++ [i]) ++ back = front ++ i :: back := by simp
    constructor
    · have after := lists.next _ _ split
      have before := lists.prev _ _ split
      rw [List.getLast?_concat] at after before
      rw [after, before]
    · exact (congrArg s.next (lists.prev front (i :: back) rfl)).trans
        (lists.next front (i :: back) rfl)

/-- Following `next` from the head. -/
theorem Lists.iterate (lists : Lists s l) {k : Nat} (inside : k ≤ l.length) :
    s.next^[k] none = (l.take k).getLast? := by
  induction k with
  | zero => rfl
  | succ k ih =>
    rw [Function.iterate_succ_apply', ih (by omega),
      lists.next _ _ (List.take_append_drop k l), List.head?_drop, List.take_add_one,
      List.getElem?_eq_getElem inside, Option.toList_some, List.getLast?_concat]

/-- The loop along `next`. -/
theorem Lists.scan_next (lists : Lists s l) (test : ι → Bool) {turns : Nat}
    (split : front ++ back = l) (enough : back.length < turns) :
    scan s.next test turns back.head? = some (back.find? test) := by
  induction back generalizing front turns with
  | nil =>
    obtain ⟨turns, rfl⟩ := Nat.exists_eq_add_of_lt enough
    rfl
  | cons b back ih =>
    obtain ⟨turns, rfl⟩ : ∃ k, turns = k + 1 := ⟨turns - 1, by omega⟩
    rw [List.head?_cons, scan, List.find?_cons]
    cases test b with
    | true => rfl
    | false =>
      have split' : (front ++ [b]) ++ back = l := by simpa using split
      have onward := lists.next _ _ split'
      rw [List.getLast?_concat] at onward
      rw [if_neg Bool.false_ne_true, onward, ih split' (by simpa using enough)]

/-- The loop along `prev`. -/
theorem Lists.scan_prev (lists : Lists s l) (test : ι → Bool) {turns : Nat}
    (split : front ++ back = l) (enough : front.length < turns) :
    scan s.prev test turns front.getLast? = some (front.reverse.find? test) := by
  induction front using List.reverseRecOn generalizing back turns with
  | nil =>
    obtain ⟨turns, rfl⟩ := Nat.exists_eq_add_of_lt enough
    rfl
  | append_singleton front b ih =>
    rw [List.length_append, List.length_singleton] at enough
    obtain ⟨turns, rfl⟩ : ∃ k, turns = k + 1 := ⟨turns - 1, by omega⟩
    rw [List.getLast?_concat, scan, List.reverse_append, List.reverse_singleton,
      List.singleton_append, List.find?_cons]
    cases test b with
    | true => rfl
    | false =>
      have split' : front ++ b :: back = l := by simpa using split
      have onward := lists.prev _ _ split'
      rw [List.head?_cons] at onward
      rw [if_neg Bool.false_ne_true, onward, ih split' (by omega)]

/-! ### Surgery -/

section Surgery

variable [DecidableEq ι]

theorem lists_clear (s : Links ι) : Lists s.clear [] where
  nodup := List.nodup_nil
  next front back split := by
    obtain ⟨rfl, rfl⟩ := List.append_eq_nil_iff.mp split
    rfl
  prev front back split := by
    obtain ⟨rfl, rfl⟩ := List.append_eq_nil_iff.mp split
    rfl

/-- The links that `unlink` changes are those at the two sides of the element. -/
theorem Lists.unlink_links (lists : Lists s (front ++ x :: back)) :
    (s.unlink (some x)).next = Function.update s.next front.getLast? back.head? ∧
    (s.unlink (some x)).prev = Function.update s.prev back.head? front.getLast? := by
  have split : (front ++ [x]) ++ back = front ++ x :: back := by simp
  have after := lists.next _ _ split
  have before := lists.prev front (x :: back) rfl
  rw [List.getLast?_concat] at after
  rw [List.head?_cons] at before
  have other : some x ≠ back.head? := by
    intro same
    have inside := List.mem_of_head? same.symm
    exact (List.nodup_cons.mp (List.nodup_append.mp lists.nodup).2.1).1 inside
  unfold Links.unlink Links.setNext Links.setPrev
  dsimp only
  rw [after, before, Function.update_of_ne other, before]
  exact ⟨rfl, rfl⟩

/-- `unlink` takes the element out of the list. -/
theorem Lists.unlink (lists : Lists s (front ++ x :: back)) :
    Lists (s.unlink (some x)) (front ++ back) := by
  obtain ⟨next, prev⟩ := lists.unlink_links
  have nodup : (front ++ back).Nodup := by
    have whole := lists.nodup
    rw [List.nodup_middle] at whole
    exact (List.nodup_cons.mp whole).2
  -- a cut of the new list is one of the old list, before or behind the element
  have cuts : ∀ front' back', front' ++ back' = front ++ back → front' ≠ front →
      s.next front'.getLast? = back'.head? ∧ s.prev back'.head? = front'.getLast? := by
    intro front' back' split other
    rcases List.append_eq_append_iff.mp split with ⟨d, rfl, rfl⟩ | ⟨d, rfl, rfl⟩
    · have some' : d ≠ [] := fun empty => other (by rw [empty, List.append_nil])
      obtain ⟨c, d, rfl⟩ := List.exists_cons_of_ne_nil some'
      have old : front' ++ (c :: d ++ x :: back) = front' ++ c :: d ++ x :: back := by simp
      exact ⟨lists.next _ (c :: d ++ x :: back) old, lists.prev _ (c :: d ++ x :: back) old⟩
    · have some' : d ≠ [] := fun empty => other (by rw [empty, List.append_nil])
      have old : (front ++ x :: d) ++ back' = front ++ x :: (d ++ back') := by simp
      have last : (front ++ x :: d).getLast? = (front ++ d).getLast? := by
        rw [List.getLast?_append, List.getLast?_append, List.getLast?_cons_of_ne_nil some']
      have next' := lists.next _ _ old
      have prev' := lists.prev _ _ old
      rw [last] at next' prev'
      exact ⟨next', prev'⟩
  refine ⟨nodup, fun front' back' split => ?_, fun front' back' split => ?_⟩
  · rw [next]
    by_cases same : front' = front
    · subst same
      rw [Function.update_self, List.append_cancel_left split]
    · have other : front'.getLast? ≠ front.getLast? := fun last =>
        same (front_unique (split ▸ nodup) split last)
      rw [Function.update_of_ne other]
      exact (cuts front' back' split same).1
  · rw [prev]
    by_cases same : front' = front
    · subst same
      rw [List.append_cancel_left split, Function.update_self]
    · have other : back'.head? ≠ back.head? := fun first => by
        have backs := back_unique (split ▸ nodup) split first
        rw [backs] at split
        exact same (List.append_cancel_right split)
      rw [Function.update_of_ne other]
      exact (cuts front' back' split same).2

/-- `insertFront` puts a new element in front. -/
theorem Lists.insertFront (lists : Lists s l) (fresh : x ∉ l) :
    Lists (s.insertFront (some x)) (x :: l) := by
  have first := lists.next [] l rfl
  have nodup : (x :: l).Nodup := List.nodup_cons.mpr ⟨fresh, lists.nodup⟩
  have apart : l.head? ≠ some x := fun same => fresh (List.mem_of_head? same)
  have next : (s.insertFront (some x)).next =
      Function.update (Function.update s.next (some x) l.head?) none (some x) := by
    unfold Links.insertFront Links.setNext Links.setPrev
    exact congrArg (fun a => Function.update (Function.update s.next (some x) a) none (some x)) first
  have prev : (s.insertFront (some x)).prev =
      Function.update (Function.update s.prev (some x) none) l.head? (some x) := by
    unfold Links.insertFront Links.setNext Links.setPrev
    dsimp only
    rw [Function.update_of_ne (Option.some_ne_none x).symm]
    exact congrArg (fun a => Function.update (Function.update s.prev (some x) none) a (some x)) first
  have last : ∀ front : List ι, front ≠ [] → (x :: front).getLast? = front.getLast? :=
    fun front some' => List.getLast?_cons_of_ne_nil some'
  refine ⟨nodup, fun front back split => ?_, fun front back split => ?_⟩
  · rw [next]
    cases front with
    | nil =>
      obtain rfl : back = x :: l := split
      exact Function.update_self ..
    | cons y front =>
      obtain ⟨rfl, rest⟩ := List.cons.inj split
      rw [Function.update_of_ne (by simp)]
      by_cases alone : front = []
      · subst alone
        obtain rfl : back = l := rest
        exact Function.update_self ..
      · rw [last front alone, Function.update_of_ne, lists.next front back rest]
        intro same
        exact fresh (rest ▸ List.mem_append_left back (List.mem_of_getLast? same))
  · rw [prev]
    cases front with
    | nil =>
      obtain rfl : back = x :: l := split
      rw [List.head?_cons, Function.update_of_ne apart.symm, Function.update_self]
      rfl
    | cons y front =>
      obtain ⟨rfl, rest⟩ := List.cons.inj split
      by_cases alone : front = []
      · subst alone
        obtain rfl : back = l := rest
        exact Function.update_self ..
      · have other : back.head? ≠ l.head? := fun same => by
          have nodup : (front ++ back).Nodup := by
            rw [show front ++ back = l from rest]
            exact lists.nodup
          have backs := back_unique nodup (show front ++ back = [] ++ l from rest) same
          rw [backs] at rest
          exact alone (List.append_left_eq_self.mp rest)
        rw [last front alone, Function.update_of_ne other, Function.update_of_ne,
          lists.prev front back rest]
        intro same
        exact fresh (rest ▸ List.mem_append_right front (List.mem_of_head? same))

end Surgery

end Dll

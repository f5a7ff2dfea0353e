import Xv6Lab.Print.Numbers

/-! The two scanners of `printf.c` at the level of their index into the format.  A format is an
array with a zero behind its last character, and a read behind that zero is a fault. -/

namespace Xv6Lab.Print

/-- How a run ends other than by returning. -/
inductive Fault
  /-- A byte behind the terminating zero of the format was read. -/
  | beyond
  /-- A store left the buffer. -/
  | outside
  /-- What C leaves undefined: an argument of another type, a width that outgrows `int`, a number
  that outgrows its array. -/
  | undefined
  /-- The run has not ended yet. -/
  | fuel
  deriving DecidableEq, Repr

/-- `fmt[i] & 0xff` -/
def charAt (fmt : Bytes) (i : Nat) : Except Fault UInt8 :=
  match fmt[i]? with
  | some c => .ok c
  | none => if i = fmt.length then .ok 0 else .error .beyond

/-- `while (c >= '0' && c <= '9') { width = width * 10 + (c - '0'); c = fmt[++i] & 0xff; }` -/
def widthLoop (fmt : Bytes) : Nat → Nat → UInt8 → Nat → Except Fault (Nat × UInt8 × Nat)
  | 0, _, _, _ => .error .fuel
  | fuel + 1, i, c, width =>
    if isDigit c then do
      let next ← charAt fmt (i + 1)
      widthLoop fmt fuel (i + 1) next (width * 10 + (c.toNat - (code '0').toNat))
    else
      .ok (i, c, width)

/-- What both loops read behind the `%` at `i`, and where they are then; `none` is the `break` behind
an `l` that ends the format. -/
def directiveAt (fmt : Bytes) (i : Nat) : Except Fault (Nat × Option Directive) := do
  let c ← charAt fmt (i + 1)
  let padzero := c = code '0'
  let i := if padzero then i + 2 else i + 1
  let c ← charAt fmt i
  let (i, c, width) ← widthLoop fmt (fmt.length + 1) i c 0
  if c = code 'l' then
    let c ← charAt fmt (i + 1)
    if c = 0 then
      return (i + 1, none)
    else
      return (i + 1, some ⟨padzero, width, true, c⟩)
  else
    return (i, some ⟨padzero, width, false, c⟩)

/-- The loop of `vprintf`. -/
def vprintfAt (fmt : Bytes) : Nat → Nat → Args → Uart → Except Fault Uart
  | 0, _, _, _ => .error .fuel
  | fuel + 1, i, args, o => do
    let c ← charAt fmt i
    if c = 0 then
      return flushPrintfBuffer o
    else if c ≠ code '%' then
      vprintfAt fmt fuel (i + 1) args (bufferChar o c)
    else
      let o := flushPrintfBuffer o
      match ← directiveAt fmt i with
      | (_, none) => return flushPrintfBuffer o
      | (i, some d) =>
        if d.width < 2 ^ 31 then
          match printDirective d args o with
          | some (o, args) => vprintfAt fmt fuel (i + 1) args o
          | none => .error .undefined
        else
          .error .undefined

/-- `buf[pos] = c` -/
def storeAt (size : Nat) (buf : Cells) (pos : Nat) (c : UInt8) : Except Fault Cells :=
  match put size buf pos c with
  | some buf => .ok buf
  | none => .error .outside

/-- A loop that copies while `pos + 1 < size`. -/
def copyInto (size : Nat) : Cells → Nat → Bytes → Except Fault (Cells × Nat)
  | buf, pos, [] => .ok (buf, pos)
  | buf, pos, c :: s =>
    if pos + 1 < size then do
      let buf ← storeAt size buf pos c
      copyInto size buf (pos + 1) s
    else
      .ok (buf, pos)

/-- The padding, and the `nlen` bytes of `numbuf`. -/
def copyPadded (size : Nat) (d : Directive) (buf : Cells) (pos : Nat) (numbuf : Bytes) :
    Except Fault (Cells × Nat) := do
  let (buf, pos) ← copyInto size buf pos
    (List.replicate (d.width - numbuf.length) (padding d.padzero))
  copyInto size buf pos numbuf

/-- The `switch` of `vsnprintf` after `va_arg`, and the stores behind it. -/
def copyPiece (size : Nat) (buf : Cells) (pos : Nat) : Piece → Except Fault (Cells × Nat)
  | .lit c => do return (← storeAt size buf pos c, pos + 1)
  | .num d radix x =>
    match intToStr x radix.base radix.sign with
    | some numbuf => copyPadded size d buf pos numbuf
    | none => .error .undefined
  | .chr d c => copyPadded size d buf pos [c]
  | .text _ s => copyInto size buf pos s
  | .percent d => copyPadded size d buf pos [code '%']
  | .other d => copyPadded size d buf pos [code '%', d.c]

/-- `buf[pos] = '\0'` at the end of `vsnprintf`. -/
def terminate (size : Nat) (buf : Cells) (pos : Nat) : Except Fault (Cells × Nat) := do
  return (← storeAt size buf pos 0, pos)

/-- The loop of `vsnprintf`: the buffer, and the index of its last zero. -/
def vsnprintfAt (size : Nat) (fmt : Bytes) :
    Nat → Nat → Args → Cells → Nat → Except Fault (Cells × Nat)
  | 0, _, _, _, _ => .error .fuel
  | fuel + 1, i, args, buf, pos => do
    let c ← charAt fmt i
    if c ≠ 0 ∧ pos + 1 < size then
      if c ≠ code '%' then
        let (buf, pos) ← copyPiece size buf pos (.lit c)
        vsnprintfAt size fmt fuel (i + 1) args buf pos
      else
        match ← directiveAt fmt i with
        | (_, none) => terminate size buf pos
        | (i, some d) =>
          if d.width < 2 ^ 31 then
            match fetch d args with
            | some (pc, args) =>
              let (buf, pos) ← copyPiece size buf pos pc
              vsnprintfAt size fmt fuel (i + 1) args buf pos
            | none => .error .undefined
          else
            .error .undefined
    else
      terminate size buf pos

/-! ### Positions in a format -/

/-- What is left of the format at an index. -/
def At (fmt : Bytes) (i : Nat) (s : Bytes) : Prop := ∃ front, fmt = front ++ s ∧ front.length = i

section Positions

variable {fmt s : Bytes} {i : Nat}

theorem at_zero (fmt : Bytes) : At fmt 0 fmt := ⟨[], rfl, rfl⟩

theorem At.next {c : UInt8} (here : At fmt i (c :: s)) : At fmt (i + 1) s := by
  obtain ⟨front, rfl, rfl⟩ := here
  refine ⟨front ++ [c], ?_, ?_⟩
  · rw [List.append_assoc, List.singleton_append]
  · rw [List.length_append, List.length_singleton]

theorem At.length (here : At fmt i s) : i + s.length = fmt.length := by
  obtain ⟨front, rfl, rfl⟩ := here
  rw [List.length_append]

theorem At.mem (here : At fmt i s) {c : UInt8} (inside : c ∈ s) : c ∈ fmt := by
  obtain ⟨front, rfl, -⟩ := here
  exact List.mem_append_right front inside

/-- A position reads its own character, or the zero at the end. -/
theorem charAt_eq (here : At fmt i s) : charAt fmt i = .ok (s.headD 0) := by
  obtain ⟨front, rfl, rfl⟩ := here
  unfold charAt
  cases s with
  | nil =>
    rw [List.append_nil, List.getElem?_eq_none (Nat.le_refl _)]
    exact if_pos rfl
  | cons c s =>
    rw [List.getElem?_append_right (Nat.le_refl _), Nat.sub_self]
    rfl

theorem charAt_beyond (far : fmt.length < i) : charAt fmt i = .error .beyond := by
  unfold charAt
  rw [List.getElem?_eq_none (by omega)]
  exact if_neg (by omega)

theorem At.drop (keep : UInt8 → Bool) : ∀ {i : Nat}, At fmt i s →
    At fmt (i + (s.takeWhile keep).length) (s.dropWhile keep) := by
  induction s with
  | nil => exact fun here => here
  | cons c s ih =>
    intro i here
    rw [List.takeWhile_cons, List.dropWhile_cons]
    split
    · have later := ih here.next
      rw [List.length_cons, show i + ((s.takeWhile keep).length + 1) =
        i + 1 + (s.takeWhile keep).length by omega]
      exact later
    · exact here

/-- The loop over the digits reads no further than the first character that is none. -/
theorem widthLoop_eq (s : Bytes) : ∀ {i fuel : Nat} (width : Nat), At fmt i s → s.length < fuel →
    widthLoop fmt fuel i (s.headD 0) width =
      .ok (i + (s.takeWhile isDigit).length, (s.dropWhile isDigit).headD 0,
        (s.takeWhile isDigit).foldl
          (fun width c => width * 10 + (c.toNat - (code '0').toNat)) width) := by
  induction s with
  | nil =>
    intro i fuel width _ enough
    obtain ⟨fuel, rfl⟩ := Nat.exists_eq_succ_of_ne_zero (Nat.ne_of_gt enough)
    rfl
  | cons c s ih =>
    intro i fuel width here enough
    rw [List.length_cons] at enough
    obtain ⟨fuel, rfl⟩ := Nat.exists_eq_succ_of_ne_zero (by omega : fuel ≠ 0)
    rw [widthLoop, List.takeWhile_cons, List.dropWhile_cons, List.headD_cons]
    split
    · rw [charAt_eq here.next]
      have rest := ih (width * 10 + (c.toNat - (code '0').toNat)) here.next
        (by omega : s.length < fuel)
      rw [List.length_cons, show i + ((s.takeWhile isDigit).length + 1) =
        i + 1 + (s.takeWhile isDigit).length by omega]
      exact rest
    · rfl

/-- Behind the flag and the width both loops look at one letter, or at two. -/
theorem directiveAt_eq {p : UInt8} (here : At fmt i (p :: s)) :
    ∃ j, At fmt j ((if s.head? = some (code '0') then s.tail else s).dropWhile isDigit) ∧
      directiveAt fmt i =
        (let after := if s.head? = some (code '0') then s.tail else s
        let letters := after.dropWhile isDigit
        let d : Bool → UInt8 → Directive := fun isLong c =>
          ⟨s.head? = some (code '0'), widthOf (after.takeWhile isDigit), isLong, c⟩
        if letters.headD 0 = code 'l' then
          if letters.tail.headD 0 = 0 then .ok (j + 1, none)
          else .ok (j + 1, some (d true (letters.tail.headD 0)))
        else
          .ok (j, some (d false (letters.headD 0)))) := by
  have flag : s.headD 0 = code '0' ↔ s.head? = some (code '0') := by
    cases s with
    | nil => exact iff_of_false (by decide) nofun
    | cons c s => simp
  have start : At fmt (if s.headD 0 = code '0' then i + 2 else i + 1)
      (if s.head? = some (code '0') then s.tail else s) := by
    by_cases zero : s.head? = some (code '0')
    · rw [if_pos (flag.mpr zero), if_pos zero]
      obtain ⟨s, rfl⟩ := List.head?_eq_some_iff.mp zero
      exact here.next.next
    · rw [if_neg (mt flag.mp zero), if_neg zero]
      exact here.next
  have few : (if s.head? = some (code '0') then s.tail else s).length < fmt.length + 1 := by
    have total := start.length
    omega
  have digits := start.drop isDigit
  have read := widthLoop_eq _ 0 start few
  have second := charAt_eq start
  unfold directiveAt
  rw [charAt_eq here.next]
  simp only [Except.bind, bind, pure, Except.pure]
  rw [second]
  dsimp only
  rw [read]
  simp only [flag] at digits ⊢
  refine ⟨_, digits, ?_⟩
  generalize (if s.head? = some (code '0') then s.tail else s) = after at digits ⊢
  generalize (if s.head? = some (code '0') then i + 2 else i + 1) +
    (after.takeWhile isDigit).length = j at digits ⊢
  generalize after.dropWhile isDigit = letters at digits ⊢
  by_cases long : letters.headD 0 = code 'l'
  · rw [if_pos long, if_pos long]
    cases letters with
    | nil => exact absurd long (by decide)
    | cons l letters =>
      rw [charAt_eq digits.next]
      dsimp only [List.tail_cons]
      by_cases ends : letters.headD 0 = 0
      · exact (if_pos ends).trans (if_pos ends).symm
      · exact (if_neg ends).trans (if_neg ends).symm
  · rw [if_neg long, if_neg long]
    rfl

/-- A complete directive is read up to its letter. -/
theorem directiveAt_scan {p : UInt8} {d : Directive} {s' : Bytes} (here : At fmt i (p :: s))
    (terminated : ∀ c ∈ s, c ≠ 0) (scans : scan s = some (d, s')) :
    ∃ j, directiveAt fmt i = .ok (j, some d) ∧ At fmt (j + 1) s' := by
  obtain ⟨j, letters, read⟩ := directiveAt_eq here
  have visible := terminated _ ((scan_letter scans).1 _ List.mem_cons_self)
  unfold scan at scans
  dsimp only at scans read
  rw [read]
  generalize (if s.head? = some (code '0') then s.tail else s) = after at letters scans ⊢
  generalize after.dropWhile isDigit = rest at letters scans ⊢
  cases rest with
  | nil => cases scans
  | cons l rest =>
    by_cases long : l = code 'l'
    · subst long
      cases rest with
      | nil => cases scans
      | cons c rest =>
        cases scans
        refine ⟨j + 1, ?_, letters.next.next⟩
        exact (if_pos rfl).trans (if_neg visible)
    · rw [if_neg (by simpa using long)] at scans
      cases scans
      refine ⟨j, ?_, letters.next⟩
      simp [long]

/-- The flag is a digit that adds nothing to the width. -/
theorem all_after (s : Bytes) :
    (if s.head? = some (code '0') then s.tail else s).all isDigit = s.all isDigit := by
  split
  · next zero =>
    obtain ⟨s, rfl⟩ := List.head?_eq_some_iff.mp zero
    rfl
  · rfl

theorem widthOf_after (s : Bytes) :
    widthOf (if s.head? = some (code '0') then s.tail else s) = widthOf s := by
  split
  · next zero =>
    obtain ⟨s, rfl⟩ := List.head?_eq_some_iff.mp zero
    rfl
  · rfl

/-- Where a directive is not complete, both loops go on behind the zero unless an `l` comes last. -/
theorem directiveAt_ends {p : UInt8} (here : At fmt i (p :: s)) (ends : scan s = none) :
    (s.all isDigit = true → ∃ d, directiveAt fmt i = .ok (fmt.length, some d) ∧ d.c = 0 ∧
      d.width = widthOf s) ∧
    (s.all isDigit = false → ∃ j, directiveAt fmt i = .ok (j, none)) := by
  obtain ⟨j, letters, read⟩ := directiveAt_eq here
  have same := all_after s
  have width := widthOf_after s
  unfold scan at ends
  dsimp only at ends read
  rw [read]
  generalize (if s.head? = some (code '0') then s.tail else s) = after at letters ends same width ⊢
  have whole := List.takeWhile_append_dropWhile (p := isDigit) (l := after)
  have few : after.dropWhile isDigit = [] ↔ after.all isDigit = true := by
    rw [List.dropWhile_eq_nil_iff, List.all_eq_true]
  generalize after.dropWhile isDigit = rest at letters ends whole few ⊢
  cases rest with
  | nil =>
    have all := few.mp rfl
    rw [List.append_nil] at whole
    refine ⟨fun _ => ⟨⟨s.head? = some (code '0'), widthOf (after.takeWhile isDigit), false, 0⟩, ?_,
      rfl, ?_⟩, fun some' => ?_⟩
    · have total := letters.length
      rw [List.length_nil, Nat.add_zero] at total
      rw [← total]
      exact if_neg (by decide)
    · exact (congrArg widthOf whole).trans width
    · rw [← same, all] at some'
      cases some'
  | cons l rest =>
    have notAll : after.all isDigit = false := by
      rw [← Bool.not_eq_true]
      exact mt few.mpr (by simp)
    refine ⟨fun all => ?_, fun _ => ?_⟩
    · rw [← same, notAll] at all
      cases all
    · by_cases long : l = code 'l'
      · subst long
        cases rest with
        | nil => exact ⟨_, rfl⟩
        | cons c rest => cases ends
      · rw [if_neg (by simpa using long)] at ends
        cases ends

end Positions

/-! ### The stores -/

section Stores

variable {size pos : Nat} {buf : Cells} {d : Directive} {pc : Piece} {b : Bytes}

/-- A copy loop that is full stays where it is, so two loops are one. -/
theorem copyInto_append (s t : Bytes) : ∀ (buf : Cells) (pos : Nat), copyInto size buf pos (s ++ t) =
    (copyInto size buf pos s).bind fun (buf, pos) => copyInto size buf pos t := by
  induction s with
  | nil => exact fun buf pos => rfl
  | cons c s ih =>
    intro buf pos
    rw [List.cons_append, copyInto, copyInto]
    split
    · cases storeAt size buf pos c with
      | error e => rfl
      | ok buf => exact ih buf (pos + 1)
    · next full =>
      show _ = copyInto size buf pos t
      cases t with
      | nil => rfl
      | cons c t => rw [copyInto, if_neg full]

/-- The copy is cut where the terminating zero has to go. -/
theorem copyInto_eq (s : Bytes) : ∀ (buf : Cells) {pos : Nat}, pos + 1 ≤ size →
    copyInto size buf pos s =
      .ok (fill buf pos (s.take (size - 1 - pos)), pos + (s.take (size - 1 - pos)).length) := by
  induction s with
  | nil =>
    intro buf pos _
    rw [List.take_nil]
    rfl
  | cons c s ih =>
    intro buf pos room
    rw [copyInto]
    split
    · next more =>
      obtain ⟨k, left⟩ := Nat.exists_eq_succ_of_ne_zero (show size - 1 - pos ≠ 0 by omega)
      have stored : storeAt size buf pos c = .ok (Function.update buf pos c) := by
        rw [storeAt, put, if_pos (by omega)]
      rw [stored, left, List.take_succ_cons, List.length_cons, fill]
      show copyInto size (Function.update buf pos c) (pos + 1) s = _
      rw [ih _ more, show size - 1 - (pos + 1) = k by omega,
        show pos + 1 + (s.take k).length = pos + ((s.take k).length + 1) by omega]
    · next full =>
      rw [show size - 1 - pos = 0 by omega, List.take_zero]
      rfl

theorem copyPadded_eq (numbuf : Bytes) : copyPadded size d buf pos numbuf =
    copyInto size buf pos
      (List.replicate (d.width - numbuf.length) (padding d.padzero) ++ numbuf) :=
  (copyInto_append ..).symm

/-- The stores of a piece are one copy loop. -/
theorem copyPiece_eq (room : pos + 1 < size) (stored : stores pc = some b) :
    copyPiece size buf pos pc = copyInto size buf pos b := by
  cases pc with
  | lit c =>
    cases stored
    rw [copyPiece, copyInto, if_pos room]
    cases storeAt size buf pos c <;> rfl
  | num d radix x =>
    simp only [stores] at stored
    split at stored
    · obtain ⟨numbuf, text, rfl⟩ := Option.map_eq_some_iff.mp stored
      rw [copyPiece, text]
      exact copyPadded_eq numbuf
    · cases stored
  | chr d c =>
    simp only [stores] at stored
    split at stored
    · cases stored
      exact copyPadded_eq [c]
    · cases stored
  | text d s =>
    simp only [stores] at stored
    split at stored
    · cases stored
      rfl
    · cases stored
  | percent d =>
    simp only [stores] at stored
    split at stored
    · cases stored
      exact copyPadded_eq [code '%']
    · cases stored
  | other d =>
    simp only [stores] at stored
    split at stored
    · cases stored
      exact copyPadded_eq [code '%', d.c]
    · cases stored

/-- Only a number can fail to be stored, and only when its digits do not fit. -/
theorem copyPiece_none (small : d.width < 2 ^ 31) (is : pc.directive = some d)
    (stored : stores pc = none) : copyPiece size buf pos pc = .error .undefined := by
  cases pc with
  | num d' radix x =>
    cases is
    simp only [stores, if_pos small, Option.map_eq_none_iff] at stored
    rw [copyPiece, stored]
  | lit c => cases is
  | chr d' c =>
    cases is
    rw [stores, if_pos small] at stored
    cases stored
  | text d' s =>
    cases is
    rw [stores, if_pos small] at stored
    cases stored
  | percent d' =>
    cases is
    rw [stores, if_pos small] at stored
    cases stored
  | other d' =>
    cases is
    rw [stores, if_pos small] at stored
    cases stored

/-- What `vsnprintf` can store, `vprintf` can print. -/
theorem emit_isSome (stored : stores pc = some b) (o : Uart) : (emit o pc).isSome := by
  cases pc with
  | lit c => rfl
  | num d radix x =>
    simp only [stores] at stored
    split at stored
    · next small =>
      obtain ⟨numbuf, text, -⟩ := Option.map_eq_some_iff.mp stored
      rw [emit, if_pos small, numText_of_stored text]
      rfl
    · cases stored
  | _ =>
    simp only [stores] at stored
    split at stored
    · next small =>
      rw [emit, if_pos small]
      rfl
    · cases stored

end Stores

/-! ### Arguments for a directive -/

/-- Zeros for a directive to take. -/
def anyArg (d : Directive) : Args :=
  if d.c = code 'd' ∨ d.c = code 'x' ∨ d.c = code 'u' ∨ d.c = code 'o' ∨ d.c = code 'b' then
    [if d.isLong then .long 0 else .int 0]
  else if d.c = code 'c' then [.int 0]
  else if d.c = code 's' then [.str none]
  else if d.c = code 'p' then [.ptr 0]
  else []

theorem vaNumber_zero {isLong : Bool} {extend : BitVec 32 → BitVec 64} (zero : extend 0 = 0)
    (args : Args) :
    vaNumber isLong extend ((if isLong then .long 0 else .int 0) :: args) = some (0, args) := by
  cases isLong
  · show some (extend 0, args) = some (0, args)
    rw [zero]
  · rfl

/-- A number directive takes a zero and stores it. -/
theorem number_any {d : Directive} {radix : Radix} {extend : BitVec 32 → BitVec 64}
    (zero : extend 0 = 0) (args : Args) (small : d.width < 2 ^ 31) :
    ∃ pc b, (do
      let (x, args) ← vaNumber d.isLong extend ([if d.isLong then .long 0 else .int 0] ++ args)
      return (Piece.num d radix x, args)) = some (pc, args) ∧ stores pc = some b := by
  have fits : (intToStr 0 radix.base radix.sign).isSome :=
    (intToStr_isSome radix 0).mpr fun _ => by decide
  obtain ⟨s, text⟩ := Option.isSome_iff_exists.mp fits
  refine ⟨.num d radix 0, List.replicate (d.width - s.length) (padding d.padzero) ++ s, ?_, ?_⟩
  · rw [List.singleton_append, vaNumber_zero zero]
    rfl
  · rw [stores, if_pos small, text]
    rfl

/-- Every directive finds arguments that it can take and store. -/
theorem fetch_anyArg (d : Directive) (args : Args) (small : d.width < 2 ^ 31) :
    ∃ pc b, fetch d (anyArg d ++ args) = some (pc, args) ∧ stores pc = some b := by
  unfold fetch anyArg
  by_cases d₁ : d.c = code 'd'
  · rw [if_pos d₁, if_pos (Or.inl d₁)]
    exact number_any (by decide) args small
  rw [if_neg d₁]
  by_cases x₁ : d.c = code 'x'
  · rw [if_pos x₁, if_pos (by simp [x₁])]
    exact number_any (by decide) args small
  rw [if_neg x₁]
  by_cases u₁ : d.c = code 'u'
  · rw [if_pos u₁, if_pos (by simp [u₁])]
    exact number_any (by decide) args small
  rw [if_neg u₁]
  by_cases o₁ : d.c = code 'o'
  · rw [if_pos o₁, if_pos (by simp [o₁])]
    exact number_any (by decide) args small
  rw [if_neg o₁]
  by_cases b₁ : d.c = code 'b'
  · rw [if_pos b₁, if_pos (by simp [b₁])]
    exact number_any (by decide) args small
  have number : ¬ (d.c = code 'd' ∨ d.c = code 'x' ∨ d.c = code 'u' ∨ d.c = code 'o' ∨
      d.c = code 'b') := by
    simp [d₁, x₁, u₁, o₁, b₁]
  rw [if_neg b₁, if_neg number]
  by_cases c₁ : d.c = code 'c'
  · rw [if_pos c₁, if_pos c₁]
    exact ⟨_, _, rfl, if_pos small⟩
  rw [if_neg c₁, if_neg c₁]
  by_cases s₁ : d.c = code 's'
  · rw [if_pos s₁, if_pos s₁]
    exact ⟨_, _, rfl, if_pos small⟩
  rw [if_neg s₁, if_neg s₁]
  by_cases p₁ : d.c = code 'p'
  · rw [if_pos p₁, if_pos p₁]
    exact ⟨_, _, rfl, if_pos small⟩
  rw [if_neg p₁, if_neg p₁]
  by_cases percent : d.c = code '%'
  · rw [if_pos percent]
    exact ⟨_, _, rfl, if_pos small⟩
  rw [if_neg percent]
  exact ⟨_, _, rfl, if_pos small⟩

/-! ### Runs -/

/-- The format ends behind a `%`, or in the flag or the width behind it. -/
inductive EndsInside : Bytes → Prop
  | here {s : Bytes} (digits : s.all isDigit = true) (small : widthOf s < 2 ^ 31) :
      EndsInside (code '%' :: s)
  | lit {c : UInt8} {s : Bytes} (plain : c ≠ code '%') (rest : EndsInside s) : EndsInside (c :: s)
  | directive {s s' : Bytes} {d : Directive} (scans : scan s = some (d, s'))
      (small : d.width < 2 ^ 31) (rest : EndsInside s') : EndsInside (code '%' :: s)

/-- A run that has ended, and that read no byte behind the format. -/
def Stops {α : Type} (run : Except Fault α) : Prop := run ≠ .error .beyond ∧ run ≠ .error .fuel

/-- `vprintf` stops at the end of the format, whatever the arguments are. -/
def PrintStops (fmt : Bytes) : Prop :=
  ∀ args o, ∃ n, ∀ fuel, n ≤ fuel → Stops (vprintfAt fmt fuel 0 args o)

/-- `vsnprintf` stops at the end of the format, whatever the arguments and the buffer are. -/
def StoreStops (fmt : Bytes) : Prop :=
  ∀ size args buf, ∃ n, ∀ fuel, n ≤ fuel → Stops (vsnprintfAt size fmt fuel 0 args buf 0)

theorem stops_ok {α : Type} (r : α) : Stops (.ok r : Except Fault α) := ⟨nofun, nofun⟩

theorem stops_undefined {α : Type} : Stops (.error .undefined : Except Fault α) := ⟨nofun, nofun⟩

theorem stops_terminate (size : Nat) (buf : Cells) (pos : Nat) : Stops (terminate size buf pos) := by
  unfold terminate storeAt
  cases put size buf pos 0 with
  | none => exact ⟨nofun, nofun⟩
  | some buf => exact ⟨nofun, nofun⟩

section Runs

variable {fmt s s' : Bytes} {i fuel : Nat} {d : Directive}

/-- What the loops know of the text behind an index. -/
structure Scanned (fmt : Bytes) (i : Nat) (s : Bytes) : Prop where
  here : At fmt i s
  terminated : ∀ c ∈ s, c ≠ 0

theorem Scanned.next {c : UInt8} (scanned : Scanned fmt i (c :: s)) : Scanned fmt (i + 1) s :=
  ⟨scanned.here.next, fun c inside => scanned.terminated c (List.mem_cons_of_mem _ inside)⟩

theorem Scanned.first {c : UInt8} (scanned : Scanned fmt i (c :: s)) : c ≠ 0 :=
  scanned.terminated c List.mem_cons_self

theorem Scanned.directive {p : UInt8} (scanned : Scanned fmt i (p :: s))
    (scans : scan s = some (d, s')) :
    ∃ j, directiveAt fmt i = .ok (j, some d) ∧ Scanned fmt (j + 1) s' := by
  obtain ⟨j, read, there⟩ := directiveAt_scan scanned.here scanned.next.terminated scans
  exact ⟨j, read, there, fun c inside => scanned.next.terminated c
    ((scan_letter scans).1 c (List.mem_cons_of_mem _ inside))⟩

/-! One turn of each loop. -/

theorem vprintfAt_end (scanned : Scanned fmt i []) (args : Args) (o : Uart) :
    vprintfAt fmt (fuel + 1) i args o = .ok (flushPrintfBuffer o) := by
  rw [vprintfAt, charAt_eq scanned.here]
  rfl

theorem vprintfAt_lit {c : UInt8} (scanned : Scanned fmt i (c :: s)) (plain : c ≠ code '%')
    (args : Args) (o : Uart) :
    vprintfAt fmt (fuel + 1) i args o = vprintfAt fmt fuel (i + 1) args (bufferChar o c) := by
  rw [vprintfAt, charAt_eq scanned.here]
  exact (if_neg scanned.first).trans (if_pos plain)

theorem vprintfAt_percent (scanned : Scanned fmt i (code '%' :: s)) {j : Nat}
    (read : directiveAt fmt i = .ok (j, some d)) (args : Args) (o : Uart) :
    vprintfAt fmt (fuel + 1) i args o =
      if d.width < 2 ^ 31 then
        match printDirective d args (flushPrintfBuffer o) with
        | some (o, args) => vprintfAt fmt fuel (j + 1) args o
        | none => .error .undefined
      else
        .error .undefined := by
  rw [vprintfAt, charAt_eq scanned.here]
  show (directiveAt fmt i).bind _ = _
  rw [read]
  rfl

theorem vprintfAt_break (scanned : Scanned fmt i (code '%' :: s)) {j : Nat}
    (read : directiveAt fmt i = .ok (j, none)) (args : Args) (o : Uart) :
    vprintfAt fmt (fuel + 1) i args o = .ok (flushPrintfBuffer (flushPrintfBuffer o)) := by
  rw [vprintfAt, charAt_eq scanned.here]
  show (directiveAt fmt i).bind _ = _
  rw [read]
  rfl

section Storing

variable {size pos : Nat} {buf : Cells}

theorem vsnprintfAt_end (scanned : Scanned fmt i []) (args : Args) :
    vsnprintfAt size fmt (fuel + 1) i args buf pos = terminate size buf pos := by
  rw [vsnprintfAt, charAt_eq scanned.here]
  rfl

theorem vsnprintfAt_full (scanned : Scanned fmt i s) (full : ¬ pos + 1 < size) (args : Args) :
    vsnprintfAt size fmt (fuel + 1) i args buf pos = terminate size buf pos := by
  rw [vsnprintfAt, charAt_eq scanned.here]
  exact if_neg (not_and_of_not_right _ full)

theorem vsnprintfAt_lit {c : UInt8} (scanned : Scanned fmt i (c :: s)) (plain : c ≠ code '%')
    (room : pos + 1 < size) (args : Args) :
    vsnprintfAt size fmt (fuel + 1) i args buf pos =
      vsnprintfAt size fmt fuel (i + 1) args (fill buf pos [c]) (pos + 1) := by
  have stored : copyPiece size buf pos (.lit c) = .ok (fill buf pos [c], pos + 1) := by
    rw [copyPiece, storeAt, put, if_pos (by omega)]
    rfl
  rw [vsnprintfAt, charAt_eq scanned.here]
  refine (if_pos ⟨scanned.first, room⟩).trans ((if_pos plain).trans ?_)
  rw [List.headD_cons, stored]
  rfl

theorem vsnprintfAt_percent (scanned : Scanned fmt i (code '%' :: s)) {j : Nat}
    (read : directiveAt fmt i = .ok (j, some d)) (room : pos + 1 < size) (args : Args) :
    vsnprintfAt size fmt (fuel + 1) i args buf pos =
      if d.width < 2 ^ 31 then
        match fetch d args with
        | some (pc, args) =>
          (copyPiece size buf pos pc).bind fun (buf, pos) =>
            vsnprintfAt size fmt fuel (j + 1) args buf pos
        | none => .error .undefined
      else
        .error .undefined := by
  rw [vsnprintfAt, charAt_eq scanned.here]
  refine (if_pos ⟨scanned.first, room⟩).trans ?_
  show (directiveAt fmt i).bind _ = _
  rw [read]
  rfl

theorem vsnprintfAt_break (scanned : Scanned fmt i (code '%' :: s)) {j : Nat}
    (read : directiveAt fmt i = .ok (j, none)) (room : pos + 1 < size) (args : Args) :
    vsnprintfAt size fmt (fuel + 1) i args buf pos = terminate size buf pos := by
  rw [vsnprintfAt, charAt_eq scanned.here]
  refine (if_pos ⟨scanned.first, room⟩).trans ?_
  show (directiveAt fmt i).bind _ = _
  rw [read]
  rfl

end Storing

/-! Whole runs. -/

/-- A format that ends outside its directives stops `vprintf`. -/
theorem vprintfAt_stops (fuel : Nat) : ∀ {s : Bytes} {i : Nat}, Scanned fmt i s → ¬ EndsInside s →
    s.length < fuel → ∀ args o, Stops (vprintfAt fmt fuel i args o) := by
  induction fuel with
  | zero => exact fun _ _ enough => absurd enough (Nat.not_lt_zero _)
  | succ fuel ih =>
    intro s i scanned whole enough args o
    cases s with
    | nil =>
      rw [vprintfAt_end scanned]
      exact stops_ok _
    | cons c s =>
      rw [List.length_cons] at enough
      by_cases plain : c = code '%'
      · subst plain
        cases scans : scan s with
        | some r =>
          obtain ⟨d, s'⟩ := r
          obtain ⟨j, read, later⟩ := scanned.directive scans
          have shorter := scan_length scans
          rw [vprintfAt_percent scanned read]
          split
          · next small =>
            cases printDirective d args (flushPrintfBuffer o) with
            | none => exact stops_undefined
            | some r => exact ih later (fun ends => whole (.directive scans small ends)) (by omega) _ _
          · exact stops_undefined
        | none =>
          obtain ⟨digits, letter⟩ := directiveAt_ends scanned.here scans
          cases all : s.all isDigit with
          | false =>
            obtain ⟨j, read⟩ := letter all
            rw [vprintfAt_break scanned read]
            exact stops_ok _
          | true =>
            obtain ⟨d, read, -, width⟩ := digits all
            rw [vprintfAt_percent scanned read]
            split
            · next small => exact absurd (.here all (width ▸ small)) whole
            · exact stops_undefined
      · rw [vprintfAt_lit scanned plain]
        exact ih scanned.next (fun ends => whole (.lit plain ends)) (by omega) _ _

theorem scan_digits (digits : s.all isDigit = true) : scan s = none := by
  have all : (if s.head? = some (code '0') then s.tail else s).all isDigit = true :=
    (all_after s).trans digits
  have none : (if s.head? = some (code '0') then s.tail else s).dropWhile isDigit = [] := by
    rw [List.dropWhile_eq_nil_iff]
    exact List.all_eq_true.mp all
  unfold scan
  dsimp only
  rw [none]
  rfl

/-- The directive that a zero ends is an unknown one, which takes no argument. -/
theorem fetch_zero (zero : d.c = 0) (args : Args) : fetch d args = some (.other d, args) := by
  unfold fetch
  rw [zero]
  rfl

/-- A format that ends inside a directive takes `vprintf` behind its terminating zero. -/
theorem vprintfAt_beyond (ends : EndsInside s) : ∃ args, ∀ {i fuel : Nat} (o : Uart),
    Scanned fmt i s → s.length + 1 < fuel → vprintfAt fmt fuel i args o = .error .beyond := by
  induction ends with
  | @here s digits small =>
    refine ⟨[], fun {i fuel} o scanned enough => ?_⟩
    obtain ⟨fuel, rfl⟩ := Nat.exists_eq_add_of_lt (show 1 < fuel by omega)
    obtain ⟨d, read, zero, width⟩ :=
      (directiveAt_ends scanned.here (scan_digits digits)).1 digits
    have narrow : d.width < 2 ^ 31 := width ▸ small
    rw [show 1 + fuel + 1 = fuel + 1 + 1 by omega, vprintfAt_percent scanned read,
      if_pos narrow, printDirective_eq o narrow (fetch_zero zero [])]
    simp only [emit, if_pos narrow, Option.map_some]
    rw [vprintfAt, charAt_beyond (Nat.lt_succ_self _)]
    rfl
  | lit plain rest ih =>
    obtain ⟨args, ih⟩ := ih
    refine ⟨args, fun {i fuel} o scanned enough => ?_⟩
    rw [List.length_cons] at enough
    obtain ⟨fuel, rfl⟩ := Nat.exists_eq_succ_of_ne_zero (by omega : fuel ≠ 0)
    rw [vprintfAt_lit scanned plain]
    exact ih _ scanned.next (by omega)
  | @directive s s' d scans small rest ih =>
    obtain ⟨args, ih⟩ := ih
    obtain ⟨pc, b, takes, stored⟩ := fetch_anyArg d args small
    refine ⟨anyArg d ++ args, fun {i fuel} o scanned enough => ?_⟩
    have shorter := scan_length scans
    rw [List.length_cons] at enough
    obtain ⟨fuel, rfl⟩ := Nat.exists_eq_succ_of_ne_zero (by omega : fuel ≠ 0)
    obtain ⟨j, read, later⟩ := scanned.directive scans
    obtain ⟨o', printed⟩ := Option.isSome_iff_exists.mp (emit_isSome stored o)
    rw [vprintfAt_percent scanned read, if_pos small, printDirective_eq o small takes, printed]
    exact ih o' later (by omega)

/-- A format that ends outside its directives stops `vsnprintf`. -/
theorem vsnprintfAt_stops {size : Nat} (fuel : Nat) : ∀ {s : Bytes} {i : Nat}, Scanned fmt i s →
    ¬ EndsInside s → s.length < fuel →
    ∀ args buf pos, Stops (vsnprintfAt size fmt fuel i args buf pos) := by
  induction fuel with
  | zero => exact fun _ _ enough => absurd enough (Nat.not_lt_zero _)
  | succ fuel ih =>
    intro s i scanned whole enough args buf pos
    by_cases room : pos + 1 < size
    · cases s with
      | nil =>
        rw [vsnprintfAt_end scanned]
        exact stops_terminate ..
      | cons c s =>
        rw [List.length_cons] at enough
        by_cases plain : c = code '%'
        · subst plain
          cases scans : scan s with
          | some r =>
            obtain ⟨d, s'⟩ := r
            obtain ⟨j, read, later⟩ := scanned.directive scans
            have shorter := scan_length scans
            rw [vsnprintfAt_percent scanned read room]
            split
            · next small =>
              cases takes : fetch d args with
              | none => exact stops_undefined
              | some r =>
                obtain ⟨pc, args⟩ := r
                cases stored : stores pc with
                | none =>
                  simp only [copyPiece_none small (fetch_directive takes) stored]
                  exact stops_undefined
                | some b =>
                  simp only [copyPiece_eq room stored, copyInto_eq b buf room.le]
                  exact ih later (fun ends => whole (.directive scans small ends)) (by omega) _ _ _
            · exact stops_undefined
          | none =>
            obtain ⟨digits, letter⟩ := directiveAt_ends scanned.here scans
            cases all : s.all isDigit with
            | false =>
              obtain ⟨j, read⟩ := letter all
              rw [vsnprintfAt_break scanned read room]
              exact stops_terminate ..
            | true =>
              obtain ⟨d, read, -, width⟩ := digits all
              rw [vsnprintfAt_percent scanned read room]
              split
              · next small => exact absurd (.here all (width ▸ small)) whole
              · exact stops_undefined
        · rw [vsnprintfAt_lit scanned plain room]
          exact ih scanned.next (fun ends => whole (.lit plain ends)) (by omega) _ _ _
    · rw [vsnprintfAt_full scanned room]
      exact stops_terminate ..

/-- A piece that has room. -/
theorem copyPiece_room {size pos : Nat} {buf : Cells} {pc : Piece} {b : Bytes}
    (stored : stores pc = some b) (first : pos + 1 < size) (room : pos + b.length < size) :
    copyPiece size buf pos pc = .ok (fill buf pos b, pos + b.length) := by
  rw [copyPiece_eq first stored, copyInto_eq b buf first.le, List.take_of_length_le (by omega)]

/-- With enough room for what it stores on the way, such a format takes `vsnprintf` behind its
terminating zero, too. -/
theorem vsnprintfAt_beyond (ends : EndsInside s) : ∃ args n, ∀ {size i fuel pos : Nat} (buf : Cells),
    Scanned fmt i s → s.length + 1 < fuel → pos + n < size →
      vsnprintfAt size fmt fuel i args buf pos = .error .beyond := by
  induction ends with
  | @here s digits small =>
    refine ⟨[], widthOf s + 3, fun {size i fuel pos} buf scanned enough room => ?_⟩
    obtain ⟨fuel, rfl⟩ := Nat.exists_eq_add_of_lt (show 1 < fuel by omega)
    obtain ⟨d, read, zero, width⟩ :=
      (directiveAt_ends scanned.here (scan_digits digits)).1 digits
    have narrow : d.width < 2 ^ 31 := width ▸ small
    have stored : stores (.other d) =
        some (List.replicate (d.width - 2) (padding d.padzero) ++ [code '%', d.c]) := if_pos narrow
    rw [show 1 + fuel + 1 = fuel + 1 + 1 by omega, vsnprintfAt_percent scanned read (by omega),
      if_pos narrow, fetch_zero zero []]
    dsimp only
    rw [copyPiece_room stored (by omega) (by simp; omega)]
    show vsnprintfAt size fmt (fuel + 1) (fmt.length + 1) _ _ _ = _
    rw [vsnprintfAt, charAt_beyond (Nat.lt_succ_self _)]
    rfl
  | @lit c s plain rest ih =>
    obtain ⟨args, n, ih⟩ := ih
    refine ⟨args, n + 2, fun {size i fuel pos} buf scanned enough room => ?_⟩
    rw [List.length_cons] at enough
    obtain ⟨fuel, rfl⟩ := Nat.exists_eq_succ_of_ne_zero (by omega : fuel ≠ 0)
    rw [vsnprintfAt_lit scanned plain (by omega)]
    exact ih _ scanned.next (by omega) (by omega)
  | @directive s s' d scans small rest ih =>
    obtain ⟨args, n, ih⟩ := ih
    obtain ⟨pc, b, takes, stored⟩ := fetch_anyArg d args small
    refine ⟨anyArg d ++ args, b.length + n + 2, fun {size i fuel pos} buf scanned enough room => ?_⟩
    have shorter := scan_length scans
    rw [List.length_cons] at enough
    obtain ⟨fuel, rfl⟩ := Nat.exists_eq_succ_of_ne_zero (by omega : fuel ≠ 0)
    obtain ⟨j, read, later⟩ := scanned.directive scans
    rw [vsnprintfAt_percent scanned read (by omega), if_pos small, takes]
    dsimp only
    rw [copyPiece_room stored (by omega) (by omega)]
    exact ih _ later (by omega) (by omega)

end Runs

/-- Both scanners stop at the end of the format exactly where it does not end inside a directive; an
`l` in front of the end is safe. -/
theorem scanners_stop_iff {fmt : Bytes} (terminated : ∀ c ∈ fmt, c ≠ 0) :
    (PrintStops fmt ↔ ¬ EndsInside fmt) ∧ (StoreStops fmt ↔ ¬ EndsInside fmt) := by
  have scanned : Scanned fmt 0 fmt := ⟨at_zero fmt, terminated⟩
  refine ⟨⟨fun stops ends => ?_, fun whole args o => ?_⟩, ⟨fun stops ends => ?_, fun whole => ?_⟩⟩
  · obtain ⟨args, beyond⟩ := @vprintfAt_beyond fmt fmt ends
    obtain ⟨n, stops⟩ := stops args ⟨[], []⟩
    exact (stops (n + fmt.length + 2) (by omega)).1 (beyond _ scanned (by omega))
  · exact ⟨fmt.length + 1, fun fuel enough => vprintfAt_stops fuel scanned whole enough args o⟩
  · obtain ⟨args, k, beyond⟩ := @vsnprintfAt_beyond fmt fmt ends
    obtain ⟨n, stops⟩ := stops (k + 1) args fun _ => 0
    exact (stops (n + fmt.length + 2) (by omega)).1 (beyond _ scanned (by omega) (by omega))
  · intro size args buf
    exact ⟨fmt.length + 1, fun fuel enough =>
      vsnprintfAt_stops fuel scanned whole enough args buf 0⟩

theorem hundred_ends : EndsInside ("100%".toList.map code) :=
  .lit (by decide) (.lit (by decide) (.lit (by decide) (.here (s := []) rfl (by decide))))

theorem number_ends : ¬ EndsInside ("%d".toList.map code) := by
  intro ends
  cases ends with
  | here digits small => exact absurd digits (by decide)
  | lit plain rest => exact absurd rfl plain
  | directive scans small rest =>
    cases scans
    cases rest

/-- `printf("100%")` reads on behind its format. -/
theorem printf_reads_beyond :
    vprintfAt ("100%".toList.map code) 6 0 [] ⟨[], []⟩ = .error .beyond ∧
    vsnprintfAt 64 ("100%".toList.map code) 6 0 [] (fun _ => 0) 0 = .error .beyond ∧
    ¬ ∀ fmt : Bytes, (∀ c ∈ fmt, c ≠ 0) → PrintStops fmt ∧ StoreStops fmt := by
  refine ⟨rfl, rfl, fun stop => ?_⟩
  have terminated : ∀ c ∈ "100%".toList.map code, c ≠ 0 := terminated_of_all (by decide)
  obtain ⟨args, beyond⟩ := vprintfAt_beyond hundred_ends
  obtain ⟨n, stops⟩ := (stop _ terminated).1 args ⟨[], []⟩
  exact (stops (n + 6) (by omega)).1
    (beyond _ ⟨at_zero _, terminated⟩ (show 4 + 1 < n + 6 by omega))

theorem scanners_stop_number :
    PrintStops ("%d".toList.map code) ∧ StoreStops ("%d".toList.map code) := by
  have stop := @scanners_stop_iff ("%d".toList.map code) (terminated_of_all (by decide))
  exact ⟨stop.1.mpr number_ends, stop.2.mpr number_ends⟩

end Xv6Lab.Print

import Mathlib.Algebra.Order.Ring.Nat
import Mathlib.Tactic.Ring
import Xv6Lab.Print.Pieces

/-! Where `printf` and `snprintf` agree.  The two interpreters differ in the padding of `%c` and
`%%`, in directives that they do not know and in the room for the digits of `%b`.  Once they have
parted they never meet again: what one of them is ahead by only changes its order. -/

namespace Xv6Lab.Print

/-! ### What the UART shows -/

/-- What has been sent, and what a flush would send. -/
def seen (o : Uart) : Bytes := o.sent ++ o.buffer.takeWhile (· ≠ 0)

/-- A buffer that a flush sends as a whole. -/
def Clean (o : Uart) : Prop := ∀ c ∈ o.buffer, c ≠ 0

theorem seen_of_clean {o : Uart} (clean : Clean o) : seen o = o.sent ++ o.buffer := by
  rw [seen, takeWhile_all clean]

theorem clean_flush (o : Uart) : Clean (flushPrintfBuffer o) := by
  intro c inside
  cases inside

theorem seen_flush (o : Uart) : seen (flushPrintfBuffer o) = seen o := by
  simp [seen, flushPrintfBuffer, uartPuts]

theorem clean_bufferChar {o : Uart} {c : UInt8} (clean : Clean o) (visible : c ≠ 0) :
    Clean (bufferChar o c) := by
  unfold bufferChar
  split
  · intro x inside
    rcases List.mem_append.mp inside with old | new
    · exact clean x old
    · exact List.mem_singleton.mp new ▸ visible
  · intro x inside
    exact List.mem_singleton.mp inside ▸ visible

theorem seen_bufferChar {o : Uart} {c : UInt8} (clean : Clean o) (visible : c ≠ 0) :
    seen (bufferChar o c) = seen o ++ [c] := by
  rw [seen_of_clean (clean_bufferChar clean visible)]
  unfold bufferChar
  split
  · rw [seen_of_clean clean]
    simp
  · rw [← seen_flush]
    simp [seen, flushPrintfBuffer]

/-- A character may be lost behind a zero, but nothing in front of it. -/
theorem seen_prefix_bufferChar (o : Uart) (c : UInt8) : seen o <+: seen (bufferChar o c) := by
  unfold bufferChar
  split
  · simp only [seen, List.prefix_append_right_inj]
    rw [List.takeWhile_append]
    split
    · exact (List.takeWhile_prefix _).trans (List.prefix_append _ _)
    · exact List.prefix_rfl
  · rw [← seen_flush o]
    simp only [seen, flushPrintfBuffer, List.takeWhile_nil, List.append_nil]
    exact List.prefix_append _ _

theorem seen_uartPutc {o : Uart} {c : UInt8} (empty : o.buffer = []) :
    seen (uartPutc o c) = seen o ++ [c] := by
  simp [seen, uartPutc, empty]

theorem foldl_uartPutc (s : Bytes) :
    ∀ o : Uart, s.foldl uartPutc o = { o with sent := o.sent ++ s } := by
  induction s with
  | nil => simp
  | cons c s ih =>
    intro o
    rw [List.foldl_cons, ih]
    simp [uartPutc]

/-! ### The pieces of a format -/

/-- What `Reads` leaves in a piece of a format without zero bytes. -/
def Sound : Piece → Prop
  | .lit c => c ≠ 0
  | .text _ s => ∀ c ∈ s, c ≠ 0
  | .other d => d.c ≠ 0 ∧ d.c ≠ code '%' ∧ (d.isLong = false → isDigit d.c = false)
  | _ => True

theorem tail_mem {l : Bytes} (b : Prop) [Decidable b] {x : UInt8} (inside : x ∈ if b then l.tail else l) :
    x ∈ l := by
  split at inside
  · exact List.mem_of_mem_tail inside
  · exact inside

/-- A directive takes its letter from the format, and no digit unless behind an `l`. -/
theorem scan_letter {fmt fmt' : Bytes} {d : Directive} (scans : scan fmt = some (d, fmt')) :
    (∀ x ∈ d.c :: fmt', x ∈ fmt) ∧ (d.isLong = false → isDigit d.c = false) := by
  unfold scan at scans
  dsimp only at scans
  have flag : ∀ x ∈ if fmt.head? = some (code '0') then fmt.tail else fmt, x ∈ fmt :=
    fun x inside => tail_mem _ inside
  generalize (if fmt.head? = some (code '0') then fmt.tail else fmt) = after at scans flag
  have first := List.head?_dropWhile_not isDigit after
  have inside : ∀ x ∈ after.dropWhile isDigit, x ∈ fmt := fun x inside =>
    flag x ((List.dropWhile_sublist isDigit).subset inside)
  generalize after.dropWhile isDigit = letters at scans first inside
  split at scans
  · cases scans
  · next c rest is =>
    cases scans
    refine ⟨fun x at_ => inside x (tail_mem _ (is ▸ at_)), fun short => ?_⟩
    rw [if_neg (by simpa using short)] at is
    rw [is] at first
    exact first

theorem fetch_sound {d : Directive} {args args' : Args} {pc : Piece}
    (takes : fetch d args = some (pc, args')) (visible : d.c ≠ 0)
    (letter : d.isLong = false → isDigit d.c = false) : Sound pc := by
  unfold fetch at takes
  split_ifs at takes
  case pos | pos | pos | pos | pos =>
    obtain ⟨_, _, same⟩ := Option.bind_eq_some_iff.mp takes
    cases same
    trivial
  case pos =>
    obtain ⟨_, _, same⟩ := Option.bind_eq_some_iff.mp takes
    cases same
    trivial
  case pos =>
    obtain ⟨_, _, same⟩ := Option.bind_eq_some_iff.mp takes
    cases same
    intro c inside
    simpa using List.mem_takeWhile_imp inside
  case pos =>
    obtain ⟨_, _, same⟩ := Option.bind_eq_some_iff.mp takes
    cases same
    intro c inside
    rcases List.mem_append.mp inside with front | back
    · exact pointerMark_ne_zero c front
    · exact pointerDigits_ne_zero _ c back
  case pos =>
    cases takes
    trivial
  case neg percent =>
    cases takes
    exact ⟨visible, percent, letter⟩

theorem Reads.sound {fmt : Bytes} {args : Args} {ps : List Piece} (reads : Reads fmt args ps)
    (terminated : ∀ c ∈ fmt, c ≠ 0) : ∀ pc ∈ ps, Sound pc := by
  induction reads with
  | done args =>
    intro pc inside
    cases inside
  | lit plain rest ih =>
    intro pc inside
    rcases List.mem_cons.mp inside with rfl | later
    · exact terminated _ List.mem_cons_self
    · exact ih (fun c at_ => terminated c (List.mem_cons_of_mem _ at_)) pc later
  | directive scans takes rest ih =>
    intro pc inside
    obtain ⟨letters, letter⟩ := scan_letter scans
    rcases List.mem_cons.mp inside with rfl | later
    · exact fetch_sound takes
        (terminated _ (List.mem_cons_of_mem _ (letters _ List.mem_cons_self))) letter
    · exact ih (fun c at_ => terminated c
        (List.mem_cons_of_mem _ (letters c (List.mem_cons_of_mem _ at_)))) pc later

/-! ### Digits -/

theorem digitLoop_length_le {base : Nat} (fuel : Nat) :
    ∀ {k x : Nat}, x < base ^ (k + 1) → (digitLoop base fuel x).length ≤ k + 1 := by
  induction fuel with
  | zero => simp [digitLoop]
  | succ fuel ih =>
    intro k x below
    rw [digitLoop, List.length_cons]
    split
    · simp
    · next more =>
      cases k with
      | zero =>
        rw [zero_add, pow_one] at below
        exact absurd (Nat.div_eq_of_lt below) more
      | succ k =>
        have shorter := ih (Nat.div_lt_of_lt_mul (pow_succ' base (k + 1) ▸ below))
        omega

theorem lt_digitLoop_length {base : Nat} (positive : 0 < base) (fuel : Nat) :
    ∀ {k x : Nat}, base ^ k ≤ x → k < fuel → k < (digitLoop base fuel x).length := by
  induction fuel with
  | zero =>
    intro k x _ enough
    exact absurd enough (Nat.not_lt_zero k)
  | succ fuel ih =>
    intro k x above enough
    rw [digitLoop, List.length_cons]
    cases k with
    | zero => omega
    | succ k =>
      have next : base ^ k ≤ x / base := (Nat.le_div_iff_mul_le positive).mpr (pow_succ base k ▸ above)
      have nonzero : x / base ≠ 0 := Nat.ne_of_gt (Nat.lt_of_lt_of_le (Nat.pow_pos positive) next)
      rw [if_neg nonzero]
      have longer := ih next (by omega)
      omega

theorem digits_length_le {base k x : Nat} (below : x < base ^ (k + 1)) :
    (digits base x).length ≤ k + 1 :=
  digitLoop_length_le 64 below

def minus (radix : Radix) (x : BitVec 64) : Bytes :=
  if radix.sign && x.msb then [code '-'] else []

def magnitude (radix : Radix) (x : BitVec 64) : Nat :=
  if radix.sign && x.msb then (-x).toNat else x.toNat

theorem magnitude_lt (radix : Radix) (x : BitVec 64) : magnitude radix x < 2 ^ 64 := by
  unfold magnitude
  split <;> exact BitVec.isLt _

theorem minus_length_le (radix : Radix) (x : BitVec 64) : (minus radix x).length ≤ 1 := by
  unfold minus
  split <;> simp

theorem minus_reverse (radix : Radix) (x : BitVec 64) :
    (minus radix x).reverse = minus radix x := by
  unfold minus
  split <;> rfl

/-- What both converters make of a number, without padding. -/
def rendered (radix : Radix) (x : BitVec 64) : Bytes :=
  minus radix x ++ (digits radix.base (magnitude radix x)).reverse

theorem rendered_length (radix : Radix) (x : BitVec 64) : (rendered radix x).length =
    (digits radix.base (magnitude radix x)).length + (minus radix x).length := by
  rw [rendered, List.length_append, List.length_reverse, Nat.add_comm]

/-- Of all numbers only a binary one can outgrow an array of 32 bytes. -/
theorem rendered_length_le (radix : Radix) (x : BitVec 64) {k : Nat} (low : 22 ≤ k) (high : k < 64) :
    (rendered radix x).length ≤ k ↔ (radix = .bin → x.toNat < 2 ^ k) := by
  have small := magnitude_lt radix x
  have atMostOne := minus_length_le radix x
  rw [rendered_length]
  cases radix with
  | dec sign =>
    have few : (digits 10 (magnitude (.dec sign) x)).length ≤ 19 + 1 := digits_length_le (by omega)
    exact iff_of_true (Nat.le_trans (Nat.add_le_add few atMostOne) (by omega)) nofun
  | hex =>
    have few : (digits 16 (magnitude .hex x)).length ≤ 15 + 1 := digits_length_le (by omega)
    exact iff_of_true (Nat.le_trans (Nat.add_le_add few atMostOne) (by omega)) nofun
  | oct =>
    have few : (digits 8 (magnitude .oct x)).length ≤ 21 + 1 := digits_length_le (by omega)
    exact iff_of_true (Nat.le_trans (Nat.add_le_add few (Nat.le_refl 0)) (by omega)) nofun
  | bin =>
    show (digits 2 x.toNat).length + 0 ≤ k ↔ _
    constructor
    · intro room _
      by_contra large
      have long : k < (digitLoop 2 64 x.toNat).length :=
        lt_digitLoop_length (by decide) 64 (Nat.le_of_not_lt large) high
      unfold digits at room
      omega
    · intro short
      obtain ⟨n, rfl⟩ := Nat.exists_eq_succ_of_ne_zero (show k ≠ 0 by omega)
      exact digits_length_le (short rfl)

theorem intToStr_eq (radix : Radix) (x : BitVec 64) : intToStr x radix.base radix.sign =
    if (rendered radix x).length < 32 then some (rendered radix x) else none := by
  have length := rendered_length radix x
  show (if (digits radix.base (magnitude radix x)).length ≤ 32 ∧ (rendered radix x).length + 1 ≤ 32
    then some (rendered radix x) else none) = _
  by_cases fits : (rendered radix x).length < 32
  · rw [if_pos ⟨by omega, by omega⟩, if_pos fits]
  · rw [if_neg (by omega), if_neg fits]

theorem intToStr_isSome (radix : Radix) (x : BitVec 64) :
    (intToStr x radix.base radix.sign).isSome ↔ (radix = .bin → x.toNat < 2 ^ 31) := by
  rw [← rendered_length_le radix x (by decide) (by decide), intToStr_eq]
  split
  · next fits => exact iff_of_true rfl (by omega)
  · next large => exact iff_of_false nofun (by omega)

theorem numText_eq (d : Directive) (radix : Radix) (x : BitVec 64) : numText d radix x =
    if (rendered radix x).length ≤ 32 then
      some (List.replicate (d.width - (rendered radix x).length) (padding d.padzero) ++
        rendered radix x)
    else none := by
  have text : (digits radix.base (magnitude radix x) ++ minus radix x).reverse = rendered radix x := by
    rw [List.reverse_append, minus_reverse]
    rfl
  have length := congrArg List.length text
  rw [List.length_reverse] at length
  show (if (digits radix.base (magnitude radix x) ++ minus radix x).length ≤ 32 then some
    (List.replicate (d.width - (digits radix.base (magnitude radix x) ++ minus radix x).length)
      (padding d.padzero) ++ (digits radix.base (magnitude radix x) ++ minus radix x).reverse)
    else none) = _
  rw [text, length]

/-- What `vsnprintf` stores for a number is what `printint` sends. -/
theorem numText_of_stored {d : Directive} {radix : Radix} {x : BitVec 64} {s : Bytes}
    (stored : intToStr x radix.base radix.sign = some s) :
    numText d radix x = some (List.replicate (d.width - s.length) (padding d.padzero) ++ s) := by
  rw [intToStr_eq] at stored
  split at stored
  · next fits =>
    cases stored
    rw [numText_eq, if_pos fits.le]
  · cases stored

/-! ### Where the two agree -/

/-- A piece that both interpreters show alike. -/
def Plain : Piece → Prop
  | .lit _ => True
  | .num d radix x => d.width < 2 ^ 31 ∧ (radix = .bin → x.toNat < 2 ^ 31)
  | .chr d _ => d.width ≤ 1
  | .text d _ => d.width < 2 ^ 31
  | .percent d => d.width ≤ 1
  | .other d => d.padzero = false ∧ d.width = 0 ∧ d.isLong = false

def Blank (c : UInt8) : Prop := c = code ' ' ∨ c = code '0'

theorem blank_padding (padzero : Bool) : Blank (padding padzero) := by
  cases padzero
  · exact Or.inl rfl
  · exact Or.inr rfl

/-- The blanks that `vsnprintf` alone stores in front of a piece. -/
def pads : Piece → Bytes
  | .chr d _ => List.replicate (d.width - 1) (padding d.padzero)
  | .percent d => List.replicate (d.width - 1) (padding d.padzero)
  | _ => []

theorem blank_pads (pc : Piece) : ∀ c ∈ pads pc, Blank c := by
  cases pc with
  | chr d _ =>
    intro c inside
    exact (List.mem_replicate.mp inside).2 ▸ blank_padding d.padzero
  | percent d =>
    intro c inside
    exact (List.mem_replicate.mp inside).2 ▸ blank_padding d.padzero
  | _ =>
    intro c inside
    cases inside

/-- A directive that both know shows the same after the blanks. -/
theorem emit_of_stores {pc : Piece} {b : Bytes} (sound : Sound pc) (known : ∀ d, pc ≠ .other d)
    (stored : stores pc = some b) :
    ∃ a, b = pads pc ++ a ∧ ∀ o, Clean o →
      ∃ o', emit o pc = some o' ∧ Clean o' ∧ seen o' = seen o ++ a := by
  cases pc with
  | lit c =>
    cases stored
    exact ⟨[c], rfl, fun o clean =>
      ⟨_, rfl, clean_bufferChar clean sound, seen_bufferChar clean sound⟩⟩
  | num d radix x =>
    simp only [stores] at stored
    split at stored
    · next small =>
      obtain ⟨s, text, rfl⟩ := Option.map_eq_some_iff.mp stored
      refine ⟨_, rfl, fun o clean => ?_⟩
      simp only [emit, if_pos small, numText_of_stored text, Option.map_some, foldl_uartPutc]
      refine ⟨_, rfl, clean_flush o, ?_⟩
      rw [← seen_flush o]
      simp [seen, flushPrintfBuffer]
    · cases stored
  | chr d c =>
    simp only [stores] at stored
    split at stored
    · next small =>
      cases stored
      refine ⟨[c], rfl, fun o clean => ?_⟩
      simp only [emit, if_pos small]
      refine ⟨_, rfl, clean_flush o, ?_⟩
      rw [seen_uartPutc rfl, seen_flush]
    · cases stored
  | text d s =>
    simp only [stores] at stored
    split at stored
    · next small =>
      cases stored
      refine ⟨b, rfl, fun o clean => ?_⟩
      simp only [emit, if_pos small]
      refine ⟨_, rfl, clean_flush o, ?_⟩
      rw [← seen_flush o]
      simp only [seen, uartPuts, takeWhile_all sound]
      simp [flushPrintfBuffer, uartPuts]
    · cases stored
  | percent d =>
    simp only [stores] at stored
    split at stored
    · next small =>
      cases stored
      refine ⟨[code '%'], rfl, fun o clean => ?_⟩
      simp only [emit, if_pos small]
      refine ⟨_, rfl, clean_bufferChar (clean_flush o) (by decide), ?_⟩
      rw [seen_bufferChar (clean_flush o) (by decide), seen_flush]
    · cases stored
  | other d => exact absurd rfl (known d)

/-- What `vprintf` shows of a directive it does not know. -/
def marks (d : Directive) : Bytes :=
  [code '%'] ++ (if d.padzero then [code '0'] else []) ++
    (if d.width ≠ 0 then [UInt8.ofNat ((code '0').toNat + d.width)] else []) ++
    (if d.isLong then [code 'l'] else []) ++ [d.c]

section Other

variable {d : Directive} {o o' : Uart}

theorem bufferChar_if {b : Prop} [Decidable b] {c : UInt8} (clean : Clean o) (visible : b → c ≠ 0) :
    Clean (if b then bufferChar o c else o) ∧
      seen (if b then bufferChar o c else o) = seen o ++ if b then [c] else [] := by
  split
  · next yes => exact ⟨clean_bufferChar clean (visible yes), seen_bufferChar clean (visible yes)⟩
  · exact ⟨clean, (List.append_nil _).symm⟩

theorem seen_prefix_if (b : Prop) [Decidable b] (o : Uart) (c : UInt8) :
    seen o <+: seen (if b then bufferChar o c else o) := by
  split
  · exact seen_prefix_bufferChar o c
  · exact List.prefix_rfl

/-- It shows the `%` whatever comes behind it. -/
theorem other_front (emitted : emit o (.other d) = some o') : seen o ++ [code '%'] <+: seen o' := by
  simp only [emit] at emitted
  split at emitted
  · cases emitted
    rw [← seen_flush o, ← seen_bufferChar (clean_flush o) (by decide)]
    apply List.IsPrefix.trans (seen_prefix_if (d.padzero = true) _ _)
    apply List.IsPrefix.trans (seen_prefix_if (d.width ≠ 0) _ _)
    apply List.IsPrefix.trans (seen_prefix_if (d.isLong = true) _ _)
    exact seen_prefix_bufferChar _ _
  · cases emitted

/-- A width of one digit is shown. -/
theorem other_marks (sound : Sound (.other d)) (narrow : d.width ≤ 2)
    (emitted : emit o (.other d) = some o') : Clean o' ∧ seen o' = seen o ++ marks d := by
  have digit : d.width ≠ 0 → UInt8.ofNat ((code '0').toNat + d.width) ≠ 0 := by
    intro _
    have all : ∀ w ≤ 2, UInt8.ofNat ((code '0').toNat + w) ≠ 0 := by decide
    exact all d.width narrow
  simp only [emit] at emitted
  split at emitted
  · cases emitted
    have percent : Clean (bufferChar (flushPrintfBuffer o) (code '%')) :=
      clean_bufferChar (clean_flush o) (by decide)
    have flag := bufferChar_if (b := d.padzero = true) (c := code '0') percent (fun _ => by decide)
    have width := bufferChar_if flag.1 digit
    have long := bufferChar_if (b := d.isLong = true) (c := code 'l') width.1 (fun _ => by decide)
    refine ⟨clean_bufferChar long.1 sound.1, ?_⟩
    rw [seen_bufferChar long.1 sound.1, long.2, width.2, flag.2,
      seen_bufferChar (clean_flush o) (by decide), seen_flush]
    simp [marks]
  · cases emitted

end Other

/-! ### Once apart, always apart -/

section Apart

variable {ps : List Piece} {o o' : Uart} {b : Bytes}

theorem sent_prefix_flush (o : Uart) (s : Bytes) :
    seen o <+: seen { flushPrintfBuffer o with sent := (flushPrintfBuffer o).sent ++ s } := by
  rw [← seen_flush o]
  simp [seen, flushPrintfBuffer]

theorem emit_front {pc : Piece} (emitted : emit o pc = some o') : seen o <+: seen o' := by
  cases pc with
  | lit c =>
    cases emitted
    exact seen_prefix_bufferChar o c
  | num d radix x =>
    simp only [emit] at emitted
    split at emitted
    · obtain ⟨s, text, rfl⟩ := Option.map_eq_some_iff.mp emitted
      rw [foldl_uartPutc]
      exact sent_prefix_flush o s
    · cases emitted
  | chr d c =>
    simp only [emit] at emitted
    split at emitted
    · cases emitted
      exact sent_prefix_flush o [c]
    · cases emitted
  | text d s =>
    simp only [emit] at emitted
    split at emitted
    · cases emitted
      exact sent_prefix_flush o _
    · cases emitted
  | percent d =>
    simp only [emit] at emitted
    split at emitted
    · cases emitted
      rw [← seen_flush o]
      exact seen_prefix_bufferChar _ _
    · cases emitted
  | other d => exact (List.prefix_append _ _).trans (other_front emitted)

theorem emitAll_cons {pc : Piece} (emitted : emitAll (pc :: ps) o = some o') :
    ∃ o₁, emit o pc = some o₁ ∧ emitAll ps o₁ = some o' :=
  Option.bind_eq_some_iff.mp emitted

theorem storeAll_cons {pc : Piece} (stored : storeAll (pc :: ps) = some b) :
    ∃ b₁ b₂, stores pc = some b₁ ∧ storeAll ps = some b₂ ∧ b = b₁ ++ b₂ := by
  obtain ⟨b₁, first, stored⟩ := Option.bind_eq_some_iff.mp stored
  obtain ⟨b₂, rest, stored⟩ := Option.bind_eq_some_iff.mp stored
  cases stored
  exact ⟨b₁, b₂, first, rest, rfl⟩

theorem emitAll_prefix (ps : List Piece) :
    ∀ o : Uart, emitAll ps o = some o' → seen o <+: o'.sent := by
  induction ps with
  | nil =>
    intro o emitted
    cases emitted
    exact List.prefix_rfl
  | cons pc ps ih =>
    intro o emitted
    obtain ⟨o₁, first, rest⟩ := emitAll_cons emitted
    exact (emit_front first).trans (ih o₁ rest)

/-- What `vsnprintf` stores for a directive that it does not know. -/
theorem stores_other {d : Directive} {b : Bytes} (stored : stores (.other d) = some b) :
    b = List.replicate (d.width - 2) (padding d.padzero) ++ [code '%', d.c] := by
  simp only [stores] at stored
  split at stored
  · cases stored
    rfl
  · cases stored

theorem blank_replicate (n : Nat) (padzero : Bool) :
    ∀ c ∈ List.replicate n (padding padzero), Blank c := by
  intro c inside
  exact (List.mem_replicate.mp inside).2 ▸ blank_padding padzero

/-- What one list is ahead by moves behind what both share. -/
theorem slide {s t q a rest : Bytes} (front : s ++ a <+: t) (is : t = s ++ (q ++ (a ++ rest))) :
    ∃ q', q'.Perm q ∧ t = s ++ a ++ (q' ++ rest) := by
  rw [is, List.prefix_append_right_inj, ← List.append_assoc] at front
  have shorter : a.length ≤ (q ++ a).length := by
    rw [List.length_append]
    omega
  obtain ⟨q', same⟩ :=
    List.prefix_of_prefix_length_le front (List.prefix_append (q ++ a) rest) shorter
  refine ⟨q', (List.perm_append_left_iff a).mp ?_, ?_⟩
  · rw [same]
    exact List.perm_append_comm
  · rw [is, ← List.append_assoc q, ← same]
    simp only [List.append_assoc]

/-- Whether the piece is no unknown directive. -/
def Piece.known : Piece → Bool
  | .other _ => false
  | _ => true

/-- Once `snprintf` is ahead by blanks, it never stores what `printf` sends. -/
theorem behind (ps : List Piece) (sound : ∀ pc ∈ ps, Sound pc) :
    ∀ {o o' : Uart} {b q : Bytes}, Clean o → emitAll ps o = some o' → storeAll ps = some b →
      q ≠ [] → (∀ c ∈ q, Blank c) → o'.sent ≠ seen o ++ (q ++ b) := by
  induction ps with
  | nil =>
    intro o o' b q clean emitted stored nonempty blank same
    cases emitted
    cases stored
    rw [List.append_nil] at same
    exact nonempty (List.append_right_eq_self.mp same.symm)
  | cons pc ps ih =>
    intro o o' b q clean emitted stored nonempty blank same
    obtain ⟨o₁, first, rest⟩ := emitAll_cons emitted
    obtain ⟨b₁, b₂, store₁, store₂, rfl⟩ := storeAll_cons stored
    have further := emitAll_prefix ps o₁ rest
    cases known : pc.known with
    | false =>
      cases pc with
      | other d =>
        have percent := (other_front first).trans further
        rw [same, List.prefix_append_right_inj] at percent
        obtain ⟨c, q, rfl⟩ := List.exists_cons_of_ne_nil nonempty
        have is := (List.cons_prefix_cons.mp percent).1
        rcases blank c List.mem_cons_self with blank | zero
        · exact absurd (is.trans blank) (by decide)
        · exact absurd (is.trans zero) (by decide)
      | _ => cases known
    | true =>
      obtain ⟨a, rfl, shows⟩ := emit_of_stores (sound pc List.mem_cons_self)
        (fun d is => by rw [is] at known; cases known) store₁
      obtain ⟨o₂, second, clean₂, seen₂⟩ := shows o clean
      cases second.symm.trans first
      have regroup : o'.sent = seen o ++ (q ++ pads pc ++ (a ++ b₂)) := by
        rw [same]
        simp only [List.append_assoc]
      obtain ⟨q', perm, slid⟩ := slide (seen₂ ▸ further) regroup
      apply ih (fun pc inside => sound pc (List.mem_cons_of_mem _ inside)) clean₂ rest store₂
        (q := q')
      · intro none
        rw [none] at perm
        exact nonempty (List.append_eq_nil_iff.mp perm.symm.eq_nil).1
      · intro c inside
        rcases List.mem_append.mp (perm.mem_iff.mp inside) with old | pad
        · exact blank c old
        · exact blank_pads pc c pad
      · rw [slid, seen₂]

/-- Once `printf` is ahead by an `l`, `snprintf` never stores what it sends. -/
theorem ahead (ps : List Piece) (sound : ∀ pc ∈ ps, Sound pc) :
    ∀ {o o' : Uart} {b s q : Bytes}, Clean o → emitAll ps o = some o' → storeAll ps = some b →
      seen o = s ++ q → code 'l' ∈ q → code '%' ∉ q → o'.sent ≠ s ++ b := by
  induction ps with
  | nil =>
    intro o o' b s q clean emitted stored shown letter percent same
    cases emitted
    cases stored
    have all : s ++ q = s ++ [] := shown.symm.trans same
    rw [List.append_cancel_left all] at letter
    cases letter
  | cons pc ps ih =>
    intro o o' b s q clean emitted stored shown letter percent same
    obtain ⟨o₁, first, rest⟩ := emitAll_cons emitted
    obtain ⟨b₁, b₂, store₁, store₂, rfl⟩ := storeAll_cons stored
    have further := emitAll_prefix ps o₁ rest
    have notBlank : ¬ Blank (code 'l') := by
      rintro (space | zero)
      · exact absurd space (by decide)
      · exact absurd zero (by decide)
    cases known : pc.known with
    | false =>
      cases pc with
      | other d =>
        rw [stores_other store₁, List.append_assoc] at same
        have mine : q <+: List.replicate (d.width - 2) (padding d.padzero) ++ ([code '%', d.c] ++ b₂) := by
          have prefixed := (emit_front first).trans further
          rw [shown, same, List.prefix_append_right_inj] at prefixed
          exact prefixed
        rcases Nat.lt_or_ge (d.width - 2) q.length with longer | shorter
        · have at_ : (List.replicate (d.width - 2) (padding d.padzero) ++ [code '%']) <+: q := by
            apply List.prefix_of_prefix_length_le _ mine
            · rw [List.length_append, List.length_replicate, List.length_singleton]
              omega
            · rw [List.prefix_append_right_inj]
              exact ⟨[d.c] ++ b₂, rfl⟩
          exact percent (at_.subset (by simp))
        · have inside : q <+: List.replicate (d.width - 2) (padding d.padzero) := by
            apply List.prefix_of_prefix_length_le mine (List.prefix_append _ _)
            rw [List.length_replicate]
            exact shorter
          exact notBlank (blank_replicate _ _ _ (inside.subset letter))
      | _ => cases known
    | true =>
      obtain ⟨a, rfl, shows⟩ := emit_of_stores (sound pc List.mem_cons_self)
        (fun d is => by rw [is] at known; cases known) store₁
      obtain ⟨o₂, second, clean₂, seen₂⟩ := shows o clean
      cases second.symm.trans first
      rw [same, seen₂, shown, List.append_assoc, List.prefix_append_right_inj] at further
      rcases Nat.lt_or_ge q.length (pads pc).length with more | fewer
      · have inside : q <+: pads pc := by
          apply List.prefix_of_prefix_length_le ((List.prefix_append q a).trans further)
          · rw [List.append_assoc]
            exact List.prefix_append _ _
          · omega
        exact notBlank (blank_pads pc _ (inside.subset letter))
      · obtain ⟨q', both⟩ : pads pc ++ a <+: q ++ a := by
          apply List.prefix_of_prefix_length_le (List.prefix_append _ b₂) further
          rw [List.length_append, List.length_append]
          omega
        have count (c : UInt8) (absent : c ∉ pads pc) : q'.count c = q.count c := by
          have counts := congrArg (List.count c) both
          simp only [List.count_append, List.count_eq_zero_of_not_mem absent] at counts
          omega
        apply ih (fun pc inside => sound pc (List.mem_cons_of_mem _ inside)) clean₂ rest store₂
          (s := s ++ (pads pc ++ a)) (q := q')
        · rw [seen₂, shown, List.append_assoc, ← both]
          simp only [List.append_assoc]
        · rw [← List.count_pos_iff, count _ fun inside => notBlank (blank_pads pc _ inside)]
          exact List.count_pos_iff.mpr letter
        · rw [← List.count_eq_zero, count _ fun inside => ?_]
          · exact List.count_eq_zero.mpr percent
          · rcases blank_pads pc _ inside with space | zero
            · exact absurd space (by decide)
            · exact absurd zero (by decide)
        · rw [same]
          simp only [List.append_assoc]

theorem plain_of_stores {pc : Piece} (known : pc.known = true) (stored : stores pc = some b)
    (unpadded : pads pc = []) : Plain pc := by
  cases pc with
  | lit c => trivial
  | num d radix x =>
    simp only [stores] at stored
    split at stored
    · next small =>
      obtain ⟨t, text, -⟩ := Option.map_eq_some_iff.mp stored
      exact ⟨small, (intToStr_isSome radix x).mp (Option.isSome_of_eq_some text)⟩
    · cases stored
  | chr d c =>
    have none := (List.replicate_eq_nil_iff _).mp unpadded
    show d.width ≤ 1
    omega
  | text d s =>
    simp only [stores] at stored
    split at stored
    · next small => exact small
    · cases stored
  | percent d =>
    have none := (List.replicate_eq_nil_iff _).mp unpadded
    show d.width ≤ 1
    omega
  | other d => cases known

theorem stores_of_plain {pc : Piece} (plain : Plain pc) :
    ∃ b, stores pc = some b ∧ pads pc = [] := by
  cases pc with
  | lit c => exact ⟨_, rfl, rfl⟩
  | num d radix x =>
    obtain ⟨t, text⟩ := Option.isSome_iff_exists.mp ((intToStr_isSome radix x).mpr plain.2)
    simp only [stores, if_pos plain.1, text]
    exact ⟨_, rfl, rfl⟩
  | chr d c =>
    have narrow : d.width ≤ 1 := plain
    simp only [stores, if_pos (show d.width < 2 ^ 31 by omega), pads, Nat.sub_eq_zero_of_le narrow]
    exact ⟨_, rfl, rfl⟩
  | text d s =>
    simp only [stores, if_pos (show d.width < 2 ^ 31 from plain)]
    exact ⟨_, rfl, rfl⟩
  | percent d =>
    have narrow : d.width ≤ 1 := plain
    simp only [stores, if_pos (show d.width < 2 ^ 31 by omega), pads, Nat.sub_eq_zero_of_le narrow]
    exact ⟨_, rfl, rfl⟩
  | other d =>
    simp only [stores, plain.2.1]
    exact ⟨_, rfl, rfl⟩

/-- Both show a plain piece alike. -/
theorem plain_shows {pc : Piece} (sound : Sound pc) (plain : Plain pc) :
    ∃ a, stores pc = some a ∧ ∀ o, Clean o →
      ∃ o', emit o pc = some o' ∧ Clean o' ∧ seen o' = seen o ++ a := by
  obtain ⟨b, stored, unpadded⟩ := stores_of_plain plain
  refine ⟨b, stored, ?_⟩
  cases known : pc.known with
  | true =>
    obtain ⟨a, rfl, shows⟩ := emit_of_stores sound
      (fun d is => by rw [is] at known; cases known) stored
    rwa [unpadded, List.nil_append]
  | false =>
    cases pc with
    | other d =>
      intro o clean
      obtain ⟨flag, width, long⟩ := plain
      rw [stores_other stored, width]
      cases emitted : emit o (.other d) with
      | none => simp [emit, width] at emitted
      | some o' =>
        obtain ⟨clean', shown⟩ := other_marks sound (by omega) emitted
        refine ⟨o', rfl, clean', ?_⟩
        rw [shown]
        simp [marks, flag, width, long]
    | _ => cases known

/-- What `vprintf` alone shows of a directive it does not know. -/
def extra (d : Directive) : Bytes :=
  (if d.padzero then [code '0'] else []) ++
    (if d.width ≠ 0 then [UInt8.ofNat ((code '0').toNat + d.width)] else []) ++
    if d.isLong then [code 'l'] else []

theorem marks_eq (d : Directive) : marks d = code '%' :: (extra d ++ [d.c]) := by
  simp only [marks, extra, List.append_assoc]
  rfl

theorem digit_of_width {w : Nat} (narrow : w ≤ 2) :
    isDigit (UInt8.ofNat ((code '0').toNat + w)) = true := by
  have all : ∀ w ≤ 2, isDigit (UInt8.ofNat ((code '0').toNat + w)) = true := by decide
  exact all w narrow

theorem percent_not_extra {d : Directive} (narrow : d.width ≤ 2) : code '%' ∉ extra d := by
  intro inside
  rcases List.mem_append.mp inside with inside | inside
  · rcases List.mem_append.mp inside with inside | inside
    · split at inside
      · exact absurd (List.mem_singleton.mp inside) (by decide)
      · cases inside
    · split at inside
      · have digit := digit_of_width narrow
        rw [← List.mem_singleton.mp inside] at digit
        exact absurd digit (by decide)
      · cases inside
  · split at inside
    · exact absurd (List.mem_singleton.mp inside) (by decide)
    · cases inside

/-- Without an `l` a digit comes first, which the letter is not. -/
theorem long_of_extra {d : Directive} (sound : Sound (.other d)) (narrow : d.width ≤ 2)
    (apart : ¬ Plain (.other d)) {rest : Bytes} (front : extra d ++ [d.c] <+: d.c :: rest) :
    d.isLong = true := by
  by_contra short
  have short : d.isLong = false := by simpa using short
  have letter := sound.2.2 short
  unfold extra at front
  rw [short] at front
  by_cases flag : d.padzero = true
  · rw [if_pos flag] at front
    rw [← (List.cons_prefix_cons.mp front).1] at letter
    exact absurd letter (by decide)
  · rw [if_neg flag] at front
    by_cases width : d.width = 0
    · exact apart ⟨by simpa using flag, width, short⟩
    · rw [if_pos width] at front
      rw [← (List.cons_prefix_cons.mp front).1, digit_of_width narrow] at letter
      cases letter

/-- An unknown directive with a flag, a width or a length parts the two. -/
theorem other_apart {d : Directive} (sound : Sound (.other d)) (apart : ¬ Plain (.other d))
    {o₁ : Uart} {b₁ : Bytes} (emitted : emit o (.other d) = some o₁)
    (stored : stores (.other d) = some b₁) (further : seen o₁ <+: seen o ++ (b₁ ++ b)) :
    Clean o₁ ∧ ∃ q, seen o₁ = seen o ++ b₁ ++ q ∧ code 'l' ∈ q ∧ code '%' ∉ q := by
  have first := (other_front emitted).trans further
  rw [List.prefix_append_right_inj] at first
  rw [stores_other stored] at first further ⊢
  rcases Nat.lt_or_ge 2 d.width with wide | narrow
  · obtain ⟨n, more⟩ := Nat.exists_eq_succ_of_ne_zero (show d.width - 2 ≠ 0 by omega)
    rw [more, List.replicate_succ] at first
    have is := (List.cons_prefix_cons.mp first).1
    rcases blank_padding d.padzero with blank | zero
    · exact absurd (is.trans blank) (by decide)
    · exact absurd (is.trans zero) (by decide)
  · obtain ⟨clean, shown⟩ := other_marks sound narrow emitted
    rw [shown, marks_eq, Nat.sub_eq_zero_of_le narrow, List.prefix_append_right_inj] at further
    have front : extra d ++ [d.c] <+: d.c :: b := (List.cons_prefix_cons.mp further).2
    obtain ⟨q, both⟩ : [d.c] <+: extra d ++ [d.c] := by
      apply List.prefix_of_prefix_length_le (List.prefix_append [d.c] b) front
      simp
    have perm : q.Perm (extra d) := by
      apply (List.perm_append_left_iff [d.c]).mp
      rw [both]
      exact List.perm_append_comm
    have long := long_of_extra sound narrow apart front
    refine ⟨clean, q, ?_, perm.mem_iff.mpr ?_, fun inside => percent_not_extra narrow (perm.mem_iff.mp inside)⟩
    · rw [shown, marks_eq, ← both, Nat.sub_eq_zero_of_le narrow]
      simp
    · simp [extra, long]

/-- Where they agree, every piece is plain. -/
theorem agrees_plain (ps : List Piece) (sound : ∀ pc ∈ ps, Sound pc) :
    ∀ {o o' : Uart} {b : Bytes}, Clean o → emitAll ps o = some o' → storeAll ps = some b →
      o'.sent = seen o ++ b → ∀ pc ∈ ps, Plain pc := by
  induction ps with
  | nil =>
    intro o o' b _ _ _ _ pc inside
    cases inside
  | cons pc ps ih =>
    intro o o' b clean emitted stored same
    obtain ⟨o₁, first, rest⟩ := emitAll_cons emitted
    obtain ⟨b₁, b₂, store₁, store₂, rfl⟩ := storeAll_cons stored
    have further := emitAll_prefix ps o₁ rest
    have soundHead := sound pc List.mem_cons_self
    have soundTail : ∀ pc ∈ ps, Sound pc := fun pc inside =>
      sound pc (List.mem_cons_of_mem _ inside)
    by_cases plain : Plain pc
    · obtain ⟨a, stores_a, shows⟩ := plain_shows soundHead plain
      cases stores_a.symm.trans store₁
      obtain ⟨o₂, second, clean₂, seen₂⟩ := shows o clean
      cases second.symm.trans first
      rw [← List.append_assoc, ← seen₂] at same
      intro other inside
      rcases List.mem_cons.mp inside with rfl | later
      · exact plain
      · exact ih soundTail clean₂ rest store₂ same other later
    · exfalso
      cases known : pc.known with
      | true =>
        obtain ⟨a, rfl, shows⟩ := emit_of_stores soundHead
          (fun d is => by rw [is] at known; cases known) store₁
        obtain ⟨o₂, second, clean₂, seen₂⟩ := shows o clean
        cases second.symm.trans first
        rw [List.append_assoc] at same
        obtain ⟨q, perm, slid⟩ := slide (seen₂ ▸ further) same
        apply behind ps soundTail clean₂ rest store₂ (q := q)
        · intro none
          rw [none] at perm
          exact plain (plain_of_stores known store₁ perm.symm.eq_nil)
        · intro c inside
          exact blank_pads pc c (perm.mem_iff.mp inside)
        · rw [slid, seen₂]
      | false =>
        cases pc with
        | other d =>
          obtain ⟨clean₁, q, shown, letter, percent⟩ :=
            other_apart soundHead plain first store₁ (same ▸ further)
          apply ahead ps soundTail clean₁ rest store₂ shown letter percent
          rw [same, List.append_assoc]
        | _ => cases known

theorem plain_agrees (ps : List Piece) (sound : ∀ pc ∈ ps, Sound pc) (plain : ∀ pc ∈ ps, Plain pc) :
    ∀ {o : Uart}, Clean o →
      ∃ o' b, emitAll ps o = some o' ∧ storeAll ps = some b ∧ o'.sent = seen o ++ b := by
  induction ps with
  | nil =>
    intro o clean
    exact ⟨_, _, rfl, rfl, (List.append_nil _).symm⟩
  | cons pc ps ih =>
    intro o clean
    obtain ⟨a, stored, shows⟩ :=
      plain_shows (sound pc List.mem_cons_self) (plain pc List.mem_cons_self)
    obtain ⟨o₁, first, clean₁, seen₁⟩ := shows o clean
    obtain ⟨o', b, rest, store, same⟩ := ih (fun pc inside => sound pc (List.mem_cons_of_mem _ inside))
      (fun pc inside => plain pc (List.mem_cons_of_mem _ inside)) clean₁
    refine ⟨o', a ++ b, ?_, ?_, ?_⟩
    · simp only [emitAll, first, Option.bind_eq_bind, Option.bind_some, rest]
    · simp only [storeAll, stored, store, Option.bind_eq_bind, Option.bind_some, Option.pure_def]
    · rw [same, seen₁, List.append_assoc]

end Apart

/-! ### The two interpreters -/

/-- With a large enough buffer `snprintf` stores what `printf` sends. -/
def Agrees (fmt : Bytes) (args : Args) : Prop :=
  ∃ least, ∀ size, least ≤ size →
    ∃ out, printf fmt args = some out ∧ snprintf size fmt args = some out

section Run

variable {fmt : Bytes} {args : Args} {ps : List Piece}

theorem printf_eq (reads : Reads fmt args ps) :
    printf fmt args = (emitAll ps ⟨[], []⟩).map (·.sent) := by
  unfold printf
  rw [vprintfFrom_eq reads _ _ (Nat.lt_succ_self _)]
  cases emitAll ps ⟨[], []⟩ <;> rfl

theorem snprintf_eq (reads : Reads fmt args ps) {size : Nat} (large : room ps + 2 ≤ size) :
    snprintf size fmt args = storeAll ps := by
  unfold snprintf
  rw [vsnprintfFrom_eq reads _ _ (Nat.lt_succ_self _) (by rw [List.length_nil]; omega)]
  simp

end Run

/-- `printf` and `snprintf` agree exactly where every piece of the format is plain. -/
theorem printf_snprintf_agree {fmt : Bytes} {args : Args} {ps : List Piece}
    (terminated : ∀ c ∈ fmt, c ≠ 0) (reads : Reads fmt args ps) :
    Agrees fmt args ↔ ∀ pc ∈ ps, Plain pc := by
  have sound := reads.sound terminated
  have clean : Clean ⟨[], []⟩ := fun c inside => by cases inside
  constructor
  · rintro ⟨least, agrees⟩
    obtain ⟨out, printed, stored⟩ := agrees (max least (room ps + 2)) (Nat.le_max_left _ _)
    rw [snprintf_eq reads (Nat.le_max_right _ _)] at stored
    rw [printf_eq reads] at printed
    obtain ⟨o', emitted, same⟩ := Option.map_eq_some_iff.mp printed
    exact agrees_plain ps sound clean emitted stored same
  · intro plain
    obtain ⟨o', b, emitted, stored, same⟩ := plain_agrees ps sound plain clean
    refine ⟨room ps + 2, fun size large => ⟨b, ?_, ?_⟩⟩
    · rw [printf_eq reads, emitted, Option.map_some, same]
      rfl
    · rw [snprintf_eq reads large, stored]

theorem terminated_of_all {fmt : Bytes} (clean : (fmt.all fun c => c ≠ 0) = true) :
    ∀ c ∈ fmt, c ≠ 0 :=
  fun c inside => of_decide_eq_true (List.all_eq_true.mp clean c inside)

theorem reads_chr : Reads ("%5c".toList.map code) [.int 65]
    [.chr ⟨false, 5, false, code 'c'⟩ 65] :=
  .directive (d := ⟨false, 5, false, code 'c'⟩) (by decide) rfl (.done [])

/-- `%5c` is padded by `snprintf` only. -/
theorem printf_snprintf_chr : ¬ ∀ fmt args ps, (∀ c ∈ fmt, c ≠ 0) → Reads fmt args ps →
    Agrees fmt args := by
  intro agree
  obtain ⟨least, agrees⟩ := agree _ _ _ (terminated_of_all (by decide)) reads_chr
  obtain ⟨out, printed, stored⟩ := agrees (max least 7) (Nat.le_max_left _ _)
  rw [snprintf_eq reads_chr (Nat.le_trans (by decide) (Nat.le_max_right _ _))] at stored
  rw [printf_eq reads_chr] at printed
  exact absurd (printed.trans stored.symm) (by decide)

theorem printf_snprintf_agree_letter :
    Agrees ("%c".toList.map code) [.int 65] ∧ ¬ Agrees ("%5c".toList.map code) [.int 65] := by
  constructor
  · apply (printf_snprintf_agree (terminated_of_all (by decide))
      (.directive (d := ⟨false, 0, false, code 'c'⟩) (by decide) rfl (.done []))).mpr
    intro pc inside
    rw [List.mem_singleton.mp inside]
    exact Nat.zero_le 1
  · intro agrees
    have plain := (printf_snprintf_agree (terminated_of_all (by decide)) reads_chr).mp agrees _
      List.mem_cons_self
    exact absurd (show 5 ≤ 1 from plain) (by decide)

end Xv6Lab.Print

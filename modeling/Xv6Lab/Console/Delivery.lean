import Xv6Lab.Console.Line

/-! What `readline` delivers of the bytes that the UART received.  The handler passes complete lines
on, newline and all, as far as the ring has room; a line of 127 characters leaves none for its
newline. -/

namespace Xv6Lab.Console

open Print

/-- What a byte does to the line being edited. -/
def edit (line : Bytes) (c : UInt8) : Bytes :=
  if c = 0x7f ∨ c = 0x08 then line.dropLast
  else if c = code '\t' then if line.length < 127 then line ++ [code ' '] else line
  else if 0x20 ≤ c ∧ c ≤ 0x7e ∧ line.length < 127 then line ++ [c]
  else line

/-- The edited line. -/
def edited (bs : Bytes) : Bytes := bs.foldl edit []

/-- A byte that ends a line. -/
def endsLine (c : UInt8) : Bool := c = code '\r' ∨ c = code '\n'

/-- The line being edited, and all that has been submitted before it. -/
def submit (p : Bytes × Bytes) (c : UInt8) : Bytes × Bytes :=
  if endsLine c then ([], p.2 ++ (p.1 ++ [code '\n'])) else (edit p.1 c, p.2)

/-- No escape sequence, no Ctrl-C and no Ctrl-L. -/
def Plain (c : UInt8) : Prop := c ≠ 0x1b ∧ c ≠ 0x03 ∧ c ≠ 0x0c

instance (c : UInt8) : Decidable (Plain c) := inferInstanceAs (Decidable (_ ∧ _ ∧ _))

theorem plain_of_all {bs : Bytes} (all : (bs.all fun c => Plain c) = true) : ∀ c ∈ bs, Plain c :=
  fun c inside => of_decide_eq_true (List.all_eq_true.mp all c inside)

/-- The state of the handler that the bytes so far account for. -/
structure Shows (s : Input) (p : Bytes × Bytes) : Prop where
  line : s.line = p.1
  escape : s.inEscape = false
  ring : s.inputBuf.contents = p.2.take (INPUT_BUF_SIZE - 1)

/-- An empty line buffer and an empty input ring. -/
structure Input.Empty (s : Input) : Prop where
  line : s.line = []
  escape : s.inEscape = false
  ring : s.inputBuf.r = s.inputBuf.w

/-- `readline` returns this line: its length, and its characters with a zero behind them. -/
def Returns (b : UartInputBuf) (line : Bytes) : Prop :=
  ∀ buf, ∃ buf' b', readline buf 256 b = some (line.length, buf', b') ∧
    (List.range line.length).map buf' = line ∧ buf' line.length = 0

/-- The handler takes all bytes, and `readline` returns this line then. -/
def Delivers (pid : Nat) (s : Input) (bs line : Bytes) : Prop :=
  ∃ s', uartIntr pid s bs = some s' ∧ Returns s'.inputBuf line

/-! ### The handler -/

theorem Input.Empty.shows {s : Input} (empty : s.Empty) : Shows s ([], []) := by
  refine ⟨empty.line, empty.escape, ?_⟩
  rw [UartInputBuf.contents, empty.ring, Ring.pending_self]
  rfl

section Handler

variable {pid : Nat} {s : Input} {p : Bytes × Bytes}

/-- A byte inside a line edits it. -/
theorem uartIntrByte_edit {c : UInt8} (plain : Plain c) (escape : s.inEscape = false)
    (inside : endsLine c = false) :
    ∃ sent, uartIntrByte pid s c = some { s with line := edit s.line c, sent := sent } := by
  have other : ¬ (c = code '\r' ∨ c = code '\n') := by simpa [endsLine] using inside
  obtain ⟨inputBuf, line, inEscape, sent⟩ := s
  cases escape
  rw [uartIntrByte, if_neg Bool.false_ne_true, if_neg plain.1, if_neg plain.2.2,
    if_neg plain.2.1, if_neg other, edit]
  by_cases back : c = 0x7f ∨ c = 0x08
  · rw [if_pos back, if_pos back]
    split
    · exact ⟨_, rfl⟩
    · next none =>
      cases List.eq_nil_of_length_eq_zero (Nat.eq_zero_of_not_pos none)
      exact ⟨sent, rfl⟩
  · rw [if_neg back, if_neg back]
    by_cases tab : c = code '\t'
    · rw [if_pos tab, if_pos tab]
      split
      · next room => exact ⟨_, by rw [if_pos (show line.length < 127 from room)]; rfl⟩
      · next full => exact ⟨sent, by rw [if_neg (show ¬ line.length < 127 from full)]⟩
    · rw [if_neg tab, if_neg tab]
      split
      · next shown =>
        exact ⟨_, by rw [if_pos (show 0x20 ≤ c ∧ c ≤ 0x7e ∧ line.length < 127 from shown)]; rfl⟩
      · next hidden =>
        exact ⟨sent, by rw [if_neg (show ¬ (0x20 ≤ c ∧ c ≤ 0x7e ∧ line.length < 127) from hidden)]⟩

/-- One byte: the line is edited or submitted. -/
theorem Shows.step {c : UInt8} (shows : Shows s p) (plain : Plain c) :
    ∃ s', uartIntrByte pid s c = some s' ∧ Shows s' (submit p c) := by
  obtain ⟨line, escape, ring⟩ := shows
  cases ends : endsLine c with
  | true =>
    have enter : c = code '\r' ∨ c = code '\n' := by simpa [endsLine] using ends
    rw [uartIntrByte, escape, if_neg Bool.false_ne_true, if_neg plain.1, if_neg plain.2.2,
      if_neg plain.2.1, if_pos enter, submit, ends, if_pos rfl]
    refine ⟨_, rfl, rfl, escape, ?_⟩
    show ((s.line.foldl UartInputBuf.push s.inputBuf).push (code '\n')).contents = _
    rw [contents_push, contents_foldl_push, take_cut, ring, List.append_assoc, take_cut, line]
  | false =>
    obtain ⟨sent, run⟩ := uartIntrByte_edit plain escape ends
    rw [run, submit, ends, if_neg Bool.false_ne_true, ← line]
    exact ⟨_, rfl, rfl, escape, ring⟩

/-- The bytes of a run, one after another. -/
theorem Shows.run (bs : Bytes) (plain : ∀ c ∈ bs, Plain c) : ∀ {s : Input} {p : Bytes × Bytes},
    Shows s p → ∃ s', uartIntr pid s bs = some s' ∧ Shows s' (bs.foldl submit p) := by
  induction bs with
  | nil => exact fun shows => ⟨_, rfl, shows⟩
  | cons c bs ih =>
    intro s p shows
    obtain ⟨s₁, first, shows₁⟩ := shows.step (plain c List.mem_cons_self)
    obtain ⟨s', rest, shows'⟩ := ih (fun c inside => plain c (List.mem_cons_of_mem _ inside)) shows₁
    exact ⟨s', by rw [uartIntr, first]; exact rest, shows'⟩

end Handler

/-! ### What is submitted -/

section Submitted

/-- What has been submitted stays in front. -/
theorem submit_behind (bs : Bytes) : ∀ p : Bytes × Bytes, ∃ more, (bs.foldl submit p).2 = p.2 ++ more := by
  induction bs with
  | nil => exact fun p => ⟨[], (List.append_nil _).symm⟩
  | cons c bs ih =>
    intro p
    obtain ⟨more, rest⟩ := ih (submit p c)
    rw [List.foldl_cons, rest, submit]
    split
    · exact ⟨_, List.append_assoc ..⟩
    · exact ⟨more, rfl⟩

/-- Bytes inside a line only edit it. -/
theorem submit_inside (bs : Bytes) (inside : ∀ c ∈ bs, endsLine c = false) :
    ∀ line out : Bytes, bs.foldl submit (line, out) = (bs.foldl edit line, out) := by
  induction bs with
  | nil => exact fun line out => rfl
  | cons c bs ih =>
    intro line out
    rw [List.foldl_cons, submit, inside c List.mem_cons_self, if_neg Bool.false_ne_true,
      ih (fun c at_ => inside c (List.mem_cons_of_mem _ at_))]
    rfl

/-- The first line with its newline is submitted first. -/
theorem submitted_first {bs : Bytes} {c : UInt8} (inside : c ∈ bs) (ends : endsLine c = true) :
    ∃ more, (bs.foldl submit ([], [])).2 =
      edited (bs.takeWhile fun c => !endsLine c) ++ code '\n' :: more := by
  have whole := List.takeWhile_append_dropWhile (p := fun c => !endsLine c) (l := bs)
  have first : ∀ c ∈ bs.takeWhile fun c => !endsLine c, endsLine c = false := by
    intro c at_
    simpa using List.mem_takeWhile_imp at_
  have head := List.head?_dropWhile_not (fun c => !endsLine c) bs
  generalize bs.takeWhile (fun c => !endsLine c) = front at whole first ⊢
  cases rest : bs.dropWhile fun c => !endsLine c with
  | nil =>
    rw [rest, List.append_nil] at whole
    rw [← whole] at inside
    exact absurd ends (by simp [first c inside])
  | cons t rest' =>
    rw [rest] at head whole
    have enter : endsLine t = true := by simpa using head
    obtain ⟨more, behind⟩ := submit_behind rest' ([], edited front ++ [code '\n'])
    refine ⟨more, ?_⟩
    rw [← whole, List.foldl_append, submit_inside front first, List.foldl_cons, submit, enter,
      if_pos rfl]
    exact behind.trans (List.append_assoc ..)

theorem edit_length {line : Bytes} {c : UInt8} (short : line.length ≤ 127) :
    (edit line c).length ≤ 127 := by
  unfold edit
  split_ifs
  · rw [List.length_dropLast]
    omega
  all_goals
    first
      | exact short
      | rw [List.length_append, List.length_singleton]
        omega

/-- A line takes no newline in. -/
theorem edit_newline {line : Bytes} {c : UInt8} (clean : ∀ x ∈ line, x ≠ code '\n') :
    ∀ x ∈ edit line c, x ≠ code '\n' := by
  intro x inside
  unfold edit at inside
  split_ifs at inside with back tab room shown
  · exact clean x (List.dropLast_subset line inside)
  · rcases List.mem_append.mp inside with old | new
    · exact clean x old
    · rw [List.mem_singleton.mp new]
      decide
  · exact clean x inside
  · rcases List.mem_append.mp inside with old | new
    · exact clean x old
    · rw [List.mem_singleton.mp new]
      rintro rfl
      exact absurd shown.1 (by decide)
  · exact clean x inside

theorem edited_line (bs : Bytes) : (edited bs).length ≤ 127 ∧ ∀ x ∈ edited bs, x ≠ code '\n' := by
  have all : ∀ line : Bytes, line.length ≤ 127 ∧ (∀ x ∈ line, x ≠ code '\n') →
      (bs.foldl edit line).length ≤ 127 ∧ ∀ x ∈ bs.foldl edit line, x ≠ code '\n' := by
    induction bs with
    | nil => exact fun line good => good
    | cons c bs ih => exact fun line good => ih _ ⟨edit_length good.1, edit_newline good.2⟩
  exact all [] ⟨Nat.zero_le _, nofun⟩

end Submitted

/-! ### The reader -/

/-- `readline` reads up to the first newline. -/
theorem readlineLoop_line (l more : Bytes) (clean : ∀ x ∈ l, x ≠ code '\n') :
    ∀ {n i : Nat} (buf : Cells) {b : UartInputBuf}, b.contents = l ++ code '\n' :: more → l.length < n →
      ∃ b', readlineLoop n i buf b =
        some (i + l.length, Function.update (fill buf i l) (i + l.length) 0, b') := by
  induction l with
  | nil =>
    intro n i buf b contents enough
    obtain ⟨n, rfl⟩ := Nat.exists_eq_succ_of_ne_zero (Nat.ne_of_gt enough)
    obtain ⟨b', read, -⟩ := getc_first contents
    exact ⟨b', by rw [readlineLoop, read]; rfl⟩
  | cons c l ih =>
    intro n i buf b contents enough
    rw [List.length_cons] at enough
    obtain ⟨n, rfl⟩ := Nat.exists_eq_succ_of_ne_zero (by omega : n ≠ 0)
    obtain ⟨b₁, read, contents₁⟩ := getc_first contents
    obtain ⟨b', rest⟩ := ih (fun x inside => clean x (List.mem_cons_of_mem _ inside)) (i := i + 1)
      (Function.update buf i c) contents₁ (by omega : l.length < n)
    refine ⟨b', ?_⟩
    rw [readlineLoop, read, List.length_cons, show i + (l.length + 1) = i + 1 + l.length by omega]
    exact (if_neg (clean c List.mem_cons_self)).trans rest

/-- Without a newline in the ring `readline` waits. -/
theorem readlineLoop_waits (q : Bytes) (clean : ∀ x ∈ q, x ≠ code '\n') :
    ∀ {n i : Nat} (buf : Cells) {b : UartInputBuf}, b.contents = q → q.length < n →
      readlineLoop n i buf b = none := by
  induction q with
  | nil =>
    intro n i buf b contents enough
    obtain ⟨n, rfl⟩ := Nat.exists_eq_succ_of_ne_zero (Nat.ne_of_gt enough)
    rw [readlineLoop, getc_empty contents]
    rfl
  | cons c q ih =>
    intro n i buf b contents enough
    rw [List.length_cons] at enough
    obtain ⟨n, rfl⟩ := Nat.exists_eq_succ_of_ne_zero (by omega : n ≠ 0)
    obtain ⟨b₁, read, contents₁⟩ := getc_first contents
    rw [readlineLoop, read]
    exact (if_neg (clean c List.mem_cons_self)).trans
      (ih (fun x inside => clean x (List.mem_cons_of_mem _ inside)) _ contents₁ (by omega))

/-- A line that leaves no room for its newline. -/
theorem readline_waits {b : UartInputBuf} {l more : Bytes} (full : l.length = INPUT_BUF_SIZE - 1)
    (clean : ∀ x ∈ l, x ≠ code '\n')
    (contents : b.contents = (l ++ code '\n' :: more).take (INPUT_BUF_SIZE - 1)) (buf : Cells) :
    readline buf 256 b = none := by
  rw [List.take_append_of_le_length full.ge, List.take_of_length_le full.le] at contents
  exact readlineLoop_waits l clean buf contents (full ▸ by decide)

/-- What `readline` makes of a ring into which a line has been submitted: the line if its newline
found room, and nothing otherwise. -/
theorem returns_iff {b : UartInputBuf} {l more line : Bytes} (short : l.length ≤ 127)
    (clean : ∀ x ∈ l, x ≠ code '\n')
    (contents : b.contents = (l ++ code '\n' :: more).take (INPUT_BUF_SIZE - 1)) :
    Returns b line ↔ l.length ≤ 126 ∧ line = l := by
  by_cases room : l.length ≤ 126
  · obtain ⟨k, left⟩ := Nat.exists_eq_succ_of_ne_zero (show INPUT_BUF_SIZE - 1 - l.length ≠ 0 by
      have size : INPUT_BUF_SIZE = 128 := rfl
      omega)
    rw [List.take_append, left, List.take_succ_cons, List.take_of_length_le (show
      l.length ≤ INPUT_BUF_SIZE - 1 from short)] at contents
    have read := fun buf : Cells => readlineLoop_line l _ clean (n := 255) (i := 0) buf contents (by omega)
    constructor
    · intro returns
      obtain ⟨buf', b', run, text, -⟩ := returns fun _ => 0
      obtain ⟨b₁, run₁⟩ := read fun _ => 0
      rw [Nat.zero_add] at run₁
      have same := run.symm.trans run₁
      simp only [Option.some.injEq, Prod.mk.injEq] at same
      obtain ⟨length, rfl, -⟩ := same
      rw [length, stored_read] at text
      exact ⟨room, text.symm⟩
    · rintro ⟨-, rfl⟩ buf
      obtain ⟨b', run⟩ := read buf
      rw [Nat.zero_add] at run
      exact ⟨_, b', run, stored_read buf line, Function.update_self ..⟩
  · have full : l.length = INPUT_BUF_SIZE - 1 := Nat.le_antisymm short (Nat.lt_of_not_le room)
    refine iff_of_false (fun returns => ?_) fun both => room both.1
    obtain ⟨buf', b', run, -⟩ := returns fun _ => 0
    rw [readline_waits full clean contents] at run
    cases run

/-- `readline` returns the edited line exactly where the bytes before the first carriage return or
newline edit the whole line, and leave room for its newline. -/
theorem readline_delivers_iff {pid : Nat} {s : Input} (empty : s.Empty) {bs : Bytes}
    (plain : ∀ c ∈ bs, Plain c) (last : bs.getLast? = some (code '\r')) :
    Delivers pid s bs (edited bs) ↔
      (edited (bs.takeWhile fun c => !endsLine c)).length ≤ 126 ∧
        edited bs = edited (bs.takeWhile fun c => !endsLine c) := by
  obtain ⟨s', run, shows⟩ := empty.shows.run bs plain
  obtain ⟨more, first⟩ := submitted_first (List.mem_of_getLast? last) (c := code '\r') rfl
  have contents := shows.ring
  rw [first] at contents
  obtain ⟨short, clean⟩ := edited_line (bs.takeWhile fun c => !endsLine c)
  rw [← returns_iff short clean contents]
  constructor
  · rintro ⟨s₁, run₁, returns⟩
    cases run₁.symm.trans run
    exact returns
  · exact fun returns => ⟨s', run, returns⟩

/-- A ring and a line buffer as they are at the start. -/
def idle : Input := ⟨⟨fun _ => 0, 0, 0⟩, [], false, []⟩

theorem idle_empty : idle.Empty := ⟨rfl, rfl, rfl⟩

/-- A short line is returned. -/
theorem readline_delivers_short :
    Delivers 1 idle ("lx\x08s\r".toList.map code) ("ls".toList.map code) := by
  have line : edited ("lx\x08s\r".toList.map code) = "ls".toList.map code := by decide
  rw [← line]
  exact (readline_delivers_iff idle_empty (plain_of_all (by decide)) rfl).mpr (by decide)

def longLine : Bytes := List.replicate 127 (code 'a') ++ [code '\r']

/-- The longest line that fits the line buffer keeps `readline` waiting. -/
theorem readline_long_waits :
    (∃ s', uartIntr 1 idle longLine = some s' ∧ ∀ buf, readline buf 256 s'.inputBuf = none) ∧
    ¬ ∀ pid s bs, Input.Empty s → (∀ c ∈ bs, Plain c) → bs.getLast? = some (code '\r') →
      Delivers pid s bs (edited bs) := by
  have plain : ∀ c ∈ longLine, Plain c := plain_of_all (by decide +kernel)
  obtain ⟨s', run, shows⟩ := idle_empty.shows.run longLine plain
  obtain ⟨more, first⟩ := submitted_first (show code '\r' ∈ longLine by decide +kernel) rfl
  have contents := shows.ring
  rw [first] at contents
  have waits := readline_waits (show (edited (longLine.takeWhile fun c => !endsLine c)).length = _ by
    decide +kernel) (edited_line _).2 contents
  refine ⟨⟨s', run, waits⟩, fun deliver => ?_⟩
  obtain ⟨s₁, run₁, returns⟩ := deliver 1 idle longLine idle_empty plain (by decide +kernel)
  cases run₁.symm.trans run
  obtain ⟨buf', b', read, -⟩ := returns fun _ => 0
  rw [waits] at read
  cases read

end Xv6Lab.Console

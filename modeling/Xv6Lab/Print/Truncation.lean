import Xv6Lab.Print.Scanner

/-! `snprintf` cuts its output where the buffer ends.  The output of a format does not depend on the
size of the buffer; what is stored is as much of it as fits in front of the zero. -/

namespace Xv6Lab.Print

/-- `return pos;` of a function that returns `int`. -/
def returned (pos : Nat) : Int := (BitVec.ofNat 32 pos).toInt

/-- `vsnprintf`: the buffer, and the value returned. -/
def vsnprintf (size : Nat) (fmt : Bytes) (args : Args) (buf : Cells) : Except Fault (Cells × Int) := do
  let (buf, pos) ← vsnprintfAt size fmt (fmt.length + 1) 0 args buf 0
  return (buf, returned pos)

/-- The width of a piece fits an `int`, and the digits of a number its array. -/
structure Fits (pc : Piece) : Prop where
  width : ∀ d, pc.directive = some d → d.width < 2 ^ 31
  digits : ∀ d radix x, pc = .num d radix x → (intToStr x radix.base radix.sign).isSome

/-- A run has left `text` and a zero in the `size` bytes of the buffer, and nothing behind them. -/
structure Output (size : Nat) (buf after : Cells) (text : Bytes) : Prop where
  stored : (List.range text.length).map after = text
  zero : after text.length = 0
  inside : text.length + 1 ≤ size
  outside : ∀ k, size ≤ k → after k = buf k

theorem returned_small {pos : Nat} (small : pos < 2 ^ 31) : returned pos = pos := by
  unfold returned
  rw [BitVec.toInt_eq_toNat_cond, BitVec.toNat_ofNat, Nat.mod_eq_of_lt (by omega), if_pos (by omega)]

theorem Fits.stored {pc : Piece} (fits : Fits pc) : ∃ b, stores pc = some b := by
  cases pc with
  | lit c => exact ⟨_, rfl⟩
  | num d radix x =>
    obtain ⟨s, text⟩ := Option.isSome_iff_exists.mp (fits.digits d radix x rfl)
    rw [stores, if_pos (fits.width d rfl), text]
    exact ⟨_, rfl⟩
  | chr d c => exact ⟨_, if_pos (fits.width d rfl)⟩
  | text d s => exact ⟨_, if_pos (fits.width d rfl)⟩
  | percent d => exact ⟨_, if_pos (fits.width d rfl)⟩
  | other d => exact ⟨_, if_pos (fits.width d rfl)⟩

theorem storeAll_fits (ps : List Piece) (fits : ∀ pc ∈ ps, Fits pc) :
    ∃ all, storeAll ps = some all := by
  induction ps with
  | nil => exact ⟨_, rfl⟩
  | cons pc ps ih =>
    obtain ⟨b, stored⟩ := (fits pc List.mem_cons_self).stored
    obtain ⟨all, rest⟩ := ih fun pc inside => fits pc (List.mem_cons_of_mem _ inside)
    simp only [storeAll, stored, rest]
    exact ⟨_, rfl⟩

/-- What a run from `pos` on leaves: as much of the output as fits, and the zero. -/
def finish (size : Nat) (buf : Cells) (pos : Nat) (all : Bytes) : Cells × Nat :=
  (Function.update (fill buf pos (all.take (size - 1 - pos))) (pos + (all.take (size - 1 - pos)).length) 0,
    pos + (all.take (size - 1 - pos)).length)

section Runs

variable {fmt : Bytes} {size pos : Nat}

theorem terminate_eq (buf : Cells) (room : pos + 1 ≤ size) :
    terminate size buf pos = .ok (Function.update buf pos 0, pos) := by
  rw [terminate, storeAt, put, if_pos (by omega)]
  rfl

/-- Behind a full buffer nothing is stored. -/
theorem finish_full (buf : Cells) (all : Bytes) (full : ¬ pos + 1 < size) :
    finish size buf pos all = (Function.update buf pos 0, pos) := by
  rw [finish, show size - 1 - pos = 0 by omega, List.take_zero]
  rfl

/-- A piece and what comes behind it. -/
theorem finish_append (buf : Cells) (b rest : Bytes) (room : pos + 1 ≤ size) :
    finish size (fill buf pos (b.take (size - 1 - pos))) (pos + (b.take (size - 1 - pos)).length) rest =
      finish size buf pos (b ++ rest) := by
  have left : size - 1 - (pos + (b.take (size - 1 - pos)).length) = size - 1 - pos - b.length := by
    rw [List.length_take]
    omega
  rw [finish, finish, left, List.take_append, fill_append, List.length_append, Nat.add_assoc]

/-- The loop of `vsnprintf` over pieces that fit. -/
theorem vsnprintfAt_eq {s : Bytes} {args : Args} {ps : List Piece} (reads : Reads s args ps) :
    ∀ {all : Bytes} {i fuel pos : Nat} (buf : Cells), Scanned fmt i s → storeAll ps = some all →
      s.length < fuel → pos + 1 ≤ size →
      vsnprintfAt size fmt fuel i args buf pos = .ok (finish size buf pos all) := by
  induction reads with
  | done args =>
    intro all i fuel pos buf scanned stored enough room
    obtain ⟨fuel, rfl⟩ := Nat.exists_eq_succ_of_ne_zero (Nat.ne_of_gt enough)
    cases stored
    rw [vsnprintfAt_end scanned, terminate_eq buf room, finish, List.take_nil]
    rfl
  | @lit c s args ps plain rest ih =>
    intro all i fuel pos buf scanned stored enough room
    rw [List.length_cons] at enough
    obtain ⟨fuel, rfl⟩ := Nat.exists_eq_succ_of_ne_zero (by omega : fuel ≠ 0)
    by_cases more : pos + 1 < size
    · obtain ⟨b, all, first, later, rfl⟩ := storeAll_cons stored
      cases first
      have one : [c].take (size - 1 - pos) = [c] := List.take_of_length_le (by simp; omega)
      rw [vsnprintfAt_lit scanned plain more, ih _ scanned.next later (by omega) more,
        ← finish_append buf [c] all room, one]
      rfl
    · rw [vsnprintfAt_full scanned more, terminate_eq buf room, finish_full buf all more]
  | @directive s s' args args' d pc ps scans takes rest ih =>
    intro all i fuel pos buf scanned stored enough room
    have shorter := scan_length scans
    rw [List.length_cons] at enough
    obtain ⟨fuel, rfl⟩ := Nat.exists_eq_succ_of_ne_zero (by omega : fuel ≠ 0)
    by_cases more : pos + 1 < size
    · obtain ⟨b, all, first, later, rfl⟩ := storeAll_cons stored
      obtain ⟨j, read, there⟩ := scanned.directive scans
      have small : d.width < 2 ^ 31 := by
        by_contra large
        rw [stores_wide large (fetch_directive takes)] at first
        cases first
      have cut := List.length_take_le (size - 1 - pos) b
      rw [vsnprintfAt_percent scanned read more, if_pos small, takes]
      dsimp only
      rw [copyPiece_eq more first, copyInto_eq b buf room, ← finish_append buf b all room]
      exact ih _ there later (by omega) (by omega)
    · rw [vsnprintfAt_full scanned more, terminate_eq buf room, finish_full buf all more]

theorem finish_output (buf : Cells) (all : Bytes) (positive : 1 ≤ size) :
    Output size buf (finish size buf 0 all).1 (all.take (size - 1)) ∧
      (finish size buf 0 all).2 = (all.take (size - 1)).length := by
  have cut := List.length_take_le (size - 1) all
  have text : finish size buf 0 all =
      (Function.update (fill buf 0 (all.take (size - 1))) (all.take (size - 1)).length 0,
        (all.take (size - 1)).length) := by
    rw [finish, Nat.sub_zero, Nat.zero_add]
  rw [text]
  generalize all.take (size - 1) = out at cut
  refine ⟨⟨stored_read buf out, Function.update_self .., by omega, fun k behind => ?_⟩, rfl⟩
  dsimp only
  rw [Function.update_of_ne (by omega), fill_behind out buf (by omega)]

end Runs

/-- `vsnprintf` with any buffer stores as much of one text as has room. -/
theorem vsnprintf_eq {fmt : Bytes} {args : Args} {ps : List Piece} {all : Bytes}
    (terminated : ∀ c ∈ fmt, c ≠ 0) (reads : Reads fmt args ps) (stored : storeAll ps = some all)
    {size : Nat} (positive : 1 ≤ size) (buf : Cells) :
    ∃ b, vsnprintf size fmt args buf = .ok (b, returned (all.take (size - 1)).length) ∧
      Output size buf b (all.take (size - 1)) := by
  obtain ⟨output, last⟩ := finish_output buf all positive
  refine ⟨_, ?_, output⟩
  rw [vsnprintf, vsnprintfAt_eq reads buf ⟨at_zero fmt, terminated⟩ stored (Nat.lt_succ_self _)
    (by omega), ← last]
  rfl

theorem take_cut {α : Type} (l l' : List α) (n : Nat) :
    (l.take n ++ l').take n = (l ++ l').take n := by
  rw [List.take_append, List.take_append, List.take_take, Nat.min_self, List.length_take,
    show n - min n l.length = n - l.length by omega]

/-- The text that `snprintf` is said to store is the one in the buffer. -/
theorem snprintf_take {fmt : Bytes} {args : Args} {ps : List Piece} {all : Bytes}
    (reads : Reads fmt args ps) (stored : storeAll ps = some all) {size : Nat} (positive : 1 ≤ size) :
    snprintf size fmt args = some (all.take (size - 1)) := by
  have run : ∀ {all out : Bytes} {fuel : Nat}, storeAll ps = some all → fmt.length < fuel →
      out.length + 1 ≤ size →
      vsnprintfFrom size fuel fmt args out = some ((out ++ all).take (size - 1)) := by
    clear stored
    induction reads with
    | done args =>
      intro all out fuel stored enough room
      obtain ⟨fuel, rfl⟩ := Nat.exists_eq_succ_of_ne_zero (Nat.ne_of_gt enough)
      cases stored
      rw [List.append_nil, List.take_of_length_le (by omega)]
      rfl
    | @lit c s args ps plain rest ih =>
      intro all out fuel stored enough room
      rw [List.length_cons] at enough
      obtain ⟨fuel, rfl⟩ := Nat.exists_eq_succ_of_ne_zero (by omega : fuel ≠ 0)
      rw [vsnprintfFrom]
      split
      · next more =>
        obtain ⟨b, all, first, later, rfl⟩ := storeAll_cons stored
        cases first
        rw [ih later (by omega) (by rw [List.length_append, List.length_singleton]; omega),
          List.append_assoc]
      · next full =>
        rw [List.take_append_of_le_length (by omega), List.take_of_length_le (by omega)]
    | @directive s s' args args' d pc ps scans takes rest ih =>
      intro all out fuel stored enough room
      have shorter := scan_length scans
      rw [List.length_cons] at enough
      obtain ⟨fuel, rfl⟩ := Nat.exists_eq_succ_of_ne_zero (by omega : fuel ≠ 0)
      rw [vsnprintfFrom]
      split
      · next more =>
        obtain ⟨b, all, first, later, rfl⟩ := storeAll_cons stored
        have small : d.width < 2 ^ 31 := by
          by_contra large
          rw [stores_wide large (fetch_directive takes)] at first
          cases first
        have cut : (store size out b).length + 1 ≤ size := by
          rw [store_take b room, List.length_take]
          omega
        rw [if_neg (by simp), scans]
        simp only [Option.bind_eq_bind, Option.bind_some, if_pos small,
          storeDirective_eq small takes, first, Option.map_some]
        rw [ih later (by omega) cut, store_take b room, take_cut, List.append_assoc]
      · next full =>
        rw [List.take_append_of_le_length (by omega), List.take_of_length_le (by omega)]
  exact run stored (Nat.lt_succ_self _) (by rw [List.length_nil]; omega)

theorem five_reads : Reads ("%5d|".toList.map code) [.int (-7)]
    [.num ⟨false, 5, false, code 'd'⟩ (.dec true) (-7), .lit (code '|')] := by
  have first : scan ("5d|".toList.map code) = some (⟨false, 5, false, code 'd'⟩, [code '|']) := by
    decide
  exact .directive first rfl (.lit (by decide) (.done []))

theorem five_fits : ∀ pc ∈ [.num ⟨false, 5, false, code 'd'⟩ (.dec true) (-7), .lit (code '|')],
    Fits pc := by
  intro pc inside
  rcases List.mem_cons.mp inside with rfl | inside
  · refine ⟨fun d is => ?_, fun d radix x is => ?_⟩
    · cases is
      decide
    · cases is
      decide
  · rw [List.mem_singleton.mp inside]
    exact ⟨nofun, nofun⟩

/-- A letter behind `2 ^ 31 - 2` blanks. -/
def wideLetter : Directive := ⟨false, 2 ^ 31 - 1, false, code 'c'⟩

def letter : Directive := ⟨false, 0, false, code 'c'⟩

def twoLetters : List Piece := [.chr wideLetter 65, .chr letter 65]

theorem twoLetters_reads :
    Reads ("%2147483647c%c".toList.map code) [.int 65, .int 65] twoLetters := by
  have first : scan ("2147483647c%c".toList.map code) = some (wideLetter, "%c".toList.map code) := by
    decide +kernel
  have second : scan ("c".toList.map code) = some (letter, []) := by decide
  exact .directive first rfl (.directive second rfl (.done []))

theorem twoLetters_fits : ∀ pc ∈ twoLetters, Fits pc := by
  intro pc inside
  rcases List.mem_cons.mp inside with rfl | inside
  · refine ⟨fun d is => ?_, nofun⟩
    cases is
    decide
  · rw [List.mem_singleton.mp inside]
    refine ⟨fun d is => ?_, nofun⟩
    cases is
    decide

theorem letters_length {d d' : Directive} (c c' : UInt8) (small : d.width < 2 ^ 31)
    (small' : d'.width < 2 ^ 31) : ∃ all, storeAll [.chr d c, .chr d' c'] = some all ∧
      all.length = (d.width - 1) + (d'.width - 1) + 2 := by
  simp only [storeAll, stores, if_pos small, if_pos small', Option.bind_eq_bind, Option.bind_some,
    Option.pure_def]
  refine ⟨_, rfl, ?_⟩
  simp only [List.length_append, List.length_replicate, List.length_cons, List.length_nil]
  omega

theorem twoLetters_length : ∃ all, storeAll twoLetters = some all ∧ all.length = 2 ^ 31 := by
  have width : wideLetter.width = 2 ^ 31 - 1 := rfl
  have width' : letter.width = 0 := rfl
  obtain ⟨all, stored, length⟩ := @letters_length wideLetter letter 65 65 (by omega)
    (by omega)
  exact ⟨all, stored, by omega⟩

end Xv6Lab.Print

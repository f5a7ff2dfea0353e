import Mathlib.Data.Nat.Digits.Defs
import Xv6Lab.Print.Numbers

/-! Decimal numerals: `usr_itoa` of the user library, which writes them, and `atoi` of the kernel's
`string.c`, which reads them.  An `int` is a word of 32 bits, and the negative of the least one is
that number again. -/

namespace Xv6Lab.Print

/-! ### `user_lib.h` -/

theorem zero_slt_iff (num : BitVec 32) :
    BitVec.slt 0 num ↔ 0 < num.toNat ∧ num.toNat < 2 ^ 31 := by
  have limit := num.isLt
  rw [BitVec.slt, decide_eq_true_eq, BitVec.toInt_eq_toNat_cond num,
    show (0 : BitVec 32).toInt = 0 from rfl]
  split <;> omega

/-- Among the numbers that are not negative, division is that of the naturals. -/
theorem sdiv_ten {num : BitVec 32} (positive : BitVec.slt 0 num) :
    (num.sdiv 10).toNat = num.toNat / 10 ∧ (num.srem 10).toNat = num.toNat % 10 := by
  have bounds := (zero_slt_iff num).mp positive
  have sign : num.msb = false := by
    rw [BitVec.msb_eq_decide, decide_eq_false_iff_not]
    omega
  constructor
  · rw [BitVec.sdiv_eq, sign]
    exact BitVec.toNat_udiv
  · rw [BitVec.srem_eq, sign]
    exact BitVec.toNat_umod

/-- `while (num > 0) { str[i++] = (num % 10) + '0'; num /= 10; }` -/
def itoaLoop (num : BitVec 32) (str : Cells) (i : Nat) : Cells × Nat :=
  if positive : BitVec.slt 0 num then
    let c := num.srem 10 + BitVec.ofNat 32 (code '0').toNat
    itoaLoop (num.sdiv 10) (Function.update str i (UInt8.ofBitVec (c.setWidth 8))) (i + 1)
  else
    (str, i)
termination_by num.toNat
decreasing_by
  rw [(sdiv_ten positive).1]
  exact Nat.div_lt_self ((zero_slt_iff num).mp positive).1 (by decide)

/-- `for (int j = 0; j < len / 2; j++)`, from `j` on with `left` turns to go. -/
def reverseLoop (len : Nat) : (left j : Nat) → Cells → Cells
  | 0, _, str => str
  | left + 1, j, str =>
    let temp := str j
    let str := Function.update str j (str (len - 1 - j))
    let str := Function.update str (len - 1 - j) temp
    reverseLoop len left (j + 1) str

/-- `usr_itoa` -/
def usrItoa (num : BitVec 32) (str : Cells) : Cells :=
  if num = 0 then
    Function.update (Function.update str 0 (code '0')) 1 0
  else
    let isNegative := num.slt 0
    let num := if isNegative then -num else num
    let (str, i) := itoaLoop num str 0
    let (str, i) := if isNegative then (Function.update str i (code '-'), i + 1) else (str, i)
    let str := Function.update str i 0
    let len := i
    reverseLoop len (len / 2) 0 str

/-! ### `string.c` -/

/-- `while (*s >= '0' && *s <= '9') { n = n * 10 + (*s - '0'); s++; }` -/
def atoiLoop (n : BitVec 32) : Bytes → BitVec 32
  | [] => n
  | c :: s =>
    if isDigit c then
      atoiLoop (n * 10 + (BitVec.ofNat 32 c.toNat - BitVec.ofNat 32 (code '0').toNat)) s
    else n

/-- `while (*s == ' ' || *s == '\t') s++;` -/
def skipBlanks (s : Bytes) : Bytes := s.dropWhile fun c => c = code ' ' ∨ c = code '\t'

/-- `atoi` -/
def atoi (s : Bytes) : BitVec 32 :=
  let s := skipBlanks s
  let (sign, s) : BitVec 32 × Bytes :=
    if s.head? = some (code '-') then (-1, s.tail)
    else if s.head? = some (code '+') then (1, s.tail)
    else (1, s)
  sign * atoiLoop 0 s

/-! ### Strings and numerals -/

/-- The array starts with the string and the zero that ends it. -/
structure IsString (str : Cells) (s : Bytes) : Prop where
  bytes : (List.range s.length).map str = s
  visible : ∀ c ∈ s, c ≠ 0
  ends : str s.length = 0

/-- The canonical decimal numeral of a number. -/
def numeral (v : Int) : Bytes := (toString v).toList.map code

/-- What `usr_itoa` writes is the numeral of the number, and `atoi` reads the number from it. -/
def RoundTrips (num : BitVec 32) (str : Cells) : Prop :=
  ∃ s, IsString (usrItoa num str) s ∧ s = numeral num.toInt ∧ atoi s = num

section Numerals

variable {str : Cells} {s : Bytes} {n : Nat}

theorem IsString.length_le {s' : Bytes} (one : IsString str s) (two : IsString str s') :
    s.length ≤ s'.length := by
  by_contra longer
  have inside : str s'.length ∈ (List.range s.length).map str :=
    List.mem_map_of_mem (List.mem_range.mpr (by omega))
  rw [one.bytes] at inside
  exact one.visible _ inside two.ends

theorem IsString.unique {s' : Bytes} (one : IsString str s) (two : IsString str s') : s = s' := by
  rw [← one.bytes, ← two.bytes, Nat.le_antisymm (one.length_le two) (two.length_le one)]

/-- The digits of a positive number, the highest first. -/
def decimal (n : Nat) : Bytes := ((Nat.digits 10 n).map digit).reverse

theorem decimal_step (positive : 0 < n) : decimal n = decimal (n / 10) ++ [digit (n % 10)] := by
  rw [decimal, Nat.digits_def' (by decide) positive, List.map_cons, List.reverse_cons]
  rfl

theorem code_digitChar {d : Nat} (small : d < 10) : code d.digitChar = digit d := by
  have all : ∀ d < 10, code (Nat.digitChar d) = digit d := by decide
  exact all d small

theorem toDigits_decimal (positive : 0 < n) : (Nat.toDigits 10 n).map code = decimal n := by
  induction n using Nat.strong_induction_on with
  | _ n ih =>
    have small : n % 10 < 10 := Nat.mod_lt _ (by decide)
    rw [Nat.toDigits_eq_if (by decide), decimal_step positive]
    split
    · next last =>
      rw [Nat.div_eq_of_lt last, Nat.mod_eq_of_lt last, List.map_singleton, code_digitChar last]
      rfl
    · rw [List.map_append, ih (n / 10) (by omega) (by omega), List.map_singleton,
        code_digitChar small]

theorem numeral_natCast (positive : 0 < n) : numeral n = decimal n := by
  rw [numeral, Int.toString_eq_repr, Int.repr_eq_if, if_pos (Int.natCast_nonneg n), Int.toNat_natCast,
    Nat.toList_repr, toDigits_decimal positive]

theorem numeral_neg (positive : 0 < n) : numeral (-n) = code '-' :: decimal n := by
  rw [numeral, Int.toString_eq_repr, Int.repr_eq_if, if_neg (by omega), Int.neg_neg, Int.toNat_natCast,
    String.toList_append, List.map_append, Nat.toList_repr, toDigits_decimal positive]
  rfl

example : numeral (-120) = [0x2d, 0x31, 0x32, 0x30] := by decide

end Numerals

/-! ### What the loops do -/

section Loops

variable {str : Cells} {num : BitVec 32} {i : Nat}

/-- The character of the last digit. -/
theorem last_digit (positive : BitVec.slt 0 num) :
    UInt8.ofBitVec ((num.srem 10 + BitVec.ofNat 32 (code '0').toNat).setWidth 8) =
      digit (num.toNat % 10) := by
  have all : ∀ d < 10,
      UInt8.ofBitVec ((BitVec.ofNat 32 d + BitVec.ofNat 32 (code '0').toNat).setWidth 8) =
        digit d := by decide
  have rem : num.srem 10 = BitVec.ofNat 32 (num.toNat % 10) := by
    have small : num.toNat % 10 < 2 ^ 32 := by omega
    apply BitVec.eq_of_toNat_eq
    rw [(sdiv_ten positive).2, BitVec.toNat_ofNat, Nat.mod_eq_of_lt small]
  rw [rem]
  exact all _ (Nat.mod_lt _ (by decide))

/-- The first loop stores the digits, the lowest first. -/
theorem itoaLoop_eq (num : BitVec 32) (below : num.toNat < 2 ^ 31) (str : Cells) (i : Nat) :
    itoaLoop num str i = (fill str i (decimal num.toNat).reverse, i + (decimal num.toNat).length) := by
  induction num, str, i using itoaLoop.induct with
  | case1 num str i positive c ih =>
    have bounds := (zero_slt_iff num).mp positive
    rw [itoaLoop, dif_pos positive]
    dsimp only
    rw [ih (by rw [(sdiv_ten positive).1]; omega), (sdiv_ten positive).1, last_digit positive,
      decimal_step bounds.1, List.reverse_append, List.length_append, List.reverse_singleton,
      List.singleton_append, fill, List.length_singleton]
    congr 1
    omega
  | case2 num str i other =>
    have zero : num.toNat = 0 := by
      rw [zero_slt_iff] at other
      omega
    rw [itoaLoop, dif_neg other, zero]
    rfl

/-- The second loop, whose first `j` turns have swapped the outer bytes. -/
theorem reverseLoop_eq (len left j : Nat) (turns : j + left = len / 2) (t : Cells)
    (swapped : ∀ k, t k = if k < len ∧ (k < j ∨ len - 1 - k < j) then str (len - 1 - k) else str k) :
    ∀ k, reverseLoop len left j t k = if k < len then str (len - 1 - k) else str k := by
  induction left generalizing j t with
  | zero =>
    intro k
    rw [reverseLoop, swapped k]
    by_cases inside : k < len
    · rw [if_pos inside]
      split
      · rfl
      · -- the byte in the middle stays
        congr 1
        omega
    · rw [if_neg inside, if_neg fun both => inside both.1]
  | succ left ih =>
    apply ih (j + 1) (by omega)
    intro k
    have low : t j = str j := by rw [swapped, if_neg (by omega)]
    have high : t (len - 1 - j) = str (len - 1 - j) := by rw [swapped, if_neg (by omega)]
    by_cases top : k = len - 1 - j
    · rw [top, Function.update_self, low, if_pos (by omega)]
      congr 1
      omega
    rw [Function.update_of_ne top]
    by_cases bottom : k = j
    · rw [bottom, Function.update_self, high, if_pos (by omega)]
    rw [Function.update_of_ne bottom, swapped]
    refine if_congr ?_ rfl rfl
    omega

/-- An array that holds a string, after the second loop. -/
theorem reverseLoop_string {s : Bytes} (holds : IsString str s) :
    IsString (reverseLoop s.length (s.length / 2) 0 str) s.reverse := by
  have turned := @reverseLoop_eq str s.length (s.length / 2) 0 (Nat.zero_add _) str
    fun k => (if_neg (by omega)).symm
  refine ⟨?_, fun c inside => holds.visible c (List.mem_reverse.mp inside), ?_⟩
  · rw [List.length_reverse]
    refine List.ext_getElem (by simp) fun k below below' => ?_
    have inside : k < s.length := by simpa using below
    have here : str (s.length - 1 - k) = s[s.length - 1 - k] := by
      rw [List.getElem_of_eq holds.bytes.symm]
      simp
    rw [List.getElem_map, List.getElem_range, turned, if_pos inside, here, List.getElem_reverse]
  · rw [List.length_reverse, turned, if_neg (Nat.lt_irrefl _)]
    exact holds.ends

/-- The array that the first loop and the stores behind it leave. -/
theorem fill_string (str : Cells) {s : Bytes} (visible : ∀ c ∈ s, c ≠ 0) :
    IsString (Function.update (fill str 0 s) s.length 0) s :=
  ⟨stored_read str s, visible, Function.update_self ..⟩

end Loops

/-! ### The functions -/

section RoundTrip

variable {num : BitVec 32} {n : Nat}

theorem decimal_visible (n : Nat) : ∀ c ∈ decimal n, isDigit c := by
  have all : ∀ d < 10, isDigit (digit d) := by decide
  intro c inside
  obtain ⟨d, among, rfl⟩ := List.mem_map.mp (List.mem_reverse.mp inside)
  exact all d (Nat.digits_lt_base (by decide) among)

theorem isDigit_ne_zero {c : UInt8} (digit : isDigit c) : c ≠ 0 := by
  rintro rfl
  exact absurd digit (by decide)

theorem visible_singleton {c : UInt8} (visible : c ≠ 0) : ∀ d ∈ [c], d ≠ 0 := by
  intro d inside
  obtain rfl := List.mem_singleton.mp inside
  exact visible

/-- What the stores of `usr_itoa` come to for a number of magnitude `n`. -/
theorem usrItoa_eq (num : BitVec 32) (other : num ≠ 0) (str : Cells)
    (magnitude : (if num.slt 0 then -num else num).toNat = n) (below : n < 2 ^ 31) :
    IsString (usrItoa num str) ((if num.slt 0 then [code '-'] else []) ++ decimal n) := by
  rw [usrItoa, if_neg other]
  dsimp only
  rw [itoaLoop_eq _ (by omega), magnitude, Nat.zero_add, ← @List.length_reverse _ (decimal n)]
  have digits : ∀ c ∈ (decimal n).reverse, c ≠ 0 := fun c inside =>
    isDigit_ne_zero (decimal_visible n c (List.mem_reverse.mp inside))
  split
  · have both := fill_string str (s := (decimal n).reverse ++ [code '-']) fun c inside => by
      rcases List.mem_append.mp inside with front | sign
      · exact digits c front
      · exact visible_singleton (by decide) c sign
    rw [fill_append, Nat.zero_add, List.length_append] at both
    have turned := reverseLoop_string both
    rw [List.reverse_append, List.reverse_reverse] at turned
    rw [List.length_append] at turned
    exact turned
  · have turned := reverseLoop_string (fill_string str digits)
    rw [List.reverse_reverse] at turned
    exact turned

theorem atoiLoop_digits (l : List Nat) (small : ∀ d ∈ l, d < 10) (a : Nat) :
    atoiLoop (BitVec.ofNat 32 a) (l.map digit) =
      BitVec.ofNat 32 (l.foldl (fun n d => n * 10 + d) a) := by
  have all : ∀ d < 10, isDigit (digit d) = true ∧ BitVec.ofNat 32 (digit d).toNat -
      BitVec.ofNat 32 (code '0').toNat = BitVec.ofNat 32 d := by decide
  induction l generalizing a with
  | nil => rfl
  | cons d l ih =>
    obtain ⟨isDigit', value⟩ := all d (small d List.mem_cons_self)
    rw [List.map_cons, atoiLoop, if_pos isDigit', value, List.foldl_cons,
      ← ih fun e later => small e (List.mem_cons_of_mem d later)]
    rw [BitVec.ofNat_add, BitVec.ofNat_mul]
    rfl

theorem atoiLoop_decimal (n : Nat) : atoiLoop 0 (decimal n) = BitVec.ofNat 32 n := by
  have value := atoiLoop_digits (Nat.digits 10 n).reverse
    (fun d inside => Nat.digits_lt_base (by decide) (List.mem_reverse.mp inside)) 0
  rw [List.map_reverse] at value
  refine value.trans ?_
  rw [List.foldl_reverse]
  have folded := Nat.ofDigits_digits 10 n
  rw [Nat.ofDigits_eq_foldr] at folded
  refine congrArg _ (Eq.trans ?_ folded)
  congr 1
  funext d m
  rw [Nat.cast_id, Nat.add_comm, Nat.mul_comm]

/-- Digits without a sign. -/
theorem atoi_unsigned {s : Bytes} (digits : ∀ c ∈ s, isDigit c) : atoi s = atoiLoop 0 s := by
  cases s with
  | nil => rfl
  | cons c s =>
    have isDigit' := digits c List.mem_cons_self
    have skipped : skipBlanks (c :: s) = c :: s := by
      refine List.dropWhile_cons_of_neg ?_
      rw [decide_eq_true_eq]
      rintro (rfl | rfl) <;> exact absurd isDigit' (by decide)
    have sign : ∀ c', isDigit c' = false → (c :: s).head? ≠ some c' := by
      intro c' no is
      obtain rfl := Option.some.inj is
      rw [no] at isDigit'
      cases isDigit'
    rw [atoi, skipped]
    dsimp only
    rw [if_neg (sign (code '-') (by decide)), if_neg (sign (code '+') (by decide))]
    exact BitVec.one_mul _

theorem atoi_minus (s : Bytes) : atoi (code '-' :: s) = -atoiLoop 0 s := by
  have skipped : skipBlanks (code '-' :: s) = code '-' :: s :=
    List.dropWhile_cons_of_neg (by decide)
  rw [atoi, skipped]
  dsimp only
  rw [if_pos List.head?_cons]
  exact (BitVec.neg_mul ..).trans (congrArg _ (BitVec.one_mul _))

/-- Every number but the least one is written and read back. -/
theorem usrItoa_string (num : BitVec 32) (other : num ≠ BitVec.intMin 32) (str : Cells) :
    IsString (usrItoa num str) (numeral num.toInt) ∧ atoi (numeral num.toInt) = num := by
  have limit := num.isLt
  by_cases zero : num = 0
  · subst zero
    rw [show numeral (BitVec.toInt 0) = [code '0'] by decide, usrItoa, if_pos rfl]
    exact ⟨⟨rfl, visible_singleton (by decide), rfl⟩, by decide⟩
  have least : num.toNat ≠ 2 ^ 31 := fun same => other (BitVec.eq_of_toNat_eq same)
  have some' : num.toNat ≠ 0 := fun same => zero (BitVec.eq_of_toNat_eq same)
  have sign : num.slt 0 ↔ 2 ^ 31 ≤ num.toNat := by
    rw [BitVec.slt, decide_eq_true_eq, BitVec.toInt_eq_toNat_cond num,
      show (0 : BitVec 32).toInt = 0 from rfl]
    split <;> omega
  have value := BitVec.toInt_eq_toNat_cond num
  by_cases negative : num.slt 0
  · have high := sign.mp negative
    have magnitude : (-num).toNat = 2 ^ 32 - num.toNat := by
      rw [BitVec.toNat_neg, Nat.mod_eq_of_lt (by omega)]
    have written := usrItoa_eq num zero str (n := 2 ^ 32 - num.toNat)
      (by rw [if_pos negative, magnitude]) (by omega)
    rw [if_neg (by omega)] at value
    rw [value, show (num.toNat : Int) - (2 ^ 32 : Nat) = -((2 ^ 32 - num.toNat : Nat) : Int) by omega,
      numeral_neg (by omega), atoi_minus, atoiLoop_decimal]
    rw [if_pos negative] at written
    refine ⟨written, ?_⟩
    rw [← magnitude, BitVec.ofNat_toNat, BitVec.setWidth_eq, BitVec.neg_neg]
  · have low := mt sign.mpr negative
    have written := usrItoa_eq num zero str (n := num.toNat) (by rw [if_neg negative]) (by omega)
    rw [if_pos (by omega)] at value
    rw [value, numeral_natCast (by omega), atoi_unsigned (decimal_visible _), atoiLoop_decimal]
    rw [if_neg negative] at written
    refine ⟨written, ?_⟩
    rw [BitVec.ofNat_toNat, BitVec.setWidth_eq]

/-- The least number is its own negative, so no digit is written. -/
theorem usrItoa_least (str : Cells) : IsString (usrItoa (BitVec.intMin 32) str) [code '-'] := by
  have loop : itoaLoop (BitVec.intMin 32) str 0 = (str, 0) := by
    rw [itoaLoop]
    exact dif_neg (by decide)
  rw [usrItoa, if_neg (by decide)]
  dsimp only
  rw [if_pos (by decide), if_pos (by decide), show -BitVec.intMin 32 = BitVec.intMin 32 by decide,
    loop]
  exact reverseLoop_string (fill_string str (visible_singleton (c := code '-') (by decide)))

theorem not_roundTrips_least (str : Cells) : ¬ RoundTrips (BitVec.intMin 32) str := by
  rintro ⟨s, written, canonical, -⟩
  rw [canonical] at written
  exact absurd (written.unique (usrItoa_least str)) (by decide)

end RoundTrip

/-- Every `int` but the least one survives `usr_itoa` and `atoi`. -/
theorem itoa_atoi_iff (num : BitVec 32) (str : Cells) :
    RoundTrips num str ↔ num ≠ BitVec.intMin 32 := by
  constructor
  · rintro round rfl
    exact not_roundTrips_least str round
  · intro other
    obtain ⟨written, back⟩ := usrItoa_string num other str
    exact ⟨_, written, rfl, back⟩

/-- Of the least number, `usr_itoa` writes the sign alone, and `atoi` reads zero. -/
theorem itoa_least_fails : IsString (usrItoa (BitVec.intMin 32) fun _ => 0) [code '-'] ∧
    atoi [code '-'] = 0 ∧ ¬ RoundTrips (BitVec.intMin 32) fun _ => 0 :=
  ⟨usrItoa_least _, by decide, not_roundTrips_least _⟩

end Xv6Lab.Print

import Xv6Lab.Print.Agree

/-! Numbers in `printf` and `snprintf`: the digits that the two converters put into their local
arrays, store by store, and the values that the digits have. -/

namespace Xv6Lab.Print

/-! ### Local arrays -/

/-- The bytes of a local array, which starts with what the stack holds. -/
abbrev Cells := Nat → UInt8

/-- `a[i] = c` in an array of `cap` bytes; `none` where the store leaves the array. -/
def put (cap : Nat) (a : Cells) (i : Nat) (c : UInt8) : Option Cells :=
  if i < cap then some (Function.update a i c) else none

/-- `a[i++] = c` for every byte of a list. -/
def putAll (cap : Nat) : Cells → Nat → Bytes → Option (Cells × Nat)
  | a, i, [] => some (a, i)
  | a, i, c :: s => do putAll cap (← put cap a i c) (i + 1) s

/-- `do { a[i++] = digits[x % base]; } while ((x /= base) != 0)` -/
def digitsInto (cap base : Nat) : Nat → Nat → Cells → Nat → Option (Cells × Nat)
  | 0, _, a, i => some (a, i)
  | fuel + 1, x, a, i => do
    let a ← put cap a i (digit (x % base))
    if x / base = 0 then return (a, i + 1) else digitsInto cap base fuel (x / base) a (i + 1)

/-- `printint`, with the stores to `char buf[32]`. -/
def printintInto (buf : Cells) (o : Uart) (xx : BitVec 64) (base : Nat) (sign : Bool) (width : Nat)
    (padzero : Bool) : Option Uart := do
  let neg := sign && xx.msb
  let (buf, i) ← digitsInto 32 base 64 (if neg then (-xx).toNat else xx.toNat) buf 0
  let (buf, i) ← putAll 32 buf i (if neg then [code '-'] else [])
  let o := (List.replicate (width - i) (padding padzero)).foldl uartPutc o
  return (((List.range i).map buf).reverse.foldl uartPutc o)

/-- `while (i > 0) buf[len++] = tmp[--i]` -/
def copyDown (tmp : Cells) : Nat → Cells → Nat → Option (Cells × Nat)
  | 0, buf, len => some (buf, len)
  | i + 1, buf, len => do copyDown tmp i (← put 32 buf len (tmp i)) (len + 1)

/-- `int_to_str`, with the stores to `char tmp[32]` and to the `char numbuf[32]` of its caller. -/
def intToStrInto (tmp buf : Cells) (x : BitVec 64) (base : Nat) (sign : Bool) :
    Option (Cells × Nat) := do
  let neg := sign && x.msb
  let (buf, len) ← putAll 32 buf 0 (if neg then [code '-'] else [])
  let (tmp, i) ← digitsInto 32 base 64 (if neg then (-x).toNat else x.toNat) tmp 0
  let (buf, len) ← copyDown tmp i buf len
  let buf ← put 32 buf len 0
  return (buf, len)

/-- `%p` of `vprintf`, with the stores to `char buf[17]`. -/
def printPointer (buf : Cells) (o : Uart) (ptr : BitVec 64) : Option Uart := do
  let o := uartPuts o [code '0', code 'x']
  let (buf, i) ← putAll 17 buf 0 (pointerDigits ptr)
  let buf ← put 17 buf i 0
  return uartPuts o ((List.range 17).map buf)

/-- `char pbuf[18] = "0x"` -/
def pointerMark : Cells := fun i => ([code '0', code 'x'] : Bytes).getD i 0

/-- `%p` of `vsnprintf`, with the stores to `char pbuf[18]`. -/
def storePointer (ptr : BitVec 64) : Option (Cells × Nat) := do
  let (pbuf, pi) ← putAll 18 pointerMark 2 (pointerDigits ptr)
  let pbuf ← put 18 pbuf pi 0
  return (pbuf, pi)

/-! ### What the arrays hold -/

/-- An array after a list has been stored from `i` on. -/
def fill (a : Cells) : Nat → Bytes → Cells
  | _, [] => a
  | i, c :: s => fill (Function.update a i c) (i + 1) s

section Arrays

variable {cap base : Nat} {a : Cells} {i : Nat} {s : Bytes}

theorem fill_before (s : Bytes) : ∀ (a : Cells) {i k : Nat}, k < i → fill a i s k = a k := by
  induction s with
  | nil => exact fun a _ _ _ => rfl
  | cons c s ih =>
    intro a i k before
    rw [fill, ih _ (by omega), Function.update_of_ne (by omega)]

theorem fill_behind (s : Bytes) : ∀ (a : Cells) {i k : Nat}, i + s.length ≤ k → fill a i s k = a k := by
  induction s with
  | nil => exact fun a _ _ _ => rfl
  | cons c s ih =>
    intro a i k behind
    rw [List.length_cons] at behind
    rw [fill, ih _ (by omega), Function.update_of_ne (by omega)]

/-- The bytes stored, read in order. -/
theorem fill_read (s : Bytes) : ∀ (a : Cells) (i : Nat), (List.range' i s.length).map (fill a i s) = s := by
  induction s with
  | nil => exact fun a i => rfl
  | cons c s ih =>
    intro a i
    rw [List.length_cons, List.range'_succ, List.map_cons, fill, ih, fill_before s _ (by omega),
      Function.update_self]

theorem fill_append (s t : Bytes) : ∀ (a : Cells) (i : Nat),
    fill a i (s ++ t) = fill (fill a i s) (i + s.length) t := by
  induction s with
  | nil => exact fun a i => rfl
  | cons c s ih =>
    intro a i
    rw [List.cons_append, fill, ih, fill, List.length_cons, Nat.add_comm s.length 1, Nat.add_assoc]

theorem putAll_eq (s : Bytes) : ∀ (a : Cells) {i : Nat}, i ≤ cap → putAll cap a i s =
    if i + s.length ≤ cap then some (fill a i s, i + s.length) else none := by
  induction s with
  | nil =>
    intro a i inside
    exact (if_pos inside).symm
  | cons c s ih =>
    intro a i inside
    rw [putAll, put, List.length_cons]
    by_cases room : i < cap
    · rw [if_pos room, Option.bind_eq_bind, Option.bind_some, ih _ room]
      rw [show i + 1 + s.length = i + (s.length + 1) by omega]
      rfl
    · rw [if_neg room, if_neg (by omega)]
      rfl

theorem putAll_append (s t : Bytes) : ∀ (a : Cells) (i : Nat), putAll cap a i (s ++ t) =
    (putAll cap a i s).bind fun (a, i) => putAll cap a i t := by
  induction s with
  | nil => exact fun a i => rfl
  | cons c s ih =>
    intro a i
    rw [List.cons_append, putAll, putAll]
    cases put cap a i c with
    | none => rfl
    | some b => exact ih b (i + 1)

theorem digitsInto_eq (fuel : Nat) : ∀ (x : Nat) (a : Cells) (i : Nat),
    digitsInto cap base fuel x a i = putAll cap a i (digitLoop base fuel x) := by
  induction fuel with
  | zero => exact fun x a i => rfl
  | succ fuel ih =>
    intro x a i
    rw [digitsInto, digitLoop, putAll]
    cases put cap a i (digit (x % base)) with
    | none => rfl
    | some b =>
      by_cases last : x / base = 0
      · simp only [Option.bind_eq_bind, Option.bind_some, if_pos last]
        rfl
      · simp only [Option.bind_eq_bind, Option.bind_some, if_neg last]
        exact ih (x / base) b (i + 1)

/-- The stores of `printint` stay in its array exactly where the digits fit. -/
theorem printintInto_eq (buf : Cells) (o : Uart) (xx : BitVec 64) (base : Nat) (sign : Bool)
    (width : Nat) (padzero : Bool) : printintInto buf o xx base sign width padzero =
      printint o xx base sign width padzero := by
  unfold printintInto printint
  dsimp only
  generalize (sign && xx.msb) = neg
  have stored : ((digitsInto 32 base 64 (if neg then (-xx).toNat else xx.toNat) buf 0).bind
      fun (buf, i) => putAll 32 buf i (if neg then [code '-'] else [])) =
        putAll 32 buf 0 (digits base (if neg then (-xx).toNat else xx.toNat) ++
          if neg then [code '-'] else []) := by
    rw [putAll_append, digitsInto_eq]
    rfl
  generalize digits base (if neg then (-xx).toNat else xx.toNat) ++
    (if neg then [code '-'] else []) = s at stored ⊢
  rw [putAll_eq s buf (Nat.zero_le 32), Nat.zero_add] at stored
  simp only [Option.bind_eq_bind, Option.pure_def]
  rw [← Option.bind_assoc]
  refine (congrArg (Option.bind · _) stored).trans ?_
  split
  · next fits =>
    rw [Option.bind_some]
    dsimp only
    rw [List.range_eq_range', fill_read, List.foldl_append]
  · rfl

/-- A string of `numbuf`, without its zero. -/
theorem stored_read (buf : Cells) (s : Bytes) :
    (List.range s.length).map (Function.update (fill buf 0 s) s.length 0) = s := by
  have same : (List.range s.length).map (Function.update (fill buf 0 s) s.length 0) =
      (List.range s.length).map (fill buf 0 s) := by
    apply List.map_congr_left
    intro k inside
    exact Function.update_of_ne (Nat.ne_of_lt (List.mem_range.mp inside)) _ _
  rw [same, List.range_eq_range', fill_read]

theorem copyDown_eq (tmp : Cells) (i : Nat) : ∀ (buf : Cells) (len : Nat),
    copyDown tmp i buf len = putAll 32 buf len ((List.range i).map tmp).reverse := by
  induction i with
  | zero => exact fun buf len => rfl
  | succ i ih =>
    intro buf len
    rw [copyDown, List.range_succ, List.map_append, List.reverse_append]
    show _ = putAll 32 buf len (tmp i :: ((List.range i).map tmp).reverse)
    rw [putAll]
    cases put 32 buf len (tmp i) with
    | none => rfl
    | some b => exact ih b (len + 1)

/-- The stores of `int_to_str` stay in both arrays exactly where `intToStr` has a result, and leave
it in `numbuf` with a zero behind it. -/
theorem intToStrInto_eq (tmp buf : Cells) (x : BitVec 64) (base : Nat) (sign : Bool) :
    intToStrInto tmp buf x base sign = (intToStr x base sign).map fun s =>
      (Function.update (fill buf 0 s) s.length 0, s.length) := by
  unfold intToStrInto intToStr
  dsimp only
  generalize (sign && x.msb) = neg
  generalize magnitude : (if neg then (-x).toNat else x.toNat) = n
  have few : (if neg then [code '-'] else []).length ≤ 1 := by
    split <;> simp
  generalize (if neg then [code '-'] else []) = mark at few ⊢
  have result : digitsInto 32 base 64 n tmp 0 = putAll 32 tmp 0 (digits base n) :=
    digitsInto_eq 64 n tmp 0
  generalize digits base n = s at result ⊢
  rw [putAll_eq mark buf (Nat.zero_le 32), if_pos (by omega)]
  simp only [Option.bind_eq_bind, Option.bind_some, Option.pure_def, result, Nat.zero_add,
    putAll_eq s tmp (Nat.zero_le 32)]
  by_cases fits : s.length ≤ 32
  · rw [if_pos fits, Option.bind_some]
    dsimp only
    rw [copyDown_eq, List.range_eq_range', fill_read, putAll_eq s.reverse _ (by omega),
      List.length_append, List.length_reverse]
    by_cases room : mark.length + s.length + 1 ≤ 32
    · rw [if_pos (by omega), if_pos ⟨fits, room⟩, Option.bind_some]
      dsimp only
      rw [put, if_pos (by omega), Option.bind_some, Option.map_some, fill_append, Nat.zero_add,
        List.length_append, List.length_reverse]
    · rw [if_neg (show ¬ (s.length ≤ 32 ∧ mark.length + s.length + 1 ≤ 32) by omega)]
      by_cases last : mark.length + s.length ≤ 32
      · rw [if_pos (by omega), Option.bind_some]
        dsimp only
        rw [put, if_neg (by omega)]
        rfl
      · rw [if_neg (by omega)]
        rfl
  · rw [if_neg fits, if_neg fun both => fits both.1]
    rfl

end Arrays

/-! ### What the digits say -/

/-- The value of a digit, where it is one. -/
def digitValue (c : UInt8) : Option Nat :=
  if code '0' ≤ c ∧ c ≤ code '9' then some (c.toNat - (code '0').toNat)
  else if code 'a' ≤ c ∧ c ≤ code 'f' then some (c.toNat - (code 'a').toNat + 10)
  else none

/-- One more digit. -/
def readDigit (base n : Nat) (c : UInt8) : Option Nat := do
  let d ← digitValue c
  if d < base then some (n * base + d) else none

/-- The number that digits denote in a base, with a sign in front or not. -/
def readNumber (base : Nat) : Bytes → Option Int
  | [] => none
  | c :: s =>
    if c = code '-' then (s.foldlM (readDigit base) 0).map fun n : Nat => -(n : Int)
    else ((c :: s).foldlM (readDigit base) 0).map fun n : Nat => (n : Int)

/-- The text denotes the value, without a zero in front of other digits. -/
structure Renders (base : Nat) (value : Int) (s : Bytes) : Prop where
  reads : readNumber base s = some value
  short : ∀ front rest, (front = [] ∨ front = [code '-']) → s = front ++ code '0' :: rest → rest = []

section Digits

variable {base n : Nat}

theorem readDigit_digit (n : Nat) {d : Nat} (small : base ≤ 16) (below : d < base) :
    readDigit base n (digit d) = some (n * base + d) := by
  have all : ∀ d < 16, digitValue (digit d) = some d := by decide
  rw [readDigit, all d (by omega)]
  exact if_pos below

/-- The digits of the loop denote its number. -/
theorem digitLoop_reads (positive : 2 ≤ base) (small : base ≤ 16) (fuel : Nat) :
    ∀ {n : Nat}, n < base ^ fuel → (digitLoop base fuel n).reverse.foldlM (readDigit base) 0 =
      some n := by
  induction fuel with
  | zero =>
    intro n below
    obtain rfl : n = 0 := by simpa using below
    rfl
  | succ fuel ih =>
    intro n below
    have less : n % base < base := Nat.mod_lt _ (by omega)
    have front : (if n / base = 0 then [] else digitLoop base fuel (n / base)).reverse.foldlM
        (readDigit base) 0 = some (n / base) := by
      split
      · next last =>
        rw [last]
        rfl
      · exact ih (Nat.div_lt_of_lt_mul (pow_succ' base fuel ▸ below))
    rw [digitLoop, List.reverse_cons, List.foldlM_append, front]
    show ([digit (n % base)].foldlM (readDigit base) (n / base)) = _
    rw [List.foldlM_cons, readDigit_digit _ small less]
    show some (n / base * base + n % base) = _
    rw [Nat.div_add_mod']

/-- The first digit is no zero, unless it is the only one. -/
theorem digitLoop_first (positive : 2 ≤ base) (small : base ≤ 16) (fuel : Nat) :
    ∀ {n : Nat} {rest : Bytes}, n < base ^ fuel →
      (digitLoop base fuel n).reverse = code '0' :: rest → rest = [] := by
  induction fuel with
  | zero =>
    intro n rest _ is
    cases is
  | succ fuel ih =>
    intro n rest below is
    rw [digitLoop, List.reverse_cons] at is
    split at is
    · exact (List.cons.inj is).2.symm
    · next more =>
      have less : n / base < base ^ fuel := Nat.div_lt_of_lt_mul (pow_succ' base fuel ▸ below)
      have reads := digitLoop_reads positive small fuel less
      cases first : (digitLoop base fuel (n / base)).reverse with
      | nil =>
        rw [first] at reads
        exact absurd (Option.some.inj reads).symm more
      | cons c s =>
        rw [first] at is reads
        obtain ⟨rfl, -⟩ := List.cons.inj is
        obtain rfl := ih less first
        have zero : readDigit base 0 (digit 0) = some (0 * base + 0) :=
          readDigit_digit 0 small (by omega)
        rw [show digit 0 = code '0' by decide] at zero
        rw [List.foldlM_cons, zero] at reads
        have same := Option.some.inj reads
        omega

end Digits

/-! ### Conversions -/

/-- The conversions of numbers. -/
inductive Conversion
  | d | u | x | o | b
  deriving DecidableEq, Repr

def Conversion.letter : Conversion → UInt8
  | .d => code 'd'
  | .u => code 'u'
  | .x => code 'x'
  | .o => code 'o'
  | .b => code 'b'

def Conversion.radix : Conversion → Radix
  | .d => .dec true
  | .u => .dec false
  | .x => .hex
  | .o => .oct
  | .b => .bin

/-- The argument of a conversion: of 32 bits, or of 64 with an `l`. -/
inductive Number
  | int (v : BitVec 32)
  | long (v : BitVec 64)
  deriving DecidableEq, Repr

def Number.isLong : Number → Bool
  | int _ => false
  | long _ => true

def Number.arg : Number → Arg
  | int v => .int v
  | long v => .long v

/-- What the converters get: only `%u` fetches an `unsigned int`. -/
def Conversion.extend : Conversion → Number → BitVec 64
  | _, .long v => v
  | .u, .int v => v.setWidth 64
  | _, .int v => v.signExtend 64

/-- The value of the argument in its declared width: signed for `%d`, unsigned for the others. -/
def Conversion.value : Conversion → Number → Int
  | .d, .int v => v.toInt
  | .d, .long v => v.toInt
  | _, .int v => v.toNat
  | _, .long v => v.toNat

/-- `vprintf` stores inside its array, and sends the digits of the value with their padding. -/
def PrintsFaithfully (c : Conversion) (n : Number) : Prop :=
  ∀ buf o padzero width args, ∃ s o', Renders c.radix.base (c.value n) s ∧
    printintInto buf o (c.extend n) c.radix.base c.radix.sign width padzero = some o' ∧
    o' = (List.replicate (width - s.length) (padding padzero) ++ s).foldl uartPutc o ∧
    printDirective ⟨padzero, width, n.isLong, c.letter⟩ (n.arg :: args) o = some (o', args)

/-- `vsnprintf` stores inside its arrays, leaves the digits of the value in `numbuf`, and copies them
with their padding. -/
def StoresFaithfully (c : Conversion) (n : Number) : Prop :=
  ∀ tmp numbuf size out padzero width args, ∃ s b, Renders c.radix.base (c.value n) s ∧
    intToStrInto tmp numbuf (c.extend n) c.radix.base c.radix.sign = some (b, s.length) ∧
    (List.range s.length).map b = s ∧ b s.length = 0 ∧
    storeDirective size ⟨padzero, width, n.isLong, c.letter⟩ (n.arg :: args) out =
      some (storePadded size out width padzero s, args)

/-- `%p` of `vprintf` stores inside its array, and sends sixteen digits of the value. -/
def PrintsPointer (ptr : BitVec 64) : Prop :=
  ∀ buf o padzero width isLong args, ∃ s o', readNumber 16 s = some (ptr.toNat : Int) ∧
    s.length = 16 ∧ printPointer buf o ptr = some o' ∧
    o' = ([code '0', code 'x'] ++ s).foldl uartPutc o ∧
    printDirective ⟨padzero, width, isLong, code 'p'⟩ (.ptr ptr :: args) o = some (o', args)

/-- `%p` of `vsnprintf` stores inside its array, and leaves sixteen digits of the value there. -/
def StoresPointer (ptr : BitVec 64) : Prop :=
  ∃ s b, readNumber 16 s = some (ptr.toNat : Int) ∧ storePointer ptr = some (b, s.length + 2) ∧
    (List.range' 2 s.length).map b = s

/-- The extension to 64 bits keeps the value. -/
def Conversion.Kept : Conversion → Number → Prop
  | .x, .int v => 0 ≤ v.toInt
  | .o, .int v => 0 ≤ v.toInt
  | .b, .int v => 0 ≤ v.toInt
  | _, _ => True

/-- A number that `%b` gets is below a bound. -/
def Conversion.Below (bound : Nat) : Conversion → Number → Prop
  | .b, .int v => v.toNat < bound
  | .b, .long v => v.toNat < bound
  | _, _ => True

section Conversions

variable {c : Conversion} {n : Number} {radix : Radix} {x : BitVec 64}

/-- The number that a converter gets. -/
def Radix.number (radix : Radix) (x : BitVec 64) : Int := if radix.sign then x.toInt else x.toNat

theorem Radix.base_bounds (radix : Radix) : 2 ≤ radix.base ∧ radix.base ≤ 16 := by
  cases radix <;> simp [Radix.base]

theorem magnitude_small (radix : Radix) (x : BitVec 64) :
    magnitude radix x < radix.base ^ 64 :=
  Nat.lt_of_lt_of_le (magnitude_lt radix x) (Nat.pow_le_pow_left radix.base_bounds.1 64)

theorem digit_ne_minus {n : Nat} (small : n < 16) : digit n ≠ code '-' := by
  have all : ∀ n < 16, digit n ≠ code '-' := by decide
  exact all n small

theorem digitLoop_ne_minus {base : Nat} (positive : 2 ≤ base) (small : base ≤ 16) (fuel : Nat) :
    ∀ n : Nat, ∀ c ∈ digitLoop base fuel n, c ≠ code '-' := by
  induction fuel with
  | zero => exact fun n c inside => by cases inside
  | succ fuel ih =>
    intro n c inside
    rw [digitLoop, List.mem_cons] at inside
    rcases inside with rfl | later
    · exact digit_ne_minus (Nat.lt_of_lt_of_le (Nat.mod_lt _ (by omega)) small)
    · split at later
      · cases later
      · exact ih _ c later

theorem readNumber_unsigned {base n : Nat} {s : Bytes} (some' : s ≠ [])
    (unsigned : ∀ c ∈ s, c ≠ code '-') (reads : s.foldlM (readDigit base) 0 = some n) :
    readNumber base s = some (n : Int) := by
  cases s with
  | nil => exact absurd rfl some'
  | cons c s =>
    rw [readNumber, if_neg (unsigned c List.mem_cons_self), reads]
    rfl

theorem digits_renders {base n : Nat} (positive : 2 ≤ base) (small : base ≤ 16)
    (below : n < base ^ 64) : Renders base n (digits base n).reverse := by
  have unsigned : ∀ c ∈ (digits base n).reverse, c ≠ code '-' := fun c inside =>
    digitLoop_ne_minus positive small 64 n c (List.mem_reverse.mp inside)
  refine ⟨?_, fun front rest signs is => ?_⟩
  · refine readNumber_unsigned ?_ unsigned (digitLoop_reads positive small 64 below)
    rw [digits, digitLoop]
    simp
  · rcases signs with rfl | rfl
    · exact digitLoop_first positive small 64 below is
    · exact absurd rfl (unsigned (code '-') (is ▸ List.mem_cons_self))

/-- A sign in front of digits. -/
theorem negative_renders {base n : Nat} (positive : 2 ≤ base) (small : base ≤ 16)
    (below : n < base ^ 64) : Renders base (-n) (code '-' :: (digits base n).reverse) := by
  refine ⟨?_, fun front rest signs is => ?_⟩
  · have reads := digitLoop_reads positive small 64 below
    rw [readNumber, if_pos rfl]
    show (((digitLoop base 64 n).reverse.foldlM (readDigit base) 0).map _) = _
    rw [reads]
    rfl
  · rcases signs with rfl | rfl
    · have sign := (List.cons.inj is).1
      exact absurd sign (by decide)
    · exact digitLoop_first positive small 64 below (List.cons.inj is).2

/-- The text of a number denotes the number that the converter gets. -/
theorem rendered_renders (radix : Radix) (x : BitVec 64) :
    Renders radix.base (radix.number x) (rendered radix x) := by
  obtain ⟨positive, small⟩ := radix.base_bounds
  have below := magnitude_small radix x
  unfold rendered minus Radix.number
  by_cases neg : (radix.sign && x.msb) = true
  · have is : magnitude radix x = (-x).toNat := if_pos neg
    rw [is] at below ⊢
    rw [if_pos neg]
    rw [Bool.and_eq_true] at neg
    have value : x.toInt = -((-x).toNat : Int) := by
      have sign := neg.2
      rw [BitVec.msb_eq_decide, decide_eq_true_eq] at sign
      rw [BitVec.toInt_eq_toNat_cond, BitVec.toNat_neg]
      have limit := x.isLt
      split <;> omega
    rw [if_pos neg.1, value]
    exact negative_renders positive small below
  · have is : magnitude radix x = x.toNat := if_neg neg
    rw [is] at below ⊢
    rw [if_neg neg]
    have value : (if radix.sign then x.toInt else x.toNat) = (x.toNat : Int) := by
      split
      · next signed =>
        have positive : x.msb = false := by simpa [signed] using neg
        rw [BitVec.msb_eq_decide, decide_eq_false_iff_not] at positive
        rw [BitVec.toInt_eq_toNat_cond, if_pos (by omega)]
      · rfl
    rw [value]
    exact digits_renders positive small below

/-- The number that a text denotes is one. -/
theorem Renders.unique {base : Nat} {v w : Int} {s : Bytes} (one : Renders base v s)
    (two : Renders base w s) : v = w :=
  Option.some.inj (one.reads.symm.trans two.reads)

theorem printintInto_rendered (buf : Cells) (o : Uart) (radix : Radix) (x : BitVec 64) (width : Nat)
    (padzero : Bool) : printintInto buf o x radix.base radix.sign width padzero =
      if (rendered radix x).length ≤ 32 then
        some ((List.replicate (width - (rendered radix x).length) (padding padzero) ++
          rendered radix x).foldl uartPutc o)
      else none := by
  rw [printintInto_eq, printint_eq o ⟨padzero, width, false, 0⟩ radix x, numText_eq]
  split <;> rfl

theorem printDirective_number (c : Conversion) (n : Number) (buf : Cells) (o : Uart) (padzero : Bool)
    (width : Nat) (args : Args) :
    printDirective ⟨padzero, width, n.isLong, c.letter⟩ (n.arg :: args) o =
      (printintInto buf o (c.extend n) c.radix.base c.radix.sign width padzero).map (·, args) := by
  rw [printintInto_eq]
  have fetched : printDirective ⟨padzero, width, n.isLong, c.letter⟩ (n.arg :: args) o =
      (printint o (c.extend n) c.radix.base c.radix.sign width padzero).bind
        fun o => some (o, args) := by
    cases c <;> cases n <;> rfl
  rw [fetched]
  cases printint o (c.extend n) c.radix.base c.radix.sign width padzero <;> rfl

theorem storeDirective_number (c : Conversion) (n : Number) (size : Nat) (out : Bytes)
    (padzero : Bool) (width : Nat) (args : Args) :
    storeDirective size ⟨padzero, width, n.isLong, c.letter⟩ (n.arg :: args) out =
      (intToStr (c.extend n) c.radix.base c.radix.sign).map fun s =>
        (storePadded size out width padzero s, args) := by
  have fetched : storeDirective size ⟨padzero, width, n.isLong, c.letter⟩ (n.arg :: args) out =
      (intToStr (c.extend n) c.radix.base c.radix.sign).bind fun s =>
        some (storePadded size out width padzero s, args) := by
    cases c <;> cases n <;> rfl
  rw [fetched]
  cases intToStr (c.extend n) c.radix.base c.radix.sign <;> rfl

/-- `vprintf` is faithful exactly if the digits fit and the extension keeps the value. -/
theorem printsFaithfully_iff : PrintsFaithfully c n ↔
    (rendered c.radix (c.extend n)).length ≤ 32 ∧ c.radix.number (c.extend n) = c.value n := by
  have renders := rendered_renders c.radix (c.extend n)
  constructor
  · intro faithful
    obtain ⟨s, o', reads, printed, sent, -⟩ := faithful (fun _ => 0) ⟨[], []⟩ false 0 []
    rw [printintInto_rendered] at printed
    split at printed
    · next fits =>
      have same := congrArg Uart.sent ((Option.some.inj printed).trans sent)
      simp only [foldl_uartPutc, Nat.zero_sub, List.replicate_zero, List.nil_append] at same
      rw [same] at renders
      exact ⟨fits, renders.unique reads⟩
    · cases printed
  · rintro ⟨fits, value⟩ buf o padzero width args
    rw [value] at renders
    refine ⟨_, _, renders, ?_, rfl, ?_⟩
    · rw [printintInto_rendered, if_pos fits]
    · rw [printDirective_number c n buf, printintInto_rendered, if_pos fits]
      rfl

/-- `vsnprintf` needs room for a zero, too. -/
theorem storesFaithfully_iff : StoresFaithfully c n ↔
    (rendered c.radix (c.extend n)).length < 32 ∧ c.radix.number (c.extend n) = c.value n := by
  have renders := rendered_renders c.radix (c.extend n)
  have text := intToStr_eq c.radix (c.extend n)
  constructor
  · intro faithful
    obtain ⟨s, b, reads, stored, holds, -, -⟩ :=
      faithful (fun _ => 0) (fun _ => 0) 0 [] false 0 []
    rw [intToStrInto_eq, text] at stored
    split at stored
    · next fits =>
      obtain ⟨rfl, length⟩ := Prod.mk.inj (Option.some.inj stored)
      have same : s = rendered c.radix (c.extend n) := by
        rw [← length, stored_read] at holds
        exact holds.symm
      rw [same] at reads
      exact ⟨fits, renders.unique reads⟩
    · cases stored
  · rintro ⟨fits, value⟩ tmp numbuf size out padzero width args
    rw [value] at renders
    refine ⟨_, Function.update (fill numbuf 0 (rendered c.radix (c.extend n)))
      (rendered c.radix (c.extend n)).length 0, renders, ?_, stored_read _ _,
      Function.update_self .., ?_⟩
    · rw [intToStrInto_eq, text, if_pos fits]
      rfl
    · rw [storeDirective_number, text, if_pos fits]
      rfl

/-- The sign extension of a negative number is no number of 32 bits. -/
theorem signExtend_kept (v : BitVec 32) :
    ((v.signExtend 64).toNat : Int) = v.toNat ↔ 0 ≤ v.toInt := by
  have limit := v.isLt
  have value := BitVec.toInt_signExtend_of_le (x := v) (show 32 ≤ 64 by decide)
  rw [BitVec.toInt_eq_toNat_cond] at value
  have signed := BitVec.toInt_eq_toNat_cond v
  split at value <;> split at signed <;> omega

theorem number_extend (c : Conversion) (n : Number) :
    c.radix.number (c.extend n) = c.value n ↔ c.Kept n := by
  have short (v : BitVec 32) : ((v.setWidth 64).toNat : Int) = v.toNat := by
    rw [BitVec.toNat_setWidth]
    omega
  cases n with
  | long v => cases c <;> exact iff_of_true rfl trivial
  | int v =>
    cases c with
    | d => exact iff_of_true (BitVec.toInt_signExtend_of_le (by decide)) trivial
    | u => exact iff_of_true (short v) trivial
    | x => exact signExtend_kept v
    | o => exact signExtend_kept v
    | b => exact signExtend_kept v

theorem below_iff {k : Nat} (kept : c.Kept n) :
    (c.radix = .bin → (c.extend n).toNat < 2 ^ k) ↔ c.Below (2 ^ k) n := by
  cases c with
  | b =>
    cases n with
    | long v => exact ⟨fun short => short rfl, fun short _ => short⟩
    | int v =>
      have value := (signExtend_kept v).mpr kept
      have same : (v.signExtend 64).toNat = v.toNat := by omega
      show (_ → (v.signExtend 64).toNat < 2 ^ k) ↔ v.toNat < 2 ^ k
      rw [same]
      exact ⟨fun short => short rfl, fun short _ => short⟩
  | _ => cases n <;> exact iff_of_true nofun trivial

/-- The digits of a pointer so far. -/
theorem pointerDigits_reads (ptr : BitVec 64) (k : Nat) (upTo : k ≤ 16) :
    ((List.range k).map fun i => digit ((ptr >>> ((15 - i) * 4)).toNat % 16)).foldlM
      (readDigit 16) 0 = some (ptr.toNat / 16 ^ (16 - k)) := by
  induction k with
  | zero =>
    have limit := ptr.isLt
    rw [Nat.div_eq_of_lt (by omega)]
    rfl
  | succ k ih =>
    have shifted : (ptr >>> ((15 - k) * 4)).toNat = ptr.toNat / 16 ^ (15 - k) := by
      rw [BitVec.toNat_ushiftRight, Nat.shiftRight_eq_div_pow, Nat.mul_comm, Nat.pow_mul]
    have deeper : ptr.toNat / 16 ^ (16 - k) = ptr.toNat / 16 ^ (15 - k) / 16 := by
      rw [Nat.div_div_eq_div_mul, ← Nat.pow_succ, show (15 - k).succ = 16 - k by omega]
    rw [List.range_succ, List.map_append, List.foldlM_append, ih (by omega)]
    show (([digit ((ptr >>> ((15 - k) * 4)).toNat % 16)] : Bytes).foldlM (readDigit 16)
      (ptr.toNat / 16 ^ (16 - k))) = _
    rw [List.foldlM_cons, readDigit_digit _ (by decide) (Nat.mod_lt _ (by decide)), shifted, deeper,
      Nat.div_add_mod', show 16 - (k + 1) = 15 - k by omega]
    rfl

theorem pointerDigits_length (ptr : BitVec 64) : (pointerDigits ptr).length = 16 := by
  rw [pointerDigits, List.length_map, List.length_range]

theorem printsPointer (ptr : BitVec 64) : PrintsPointer ptr := by
  intro buf o padzero width isLong args
  have length := pointerDigits_length ptr
  have all := pointerDigits_reads ptr 16 (Nat.le_refl 16)
  rw [Nat.sub_self, Nat.pow_zero, Nat.div_one] at all
  have unsigned : ∀ c ∈ pointerDigits ptr, c ≠ code '-' := by
    intro c inside
    obtain ⟨i, -, rfl⟩ := List.mem_map.mp inside
    exact digit_ne_minus (Nat.mod_lt _ (by decide))
  have some' : pointerDigits ptr ≠ [] := List.ne_nil_of_length_pos (by omega)
  have sent : uartPuts (uartPuts o [code '0', code 'x']) (pointerDigits ptr) =
      ([code '0', code 'x'] ++ pointerDigits ptr).foldl uartPutc o := by
    have both : ∀ c ∈ [code '0', code 'x'] ++ pointerDigits ptr, c ≠ 0 := by
      intro c inside
      rcases List.mem_append.mp inside with front | back
      · exact pointerMark_ne_zero c front
      · exact pointerDigits_ne_zero ptr c back
    rw [uartPuts_pointer, foldl_uartPutc, uartPuts, takeWhile_all both]
  refine ⟨pointerDigits ptr, _, readNumber_unsigned some' unsigned all, length, ?_, rfl, ?_⟩
  · have text : (List.range 17).map (Function.update (fill buf 0 (pointerDigits ptr)) 16 0) =
        pointerDigits ptr ++ [0] := by
      have front := stored_read buf (pointerDigits ptr)
      rw [length] at front
      rw [List.range_succ, List.map_append, front]
      rfl
    have ended : (pointerDigits ptr ++ [0]).takeWhile (· ≠ 0) = pointerDigits ptr := by
      rw [List.takeWhile_append_of_pos (by simpa using pointerDigits_ne_zero ptr)]
      simp
    have cut : ∀ o, uartPuts o (pointerDigits ptr ++ [0]) = uartPuts o (pointerDigits ptr) := by
      intro o
      rw [uartPuts, uartPuts, ended, takeWhile_all (pointerDigits_ne_zero ptr)]
    unfold printPointer
    rw [putAll_eq _ _ (by decide), length, if_pos (by decide)]
    show some (uartPuts (uartPuts o _) ((List.range 17).map
      (Function.update (fill buf 0 (pointerDigits ptr)) 16 0))) = _
    rw [text, cut, sent]
  · rw [← sent]
    rfl

theorem not_storesPointer (ptr : BitVec 64) : ¬ StoresPointer ptr := by
  rintro ⟨s, b, -, stored, -⟩
  have outside : storePointer ptr = none := by
    unfold storePointer
    rw [putAll_eq _ _ (by decide), pointerDigits_length, if_pos (by decide)]
    rfl
  rw [outside] at stored
  cases stored

end Conversions

/-- Both functions render a number faithfully and inside their arrays exactly where the extension
keeps it and, for `%b`, its digits fit; `vprintf` does so with every pointer, `vsnprintf` with none,
since the zero behind the digits leaves `pbuf`. -/
theorem numbers_faithful_iff (c : Conversion) (n : Number) (ptr : BitVec 64) :
    (PrintsFaithfully c n ↔ c.Kept n ∧ c.Below (2 ^ 32) n) ∧
    (StoresFaithfully c n ↔ c.Kept n ∧ c.Below (2 ^ 31) n) ∧
    PrintsPointer ptr ∧ ¬ StoresPointer ptr := by
  refine ⟨?_, ?_, printsPointer ptr, not_storesPointer ptr⟩
  · rw [printsFaithfully_iff, rendered_length_le _ _ (by decide) (by decide), number_extend, and_comm]
    exact and_congr_right below_iff
  · rw [storesFaithfully_iff, Nat.lt_succ_iff, rendered_length_le _ _ (by decide) (by decide),
      number_extend, and_comm]
    exact and_congr_right below_iff

/-- `%x` of -1 shows all 64 bits of the extension, `%b` of it leaves the array, and so does every
`%p` of `snprintf`. -/
theorem numbers_hex_negative :
    printf ("%x".toList.map code) [.int (-1)] = some (List.replicate 16 (code 'f')) ∧
    readNumber 16 (List.replicate 16 (code 'f')) = some (2 ^ 64 - 1) ∧
    Conversion.x.value (.int (-1)) = 2 ^ 32 - 1 ∧
    ¬ ((∀ c n, PrintsFaithfully c n ∧ StoresFaithfully c n) ∧
      ∀ ptr, PrintsPointer ptr ∧ StoresPointer ptr) := by
  refine ⟨by decide +kernel, by decide, by decide, fun faithful => ?_⟩
  have kept := (printsFaithfully_iff.mp (faithful.1 .x (.int (-1))).1).2
  exact absurd kept (by decide)

end Xv6Lab.Print

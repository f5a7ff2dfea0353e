import Mathlib.Data.List.TakeWhile
import Xv6Lab.Print.Format

/-! Formats in pieces: the characters and directives of a format with the arguments that they take,
and what each loop makes of a piece. -/

namespace Xv6Lab.Print

inductive Radix
  | dec (sign : Bool)
  | hex
  | oct
  | bin
  deriving DecidableEq, Repr

def Radix.base : Radix → Nat
  | dec _ => 10
  | hex => 16
  | oct => 8
  | bin => 2

def Radix.sign : Radix → Bool
  | dec sign => sign
  | _ => false

inductive Piece
  | lit (c : UInt8)
  | num (d : Directive) (radix : Radix) (x : BitVec 64)
  | chr (d : Directive) (c : UInt8)
  | text (d : Directive) (s : Bytes)
  | percent (d : Directive)
  | other (d : Directive)
  deriving DecidableEq, Repr

def Piece.directive : Piece → Option Directive
  | lit _ => none
  | num d _ _ => some d
  | chr d _ => some d
  | text d _ => some d
  | percent d => some d
  | other d => some d

/-- The number that a directive takes, extended to 64 bits. -/
def vaNumber (isLong : Bool) (extend : BitVec 32 → BitVec 64) (args : Args) :
    Option (BitVec 64 × Args) :=
  if isLong then vaLong args
  else do
    let (v, args) ← vaInt args
    return (extend v, args)

/-- The directive with its argument. -/
def fetch (d : Directive) (args : Args) : Option (Piece × Args) :=
  if d.c = code 'd' then do
    let (x, args) ← vaNumber d.isLong (·.signExtend 64) args
    return (.num d (.dec true) x, args)
  else if d.c = code 'x' then do
    let (x, args) ← vaNumber d.isLong (·.signExtend 64) args
    return (.num d .hex x, args)
  else if d.c = code 'u' then do
    let (x, args) ← vaNumber d.isLong (·.setWidth 64) args
    return (.num d (.dec false) x, args)
  else if d.c = code 'o' then do
    let (x, args) ← vaNumber d.isLong (·.signExtend 64) args
    return (.num d .oct x, args)
  else if d.c = code 'b' then do
    let (x, args) ← vaNumber d.isLong (·.signExtend 64) args
    return (.num d .bin x, args)
  else if d.c = code 'c' then do
    let (v, args) ← vaInt args
    return (.chr d (UInt8.ofNat v.toNat), args)
  else if d.c = code 's' then do
    let (s, args) ← vaStr args
    return (.text d ((s.getD null).takeWhile (· ≠ 0)), args)
  else if d.c = code 'p' then do
    let (ptr, args) ← vaPtr args
    return (.text d ([code '0', code 'x'] ++ pointerDigits ptr), args)
  else if d.c = code '%' then
    some (.percent d, args)
  else
    some (.other d, args)

/-- Every directive of the format is complete and finds an argument of its type. -/
inductive Reads : Bytes → Args → List Piece → Prop
  | done (args : Args) : Reads [] args []
  | lit {c : UInt8} {fmt : Bytes} {args : Args} {ps : List Piece} (plain : c ≠ code '%')
      (rest : Reads fmt args ps) : Reads (c :: fmt) args (.lit c :: ps)
  | directive {fmt fmt' : Bytes} {args args' : Args} {d : Directive} {pc : Piece} {ps : List Piece}
      (scans : scan fmt = some (d, fmt')) (takes : fetch d args = some (pc, args'))
      (rest : Reads fmt' args' ps) : Reads (code '%' :: fmt) args (pc :: ps)

theorem tail_length_le (b : Prop) [Decidable b] (l : Bytes) :
    (if b then l.tail else l).length ≤ l.length := by
  split
  · rw [List.length_tail]
    omega
  · exact Nat.le_refl _

/-- A directive makes the format shorter. -/
theorem scan_length {fmt fmt' : Bytes} {d : Directive} (scans : scan fmt = some (d, fmt')) :
    fmt'.length < fmt.length := by
  unfold scan at scans
  dsimp only at scans
  split at scans
  · cases scans
  · next c rest is =>
    cases scans
    have flag := tail_length_le (fmt.head? = some (code '0')) fmt
    have digits := (List.dropWhile_sublist isDigit (l :=
      if fmt.head? = some (code '0') then fmt.tail else fmt)).length_le
    have letter := is ▸ tail_length_le _ _
    rw [List.length_cons] at letter
    omega

/-! ### What the loops make of a piece -/

/-- `printint` of a number; `none` where its digits outgrow the buffer. -/
def numText (d : Directive) (radix : Radix) (x : BitVec 64) : Option Bytes :=
  let neg := radix.sign && x.msb
  let buf := digits radix.base (if neg then (-x).toNat else x.toNat) ++ if neg then [code '-'] else []
  if buf.length ≤ 32 then
    some (List.replicate (d.width - buf.length) (padding d.padzero) ++ buf.reverse)
  else
    none

/-- `vprintf` at a piece. -/
def emit (o : Uart) : Piece → Option Uart
  | .lit c => some (bufferChar o c)
  | .num d radix x =>
    if d.width < 2 ^ 31 then (numText d radix x).map (·.foldl uartPutc (flushPrintfBuffer o)) else none
  | .chr d c => if d.width < 2 ^ 31 then some (uartPutc (flushPrintfBuffer o) c) else none
  | .text d s => if d.width < 2 ^ 31 then some (uartPuts (flushPrintfBuffer o) s) else none
  | .percent d =>
    if d.width < 2 ^ 31 then some (bufferChar (flushPrintfBuffer o) (code '%')) else none
  | .other d =>
    if d.width < 2 ^ 31 then
      let o := bufferChar (flushPrintfBuffer o) (code '%')
      let o := if d.padzero then bufferChar o (code '0') else o
      let o := if d.width ≠ 0 then bufferChar o (UInt8.ofNat ((code '0').toNat + d.width)) else o
      let o := if d.isLong then bufferChar o (code 'l') else o
      some (bufferChar o d.c)
    else
      none

/-- What `vsnprintf` stores for a piece where there is room. -/
def stores : Piece → Option Bytes
  | .lit c => some [c]
  | .num d radix x =>
    if d.width < 2 ^ 31 then
      (intToStr x radix.base radix.sign).map fun s =>
        List.replicate (d.width - s.length) (padding d.padzero) ++ s
    else
      none
  | .chr d c =>
    if d.width < 2 ^ 31 then some (List.replicate (d.width - 1) (padding d.padzero) ++ [c]) else none
  | .text d s => if d.width < 2 ^ 31 then some s else none
  | .percent d =>
    if d.width < 2 ^ 31 then some (List.replicate (d.width - 1) (padding d.padzero) ++ [code '%'])
    else none
  | .other d =>
    if d.width < 2 ^ 31 then
      some (List.replicate (d.width - 2) (padding d.padzero) ++ [code '%', d.c])
    else
      none

/-- The rest of `vprintf`. -/
def emitAll : List Piece → Uart → Option Uart
  | [], o => some (flushPrintfBuffer o)
  | pc :: ps, o => do emitAll ps (← emit o pc)

/-- The rest of `vsnprintf`, with room for all of it. -/
def storeAll : List Piece → Option Bytes
  | [] => some []
  | pc :: ps => do return (← stores pc) ++ (← storeAll ps)

section Loops

variable {d : Directive} {args args' : Args} {pc : Piece} {ps : List Piece} {fmt : Bytes} {o : Uart}

theorem printint_eq (o : Uart) (d : Directive) (radix : Radix) (x : BitVec 64) :
    printint o x radix.base radix.sign d.width d.padzero =
      (numText d radix x).map (·.foldl uartPutc o) := by
  unfold printint numText
  dsimp only
  generalize digits radix.base _ ++ _ = buf
  split <;> rfl

/-- The two branches of a number directive, with the number fetched first. -/
theorem vaNumber_bind {β : Type} (isLong : Bool) (extend : BitVec 32 → BitVec 64) (args : Args)
    (f : BitVec 64 → Args → Option β) :
    (if isLong then do
      let (v, args) ← vaLong args
      f v args
    else do
      let (v, args) ← vaInt args
      f (extend v) args) =
    (do
      let (x, args) ← vaNumber isLong extend args
      f x args) := by
  unfold vaNumber
  split
  · rfl
  · cases vaInt args <;> rfl

theorem number_fetched {radix : Radix} {extend : BitVec 32 → BitVec 64}
    (takes : (do
      let (x, args) ← vaNumber d.isLong extend args
      return (Piece.num d radix x, args)) = some (pc, args')) :
    ∃ x, vaNumber d.isLong extend args = some (x, args') ∧ pc = .num d radix x := by
  cases found : vaNumber d.isLong extend args with
  | none => simp [found] at takes
  | some r =>
    obtain ⟨x, rest⟩ := r
    simp [found] at takes
    obtain ⟨rfl, rfl⟩ := takes
    exact ⟨x, rfl, rfl⟩

/-- A number that `vprintf` prints. -/
theorem printNumber_eq {radix : Radix} {extend : BitVec 32 → BitVec 64} (o : Uart)
    (small : d.width < 2 ^ 31)
    (takes : (do
      let (x, args) ← vaNumber d.isLong extend args
      return (Piece.num d radix x, args)) = some (pc, args')) :
    (if d.isLong then do
      let (v, args) ← vaLong args
      return (← printint (flushPrintfBuffer o) v radix.base radix.sign d.width d.padzero, args)
    else do
      let (v, args) ← vaInt args
      return (← printint (flushPrintfBuffer o) (extend v) radix.base radix.sign d.width d.padzero,
        args)) =
    (emit o pc).map (·, args') := by
  obtain ⟨x, found, rfl⟩ := number_fetched takes
  rw [vaNumber_bind d.isLong extend args fun v args => do
    return (← printint (flushPrintfBuffer o) v radix.base radix.sign d.width d.padzero, args), found]
  simp only [printint_eq, emit, if_pos small, Option.bind_eq_bind, Option.bind_some]
  cases numText d radix x <;> rfl

/-- Bytes that are stored one after another. -/
theorem store_append (size : Nat) (out s s' : Bytes) :
    store size out (s ++ s') = store size (store size out s) s' :=
  List.foldl_append

theorem storePadded_eq (size : Nat) (out : Bytes) (width : Nat) (padzero : Bool) (s : Bytes) :
    storePadded size out width padzero s =
      store size out (List.replicate (width - s.length) (padding padzero) ++ s) :=
  (store_append ..).symm

/-- A number that `vsnprintf` stores. -/
theorem storeNumber_eq {radix : Radix} {extend : BitVec 32 → BitVec 64} (size : Nat) (out : Bytes)
    (small : d.width < 2 ^ 31)
    (takes : (do
      let (x, args) ← vaNumber d.isLong extend args
      return (Piece.num d radix x, args)) = some (pc, args')) :
    (if d.isLong then do
      let (v, args) ← vaLong args
      return (storePadded size out d.width d.padzero (← intToStr v radix.base radix.sign), args)
    else do
      let (v, args) ← vaInt args
      return (storePadded size out d.width d.padzero (← intToStr (extend v) radix.base radix.sign),
        args)) =
    (stores pc).map fun b => (store size out b, args') := by
  obtain ⟨x, found, rfl⟩ := number_fetched takes
  rw [vaNumber_bind d.isLong extend args fun v args => do
    return (storePadded size out d.width d.padzero (← intToStr v radix.base radix.sign), args), found]
  simp only [Option.bind_eq_bind, Option.bind_some, storePadded_eq, stores, if_pos small]
  cases intToStr x radix.base radix.sign <;> rfl

theorem takeWhile_all {s : Bytes} (all : ∀ c ∈ s, c ≠ 0) : s.takeWhile (· ≠ 0) = s := by
  rw [List.takeWhile_eq_self_iff]
  simpa using all

theorem digit_ne_zero {n : Nat} (small : n < 16) : digit n ≠ 0 := by
  have all : ∀ n < 16, digit n ≠ 0 := by decide
  exact all n small

theorem pointerDigits_ne_zero (ptr : BitVec 64) : ∀ c ∈ pointerDigits ptr, c ≠ 0 := by
  intro c inside
  obtain ⟨i, -, rfl⟩ := List.mem_map.mp inside
  exact digit_ne_zero (Nat.mod_lt _ (by decide))

theorem pointerMark_ne_zero : ∀ c ∈ [code '0', code 'x'], c ≠ 0 := by
  intro c inside
  rcases List.mem_cons.mp inside with rfl | inside
  · decide
  · rw [List.mem_singleton.mp inside]
    decide

/-- The two `uart_puts` of `%p`. -/
theorem uartPuts_pointer (o : Uart) (ptr : BitVec 64) :
    uartPuts (uartPuts o [code '0', code 'x']) (pointerDigits ptr) =
      uartPuts o ([code '0', code 'x'] ++ pointerDigits ptr) := by
  have both : ∀ c ∈ [code '0', code 'x'] ++ pointerDigits ptr, c ≠ 0 := by
    intro c inside
    rcases List.mem_append.mp inside with front | back
    · exact pointerMark_ne_zero c front
    · exact pointerDigits_ne_zero ptr c back
  simp only [uartPuts]
  rw [takeWhile_all pointerMark_ne_zero, takeWhile_all (pointerDigits_ne_zero ptr),
    takeWhile_all both, List.append_assoc]

/-- A directive of `vprintf` is the piece that it fetches. -/
theorem printDirective_eq (o : Uart) (small : d.width < 2 ^ 31)
    (takes : fetch d args = some (pc, args')) :
    printDirective d args (flushPrintfBuffer o) = (emit o pc).map (·, args') := by
  unfold fetch at takes
  unfold printDirective
  by_cases d₁ : d.c = code 'd'
  · rw [if_pos d₁] at takes ⊢
    simpa only [Radix.base, Radix.sign] using printNumber_eq o small takes
  rw [if_neg d₁] at takes ⊢
  by_cases x₁ : d.c = code 'x'
  · rw [if_pos x₁] at takes ⊢
    simpa only [Radix.base, Radix.sign] using printNumber_eq o small takes
  rw [if_neg x₁] at takes ⊢
  by_cases u₁ : d.c = code 'u'
  · rw [if_pos u₁] at takes ⊢
    simpa only [Radix.base, Radix.sign] using printNumber_eq o small takes
  rw [if_neg u₁] at takes ⊢
  by_cases o₁ : d.c = code 'o'
  · rw [if_pos o₁] at takes
    rw [if_neg (by rw [o₁]; decide), if_neg (by rw [o₁]; decide), if_neg (by rw [o₁]; decide),
      if_neg (by rw [o₁]; decide), if_pos o₁]
    simpa only [Radix.base, Radix.sign] using printNumber_eq o small takes
  rw [if_neg o₁] at takes
  by_cases b₁ : d.c = code 'b'
  · rw [if_pos b₁] at takes
    rw [if_neg (by rw [b₁]; decide), if_neg (by rw [b₁]; decide), if_neg (by rw [b₁]; decide),
      if_pos b₁]
    simpa only [Radix.base, Radix.sign] using printNumber_eq o small takes
  rw [if_neg b₁] at takes
  by_cases c₁ : d.c = code 'c'
  · rw [if_pos c₁] at takes ⊢
    cases found : vaInt args with
    | none => simp [found] at takes
    | some r =>
      simp [found] at takes
      obtain ⟨rfl, rfl⟩ := takes
      simp only [emit, if_pos small]
      rfl
  rw [if_neg c₁] at takes ⊢
  by_cases s₁ : d.c = code 's'
  · rw [if_pos s₁] at takes ⊢
    cases found : vaStr args with
    | none => simp [found] at takes
    | some r =>
      simp only [found, Option.bind_eq_bind, Option.bind_some, Option.pure_def,
        Option.some.injEq, Prod.mk.injEq] at takes
      obtain ⟨rfl, rfl⟩ := takes
      simp only [emit, if_pos small, uartPuts, List.takeWhile_idem]
      rfl
  rw [if_neg s₁] at takes ⊢
  by_cases p₁ : d.c = code 'p'
  · rw [if_pos p₁] at takes ⊢
    cases found : vaPtr args with
    | none => simp [found] at takes
    | some r =>
      simp only [found, Option.bind_eq_bind, Option.bind_some, Option.pure_def,
        Option.some.injEq, Prod.mk.injEq] at takes
      obtain ⟨rfl, rfl⟩ := takes
      simp only [emit, if_pos small, uartPuts_pointer]
      rfl
  rw [if_neg p₁] at takes ⊢
  rw [if_neg b₁, if_neg o₁]
  by_cases percent : d.c = code '%'
  · rw [if_pos percent] at takes ⊢
    cases takes
    simp only [emit, if_pos small]
    rfl
  rw [if_neg percent] at takes ⊢
  cases takes
  simp only [emit, if_pos small]
  rfl

/-- What is stored is cut where the terminating zero has to go. -/
theorem store_take {size : Nat} (s : Bytes) : ∀ {out : Bytes}, out.length + 1 ≤ size →
    store size out s = (out ++ s).take (size - 1) := by
  induction s with
  | nil =>
    intro out inside
    rw [List.append_nil, List.take_of_length_le (by omega)]
    rfl
  | cons c s ih =>
    intro out inside
    have step : store size out (c :: s) =
        store size (if out.length + 1 < size then out ++ [c] else out) s := rfl
    rw [step]
    split
    · next room =>
      rw [ih (by rw [List.length_append, List.length_singleton]; omega), List.append_assoc]
      rfl
    · next full =>
      rw [ih inside, List.take_append_of_le_length (by omega), List.take_append_of_le_length (by omega)]

theorem store_room {size : Nat} {s out : Bytes} (room : out.length + s.length < size) :
    store size out s = out ++ s := by
  rw [store_take s (by omega), List.take_of_length_le (by rw [List.length_append]; omega)]

/-- A directive of `vsnprintf` is the piece that it fetches. -/
theorem storeDirective_eq {size : Nat} {out : Bytes} (small : d.width < 2 ^ 31)
    (takes : fetch d args = some (pc, args')) :
    storeDirective size d args out = (stores pc).map fun b => (store size out b, args') := by
  unfold fetch at takes
  unfold storeDirective
  by_cases d₁ : d.c = code 'd'
  · rw [if_pos d₁] at takes ⊢
    simpa only [Radix.base, Radix.sign] using storeNumber_eq size out small takes
  rw [if_neg d₁] at takes ⊢
  by_cases x₁ : d.c = code 'x'
  · rw [if_pos x₁] at takes ⊢
    simpa only [Radix.base, Radix.sign] using storeNumber_eq size out small takes
  rw [if_neg x₁] at takes ⊢
  by_cases u₁ : d.c = code 'u'
  · rw [if_pos u₁] at takes ⊢
    simpa only [Radix.base, Radix.sign] using storeNumber_eq size out small takes
  rw [if_neg u₁] at takes ⊢
  by_cases o₁ : d.c = code 'o'
  · rw [if_pos o₁] at takes ⊢
    simpa only [Radix.base, Radix.sign] using storeNumber_eq size out small takes
  rw [if_neg o₁] at takes ⊢
  by_cases b₁ : d.c = code 'b'
  · rw [if_pos b₁] at takes ⊢
    simpa only [Radix.base, Radix.sign] using storeNumber_eq size out small takes
  rw [if_neg b₁] at takes ⊢
  by_cases c₁ : d.c = code 'c'
  · rw [if_pos c₁] at takes ⊢
    cases found : vaInt args with
    | none => simp [found] at takes
    | some r =>
      simp [found] at takes
      obtain ⟨rfl, rfl⟩ := takes
      simp only [stores, if_pos small, storePadded_eq]
      rfl
  rw [if_neg c₁] at takes ⊢
  by_cases s₁ : d.c = code 's'
  · rw [if_pos s₁] at takes ⊢
    cases found : vaStr args with
    | none => simp [found] at takes
    | some r =>
      simp [found] at takes
      obtain ⟨rfl, rfl⟩ := takes
      simp only [stores, if_pos small]
      simp
  rw [if_neg s₁] at takes ⊢
  by_cases p₁ : d.c = code 'p'
  · rw [if_pos p₁] at takes ⊢
    cases found : vaPtr args with
    | none => simp [found] at takes
    | some r =>
      simp only [found, Option.bind_eq_bind, Option.bind_some, Option.pure_def,
        Option.some.injEq, Prod.mk.injEq] at takes
      obtain ⟨rfl, rfl⟩ := takes
      simp only [stores, if_pos small]
      rfl
  rw [if_neg p₁] at takes ⊢
  by_cases percent : d.c = code '%'
  · rw [if_pos percent] at takes ⊢
    cases takes
    simp only [stores, if_pos small, storePadded_eq]
    rfl
  rw [if_neg percent] at takes ⊢
  cases takes
  simp only [stores, if_pos small, storePadded_eq]
  rfl

/-- The room that the pieces take. -/
def room (ps : List Piece) : Nat := (ps.map fun pc => ((stores pc).getD []).length).sum

theorem fetch_directive (takes : fetch d args = some (pc, args')) : pc.directive = some d := by
  unfold fetch at takes
  split_ifs at takes
  all_goals
    first
      | obtain ⟨_, _, same⟩ := Option.bind_eq_some_iff.mp takes
        cases same
        rfl
      | cases takes
        rfl

/-- A width that outgrows `int`. -/
theorem emit_wide (large : ¬ d.width < 2 ^ 31) (is : pc.directive = some d) : emit o pc = none := by
  cases pc <;> cases is <;> exact if_neg large

theorem stores_wide (large : ¬ d.width < 2 ^ 31) (is : pc.directive = some d) :
    stores pc = none := by
  cases pc <;> cases is <;> exact if_neg large

/-- The loop of `vprintf` prints the pieces one after another. -/
theorem vprintfFrom_eq (reads : Reads fmt args ps) :
    ∀ (fuel : Nat) (o : Uart), fmt.length < fuel → vprintfFrom fuel fmt args o = emitAll ps o := by
  induction reads with
  | done args =>
    intro fuel o enough
    obtain ⟨fuel, rfl⟩ := Nat.exists_eq_succ_of_ne_zero (Nat.ne_of_gt enough)
    rfl
  | lit plain rest ih =>
    intro fuel o enough
    rw [List.length_cons] at enough
    obtain ⟨fuel, rfl⟩ := Nat.exists_eq_succ_of_ne_zero (by omega : fuel ≠ 0)
    rw [vprintfFrom, if_pos plain, ih fuel _ (by omega)]
    rfl
  | directive scans takes rest ih =>
    intro fuel o enough
    have shorter := scan_length scans
    rw [List.length_cons] at enough
    obtain ⟨fuel, rfl⟩ := Nat.exists_eq_succ_of_ne_zero (by omega : fuel ≠ 0)
    rw [vprintfFrom, if_neg (by simp), scans]
    simp only [Option.bind_eq_bind, Option.bind_some, emitAll]
    split
    · next small =>
      rw [printDirective_eq o small takes]
      cases printed : emit o _ with
      | none => rfl
      | some o' => exact ih fuel o' (by omega)
    · next large => rw [emit_wide large (fetch_directive takes)]; rfl

/-- The loop of `vsnprintf`, with room for everything, stores the pieces one after another. -/
theorem vsnprintfFrom_eq {size : Nat} (reads : Reads fmt args ps) :
    ∀ (fuel : Nat) (out : Bytes), fmt.length < fuel → out.length + room ps + 1 < size →
      vsnprintfFrom size fuel fmt args out = (storeAll ps).map (out ++ ·) := by
  induction reads with
  | done args =>
    intro fuel out enough _
    obtain ⟨fuel, rfl⟩ := Nat.exists_eq_succ_of_ne_zero (Nat.ne_of_gt enough)
    simp [vsnprintfFrom, storeAll]
  | @lit c _ _ ps plain rest ih =>
    intro fuel out enough free
    rw [List.length_cons] at enough
    obtain ⟨fuel, rfl⟩ := Nat.exists_eq_succ_of_ne_zero (by omega : fuel ≠ 0)
    have more : room (.lit c :: ps) = 1 + room ps := by
      simp [room, stores]
    rw [vsnprintfFrom, if_pos (by omega), if_pos plain, ih fuel _ (by omega)
      (by rw [List.length_append, List.length_singleton]; omega)]
    simp only [storeAll, stores]
    cases storeAll _ <;> simp
  | @directive _ _ _ _ _ pc ps scans takes rest ih =>
    intro fuel out enough free
    have shorter := scan_length scans
    rw [List.length_cons] at enough
    obtain ⟨fuel, rfl⟩ := Nat.exists_eq_succ_of_ne_zero (by omega : fuel ≠ 0)
    have more : room (pc :: ps) = ((stores pc).getD []).length + room ps := by
      simp [room]
    rw [vsnprintfFrom, if_pos (by omega), if_neg (by simp), scans]
    simp only [Option.bind_eq_bind, Option.bind_some, storeAll]
    split
    · next small =>
      rw [storeDirective_eq small takes]
      cases stored : stores pc with
      | none => rfl
      | some b =>
        rw [stored, Option.getD_some] at more
        simp only [Option.map_some, Option.bind_some]
        rw [store_room (by omega), ih fuel _ (by omega) (by rw [List.length_append]; omega)]
        cases storeAll ps <;> simp
    · next large => rw [stores_wide large (fetch_directive takes)]; rfl

end Loops

end Xv6Lab.Print

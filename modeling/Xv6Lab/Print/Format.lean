import Mathlib.Algebra.Order.Ring.Nat

/-! `printf` and `snprintf` of `printf.c`.  A C string is the list of its bytes before the
terminating zero, and an argument list the list of the values that `va_arg` fetches.  `none` stands
for what C leaves undefined: an incomplete directive, an argument of another type than the directive
asks for, a width that outgrows `int`, a number that outgrows its buffer. -/

namespace Xv6Lab.Print

abbrev Bytes := List UInt8

/-- The code of an ASCII character. -/
def code (c : Char) : UInt8 := c.toUInt8

/-! ### Arguments -/

inductive Arg
  | int (v : BitVec 32)
  | long (v : BitVec 64)
  | str (s : Option Bytes)
  | ptr (v : BitVec 64)
  deriving DecidableEq, Repr

abbrev Args := List Arg

/-- `va_arg(ap, int)`, and `va_arg(ap, unsigned int)`. -/
def vaInt : Args → Option (BitVec 32 × Args)
  | .int v :: rest => some (v, rest)
  | _ => none

/-- `va_arg(ap, long long)`, and `va_arg(ap, unsigned long long)`. -/
def vaLong : Args → Option (BitVec 64 × Args)
  | .long v :: rest => some (v, rest)
  | _ => none

/-- `va_arg(ap, char*)` -/
def vaStr : Args → Option (Option Bytes × Args)
  | .str s :: rest => some (s, rest)
  | _ => none

/-- `va_arg(ap, void*)` -/
def vaPtr : Args → Option (BitVec 64 × Args)
  | .ptr v :: rest => some (v, rest)
  | _ => none

/-! ### Directives -/

structure Directive where
  padzero : Bool
  width : Nat
  isLong : Bool
  c : UInt8
  deriving DecidableEq, Repr

def isDigit (c : UInt8) : Bool := code '0' ≤ c ∧ c ≤ code '9'

/-- `width = width * 10 + (c - '0')` for every digit. -/
def widthOf (digits : Bytes) : Nat :=
  digits.foldl (fun width c => width * 10 + (c.toNat - (code '0').toNat)) 0

/-- What both loops read after a `%`: a flag, a width and a length, up to the letter `c`; and the
rest of the format. -/
def scan (fmt : Bytes) : Option (Directive × Bytes) :=
  let padzero := fmt.head? = some (code '0')
  let fmt := if padzero then fmt.tail else fmt
  let width := widthOf (fmt.takeWhile isDigit)
  let fmt := fmt.dropWhile isDigit
  let isLong := fmt.head? = some (code 'l')
  match if isLong then fmt.tail else fmt with
  | [] => none
  | c :: rest => some (⟨padzero, width, isLong, c⟩, rest)

/-! ### Numbers -/

/-- `"0123456789abcdef"[d]` -/
def digit (d : Nat) : UInt8 :=
  if d < 10 then code '0' + UInt8.ofNat d else code 'a' + UInt8.ofNat (d - 10)

/-- `do { digits[x % base]; } while ((x /= base) != 0)`, the lowest digit first. -/
def digitLoop (base : Nat) : Nat → Nat → Bytes
  | 0, _ => []
  | fuel + 1, x => digit (x % base) :: if x / base = 0 then [] else digitLoop base fuel (x / base)

/-- The digits of a number of 64 bits. -/
def digits (base x : Nat) : Bytes := digitLoop base 64 x

def padding (padzero : Bool) : UInt8 := if padzero then code '0' else code ' '

/-- The sixteen digits of `%p`. -/
def pointerDigits (ptr : BitVec 64) : Bytes :=
  (List.range 16).map fun i => digit ((ptr >>> ((15 - i) * 4)).toNat % 16)

def null : Bytes := "(null)".toList.map code

/-! ### `printf` -/

def PRINTF_BUFFER_SIZE : Nat := 128

/-- What the UART was sent, and `printf_buffer`. -/
structure Uart where
  sent : Bytes
  buffer : Bytes
  deriving DecidableEq, Repr

/-- `uart_puts` stops at the first zero byte. -/
def uartPuts (o : Uart) (s : Bytes) : Uart := { o with sent := o.sent ++ s.takeWhile (· ≠ 0) }

def uartPutc (o : Uart) (c : UInt8) : Uart := { o with sent := o.sent ++ [c] }

def flushPrintfBuffer (o : Uart) : Uart := { uartPuts o o.buffer with buffer := [] }

def bufferChar (o : Uart) (c : UInt8) : Uart :=
  if o.buffer.length < PRINTF_BUFFER_SIZE - 1 then { o with buffer := o.buffer ++ [c] }
  else { flushPrintfBuffer o with buffer := [c] }

/-- `printint`, with its `char buf[32]`. -/
def printint (o : Uart) (xx : BitVec 64) (base : Nat) (sign : Bool) (width : Nat) (padzero : Bool) :
    Option Uart :=
  let neg := sign && xx.msb
  let x := if neg then (-xx).toNat else xx.toNat
  let buf := digits base x ++ if neg then [code '-'] else []
  if buf.length ≤ 32 then
    some ((List.replicate (width - buf.length) (padding padzero) ++ buf.reverse).foldl uartPutc o)
  else
    none

/-- The `switch` of `vprintf`. -/
def printDirective (d : Directive) (args : Args) (o : Uart) : Option (Uart × Args) :=
  if d.c = code 'd' then
    if d.isLong then do
      let (v, args) ← vaLong args
      return (← printint o v 10 true d.width d.padzero, args)
    else do
      let (v, args) ← vaInt args
      return (← printint o (v.signExtend 64) 10 true d.width d.padzero, args)
  else if d.c = code 'x' then
    if d.isLong then do
      let (v, args) ← vaLong args
      return (← printint o v 16 false d.width d.padzero, args)
    else do
      let (v, args) ← vaInt args
      return (← printint o (v.signExtend 64) 16 false d.width d.padzero, args)
  else if d.c = code 'u' then
    if d.isLong then do
      let (v, args) ← vaLong args
      return (← printint o v 10 false d.width d.padzero, args)
    else do
      let (v, args) ← vaInt args
      return (← printint o (v.setWidth 64) 10 false d.width d.padzero, args)
  else if d.c = code 'c' then do
    let (v, args) ← vaInt args
    return (uartPutc o (UInt8.ofNat v.toNat), args)
  else if d.c = code 's' then do
    let (s, args) ← vaStr args
    return (uartPuts o (s.getD null), args)
  else if d.c = code 'p' then do
    let (ptr, args) ← vaPtr args
    return (uartPuts (uartPuts o [code '0', code 'x']) (pointerDigits ptr), args)
  else if d.c = code 'b' then
    if d.isLong then do
      let (v, args) ← vaLong args
      return (← printint o v 2 false d.width d.padzero, args)
    else do
      let (v, args) ← vaInt args
      return (← printint o (v.signExtend 64) 2 false d.width d.padzero, args)
  else if d.c = code 'o' then
    if d.isLong then do
      let (v, args) ← vaLong args
      return (← printint o v 8 false d.width d.padzero, args)
    else do
      let (v, args) ← vaInt args
      return (← printint o (v.signExtend 64) 8 false d.width d.padzero, args)
  else if d.c = code '%' then
    some (bufferChar o (code '%'), args)
  else
    let o := bufferChar o (code '%')
    let o := if d.padzero then bufferChar o (code '0') else o
    let o := if d.width ≠ 0 then bufferChar o (UInt8.ofNat ((code '0').toNat + d.width)) else o
    let o := if d.isLong then bufferChar o (code 'l') else o
    some (bufferChar o d.c, args)

/-- The loop of `vprintf`. -/
def vprintfFrom : Nat → Bytes → Args → Uart → Option Uart
  | 0, _, _, _ => none
  | _, [], _, o => some (flushPrintfBuffer o)
  | fuel + 1, c :: fmt, args, o =>
    if c ≠ code '%' then
      vprintfFrom fuel fmt args (bufferChar o c)
    else do
      let (d, fmt) ← scan fmt
      if d.width < 2 ^ 31 then
        let (o, args) ← printDirective d args (flushPrintfBuffer o)
        vprintfFrom fuel fmt args o
      else
        none

/-- `printf`: what it sends to the UART. -/
def printf (fmt : Bytes) (args : Args) : Option Bytes := do
  let o ← vprintfFrom (fmt.length + 1) fmt args ⟨[], []⟩
  return o.sent

/-! ### `snprintf` -/

/-- `int_to_str`, with its `char tmp[32]` and the 32 bytes of `buf`. -/
def intToStr (x : BitVec 64) (base : Nat) (sign : Bool) : Option Bytes :=
  let neg := sign && x.msb
  let tmp := digits base (if neg then (-x).toNat else x.toNat)
  let buf := (if neg then [code '-'] else []) ++ tmp.reverse
  if tmp.length ≤ 32 ∧ buf.length + 1 ≤ 32 then some buf else none

/-- `numbuf` with its padding, as far as `size` goes. -/
def store (size : Nat) (out : Bytes) (s : Bytes) : Bytes :=
  s.foldl (fun out c => if out.length + 1 < size then out ++ [c] else out) out

def storePadded (size : Nat) (out : Bytes) (width : Nat) (padzero : Bool) (numbuf : Bytes) : Bytes :=
  store size (store size out (List.replicate (width - numbuf.length) (padding padzero))) numbuf

/-- The `switch` of `vsnprintf`, with the padding behind it. -/
def storeDirective (size : Nat) (d : Directive) (args : Args) (out : Bytes) : Option (Bytes × Args) :=
  if d.c = code 'd' then
    if d.isLong then do
      let (v, args) ← vaLong args
      return (storePadded size out d.width d.padzero (← intToStr v 10 true), args)
    else do
      let (v, args) ← vaInt args
      return (storePadded size out d.width d.padzero (← intToStr (v.signExtend 64) 10 true), args)
  else if d.c = code 'x' then
    if d.isLong then do
      let (v, args) ← vaLong args
      return (storePadded size out d.width d.padzero (← intToStr v 16 false), args)
    else do
      let (v, args) ← vaInt args
      return (storePadded size out d.width d.padzero (← intToStr (v.signExtend 64) 16 false), args)
  else if d.c = code 'u' then
    if d.isLong then do
      let (v, args) ← vaLong args
      return (storePadded size out d.width d.padzero (← intToStr v 10 false), args)
    else do
      let (v, args) ← vaInt args
      return (storePadded size out d.width d.padzero (← intToStr (v.setWidth 64) 10 false), args)
  else if d.c = code 'o' then
    if d.isLong then do
      let (v, args) ← vaLong args
      return (storePadded size out d.width d.padzero (← intToStr v 8 false), args)
    else do
      let (v, args) ← vaInt args
      return (storePadded size out d.width d.padzero (← intToStr (v.signExtend 64) 8 false), args)
  else if d.c = code 'b' then
    if d.isLong then do
      let (v, args) ← vaLong args
      return (storePadded size out d.width d.padzero (← intToStr v 2 false), args)
    else do
      let (v, args) ← vaInt args
      return (storePadded size out d.width d.padzero (← intToStr (v.signExtend 64) 2 false), args)
  else if d.c = code 'c' then do
    let (v, args) ← vaInt args
    return (storePadded size out d.width d.padzero [UInt8.ofNat v.toNat], args)
  else if d.c = code 's' then do
    let (s, args) ← vaStr args
    return (store size out ((s.getD null).takeWhile (· ≠ 0)), args)
  else if d.c = code 'p' then do
    let (ptr, args) ← vaPtr args
    return (store size out ([code '0', code 'x'] ++ pointerDigits ptr), args)
  else if d.c = code '%' then
    some (storePadded size out d.width d.padzero [code '%'], args)
  else
    some (storePadded size out d.width d.padzero [code '%', d.c], args)

/-- The loop of `vsnprintf`. -/
def vsnprintfFrom (size : Nat) : Nat → Bytes → Args → Bytes → Option Bytes
  | 0, _, _, _ => none
  | _, [], _, out => some out
  | fuel + 1, c :: fmt, args, out =>
    if out.length + 1 < size then
      if c ≠ code '%' then
        vsnprintfFrom size fuel fmt args (out ++ [c])
      else do
        let (d, fmt) ← scan fmt
        if d.width < 2 ^ 31 then
          let (out, args) ← storeDirective size d args out
          vsnprintfFrom size fuel fmt args out
        else
          none
    else
      some out

/-- `snprintf`: what it stores in `buf` before the terminating zero. -/
def snprintf (size : Nat) (fmt : Bytes) (args : Args) : Option Bytes :=
  vsnprintfFrom size (fmt.length + 1) fmt args []

example : printf ("%5d|%c".toList.map code) [.int (-7), .int 65] =
    some ("   -7|A".toList.map code) := by decide +kernel

example : snprintf 20 ("%5d|%c".toList.map code) [.int (-7), .int 65] =
    some ("   -7|A".toList.map code) := by decide +kernel

end Xv6Lab.Print

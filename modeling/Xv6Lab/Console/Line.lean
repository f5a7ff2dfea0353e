import Xv6Lab.Lib.Ring
import Xv6Lab.Print.Truncation

/-! The console input of `uart.c`: the interrupt handler edits a line and puts it into a ring when it
ends, and `readline` takes it from there. -/

namespace Xv6Lab.Console

open Print

def LINE_BUF_SIZE : Nat := 128

/-- The indices into a ring of `INPUT_BUF_SIZE` bytes are words of seven bits. -/
def INPUT_BUF_SIZE : Nat := 128

instance : NeZero INPUT_BUF_SIZE := ⟨by decide⟩

/-- `struct uart_input_buf_t` -/
structure UartInputBuf where
  buf : Fin INPUT_BUF_SIZE → UInt8
  r : BitVec 7
  w : BitVec 7

/-- `uart_input_buf`, the statics of `uart_intr`, and what the UART was sent. -/
structure Input where
  inputBuf : UartInputBuf
  /-- `linebuf` up to `line_len` -/
  line : Bytes
  inEscape : Bool
  sent : Bytes

def uartPuts (s : Input) (str : Bytes) : Input := { s with sent := s.sent ++ str }

/-- `next = (w + 1) % INPUT_BUF_SIZE; if (next != r) { buf[w] = c; w = next; }` -/
def UartInputBuf.push (b : UartInputBuf) (c : UInt8) : UartInputBuf :=
  if b.w + 1 ≠ b.r then
    { b with buf := Function.update b.buf (Ring.slot INPUT_BUF_SIZE b.w) c, w := b.w + 1 }
  else
    b

/-- `clear_screen` -/
def clearScreen (s : Input) : Input := uartPuts s ("\x1b[2J\x1b[H".toList.map code)

/-- One turn of the loop of `uart_intr`, with the `pid` of the process that it interrupts; `none` is
Ctrl-C, which stops the machine. -/
def uartIntrByte (pid : Nat) (s : Input) (c : UInt8) : Option Input :=
  if s.inEscape then
    let ends := (code 'A' ≤ c ∧ c ≤ code 'Z') ∨ (code 'a' ≤ c ∧ c ≤ code 'z') ∨ c = code '~'
    some { s with inEscape := ¬ ends }
  else if c = 0x1b then
    some { s with inEscape := true }
  else if c = 0x0c then
    let s := clearScreen s
    some (if pid = 1 then uartPuts s ("Console >>> ".toList.map code) else s)
  else if c = 0x03 then
    none
  else if c = code '\r' ∨ c = code '\n' then
    let s := uartPuts s [code '\n']
    some { s with inputBuf := (s.line.foldl UartInputBuf.push s.inputBuf).push (code '\n'), line := [] }
  else if c = 0x7f ∨ c = 0x08 then
    if 0 < s.line.length then
      some { uartPuts s [0x08, code ' ', 0x08] with line := s.line.dropLast }
    else
      some s
  else if c = code '\t' then
    if s.line.length < LINE_BUF_SIZE - 1 then
      some { uartPuts s [code ' '] with line := s.line ++ [code ' '] }
    else
      some s
  else if 0x20 ≤ c ∧ c ≤ 0x7e ∧ s.line.length < LINE_BUF_SIZE - 1 then
    some { uartPuts s [c] with line := s.line ++ [c] }
  else
    some s

/-- `uart_intr` over the bytes received, in one interrupt or in many. -/
def uartIntr (pid : Nat) : Input → Bytes → Option Input
  | s, [] => some s
  | s, c :: bs => do uartIntr pid (← uartIntrByte pid s c) bs

/-- `uart_getc_blocking`; `none` while the ring is empty. -/
def uartGetcBlocking (b : UartInputBuf) : Option (UInt8 × UartInputBuf) :=
  if b.r = b.w then none
  else some (b.buf (Ring.slot INPUT_BUF_SIZE b.r), { b with r := b.r + 1 })

/-- The loop of `readline`, with `n` characters to go. -/
def readlineLoop : Nat → Nat → Cells → UartInputBuf → Option (Nat × Cells × UartInputBuf)
  | 0, i, buf, b => some (i, Function.update buf i 0, b)
  | n + 1, i, buf, b => do
    let (c, b) ← uartGetcBlocking b
    if c = code '\n' then
      return (i, Function.update buf i 0, b)
    else
      readlineLoop n (i + 1) (Function.update buf i c) b

/-- `readline`: the value returned and `buf`; `none` while it waits for more input. -/
def readline (buf : Cells) (max : Nat) (b : UartInputBuf) : Option (Nat × Cells × UartInputBuf) :=
  readlineLoop (max - 1) 0 buf b

/-! ### The ring -/

/-- What has been put into the ring and not been read. -/
def UartInputBuf.contents (b : UartInputBuf) : Bytes := Ring.pending b.buf b.r b.w

section Ring

variable {b b' : UartInputBuf} {c : UInt8}

theorem contents_length (b : UartInputBuf) : b.contents.length = (b.w - b.r).toNat :=
  Ring.length_pending ..

/-- One slot of the ring stays empty. -/
theorem contents_push (b : UartInputBuf) (c : UInt8) :
    (b.push c).contents = (b.contents ++ [c]).take (INPUT_BUF_SIZE - 1) := by
  have length := contents_length b
  have small := (b.w - b.r).isLt
  unfold UartInputBuf.push
  split
  · next room =>
    have more : (b.w - b.r).toNat + 1 < 2 ^ 7 := by
      bv_omega
    show Ring.pending (Function.update b.buf (Ring.slot INPUT_BUF_SIZE b.w) c) b.r (b.w + 1) = _
    rw [Ring.pending_publish _ more, Ring.pending_write (by decide) b.buf c small,
      Function.update_self, List.take_of_length_le]
    · rfl
    · rw [List.length_append, List.length_singleton, length]
      exact Nat.le_of_lt_succ more
  · next full =>
    have all : (b.w - b.r).toNat = 127 := by
      bv_omega
    rw [List.take_append_of_le_length (by rw [length, all]; decide), List.take_of_length_le]
    rw [length, all]
    decide

theorem contents_foldl_push (s : Bytes) : ∀ b : UartInputBuf,
    (s.foldl UartInputBuf.push b).contents = (b.contents ++ s).take (INPUT_BUF_SIZE - 1) := by
  induction s with
  | nil =>
    intro b
    rw [List.append_nil, List.take_of_length_le]
    · rfl
    · rw [contents_length]
      exact Nat.le_of_lt_succ (b.w - b.r).isLt
  | cons c s ih =>
    intro b
    rw [List.foldl_cons, ih, contents_push, take_cut, List.append_assoc]
    rfl

theorem getc_empty (empty : b.contents = []) : uartGetcBlocking b = none := by
  have same : (b.w - b.r).toNat = 0 := by rw [← contents_length, empty]; rfl
  exact if_pos (by bv_omega)

theorem getc_first {rest : Bytes} (first : b.contents = c :: rest) :
    ∃ b', uartGetcBlocking b = some (c, b') ∧ b'.contents = rest := by
  have some' : b.r ≠ b.w := by
    intro same
    have length := contents_length b
    rw [first, same, BitVec.sub_self] at length
    cases length
  have popped := Ring.pending_pop b.buf some'
  rw [show Ring.pending b.buf b.r b.w = c :: rest from first] at popped
  injection popped with head tail
  refine ⟨{ b with r := b.r + 1 }, ?_, tail.symm⟩
  rw [uartGetcBlocking, if_neg some', ← head]

end Ring

end Xv6Lab.Console

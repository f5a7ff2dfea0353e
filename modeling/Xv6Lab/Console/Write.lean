import Xv6Lab.Fs.UserMemory
import Xv6Lab.Print.Numbers

/-! `SYS_write` on the console.  The handler copies a string, not a count of bytes: it reads the
buffer up to a zero byte, and sends and counts what stands in front of it. -/

namespace Xv6Lab.Console

open Print
open Fs (UserMem UserAddr copyin copyin_one)

/-- `copyinstr` from byte `i` on, with `left` of `max` bytes to go; and how many bytes of user memory
it has read. -/
def copyinstrFrom (user : UserMem) (src : UserAddr) (max : Nat) : (left i : Nat) → Cells →
    Int × Cells × Nat
  | 0, i, dst => (-1, Function.update dst (max - 1) 0, i)
  | left + 1, i, dst =>
    let (r, c) := copyin user (src + BitVec.ofNat 64 i) (fun _ => dst i) 0 1
    if r < 0 then (-1, dst, i)
    else
      let dst := Function.update dst i (c 0)
      if c 0 = 0 then (0, dst, i + 1) else copyinstrFrom user src max left (i + 1) dst

/-- `copyinstr` -/
def copyinstr (user : UserMem) (dst : Cells) (src : UserAddr) (max : Nat) : Int × Cells × Nat :=
  copyinstrFrom user src max max 0 dst

/-- `strlen` of an array. -/
def strlen : Bytes → Nat
  | [] => 0
  | c :: s => if c = 0 then 0 else strlen s + 1

/-- `case SYS_write` of `handle_syscall` for the descriptors 1 and 2: the value in `a0`, what the
console is sent, and how many bytes of user memory are read.  `kbuf` starts with what the stack
holds. -/
def sysWrite (user : UserMem) (kbuf : Cells) (buf : UserAddr) (n : BitVec 32) : Int × Bytes × Nat :=
  if Vm.checkUserAddr buf (n.signExtend 64) 0 < 0 then (-1, [], 0)
  else
    let (r, kbuf, read) := copyinstr user kbuf buf 128
    if r < 0 then (-1, [], read)
    else
      let s := (List.range 128).map kbuf
      (strlen s, (printf ("%s".toList.map code) [.str (some s)]).getD [], read)

/-! ### The copy of a string -/

/-- User memory has these bytes from `src + i` on. -/
def Has (user : UserMem) (src : UserAddr) : Nat → Bytes → Prop
  | _, [] => True
  | i, c :: s => user (src + BitVec.ofNat 64 i) = some c ∧ Has user src (i + 1) s

section Strings

variable {user : UserMem} {src : UserAddr} {max : Nat}

theorem copyinstrFrom_missing {i : Nat} (missing : user (src + BitVec.ofNat 64 i) = none) (left : Nat)
    (dst : Cells) : copyinstrFrom user src max (left + 1) i dst = (-1, dst, i) := by
  rw [copyinstrFrom, copyin_one, missing]
  rfl

theorem copyinstrFrom_zero {i : Nat} (found : user (src + BitVec.ofNat 64 i) = some 0) (left : Nat)
    (dst : Cells) :
    copyinstrFrom user src max (left + 1) i dst = (0, Function.update dst i 0, i + 1) := by
  rw [copyinstrFrom, copyin_one, found]
  rfl

theorem copyinstrFrom_next {i : Nat} {c : UInt8} (found : user (src + BitVec.ofNat 64 i) = some c)
    (visible : c ≠ 0) (left : Nat) (dst : Cells) : copyinstrFrom user src max (left + 1) i dst =
      copyinstrFrom user src max left (i + 1) (Function.update dst i c) := by
  rw [copyinstrFrom, copyin_one, found]
  exact if_neg visible

/-- A string that fits is copied with its zero. -/
theorem copyinstrFrom_string (s : Bytes) (visible : ∀ c ∈ s, c ≠ 0) :
    ∀ {left i : Nat} (dst : Cells), Has user src i s →
      user (src + BitVec.ofNat 64 (i + s.length)) = some 0 → s.length < left →
      copyinstrFrom user src max left i dst =
        (0, Function.update (fill dst i s) (i + s.length) 0, i + s.length + 1) := by
  induction s with
  | nil =>
    intro left i dst _ zero enough
    obtain ⟨left, rfl⟩ := Nat.exists_eq_succ_of_ne_zero (Nat.ne_of_gt enough)
    exact copyinstrFrom_zero zero left dst
  | cons c s ih =>
    intro left i dst has zero enough
    rw [List.length_cons] at zero enough
    obtain ⟨left, rfl⟩ := Nat.exists_eq_succ_of_ne_zero (by omega : left ≠ 0)
    rw [copyinstrFrom_next has.1 (visible c List.mem_cons_self), List.length_cons,
      show i + (s.length + 1) = i + 1 + s.length by omega]
    rw [show i + (s.length + 1) = i + 1 + s.length by omega] at zero
    exact ih (fun c inside => visible c (List.mem_cons_of_mem _ inside)) _ has.2 zero (by omega)

/-- Only a string that fits is copied. -/
theorem copyinstrFrom_copied (left : Nat) : ∀ {i : Nat} (dst : Cells),
    0 ≤ (copyinstrFrom user src max left i dst).1 →
    ∃ s : Bytes, s.length < left ∧ (∀ c ∈ s, c ≠ 0) ∧ Has user src i s ∧
      user (src + BitVec.ofNat 64 (i + s.length)) = some 0 := by
  induction left with
  | zero =>
    intro i dst copied
    exact absurd copied (show ¬ (0 : Int) ≤ -1 by decide)
  | succ left ih =>
    intro i dst copied
    cases found : user (src + BitVec.ofNat 64 i) with
    | none =>
      rw [copyinstrFrom_missing found] at copied
      exact absurd copied (show ¬ (0 : Int) ≤ -1 by decide)
    | some c =>
      by_cases zero : c = 0
      · subst zero
        exact ⟨[], Nat.succ_pos left, nofun, trivial, found⟩
      · rw [copyinstrFrom_next found zero] at copied
        obtain ⟨s, short, visible, has, ends⟩ := ih _ copied
        refine ⟨c :: s, Nat.succ_lt_succ short, ?_, ⟨found, has⟩, ?_⟩
        · intro x inside
          rcases List.mem_cons.mp inside with rfl | later
          · exact zero
          · exact visible x later
        · rw [List.length_cons, show i + (s.length + 1) = i + 1 + s.length by omega]
          exact ends

end Strings

/-! ### What is sent -/

theorem printf_string (s : Bytes) :
    printf ("%s".toList.map code) [.str (some s)] = some (s.takeWhile (· ≠ 0)) := by
  have scans : scan ("s".toList.map code) = some (⟨false, 0, false, code 's'⟩, []) := by decide
  have reads : Reads ("%s".toList.map code) [.str (some s)]
      [.text ⟨false, 0, false, code 's'⟩ (s.takeWhile (· ≠ 0))] := .directive scans rfl (.done [])
  have small : (0 : Nat) < 2 ^ 31 := by decide
  rw [printf_eq reads, emitAll, emit, if_pos small]
  simp only [flushPrintfBuffer, Print.uartPuts, List.takeWhile_nil, List.append_nil, List.nil_append,
    Option.bind_eq_bind, Option.bind_some, emitAll, Option.map_some, List.takeWhile_idem]

theorem strlen_eq (s : Bytes) : strlen s = (s.takeWhile (· ≠ 0)).length := by
  induction s with
  | nil => rfl
  | cons c s ih =>
    rw [strlen, List.takeWhile_cons]
    by_cases zero : c = 0
    · rw [if_pos zero, if_neg (by simpa using zero)]
      rfl
    · rw [if_neg zero, if_pos (by simpa using zero), ih]
      rfl

/-- A string in an array, without its zero. -/
theorem string_read (buf : Cells) (s : Bytes) (visible : ∀ c ∈ s, c ≠ 0) {size : Nat}
    (room : s.length < size) :
    (((List.range size).map (Function.update (fill buf 0 s) s.length 0)).takeWhile (· ≠ 0)) = s := by
  obtain ⟨k, rfl⟩ := Nat.exists_eq_add_of_lt room
  have shown : s.takeWhile (· ≠ 0) = s := takeWhile_all visible
  rw [Nat.add_assoc, List.range_add, List.map_append, stored_read, List.takeWhile_append, shown,
    if_pos rfl, List.range_succ_eq_map, List.map_cons, List.map_cons, Nat.add_zero,
    Function.update_self, List.takeWhile_cons]
  exact List.append_nil s

section Writes

variable {user : UserMem} {buf : UserAddr} {n : BitVec 32} {kbuf : Cells}

/-- The handler sends what stands in front of the first zero byte, and reads one byte more. -/
theorem sysWrite_string {s : Bytes} (accepted : Vm.checkUserAddr buf (n.signExtend 64) 0 = 0)
    (visible : ∀ c ∈ s, c ≠ 0) (has : Has user buf 0 s)
    (zero : user (buf + BitVec.ofNat 64 s.length) = some 0) (short : s.length < 128) :
    sysWrite user kbuf buf n = ((s.length : Int), s, s.length + 1) := by
  have copied := @copyinstrFrom_string user buf 128 s visible 128 0 kbuf has
    (by rwa [Nat.zero_add]) short
  rw [Nat.zero_add] at copied
  rw [sysWrite, accepted, if_neg (by decide), copyinstr, copied]
  dsimp only
  rw [if_neg (by decide), strlen_eq, printf_string, string_read kbuf s visible short]
  rfl

/-- Otherwise it sends nothing. -/
theorem sysWrite_cases (accepted : Vm.checkUserAddr buf (n.signExtend 64) 0 = 0) :
    (sysWrite user kbuf buf n).1 = -1 ∨
    ∃ s : Bytes, s.length < 128 ∧ (∀ c ∈ s, c ≠ 0) ∧ Has user buf 0 s ∧
      user (buf + BitVec.ofNat 64 s.length) = some 0 ∧
      sysWrite user kbuf buf n = ((s.length : Int), s, s.length + 1) := by
  by_cases copied : 0 ≤ (copyinstr user kbuf buf 128).1
  · obtain ⟨s, short, visible, has, zero⟩ := copyinstrFrom_copied 128 kbuf copied
    rw [Nat.zero_add] at zero
    exact .inr ⟨s, short, visible, has, zero, sysWrite_string accepted visible has zero short⟩
  · refine .inl ?_
    rw [sysWrite, accepted, if_neg (by decide)]
    exact congrArg Prod.fst (if_pos (Int.not_le.mp copied))

/-- The `n` bytes from `buf + i` on. -/
def bytesAt (user : UserMem) (buf : UserAddr) (i n : Nat) : Bytes :=
  (List.range' i n).map fun j => (user (buf + BitVec.ofNat 64 j)).getD 0

theorem bytesAt_length (i n : Nat) : (bytesAt user buf i n).length = n := by
  rw [bytesAt, List.length_map, List.length_range']

theorem has_bytesAt (n : Nat) : ∀ {i : Nat},
    (∀ j, i ≤ j → j < i + n → user (buf + BitVec.ofNat 64 j) ≠ none) →
    Has user buf i (bytesAt user buf i n) := by
  induction n with
  | zero => exact fun _ => trivial
  | succ n ih =>
    intro i mapped
    rw [bytesAt, List.range'_succ, List.map_cons]
    refine ⟨?_, ih fun j low high => mapped j (by omega) (by omega)⟩
    obtain ⟨c, found⟩ := Option.ne_none_iff_exists'.mp (mapped i (by omega) (by omega))
    rw [found]
    rfl

/-- The call sends the `n` bytes at `buf`, and returns `n`. -/
def SendsCount (user : UserMem) (kbuf : Cells) (buf : UserAddr) (n : BitVec 32) : Prop :=
  ∃ read, sysWrite user kbuf buf n = (n.toInt, bytesAt user buf 0 n.toNat, read)

/-- It does so without reading any byte behind them. -/
def HonoursCount (user : UserMem) (kbuf : Cells) (buf : UserAddr) (n : BitVec 32) : Prop :=
  ∃ read ≤ n.toNat, sysWrite user kbuf buf n = (n.toInt, bytesAt user buf 0 n.toNat, read)

/-- No write to the console honours its count: the byte behind the buffer is read whenever the right
bytes are sent, which happens exactly where that byte is the first zero and the buffer is short. -/
theorem console_write_count (nonneg : 0 ≤ n.toInt)
    (accepted : Vm.checkUserAddr buf (n.signExtend 64) 0 = 0)
    (mapped : ∀ j < n.toNat, user (buf + BitVec.ofNat 64 j) ≠ none) (kbuf : Cells) :
    ¬ HonoursCount user kbuf buf n ∧
    (SendsCount user kbuf buf n ↔ n.toNat < 128 ∧ (∀ c ∈ bytesAt user buf 0 n.toNat, c ≠ 0) ∧
      user (buf + BitVec.ofNat 64 n.toNat) = some 0) := by
  have value : n.toInt = n.toNat := by
    have cond := BitVec.toInt_eq_toNat_cond n
    have small := n.isLt
    split at cond <;> omega
  have length : (bytesAt user buf 0 n.toNat).length = n.toNat := bytesAt_length 0 n.toNat
  have sent : ∀ {read}, sysWrite user kbuf buf n = (n.toInt, bytesAt user buf 0 n.toNat, read) →
      n.toNat < 128 ∧ (∀ c ∈ bytesAt user buf 0 n.toNat, c ≠ 0) ∧
        user (buf + BitVec.ofNat 64 n.toNat) = some 0 ∧ read = n.toNat + 1 := by
    intro read run
    rcases @sysWrite_cases user buf n kbuf accepted with failed | ⟨s, short, visible, -, zero, string⟩
    · rw [run] at failed
      exact absurd failed (by simp only; omega)
    · rw [run] at string
      simp only [Prod.mk.injEq] at string
      obtain ⟨-, same, rfl⟩ := string
      rw [← same] at short visible zero ⊢
      rw [length] at short zero ⊢
      exact ⟨short, visible, zero, rfl⟩
  refine ⟨?_, ?_, ?_⟩
  · rintro ⟨read, few, run⟩
    obtain ⟨-, -, -, more⟩ := sent run
    omega
  · rintro ⟨read, run⟩
    obtain ⟨short, visible, zero, -⟩ := sent run
    exact ⟨short, visible, zero⟩
  · rintro ⟨short, visible, zero⟩
    have has : Has user buf 0 (bytesAt user buf 0 n.toNat) :=
      has_bytesAt n.toNat fun j _ less => mapped j (by omega)
    refine ⟨n.toNat + 1, (sysWrite_string accepted visible has ?_ ?_).trans ?_⟩
    · rw [length]
      exact zero
    · rw [length]
      exact short
    · rw [length, value]

end Writes

/-- Memory with two letters and a zero behind them at the start of a program. -/
def hello : UserMem := fun va =>
  if va = 0x10000 then some (code 'h') else if va = 0x10001 then some (code 'i')
  else if va = 0x10002 then some 0 else none

/-- Even here, one byte more is read than the count allows. -/
theorem console_write_hello : ¬ HonoursCount hello (fun _ => 0) 0x10000 2 ∧
    SendsCount hello (fun _ => 0) 0x10000 2 := by
  have mapped : ∀ j < 2, hello (0x10000 + BitVec.ofNat 64 j) ≠ none := by decide
  have both := @console_write_count hello 0x10000 2 (by decide) (by decide) mapped fun _ => 0
  have visible : ∀ c ∈ [code 'h', code 'i'], c ≠ 0 := terminated_of_all (by decide)
  exact ⟨both.1, both.2.mpr ⟨by decide, visible, by decide⟩⟩

/-- A buffer of two letters in a memory without a zero is not written at all. -/
theorem console_write_unterminated :
    (∀ kbuf, (sysWrite (fun _ => some (code 'a')) kbuf 0x10000 2).1 = -1) ∧
    ¬ ∀ user buf n, 0 ≤ BitVec.toInt n → Vm.checkUserAddr buf (BitVec.signExtend 64 n) 0 = 0 →
      (∀ j < n.toNat, user (buf + BitVec.ofNat 64 j) ≠ none) → ∀ kbuf, HonoursCount user kbuf buf n := by
  have fails : ∀ kbuf, (sysWrite (fun _ => some (code 'a')) kbuf 0x10000 2).1 = -1 := by
    intro kbuf
    rcases @sysWrite_cases (fun _ => some (code 'a')) 0x10000 2 kbuf (by decide) with
      failed | ⟨s, -, -, -, zero, -⟩
    · exact failed
    · exact absurd zero (by decide)
  refine ⟨fails, fun honours => ?_⟩
  obtain ⟨read, -, run⟩ := honours (fun _ => some (code 'a')) 0x10000 2 (by decide) (by decide)
    (fun j _ => nofun) fun _ => 0
  have failed := fails fun _ => 0
  rw [run] at failed
  exact absurd failed (show ¬ BitVec.toInt (2 : BitVec 32) = -1 by decide)

/-! ### The memory of a process -/

theorem copyin_byte (mem : Rv64.Mem) (pt va : Rv64.Word) (dst : Nat → BitVec 8) :
    Vm.copyin mem pt dst va 1 =
      if Vm.userVa2pa mem pt va = 0 then (-1, dst)
      else (0, Function.update dst 0 (Vm.loadByte mem (Vm.userVa2pa mem pt va))) := by
  rw [Vm.copyin, Vm.copyinFrom, show va + BitVec.ofNat 64 0 = va from BitVec.add_zero va]
  dsimp only
  split
  · rfl
  · exact ite_self _

/-- `copyinstr` on the bytes of a process is the one that goes through its page table. -/
theorem copyinstr_userBytes (mem : Rv64.Mem) (pt : Rv64.Word) (src : UserAddr) (max left : Nat) :
    ∀ (i : Nat) (dst : Cells),
      ((copyinstrFrom (Fs.userBytes mem pt) src max left i dst).1,
        fun j => ((copyinstrFrom (Fs.userBytes mem pt) src max left i dst).2.1 j).toBitVec) =
      Vm.copyinstrFrom mem pt src max left i fun j => (dst j).toBitVec := by
  have stored : ∀ (dst : Cells) (i : Nat) (c : UInt8),
      (fun j => (Function.update dst i c j).toBitVec) =
        Function.update (fun j => (dst j).toBitVec) i c.toBitVec := by
    intro dst i c
    funext j
    by_cases here : j = i
    · rw [here, Function.update_self, Function.update_self]
    · rw [Function.update_of_ne here, Function.update_of_ne here]
  induction left with
  | zero =>
    intro i dst
    rw [copyinstrFrom, Vm.copyinstrFrom, stored]
    rfl
  | succ left ih =>
    intro i dst
    rw [Vm.copyinstrFrom, copyin_byte]
    by_cases missing : Vm.userVa2pa mem pt (src + BitVec.ofNat 64 i) = 0
    · rw [if_pos missing, copyinstrFrom_missing (if_pos missing)]
      rfl
    · have found : Fs.userBytes mem pt (src + BitVec.ofNat 64 i) = some (UInt8.ofBitVec
          (Vm.loadByte mem (Vm.userVa2pa mem pt (src + BitVec.ofNat 64 i)))) := if_neg missing
      rw [if_neg missing]
      dsimp only
      rw [Function.update_self]
      generalize Vm.loadByte mem (Vm.userVa2pa mem pt (src + BitVec.ofNat 64 i)) = c at found ⊢
      by_cases zero : c = 0
      · subst zero
        rw [copyinstrFrom_zero found, stored]
        rfl
      · have visible : UInt8.ofBitVec c ≠ 0 := fun same => zero (congrArg UInt8.toBitVec same)
        rw [copyinstrFrom_next found visible, ih, stored, if_neg zero]
        rfl

end Xv6Lab.Console

import Mathlib.Algebra.BigOperators.Group.List.Basic
import Mathlib.Algebra.Order.BigOperators.Group.List
import Mathlib.Data.Finset.Card
import Xv6Lab.Log.Crash

/-! The space that `begin_op` reserves.  Here calls of `log.c` are tried, and those that panic end
the run; an operation may pass any blocks to `log_write`, as long as it passes few. -/

namespace Xv6Lab.Log

open Relation

/-! ### Calls and their panics -/

/-- `log_write` of operation `op` for the block `b`, which the caller has changed to `data`. -/
def tryLogWrite (op b : Nat) (data : Block) (s : Sys) : Except String Sys :=
  if LOGBLOCKS ≤ s.store.lh.length then .error "too big a transaction"
  else if s.outstanding < 1 then .error "log_write outside of trans"
  else .ok (writeBlock op b data s)

/-- `end_op` of operation `op`, up to the commit. -/
def tryEndOp (op : Nat) (s : Sys) : Except String Sys :=
  if s.committing then .error "log.committing" else .ok (endOp op s)

/-- What a process can do next. -/
inductive Call
  | read (b : Nat)
  | recycle (b : Nat)
  | beginOp
  | logWrite (op b : Nat) (data : Block)
  | endOp (op : Nat)
  | commit

section Code

variable (start : Nat)

/-- The outcome of a call. -/
inductive Tried : Call → Sys → Except String Sys → Prop
  | read (s : Sys) (b : Nat) : Tried (.read b) s (.ok { s with store := s.store.bread b })
  | recycle (s : Sys) (b : Nat) (unused : s.store.pin b = 0) :
      Tried (.recycle b) s (.ok { s with store := s.store.recycle b })
  | beginOp (s : Sys) (ready : s.committing = false)
      (space : ¬ logFull s.store.lh.length s.outstanding) : Tried .beginOp s (.ok (beginOp s))
  | logWrite (s : Sys) (op b : Nat) (data : Block) (inOp : op ∈ s.hist.opened) :
      Tried (.logWrite op b data) s (tryLogWrite op b data s)
  | endOp (s : Sys) (op : Nat) (inOp : op ∈ s.hist.opened) : Tried (.endOp op) s (tryEndOp op s)
  | commit (s : Sys) (committing : s.committing = true) :
      Tried .commit s (.ok (commitStep start s))

/-- Runs of calls that are all allowed, to the state or the panic that they end in. -/
inductive Runs (allowed : Sys → Call → Prop) (s₀ : Sys) : Except String Sys → Prop
  | start : Runs allowed s₀ (.ok s₀)
  | call {s : Sys} {c : Call} {r : Except String Sys} (before : Runs allowed s₀ (.ok s))
      (ok : allowed s c) (tried : Tried start c s r) : Runs allowed s₀ r

end Code

/-! ### Counting operations -/

/-- `log.outstanding` counts the open operations, and a commit runs alone. -/
structure Counted (s : Sys) : Prop where
  outstanding : s.outstanding = s.hist.opened.length
  alone : s.committing = true → s.hist.opened = []
  idle : s.committing = false → s.pc = .idle

variable {start : Nat} {s t s₀ : Sys} {op b : Nat} {data : Block}

theorem Counted.initial (initial : Initial start s₀) : Counted s₀ :=
  ⟨by simp [initial.outstanding, initial.hist], by simp [initial.hist], fun _ => initial.pc⟩

theorem Counted.begun (h : Counted s) (ready : s.committing = false) : Counted (beginOp s) := by
  refine ⟨by simp [beginOp, h.outstanding], fun busy => ?_, h.idle⟩
  rw [show (beginOp s).committing = s.committing from rfl, ready] at busy
  cases busy

/-- While an operation is open no commit runs. -/
theorem Counted.quiet (h : Counted s) (inOp : op ∈ s.hist.opened) : s.committing = false := by
  cases busy : s.committing with
  | false => rfl
  | true =>
    rw [h.alone busy] at inOp
    cases inOp

theorem Counted.ended (h : Counted s) (inOp : op ∈ s.hist.opened) : Counted (endOp op s) := by
  have count : s.outstanding - 1 = (s.hist.opened.erase op).length := by
    rw [h.outstanding, List.length_erase_of_mem inOp]
  refine ⟨count, fun last => ?_, fun more => ?_⟩
  · rw [endOp, decide_eq_true_iff, count] at last
    exact List.eq_nil_of_length_eq_zero last
  · rw [endOp, decide_eq_false_iff_not] at more
    exact (if_neg more).trans (h.idle (h.quiet inOp))

/-- A step of `commit` leaves the operations alone, and the list or empties it. -/
theorem commitStep_kept (start : Nat) (s : Sys) :
    (commitStep start s).outstanding = s.outstanding ∧
    (commitStep start s).hist.opened = s.hist.opened ∧
    (commitStep start s).hist.next = s.hist.next ∧
    (commitStep start s).hist.writes = s.hist.writes ∧
    ((commitStep start s).store.lh = s.store.lh ∨ (commitStep start s).store.lh = []) := by
  unfold commitStep
  split
  · exact ⟨rfl, rfl, rfl, rfl, .inl rfl⟩
  · exact ⟨rfl, rfl, rfl, rfl, .inl rfl⟩
  · split <;> exact ⟨rfl, rfl, rfl, rfl, .inl rfl⟩
  · exact ⟨rfl, rfl, rfl, rfl, .inl rfl⟩
  · split
    · exact ⟨rfl, rfl, rfl, rfl, .inl rfl⟩
    · exact ⟨rfl, rfl, rfl, rfl, .inr rfl⟩
  · exact ⟨rfl, rfl, rfl, rfl, .inl rfl⟩
  · exact ⟨rfl, rfl, rfl, rfl, .inl rfl⟩

/-- The flag falls with the last step of `commit`. -/
theorem commitStep_committing (start : Nat) (s : Sys) :
    (commitStep start s).committing = s.committing ∨
      (commitStep start s).pc = .idle := by
  unfold commitStep
  split
  · exact .inl rfl
  · exact .inl rfl
  · split <;> exact .inl rfl
  · exact .inl rfl
  · split <;> exact .inl rfl
  · exact .inl rfl
  · exact .inr rfl

theorem Counted.committed (h : Counted s) (busy : s.committing = true) :
    Counted (commitStep start s) := by
  obtain ⟨outstanding, opened, -⟩ := commitStep_kept start s
  refine ⟨?_, fun _ => ?_, fun free => ?_⟩
  · rw [outstanding, opened, h.outstanding]
  · rw [opened, h.alone busy]
  · rcases commitStep_committing start s with same | done
    · rw [same, busy] at free
      cases free
    · exact done

theorem tryLogWrite_ok (made : tryLogWrite op b data s = .ok t) :
    s.store.lh.length < LOGBLOCKS ∧ t = writeBlock op b data s := by
  unfold tryLogWrite at made
  split at made
  · cases made
  · next room =>
    split at made
    · cases made
    · exact ⟨Nat.not_le.mp room, (Except.ok.inj made).symm⟩

theorem tryEndOp_ok (made : tryEndOp op s = .ok t) : s.committing = false ∧ t = endOp op s := by
  unfold tryEndOp at made
  split at made
  · cases made
  · next idle => exact ⟨by simpa using idle, (Except.ok.inj made).symm⟩

/-- Every call keeps the count. -/
theorem Counted.call {c : Call} {r : Except String Sys} (h : Counted s) (tried : Tried start c s r)
    (ok : r = .ok t) : Counted t := by
  cases tried with
  | read _ b =>
    obtain rfl := Except.ok.inj ok
    exact ⟨h.outstanding, h.alone, h.idle⟩
  | recycle _ b unused =>
    obtain rfl := Except.ok.inj ok
    exact ⟨h.outstanding, h.alone, h.idle⟩
  | beginOp _ ready space =>
    obtain rfl := Except.ok.inj ok
    exact h.begun ready
  | logWrite _ op b data inOp =>
    obtain ⟨-, rfl⟩ := tryLogWrite_ok ok
    exact ⟨h.outstanding, h.alone, h.idle⟩
  | endOp _ op inOp =>
    obtain ⟨-, rfl⟩ := tryEndOp_ok ok
    exact h.ended inOp
  | commit _ busy =>
    obtain rfl := Except.ok.inj ok
    exact h.committed busy

/-! ### The reservation -/

/-- The blocks that operation `op` has passed to `log_write`. -/
def History.blocks (hist : History) (op : Nat) : Finset Nat :=
  ((hist.writes.filter fun w => w.op = op).map Write.blockno).toFinset

/-- Each operation passes at most `MAXOPBLOCKS` distinct block numbers. -/
def FewBlocks (s : Sys) : Call → Prop
  | .logWrite op b _ => (insert b (s.hist.blocks op)).card ≤ MAXOPBLOCKS
  | _ => True

/-- An operation that has passed its `MAXOPBLOCKS` blocks calls `log_write` only while the log is not
full. -/
def SpareRewrites (s : Sys) : Call → Prop
  | .logWrite op _ _ => (s.hist.blocks op).card = MAXOPBLOCKS → s.store.lh.length ≠ LOGBLOCKS
  | _ => True

/-- The blocks that the open operations may still add. -/
def Sys.unused (s : Sys) : Nat :=
  (s.hist.opened.map fun op => MAXOPBLOCKS - (s.hist.blocks op).card).sum

/-- What `begin_op` keeps up. -/
structure Reserved (s : Sys) : Prop extends Counted s where
  nodup : s.hist.opened.Nodup
  opened : ∀ op ∈ s.hist.opened, op < s.hist.next
  past : ∀ w ∈ s.hist.writes, w.op < s.hist.next
  few : ∀ op ∈ s.hist.opened, (s.hist.blocks op).card ≤ MAXOPBLOCKS
  listed : ∀ op ∈ s.hist.opened, ∀ b ∈ s.hist.blocks op, b ∈ s.store.lh
  room : s.store.lh.length + s.unused ≤ LOGBLOCKS

theorem Reserved.initial (initial : Initial start s₀) : Reserved s₀ := by
  refine ⟨.initial initial, ?_, ?_, ?_, ?_, ?_, ?_⟩ <;> simp [initial.hist, initial.lh, Sys.unused]

theorem mem_blocks {hist : History} {op b : Nat} :
    b ∈ hist.blocks op ↔ ∃ w ∈ hist.writes, w.op = op ∧ w.blockno = b := by
  simp [History.blocks, and_assoc]

theorem blocks_of_writes {hist hist' : History} (same : hist'.writes = hist.writes) (op : Nat) :
    hist'.blocks op = hist.blocks op := by
  rw [History.blocks, History.blocks, same]

/-- An operation that has not begun has passed nothing. -/
theorem Reserved.blocks_next (h : Reserved s) : s.hist.blocks s.hist.next = ∅ := by
  rw [Finset.eq_empty_iff_forall_notMem]
  intro b inside
  obtain ⟨w, written, is, -⟩ := mem_blocks.mp inside
  have := h.past w written
  omega

/-- The unused space is at most the reservation of the open operations. -/
theorem Sys.unused_le (s : Sys) : s.unused ≤ s.hist.opened.length * MAXOPBLOCKS := by
  have bound := List.sum_le_card_nsmul
    (s.hist.opened.map fun op => MAXOPBLOCKS - (s.hist.blocks op).card) MAXOPBLOCKS (by
      intro x inside
      obtain ⟨op, -, rfl⟩ := List.mem_map.mp inside
      exact Nat.sub_le _ _)
  simpa [Sys.unused] using bound

theorem Reserved.begun (h : Reserved s) (ready : s.committing = false)
    (space : ¬ logFull s.store.lh.length s.outstanding) : Reserved (beginOp s) := by
  have blocks : ∀ op, (beginOp s).hist.blocks op = s.hist.blocks op := fun op => blocks_of_writes rfl op
  have fresh : s.hist.next ∉ s.hist.opened := fun inside => by
    have := h.opened _ inside
    omega
  refine ⟨h.toCounted.begun ready, ?_, ?_, ?_, ?_, ?_, ?_⟩
  · exact List.nodup_cons.mpr ⟨fresh, h.nodup⟩
  · intro op inside
    show op < s.hist.next + 1
    rcases List.mem_cons.mp inside with rfl | old
    · omega
    · have := h.opened op old
      omega
  · intro w written
    have := h.past w written
    show w.op < s.hist.next + 1
    omega
  · intro op inside
    rw [blocks]
    rcases List.mem_cons.mp inside with rfl | old
    · simp [h.blocks_next]
    · exact h.few op old
  · intro op inside b passed
    rw [blocks] at passed
    rcases List.mem_cons.mp inside with rfl | old
    · simp [h.blocks_next] at passed
    · exact h.listed op old b passed
  · have bound := s.unused_le
    have admitted : s.store.lh.length + (s.outstanding + 1) * MAXOPBLOCKS ≤ LOGBLOCKS :=
      Nat.not_lt.mp space
    have total : (beginOp s).unused = MAXOPBLOCKS - (s.hist.blocks s.hist.next).card + s.unused := by
      simp [Sys.unused, beginOp, History.blocks]
    rw [h.outstanding, Nat.succ_mul] at admitted
    show s.store.lh.length + _ ≤ _
    omega

/-- A call of `log_write` that adds `b` to the blocks of its operation. -/
theorem blocks_written (s : Sys) (op b : Nat) (data : Block) (op' : Nat) :
    (writeBlock op b data s).hist.blocks op' =
      if op' = op then insert b (s.hist.blocks op') else s.hist.blocks op' := by
  ext c
  rw [mem_blocks]
  split
  · next same =>
    subst same
    rw [Finset.mem_insert, mem_blocks]
    simp [writeBlock, or_and_right, exists_or, eq_comm, or_comm]
  · next other =>
    rw [mem_blocks]
    simp [writeBlock, or_and_right, exists_or, Ne.symm other]

/-- Space that an operation uses up is taken from its reservation. -/
theorem sum_sub_update {l : List Nat} (nodup : l.Nodup) {f g : Nat → Nat} {op : Nat} (inside : op ∈ l)
    (same : ∀ i ≠ op, g i = f i) : (l.map g).sum + f op = (l.map f).sum + g op := by
  have rest : ((l.erase op).map g).sum = ((l.erase op).map f).sum := by
    refine congrArg List.sum (List.map_congr_left fun i there => same i ?_)
    exact (nodup.mem_erase_iff.mp there).1
  rw [← List.sum_map_erase f inside, ← List.sum_map_erase g inside, rest]
  omega

theorem Reserved.written (h : Reserved s) (inOp : op ∈ s.hist.opened)
    (few : (insert b (s.hist.blocks op)).card ≤ MAXOPBLOCKS) : Reserved (writeBlock op b data s) := by
  have blocks := blocks_written s op b data
  have lh : (writeBlock op b data s).store.lh =
      if b ∈ s.store.lh then s.store.lh else s.store.lh ++ [b] := lh_logWrite
  have kept : ∀ c ∈ s.store.lh, c ∈ (writeBlock op b data s).store.lh := by
    intro c inside
    rw [lh]
    split
    · exact inside
    · exact List.mem_append_left _ inside
  refine ⟨⟨h.outstanding, h.alone, h.idle⟩, h.nodup, h.opened, ?_, ?_, ?_, ?_⟩
  · intro w written
    rcases List.mem_append.mp written with old | new
    · exact h.past w old
    · rw [List.mem_singleton.mp new]
      exact h.opened op inOp
  · intro op' inside
    rw [blocks]
    split
    · next same => exact same ▸ few
    · exact h.few op' inside
  · intro op' inside c passed
    rw [blocks] at passed
    split at passed
    · rcases Finset.mem_insert.mp passed with rfl | old
      · rw [lh]
        split
        · assumption
        · simp
      · exact kept c (h.listed op' inside c old)
    · exact kept c (h.listed op' inside c passed)
  · have total : (writeBlock op b data s).unused + (MAXOPBLOCKS - (s.hist.blocks op).card) =
        s.unused + (MAXOPBLOCKS - (insert b (s.hist.blocks op)).card) := by
      have sums := sum_sub_update h.nodup inOp (f := fun i => MAXOPBLOCKS - (s.hist.blocks i).card)
        (g := fun i => MAXOPBLOCKS - ((writeBlock op b data s).hist.blocks i).card) (fun i other => by
          rw [blocks, if_neg other])
      rwa [blocks, if_pos rfl] at sums
    have before := h.room
    have larger := Finset.card_le_card (Finset.subset_insert b (s.hist.blocks op))
    rw [lh]
    split
    · omega
    · next new =>
      -- a block that is not in the log is new to its operation too
      have unlisted : b ∉ s.hist.blocks op := fun passed => new (h.listed op inOp b passed)
      rw [Finset.card_insert_of_notMem unlisted] at total few
      rw [List.length_append, List.length_singleton]
      omega

theorem Reserved.ended (h : Reserved s) (inOp : op ∈ s.hist.opened) : Reserved (endOp op s) := by
  have blocks : ∀ i, (endOp op s).hist.blocks i = s.hist.blocks i := fun i => blocks_of_writes rfl i
  have sub : ∀ i ∈ s.hist.opened.erase op, i ∈ s.hist.opened := fun i => List.mem_of_mem_erase
  refine ⟨h.toCounted.ended inOp, h.nodup.erase op, fun i inside => h.opened i (sub i inside),
    h.past, fun i inside => ?_, fun i inside c passed => ?_, ?_⟩
  · rw [blocks]
    exact h.few i (sub i inside)
  · rw [blocks] at passed
    exact h.listed i (sub i inside) c passed
  · have split := List.sum_map_erase (fun i => MAXOPBLOCKS - (s.hist.blocks i).card) inOp
    have less : (endOp op s).unused ≤ s.unused := by
      rw [Sys.unused, Sys.unused, ← split]
      exact Nat.le_add_left _ _
    have before := h.room
    show s.store.lh.length + _ ≤ _
    omega

theorem Reserved.committed (h : Reserved s) (busy : s.committing = true) :
    Reserved (commitStep start s) := by
  obtain ⟨-, opened, next, writes, lh⟩ := commitStep_kept start s
  rw [h.alone busy] at opened
  have before := h.room
  refine ⟨h.toCounted.committed busy, ?_, ?_, ?_, ?_, ?_, ?_⟩
  · rw [opened]
    exact List.nodup_nil
  · simp [opened]
  · rw [writes, next]
    exact h.past
  · simp [opened]
  · simp [opened]
  · rw [Sys.unused, opened, List.map_nil, List.sum_nil]
    rcases lh with same | empty
    · rw [same]
      omega
    · simp [empty]

/-- A call within the reservation leaves room and does not panic. -/
theorem Reserved.call {c : Call} {r : Except String Sys} (h : Reserved s) (few : FewBlocks s c)
    (spare : SpareRewrites s c) (tried : Tried start c s r) : ∃ t, r = .ok t ∧ Reserved t := by
  cases tried with
  | read _ b =>
    exact ⟨_, rfl, ⟨h.outstanding, h.alone, h.idle⟩, h.nodup, h.opened, h.past, h.few, h.listed,
      h.room⟩
  | recycle _ b unused =>
    exact ⟨_, rfl, ⟨h.outstanding, h.alone, h.idle⟩, h.nodup, h.opened, h.past, h.few, h.listed,
      h.room⟩
  | beginOp _ ready space => exact ⟨_, rfl, h.begun ready space⟩
  | logWrite _ op b data inOp =>
    refine ⟨writeBlock op b data s, ?_, h.written inOp few⟩
    have one : 1 ≤ s.hist.opened.length := List.length_pos_of_mem inOp
    have room : ¬ LOGBLOCKS ≤ s.store.lh.length := by
      intro full
      have within := h.room
      have mine : MAXOPBLOCKS - (s.hist.blocks op).card ≤ s.unused :=
        List.single_le_sum (by simp) _ (List.mem_map_of_mem inOp)
      have used := h.few op inOp
      exact spare (by omega) (by omega)
    rw [tryLogWrite, if_neg room, if_neg (by rw [h.outstanding]; omega)]
  | endOp _ op inOp =>
    refine ⟨_, ?_, h.ended inOp⟩
    rw [tryEndOp, h.quiet inOp]
    rfl
  | commit _ busy => exact ⟨_, rfl, h.committed busy⟩

/-- In every interleaving of operations that each pass at most `MAXOPBLOCKS` distinct blocks, and
log a block again after that only while the log is not full, no call panics and the log never holds
more than `LOGBLOCKS` blocks. -/
theorem reservation_suffices {r : Except String Sys} (initial : Initial start s₀)
    (run : Runs start (fun s c => FewBlocks s c ∧ SpareRewrites s c) s₀ r) :
    ∃ s, r = .ok s ∧ s.store.lh.length ≤ LOGBLOCKS := by
  have kept : ∃ s, r = .ok s ∧ Reserved s := by
    induction run with
    | start => exact ⟨_, rfl, .initial initial⟩
    | call before ok tried ih =>
      obtain ⟨s, is, h⟩ := ih
      cases is
      exact h.call ok.1 ok.2 tried
  obtain ⟨s, is, h⟩ := kept
  exact ⟨s, is, (Nat.le_add_right _ _).trans h.room⟩

/-! ### Three operations fill the log -/

/-- The outcome of a call, where it can be made. -/
def Call.exec (start : Nat) (s : Sys) : Call → Option (Except String Sys)
  | .read b => some (.ok { s with store := s.store.bread b })
  | .recycle b =>
    if s.store.pin b = 0 then some (.ok { s with store := s.store.recycle b }) else none
  | .beginOp =>
    if s.committing = false ∧ ¬ logFull s.store.lh.length s.outstanding then
      some (.ok (Log.beginOp s))
    else none
  | .logWrite op b data => if op ∈ s.hist.opened then some (tryLogWrite op b data s) else none
  | .endOp op => if op ∈ s.hist.opened then some (tryEndOp op s) else none
  | .commit => if s.committing = true then some (.ok (commitStep start s)) else none

theorem Call.tried {c : Call} {r : Except String Sys} (made : c.exec start s = some r) :
    Tried start c s r := by
  cases c with
  | read b =>
    obtain rfl := Option.some.inj made
    exact .read s b
  | recycle b =>
    obtain ⟨unused, rfl⟩ : _ ∧ _ = r := by simpa [exec] using made
    exact .recycle s b unused
  | beginOp =>
    obtain ⟨⟨ready, space⟩, rfl⟩ : _ ∧ _ = r := by simpa [exec] using made
    exact .beginOp s ready space
  | logWrite op b data =>
    obtain ⟨inOp, rfl⟩ : _ ∧ _ = r := by simpa [exec] using made
    exact .logWrite s op b data inOp
  | endOp op =>
    obtain ⟨inOp, rfl⟩ : _ ∧ _ = r := by simpa [exec] using made
    exact .endOp s op inOp
  | commit =>
    obtain ⟨busy, rfl⟩ : _ ∧ _ = r := by simpa [exec] using made
    exact .commit s busy

/-- The calls one after the other, up to the first panic. -/
def makeCalls (start : Nat) (allowed : Sys → Call → Prop) [∀ s c, Decidable (allowed s c)] :
    List Call → Sys → Option (Except String Sys)
  | [], s => some (.ok s)
  | c :: rest, s =>
    if allowed s c then
      match c.exec start s with
      | none => none
      | some (.error msg) => some (.error msg)
      | some (.ok t) => makeCalls start allowed rest t
    else none

theorem makeCalls_runs {allowed : Sys → Call → Prop} [∀ s c, Decidable (allowed s c)]
    {calls : List Call} {r : Except String Sys} (before : Runs start allowed s₀ (.ok s))
    (made : makeCalls start allowed calls s = some r) : Runs start allowed s₀ r := by
  induction calls generalizing s with
  | nil =>
    obtain rfl := Option.some.inj made
    exact before
  | cons c rest ih =>
    rw [makeCalls] at made
    split at made
    · next ok =>
      split at made
      · cases made
      · next msg tried =>
        obtain rfl := Option.some.inj made
        exact before.call ok (Call.tried tried)
      · next t tried => exact ih (before.call ok (Call.tried tried)) made
    · cases made

instance (s : Sys) : (c : Call) → Decidable (FewBlocks s c)
  | .logWrite op b _ =>
    inferInstanceAs (Decidable ((insert b (s.hist.blocks op)).card ≤ MAXOPBLOCKS))
  | .read _ | .recycle _ | .beginOp | .endOp _ | .commit => .isTrue trivial

instance (s : Sys) : (c : Call) → Decidable (SpareRewrites s c)
  | .logWrite op _ _ => inferInstanceAs (Decidable
      ((s.hist.blocks op).card = MAXOPBLOCKS → s.store.lh.length ≠ LOGBLOCKS))
  | .read _ | .recycle _ | .beginOp | .endOp _ | .commit => .isTrue trivial

theorem zeroed_initial : Initial 2 zeroed :=
  ⟨by decide, fun _ _ h => (nomatch h), rfl, rfl, rfl, rfl, rfl⟩

/-- Three operations begin, and each passes ten blocks of its own. -/
def fillLog : List Call :=
  [.beginOp, .beginOp, .beginOp] ++
    (List.range 30).map fun k => .logWrite (k / 10) (100 + k) fun _ => 0

theorem fillLog_fits :
    ((makeCalls 2 (fun s c => FewBlocks s c ∧ SpareRewrites s c) fillLog zeroed).any fun r =>
      match r with
      | .ok s => s.store.lh.length == 30
      | .error _ => false) = true := by
  decide +kernel

theorem reservation_suffices_sample : ∃ s,
    Runs 2 (fun s c => FewBlocks s c ∧ SpareRewrites s c) zeroed (.ok s) ∧
      s.store.lh.length = 30 ∧ s.store.lh.length ≤ LOGBLOCKS := by
  obtain ⟨r, made, full⟩ := (Option.any_eq_true _ _).mp fillLog_fits
  have run := makeCalls_runs .start made
  obtain ⟨s, rfl, bound⟩ := reservation_suffices zeroed_initial run
  exact ⟨s, run, by simpa using full, bound⟩

theorem fillLog_again :
    ((makeCalls 2 FewBlocks (fillLog ++ [.logWrite 0 100 fun _ => 0]) zeroed).any fun r =>
      match r with
      | .ok _ => false
      | .error msg => msg == "too big a transaction") = true := by
  decide +kernel

/-- An operation that logs a block of its own again finds the log full. -/
theorem absorbed_write_panics : Initial 2 zeroed ∧
    Runs 2 FewBlocks zeroed (.error "too big a transaction") := by
  obtain ⟨r, made, panics⟩ := (Option.any_eq_true _ _).mp fillLog_again
  have run := makeCalls_runs .start made
  cases r with
  | ok s => cases panics
  | error msg =>
    rw [beq_iff_eq.mp panics] at run
    exact ⟨zeroed_initial, run⟩

end Xv6Lab.Log

import Xv6Lab.Log.Shutdown

/-! The log and the area of the disk that the superblock sets aside for it.  `fsinit` takes
`logstart` from the superblock and looks at `nlog` nowhere: a transaction may have `LOGBLOCKS`
blocks whatever the area holds.  Block numbers are 32-bit words here, as `bread` takes them. -/

namespace Xv6Lab.Log

/-! ### The superblock -/

structure Superblock where
  magic : BitVec 32
  size : BitVec 32
  nblocks : BitVec 32
  ninodes : BitVec 32
  nlog : BitVec 32
  logstart : BitVec 32
  inodestart : BitVec 32
  bmapstart : BitVec 32

def FSMAGIC : BitVec 32 := 0x10203040

/-- `initlog`, up to `log.start`; `recover_from_log` comes after it. -/
def initlog (sb : Superblock) : Except String (BitVec 32) :=
  if BSIZE ≤ 4 + 4 * LOGBLOCKS then .error "initlog: too big logheader" else .ok sb.logstart

/-- `fsinit` with what `readsb` read, up to `log.start`. -/
def fsinit (sb : Superblock) : Except String (BitVec 32) :=
  if sb.magic ≠ FSMAGIC then .error "invalid file system" else initlog sb

/-- `b` is in `[sb.logstart, sb.logstart + sb.nlog)`. -/
def Superblock.InLog (sb : Superblock) (b : BitVec 32) : Prop :=
  sb.logstart.toNat ≤ b.toNat ∧ b.toNat < sb.logstart.toNat + sb.nlog.toNat

instance (sb : Superblock) (b : BitVec 32) : Decidable (sb.InLog b) :=
  inferInstanceAs (Decidable (_ ∧ _))

/-- The area has room for the header and a full transaction, and block numbers for them. -/
def Superblock.Holds (sb : Superblock) : Prop :=
  LOGBLOCKS < sb.nlog.toNat ∧ sb.logstart.toNat + LOGBLOCKS < 2 ^ 32

instance (sb : Superblock) : Decidable sb.Holds := inferInstanceAs (Decidable (_ ∧ _))

theorem fsinit_ok {sb : Superblock} {start : BitVec 32} (accepted : fsinit sb = .ok start) :
    start = sb.logstart := by
  unfold fsinit at accepted
  split at accepted
  · cases accepted
  · exact (Except.ok.inj accepted).symm

/-! ### Commits at any `log.start` -/

/-- `log.start + tail + 1`, as `bread` gets it. -/
def logBlockno (start : BitVec 32) (tail : Nat) : BitVec 32 := start + BitVec.ofNat 32 tail + 1

section Code

variable (start : BitVec 32)

/-- One iteration of `write_log`. -/
def writeLogAt (tail blockno : Nat) (st : Store) : Store :=
  let lbuf := (logBlockno start tail).toNat
  let st := (st.bread lbuf).bread blockno
  (st.modify lbuf (st.view blockno)).bwrite lbuf

/-- One iteration of `install_trans(0)`. -/
def installTransAt (tail blockno : Nat) (st : Store) : Store :=
  let lbuf := (logBlockno start tail).toNat
  let st := (st.bread lbuf).bread blockno
  ((st.modify blockno (st.view lbuf)).bwrite blockno).bunpin blockno

/-- `commitStep`, with the log blocks where `bread` finds them. -/
def commitTurn (s : Sys) : Sys :=
  match s.pc with
  | .writeLog tail =>
    match s.store.lh[tail]? with
    | some blockno =>
      { s with store := writeLogAt start tail blockno s.store, pc := .writeLog (tail + 1) }
    | none => { s with pc := .writeHead }
  | .installTrans tail =>
    match s.store.lh[tail]? with
    | some blockno =>
      { s with
        store := installTransAt start tail blockno s.store
        pc := .installTrans (tail + 1) }
    | none => { s with store := { s.store with lh := [] }, pc := .clear }
  | _ => commitStep start.toNat s

/-- Steps of the machine, those of `shutdown` and forced commits among them. -/
inductive Attempts : Event → Machine → Except String Machine → Prop
  | commit {m : Machine} (committing : m.sys.committing = true) :
      Attempts (.call .commit) m (.ok ⟨commitTurn start m.sys, stageAfter m .commit⟩)
  | other {e : Event} {m : Machine} {r : Except String Machine} (different : e ≠ .call .commit)
      (moves : Moves start.toNat e m r) : Attempts e m r

/-- The machine gets from `m₀` to a state. -/
inductive Reaches (m₀ : Machine) : Machine → Prop
  | start : Reaches m₀ m₀
  | step {m t : Machine} {e : Event} (before : Reaches m₀ m) (attempt : Attempts start e m (.ok t)) :
      Reaches m₀ t

/-- The blocks that `write_log` or `write_head` writes in the next step of the commit. -/
def Sys.logWrites (s : Sys) : List (BitVec 32) :=
  match s.pc with
  | .writeLog tail => if tail < s.store.lh.length then [logBlockno start tail] else []
  | .writeHead | .clear => [start]
  | _ => []

end Code

/-- The commit is in `write_log` or `write_head`. -/
def Pc.writesLog : Pc → Bool
  | .writeLog _ | .writeHead | .clear => true
  | _ => false

/-- The next step of the commit writes the log inside the area only, and what it changes on the
disk is there. -/
structure Superblock.Confines (sb : Superblock) (start : BitVec 32) (s : Sys) : Prop where
  inside : ∀ b ∈ s.logWrites start, sb.InLog b
  kept : s.pc.writesLog = true → ∀ b : BitVec 32, ¬ sb.InLog b →
    (commitTurn start s).store.disk b.toNat = s.store.disk b.toNat

variable {sb : Superblock} {start : BitVec 32} {m₀ m t : Machine} {s : Sys} {e : Event}
  {tail blockno : Nat} {st : Store}

/-! ### Where the log blocks are -/

theorem logBlockno_toNat (start : BitVec 32) (tail : Nat) :
    (logBlockno start tail).toNat = (start.toNat + tail + 1) % 2 ^ 32 := by
  simp [logBlockno, BitVec.toNat_add, Nat.add_mod]

/-- Where block numbers do not run out, log blocks are where `commitStep` has them. -/
theorem logBlockno_fits (fits : start.toNat + tail + 1 < 2 ^ 32) :
    (logBlockno start tail).toNat = start.toNat + tail + 1 := by
  rw [logBlockno_toNat, Nat.mod_eq_of_lt fits]

/-- There the commit is the one of the model with unbounded block numbers. -/
theorem commitTurn_eq (fits : start.toNat + LOGBLOCKS < 2 ^ 32)
    (bound : s.store.lh.length ≤ LOGBLOCKS) : commitTurn start s = commitStep start.toNat s := by
  have number : ∀ tail blockno, s.store.lh[tail]? = some blockno →
      (logBlockno start tail).toNat = start.toNat + tail + 1 := by
    intro tail blockno entry
    have short := (List.getElem?_eq_some_iff.mp entry).1
    exact logBlockno_fits (by omega)
  cases pc : s.pc with
  | writeLog tail =>
    simp only [commitTurn, commitStep, pc]
    cases entry : s.store.lh[tail]? with
    | none => rfl
    | some blockno => simp only [writeLogAt, writeLogBody, number tail blockno entry]
  | installTrans tail =>
    simp only [commitTurn, commitStep, pc]
    cases entry : s.store.lh[tail]? with
    | none => rfl
    | some blockno =>
      simp only [installTransAt, installTransBody, number tail blockno entry]
      rfl
  | idle | enter | writeHead | clear | leave => simp only [commitTurn, pc]

theorem disk_writeLogAt : (writeLogAt start tail blockno st).disk =
    Function.update st.disk (logBlockno start tail).toNat (st.view blockno) := by
  simp [writeLogAt]

/-- A step in `write_log` or `write_head` changes the blocks it writes and no others. -/
theorem commitTurn_disk (logs : s.pc.writesLog = true) {b : BitVec 32}
    (other : b ∉ s.logWrites start) :
    (commitTurn start s).store.disk b.toNat = s.store.disk b.toNat := by
  unfold Sys.logWrites at other
  cases pc : s.pc with
  | writeLog tail =>
    simp only [pc] at other
    simp only [commitTurn, pc]
    split
    · next blockno entry =>
      rw [if_pos (List.getElem?_eq_some_iff.mp entry).1, List.mem_singleton] at other
      rw [disk_writeLogAt, Function.update_of_ne (fun same => other (BitVec.eq_of_toNat_eq same))]
    · rfl
  | writeHead | clear =>
    simp only [pc, List.mem_singleton] at other
    simp only [commitTurn, pc, commitStep]
    rw [disk_writeHead, Function.update_of_ne (fun same => other (BitVec.eq_of_toNat_eq same))]
  | idle | enter | installTrans | leave => simp [pc, Pc.writesLog] at logs

/-! ### The length of a transaction -/

/-- A step of the commit leaves the list of blocks alone or empties it. -/
theorem commitTurn_lh (start : BitVec 32) (s : Sys) :
    (commitTurn start s).store.lh = s.store.lh ∨ (commitTurn start s).store.lh = [] := by
  unfold commitTurn
  split
  · split <;> exact .inl rfl
  · split
    · exact .inl rfl
    · exact .inr rfl
  · exact (commitStep_kept start.toNat s).2.2.2.2

theorem lh_bpins (blocks : List Nat) (st : Store) : (blocks.foldl Store.bpin st).lh = st.lh := by
  induction blocks generalizing st with
  | nil => rfl
  | cons b rest ih => exact ih (st.bpin b)

/-- `log_write` panics rather than list more than `LOGBLOCKS` blocks. -/
theorem tried_bounded {start : Nat} {c : Call} {s t : Sys} (tried : Tried start c s (.ok t))
    (bound : s.store.lh.length ≤ LOGBLOCKS) : t.store.lh.length ≤ LOGBLOCKS := by
  generalize made : Except.ok t = r at tried
  cases tried with
  | read | recycle | beginOp =>
    cases made
    exact bound
  | logWrite _ op b data inOp =>
    obtain ⟨room, rfl⟩ := tryLogWrite_ok made.symm
    show (logWrite b data s.store).lh.length ≤ LOGBLOCKS
    rw [lh_logWrite]
    split
    · exact bound
    · rw [List.length_append, List.length_singleton]
      omega
  | endOp _ op inOp =>
    obtain ⟨-, rfl⟩ := tryEndOp_ok made.symm
    exact bound
  | commit _ busy =>
    cases made
    rcases (commitStep_kept start s).2.2.2.2 with same | empty
    · rw [same]
      exact bound
    · rw [empty]
      exact Nat.zero_le _

theorem Attempts.bounded (attempt : Attempts start e m (.ok t))
    (bound : m.sys.store.lh.length ≤ LOGBLOCKS) : t.sys.store.lh.length ≤ LOGBLOCKS := by
  generalize made : Except.ok t = r at attempt
  cases attempt with
  | commit busy =>
    cases made
    rcases commitTurn_lh start m.sys with same | empty
    · rw [same]
      exact bound
    · rw [empty]
      exact Nat.zero_le _
  | other different moves =>
    cases moves with
    | @call _ c r tried =>
      cases r with
      | error msg => cases made
      | ok s =>
        cases made
        exact tried_bounded tried bound
    | shutdown =>
      cases made
      exact bound
    | forceTest =>
      cases made
      unfold forceTest
      split
      · exact bound
      · split <;> exact bound
    | collect blocks =>
      cases made
      show (blocks.foldl Store.bpin m.sys.store).lh.length ≤ LOGBLOCKS
      rw [lh_bpins]
      exact bound
    | syncWrite =>
      cases made
      exact bound

/-- No run lists more than `LOGBLOCKS` blocks. -/
theorem Reaches.bounded (fresh : Fresh start.toNat m₀) (run : Reaches start m₀ m) :
    m.sys.store.lh.length ≤ LOGBLOCKS := by
  induction run with
  | start =>
    rw [fresh.initial.lh]
    exact Nat.zero_le _
  | step before attempt ih => exact attempt.bounded ih

theorem Superblock.Holds.head (holds : sb.Holds) : sb.InLog sb.logstart :=
  ⟨le_refl _, Nat.lt_add_of_pos_right (Nat.zero_lt_of_lt holds.1)⟩

/-- An area that holds a full transaction confines every commit. -/
theorem Superblock.Holds.confines (holds : sb.Holds) (bound : s.store.lh.length ≤ LOGBLOCKS) :
    sb.Confines sb.logstart s := by
  have head := holds.head
  obtain ⟨room, numbers⟩ := holds
  have inside : ∀ b ∈ s.logWrites sb.logstart, sb.InLog b := by
    intro b written
    unfold Sys.logWrites at written
    split at written
    · next tail pc =>
      split at written
      · next short =>
        rw [List.mem_singleton.mp written]
        have number : (logBlockno sb.logstart tail).toNat = _ := logBlockno_fits (by omega)
        exact ⟨by omega, by omega⟩
      · cases written
    · rw [List.mem_singleton.mp written]
      exact head
    · rw [List.mem_singleton.mp written]
      exact head
    · cases written
  exact ⟨inside, fun logs b outside => commitTurn_disk logs fun written =>
    outside (inside b written)⟩

/-! ### A full transaction -/

/-- The `k`th block of the transaction, outside the log area. -/
def homeBlock (start k : Nat) : Nat :=
  if LOGBLOCKS ≤ start then k else start + LOGBLOCKS + 1 + k

theorem homeBlock_new (start k : Nat) :
    homeBlock start k ∉ (List.range k).map (homeBlock start) := by
  intro old
  obtain ⟨i, before, same⟩ := List.mem_map.mp old
  have less := List.mem_range.mp before
  unfold homeBlock at same
  split at same <;> omega

/-- Three operations have begun and passed `k` blocks between them. -/
structure Filling (start : BitVec 32) (k : Nat) (m : Machine) : Prop where
  lh : m.sys.store.lh = (List.range k).map (homeBlock start.toNat)
  opened : m.sys.hist.opened = [2, 1, 0]
  outstanding : m.sys.outstanding = 3
  committing : m.sys.committing = false

theorem Reaches.call {c : Call} {s : Sys} (run : Reaches start m₀ m) (different : c ≠ .commit)
    (tried : Tried start.toNat c m.sys (.ok s)) : Reaches start m₀ ⟨s, stageAfter m c⟩ :=
  run.step (.other (fun same => different (Event.call.inj same)) (.call tried))

/-- The machine after a boot from a disk of zeros. -/
def zeroedMachine : Machine := ⟨zeroed, .up⟩

theorem zeroedMachine_fresh (start : Nat) : Fresh start zeroedMachine :=
  ⟨⟨by show headerN (fun _ => 0) = 0; decide, fun _ _ h => (nomatch h), rfl, rfl, rfl, rfl, rfl⟩, rfl⟩

theorem Filling.begin (start : BitVec 32) :
    ∃ m, Reaches start zeroedMachine m ∧ Filling start 0 m := by
  have boot : Reaches start zeroedMachine zeroedMachine := .start
  have first := boot.call (c := .beginOp) (by simp) (.beginOp _ rfl (by decide))
  have second := first.call (c := .beginOp) (by simp) (.beginOp _ rfl (by decide))
  have third := second.call (c := .beginOp) (by simp) (.beginOp _ rfl (by decide))
  exact ⟨_, third, rfl, rfl, rfl, rfl⟩

/-- Each operation passes ten blocks. -/
theorem Filling.write {k : Nat} (h : Filling start k m) (small : k < LOGBLOCKS)
    (run : Reaches start m₀ m) : ∃ t, Reaches start m₀ t ∧ Filling start (k + 1) t := by
  have inOp : k / MAXOPBLOCKS ∈ m.sys.hist.opened := by
    have third : k / MAXOPBLOCKS < 3 := Nat.div_lt_of_lt_mul small
    rw [h.opened]
    generalize k / MAXOPBLOCKS = op at third
    match op, third with
    | 0, _ | 1, _ | 2, _ => decide
  have made : tryLogWrite (k / MAXOPBLOCKS) (homeBlock start.toNat k) (fun _ => 1) m.sys =
      .ok (writeBlock (k / MAXOPBLOCKS) (homeBlock start.toNat k) (fun _ => 1) m.sys) := by
    rw [tryLogWrite, if_neg (by simpa [h.lh] using small), if_neg (by rw [h.outstanding]; decide)]
  have tried : Tried start.toNat _ m.sys _ :=
    .logWrite m.sys _ (homeBlock start.toNat k) (fun _ => 1) inOp
  rw [made] at tried
  refine ⟨_, run.call (by simp) tried, ?_, h.opened, h.outstanding, h.committing⟩
  show (logWrite _ _ m.sys.store).lh = _
  rw [lh_logWrite, h.lh, if_neg (homeBlock_new start.toNat k), List.range_succ, List.map_append]
  rfl

theorem Filling.filled (start : BitVec 32) (k : Nat) (small : k ≤ LOGBLOCKS) :
    ∃ m, Reaches start zeroedMachine m ∧ Filling start k m := by
  induction k with
  | zero => exact Filling.begin start
  | succ k ih =>
    obtain ⟨m, run, h⟩ := ih (by omega)
    exact h.write small run

/-- The commit of a full transaction is at entry `tail` of `write_log`. -/
structure Writing (tail : Nat) (m : Machine) : Prop where
  length : m.sys.store.lh.length = LOGBLOCKS
  committing : m.sys.committing = true
  pc : m.sys.pc = .writeLog tail

theorem tried_end {start : Nat} {op : Nat} {s : Sys} (inOp : op ∈ s.hist.opened)
    (ready : s.committing = false) : Tried start (.endOp op) s (.ok (endOp op s)) := by
  have tried : Tried start _ s _ := .endOp s op inOp
  rwa [tryEndOp, ready, if_neg (by decide)] at tried

/-- The last `end_op` starts the commit. -/
theorem Writing.begin (start : BitVec 32) :
    ∃ m, Reaches start zeroedMachine m ∧ Writing 0 m := by
  obtain ⟨m, run, h⟩ := Filling.filled start LOGBLOCKS (le_refl _)
  have first := run.call (c := .endOp 0) (by simp) (tried_end (by rw [h.opened]; decide) h.committing)
  have two : (endOp 0 m.sys).outstanding = 2 := by rw [endOp, h.outstanding]
  have left : (endOp 0 m.sys).hist.opened = [2, 1] := by
    show m.sys.hist.opened.erase 0 = _
    rw [h.opened]
    decide
  have second := first.call (c := .endOp 1) (by simp) (tried_end (by rw [left]; decide)
    (by show decide (m.sys.outstanding - 1 = 0) = false; rw [h.outstanding]; decide))
  have one : (endOp 1 (endOp 0 m.sys)).outstanding = 1 := by
    show (endOp 0 m.sys).outstanding - 1 = 1
    rw [two]
  have last : (endOp 1 (endOp 0 m.sys)).hist.opened = [2] := by
    show (endOp 0 m.sys).hist.opened.erase 1 = _
    rw [left]
    decide
  have third := second.call (c := .endOp 2) (by simp) (tried_end (by rw [last]; decide)
    (by show decide ((endOp 0 m.sys).outstanding - 1 = 0) = false; rw [two]; decide))
  have busy : (endOp 2 (endOp 1 (endOp 0 m.sys))).committing = true := by
    show decide ((endOp 1 (endOp 0 m.sys)).outstanding - 1 = 0) = true
    rw [one]
    decide
  have enter : (endOp 2 (endOp 1 (endOp 0 m.sys))).pc = .enter := by
    show (if (endOp 1 (endOp 0 m.sys)).outstanding - 1 = 0 then Pc.enter else _) = _
    rw [one, if_pos rfl]
  have length : (endOp 2 (endOp 1 (endOp 0 m.sys))).store.lh.length = LOGBLOCKS := by
    show m.sys.store.lh.length = _
    rw [h.lh]
    simp
  refine ⟨_, third.step (.commit busy), ?_, ?_, ?_⟩
  · simp only [commitTurn, commitStep, enter]
    exact length
  · simp only [commitTurn, commitStep, enter]
    exact busy
  · simp only [commitTurn, commitStep, enter]
    rw [length, if_pos (by decide)]

theorem Writing.next (h : Writing tail m) (small : tail < LOGBLOCKS) (run : Reaches start m₀ m) :
    ∃ t, Reaches start m₀ t ∧ Writing (tail + 1) t := by
  have inside : tail < m.sys.store.lh.length := h.length ▸ small
  refine ⟨_, run.step (.commit h.committing), ?_, ?_, ?_⟩ <;>
    simp only [commitTurn, h.pc, List.getElem?_eq_getElem inside]
  · exact h.length
  · exact h.committing

theorem Writing.reached (start : BitVec 32) (tail : Nat) (small : tail ≤ LOGBLOCKS) :
    ∃ m, Reaches start zeroedMachine m ∧ Writing tail m := by
  induction tail with
  | zero => exact Writing.begin start
  | succ tail ih =>
    obtain ⟨m, run, h⟩ := ih (by omega)
    exact h.next small run

/-- At the last entry of a full transaction `write_log` writes `LOGBLOCKS` blocks after the header. -/
theorem last_write (start : BitVec 32) : ∃ m, Reaches start zeroedMachine m ∧
    m.sys.committing = true ∧ m.sys.logWrites start = [logBlockno start 29] := by
  obtain ⟨m, run, h⟩ := Writing.reached start 29 (by decide)
  refine ⟨m, run, h.committing, ?_⟩
  simp only [Sys.logWrites, h.pc, h.length]
  exact if_pos (by decide)

/-- The superblock that `mkfs` has written to `fs.img`. -/
def imageSuperblock : Superblock := ⟨FSMAGIC, 2000, 1953, 200, 31, 2, 33, 46⟩

end Xv6Lab.Log

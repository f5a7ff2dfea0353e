import Xv6Lab.Log.Reservation

/-! `shutdown` beside running operations.  A process that shuts the machine down reads the log's
status, runs `force_commit_log` if the log is busy, and then `sync_all_buffers`, while the other
processes go on calling the file system. -/

namespace Xv6Lab.Log

/-- Where the process that shuts down stands. -/
inductive Stage
  | up
  /-- At the loop test of `force_commit_log`. -/
  | force
  /-- In the `commit` of that loop. -/
  | forcing
  /-- At the start of `sync_all_buffers`. -/
  | collect
  /-- With these buffers left to write. -/
  | sync (blocks : List Nat)

structure Machine where
  sys : Sys
  stage : Stage

inductive Event
  | call (c : Call)
  | shutdown
  | forceTest
  | collect (blocks : List Nat)
  | syncWrite

/-- `get_log_status` and the test in `shutdown`. -/
def shutdown (m : Machine) : Machine :=
  { m with stage := if 0 < m.sys.outstanding ∨ m.sys.committing then .force else .collect }

/-- One round of the loop of `force_commit_log`, up to its `commit`. -/
def forceTest (m : Machine) : Machine :=
  if m.sys.outstanding = 0 then { m with stage := .collect }
  else if m.sys.committing then m
  else ⟨{ m.sys with committing := true, pc := .enter }, .forcing⟩

/-- The first half of `sync_all_buffers`: a reference to each buffer it found. -/
def collectBuffers (blocks : List Nat) (m : Machine) : Machine :=
  ⟨{ m.sys with store := blocks.foldl Store.bpin m.sys.store }, .sync blocks⟩

/-- The second half: the next buffer is written back and let go. -/
def syncWrite (b : Nat) (rest : List Nat) (m : Machine) : Machine :=
  ⟨{ m.sys with store := (m.sys.store.bwrite b).bunpin b }, .sync rest⟩

/-- A forced commit that is over goes back to the loop. -/
def stageAfter (m : Machine) : Call → Stage
  | .commit => match m.stage, m.sys.pc with
    | .forcing, .leave => .force
    | stage, _ => stage
  | _ => m.stage

section Code

variable (start : Nat)

/-- The outcome of a step. -/
inductive Moves : Event → Machine → Except String Machine → Prop
  | call {m : Machine} {c : Call} {r : Except String Sys} (tried : Tried start c m.sys r) :
      Moves (.call c) m (r.map fun s => ⟨s, stageAfter m c⟩)
  | shutdown {m : Machine} (up : m.stage = .up) : Moves .shutdown m (.ok (shutdown m))
  | forceTest {m : Machine} (loop : m.stage = .force) : Moves .forceTest m (.ok (forceTest m))
  | collect {m : Machine} (blocks : List Nat) (next : m.stage = .collect) (nodup : blocks.Nodup)
      (cached : ∀ b ∈ blocks, (m.sys.store.cache b).isSome) :
      Moves (.collect blocks) m (.ok (collectBuffers blocks m))
  | syncWrite {m : Machine} {b : Nat} {rest : List Nat} (next : m.stage = .sync (b :: rest)) :
      Moves .syncWrite m (.ok (syncWrite b rest m))

/-- Runs of steps that are all allowed, to the machine or the panic that they end in. -/
inductive Goes (allowed : Machine → Event → Prop) (m₀ : Machine) : Except String Machine → Prop
  | start : Goes allowed m₀ (.ok m₀)
  | step {m : Machine} {e : Event} {r : Except String Machine} (before : Goes allowed m₀ (.ok m))
      (ok : allowed m e) (moves : Moves start e m r) : Goes allowed m₀ r

/-- The blocks that a step writes to the disk. -/
def Event.written (m : Machine) : Event → List Nat
  | .call .commit =>
    match m.sys.pc with
    | .writeLog tail => if tail < m.sys.store.lh.length then [start + tail + 1] else []
    | .writeHead | .clear => [start]
    | .installTrans tail => (m.sys.store.lh[tail]?).toList
    | _ => []
  | .syncWrite =>
    match m.stage with
    | .sync (b :: _) => [b]
    | _ => []
  | _ => []

end Code

/-- The machine after a boot. -/
structure Fresh (start : Nat) (m : Machine) : Prop where
  initial : Initial start m.sys
  up : m.stage = .up

/-! ### Whole operations -/

/-- `force_commit_log` finds no open operation. -/
def NoneOpen (m : Machine) : Event → Prop
  | .forceTest => m.sys.outstanding = 0
  | _ => True

/-- A commit runs only when no operation is open, and the header it writes lists no block of an
operation that is. -/
structure Whole (m : Machine) : Prop where
  alone : m.sys.committing = true → m.sys.outstanding = 0
  header : m.sys.pc = .writeHead → ∀ w ∈ m.sys.hist.writes, w.blockno ∈ m.sys.store.lh →
    w.op ∉ m.sys.hist.opened

variable {start : Nat} {m m₀ : Machine} {e : Event}

theorem Counted.whole (h : Counted m.sys) : Whole m := by
  refine ⟨fun busy => ?_, fun pc w _ _ open_ => ?_⟩
  · rw [h.outstanding, h.alone busy]
    rfl
  · have idle := h.idle (h.quiet open_)
    rw [pc] at idle
    cases idle

/-- `end_op` of an open operation does not meet a commit. -/
theorem Counted.no_panic {s : Sys} {c : Call} {r : Except String Sys} (h : Counted s)
    (tried : Tried start c s r) : r ≠ .error "log.committing" := by
  cases tried with
  | read | recycle | beginOp | commit => simp
  | logWrite _ op b data inOp =>
    unfold tryLogWrite
    split
    · exact fun same => absurd (Except.error.inj same) (by decide)
    · split
      · exact fun same => absurd (Except.error.inj same) (by decide)
      · simp
  | endOp _ op inOp => simp [tryEndOp, h.quiet inOp]

theorem Counted.moves {r : Except String Machine} (h : Counted m.sys) (ok : NoneOpen m e)
    (moves : Moves start e m r) :
    r ≠ .error "log.committing" ∧ ∀ t, r = .ok t → Counted t.sys := by
  cases moves with
  | @call _ c r tried =>
    cases r with
    | error msg =>
      have fine := h.no_panic tried
      exact ⟨fun panics => fine (congrArg _ (Except.error.inj panics)), nofun⟩
    | ok s =>
      refine ⟨nofun, fun t is => ?_⟩
      obtain rfl := Except.ok.inj is
      exact h.call tried rfl
  | shutdown up =>
    refine ⟨nofun, fun t is => ?_⟩
    obtain rfl := Except.ok.inj is
    exact h
  | forceTest loop =>
    refine ⟨nofun, fun t is => ?_⟩
    obtain rfl := Except.ok.inj is
    rw [forceTest, if_pos (show m.sys.outstanding = 0 from ok)]
    exact h
  | collect blocks next nodup cached =>
    refine ⟨nofun, fun t is => ?_⟩
    obtain rfl := Except.ok.inj is
    exact ⟨h.outstanding, h.alone, h.idle⟩
  | syncWrite next =>
    refine ⟨nofun, fun t is => ?_⟩
    obtain rfl := Except.ok.inj is
    exact ⟨h.outstanding, h.alone, h.idle⟩

/-- In every run in which `force_commit_log` finds no open operation, commits are of whole
operations, and `end_op` never meets a commit. -/
theorem only_whole_operations {r : Except String Machine} (fresh : Fresh start m₀)
    (run : Goes start NoneOpen m₀ r) :
    r ≠ .error "log.committing" ∧ ∀ m, r = .ok m → Whole m := by
  have kept : r ≠ .error "log.committing" ∧ ∀ m, r = .ok m → Counted m.sys := by
    induction run with
    | start =>
      refine ⟨nofun, fun m is => ?_⟩
      obtain rfl := Except.ok.inj is
      exact .initial fresh.initial
    | step before ok moves ih => exact (ih.2 _ rfl).moves ok moves
  exact ⟨kept.1, fun m is => (kept.2 m is).whole⟩

/-! ### The write-ahead rule -/

/-- Operations log blocks outside the log area. -/
def LogsHome (start : Nat) : Event → Prop
  | .call (.logWrite _ b _) => Home start b ∧ b < 2 ^ 32
  | _ => True

/-- `sync_all_buffers` writes no block of the transaction unless its header is on the disk. -/
def SyncsBehind (m : Machine) : Event → Prop
  | .syncWrite => ∀ b rest, m.stage = .sync (b :: rest) → b ∈ m.sys.store.lh →
      ∃ tail, m.sys.pc = .installTrans tail
  | _ => True

/-- The blocks of the transaction that the step writes are listed in the header on the disk. -/
def WriteAhead (start : Nat) (m : Machine) (e : Event) : Prop :=
  ∀ b ∈ e.written start m, b ∈ m.sys.store.lh → b ∈ headerBlocks (m.sys.store.disk start)

/-- The header block is on the disk as it is in the cache, and the transaction can be listed in it. -/
structure Tidy (start : Nat) (st : Store) : Prop where
  home : ∀ b ∈ st.lh, Home start b ∧ b < 2 ^ 32
  length : st.lh.length ≤ LOGBLOCKS
  clean : st.view start = st.disk start

structure Ahead (start : Nat) (s : Sys) : Prop extends Counted s where
  tidy : Tidy start s.store
  header : ∀ tail, s.pc = .installTrans tail → headerBlocks (s.store.disk start) = s.store.lh

variable {st : Store} {s : Sys} {b tail blockno : Nat} {data : Block}

theorem Ahead.initial (initial : Initial start s) : Ahead start s := by
  refine ⟨.initial initial, ⟨?_, ?_, ?_⟩, ?_⟩
  · simp [initial.lh]
  · simp [initial.lh]
  · unfold Store.view
    cases cached : s.store.cache start with
    | none => rfl
    | some data => exact initial.clean start data cached
  · intro tail pc
    rw [initial.pc] at pc
    cases pc

theorem Tidy.recycle (h : Tidy start st) (b : Nat) : Tidy start (st.recycle b) := by
  refine ⟨h.home, h.length, ?_⟩
  by_cases same : start = b
  · simp [same, Store.view, Store.recycle]
  · rw [Store.disk_recycle, ← h.clean]
    simp [Store.view, Store.recycle, same]

theorem Tidy.logWrite (h : Tidy start st) (room : st.lh.length < LOGBLOCKS) (home : Home start b)
    (number : b < 2 ^ 32) : Tidy start (logWrite b data st) := by
  refine ⟨fun c inside => ?_, ?_, ?_⟩
  · rcases mem_logWrite.mp inside with old | rfl
    · exact h.home c old
    · exact ⟨home, number⟩
  · rw [lh_logWrite]
    split
    · exact h.length
    · rw [List.length_append, List.length_singleton]
      omega
  · rw [view_logWrite, disk_logWrite, Function.update_of_ne home.ne_start.symm, h.clean]

theorem Tidy.writeLog (h : Tidy start st) (tail blockno : Nat) :
    Tidy start (writeLogBody start tail blockno st) := by
  have ne : start ≠ start + tail + 1 := by omega
  refine ⟨h.home, h.length, ?_⟩
  rw [view_writeLogBody, disk_writeLogBody, Function.update_of_ne ne, Function.update_of_ne ne,
    h.clean]

theorem Tidy.install (h : Tidy start st) (tail : Nat) (inside : blockno ∈ st.lh) :
    Tidy start (installTransBody start false tail blockno st) := by
  have ne : start ≠ blockno := (h.home blockno inside).1.ne_start.symm
  refine ⟨h.home, h.length, ?_⟩
  rw [view_installTransBody, disk_installTransBody, Function.update_of_ne ne,
    Function.update_of_ne ne, h.clean]

theorem Tidy.writeHead (h : Tidy start st) : Tidy start (writeHead start st) := by
  refine ⟨h.home, h.length, ?_⟩
  rw [view_writeHead, disk_writeHead, Function.update_self, Function.update_self]

/-- A step of `commit` keeps the header and its cached copy together. -/
theorem Ahead.committed (h : Ahead start s) (busy : s.committing = true) :
    Ahead start (commitStep start s) := by
  have counted : Counted (commitStep start s) := h.toCounted.committed busy
  have tidy := h.tidy
  unfold commitStep at counted ⊢
  split at counted
  · exact h
  · refine ⟨counted, tidy, fun tail pc => ?_⟩
    simp only at pc
    split at pc <;> cases pc
  · next tail pc =>
    split at counted
    · exact ⟨counted, tidy.writeLog _ _, nofun⟩
    · exact ⟨counted, tidy, nofun⟩
  · refine ⟨counted, tidy.writeHead, fun tail _ => ?_⟩
    rw [disk_writeHead, Function.update_self]
    exact headerBlocks_putHeader tidy.length fun b inside => (tidy.home b inside).2
  · next tail pc =>
    split at counted
    · next blockno entry =>
      have inside := List.mem_of_getElem? entry
      refine ⟨counted, tidy.install _ inside, fun _ _ => ?_⟩
      rw [disk_installTransBody,
        Function.update_of_ne (tidy.home blockno inside).1.ne_start.symm, h.header tail pc,
        lh_installTransBody]
    · exact ⟨counted, ⟨nofun, Nat.zero_le _, tidy.clean⟩, nofun⟩
  · exact ⟨counted, tidy.writeHead, nofun⟩
  · exact ⟨counted, tidy, nofun⟩

theorem Ahead.call {c : Call} {r : Except String Sys} {t : Sys} (h : Ahead start s)
    (home : LogsHome start (.call c)) (tried : Tried start c s r) (ok : r = .ok t) :
    Ahead start t := by
  have counted := h.toCounted.call tried ok
  cases tried with
  | read _ b =>
    obtain rfl := Except.ok.inj ok
    refine ⟨counted, ⟨h.tidy.home, h.tidy.length, ?_⟩, h.header⟩
    rw [Store.view_bread]
    exact h.tidy.clean
  | recycle _ b unused =>
    obtain rfl := Except.ok.inj ok
    exact ⟨counted, h.tidy.recycle b, h.header⟩
  | beginOp _ ready space =>
    obtain rfl := Except.ok.inj ok
    exact ⟨counted, h.tidy, h.header⟩
  | logWrite _ op b data inOp =>
    obtain ⟨room, rfl⟩ := tryLogWrite_ok ok
    refine ⟨counted, h.tidy.logWrite room home.1 home.2, fun tail pc => ?_⟩
    -- no commit runs while the operation is open
    have idle : s.pc = .idle := h.idle (h.quiet inOp)
    exact absurd (idle.symm.trans pc) nofun
  | endOp _ op inOp =>
    obtain ⟨free, rfl⟩ := tryEndOp_ok ok
    refine ⟨counted, h.tidy, fun tail pc => ?_⟩
    rw [endOp, h.idle free] at pc
    simp only at pc
    split at pc <;> cases pc
  | commit _ busy =>
    obtain rfl := Except.ok.inj ok
    exact h.committed busy

theorem foldl_bpin (blocks : List Nat) (st : Store) : (blocks.foldl Store.bpin st).lh = st.lh ∧
    (blocks.foldl Store.bpin st).disk = st.disk ∧ (blocks.foldl Store.bpin st).view = st.view := by
  induction blocks generalizing st with
  | nil => exact ⟨rfl, rfl, rfl⟩
  | cons b rest ih => exact ih (st.bpin b)

theorem Tidy.sync (h : Tidy start st) (b : Nat) : Tidy start ((st.bwrite b).bunpin b) := by
  refine ⟨h.home, h.length, ?_⟩
  rw [Store.view_bunpin, Store.disk_bunpin, Store.view_bwrite, Store.disk_bwrite]
  by_cases same : start = b
  · rw [same, Function.update_self]
  · rw [Function.update_of_ne same, h.clean]

theorem Ahead.moves {r : Except String Machine} {t : Machine} (h : Ahead start m.sys)
    (ok : NoneOpen m e) (home : LogsHome start e) (moves : Moves start e m r) (is : r = .ok t) :
    Ahead start t.sys := by
  have counted := (h.toCounted.moves ok moves).2 t is
  cases moves with
  | @call _ c r tried =>
    cases r with
    | error msg => cases is
    | ok s =>
      obtain rfl := Except.ok.inj is
      exact h.call home tried rfl
  | shutdown up =>
    obtain rfl := Except.ok.inj is
    exact h
  | forceTest loop =>
    obtain rfl := Except.ok.inj is
    rw [forceTest, if_pos (show m.sys.outstanding = 0 from ok)]
    exact h
  | collect blocks next nodup cached =>
    obtain rfl := Except.ok.inj is
    obtain ⟨lh, disk, view⟩ := foldl_bpin blocks m.sys.store
    refine ⟨counted, ⟨?_, ?_, ?_⟩, fun tail pc => ?_⟩
    · rw [collectBuffers, lh]
      exact h.tidy.home
    · rw [collectBuffers, lh]
      exact h.tidy.length
    · rw [collectBuffers, disk, view]
      exact h.tidy.clean
    · rw [collectBuffers, disk, lh]
      exact h.header tail pc
  | @syncWrite _ b rest next =>
    obtain rfl := Except.ok.inj is
    refine ⟨counted, h.tidy.sync b, fun tail pc => ?_⟩
    have same : ((m.sys.store.bwrite b).bunpin b).disk start = m.sys.store.disk start := by
      have clean := (h.tidy.sync b).clean
      rw [← clean, Store.view_bunpin, Store.view_bwrite]
      exact h.tidy.clean
    rw [syncWrite, same]
    exact h.header tail pc

/-- What a step writes of the transaction is in the header already. -/
theorem Ahead.writeAhead (h : Ahead start m.sys) (behind : SyncsBehind m e) :
    WriteAhead start m e := by
  intro b written listed
  have home := (h.tidy.home b listed).1
  unfold Event.written at written
  split at written
  · split at written
    · next tail pc =>
      split at written
      · next inside =>
        rw [List.mem_singleton] at written
        exact absurd written (home.ne_log (inside.trans_le h.tidy.length))
      · cases written
    · rw [List.mem_singleton] at written
      exact absurd written home.ne_start
    · rw [List.mem_singleton] at written
      exact absurd written home.ne_start
    · next tail pc =>
      rw [h.header tail pc]
      exact listed
    · cases written
  · split at written
    · next next_ rest stage =>
      rw [List.mem_singleton] at written
      subst written
      obtain ⟨tail, pc⟩ := behind _ rest stage listed
      rw [h.header tail pc]
      exact listed
    · cases written
  · cases written

theorem commitStep_disk {stage : Stage} {b : Nat}
    (other : b ∉ (Event.call .commit).written start ⟨s, stage⟩) :
    (commitStep start s).store.disk b = s.store.disk b := by
  unfold commitStep
  cases pc : s.pc with
  | idle | enter | leave => rfl
  | writeLog tail =>
    simp only [Event.written, pc] at other
    cases entry : s.store.lh[tail]? with
    | none => simp only [entry]
    | some blockno =>
      obtain ⟨inside, -⟩ := List.getElem?_eq_some_iff.mp entry
      rw [if_pos inside, List.mem_singleton] at other
      simp only [entry]
      rw [disk_writeLogBody, Function.update_of_ne other]
  | writeHead | clear =>
    simp only [Event.written, pc, List.mem_singleton] at other
    show (writeHead start s.store).disk b = _
    rw [disk_writeHead, Function.update_of_ne other]
  | installTrans tail =>
    simp only [Event.written, pc] at other
    cases entry : s.store.lh[tail]? with
    | none => simp only [entry]
    | some blockno =>
      rw [entry, Option.toList_some, List.mem_singleton] at other
      simp only [entry]
      rw [disk_installTransBody, Function.update_of_ne other]

/-- A step changes the disk only where it writes. -/
theorem written_sound {t : Machine} (moves : Moves start e m (.ok t)) {b : Nat}
    (other : b ∉ e.written start m) : t.sys.store.disk b = m.sys.store.disk b := by
  generalize is : (Except.ok t : Except String Machine) = r at moves
  cases moves with
  | @call _ c r tried =>
    cases r with
    | error msg => cases is
    | ok s =>
      obtain rfl := Except.ok.inj is
      generalize made : (Except.ok s : Except String Sys) = r at tried
      cases tried with
      | read | recycle | beginOp =>
        obtain rfl := Except.ok.inj made
        rfl
      | logWrite _ op c data inOp =>
        obtain ⟨-, rfl⟩ := tryLogWrite_ok made.symm
        exact congrFun disk_logWrite b
      | endOp _ op inOp =>
        obtain ⟨-, rfl⟩ := tryEndOp_ok made.symm
        rfl
      | commit _ busy =>
        obtain rfl := Except.ok.inj made
        exact commitStep_disk other
  | shutdown up =>
    obtain rfl := Except.ok.inj is
    rfl
  | forceTest loop =>
    obtain rfl := Except.ok.inj is
    unfold forceTest
    split
    · rfl
    · split <;> rfl
  | collect blocks next nodup cached =>
    obtain rfl := Except.ok.inj is
    rw [collectBuffers, (foldl_bpin blocks m.sys.store).2.1]
  | @syncWrite _ c rest next =>
    obtain rfl := Except.ok.inj is
    simp only [Event.written, next, List.mem_singleton] at other
    exact Function.update_of_ne other _ _

/-- The steps of a run that keeps the rule. -/
structure Careful (start : Nat) (m : Machine) (e : Event) : Prop where
  noneOpen : NoneOpen m e
  logsHome : LogsHome start e
  syncsBehind : SyncsBehind m e

/-- In every run in which `force_commit_log` finds no open operation and `sync_all_buffers` writes no
block of a transaction whose header is not yet on the disk, no step at all does. -/
theorem write_ahead (fresh : Fresh start m₀)
    (run : Goes start (Careful start) m₀ (.ok m)) (behind : SyncsBehind m e) : WriteAhead start m e := by
  generalize is : (Except.ok m : Except String Machine) = r at run
  have kept : ∀ m, r = .ok m → Ahead start m.sys := by
    clear is
    induction run with
    | start =>
      intro m is
      obtain rfl := Except.ok.inj is
      exact .initial fresh.initial
    | step before ok moves ih => exact fun t is => (ih _ rfl).moves ok.noneOpen ok.logsHome moves is
  exact (kept m is.symm).writeAhead behind

/-! ### Two bad shutdowns -/

def idleMachine : Machine := ⟨zeroed, .up⟩

theorem idleMachine_fresh : Fresh 2 idleMachine := ⟨zeroed_initial, rfl⟩

/-- An operation is open as the machine shuts down. -/
def openOp : Machine := shutdown ⟨beginOp zeroed, .up⟩

theorem openOp_goes {allowed : Machine → Event → Prop} (begun : allowed idleMachine (.call .beginOp))
    (down : allowed ⟨beginOp zeroed, .up⟩ .shutdown) : Goes 2 allowed idleMachine (.ok openOp) :=
  (Goes.start.step begun (.call (.beginOp _ rfl (by decide)))).step down (.shutdown rfl)

/-- The forced commit runs beside the operation, and its `end_op` panics. -/
theorem forced_commit_cuts_operation : Fresh 2 idleMachine ∧
    (∃ m, Goes 2 (fun _ _ => True) idleMachine (.ok m) ∧ ¬ Whole m) ∧
    Goes 2 (fun _ _ => True) idleMachine (.error "log.committing") := by
  have forced : Goes 2 (fun _ _ => True) idleMachine (.ok (forceTest openOp)) :=
    (openOp_goes trivial trivial).step trivial (.forceTest rfl)
  refine ⟨idleMachine_fresh, ⟨_, forced, fun whole => ?_⟩, ?_⟩
  · exact absurd (whole.alone rfl) (by decide)
  · exact forced.step trivial (e := .call (.endOp 0)) (.call (.endOp _ 0 (by decide)))

theorem only_whole_operations_sample :
    Goes 2 NoneOpen idleMachine (.ok openOp) ∧ Whole openOp := by
  have run : Goes 2 NoneOpen idleMachine (.ok openOp) := openOp_goes trivial trivial
  exact ⟨run, (only_whole_operations idleMachine_fresh run).2 _ rfl⟩

/-- `sync_all_buffers` has found block 100 in the cache, and then an operation changes it. -/
def stale : Machine :=
  ⟨writeBlock 0 100 (fun _ => 1) (beginOp (collectBuffers [100]
    ⟨{ zeroed with store := zeroed.store.bread 100 }, .collect⟩).sys), .sync [100]⟩

/-- The steps of a run may be allowed more. -/
theorem Goes.mono {allowed allowed' : Machine → Event → Prop} {r : Except String Machine}
    (weaker : ∀ m e, allowed m e → allowed' m e) (run : Goes start allowed m₀ r) :
    Goes start allowed' m₀ r := by
  induction run with
  | start => exact .start
  | step _ ok moves ih => exact ih.step (weaker _ _ ok) moves

theorem stale_goes : Goes 2 (Careful 2) idleMachine (.ok stale) := by
  have up : Goes 2 (Careful 2) idleMachine (.ok idleMachine) := .start
  have read := up.step (e := .call (.read 100)) ⟨trivial, trivial, trivial⟩ (.call (.read _ 100))
  have down := read.step (e := .shutdown) ⟨trivial, trivial, trivial⟩ (.shutdown rfl)
  have collected := down.step (e := .collect [100]) ⟨trivial, trivial, trivial⟩
    (.collect [100] rfl (by decide) (by decide))
  have begun := collected.step (e := .call .beginOp) ⟨trivial, trivial, trivial⟩
    (.call (.beginOp _ rfl (by decide)))
  exact begun.step (e := .call (.logWrite 0 100 _)) ⟨trivial, ⟨.inr (by decide), by decide⟩, trivial⟩
    (.call (.logWrite _ 0 100 (fun _ => 1) (by decide)))

/-- The block goes home before the operation has ended. -/
theorem sync_writes_logged_block : Fresh 2 idleMachine ∧
    Goes 2 (fun m e => NoneOpen m e ∧ LogsHome 2 e) idleMachine (.ok stale) ∧
    Moves 2 .syncWrite stale (.ok (syncWrite 100 [] stale)) ∧ ¬ WriteAhead 2 stale .syncWrite := by
  refine ⟨idleMachine_fresh, stale_goes.mono fun _ _ ok => ⟨ok.noneOpen, ok.logsHome⟩, .syncWrite rfl,
    fun ahead => ?_⟩
  exact absurd (ahead 100 (by decide) (by decide)) (by decide)

/-- The commit is about to write block 50 to the log. -/
theorem write_ahead_sample :
    (Event.call .commit).written 2 ⟨crashed, .up⟩ = [3] ∧ crashed.store.lh = [50] ∧
      WriteAhead 2 ⟨crashed, .up⟩ (.call .commit) := by
  refine ⟨by decide, by decide, write_ahead idleMachine_fresh ?_ trivial⟩
  have up : Goes 2 (Careful 2) idleMachine (.ok idleMachine) := .start
  have begun := up.step (e := .call .beginOp) ⟨trivial, trivial, trivial⟩
    (.call (.beginOp _ rfl (by decide)))
  have written := begun.step (e := .call (.logWrite 0 50 fun _ => 1))
    ⟨trivial, ⟨.inr (by decide), by decide⟩, trivial⟩ (.call (.logWrite _ 0 50 _ (by decide)))
  have ended := written.step (e := .call (.endOp 0)) ⟨trivial, trivial, trivial⟩
    (.call (.endOp _ 0 (by decide)))
  exact ended.step (e := .call .commit) ⟨trivial, trivial, trivial⟩ (.call (.commit _ rfl))

end Xv6Lab.Log

import Mathlib.Data.List.Nodup
import Xv6Lab.Log.Recovery

/-! Crash atomicity of the log.  The invariant of the running system says, for each point of
`commit`, how the disk and the cache relate to the contents after the committed operations and
after all operations so far.  It makes the disk recoverable to one of the two at every step. -/

namespace Xv6Lab.Log

open Bytes Relation

/-- The buffers outside `dirty` agree with the disk, and those in `dirty` are pinned. -/
structure Cached (st : Store) (dirty : List Nat) : Prop where
  clean : ∀ b ∉ dirty, st.view b = st.disk b
  pinned : ∀ b ∈ dirty, st.pin b ≠ 0

theorem Cached.recycle {st : Store} {dirty : List Nat} {b : Nat} (h : Cached st dirty)
    (unused : st.pin b = 0) : (st.recycle b).view = st.view :=
  Store.view_recycle (h.clean b fun mem => h.pinned b mem unused)

/-- `log.lh` and the cache with respect to the contents `new` that the transaction will install. -/
structure Pending (start : Nat) (new : Nat → Block) (st : Store) : Prop where
  view : ∀ b, Home start b → st.view b = new b
  home : ∀ b ∈ st.lh, Home start b ∧ b < 2 ^ 32
  length : st.lh.length ≤ LOGBLOCKS
  nodup : st.lh.Nodup

/-- Before the header is written: home blocks on the disk hold `old`, and the first `done` blocks
of the transaction are in the log. -/
structure Uncommitted (start : Nat) (old new : Nat → Block) (st : Store) (done : Nat) : Prop
    extends Pending start new st where
  header : headerN (st.disk start) = 0
  disk : ∀ b, Home start b → st.disk b = old b
  same : ∀ b, Home start b → b ∉ st.lh → old b = new b
  cached : Cached st st.lh
  logged : ∀ j (h : j < st.lh.length), j < done → st.disk (start + j + 1) = new st.lh[j]

/-- After the header is written: the first `tail` blocks of `l` are installed. -/
structure Committed (start : Nat) (new : Nat → Block) (st : Store) (l : List Nat) (tail : Nat) :
    Prop where
  view : ∀ b, Home start b → st.view b = new b
  nodup : l.Nodup
  logged : Logged start new st.disk l (l.drop tail)
  cached : Cached st (l.drop tail)

/-- The store at each point of `commit`. -/
def Phase (start : Nat) (old new : Nat → Block) (st : Store) : Pc → Prop
  | .idle | .enter => Uncommitted start old new st 0
  | .writeLog tail => Uncommitted start old new st tail
  | .writeHead => Uncommitted start old new st st.lh.length
  | .installTrans tail => Committed start new st st.lh tail
  | .clear => st.lh = [] ∧ ∃ l, Committed start new st l l.length
  | .leave => st.lh = [] ∧ Uncommitted start new new st 0

section LogWrite

variable {b c : Nat} {data : Block} {st : Store}

theorem view_logWrite : (logWrite b data st).view = Function.update st.view b data := by
  have modified : ((st.bread b).modify b data).view = Function.update st.view b data := by simp
  unfold logWrite
  dsimp only
  split
  · exact modified
  · exact modified

theorem disk_logWrite : (logWrite b data st).disk = st.disk := by
  unfold logWrite
  dsimp only
  split <;> rfl

theorem lh_logWrite : (logWrite b data st).lh = if b ∈ st.lh then st.lh else st.lh ++ [b] := by
  unfold logWrite
  dsimp only
  split <;> simp_all

theorem mem_logWrite : c ∈ (logWrite b data st).lh ↔ c ∈ st.lh ∨ c = b := by
  rw [lh_logWrite]
  split
  · exact ⟨.inl, fun hc => hc.elim id fun same => same ▸ ‹_›⟩
  · simp

theorem pin_logWrite (h : st.pin c ≠ 0) : (logWrite b data st).pin c ≠ 0 := by
  unfold logWrite
  dsimp only
  split
  · exact h
  · by_cases same : c = b
    · simp [Store.bpin, same]
    · simpa [Store.bpin, same] using h

end LogWrite

section Phases

variable {start : Nat} {old new : Nat → Block} {st : Store}

theorem Uncommitted.mono {done done' : Nat} (h : Uncommitted start old new st done)
    (enough : st.lh.length ≤ done ∨ done' ≤ done) : Uncommitted start old new st done' :=
  { h with logged := fun j hj _ => h.logged j hj (by omega) }

theorem Phase.recoverable {pc : Pc} (h : Phase start old new st pc) :
    Recoverable start old st.disk ∨ pc ≠ .idle ∧ Recoverable start new st.disk := by
  cases pc with
  | idle | enter | writeLog | writeHead => exact .inl (recoverable_of_empty h.header h.disk)
  | installTrans tail =>
    exact .inr ⟨by simp, h.logged.recoverable fun b hb => List.mem_of_mem_drop hb⟩
  | clear =>
    obtain ⟨-, l, committed⟩ := h
    exact .inr ⟨by simp, committed.logged.recoverable fun b hb => List.mem_of_mem_drop hb⟩
  | leave => exact .inr ⟨by simp, recoverable_of_empty h.2.header h.2.disk⟩

/-- Reads and recycled buffers change neither the disk nor what `bread` returns. -/
theorem Phase.congr {pc : Pc} {st' : Store} (h : Phase start old new st pc)
    (view : st'.view = st.view) (disk : st'.disk = st.disk) (pin : st'.pin = st.pin)
    (lh : st'.lh = st.lh) : Phase start old new st' pc := by
  have cached {dirty : List Nat} (hc : Cached st dirty) : Cached st' dirty :=
    ⟨by rw [view, disk]; exact hc.clean, by rw [pin]; exact hc.pinned⟩
  have uncommitted {old : Nat → Block} {done : Nat} (hu : Uncommitted start old new st done) :
      Uncommitted start old new st' done := by
    constructor
    · constructor
      · rw [view]; exact hu.view
      · rw [lh]; exact hu.home
      · rw [lh]; exact hu.length
      · rw [lh]; exact hu.nodup
    · rw [disk]; exact hu.header
    · rw [disk]; exact hu.disk
    · rw [lh]; exact hu.same
    · rw [lh]; exact cached hu.cached
    · simp only [lh, disk]; exact hu.logged
  have committed {l : List Nat} {tail : Nat} (hc : Committed start new st l tail) :
      Committed start new st' l tail :=
    ⟨by rw [view]; exact hc.view, hc.nodup, by rw [disk]; exact hc.logged, cached hc.cached⟩
  cases pc with
  | idle | enter | writeLog => exact uncommitted h
  | writeHead => simp only [Phase, lh]; exact uncommitted h
  | installTrans tail => simp only [Phase, lh]; exact committed h
  | clear =>
    obtain ⟨empty, l, hc⟩ := h
    exact ⟨by rw [lh, empty], l, committed hc⟩
  | leave => exact ⟨by rw [lh, h.1], uncommitted h.2⟩

/-- A buffer that nothing pins agrees with the disk at every point of `commit`. -/
theorem Phase.recycle {pc : Pc} {b : Nat} (h : Phase start old new st pc)
    (unused : st.pin b = 0) : (st.recycle b).view = st.view := by
  cases pc with
  | idle | enter | writeLog | writeHead | installTrans => exact h.cached.recycle unused
  | clear =>
    obtain ⟨-, l, committed⟩ := h
    exact committed.cached.recycle unused
  | leave => exact h.2.cached.recycle unused

/-- One iteration of `write_log`. -/
theorem Uncommitted.writeLog {tail blockno : Nat} (h : Uncommitted start old new st tail)
    (entry : st.lh[tail]? = some blockno) :
    Uncommitted start old new (writeLogBody start tail blockno st) (tail + 1) := by
  obtain ⟨inside, rfl⟩ := List.getElem?_eq_some_iff.mp entry
  have isHome := (h.home _ (List.getElem_mem inside)).1
  have room : tail < LOGBLOCKS := by have := h.length; omega
  constructor
  · refine ⟨fun b hb => ?_, h.home, h.length, h.nodup⟩
    rw [view_writeLogBody, Function.update_of_ne (hb.ne_log room), h.view b hb]
  · rw [disk_writeLogBody, Function.update_of_ne (by omega), h.header]
  · intro b hb
    rw [disk_writeLogBody, Function.update_of_ne (hb.ne_log room), h.disk b hb]
  · exact h.same
  · refine ⟨fun b hb => ?_, h.cached.pinned⟩
    rw [view_writeLogBody, disk_writeLogBody]
    by_cases same : b = start + tail + 1
    · rw [same, Function.update_self, Function.update_self]
    · rw [Function.update_of_ne same, Function.update_of_ne same, h.cached.clean b hb]
  · intro j hj hlt
    simp only [lh_writeLogBody] at hj ⊢
    rw [disk_writeLogBody]
    by_cases same : j = tail
    · subst same
      rw [Function.update_self, h.view _ isHome]
    · rw [Function.update_of_ne (by omega), h.logged j hj (by omega)]

/-- The write of the header commits the transaction. -/
theorem Uncommitted.writeHead (h : Uncommitted start old new st st.lh.length) :
    Committed start new (writeHead start st) st.lh 0 := by
  constructor
  · intro b hb
    rw [view_writeHead, Function.update_of_ne hb.ne_start, h.view b hb]
  · exact h.nodup
  · constructor
    · rw [disk_writeHead, Function.update_self]
      exact headerBlocks_putHeader h.length fun b hb => (h.home b hb).2
    · exact h.length
    · exact fun b hb => (h.home b hb).1
    · intro j hj
      rw [disk_writeHead, Function.update_of_ne (by omega), h.logged j hj hj]
    · intro b hb hl
      rw [disk_writeHead, Function.update_of_ne hb.ne_start, h.disk b hb, h.same b hb hl]
  · refine ⟨fun b hb => ?_, h.cached.pinned⟩
    rw [view_writeHead, disk_writeHead]
    by_cases same : b = start
    · rw [same, Function.update_self, Function.update_self]
    · rw [Function.update_of_ne same, Function.update_of_ne same, h.cached.clean b hb]

/-- One iteration of `install_trans`. -/
theorem Committed.install {l : List Nat} {tail blockno : Nat} (h : Committed start new st l tail)
    (entry : l[tail]? = some blockno) :
    Committed start new (installTransBody start false tail blockno st) l (tail + 1) := by
  obtain ⟨inside, hb⟩ := List.getElem?_eq_some_iff.mp entry
  have drop : l.drop tail = blockno :: l.drop (tail + 1) := by
    rw [List.drop_eq_getElem_cons inside, hb]
  have isHome : Home start blockno := h.logged.home _ (hb ▸ List.getElem_mem inside)
  have room : tail < LOGBLOCKS := by have := h.logged.length; omega
  -- The log block is not in the transaction, so the cache agrees with the disk on it.
  have logBlock : st.view (start + tail + 1) = st.disk (start + tail + 1) :=
    h.cached.clean _ fun mem =>
      (h.logged.home _ (List.mem_of_mem_drop mem)).ne_log room rfl
  have value : st.disk (start + tail + 1) = new blockno := by rw [h.logged.logged tail inside, hb]
  have fresh : blockno ∉ l.drop (tail + 1) := by
    have := h.nodup.sublist (List.drop_sublist tail l)
    rw [drop] at this
    exact (List.nodup_cons.mp this).1
  constructor
  · intro b hbHome
    rw [view_installTransBody]
    by_cases same : b = blockno
    · rw [same, Function.update_self, logBlock, value]
    · rw [Function.update_of_ne same, h.view b hbHome]
  · exact h.nodup
  · rw [disk_installTransBody, logBlock]
    exact h.logged.install entry
  · refine ⟨fun b hbDrop => ?_, fun b hbDrop => ?_⟩
    · rw [view_installTransBody, disk_installTransBody]
      by_cases same : b = blockno
      · rw [same, Function.update_self, Function.update_self]
      · rw [Function.update_of_ne same, Function.update_of_ne same]
        refine h.cached.clean b ?_
        rw [drop]
        exact List.not_mem_cons_of_ne_of_not_mem same hbDrop
    · have other : b ≠ blockno := fun same => fresh (same ▸ hbDrop)
      have pinned := h.cached.pinned b (by rw [drop]; exact List.mem_cons_of_mem _ hbDrop)
      simpa [installTransBody, Store.bunpin, other] using pinned

/-- The write of the empty header ends the transaction. -/
theorem Committed.clear {l : List Nat} (h : Committed start new st l l.length)
    (empty : st.lh = []) : Uncommitted start new new (Log.writeHead start st) 0 := by
  have home : ∀ b, Home start b → st.disk b = new b := fun b hb => h.logged.rest b hb (by simp)
  constructor
  · refine ⟨fun b hb => ?_, by simp [empty], by simp [empty], by simp [empty]⟩
    rw [view_writeHead, Function.update_of_ne hb.ne_start, h.view b hb]
  · rw [disk_writeHead, Function.update_self, empty]
    exact headerN_putHeader (Nat.zero_le _)
  · intro b hb
    rw [disk_writeHead, Function.update_of_ne hb.ne_start, home b hb]
  · exact fun _ _ _ => rfl
  · rw [lh_writeHead, empty]
    refine ⟨fun b _ => ?_, by simp⟩
    rw [view_writeHead, disk_writeHead]
    by_cases same : b = start
    · rw [same, Function.update_self, Function.update_self]
    · rw [Function.update_of_ne same, Function.update_of_ne same,
        h.cached.clean b (by simp)]
  · simp [empty]

/-- A `log_write` changes the contents that the transaction will install. -/
theorem Uncommitted.written {b : Nat} {data : Block} (h : Uncommitted start old new st 0)
    (home : Home start b) (number : b < 2 ^ 32) (room : st.lh.length < LOGBLOCKS) :
    Uncommitted start old (Function.update new b data) (logWrite b data st) 0 := by
  constructor
  · constructor
    · intro c hc
      rw [view_logWrite]
      by_cases same : c = b
      · rw [same, Function.update_self, Function.update_self]
      · rw [Function.update_of_ne same, Function.update_of_ne same, h.view c hc]
    · intro c hc
      rcases mem_logWrite.mp hc with old | rfl
      · exact h.home c old
      · exact ⟨home, number⟩
    · rw [lh_logWrite]
      split
      · exact h.length
      · simp only [List.length_append, List.length_singleton]
        omega
    · rw [lh_logWrite]
      split
      · exact h.nodup
      · rename_i fresh
        rw [← List.concat_eq_append]
        exact h.nodup.concat fresh
  · rw [disk_logWrite, h.header]
  · rw [disk_logWrite]
    exact h.disk
  · intro c hc hl
    rw [mem_logWrite, not_or] at hl
    rw [Function.update_of_ne hl.2, h.same c hc hl.1]
  · refine ⟨fun c hc => ?_, fun c hc => ?_⟩
    · rw [mem_logWrite, not_or] at hc
      rw [view_logWrite, disk_logWrite, Function.update_of_ne hc.2, h.cached.clean c hc.1]
    · by_cases listed : c ∈ st.lh
      · exact pin_logWrite (h.cached.pinned c listed)
      · rcases mem_logWrite.mp hc with old | rfl
        · exact absurd old listed
        · simp [logWrite, listed, Store.bpin]
  · intro j _ hlt
    omega

end Phases

/-! ### The running system -/

section Running

variable {start : Nat} {disk₀ : Nat → Block}

theorem replay_concat (writes : List Write) (w : Write) :
    replay disk₀ (writes ++ [w]) = Function.update (replay disk₀ writes) w.blockno w.data := by
  simp [replay]

/-- The operations so far: those that are open, those that ended since the last commit, and those
before. -/
structure History.Ok (hist : History) : Prop where
  distinct : (hist.opened ++ hist.ended ++ hist.committed).Nodup
  below : ∀ op ∈ hist.opened ++ hist.ended ++ hist.committed, op < hist.next
  writers : ∀ w ∈ hist.writes, w.op ∈ hist.opened ++ hist.ended ++ hist.committed

theorem History.Ok.not_committed {hist : History} (h : hist.Ok) {op : Nat}
    (hop : op ∈ hist.opened ∨ op ∈ hist.ended) : op ∉ hist.committed := by
  have := (List.nodup_append.mp h.distinct).2.2
  exact fun hc => this op (List.mem_append.mpr hop) op hc rfl

theorem History.Ok.not_opened {hist : History} (h : hist.Ok) {op : Nat}
    (hop : op ∈ hist.committed ++ hist.ended) : op ∉ hist.opened := by
  have parts := List.nodup_append.mp h.distinct
  rcases List.mem_append.mp hop with hc | he
  · exact fun ho => parts.2.2 op (List.mem_append.mpr (.inl ho)) op hc rfl
  · exact fun ho => (List.nodup_append.mp parts.1).2.2 op ho op he rfl

/-- Once no operation is open, the operations that ended account for every write. -/
theorem History.Ok.after_all {hist : History} (h : hist.Ok) (none : hist.opened = []) :
    hist.after disk₀ (hist.committed ++ hist.ended) = replay disk₀ hist.writes := by
  rw [History.after, List.filter_eq_self.mpr]
  intro w hw
  have := h.writers w hw
  rw [none, List.nil_append] at this
  simpa [or_comm] using this

/-- The invariant of the running system that started from `disk₀`. -/
structure Inv (start : Nat) (disk₀ : Nat → Block) (s : Sys) : Prop where
  hist : s.hist.Ok
  outstanding : s.outstanding = s.hist.opened.length
  committing : s.committing = true ↔ s.pc ≠ .idle
  alone : s.committing = true → s.hist.opened = []
  phase : Phase start (s.hist.after disk₀ s.hist.committed) (replay disk₀ s.hist.writes) s.store
    s.pc

theorem Initial.inv {s : Sys} (h : Initial start s) : Inv start s.store.disk s := by
  have clean : s.store.view = s.store.disk := by
    funext b
    cases hc : s.store.cache b with
    | none => simp [Store.view, hc]
    | some data => simp [Store.view, hc, h.clean b data hc]
  constructor
  · rw [h.hist]
    exact ⟨by simp, by simp, by simp⟩
  · rw [h.outstanding, h.hist]
    rfl
  · simp [h.committing, h.pc]
  · simp [h.committing]
  · rw [h.pc, h.hist]
    refine ⟨⟨fun b _ => ?_, ?_, ?_, ?_⟩, h.header, fun _ _ => rfl, fun _ _ _ => rfl, ⟨?_, ?_⟩, ?_⟩
    · rw [clean]; rfl
    all_goals simp [h.lh, clean]

theorem Inv.begun {s : Sys} (h : Inv start disk₀ s) (ready : s.committing = false) :
    Inv start disk₀ (beginOp s) := by
  have fresh : s.hist.next ∉ s.hist.opened ++ s.hist.ended ++ s.hist.committed :=
    fun mem => Nat.lt_irrefl _ (h.hist.below _ mem)
  constructor
  · constructor
    · simp only [Log.beginOp, List.cons_append, List.nodup_cons]
      exact ⟨fresh, h.hist.distinct⟩
    · intro op hop
      simp only [Log.beginOp, List.cons_append, List.mem_cons] at hop ⊢
      rcases hop with rfl | old
      · omega
      · exact Nat.lt_succ_of_lt (h.hist.below op old)
    · intro w hw
      simp only [Log.beginOp, List.cons_append]
      exact List.mem_cons_of_mem _ (h.hist.writers w hw)
  · simp [Log.beginOp, h.outstanding]
  · exact h.committing
  · simp [Log.beginOp, ready]
  · exact h.phase

theorem Inv.idle {s : Sys} (h : Inv start disk₀ s) (ready : s.committing = false) :
    s.pc = .idle := by
  by_contra hpc
  simpa [ready] using h.committing.mpr hpc

theorem Inv.written {s : Sys} {op b : Nat} {data : Block} (h : Inv start disk₀ s)
    (inOp : op ∈ s.hist.opened) (home : Home start b) (number : b < 2 ^ 32)
    (room : s.store.lh.length < LOGBLOCKS) : Inv start disk₀ (writeBlock op b data s) := by
  have ready : s.committing = false := by
    by_contra hc
    rw [h.alone (by simpa using hc)] at inOp
    simp at inOp
  have uncommitted : s.hist.after disk₀ s.hist.committed =
      (writeBlock op b data s).hist.after disk₀ s.hist.committed := by
    simp [History.after, Log.writeBlock, h.hist.not_committed (.inl inOp)]
  constructor
  · refine ⟨h.hist.distinct, h.hist.below, fun w hw => ?_⟩
    simp only [Log.writeBlock, List.mem_append, List.mem_singleton] at hw
    rcases hw with old | rfl
    · exact h.hist.writers w old
    · exact List.mem_append_left _ (List.mem_append_left _ inOp)
  · exact h.outstanding
  · exact h.committing
  · exact h.alone
  · have phase := h.phase
    rw [h.idle ready] at phase
    have hpc : (writeBlock op b data s).pc = .idle := h.idle ready
    rw [hpc]
    show Uncommitted _ _ _ _ _
    rw [show (writeBlock op b data s).hist.committed = s.hist.committed from rfl, ← uncommitted,
      show (writeBlock op b data s).hist.writes = s.hist.writes ++ [⟨op, b, data⟩] from rfl,
      replay_concat]
    exact phase.written home number room

theorem Inv.ended {s : Sys} {op : Nat} (h : Inv start disk₀ s) (inOp : op ∈ s.hist.opened)
    (ready : s.committing = false) : Inv start disk₀ (endOp op s) := by
  have idle := h.idle ready
  have moved : (s.hist.opened.erase op ++ (s.hist.ended ++ [op]) ++ s.hist.committed).Perm
      (s.hist.opened ++ s.hist.ended ++ s.hist.committed) := by
    refine List.Perm.append_right _ ?_
    calc s.hist.opened.erase op ++ (s.hist.ended ++ [op])
        _ |>.Perm (s.hist.opened.erase op ++ ([op] ++ s.hist.ended)) :=
          List.Perm.append_left _ List.perm_append_comm
        _ |>.Perm (op :: s.hist.opened.erase op ++ s.hist.ended) := by
          rw [← List.append_assoc]
          exact List.Perm.append_right _ (List.perm_append_singleton _ _)
        _ |>.Perm (s.hist.opened ++ s.hist.ended) :=
          List.Perm.append_right _ (List.perm_cons_erase inOp).symm
  have count : s.outstanding - 1 = (s.hist.opened.erase op).length := by
    rw [h.outstanding, List.length_erase_of_mem inOp]
  constructor
  · exact ⟨moved.nodup_iff.mpr h.hist.distinct,
      fun o ho => h.hist.below o (moved.mem_iff.mp ho),
      fun w hw => moved.mem_iff.mpr (h.hist.writers w hw)⟩
  · exact count
  · by_cases last : s.outstanding - 1 = 0
    · simp [Log.endOp, last]
    · simp [Log.endOp, last, idle]
  · intro hc
    simp only [Log.endOp, decide_eq_true_eq] at hc ⊢
    exact List.eq_nil_of_length_eq_zero (by rw [← count, hc])
  · have phase := h.phase
    rw [idle] at phase
    have hpc : (endOp op s).pc = .idle ∨ (endOp op s).pc = .enter := by
      by_cases last : s.outstanding - 1 = 0
      · exact .inr (if_pos last)
      · exact .inl ((if_neg last).trans idle)
    rcases hpc with hpc | hpc <;> rw [hpc] <;> exact phase

theorem Inv.committed {s : Sys} (h : Inv start disk₀ s) (hc : s.committing = true) :
    Inv start disk₀ (commitStep start s) := by
  have phase := h.phase
  have busy := h.committing.mp hc
  -- Every step but the last leaves the history alone and stays inside `commit`.
  have inside {st : Store} {pc : Pc} (hpc : pc ≠ .idle)
      (hp : Phase start (s.hist.after disk₀ s.hist.committed) (replay disk₀ s.hist.writes) st pc) :
      Inv start disk₀ { s with store := st, pc } :=
    ⟨h.hist, h.outstanding, by simp [hc, hpc], h.alone, hp⟩
  unfold Log.commitStep
  split <;> rename_i hpc <;> rw [hpc] at phase
  · exact absurd hpc busy
  · split
    · exact inside (by simp) phase
    · rename_i empty
      have nil : s.store.lh = [] := by simpa using empty
      refine inside (by simp) ⟨nil, { phase with disk := fun b hb => ?_, same := fun _ _ _ => rfl }⟩
      rw [phase.disk b hb, phase.same b hb (by simp [nil])]
  · split
    · rename_i entry
      exact inside (by simp) (phase.writeLog entry)
    · rename_i finished
      refine inside (by simp) (phase.mono (.inl ?_))
      exact List.getElem?_eq_none_iff.mp finished
  · exact inside (by simp) phase.writeHead
  · split
    · rename_i entry
      refine inside (by simp) ?_
      simpa only [Phase, lh_installTransBody] using phase.install entry
    · rename_i finished
      have all := List.getElem?_eq_none_iff.mp finished
      refine inside (by simp) ⟨rfl, s.store.lh, phase.view, phase.nodup, ?_, ?_⟩
      · have := phase.logged
        rwa [List.drop_eq_nil_of_le all, ← List.drop_length (l := s.store.lh)] at this
      · have := phase.cached
        rw [List.drop_eq_nil_of_le all, ← List.drop_length (l := s.store.lh)] at this
        exact ⟨this.clean, this.pinned⟩
  · obtain ⟨empty, l, committed⟩ := phase
    exact inside (by simp) ⟨empty, committed.clear empty⟩
  · obtain ⟨empty, clean⟩ := phase
    have none := h.alone hc
    have all : (s.hist.opened ++ s.hist.ended ++ s.hist.committed).Perm
        (s.hist.opened ++ [] ++ (s.hist.committed ++ s.hist.ended)) := by
      rw [none]
      simpa using List.perm_append_comm
    refine ⟨⟨all.nodup_iff.mp h.hist.distinct, fun o ho => h.hist.below o (all.mem_iff.mpr ho),
      fun w hw => all.mem_iff.mp (h.hist.writers w hw)⟩, h.outstanding, by simp, by simp, ?_⟩
    show Uncommitted start (s.hist.after disk₀ (s.hist.committed ++ s.hist.ended)) _ _ _
    rw [h.hist.after_all none]
    exact clean

theorem Inv.step (s t : Sys) (h : Inv start disk₀ s) (hs : Step start s t) :
    Inv start disk₀ t := by
  cases hs with
  | read b =>
    exact { h with phase := h.phase.congr (Store.view_bread _ _) rfl rfl rfl }
  | recycle b unused =>
    have same : (s.store.recycle b).view = s.store.view := h.phase.recycle unused
    exact { h with phase := h.phase.congr same rfl rfl rfl }
  | beginOp ready space => exact h.begun ready
  | logWrite op b data inOp home number room trans => exact h.written inOp home number room
  | endOp op inOp ready => exact h.ended inOp ready
  | commit committing => exact h.committed committing

/-- A crash at any point of any run, and any number of recoveries that are cut short, leave a disk
from which `recover_from_log` completes; and whenever it does, the header is empty and every home
block holds the contents after a set of whole operations: those of the commits that were over, or
those and all operations of the commit that the crash interrupted. -/
theorem crash_atomic {s₀ s : Sys} {disk : Nat → Block} (initial : Initial start s₀)
    (run : ReflTransGen (Step start) s₀ s)
    (recoveries : ReflTransGen (RecoversTo start) s.store.disk disk) :
    (∃ disk', Recovers start disk disk') ∧
    ∀ disk', Recovers start disk disk' →
      headerN (disk' start) = 0 ∧
      ∃ ops, (ops = s.hist.committed ∨
          s.committing = true ∧ ops = s.hist.committed ++ s.hist.ended) ∧
        (∀ op ∈ ops, op ∉ s.hist.opened) ∧
        ∀ b, Home start b → disk' b = s.hist.after s₀.store.disk ops b := by
  have inv := Transition.invariant Inv.step initial.inv run
  refine ⟨recovers_total start disk, fun disk' done => ?_⟩
  have cut {target : Nat → Block} (h : Recoverable start target s.store.disk) :
      Recoverable start target disk :=
    Transition.invariant (I := Recoverable start target)
      (fun _ _ hr step => RecoversTo.recoverable hr step) h recoveries
  rcases inv.phase.recoverable with old | ⟨busy, new⟩
  · obtain ⟨header, home⟩ := done.reaches (cut old)
    refine ⟨header, s.hist.committed, .inl rfl, fun op hop => ?_, home⟩
    exact inv.hist.not_opened (List.mem_append_left _ hop)
  · obtain ⟨header, home⟩ := done.reaches (cut new)
    have hc := inv.committing.mpr busy
    refine ⟨header, _, .inr ⟨hc, rfl⟩, fun op hop => inv.hist.not_opened hop, fun b hb => ?_⟩
    rw [home b hb, inv.hist.after_all (inv.alone hc)]

end Running

/-- A system that has just booted from a disk of zeros. -/
def zeroed : Sys :=
  ⟨⟨fun _ _ => 0, fun _ => none, fun _ => 0, []⟩, 0, false, .idle, ⟨0, [], [], [], []⟩⟩

/-- One operation writes block 50 and ends, and power fails as its commit enters `write_log`. -/
def crashed : Sys :=
  commitStep 2 (endOp 0 (writeBlock 0 50 (fun _ => 1) (beginOp zeroed)))

theorem crash_atomic_sample :
    (∃ disk', Recovers 2 crashed.store.disk disk') ∧
    ∀ disk', Recovers 2 crashed.store.disk disk' →
      headerN (disk' 2) = 0 ∧
      ∃ ops, (ops = crashed.hist.committed ∨
          crashed.committing = true ∧ ops = crashed.hist.committed ++ crashed.hist.ended) ∧
        (∀ op ∈ ops, op ∉ crashed.hist.opened) ∧
        ∀ b, Home 2 b → disk' b = crashed.hist.after zeroed.store.disk ops b := by
  have initial : Initial 2 zeroed :=
    ⟨by decide, fun _ _ h => (nomatch h), rfl, rfl, rfl, rfl, rfl⟩
  have begun : Step 2 zeroed (beginOp zeroed) := .beginOp _ rfl (by decide)
  have written : Step 2 (beginOp zeroed) (writeBlock 0 50 (fun _ => 1) (beginOp zeroed)) :=
    .logWrite _ 0 50 _ (by decide) (.inr (by decide)) (by decide) (by decide) (by decide)
  have ended : Step 2 _ (endOp 0 (writeBlock 0 50 (fun _ => 1) (beginOp zeroed))) :=
    .endOp _ 0 (by decide) rfl
  have run : ReflTransGen (Step 2) zeroed crashed :=
    (((ReflTransGen.single begun).tail written).tail ended).tail (.commit _ rfl)
  exact crash_atomic initial run .refl

end Xv6Lab.Log

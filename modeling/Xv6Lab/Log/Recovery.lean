import Xv6Lab.Log.Model
import Xv6Lab.Lib.Transition

/-! What the disk must satisfy for `recover_from_log` to bring every home block to a target: the
log blocks hold the target contents of the blocks that the header lists, and every other home block
holds its own.  Each block write of a recovery keeps this, so recoveries may be cut short and
repeated, and a recovery that completes reaches the target. -/

namespace Xv6Lab.Log

open Bytes Relation

/-! ### The header block -/

theorem putEntries_out {off n : Nat} (l : List Nat) (b : Block) (i : Nat) (h : off + n ≤ 4 + 4 * i) :
    le (putEntries b i l) off n = le b off n := by
  induction l generalizing b i with
  | nil => rfl
  | cons x xs ih =>
    rw [putEntries, ih _ _ (by omega), le_setLe_out (by omega)]

theorem putEntries_get (l : List Nat) (b : Block) (i : Nat) (small : ∀ x ∈ l, x < 2 ^ 32)
    (j : Nat) (hj : j < l.length) : headerBlock (putEntries b i l) (i + j) = l[j] := by
  induction l generalizing b i j with
  | nil => simp at hj
  | cons x xs ih =>
    rw [putEntries]
    cases j with
    | zero =>
      rw [headerBlock, putEntries_out _ _ _ (by omega)]
      exact le_setLe _ _ (by simpa using small x)
    | succ j =>
      rw [show i + (j + 1) = i + 1 + j by omega]
      exact ih _ _ (fun y hy => small y (List.mem_cons_of_mem _ hy)) j (by simpa using hj)

@[simp] theorem headerN_putHeader {b : Block} {l : List Nat} (h : l.length ≤ LOGBLOCKS) :
    headerN (putHeader b l) = l.length := by
  rw [headerN, putHeader, putEntries_out _ _ _ (by omega)]
  exact le_setLe _ _ (by simp [LOGBLOCKS, MAXOPBLOCKS] at h; omega)

/-- `read_head` reads back what `write_head` wrote. -/
theorem headerBlocks_putHeader {b : Block} {l : List Nat} (h : l.length ≤ LOGBLOCKS)
    (small : ∀ x ∈ l, x < 2 ^ 32) : headerBlocks (putHeader b l) = l := by
  refine List.ext_getElem (by simp [headerBlocks, h]) fun j hj hj' => ?_
  have entry := putEntries_get l (setLe b 0 4 l.length) 0 small j hj'
  rw [Nat.zero_add] at entry
  simpa [headerBlocks, putHeader] using entry

theorem headerBlocks_eq_nil {b : Block} : headerBlocks b = [] ↔ headerN b = 0 := by
  simp [headerBlocks]

/-! ### Cache and disk -/

namespace Store

@[simp] theorem view_bread (st : Store) (b : Nat) : (st.bread b).view = st.view := by
  funext c
  by_cases h : c = b
  · subst h; simp [view, bread]
  · simp [view, bread, h]

@[simp] theorem view_modify (st : Store) (b : Nat) (data : Block) :
    (st.modify b data).view = Function.update st.view b data := by
  funext c
  by_cases h : c = b
  · subst h; simp [view, modify]
  · simp [view, modify, h]

@[simp] theorem view_bwrite (st : Store) (b : Nat) : (st.bwrite b).view = st.view := by
  funext c
  by_cases h : c = b
  · subst h; cases hc : st.cache c <;> simp [view, bwrite, hc]
  · simp [view, bwrite, h]

@[simp] theorem view_bpin (st : Store) (b : Nat) : (st.bpin b).view = st.view := rfl
@[simp] theorem view_bunpin (st : Store) (b : Nat) : (st.bunpin b).view = st.view := rfl
@[simp] theorem view_lh (st : Store) (l : List Nat) : view { st with lh := l } = st.view := rfl

@[simp] theorem disk_bread (st : Store) (b : Nat) : (st.bread b).disk = st.disk := rfl
@[simp] theorem disk_modify (st : Store) (b : Nat) (data : Block) :
    (st.modify b data).disk = st.disk := rfl
@[simp] theorem disk_bwrite (st : Store) (b : Nat) :
    (st.bwrite b).disk = Function.update st.disk b (st.view b) := rfl
@[simp] theorem disk_recycle (st : Store) (b : Nat) : (st.recycle b).disk = st.disk := rfl
@[simp] theorem disk_bpin (st : Store) (b : Nat) : (st.bpin b).disk = st.disk := rfl
@[simp] theorem disk_bunpin (st : Store) (b : Nat) : (st.bunpin b).disk = st.disk := rfl

@[simp] theorem lh_bread (st : Store) (b : Nat) : (st.bread b).lh = st.lh := rfl
@[simp] theorem lh_modify (st : Store) (b : Nat) (data : Block) :
    (st.modify b data).lh = st.lh := rfl
@[simp] theorem lh_bwrite (st : Store) (b : Nat) : (st.bwrite b).lh = st.lh := rfl
@[simp] theorem lh_recycle (st : Store) (b : Nat) : (st.recycle b).lh = st.lh := rfl
@[simp] theorem lh_bpin (st : Store) (b : Nat) : (st.bpin b).lh = st.lh := rfl
@[simp] theorem lh_bunpin (st : Store) (b : Nat) : (st.bunpin b).lh = st.lh := rfl

@[simp] theorem pin_bread (st : Store) (b : Nat) : (st.bread b).pin = st.pin := rfl
@[simp] theorem pin_modify (st : Store) (b : Nat) (data : Block) :
    (st.modify b data).pin = st.pin := rfl
@[simp] theorem pin_bwrite (st : Store) (b : Nat) : (st.bwrite b).pin = st.pin := rfl
@[simp] theorem pin_recycle (st : Store) (b : Nat) : (st.recycle b).pin = st.pin := rfl

/-- Recycling a buffer that agrees with the disk goes unnoticed. -/
theorem view_recycle {st : Store} {b : Nat} (clean : st.view b = st.disk b) :
    (st.recycle b).view = st.view := by
  funext c
  by_cases h : c = b
  · subst h; rw [clean]; simp [view, recycle]
  · simp [view, recycle, h]

end Store

section Bodies

variable (start tail blockno : Nat) (st : Store)

@[simp] theorem disk_writeLogBody : (writeLogBody start tail blockno st).disk =
    Function.update st.disk (start + tail + 1) (st.view blockno) := by
  simp [writeLogBody]

@[simp] theorem view_writeLogBody : (writeLogBody start tail blockno st).view =
    Function.update st.view (start + tail + 1) (st.view blockno) := by
  simp [writeLogBody]

@[simp] theorem lh_writeLogBody : (writeLogBody start tail blockno st).lh = st.lh := rfl
@[simp] theorem pin_writeLogBody : (writeLogBody start tail blockno st).pin = st.pin := rfl

@[simp] theorem disk_installTransBody (recovering : Bool) :
    (installTransBody start recovering tail blockno st).disk =
      Function.update st.disk blockno (st.view (start + tail + 1)) := by
  cases recovering <;> simp [installTransBody]

@[simp] theorem view_installTransBody (recovering : Bool) :
    (installTransBody start recovering tail blockno st).view =
      Function.update st.view blockno (st.view (start + tail + 1)) := by
  cases recovering <;> simp [installTransBody]

@[simp] theorem lh_installTransBody (recovering : Bool) :
    (installTransBody start recovering tail blockno st).lh = st.lh := by
  cases recovering <;> rfl

@[simp] theorem disk_writeHead : (writeHead start st).disk =
    Function.update st.disk start (putHeader (st.view start) st.lh) := by
  simp [writeHead]

@[simp] theorem view_writeHead : (writeHead start st).view =
    Function.update st.view start (putHeader (st.view start) st.lh) := by
  simp [writeHead]

@[simp] theorem disk_readHead : (readHead start st).disk = st.disk := rfl

@[simp] theorem view_readHead : (readHead start st).view = st.view :=
  Store.view_bread st start

@[simp] theorem lh_readHead : (readHead start st).lh = headerBlocks (st.view start) := by
  simp [readHead]

@[simp] theorem lh_writeHead : (writeHead start st).lh = st.lh := rfl
@[simp] theorem pin_writeHead : (writeHead start st).pin = st.pin := rfl

end Bodies

/-! ### Recoverable disks -/

section Recovery

variable {start : Nat} {target : Nat → Block}

theorem Home.ne_start {b : Nat} (h : Home start b) : b ≠ start := by
  unfold Home LOGBLOCKS MAXOPBLOCKS at h; omega

theorem Home.ne_log {b j : Nat} (h : Home start b) (hj : j < LOGBLOCKS) : b ≠ start + j + 1 := by
  unfold Home at h; omega

/-- The header of `disk` lists `l`, the log blocks hold the target contents of the blocks of `l`,
and every home block that is not among the last entries `todo` of `l` holds its own. -/
structure Logged (start : Nat) (target : Nat → Block) (disk : Nat → Block) (l todo : List Nat) :
    Prop where
  header : headerBlocks (disk start) = l
  length : l.length ≤ LOGBLOCKS
  home : ∀ b ∈ l, Home start b
  logged : ∀ j (h : j < l.length), disk (start + j + 1) = target l[j]
  rest : ∀ b, Home start b → b ∉ todo → disk b = target b

/-- `recover_from_log` brings every home block of `disk` to `target`. -/
def Recoverable (start : Nat) (target disk : Nat → Block) : Prop :=
  ∃ l, Logged start target disk l l

theorem Logged.recoverable {disk : Nat → Block} {l todo : List Nat}
    (h : Logged start target disk l todo) (sub : ∀ b ∈ todo, b ∈ l) :
    Recoverable start target disk :=
  ⟨l, h.header, h.length, h.home, h.logged, fun b hb hl => h.rest b hb fun ht => hl (sub b ht)⟩

/-- A disk with an empty header is its own target. -/
theorem recoverable_of_empty {disk : Nat → Block} (header : headerN (disk start) = 0)
    (same : ∀ b, Home start b → disk b = target b) : Recoverable start target disk :=
  ⟨[], headerBlocks_eq_nil.mpr header, by simp, by simp, by simp, fun b hb _ => same b hb⟩

/-- The block written by one iteration of `install_trans`. -/
theorem Logged.install {disk : Nat → Block} {l : List Nat} {tail blockno : Nat}
    (h : Logged start target disk l (l.drop tail)) (entry : l[tail]? = some blockno) :
    Logged start target (Function.update disk blockno (disk (start + tail + 1))) l
      (l.drop (tail + 1)) := by
  obtain ⟨inside, rfl⟩ := List.getElem?_eq_some_iff.mp entry
  have isHome := h.home l[tail] (List.getElem_mem inside)
  constructor
  · rw [Function.update_of_ne isHome.ne_start.symm, h.header]
  · exact h.length
  · exact h.home
  · intro j hj
    rw [Function.update_of_ne (isHome.ne_log (by have := h.length; omega)).symm, h.logged j hj]
  · intro b hb hdrop
    by_cases same : b = l[tail]
    · subst same
      rw [Function.update_self, h.logged tail inside]
    · rw [Function.update_of_ne same, h.rest b hb]
      rw [List.drop_eq_getElem_cons inside]
      exact List.not_mem_cons_of_ne_of_not_mem same hdrop

/-- What holds while `recover_from_log` runs: the cache agrees with the disk, and the blocks that
are not installed yet are the entries of `log.lh` from the loop counter on. -/
def Recovering (start : Nat) (target : Nat → Block) : Store × RecoverPc → Prop
  | (st, .readHead) => st.view = st.disk ∧ Recoverable start target st.disk
  | (st, .installTrans tail) =>
    st.view = st.disk ∧ Logged start target st.disk st.lh (st.lh.drop tail)
  | (st, .clear) =>
    st.view = st.disk ∧ st.lh = [] ∧ ∃ l, Logged start target st.disk l []
  | (st, .done) =>
    st.view = st.disk ∧ headerN (st.disk start) = 0 ∧ ∀ b, Home start b → st.disk b = target b

theorem Recovering.view {st : Store} {pc : RecoverPc} (h : Recovering start target (st, pc)) :
    st.view = st.disk := by
  cases pc <;> exact h.1

/-- Wherever a recovery is cut short, the next one can start over. -/
theorem Recovering.recoverable {st : Store} {pc : RecoverPc}
    (h : Recovering start target (st, pc)) : Recoverable start target st.disk := by
  cases pc with
  | readHead => exact h.2
  | installTrans tail => exact h.2.recoverable fun b hb => List.mem_of_mem_drop hb
  | clear =>
    obtain ⟨-, -, l, logged⟩ := h
    exact logged.recoverable (by simp)
  | done => exact recoverable_of_empty h.2.1 h.2.2

theorem Recovering.recycle {st : Store} {pc : RecoverPc} (b : Nat)
    (h : Recovering start target (st, pc)) : Recovering start target (st.recycle b, pc) := by
  have same : (st.recycle b).view = st.view := Store.view_recycle (by rw [h.view])
  cases pc <;> simpa only [Recovering, same, Store.disk_recycle, Store.lh_recycle] using h

theorem Recovering.step (s t : Store × RecoverPc) (h : Recovering start target s)
    (hs : RecoverStep start s t) : Recovering start target t := by
  cases hs with
  | recycle st pc b => exact h.recycle b
  | readHead st =>
    obtain ⟨clean, l, logged⟩ := h
    have entries : headerBlocks (st.view start) = l := by rw [clean]; exact logged.header
    refine ⟨by simpa using clean, ?_⟩
    simpa [entries] using logged
  | installTrans st tail blockno entry =>
    obtain ⟨clean, logged⟩ := h
    refine ⟨by simp [clean], ?_⟩
    simpa [clean] using logged.install entry
  | installed st tail finished =>
    obtain ⟨clean, logged⟩ := h
    refine ⟨clean, rfl, st.lh, ?_⟩
    rwa [List.drop_eq_nil_of_le (List.getElem?_eq_none_iff.mp finished)] at logged
  | clear st =>
    obtain ⟨clean, empty, l, logged⟩ := h
    refine ⟨by simp [clean], ?_, fun b hb => ?_⟩
    · rw [disk_writeHead, Function.update_self, empty]
      exact headerN_putHeader (Nat.zero_le _)
    · rw [disk_writeHead, Function.update_of_ne hb.ne_start]
      exact logged.rest b hb (by simp)

theorem recovering_boot {disk : Nat → Block} (h : Recoverable start target disk) :
    Recovering start target (boot disk, .readHead) :=
  ⟨rfl, h⟩

/-- A recovery that is cut short leaves a disk that the next one can start from. -/
theorem RecoversTo.recoverable {disk disk' : Nat → Block} (h : Recoverable start target disk)
    (run : RecoversTo start disk disk') : Recoverable start target disk' := by
  obtain ⟨st, pc, steps, rfl⟩ := run
  exact (Transition.invariant Recovering.step (recovering_boot h) steps).recoverable

/-- A recovery that completes reaches the target and clears the header. -/
theorem Recovers.reaches {disk disk' : Nat → Block} (h : Recoverable start target disk)
    (run : Recovers start disk disk') :
    headerN (disk' start) = 0 ∧ ∀ b, Home start b → disk' b = target b := by
  obtain ⟨st, steps, rfl⟩ := run
  exact (Transition.invariant Recovering.step (recovering_boot h) steps).2

/-- From any point of the install loop the recovery can complete. -/
theorem install_completes (start : Nat) (k : Nat) (st : Store) (tail : Nat) (hk : st.lh.length - tail = k) :
    ∃ st', ReflTransGen (RecoverStep start) (st, .installTrans tail) (st', .done) := by
  induction k generalizing st tail with
  | zero =>
    have finished : st.lh[tail]? = none := List.getElem?_eq_none_iff.mpr (by omega)
    exact ⟨_, .tail (.single (.installed st tail finished)) (.clear _)⟩
  | succ k ih =>
    have inside : tail < st.lh.length := by omega
    have entry := List.getElem?_eq_getElem inside
    obtain ⟨st', rest⟩ := ih (installTransBody start true tail st.lh[tail] st) (tail + 1)
      (by rw [lh_installTransBody]; omega)
    exact ⟨st', .head (.installTrans st tail _ entry) rest⟩

/-- `recover_from_log` terminates. -/
theorem recovers_total (start : Nat) (disk : Nat → Block) : ∃ disk', Recovers start disk disk' := by
  obtain ⟨st, steps⟩ := install_completes start _ (readHead start (boot disk)) 0 rfl
  exact ⟨_, st, .head (.readHead _) steps, rfl⟩

end Recovery

end Xv6Lab.Log

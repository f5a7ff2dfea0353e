import Mathlib.Data.Fintype.Card
import Xv6Lab.Bio.Coherence
import Xv6Lab.Lib.Exec

/-! The commit that `end_op` runs, as one program: no other process touches the buffer cache while
it runs.  It needs a buffer for the log block that it writes while the blocks of the transaction keep
theirs, so it goes through exactly when the transaction leaves a buffer free. -/

namespace Xv6Lab.Bio

open Exec
open Log (Block)

/-- How a process can fail to go on. -/
inductive Stop
  | panic (msg : String)
  /-- It waits for a sleeplock that it holds itself. -/
  | asleep
  deriving DecidableEq

abbrev Act (P : Type) := EStateM Stop (Sys P)

variable {P : Type} [DecidableEq P]

section Code

variable (p : P) (start : Nat)

def bget (b : Nat) : Act P Idx := do
  let s ← get
  match s.cache.bget p ROOTDEV b with
  | none => throw (.panic "bget: no buffers")
  | some (i, c) =>
    if (c.buf i).holder = none then do
      set (s.setCache (c.lock p i))
      pure i
    else throw .asleep

def bread (b : Nat) : Act P Idx := do
  let i ← bget p b
  let s ← get
  if (s.cache.buf i).valid = false then do
    set (s.setCache (s.cache.fill i (s.disk (s.cache.buf i).blockno)))
    pure i
  else pure i

/-- `bwrite` of a buffer that was changed to `data`. -/
def bwrite (i : Idx) (data : Block) : Act P Unit := do
  let s ← get
  if (s.cache.buf i).holder = some p then set (s.write i data)
  else throw (.panic "bwrite without lock")

def brelse (i : Idx) : Act P Unit := do
  let s ← get
  if (s.cache.buf i).holder = some p then set (s.setCache ((s.cache.unlock p i).unref p i))
  else throw (.panic "brelse without lock")

/-- `bunpin` in `install_trans`. -/
def bunpin (i : Idx) : Act P Unit := modify fun s => s.setCache (s.cache.unpinForLog i)

/-- The loop of `write_log` over the entries from `tail` on. -/
def writeLog (tail : Nat) : List Nat → Act P Unit
  | [] => pure ()
  | blockno :: rest => do
    let dst ← bread p (start + tail + 1)
    let src ← bread p blockno
    let s ← get
    bwrite p dst (s.cache.buf src).data
    brelse p src
    brelse p dst
    writeLog (tail + 1) rest

def writeHead : Act P Unit := do
  let i ← bread p start
  let s ← get
  bwrite p i (Log.putHeader (s.cache.buf i).data s.lh)
  brelse p i

/-- The loop of `install_trans` over the entries from `tail` on. -/
def installTrans (tail : Nat) : List Nat → Act P Unit
  | [] => pure ()
  | blockno :: rest => do
    let lbuf ← bread p (start + tail + 1)
    let dbuf ← bread p blockno
    let s ← get
    bwrite p dbuf (s.cache.buf lbuf).data
    bunpin dbuf
    brelse p lbuf
    brelse p dbuf
    installTrans (tail + 1) rest

def commit : Act P Unit := do
  let s ← get
  if 0 < s.lh.length then do
    writeLog p start 0 s.lh
    writeHead p start
    installTrans p start 0 s.lh
    modify fun s => { s with lh := [] }
    writeHead p start
  else pure ()

end Code

/-! ### Buffers in use -/

/-- The pin that the log has on the buffer, where it pins the blocks `pins`. -/
def Buf.pinBy (b : Buf P) (pins : List Nat) : Nat :=
  if b.dev = ROOTDEV ∧ b.blockno ∈ pins then 1 else 0

/-- Nothing uses the cache but process `p`, which holds the buffers `held`, and the log, which pins
the blocks `pins`. -/
structure Quiet (p : P) (lh pins : List Nat) (held : List Idx) (s : Sys P) : Prop where
  log : s.lh = lh
  order : ∀ i, i ∈ s.cache.order
  alone : ∀ i j b, (s.cache.buf i).Key b → (s.cache.buf j).Key b → i = j
  nodup : held.Nodup
  holder : ∀ i, (s.cache.buf i).holder = if i ∈ held then some p else none
  refcnt : ∀ i, (s.cache.buf i).refcnt =
    (if i ∈ held then 1 else 0) + (s.cache.buf i).pinBy pins
  pinned : ∀ b ∈ pins, ∃ i, (s.cache.buf i).Key b

variable {p : P} {start b : Nat} {lh pins : List Nat} {held held' : List Idx} {s t : Sys P}
  {i j : Idx}

omit [DecidableEq P] in
/-- Buffer `i` changes, and with it whether `p` holds it. -/
theorem Quiet.set (q : Quiet p lh pins held s) {b' : Buf P} {order : List Idx}
    {disk last : Nat → Block} (complete : ∀ j, j ∈ order) (nodup : held'.Nodup)
    (same : ∀ j ≠ i, j ∈ held' ↔ j ∈ held)
    (key : ∀ b, b'.Key b → (s.cache.buf i).Key b ∨ ∀ j, ¬ (s.cache.buf j).Key b)
    (kept : ∀ b ∈ pins, (s.cache.buf i).Key b → b'.Key b)
    (holder : b'.holder = if i ∈ held' then some p else none)
    (refcnt : b'.refcnt = (if i ∈ held' then 1 else 0) + b'.pinBy pins) :
    Quiet p lh pins held' { s with
      cache := ⟨Function.update s.cache.buf i b', order⟩, disk, last } := by
  set t : Sys P := { s with cache := ⟨Function.update s.cache.buf i b', order⟩, disk, last } with is
  have self : t.cache.buf i = b' := Function.update_self ..
  have others : ∀ j ≠ i, t.cache.buf j = s.cache.buf j := fun j other =>
    Function.update_of_ne other ..
  refine ⟨q.log, complete, fun j k b a c => ?_, nodup, fun j => ?_, fun j => ?_, fun b inside => ?_⟩
  · by_cases hj : j = i <;> by_cases hk : k = i
    · rw [hj, hk]
    · rw [hj, self] at a
      rw [others k hk] at c
      rcases key b a with before | fresh
      · exact hj.trans (q.alone i k b before c)
      · exact absurd c (fresh k)
    · rw [hk, self] at c
      rw [others j hj] at a
      rcases key b c with before | fresh
      · exact (q.alone j i b a before).trans hk.symm
      · exact absurd a (fresh j)
    · rw [others j hj] at a
      rw [others k hk] at c
      exact q.alone j k b a c
  · by_cases here : j = i
    · rw [here, self, holder]
    · rw [others j here, q.holder j]
      simp only [same j here]
  · by_cases here : j = i
    · rw [here, self, refcnt]
    · rw [others j here, q.refcnt j]
      simp only [same j here]
  · obtain ⟨j, carries⟩ := q.pinned b inside
    refine ⟨j, ?_⟩
    by_cases here : j = i
    · subst here
      rw [self]
      exact kept b inside carries
    · rwa [others j here]

omit [DecidableEq P] in
theorem Cache.set_set (c : Cache P) (i : Idx) (x y : Buf P) : (c.set i x).set i y = c.set i y := by
  simp [Cache.set]

/-- `bget` of a block that is cached. -/
theorem Quiet.hit (q : Quiet p lh pins held s) (free : i ∉ held) :
    Quiet p lh pins (i :: held) (s.setCache ((s.cache.hit p i).lock p i)) := by
  rw [Cache.lock, Cache.hit, Cache.set_set, Cache.buf_set_self]
  refine q.set q.order (List.nodup_cons.mpr ⟨free, q.nodup⟩) (fun j other => ?_) (fun _ => .inl)
    (fun _ _ => id) ?_ ?_
  · simp [other]
  · simp
  · show (s.cache.buf i).refcnt + 1 = _ + (s.cache.buf i).pinBy pins
    rw [q.refcnt i, if_neg free, if_pos List.mem_cons_self]
    omega

/-- `bget` of a block that is not cached. -/
theorem Quiet.recycle (q : Quiet p lh pins held s) (missing : ∀ j, ¬ (s.cache.buf j).Key b)
    (free : (s.cache.buf i).refcnt = 0) :
    Quiet p lh pins (i :: held) (s.setCache ((s.cache.recycle p ROOTDEV b i).lock p i)) := by
  have count := q.refcnt i
  have loose : i ∉ held := by
    intro inside
    rw [if_pos inside] at count
    omega
  have unpinned : ¬ ((s.cache.buf i).dev = ROOTDEV ∧ (s.cache.buf i).blockno ∈ pins) := by
    intro inside
    rw [Buf.pinBy, if_pos inside] at count
    omega
  have outside : b ∉ pins := by
    intro inside
    obtain ⟨j, carries⟩ := q.pinned b inside
    exact missing j carries
  rw [Cache.lock, Cache.recycle, Cache.set_set, Cache.buf_set_self]
  refine q.set q.order (List.nodup_cons.mpr ⟨loose, q.nodup⟩) (fun j other => ?_) (fun c carries => ?_)
    (fun c inside carries => ?_) ?_ ?_
  · simp [other]
  · obtain rfl : b = c := carries.2
    exact .inr missing
  · exact absurd ⟨carries.1, carries.2.symm ▸ inside⟩ unpinned
  · simp
  · show 1 = _
    rw [if_pos List.mem_cons_self, Buf.pinBy, if_neg fun inside => outside inside.2]

omit [DecidableEq P] in
/-- Where nothing is free, the pinned blocks and the held buffers fill the cache. -/
theorem Quiet.full (q : Quiet p lh pins held s) (none : ∀ i, (s.cache.buf i).refcnt ≠ 0) :
    NBUF ≤ pins.length + held.length := by
  have pinned : ∀ i ∈ Finset.univ \ held.toFinset, (s.cache.buf i).blockno ∈ pins.toFinset ∧
      (s.cache.buf i).dev = ROOTDEV := by
    intro i inside
    have loose : i ∉ held := by simpa using inside
    have count := q.refcnt i
    rw [if_neg loose] at count
    have used := none i
    by_cases pin : (s.cache.buf i).dev = ROOTDEV ∧ (s.cache.buf i).blockno ∈ pins
    · exact ⟨List.mem_toFinset.mpr pin.2, pin.1⟩
    · rw [Buf.pinBy, if_neg pin] at count
      omega
  have injective : Set.InjOn (fun i => (s.cache.buf i).blockno)
      (Finset.univ \ held.toFinset : Finset Idx) := by
    intro i hi j hj same
    exact q.alone i j _ ⟨(pinned i hi).2, same⟩ ⟨(pinned j hj).2, rfl⟩
  have few := Finset.card_le_card_of_injOn _ (fun i hi => (pinned i hi).1) injective
  have rest := Finset.le_card_sdiff held.toFinset (Finset.univ : Finset Idx)
  have all : (Finset.univ : Finset Idx).card = NBUF := Finset.card_fin NBUF
  have pinCard := pins.toFinset_card_le
  have heldCard := held.toFinset_card_le
  omega

omit [DecidableEq P] in
/-- Where the pinned blocks alone fill the cache, it has no other. -/
theorem Quiet.only (q : Quiet p lh pins held s) (distinct : pins.Nodup) (many : NBUF ≤ pins.length)
    (carries : (s.cache.buf i).Key b) : b ∈ pins := by
  by_contra outside
  choose! buffer key using q.pinned
  have elsewhere : ∀ c ∈ pins.toFinset, buffer c ∈ (Finset.univ.erase i : Finset Idx) := by
    intro c inside
    have pinned := List.mem_toFinset.mp inside
    refine Finset.mem_erase.mpr ⟨fun here => ?_, Finset.mem_univ _⟩
    have other := key c pinned
    rw [here] at other
    exact outside (carries.2.symm.trans other.2 ▸ pinned)
  have injective : Set.InjOn buffer pins.toFinset := by
    intro c hc d hd same
    have one := key c (List.mem_toFinset.mp hc)
    rw [same] at one
    exact one.2.symm.trans (key d (List.mem_toFinset.mp hd)).2
  have few := Finset.card_le_card_of_injOn _ elsewhere injective
  rw [List.toFinset_card_of_nodup distinct, Finset.card_erase_of_mem (Finset.mem_univ i),
    Finset.card_fin] at few
  have some : 0 < NBUF := by decide
  omega

omit [DecidableEq P] in
/-- The holder of buffer `i` changes its contents. -/
theorem Quiet.refresh (q : Quiet p lh pins held s) (data : Block) (valid : Bool)
    (disk last : Nat → Block) : Quiet p lh pins held { s with
      cache := s.cache.set i { s.cache.buf i with data, valid }, disk, last } := by
  refine q.set q.order q.nodup (fun _ _ => .rfl) (fun _ => .inl) (fun _ _ => id) ?_ ?_
  · exact q.holder i
  · exact q.refcnt i

theorem Quiet.brelse (q : Quiet p lh pins held s) (inside : i ∈ held) :
    Quiet p lh pins (held.erase i) (s.setCache ((s.cache.unlock p i).unref p i)) := by
  have count := q.refcnt i
  rw [if_pos inside] at count
  have gone : i ∉ held.erase i := q.nodup.not_mem_erase
  rw [Cache.unref, Cache.unlock, Cache.set_set, Cache.buf_set_self]
  refine q.set (fun j => ?_) (q.nodup.erase i) (fun j other => List.mem_erase_of_ne other)
    (fun _ => .inl) (fun _ _ => id) ?_ ?_
  · rw [Cache.order_set]
    split
    · exact mem_moveToFront _ i j (q.order j)
    · exact q.order j
  · rw [if_neg gone]
  · show (s.cache.buf i).refcnt - 1 = _ + (s.cache.buf i).pinBy pins
    rw [count, if_neg gone]
    omega

omit [DecidableEq P] in
/-- The log gives up its pin on block `b`. -/
theorem Quiet.bunpin (q : Quiet p lh (b :: pins) held s) (last : b ∉ pins)
    (carries : (s.cache.buf i).Key b) :
    Quiet p lh pins held (s.setCache (s.cache.unpinForLog i)) := by
  set t := s.setCache (s.cache.unpinForLog i) with is
  have self : t.cache.buf i = { s.cache.buf i with refcnt := (s.cache.buf i).refcnt - 1 } :=
    Function.update_self ..
  have others : ∀ j ≠ i, t.cache.buf j = s.cache.buf j := fun j other =>
    Function.update_of_ne other ..
  have key : ∀ j c, (t.cache.buf j).Key c ↔ (s.cache.buf j).Key c := fun j c =>
    iff_of_eq (Buf.update_kept (Buf.Key · c) (by rfl) j)
  refine ⟨q.log, q.order, fun j k c x y => q.alone j k c ((key j c).mp x) ((key k c).mp y), q.nodup,
    fun j => ?_, fun j => ?_, fun c inside => ?_⟩
  · rw [← q.holder j]
    exact Buf.update_kept Buf.holder (by rfl) j
  · have count := q.refcnt j
    by_cases here : j = i
    · subst here
      have pin : (s.cache.buf j).pinBy (b :: pins) = 1 :=
        if_pos ⟨carries.1, carries.2 ▸ List.mem_cons_self⟩
      have unpinned : (s.cache.buf j).pinBy pins = 0 := if_neg fun pinned => last (carries.2 ▸ pinned.2)
      rw [self]
      show (s.cache.buf j).refcnt - 1 = _ + (s.cache.buf j).pinBy pins
      omega
    · have apart : ¬ (s.cache.buf j).Key b := fun other => here (q.alone j i b other carries)
      have same : (s.cache.buf j).pinBy (b :: pins) = (s.cache.buf j).pinBy pins := by
        unfold Buf.pinBy
        refine if_congr (and_congr_right fun root => ?_) rfl rfl
        rw [List.mem_cons, or_iff_right fun is_b => apart ⟨root, is_b⟩]
      rw [others j here, count, same]
  · obtain ⟨j, is_key⟩ := q.pinned c (List.mem_cons_of_mem b inside)
    exact ⟨j, (key j c).mpr is_key⟩

/-! ### One specification for each function -/

/-- Every buffer carries the same block before and after. -/
def SameBlocks (s t : Sys P) : Prop := ∀ j b, (t.cache.buf j).Key b ↔ (s.cache.buf j).Key b

omit [DecidableEq P] in
theorem SameBlocks.set {b' : Buf P} (cache : t.cache.buf = Function.update s.cache.buf i b')
    (dev : b'.dev = (s.cache.buf i).dev) (blockno : b'.blockno = (s.cache.buf i).blockno) :
    SameBlocks s t := by
  intro j b
  rw [cache]
  by_cases here : j = i
  · rw [here, Function.update_self, Buf.Key, Buf.Key, dev, blockno]
  · rw [Function.update_of_ne here]

/-- What keeps `bread` of block `b` from returning. -/
def Blocked (pins : List Nat) (held : List Idx) (b : Nat) (s : Sys P) : Stop → Prop
  | .panic _ => b ∉ pins ∧ NBUF ≤ pins.length + held.length
  | .asleep => ∃ i ∈ held, (s.cache.buf i).Key b

/-- What a `bread` that returns buffer `i` has done. -/
structure Fetched (p : P) (lh pins : List Nat) (held : List Idx) (b : Nat) (s : Sys P) (i : Idx)
    (t : Sys P) : Prop where
  quiet : Quiet p lh pins (i :: held) t
  key : (t.cache.buf i).Key b
  others : ∀ j ≠ i, t.cache.buf j = s.cache.buf j

theorem bget_wp (q : Quiet p lh pins held s) :
    wp (bget p b) (Fetched p lh pins held b s) (fun e _ => Blocked pins held b s e) s := by
  unfold bget
  simp only [wp_bind, wp_get]
  have holder := q.holder
  rcases hit : s.cache.lookup ROOTDEV b with _ | i
  · have missing : ∀ j, ¬ (s.cache.buf j).Key b := by
      intro j carries
      have none := List.find?_eq_none.mp hit j (q.order j)
      exact none (by simpa [Buf.Key] using carries)
    rcases victim : s.cache.victim with _ | i
    · have found : s.cache.bget p ROOTDEV b = none := by rw [Cache.bget, hit, victim]
      rw [found]
      refine ⟨fun inside => ?_, q.full fun i => ?_⟩
      · obtain ⟨j, carries⟩ := q.pinned b inside
        exact missing j carries
      · have used := List.find?_eq_none.mp victim i (List.mem_reverse.mpr (q.order i))
        simpa using used
    · have free : (s.cache.buf i).refcnt = 0 := by simpa using List.find?_some victim
      have found : s.cache.bget p ROOTDEV b = some (i, s.cache.recycle p ROOTDEV b i) := by
        rw [Cache.bget, hit, victim]
      have loose : i ∉ held := by
        intro inside
        have count := q.refcnt i
        rw [if_pos inside] at count
        omega
      have unlocked : ((s.cache.recycle p ROOTDEV b i).buf i).holder = none := by
        rw [Cache.recycle, Cache.buf_set_self]
        show (s.cache.buf i).holder = none
        rw [holder i, if_neg loose]
      rw [found]
      simp only [if_pos unlocked, wp_bind, wp_set, wp_pure]
      refine ⟨q.recycle missing free, ?_, fun j other => ?_⟩
      · show (((s.cache.recycle p ROOTDEV b i).lock p i).buf i).Key b
        rw [Cache.lock, Cache.buf_set_self, Cache.recycle, Cache.buf_set_self]
        exact ⟨rfl, rfl⟩
      · show ((s.cache.recycle p ROOTDEV b i).lock p i).buf j = _
        rw [Cache.lock, Cache.buf_set_of_ne _ _ other, Cache.recycle, Cache.buf_set_of_ne _ _ other]
  · have carries := lookup_some hit
    have found : s.cache.bget p ROOTDEV b = some (i, s.cache.hit p i) := by rw [Cache.bget, hit]
    have same : ((s.cache.hit p i).buf i).holder = (s.cache.buf i).holder := by
      rw [Cache.hit, Cache.buf_set_self]
    rw [found]
    by_cases inside : i ∈ held
    · have locked : ((s.cache.hit p i).buf i).holder ≠ none := by
        rw [same, holder i, if_pos inside]
        simp
      simp only [if_neg locked, wp_throw]
      exact ⟨i, inside, carries⟩
    · have unlocked : ((s.cache.hit p i).buf i).holder = none := by rw [same, holder i, if_neg inside]
      simp only [if_pos unlocked, wp_bind, wp_set, wp_pure]
      refine ⟨q.hit inside, ?_, fun j other => ?_⟩
      · show (((s.cache.hit p i).lock p i).buf i).Key b
        rw [Cache.lock, Cache.buf_set_self, Cache.hit, Cache.buf_set_self]
        exact carries
      · show ((s.cache.hit p i).lock p i).buf j = _
        rw [Cache.lock, Cache.buf_set_of_ne _ _ other, Cache.hit, Cache.buf_set_of_ne _ _ other]

theorem bread_wp (q : Quiet p lh pins held s) :
    wp (bread p b) (Fetched p lh pins held b s) (fun e _ => Blocked pins held b s e) s := by
  unfold bread
  rw [wp_bind]
  refine wp_conseq (bget_wp q) fun i t got => ?_
  simp only [wp_bind, wp_get]
  split
  · simp only [wp_bind, wp_set, wp_pure]
    refine ⟨got.quiet.refresh _ _ _ _, ?_, fun j other => ?_⟩
    · show ((t.cache.fill i _).buf i).Key b
      rw [Cache.fill, Cache.buf_set_self]
      exact got.key
    · show (t.cache.fill i _).buf j = _
      rw [Cache.fill, Cache.buf_set_of_ne _ _ other, got.others j other]
  · exact got

theorem bwrite_wp (q : Quiet p lh pins held s) (inside : i ∈ held) (data : Block)
    (E : Stop → Sys P → Prop) :
    wp (bwrite p i data) (fun _ t => Quiet p lh pins held t ∧ SameBlocks s t) E s := by
  have locked : (s.cache.buf i).holder = some p := by rw [q.holder i, if_pos inside]
  unfold bwrite
  simp only [wp_bind, wp_get, if_pos locked, wp_set]
  exact ⟨q.refresh _ _ _ _, .set rfl rfl rfl⟩

theorem brelse_wp (q : Quiet p lh pins held s) (inside : i ∈ held) (E : Stop → Sys P → Prop) :
    wp (brelse p i) (fun _ t => Quiet p lh pins (held.erase i) t ∧ SameBlocks s t) E s := by
  have locked : (s.cache.buf i).holder = some p := by rw [q.holder i, if_pos inside]
  unfold brelse
  simp only [wp_bind, wp_get, if_pos locked, wp_set]
  refine ⟨q.brelse inside, ?_⟩
  rw [Cache.unref, Cache.unlock, Cache.set_set, Cache.buf_set_self]
  exact .set rfl rfl rfl

/-- The two `bread`s at the head of both loops: a log block, and a block of the transaction. -/
theorem bread_bread_wp (q : Quiet p lh pins [] s) {slot blockno : Nat} (inside : blockno ∈ pins)
    {rest : Idx → Idx → Act P Unit} {Q : Unit → Sys P → Prop} {E : Stop → Sys P → Prop}
    (stuck : ∀ e t, (slot ∉ pins ∧ NBUF ≤ pins.length) ∨ blockno = slot → E e t)
    (goes : ∀ dst src t, Quiet p lh pins [src, dst] t → (t.cache.buf dst).Key slot →
      (t.cache.buf src).Key blockno → blockno ≠ slot → wp (rest dst src) Q E t) :
    wp (do let dst ← bread p slot; let src ← bread p blockno; rest dst src) Q E s := by
  rw [wp_bind]
  refine wp_mono (bread_wp q) (fun dst t first => ?_) fun e t blocked => stuck e t (.inl ?_)
  · rw [wp_bind]
    refine wp_mono (bread_wp first.quiet) (fun src u second => ?_) fun e u blocked => ?_
    · have apart : dst ≠ src := by
        have distinct := second.quiet.nodup
        rintro rfl
        simp at distinct
      have slotKey : (u.cache.buf dst).Key slot := by
        rw [second.others dst apart]
        exact first.key
      refine goes dst src u second.quiet slotKey second.key ?_
      rintro rfl
      exact apart (second.quiet.alone dst src _ slotKey second.key)
    · cases e with
      | panic msg => exact absurd inside blocked.1
      | asleep =>
        obtain ⟨i, held, carries⟩ := blocked
        obtain rfl := List.mem_singleton.mp held
        exact stuck _ _ (.inr (carries.2.symm.trans first.key.2))
  · cases e with
    | panic msg => exact blocked
    | asleep =>
      obtain ⟨i, held, -⟩ := blocked
      cases held

/-- Some entry of the log is the log block that `write_log` copies it to. -/
def OwnSlot (start : Nat) (lh : List Nat) : Prop := ∃ tail, lh[tail]? = some (start + tail + 1)

theorem ownSlot_cons {rest : List Nat} :
    OwnSlot start (b :: rest) ↔ b = start + 1 ∨ OwnSlot (start + 1) rest := by
  constructor
  · rintro ⟨_ | tail, entry⟩
    · exact .inl (Option.some.inj entry)
    · refine .inr ⟨tail, ?_⟩
      rw [List.getElem?_cons_succ] at entry
      rw [entry]
      congr 1
      omega
  · rintro (rfl | ⟨tail, entry⟩)
    · exact ⟨0, rfl⟩
    · refine ⟨tail + 1, ?_⟩
      rw [List.getElem?_cons_succ, entry]
      congr 1
      omega

/-- `write_log` gets through unless an entry is its own log block or the transaction fills the
cache, and even then only if the log blocks are part of it. -/
theorem writeLog_wp {rest : List Nat} (distinct : lh.Nodup) (q : Quiet p lh lh [] s)
    (entries : rest ⊆ lh) (tail : Nat) :
    wp (writeLog p start tail rest)
      (fun _ t => Quiet p lh lh [] t ∧ ¬ OwnSlot (start + tail) rest ∧
        (NBUF ≤ lh.length → ∀ k < rest.length, start + tail + k + 1 ∈ lh))
      (fun _ _ => NBUF ≤ lh.length ∨ OwnSlot (start + tail) rest) s := by
  induction rest generalizing s tail with
  | nil =>
    refine ⟨q, ?_, fun _ k below => absurd below (Nat.not_lt_zero k)⟩
    rintro ⟨k, entry⟩
    simp at entry
  | cons blockno rest ih =>
    have inside : blockno ∈ lh := entries List.mem_cons_self
    refine bread_bread_wp q inside (fun _ _ why => ?_) fun dst src t quiet slotKey _ apart => ?_
    · rcases why with ⟨-, many⟩ | own
      · exact .inl many
      · exact .inr (ownSlot_cons.mpr (.inl own))
    · simp only [wp_bind, wp_get]
      refine wp_conseq (bwrite_wp quiet (by simp) _ _) fun _ u ⟨quiet, _⟩ => ?_
      refine wp_conseq (brelse_wp quiet (by simp) _) fun _ v ⟨quiet, _⟩ => ?_
      rw [List.erase_cons_head] at quiet
      refine wp_conseq (brelse_wp quiet (by simp) _) fun _ w ⟨quiet, _⟩ => ?_
      rw [List.erase_cons_head] at quiet
      refine wp_mono (ih quiet (fun _ more => entries (List.mem_cons_of_mem _ more)) (tail + 1))
        (fun _ w ⟨quiet, own, slots⟩ => ⟨quiet, ?_, fun many k below => ?_⟩) fun _ _ why => ?_
      · rw [ownSlot_cons]
        rintro (first | later)
        · exact apart first
        · exact own later
      · cases k with
        | zero => exact Quiet.only ‹Quiet p lh lh [src, dst] t› distinct many slotKey
        | succ k =>
          have slot := slots many k (by simpa using below)
          rwa [show start + (tail + 1) + k + 1 = start + tail + (k + 1) + 1 by omega] at slot
      · rcases why with many | own
        · exact .inl many
        · exact .inr (ownSlot_cons.mpr (.inr own))

theorem writeHead_wp (q : Quiet p lh pins [] s) :
    wp (writeHead p start)
      (fun _ t => Quiet p lh pins [] t ∧ (pins.Nodup → NBUF ≤ pins.length → start ∈ pins))
      (fun _ _ => NBUF ≤ pins.length) s := by
  unfold writeHead
  rw [wp_bind]
  refine wp_mono (bread_wp q) (fun i t got => ?_) fun e t blocked => ?_
  · simp only [wp_bind, wp_get]
    refine wp_conseq (bwrite_wp got.quiet (by simp) _ _) fun _ u ⟨quiet, _⟩ => ?_
    refine wp_conseq (brelse_wp quiet (by simp) _) fun _ v ⟨quiet, _⟩ => ?_
    rw [List.erase_cons_head] at quiet
    exact ⟨quiet, fun distinct many => got.quiet.only distinct many got.key⟩
  · cases e with
    | panic msg => exact blocked.2
    | asleep =>
      obtain ⟨i, held, -⟩ := blocked
      cases held

/-- `install_trans` gets through: the blocks that are still pinned leave a buffer free. -/
theorem installTrans_wp {rest : List Nat} (q : Quiet p lh rest [] s) (distinct : rest.Nodup)
    (tail : Nat) (own : ¬ OwnSlot (start + tail) rest) (room : rest.length < NBUF) :
    wp (installTrans p start tail rest) (fun _ => Quiet p lh [] []) (fun _ _ => False) s := by
  induction rest generalizing s tail with
  | nil => exact q
  | cons blockno rest ih =>
    obtain ⟨new, distinct⟩ := List.nodup_cons.mp distinct
    rw [ownSlot_cons, not_or] at own
    refine bread_bread_wp q List.mem_cons_self (fun _ _ why => ?_)
      fun lbuf dbuf t quiet slotKey key apart => ?_
    · rcases why with ⟨-, many⟩ | slot
      · omega
      · exact own.1 slot
    · simp only [wp_bind, wp_get]
      refine wp_conseq (bwrite_wp quiet (by simp) _ _) fun _ u ⟨quiet, same⟩ => ?_
      unfold bunpin
      simp only [wp_modify]
      have quiet := quiet.bunpin new ((same dbuf blockno).mpr key)
      have other : lbuf ≠ dbuf := by
        have distinct := quiet.nodup
        rintro rfl
        simp at distinct
      refine wp_conseq (brelse_wp quiet (by simp) _) fun _ v ⟨quiet, _⟩ => ?_
      rw [List.erase_cons_tail (by simpa using other.symm), List.erase_cons_head] at quiet
      refine wp_conseq (brelse_wp quiet (by simp) _) fun _ w ⟨quiet, _⟩ => ?_
      rw [List.erase_cons_head] at quiet
      refine ih quiet distinct (tail + 1) own.2 ?_
      rw [List.length_cons] at room
      omega

omit [DecidableEq P] in
theorem Quiet.cleared (q : Quiet p lh [] held s) : Quiet p [] [] held { s with lh := [] } :=
  ⟨rfl, q.order, q.alone, q.nodup, q.holder, q.refcnt, q.pinned⟩

/-- A transaction that leaves a buffer free and has no entry at its own log block. -/
def Fits (start : Nat) (lh : List Nat) : Prop := lh.length < NBUF ∧ ¬ OwnSlot start lh

/-- A transaction of `n` blocks cannot have `n` log blocks and the header among them. -/
theorem slots_exceed (head : start ∈ lh)
    (slots : ∀ k < lh.length, start + k + 1 ∈ lh) : False := by
  have all : (Finset.range (lh.length + 1)).image (start + ·) ⊆ lh.toFinset := by
    intro b inside
    obtain ⟨k, below, rfl⟩ := Finset.mem_image.mp inside
    rw [List.mem_toFinset]
    cases k with
    | zero => exact head
    | succ k => exact slots k (by simpa using below)
  have count := Finset.card_le_card all
  rw [Finset.card_image_of_injective _ (add_right_injective start), Finset.card_range] at count
  have few := lh.toFinset_card_le
  omega

theorem commit_wp (q : Quiet p lh lh [] s) (distinct : lh.Nodup) :
    wp (commit p start) (fun _ _ => Fits start lh) (fun _ _ => ¬ Fits start lh) s := by
  unfold commit
  simp only [wp_bind, wp_get, q.log]
  split
  · rw [wp_bind]
    refine wp_mono (writeLog_wp distinct q (List.Subset.refl lh) 0)
      (fun _ t ⟨quiet, own, slots⟩ => ?_) fun _ _ why fits => ?_
    · rw [wp_bind]
      refine wp_mono (writeHead_wp quiet) (fun _ u ⟨quiet, head⟩ => ?_) fun _ _ many fits => ?_
      · have room : lh.length < NBUF := by
          by_contra many
          have many := Nat.le_of_not_lt many
          exact slots_exceed (head distinct many) (slots many)
        rw [wp_bind]
        refine wp_mono (installTrans_wp quiet distinct 0 own room) (fun _ v quiet => ?_)
          fun _ _ never => never.elim
        rw [wp_bind, wp_modify]
        refine wp_mono (writeHead_wp quiet.cleared) (fun _ _ _ => ⟨room, own⟩) fun _ _ many => ?_
        exact absurd many (by decide)
      · exact absurd fits.1 (Nat.not_lt.mpr many)
    · rcases why with many | own
      · exact absurd fits.1 (Nat.not_lt.mpr many)
      · exact fits.2 own
  · next empty =>
    obtain rfl := List.eq_nil_of_length_eq_zero (Nat.eq_zero_of_not_pos empty)
    refine ⟨by decide, ?_⟩
    rintro ⟨k, entry⟩
    simp at entry

omit [DecidableEq P] in
/-- The state in which `end_op` enters the commit, while no buffer is in use. -/
theorem Inv.quiet_enter (inv : Inv s) (entered : s.commit = some (p, .enter))
    (unused : ∀ i, (s.cache.buf i).users = 0) : Quiet p s.lh s.lh [] s := by
  have pending : s.pending = s.lh := by simp [Sys.pending, Sys.installed, entered, Stage.installed]
  refine ⟨rfl, inv.order, inv.alone, List.nodup_nil, fun i => ?_, fun i => ?_, fun b inside => ?_⟩
  · have none := unused i
    cases holder : (s.cache.buf i).holder with
    | none => rfl
    | some q =>
      rw [Buf.users, holder, Option.toList_some, List.length_singleton] at none
      omega
  · rw [inv.counted i, unused i, Sys.logPin, pending]
    rfl
  · obtain ⟨i, carries, -⟩ := inv.pinned b (pending.symm ▸ inside)
    exact ⟨i, carries⟩

/-- The commit goes through exactly when the transaction has fewer blocks than the cache has
buffers, and no entry at its own log block. -/
theorem commit_completes_iff (reach : Reachable start s) (entered : s.commit = some (p, .enter))
    (unused : ∀ i, (s.cache.buf i).users = 0) :
    (∃ t, commit p start s = .ok () t) ↔ s.lh.length < NBUF ∧ ¬ OwnSlot start s.lh := by
  have inv := reach.good.toInv
  have outcome := @commit_wp _ _ p start _ _ (inv.quiet_enter entered unused) inv.nodup
  unfold wp at outcome
  constructor
  · rintro ⟨t, run⟩
    rw [run] at outcome
    exact outcome
  · intro fits
    cases run : commit p start s with
    | ok _ t => exact ⟨t, rfl⟩
    | error e t =>
      rw [run] at outcome
      exact absurd fits outcome

/-! ### A full transaction -/

omit [DecidableEq P] in
/-- Every operation has logged at most `MAXOPBLOCKS` distinct blocks. -/
def Sys.Disciplined (s : Sys P) : Prop := ∀ w ∈ s.writes,
  ((s.writes.filter fun v => v.1 = w.1).map fun v => v.2).dedup.length ≤ MAXOPBLOCKS

omit [DecidableEq P] in
instance (s : Sys P) : Decidable s.Disciplined := inferInstanceAs (Decidable (∀ w ∈ s.writes, _))

/-- Operation `op` logs block `100 + k` through buffer `k`. -/
def logBlock (op : Nat) (k : Idx) : List (Event Unit) :=
  [.bread () (100 + k), .lock () k, .fill () k, .logWrite () op k fun _ => 1, .brelse () k,
    .unref () k]

/-- Three operations log ten blocks each, and all end. -/
def logFull : List (Event Unit) :=
  [.beginOp, .beginOp, .beginOp] ++
    (List.finRange NBUF).flatMap (fun k => logBlock (k.val / MAXOPBLOCKS) k) ++
    [.endOp () 0, .endOp () 1, .endOp () 2]

/-- What stops the commit, if anything does. -/
def fate (s : Sys Unit) : Option Stop :=
  match commit () 2 s with
  | .ok _ _ => none
  | .error e _ => some e

theorem fate_some {s : Sys Unit} {e : Stop} (stops : fate s = some e) :
    ∃ t, commit () 2 s = .error e t := by
  unfold fate at stops
  cases run : commit () 2 s with
  | ok _ t =>
    rw [run] at stops
    cases stops
  | error e' t =>
    rw [run] at stops
    obtain rfl := Option.some.inj stops
    exact ⟨t, rfl⟩

/-- The state is one in which the commit begins and no buffer is in use. -/
def Enters (s : Sys Unit) : Prop :=
  s.commit = some ((), .enter) ∧ ∀ i, (s.cache.buf i).users = 0

instance (s : Sys Unit) : Decidable (Enters s) := inferInstanceAs (Decidable (_ ∧ _))

theorem logFull_runs : ((booted.run 2 logFull).any fun s => decide (s.Disciplined ∧ Enters s ∧
    fate s = some (.panic "bget: no buffers"))) = true := by
  decide +kernel

/-- Three operations that each stay within their reservation make a commit that finds no buffer. -/
theorem commit_of_full_log_panics : ∃ s : Sys Unit, Reachable 2 s ∧ s.Disciplined ∧
    s.commit = some ((), .enter) ∧ (∀ i, (s.cache.buf i).users = 0) ∧
    ∃ t, commit () 2 s = .error (.panic "bget: no buffers") t := by
  obtain ⟨s, done, facts⟩ := (Option.any_eq_true _ _).mp logFull_runs
  obtain ⟨disciplined, ⟨entered, unused⟩, stops⟩ := of_decide_eq_true facts
  exact ⟨s, booted_reachable.run done, disciplined, entered, unused, fate_some stops⟩

theorem logOne_ends : ((booted.run 2 (logOne ++ [.endOp () 0])).any fun s =>
    decide (Enters s ∧ s.lh = [100])) = true := by
  decide +kernel

theorem commit_of_one_block_completes : ∃ s : Sys Unit, Reachable 2 s ∧ Enters s ∧ s.lh = [100] ∧
    ∃ t, commit () 2 s = .ok () t := by
  obtain ⟨s, done, facts⟩ := (Option.any_eq_true _ _).mp logOne_ends
  obtain ⟨enters, lh⟩ := of_decide_eq_true facts
  have reach := booted_reachable.run done
  refine ⟨s, reach, enters, lh, (commit_completes_iff reach enters.1 enters.2).mpr ?_⟩
  rw [lh, OwnSlot]
  refine ⟨by decide, ?_⟩
  rintro ⟨_ | tail, entry⟩ <;> simp at entry

end Xv6Lab.Bio

import Xv6Lab.Bio.Cache
import Xv6Lab.Lib.Dll

/-! The list of buffers of `bio.c`, with its pointers.  Processes run between each other wherever
`bcache.lock` is free: in `acquiresleep`, between `releasesleep` and the rest of `brelse`, and in the
loop of `sync_all_buffers`. -/

namespace Xv6Lab.Bio.Recency

open Dll (Links Lists)

/-! ### `bio.c` -/

/-- The fields of `struct buf` besides its links and its data; `holder` has the sleeplock. -/
structure Node (P : Type) where
  valid : Bool
  disk : Bool
  dev : BitVec 32
  blockno : BitVec 32
  refcnt : BitVec 32
  holder : Option P

/-- `bcache`. -/
structure Bcache (P : Type) where
  links : Links Idx
  node : Idx → Node P

/-- What ends a function without a return; `endless` is a loop that does not come back to the head
of the list. -/
inductive Stop
  | panic (msg : String)
  | endless
  deriving DecidableEq

/-- The turns that a loop over the list may take. -/
def TURNS : Nat := NBUF + 1

namespace Bcache

variable {P : Type}

def setNode (s : Bcache P) (b : Idx) (n : Node P) : Bcache P :=
  { s with node := Function.update s.node b n }

/-- `b->refcnt++` -/
def addRef (s : Bcache P) (b : Idx) : Bcache P :=
  s.setNode b { s.node b with refcnt := (s.node b).refcnt + 1 }

/-- `b->refcnt--` -/
def subRef (s : Bcache P) (b : Idx) : Bcache P :=
  s.setNode b { s.node b with refcnt := (s.node b).refcnt - 1 }

def setHolder (s : Bcache P) (b : Idx) (holder : Option P) : Bcache P :=
  s.setNode b { s.node b with holder }

/-- The body of the loop of `binit`. -/
def initBuf (s : Bcache P) (b : Idx) : Bcache P :=
  { s.setHolder b none with links := s.links.insertFront (some b) }

/-- `binit` -/
def binit (s : Bcache P) : Bcache P :=
  (List.finRange NBUF).foldl initBuf { s with links := s.links.clear }

/-- A loop along a link, up to the first buffer that passes a test. -/
def find (link : Option Idx → Option Idx) (test : Idx → Bool) (a : Option Idx) :
    Except Stop (Option Idx) :=
  match Dll.scan link test TURNS a with
  | some found => .ok found
  | none => .error .endless

/-- `bget`, up to its `acquiresleep`. -/
def bget (s : Bcache P) (dev blockno : BitVec 32) : Except Stop (Idx × Bcache P) := do
  match ← find s.links.next (fun b => (s.node b).dev = dev ∧ (s.node b).blockno = blockno)
      (s.links.next none) with
  | some b => pure (b, s.addRef b)
  | none =>
    match ← find s.links.prev (fun b => (s.node b).refcnt = 0) (s.links.prev none) with
    | some b => pure (b, s.setNode b { s.node b with dev, blockno, valid := false, refcnt := 1 })
    | none => throw (.panic "bget: no buffers")

/-- `brelse`, from `acquire` on. -/
def drop (s : Bcache P) (b : Idx) : Bcache P :=
  let s := s.subRef b
  if (s.node b).refcnt ≤ 0 then
    if s.links.prev (some b) = none then s
    else { s with links := (s.links.unlink (some b)).insertFront (some b) }
  else s

/-- The first loop of `sync_all_buffers`, from `b` on; `syncList` is what it has collected. -/
def collect : (turns : Nat) → (b : Option Idx) → Bcache P → (syncList : List Idx) →
    Except Stop (Bcache P × List Idx)
  | 0, _, _, _ => .error .endless
  | _ + 1, none, s, syncList => .ok (s, syncList)
  | turns + 1, some b, s, syncList =>
    if (s.node b).valid ∧ ¬ (s.node b).disk ∧ 0 ≤ (s.node b).refcnt then
      let s := s.addRef b
      collect turns (s.links.next (some b)) s (syncList ++ [b])
    else
      collect turns (s.links.next (some b)) s syncList

end Bcache

/-! ### The processes -/

/-- Where a process stands in the functions of `bio.c`. -/
inductive Task
  | idle
  /-- In the `acquiresleep` of `bget`. -/
  | locking (b : Idx)
  /-- In `brelse`, behind `releasesleep`. -/
  | dropping (b : Idx)
  /-- In the second loop of `sync_all_buffers`, with the buffers of `left` to go. -/
  | syncing (left : List Idx)
  /-- There, with the sleeplock of `b`. -/
  | writing (b : Idx) (left : List Idx)
  /-- There, behind `releasesleep`. -/
  | unpinning (b : Idx) (left : List Idx)
  deriving DecidableEq

/-- The cache and the processes.  `drops` lists the buffers whose count `brelse` has brought to zero
since `binit`, the latest first; no code reads it. -/
structure System (P : Type) where
  cache : Bcache P
  doing : P → Task
  drops : List Idx

/-- What happens next. -/
inductive Act (P : Type)
  | binit
  | bget (p : P) (dev blockno : BitVec 32)
  | lock (p : P)
  | brelse (p : P) (b : Idx)
  | drop (p : P)
  | bpin (b : Idx)
  | bunpin (b : Idx)
  | sync (p : P)
  | syncLock (p : P)
  | syncUnlock (p : P)
  | syncUnpin (p : P)
  /-- `bread` sets `b->valid`, and the driver of the disk sets and clears `b->disk`. -/
  | flags (b : Idx) (valid disk : Bool)

namespace System

variable {P : Type}

def setCache (s : System P) (cache : Bcache P) : System P := { s with cache }

def binit (s : System P) : System P := { s with cache := s.cache.binit, drops := [] }

variable [DecidableEq P]

def goto (s : System P) (p : P) (task : Task) : System P :=
  { s with doing := Function.update s.doing p task }

/-- The rest of `brelse`, with the list of drops kept up. -/
def drop (s : System P) (b : Idx) : System P :=
  let cache := s.cache.drop b
  { s with cache, drops := if (cache.node b).refcnt = 0 then b :: s.drops else s.drops }

/-- The state after an act, where it can happen without a panic. -/
def step (s : System P) : Act P → Option (System P)
  | .binit => some s.binit
  | .bget p dev blockno =>
    match s.doing p, s.cache.bget dev blockno with
    | .idle, .ok (b, cache) => some ((s.setCache cache).goto p (.locking b))
    | _, _ => none
  | .lock p =>
    match s.doing p with
    | .locking b =>
      if (s.cache.node b).holder = none then
        some ((s.setCache (s.cache.setHolder b (some p))).goto p .idle)
      else none
    | _ => none
  | .brelse p b =>
    if s.doing p = .idle ∧ (s.cache.node b).holder = some p then
      some ((s.setCache (s.cache.setHolder b none)).goto p (.dropping b))
    else none
  | .drop p =>
    match s.doing p with
    | .dropping b => some ((s.drop b).goto p .idle)
    | _ => none
  | .bpin b => some (s.setCache (s.cache.addRef b))
  | .bunpin b => some (s.setCache (s.cache.subRef b))
  | .sync p =>
    match s.doing p, s.cache.collect TURNS (s.cache.links.next none) [] with
    | .idle, .ok (cache, syncList) => some ((s.setCache cache).goto p (.syncing syncList))
    | _, _ => none
  | .syncLock p =>
    match s.doing p with
    | .syncing [] => some (s.goto p .idle)
    | .syncing (b :: left) =>
      if (s.cache.node b).holder = none then
        some ((s.setCache (s.cache.setHolder b (some p))).goto p (.writing b left))
      else none
    | _ => none
  | .syncUnlock p =>
    match s.doing p with
    | .writing b left =>
      if (s.cache.node b).holder = some p then
        some ((s.setCache (s.cache.setHolder b none)).goto p (.unpinning b left))
      else none
    | _ => none
  | .syncUnpin p =>
    match s.doing p with
    | .unpinning b left => some ((s.setCache (s.cache.subRef b)).goto p (.syncing left))
    | _ => none
  | .flags b valid disk => some (s.setCache (s.cache.setNode b { s.cache.node b with valid, disk }))

end System

/-- The states of all runs, which start with `binit`. -/
inductive Reached {P : Type} [DecidableEq P] : System P → Prop
  | start (s : System P) : Reached s.binit
  | next {s t : System P} (act : Act P) (before : Reached s) (step : s.step act = some t) : Reached t

/-- A run. -/
def System.run {P : Type} [DecidableEq P] (s : System P) (acts : List (Act P)) : Option (System P) :=
  acts.foldlM System.step s

theorem reached_run {P : Type} [DecidableEq P] {s t : System P} {acts : List (Act P)}
    (reached : Reached s) (run : s.run acts = some t) : Reached t := by
  induction acts generalizing s with
  | nil =>
    cases run
    exact reached
  | cons act acts ih =>
    obtain ⟨u, step, rest⟩ := Option.bind_eq_some_iff.mp run
    exact ih (.next act reached step) rest

/-! ### The order of the list -/

/-- Of two buffers in this order, the first is the one that was dropped later; buffers that were
never dropped come last. -/
def Recent (drops order : List Idx) : Prop :=
  order.Pairwise fun i j => j ∈ drops → i ∈ drops ∧ drops.idxOf i < drops.idxOf j

theorem recent_nil (order : List Idx) : Recent [] order :=
  List.pairwise_of_forall fun _ _ never => absurd never List.not_mem_nil

/-- A buffer that is dropped comes first. -/
theorem Recent.drop {drops front back : List Idx} {b : Idx}
    (nodup : (front ++ b :: back).Nodup) (recent : Recent drops (front ++ b :: back)) :
    Recent (b :: drops) (b :: (front ++ back)) := by
  rw [List.nodup_middle, List.nodup_cons] at nodup
  have apart : ∀ i ∈ front ++ back, b ≠ i := fun i inside same => nodup.1 (same ▸ inside)
  refine List.pairwise_cons.mpr ⟨fun j inside _ => ⟨List.mem_cons_self, ?_⟩, ?_⟩
  · rw [List.idxOf_cons_self, List.idxOf_cons_ne _ (apart j inside)]
    exact Nat.succ_pos _
  · have rest : (front ++ back).Pairwise fun i j =>
        j ∈ drops → i ∈ drops ∧ drops.idxOf i < drops.idxOf j :=
      List.Pairwise.sublist (List.Sublist.append_left (List.sublist_cons_self b back) front) recent
    refine rest.imp_of_mem fun {i j} inside inside' later dropped => ?_
    have old : j ∈ drops := (List.mem_cons.mp dropped).resolve_left (apart j inside').symm
    obtain ⟨earlier, before⟩ := later old
    rw [List.idxOf_cons_ne _ (apart i inside), List.idxOf_cons_ne _ (apart j inside')]
    exact ⟨List.mem_cons_of_mem b earlier, Nat.succ_lt_succ before⟩

namespace Bcache

variable {P : Type} {s t : Bcache P} {order : List Idx} {b : Idx}

/-- Inserted one by one, the buffers stand in reverse order. -/
theorem initBufs_lists (l : List Idx) (lists : Lists s.links order)
    (nodup : (l.reverse ++ order).Nodup) :
    Lists (l.foldl initBuf s).links (l.reverse ++ order) := by
  induction l generalizing s order with
  | nil => exact lists
  | cons b l ih =>
    rw [List.reverse_cons, List.append_assoc, List.singleton_append] at nodup ⊢
    have fresh : b ∉ order := (List.nodup_cons.mp (List.nodup_append.mp nodup).2.1).1
    exact ih (s := s.initBuf b) (lists.insertFront fresh) nodup

theorem binit_lists (s : Bcache P) : Lists s.binit.links (List.finRange NBUF).reverse := by
  have all := initBufs_lists (s := { s with links := s.links.clear }) (List.finRange NBUF)
    (Dll.lists_clear s.links)
    (by rw [List.append_nil]; exact List.nodup_reverse.mpr (List.nodup_finRange NBUF))
  rwa [List.append_nil] at all

@[simp] theorem setNode_links (s : Bcache P) (b : Idx) (n : Node P) : (s.setNode b n).links = s.links :=
  rfl

@[simp] theorem setNode_node (s : Bcache P) (b : Idx) (n : Node P) : (s.setNode b n).node b = n :=
  Function.update_self ..

theorem subRef_refcnt (s : Bcache P) (b : Idx) :
    ((s.subRef b).node b).refcnt = (s.node b).refcnt - 1 :=
  congrArg Node.refcnt (setNode_node ..)

/-- A count is never below zero. -/
theorem le_zero_iff {refcnt : BitVec 32} : refcnt ≤ 0 ↔ refcnt = 0 := BitVec.le_zero_iff

/-- The count after the end of `brelse`. -/
theorem drop_refcnt (s : Bcache P) (b : Idx) :
    ((s.drop b).node b).refcnt = (s.node b).refcnt - 1 := by
  unfold drop
  dsimp only
  split
  · split <;> exact subRef_refcnt s b
  · exact subRef_refcnt s b

theorem moveToFront_eq {front back : List Idx} (nodup : (front ++ b :: back).Nodup) :
    Cache.moveToFront b (front ++ b :: back) = b :: (front ++ back) := by
  cases front with
  | nil => exact if_pos rfl
  | cons c front =>
    rw [List.nodup_middle, List.nodup_cons] at nodup
    have fresh : b ∉ c :: front := fun inside => nodup.1 (List.mem_append_left back inside)
    have later : (c :: front ++ b :: back).head? ≠ some b := fun same =>
      fresh (by rw [← Option.some.inj same]; exact List.mem_cons_self)
    rw [Cache.moveToFront, if_neg later, List.erase_append_right _ fresh, List.erase_cons_head]

/-- The end of `brelse`, as a change of the list. -/
theorem drop_lists (lists : Lists s.links order) (inside : b ∈ order) :
    Lists (s.drop b).links
      (if ((s.drop b).node b).refcnt = 0 then Cache.moveToFront b order else order) := by
  rw [drop_refcnt, ← subRef_refcnt]
  obtain ⟨front, back, rfl⟩ := List.append_of_mem inside
  have before : s.links.prev (some b) = front.getLast? := lists.prev front (b :: back) rfl
  unfold drop
  dsimp only
  by_cases zero : ((s.subRef b).node b).refcnt = 0
  · have first : (s.subRef b).links.prev (some b) = front.getLast? := before
    rw [if_pos zero, if_pos (le_zero_iff.mpr zero), first, moveToFront_eq lists.nodup]
    cases front with
    | nil =>
      rw [if_pos List.getLast?_nil]
      exact lists
    | cons c front =>
      rw [if_neg (by simp)]
      refine lists.unlink.insertFront ?_
      have nodup := lists.nodup
      rw [List.nodup_middle, List.nodup_cons] at nodup
      exact nodup.1
  · rw [if_neg zero, if_neg fun low => zero (le_zero_iff.mp low)]
    exact lists

/-- The loop forward is a search of the list, as the cache without pointers makes it. -/
theorem find_next (lists : Lists s.links order) (short : order.length ≤ NBUF) (test : Idx → Bool) :
    find s.links.next test (s.links.next none) = .ok (order.find? test) := by
  have loop := lists.scan_next test (show [] ++ order = order from rfl) (Nat.lt_succ_of_le short)
  have first := lists.next [] order rfl
  rw [List.getLast?_nil] at first
  rw [find, first, TURNS, loop]

/-- The loop backward. -/
theorem find_prev (lists : Lists s.links order) (short : order.length ≤ NBUF) (test : Idx → Bool) :
    find s.links.prev test (s.links.prev none) = .ok (order.reverse.find? test) := by
  have loop := lists.scan_prev test (List.append_nil order) (Nat.lt_succ_of_le short)
  have last := lists.prev order [] (List.append_nil order)
  rw [List.head?_nil] at last
  rw [find, last, TURNS, loop]

theorem bget_eq (lists : Lists s.links order) (short : order.length ≤ NBUF)
    (dev blockno : BitVec 32) : s.bget dev blockno =
      match order.find? fun b => (s.node b).dev = dev ∧ (s.node b).blockno = blockno with
      | some b => .ok (b, s.addRef b)
      | none =>
        match order.reverse.find? fun b => (s.node b).refcnt = 0 with
        | some b =>
          .ok (b, s.setNode b { s.node b with dev, blockno, valid := false, refcnt := 1 })
        | none => .error (.panic "bget: no buffers") := by
  unfold bget
  rw [find_next lists short, find_prev lists short]
  show (match order.find? _ with | some b => _ | none => _) = _
  cases order.find? fun b => (s.node b).dev = dev ∧ (s.node b).blockno = blockno with
  | some b => rfl
  | none =>
    show (match order.reverse.find? _ with | some b => _ | none => _) = _
    cases order.reverse.find? fun b => (s.node b).refcnt = 0 <;> rfl

/-- `bget` moves nothing. -/
theorem bget_links {dev blockno : BitVec 32} (run : s.bget dev blockno = .ok (b, t)) :
    t.links = s.links := by
  unfold bget at run
  cases first : find s.links.next (fun b => (s.node b).dev = dev ∧ (s.node b).blockno = blockno)
      (s.links.next none) with
  | error e =>
    rw [first] at run
    cases run
  | ok hit =>
    rw [first] at run
    cases hit with
    | some c =>
      cases run
      rfl
    | none =>
      cases second : find s.links.prev (fun b => (s.node b).refcnt = 0) (s.links.prev none) with
      | error e =>
        change (find s.links.prev (fun b => (s.node b).refcnt = 0) (s.links.prev none) >>= _) = _ at run
        rw [second] at run
        cases run
      | ok free =>
        change (find s.links.prev (fun b => (s.node b).refcnt = 0) (s.links.prev none) >>= _) = _ at run
        rw [second] at run
        cases free with
        | some c =>
          cases run
          rfl
        | none => cases run

/-- The first loop of `sync_all_buffers` moves nothing. -/
theorem collect_links (turns : Nat) (a : Option Idx) (syncList : List Idx) {l : List Idx}
    (run : s.collect turns a syncList = .ok (t, l)) : t.links = s.links := by
  induction turns generalizing s a syncList with
  | zero => cases run
  | succ turns ih =>
    cases a with
    | none =>
      cases run
      rfl
    | some b =>
      rw [collect] at run
      split at run
      · exact ih (s := s.addRef b) _ _ run
      · exact ih _ _ run

/-- It ends. -/
theorem collect_ends (turns : Nat) {front back : List Idx} (lists : Lists s.links order)
    (split : front ++ back = order) (enough : back.length < turns) (syncList : List Idx) :
    ∃ r, s.collect turns back.head? syncList = .ok r := by
  induction turns generalizing s front back syncList with
  | zero => omega
  | succ turns ih =>
    cases back with
    | nil => exact ⟨_, rfl⟩
    | cons b back =>
      have split' : (front ++ [b]) ++ back = order := by simpa using split
      have onward := lists.next _ _ split'
      rw [List.getLast?_concat] at onward
      rw [List.length_cons] at enough
      rw [List.head?_cons, collect]
      split
      · show ∃ r, (s.addRef b).collect turns (s.links.next (some b)) (syncList ++ [b]) = .ok r
        rw [onward]
        exact ih (s := s.addRef b) lists split' (by omega) _
      · rw [onward]
        exact ih lists split' (by omega) _

end Bcache

/-! ### Runs -/

/-- What holds between any two acts: the links are those of a list of all buffers, and the list is
in the order of the drops. -/
structure Inv {P : Type} (s : System P) (order : List Idx) : Prop where
  lists : Lists s.cache.links order
  all : ∀ b, b ∈ order
  recent : Recent s.drops order

section Invariant

variable {P : Type} {s : System P} {order : List Idx}

theorem Inv.length (inv : Inv s order) : order.length = NBUF := by
  have perm : order.Perm (List.finRange NBUF) := (List.perm_ext_iff_of_nodup inv.lists.nodup
    (List.nodup_finRange NBUF)).mpr fun b => iff_of_true (inv.all b) (List.mem_finRange b)
  rw [perm.length_eq, List.length_finRange]

theorem binit_inv (s : System P) : Inv s.binit (List.finRange NBUF).reverse :=
  ⟨Bcache.binit_lists s.cache, fun b => List.mem_reverse.mpr (List.mem_finRange b), recent_nil _⟩

/-- The end of `brelse` keeps the list in order. -/
theorem drop_inv (inv : Inv s order) (b : Idx) : ∃ order', Inv (s.drop b) order' := by
  have lists := Bcache.drop_lists inv.lists (inv.all b)
  obtain ⟨front, back, rfl⟩ := List.append_of_mem (inv.all b)
  have nodup := inv.lists.nodup
  by_cases zero : ((s.cache.drop b).node b).refcnt = 0
  · rw [if_pos zero, Bcache.moveToFront_eq nodup] at lists
    refine ⟨_, lists, fun c => ?_, ?_⟩
    · have known := inv.all c
      simp only [List.mem_append, List.mem_cons] at known ⊢
      tauto
    · show Recent (if _ then _ else _) _
      rw [if_pos zero]
      exact inv.recent.drop nodup
  · rw [if_neg zero] at lists
    refine ⟨_, lists, inv.all, ?_⟩
    show Recent (if _ then _ else _) _
    rw [if_neg zero]
    exact inv.recent

end Invariant

namespace System

variable {P : Type} [DecidableEq P] {s t : System P} {act : Act P} {order : List Idx}

/-- What an act does to the list: `binit` makes it anew, the end of `brelse` moves a buffer, and
nothing else touches it. -/
theorem step_cases (step : s.step act = some t) :
    (t.cache.links = s.cache.links ∧ t.drops = s.drops) ∨ t = s.binit ∨
      ∃ p b, t = (s.drop b).goto p .idle := by
  cases act with
  | binit => exact .inr (.inl (Option.some.inj step).symm)
  | bget p dev blockno =>
    simp only [System.step] at step
    split at step
    · next b cache _ run =>
      cases step
      exact .inl ⟨Bcache.bget_links run, rfl⟩
    · cases step
  | lock p =>
    simp only [System.step] at step
    split at step
    · split at step
      · cases step
        exact .inl ⟨rfl, rfl⟩
      · cases step
    · cases step
  | brelse p b =>
    simp only [System.step] at step
    split at step
    · cases step
      exact .inl ⟨rfl, rfl⟩
    · cases step
  | drop p =>
    simp only [System.step] at step
    split at step
    · next b _ =>
      cases step
      exact .inr (.inr ⟨p, b, rfl⟩)
    · cases step
  | bpin b =>
    cases step
    exact .inl ⟨rfl, rfl⟩
  | bunpin b =>
    cases step
    exact .inl ⟨rfl, rfl⟩
  | sync p =>
    simp only [System.step] at step
    split at step
    · next cache l _ run =>
      cases step
      exact .inl ⟨Bcache.collect_links _ _ _ run, rfl⟩
    · cases step
  | syncLock p =>
    simp only [System.step] at step
    split at step
    · cases step
      exact .inl ⟨rfl, rfl⟩
    · split at step
      · cases step
        exact .inl ⟨rfl, rfl⟩
      · cases step
    · cases step
  | syncUnlock p =>
    simp only [System.step] at step
    split at step
    · split at step
      · cases step
        exact .inl ⟨rfl, rfl⟩
      · cases step
    · cases step
  | syncUnpin p =>
    simp only [System.step] at step
    split at step
    · cases step
      exact .inl ⟨rfl, rfl⟩
    · cases step
  | flags b valid disk =>
    cases step
    exact .inl ⟨rfl, rfl⟩

theorem step_inv (inv : Inv s order) (step : s.step act = some t) : ∃ order', Inv t order' := by
  rcases step_cases step with ⟨links, drops⟩ | rfl | ⟨p, b, rfl⟩
  · exact ⟨order, links ▸ inv.lists, inv.all, drops ▸ inv.recent⟩
  · exact ⟨_, binit_inv s⟩
  · obtain ⟨order', inv'⟩ := drop_inv inv b
    exact ⟨order', inv'.lists, inv'.all, inv'.recent⟩

theorem reached_inv (reached : Reached s) : ∃ order, Inv s order := by
  induction reached with
  | start s => exact ⟨_, binit_inv s⟩
  | next act _ step ih =>
    obtain ⟨order, inv⟩ := ih
    exact step_inv inv step

end System

/-! ### What a miss takes -/

/-- Buffer `b` is free, and of the free buffers it is the one that was dropped first: any other was
dropped later, or none of them was ever dropped. -/
def LeastRecent {P : Type} (s : System P) (b : Idx) : Prop :=
  (s.cache.node b).refcnt = 0 ∧ ∀ c ≠ b, (s.cache.node c).refcnt = 0 →
    b ∈ s.drops → c ∈ s.drops ∧ s.drops.idxOf c < s.drops.idxOf b

/-- The outcome of `bget` for a block that is not in the cache: the buffer that was dropped first
gets it, and if no buffer is free, `bget` panics. -/
def Recycles {P : Type} (s : System P) (dev blockno : BitVec 32) : Prop :=
  match s.cache.bget dev blockno with
  | .ok (b, cache) => LeastRecent s b ∧ cache = s.cache.setNode b
      { s.cache.node b with dev, blockno, valid := false, refcnt := 1 }
  | .error e => e = .panic "bget: no buffers" ∧ ∀ b, (s.cache.node b).refcnt ≠ 0

section Misses

variable {P : Type} {s : System P} {order : List Idx}

/-- Of a list in the order of drops, the free buffer nearest to the end. -/
theorem last_free (inv : Inv s order) {b : Idx}
    (found : order.reverse.find? (fun b => (s.cache.node b).refcnt = 0) = some b) :
    LeastRecent s b := by
  obtain ⟨free, behind, front, split, used⟩ := List.find?_eq_some_iff_append.mp found
  have is : order = front.reverse ++ b :: behind.reverse := by
    rw [← List.reverse_reverse order, split]
    simp
  refine ⟨of_decide_eq_true free, fun c other free' dropped => ?_⟩
  have inside := inv.all c
  have recent := inv.recent
  rw [is] at inside recent
  rcases List.mem_append.mp inside with before | after
  · exact (List.pairwise_append.mp recent).2.2 c before b List.mem_cons_self dropped
  · rcases List.mem_cons.mp after with same | after
    · exact absurd same other
    · have busy := used c (List.mem_reverse.mp after)
      rw [decide_eq_true free'] at busy
      cases busy

theorem recycles (inv : Inv s order) (short : order.length ≤ NBUF) {dev blockno : BitVec 32}
    (miss : ∀ b, ¬ ((s.cache.node b).dev = dev ∧ (s.cache.node b).blockno = blockno)) :
    Recycles s dev blockno := by
  have absent : order.find? (fun b =>
      (s.cache.node b).dev = dev ∧ (s.cache.node b).blockno = blockno) = none :=
    List.find?_eq_none.mpr fun b _ => by simpa using miss b
  unfold Recycles
  rw [Bcache.bget_eq inv.lists short, absent]
  dsimp only
  cases found : order.reverse.find? fun b => (s.cache.node b).refcnt = 0 with
  | some b => exact ⟨last_free inv found, rfl⟩
  | none =>
    refine ⟨rfl, fun b => ?_⟩
    simpa using List.find?_eq_none.mp found b (List.mem_reverse.mpr (inv.all b))

end Misses

/-- Wherever a run has led, the list is a circle through all buffers and the head, in the order in
which `brelse` has dropped them; the loops over it end, and a miss takes the free buffer that was
dropped first. -/
theorem buffers_in_release_order {P : Type} [DecidableEq P] {s : System P} (reached : Reached s) :
    ∃ order : List Idx, order.Nodup ∧ (∀ b, b ∈ order) ∧
      (∀ k < NBUF, s.cache.links.next^[k + 1] none = order[k]?) ∧
      s.cache.links.next^[NBUF + 1] none = none ∧
      (∀ a, s.cache.links.prev (s.cache.links.next a) = a ∧
        s.cache.links.next (s.cache.links.prev a) = a) ∧
      order.Pairwise (fun i j =>
        j ∈ s.drops → i ∈ s.drops ∧ s.drops.idxOf i < s.drops.idxOf j) ∧
      (∃ r, s.cache.collect TURNS (s.cache.links.next none) [] = .ok r) ∧
      ∀ dev blockno, s.cache.bget dev blockno ≠ .error .endless ∧
        ((∀ b, ¬ ((s.cache.node b).dev = dev ∧ (s.cache.node b).blockno = blockno)) →
          Recycles s dev blockno) := by
  obtain ⟨order, inv⟩ := System.reached_inv reached
  have length := inv.length
  have lists := inv.lists
  refine ⟨order, lists.nodup, inv.all, fun k inside => ?_, ?_, fun a => ?_, inv.recent, ?_,
    fun dev blockno => ⟨?_, recycles inv length.le⟩⟩
  · rw [lists.iterate (by omega), List.take_add_one, List.getElem?_eq_getElem (by omega),
      Option.toList_some, List.getLast?_concat]
  · rw [Function.iterate_succ_apply', lists.iterate length.ge]
    exact lists.next _ [] (by rw [← length, List.take_length, List.append_nil])
  · exact lists.inverse fun b _ => inv.all b
  · have first := lists.next [] order rfl
    rw [List.getLast?_nil] at first
    rw [first]
    exact Bcache.collect_ends TURNS lists (List.nil_append _) (by rw [length]; decide) []
  · rw [Bcache.bget_eq lists length.le]
    split
    · nofun
    · split <;> nofun

/-- A process reads a block and releases its buffer. -/
theorem buffers_in_release_order_sample : ∃ s : System Unit, s.drops = [0] ∧
    ∃ order : List Idx, order.Nodup ∧ (∀ b, b ∈ order) ∧
      (∀ k < NBUF, s.cache.links.next^[k + 1] none = order[k]?) ∧
      s.cache.links.next^[NBUF + 1] none = none ∧
      (∀ a, s.cache.links.prev (s.cache.links.next a) = a ∧
        s.cache.links.next (s.cache.links.prev a) = a) ∧
      order.Pairwise (fun i j =>
        j ∈ s.drops → i ∈ s.drops ∧ s.drops.idxOf i < s.drops.idxOf j) ∧
      (∃ r, s.cache.collect TURNS (s.cache.links.next none) [] = .ok r) ∧
      ∀ dev blockno, s.cache.bget dev blockno ≠ .error .endless ∧
        ((∀ b, ¬ ((s.cache.node b).dev = dev ∧ (s.cache.node b).blockno = blockno)) →
          Recycles s dev blockno) := by
  let boot : System Unit := {
    cache := ⟨⟨fun _ => none, fun _ => none⟩, fun _ => ⟨false, false, 0, 0, 0, none⟩⟩
    doing := fun _ => .idle
    drops := [] }
  have run : (boot.binit.run [.bget () 1 5, .lock (), .brelse () 0, .drop ()]).map System.drops =
      some [0] := by decide +kernel
  obtain ⟨s, run, drops⟩ := Option.map_eq_some_iff.mp run
  exact ⟨s, drops, buffers_in_release_order (reached_run (.start boot) run)⟩

end Xv6Lab.Bio.Recency

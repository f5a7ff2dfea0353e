import Xv6Lab.Bio.Cache
import Xv6Lab.Lib.Transition

/-! Coherence of the buffer cache: one copy of each block, counts that match the users, and logged
blocks that stay in the cache until they are installed. -/

namespace Xv6Lab.Bio

open Log (Block)
open Relation

variable {P : Type}

/-- The buffer carries block `b` of the disk. -/
def Buf.Key (buf : Buf P) (b : Nat) : Prop := buf.dev = ROOTDEV ∧ buf.blockno = b

instance (buf : Buf P) (b : Nat) : Decidable (buf.Key b) := inferInstanceAs (Decidable (_ ∧ _))

/-- The blocks of the transaction that `install_trans` is done with. -/
def Stage.installed : Stage → Nat
  | .installTrans tail | .installDest tail _ | .installCopy tail _ _ | .installUnpin tail _ _ => tail
  | .installFree tail _ _ | .installLast tail _ _ | .installNext tail _ => tail + 1
  | _ => 0

namespace Sys

def installed (s : Sys P) : Nat :=
  match s.commit with
  | some (_, stage) => stage.installed
  | none => 0

/-- The blocks of the log that are not yet installed. -/
def pending (s : Sys P) : List Nat := s.lh.drop s.installed

/-- The pin that `log_write` has left on buffer `i`. -/
def logPin (s : Sys P) (i : Idx) : Nat :=
  if (s.cache.buf i).dev = ROOTDEV ∧ (s.cache.buf i).blockno ∈ s.pending then 1 else 0

end Sys

structure Coherent (s : Sys P) : Prop where
  alone : ∀ i j b, (s.cache.buf i).Key b → (s.cache.buf j).Key b → i = j
  counted : ∀ i, (s.cache.buf i).refcnt = (s.cache.buf i).users + s.logPin i
  pinned : ∀ b ∈ s.pending, ∃ i, (s.cache.buf i).Key b ∧ (s.cache.buf i).valid = true ∧
    1 ≤ (s.cache.buf i).refcnt
  current : ∀ i, (s.cache.buf i).valid = true → (s.cache.buf i).dev = ROOTDEV →
    (s.cache.buf i).data = s.last (s.cache.buf i).blockno

/-- The invariant of the cache and the log. -/
structure Inv (s : Sys P) : Prop where
  order : ∀ i, i ∈ s.cache.order
  alone : ∀ i j b, (s.cache.buf i).Key b → (s.cache.buf j).Key b → i = j
  rooted : ∀ i, (s.cache.buf i).refcnt ≠ 0 ∨ (s.cache.buf i).valid = true →
    (s.cache.buf i).dev = ROOTDEV
  counted : ∀ i, (s.cache.buf i).refcnt = (s.cache.buf i).users + s.logPin i
  pinned : ∀ b ∈ s.pending, ∃ i, (s.cache.buf i).Key b ∧ (s.cache.buf i).valid = true
  nodup : s.lh.Nodup
  current : ∀ i, (s.cache.buf i).valid = true →
    (s.cache.buf i).data = s.last (s.cache.buf i).blockno
  clean : ∀ b, b ∉ s.pending → s.disk b = s.last b
  outstanding : s.outstanding = s.opened.length
  committing : s.committing = s.commit.isSome
  quiet : s.commit ≠ none → s.opened = []

/-- What the process that commits knows of the block it installs. -/
def AtStage (s : Sys P) : Option (P × Stage) → Prop
  | some (p, .installCopy tail _ dbuf) =>
    (∃ b, s.lh[tail]? = some b ∧ (s.cache.buf dbuf).Key b) ∧
      (p ∈ (s.cache.buf dbuf).waiting ∨ (s.cache.buf dbuf).holder = some p)
  | some (p, .installUnpin tail _ dbuf) =>
    (∃ b, s.lh[tail]? = some b ∧ (s.cache.buf dbuf).Key b ∧ s.disk b = s.last b) ∧ s.Has p dbuf
  | _ => True

variable {s t : Sys P} {i j : Idx} {p q : P} {b : Nat} {data : Block}

theorem Inv.coherent (h : Inv s) : Coherent s where
  alone := h.alone
  counted := h.counted
  pinned b inside := by
    obtain ⟨i, key, valid⟩ := h.pinned b inside
    have count := h.counted i
    have one : s.logPin i = 1 := if_pos ⟨key.1, key.2.symm ▸ inside⟩
    exact ⟨i, key, valid, by omega⟩
  current i valid _ := h.current i valid

theorem Inv.initial (initial : Initial s) : Inv s := by
  have pending : s.pending = [] := by rw [Sys.pending, initial.lh, List.drop_nil]
  refine ⟨fun i => ?_, fun i j b a c => ?_, fun i used => ?_, fun i => ?_, ?_, ?_, fun i valid => ?_,
    fun b _ => ?_, ?_, ?_, ?_⟩
  · exact initial.order.mem_iff.mpr (List.mem_finRange i)
  · exact initial.alone i j a.1 c.1 (a.2.trans c.2.symm)
  · rcases used with counted | valid
    · exact absurd (initial.refcnt i) counted
    · exact (initial.clean i valid).1
  · rw [initial.refcnt, initial.users, Sys.logPin, pending]
    simp
  · simp [pending]
  · simp [initial.lh]
  · rw [initial.last]
    exact (initial.clean i valid).2
  · rw [initial.last]
  · rw [initial.outstanding, initial.opened]
    rfl
  · rw [initial.committing, initial.commit]
    rfl
  · exact fun busy => absurd initial.commit busy

/-! ### Events that leave keys and contents alone -/

/-- The buffer `b'` differs from `b` in its users and its count only, and in both by as much. -/
structure Buf.Moved (b b' : Buf P) : Prop where
  dev : b'.dev = b.dev
  blockno : b'.blockno = b.blockno
  valid : b'.valid = b.valid
  data : b'.data = b.data
  counted : b'.refcnt + b.users = b.refcnt + b'.users
  rooted : b'.refcnt ≠ 0 → b.refcnt ≠ 0 ∨ b.dev = ROOTDEV

theorem Inv.moved (h : Inv s) {b' : Buf P} {order : List Idx} (moved : (s.cache.buf i).Moved b')
    (complete : ∀ j, j ∈ order) : Inv (s.setCache { s.cache.set i b' with order }) := by
  set t := s.setCache { s.cache.set i b' with order } with is
  have self : t.cache.buf i = b' := Function.update_self ..
  have others : ∀ j ≠ i, t.cache.buf j = s.cache.buf j := fun j other => Function.update_of_ne other ..
  have dev : ∀ j, (t.cache.buf j).dev = (s.cache.buf j).dev := Buf.update_kept Buf.dev moved.dev
  have blockno : ∀ j, (t.cache.buf j).blockno = (s.cache.buf j).blockno :=
    Buf.update_kept Buf.blockno moved.blockno
  have valid : ∀ j, (t.cache.buf j).valid = (s.cache.buf j).valid :=
    Buf.update_kept Buf.valid moved.valid
  have data : ∀ j, (t.cache.buf j).data = (s.cache.buf j).data := Buf.update_kept Buf.data moved.data
  have key : ∀ j b, (t.cache.buf j).Key b ↔ (s.cache.buf j).Key b := by
    intro j b
    rw [Buf.Key, Buf.Key, dev, blockno]
  have pin : ∀ j, t.logPin j = s.logPin j := by
    intro j
    rw [Sys.logPin, Sys.logPin, dev, blockno]
    rfl
  refine ⟨complete, fun j k b a c => h.alone j k b ((key j b).mp a) ((key k b).mp c),
    fun j used => ?_, fun j => ?_, fun b inside => ?_, h.nodup, fun j is_valid => ?_, h.clean,
    h.outstanding, h.committing, h.quiet⟩
  · rw [dev]
    rcases used with counted | is_valid
    · by_cases here : j = i
      · subst here
        rw [self] at counted
        rcases moved.rooted counted with before | root
        · exact h.rooted j (.inl before)
        · exact root
      · rw [others j here] at counted
        exact h.rooted j (.inl counted)
    · rw [valid] at is_valid
      exact h.rooted j (.inr is_valid)
  · rw [pin]
    have before := h.counted j
    by_cases here : j = i
    · subst here
      have same := moved.counted
      rw [self]
      omega
    · rw [others j here]
      exact before
  · obtain ⟨j, is_key, is_valid⟩ := h.pinned b inside
    exact ⟨j, (key j b).mpr is_key, (valid j).trans is_valid⟩
  · rw [valid] at is_valid
    rw [blockno, data]
    exact h.current j is_valid

theorem Inv.set (h : Inv s) {b' : Buf P} (moved : (s.cache.buf i).Moved b') :
    Inv (s.setCache (s.cache.set i b')) :=
  h.moved moved h.order

theorem Inv.hit (h : Inv s) (p : P) (key : (s.cache.buf i).dev = ROOTDEV) :
    Inv (s.setCache (s.cache.hit p i)) := by
  refine h.set ⟨rfl, rfl, rfl, rfl, ?_, fun _ => .inr key⟩
  simp only [Buf.users, List.length_cons]
  omega

/-- A process that uses a buffer is counted. -/
theorem Inv.refcnt_pos (h : Inv s) (used : (s.cache.buf i).users ≠ 0) :
    (s.cache.buf i).refcnt ≠ 0 := by
  have := h.counted i
  omega

theorem Inv.unlock (h : Inv s) (p : P) (held : (s.cache.buf i).holder = some q) :
    Inv (s.setCache (s.cache.unlock p i)) := by
  refine h.set ⟨rfl, rfl, rfl, rfl, ?_, .inl⟩
  simp only [Buf.users, held, Option.toList_some, Option.toList_none, List.length_nil,
    List.length_cons]
  omega

theorem Inv.bpin (h : Inv s) (p : P) (root : (s.cache.buf i).dev = ROOTDEV) :
    Inv (s.setCache (s.cache.bpin p i)) := by
  refine h.set ⟨rfl, rfl, rfl, rfl, ?_, fun _ => .inr root⟩
  simp only [Buf.users, List.length_cons]
  omega

section Users

variable [DecidableEq P]

theorem Inv.lock (h : Inv s) (inside : p ∈ (s.cache.buf i).waiting)
    (free : (s.cache.buf i).holder = none) : Inv (s.setCache (s.cache.lock p i)) := by
  refine h.set ⟨rfl, rfl, rfl, rfl, ?_, .inl⟩
  have one := List.length_pos_of_mem inside
  simp only [Buf.users, List.length_erase_of_mem inside, free, Option.toList_some,
    Option.toList_none, List.length_singleton, List.length_nil]
  omega

theorem mem_moveToFront (order : List Idx) (i j : Idx) (inside : j ∈ order) :
    j ∈ Cache.moveToFront i order := by
  unfold Cache.moveToFront
  split
  · exact inside
  · by_cases here : j = i
    · rw [here]
      exact List.mem_cons_self
    · exact List.mem_cons_of_mem _ ((List.mem_erase_of_ne here).mpr inside)

theorem Inv.unref (h : Inv s) (inside : p ∈ (s.cache.buf i).leaving) :
    Inv (s.setCache (s.cache.unref p i)) := by
  have one := List.length_pos_of_mem inside
  have count := h.counted i
  refine h.moved ⟨rfl, rfl, rfl, rfl, ?_, fun more => .inl (by simp only at more; omega)⟩ fun j => ?_
  · simp only [Buf.users, List.length_erase_of_mem inside] at count ⊢
    omega
  · split
    · exact mem_moveToFront _ i j (h.order j)
    · exact h.order j

theorem Inv.bunpin (h : Inv s) (inside : p ∈ (s.cache.buf i).pins) :
    Inv (s.setCache (s.cache.bunpin p i)) := by
  have one := List.length_pos_of_mem inside
  have count := h.counted i
  refine h.set ⟨rfl, rfl, rfl, rfl, ?_, fun more => .inl (by simp only at more; omega)⟩
  simp only [Buf.users, List.length_erase_of_mem inside] at count ⊢
  omega

end Users

/-! ### Misses and fills -/

theorem lookup_some (found : s.cache.lookup ROOTDEV b = some i) : (s.cache.buf i).Key b := by
  simpa [Buf.Key] using List.find?_some found

theorem Inv.lookup_none (h : Inv s) (missing : s.cache.lookup ROOTDEV b = none) (i : Idx) :
    ¬ (s.cache.buf i).Key b := by
  have none := List.find?_eq_none.mp missing i (h.order i)
  simpa [Buf.Key] using none

/-- A buffer without references is free of users and of the log's pin. -/
theorem Inv.unused (h : Inv s) (free : (s.cache.buf i).refcnt = 0) :
    (s.cache.buf i).users = 0 ∧ s.logPin i = 0 := by
  have := h.counted i
  omega

theorem Inv.recycle (h : Inv s) (p : P) (missing : s.cache.lookup ROOTDEV b = none)
    (found : s.cache.victim = some i) : Inv (s.setCache (s.cache.recycle p ROOTDEV b i)) := by
  have free : (s.cache.buf i).refcnt = 0 := by simpa using List.find?_some found
  obtain ⟨none, unpinned⟩ := h.unused free
  set t := s.setCache (s.cache.recycle p ROOTDEV b i) with is
  have others : ∀ j ≠ i, t.cache.buf j = s.cache.buf j := fun j other => Function.update_of_ne other ..
  have self : t.cache.buf i = { s.cache.buf i with
      dev := ROOTDEV, blockno := b, valid := false, refcnt := 1,
      waiting := p :: (s.cache.buf i).waiting } := Function.update_self ..
  -- the blocks of the log are in buffers that are counted
  have outside : b ∉ s.pending := by
    intro inside
    obtain ⟨j, key, -⟩ := h.pinned b inside
    exact h.lookup_none missing j key
  refine ⟨h.order, fun j k c a d => ?_, fun j used => ?_, fun j => ?_, fun c inside => ?_, h.nodup,
    fun j valid => ?_, h.clean, h.outstanding, h.committing, h.quiet⟩
  · by_cases hj : j = i <;> by_cases hk : k = i
    · rw [hj, hk]
    · rw [hj, self] at a
      rw [others k hk] at d
      obtain rfl : b = c := a.2
      exact absurd d (h.lookup_none missing k)
    · rw [hk, self] at d
      rw [others j hj] at a
      obtain rfl : b = c := d.2
      exact absurd a (h.lookup_none missing j)
    · rw [others j hj] at a
      rw [others k hk] at d
      exact h.alone j k c a d
  · by_cases here : j = i
    · rw [here, self]
    · rw [others j here] at used ⊢
      exact h.rooted j used
  · by_cases here : j = i
    · have pin : t.logPin i = 0 := by
        rw [Sys.logPin, self]
        exact if_neg fun is_pending => outside is_pending.2
      rw [here, pin, self]
      simp only [Buf.users, List.length_cons] at none ⊢
      omega
    · have pin : t.logPin j = s.logPin j := by
        rw [Sys.logPin, Sys.logPin, others j here]
        rfl
      rw [pin, others j here]
      exact h.counted j
  · obtain ⟨j, key, valid⟩ := h.pinned c inside
    have other : j ≠ i := by
      rintro rfl
      have pin : s.logPin j = 1 := if_pos ⟨key.1, key.2.symm ▸ inside⟩
      omega
    exact ⟨j, by rwa [others j other], by rwa [others j other]⟩
  · have other : j ≠ i := by
      rintro rfl
      rw [self] at valid
      cases valid
    rw [others j other] at valid ⊢
    exact h.current j valid

/-! ### Events that change contents -/

/-- Buffer `i` gets new contents, and with it the block it carries. -/
theorem Inv.refresh (h : Inv s) (b' : Buf P) (disk last : Nat → Block)
    (dev : b'.dev = (s.cache.buf i).dev) (blockno : b'.blockno = (s.cache.buf i).blockno)
    (refcnt : b'.refcnt = (s.cache.buf i).refcnt) (users : b'.users = (s.cache.buf i).users)
    (valid : b'.valid = true) (root : (s.cache.buf i).dev = ROOTDEV)
    (agrees : b'.data = last (s.cache.buf i).blockno)
    (kept : ∀ c ≠ (s.cache.buf i).blockno, last c = s.last c)
    (clean : ∀ c, c ∉ s.pending → disk c = last c) :
    Inv { s with cache := s.cache.set i b', disk, last } := by
  set t : Sys P := { s with cache := s.cache.set i b', disk, last } with is
  have self : t.cache.buf i = b' := Function.update_self ..
  have others : ∀ j ≠ i, t.cache.buf j = s.cache.buf j := fun j other => Function.update_of_ne other ..
  have key : ∀ j c, (t.cache.buf j).Key c ↔ (s.cache.buf j).Key c := fun j c =>
    iff_of_eq (Buf.update_kept (Buf.Key · c) (by rw [Buf.Key, Buf.Key, dev, blockno]) j)
  refine ⟨h.order, fun j k c a d => h.alone j k c ((key j c).mp a) ((key k c).mp d),
    fun j used => ?_, fun j => ?_, fun c inside => ?_, h.nodup, fun j is_valid => ?_, clean,
    h.outstanding, h.committing, h.quiet⟩
  · by_cases here : j = i
    · rw [here, self, dev, root]
    · rw [others j here] at used ⊢
      exact h.rooted j used
  · by_cases here : j = i
    · have pin : t.logPin i = s.logPin i := by
        rw [Sys.logPin, Sys.logPin, self, dev, blockno]
        rfl
      rw [here, pin, self, refcnt, users]
      exact h.counted i
    · have pin : t.logPin j = s.logPin j := by
        rw [Sys.logPin, Sys.logPin, others j here]
        rfl
      rw [pin, others j here]
      exact h.counted j
  · obtain ⟨j, is_key, is_valid⟩ := h.pinned c inside
    refine ⟨j, (key j c).mpr is_key, ?_⟩
    by_cases here : j = i
    · rw [here, self, valid]
    · rwa [others j here]
  · by_cases here : j = i
    · rw [here, self, blockno]
      exact agrees
    · rw [others j here] at is_valid ⊢
      have apart : (s.cache.buf j).blockno ≠ (s.cache.buf i).blockno := by
        intro same
        exact here (h.alone j i _ ⟨h.rooted j (.inr is_valid), same⟩ ⟨root, rfl⟩)
      show (s.cache.buf j).data = last _
      rw [kept _ apart]
      exact h.current j is_valid

theorem Inv.fill (h : Inv s) (held : (s.cache.buf i).holder = some p)
    (invalid : (s.cache.buf i).valid = false) :
    Inv (s.setCache (s.cache.fill i (s.disk (s.cache.buf i).blockno))) := by
  have used : (s.cache.buf i).users ≠ 0 := by simp [Buf.users, held]
  have root := h.rooted i (.inl (h.refcnt_pos used))
  -- a block of the log has a valid buffer, and this one is the only one
  have outside : (s.cache.buf i).blockno ∉ s.pending := by
    intro inside
    obtain ⟨j, key, valid⟩ := h.pinned _ inside
    rw [h.alone j i _ key ⟨root, rfl⟩, invalid] at valid
    cases valid
  exact h.refresh _ s.disk s.last rfl rfl rfl rfl rfl root (h.clean _ outside) (fun _ _ => rfl)
    h.clean

theorem Inv.write (h : Inv s) (valid : (s.cache.buf i).valid = true) (data : Block) :
    Inv (s.write i data) := by
  refine h.refresh _ _ _ rfl rfl rfl rfl valid (h.rooted i (.inr valid)) ?_ (fun c other => ?_)
    fun c outside => ?_
  · rw [Function.update_self]
  · rw [Function.update_of_ne other]
  · by_cases here : c = (s.cache.buf i).blockno
    · rw [here, Function.update_self, Function.update_self]
    · rw [Function.update_of_ne here, Function.update_of_ne here]
      exact h.clean c outside

/-- The log takes a block that it does not have yet. -/
theorem Inv.pin (h : Inv s) (valid : (s.cache.buf i).valid = true) (idle : s.commit = none)
    (new : (s.cache.buf i).blockno ∉ s.lh) :
    Inv { s with cache := s.cache.pinForLog i, lh := s.lh ++ [(s.cache.buf i).blockno] } := by
  have root := h.rooted i (.inr valid)
  set t : Sys P := { s with cache := s.cache.pinForLog i, lh := s.lh ++ [(s.cache.buf i).blockno] }
    with is
  have pending : s.pending = s.lh := by simp [Sys.pending, Sys.installed, idle]
  have pending' : t.pending = s.lh ++ [(s.cache.buf i).blockno] := by
    simp [Sys.pending, Sys.installed, idle, is]
  have self : t.cache.buf i = { s.cache.buf i with refcnt := (s.cache.buf i).refcnt + 1 } :=
    Function.update_self ..
  have others : ∀ j ≠ i, t.cache.buf j = s.cache.buf j := fun j other => Function.update_of_ne other ..
  have key : ∀ j c, (t.cache.buf j).Key c ↔ (s.cache.buf j).Key c := fun j c =>
    iff_of_eq (Buf.update_kept (Buf.Key · c) (by rfl) j)
  have same_valid : ∀ j, (t.cache.buf j).valid = (s.cache.buf j).valid :=
    Buf.update_kept Buf.valid (by rfl)
  refine ⟨h.order, fun j k c a d => h.alone j k c ((key j c).mp a) ((key k c).mp d),
    fun j used => ?_, fun j => ?_, fun c inside => ?_, ?_, fun j is_valid => ?_, fun c outside => ?_,
    h.outstanding, h.committing, h.quiet⟩
  · by_cases here : j = i
    · rw [here, self]
      exact root
    · rw [others j here] at used ⊢
      exact h.rooted j used
  · have before := h.counted j
    by_cases here : j = i
    · subst here
      have unpinned : s.logPin j = 0 := if_neg fun is_pending => new (pending ▸ is_pending.2)
      have pinned : t.logPin j = 1 := by
        rw [Sys.logPin, pending', self]
        exact if_pos ⟨root, List.mem_append_right _ List.mem_cons_self⟩
      rw [pinned, self]
      show (s.cache.buf j).refcnt + 1 = (s.cache.buf j).users + 1
      omega
    · have pin : t.logPin j = s.logPin j := by
        rw [Sys.logPin, Sys.logPin, others j here, pending', pending]
        refine if_congr (and_congr_right fun dev => ?_) rfl rfl
        rw [List.mem_append, List.mem_singleton]
        refine or_iff_left fun same => here (h.alone j i _ ⟨dev, same⟩ ⟨root, rfl⟩)
      rw [pin, others j here]
      exact before
  · rw [pending'] at inside
    rcases List.mem_append.mp inside with old | fresh
    · obtain ⟨j, is_key, is_valid⟩ := h.pinned c (pending ▸ old)
      exact ⟨j, (key j c).mpr is_key, (same_valid j).trans is_valid⟩
    · rw [List.mem_singleton] at fresh
      exact ⟨i, (key i c).mpr ⟨root, fresh.symm⟩, (same_valid i).trans valid⟩
  · rw [List.nodup_append]
    refine ⟨h.nodup, List.pairwise_singleton _ _, fun c inside d there => ?_⟩
    rw [List.mem_singleton] at there
    rintro rfl
    exact new (there ▸ inside)
  · rw [same_valid] at is_valid
    have before := h.current j is_valid
    by_cases here : j = i
    · subst here
      rw [self]
      exact before
    · rw [others j here]
      exact before
  · rw [pending'] at outside
    exact h.clean c fun inside => outside (List.mem_append_left _ (pending ▸ inside))

theorem Inv.logWrite (h : Inv s) (op : Nat) (valid : (s.cache.buf i).valid = true)
    (idle : s.commit = none) (data : Block) : Inv (s.logWrite op i data) := by
  have root := h.rooted i (.inr valid)
  -- the log's own fields are not in the invariant's way
  have write : ∀ u : Sys P, Inv u → u.commit = none → (u.cache.buf i).valid = true →
      (u.cache.buf i).blockno ∈ u.lh → (u.cache.buf i).dev = ROOTDEV →
      Inv { u with
        cache := u.cache.store i data
        last := Function.update u.last (u.cache.buf i).blockno data
        writes := u.writes ++ [(op, (u.cache.buf i).blockno)] } := by
    intro u hu none is_valid inside dev
    have pending : u.pending = u.lh := by simp [Sys.pending, Sys.installed, none]
    have fresh := hu.refresh { u.cache.buf i with data } u.disk
      (Function.update u.last (u.cache.buf i).blockno data) rfl rfl rfl rfl is_valid dev
      (by rw [Function.update_self]) (fun c other => Function.update_of_ne other ..)
      (fun c outside => by
        have other : c ≠ (u.cache.buf i).blockno := by
          rintro rfl
          exact outside (pending ▸ inside)
        rw [Function.update_of_ne other]
        exact hu.clean c outside)
    exact ⟨fresh.order, fresh.alone, fresh.rooted, fresh.counted, fresh.pinned, fresh.nodup,
      fresh.current, fresh.clean, fresh.outstanding, fresh.committing, fresh.quiet⟩
  unfold Sys.logWrite
  by_cases absorbed : (s.cache.buf i).blockno ∈ s.lh
  · simp only [if_pos absorbed]
    exact write s h idle valid absorbed root
  · simp only [if_neg absorbed]
    have pinned := h.pin valid idle absorbed
    have same : (s.cache.pinForLog i).buf i =
        { s.cache.buf i with refcnt := (s.cache.buf i).refcnt + 1 } := Function.update_self ..
    have done := write _ pinned idle (by rw [same]; exact valid)
      (by rw [same]; exact List.mem_append_right _ List.mem_cons_self) (by rw [same]; exact root)
    have swap : (s.cache.pinForLog i).store i data = (s.cache.store i data).pinForLog i := by
      simp [Cache.store, Cache.pinForLog, Cache.set]
    simp only [swap, same] at done
    exact done

/-! ### Steps of the commit -/

/-- The cache, the disk and the blocks to install are the same. -/
theorem Inv.relabel (h : Inv s) (cache : t.cache = s.cache) (disk : t.disk = s.disk)
    (last : t.last = s.last) (nodup : t.lh.Nodup) (pending : t.pending = s.pending)
    (outstanding : t.outstanding = t.opened.length) (committing : t.committing = t.commit.isSome)
    (quiet : t.commit ≠ none → t.opened = []) : Inv t := by
  have pin : ∀ i, t.logPin i = s.logPin i := by
    intro i
    rw [Sys.logPin, Sys.logPin, pending, cache]
  refine ⟨?_, ?_, ?_, fun i => ?_, ?_, nodup, ?_, ?_, outstanding, committing, quiet⟩
  · rw [cache]
    exact h.order
  · rw [cache]
    exact h.alone
  · rw [cache]
    exact h.rooted
  · rw [pin, cache]
    exact h.counted i
  · rw [cache, pending]
    exact h.pinned
  · rw [cache, last]
    exact h.current
  · rw [disk, last, pending]
    exact h.clean

theorem Inv.busy (h : Inv s) {stage : Stage} (was : s.commit = some (p, stage)) :
    s.committing = true := by
  rw [h.committing, was]
  rfl

/-- The process that commits goes on, with as many blocks installed. -/
theorem Inv.goto (h : Inv s) {stage stage' : Stage} (was : s.commit = some (p, stage))
    (same : stage'.installed = stage.installed) : Inv (s.goto p stage') := by
  refine h.relabel rfl rfl rfl h.nodup ?_ h.outstanding (h.busy was) fun _ => h.quiet (by simp [was])
  simp [Sys.pending, Sys.installed, Sys.goto, was, same]

/-- `install_trans` gives up the pin of the block that it has written. -/
theorem Inv.unpin (h : Inv s) {tail : Nat} {lbuf dbuf : Idx}
    (was : s.commit = some (p, .installUnpin tail lbuf dbuf)) (entry : s.lh[tail]? = some b)
    (key : (s.cache.buf dbuf).Key b) (written : s.disk b = s.last b) :
    Inv ((s.setCache (s.cache.unpinForLog dbuf)).goto p (.installFree tail lbuf dbuf)) := by
  set t := (s.setCache (s.cache.unpinForLog dbuf)).goto p (.installFree tail lbuf dbuf) with is
  have pending : s.pending = b :: t.pending := by
    obtain ⟨inside, rfl⟩ := List.getElem?_eq_some_iff.mp entry
    simp [Sys.pending, Sys.installed, was, is, Sys.goto, Sys.setCache, Stage.installed]
  have distinct : b ∉ t.pending := by
    have nodup : s.pending.Nodup := h.nodup.sublist (List.drop_sublist ..)
    rw [pending] at nodup
    exact (List.nodup_cons.mp nodup).1
  have self : t.cache.buf dbuf =
      { s.cache.buf dbuf with refcnt := (s.cache.buf dbuf).refcnt - 1 } := Function.update_self ..
  have others : ∀ j ≠ dbuf, t.cache.buf j = s.cache.buf j :=
    fun j other => Function.update_of_ne other ..
  have same : ∀ j, (t.cache.buf j).dev = (s.cache.buf j).dev ∧
      (t.cache.buf j).blockno = (s.cache.buf j).blockno ∧
      (t.cache.buf j).valid = (s.cache.buf j).valid ∧
      (t.cache.buf j).data = (s.cache.buf j).data := fun j =>
    ⟨Buf.update_kept Buf.dev (by rfl) j, Buf.update_kept Buf.blockno (by rfl) j,
      Buf.update_kept Buf.valid (by rfl) j, Buf.update_kept Buf.data (by rfl) j⟩
  have keys : ∀ j c, (t.cache.buf j).Key c ↔ (s.cache.buf j).Key c := by
    intro j c
    rw [Buf.Key, Buf.Key, (same j).1, (same j).2.1]
  refine ⟨h.order, fun j k c a d => h.alone j k c ((keys j c).mp a) ((keys k c).mp d),
    fun j used => ?_, fun j => ?_, fun c inside => ?_, h.nodup, fun j valid => ?_,
    fun c outside => ?_, h.outstanding, ?_, fun _ => h.quiet (by simp [was])⟩
  · rw [(same j).1]
    refine h.rooted j (used.imp (fun counted => ?_) fun valid => ?_)
    · by_cases here : j = dbuf
      · subst here
        rw [self] at counted
        simp only at counted
        omega
      · rwa [others j here] at counted
    · rwa [(same j).2.2.1] at valid
  · have before := h.counted j
    by_cases here : j = dbuf
    · subst here
      have pinned : s.logPin j = 1 := by
        refine if_pos ⟨key.1, ?_⟩
        rw [pending, key.2]
        exact List.mem_cons_self
      have unpinned : t.logPin j = 0 := by
        refine if_neg fun is_pending => distinct ?_
        rw [← key.2, ← (same j).2.1]
        exact is_pending.2
      rw [unpinned, self]
      show (s.cache.buf j).refcnt - 1 = (s.cache.buf j).users + 0
      omega
    · have pin : t.logPin j = s.logPin j := by
        rw [Sys.logPin, Sys.logPin, others j here, pending]
        refine if_congr (and_congr_right fun dev => ?_) rfl rfl
        rw [List.mem_cons]
        exact (or_iff_right fun is_b => here (h.alone j dbuf b ⟨dev, is_b⟩ key)).symm
      rw [pin, others j here]
      exact before
  · obtain ⟨j, is_key, valid⟩ := h.pinned c (pending ▸ List.mem_cons_of_mem b inside)
    exact ⟨j, (keys j c).mpr is_key, (same j).2.2.1.trans valid⟩
  · rw [(same j).2.2.1] at valid
    rw [(same j).2.2.2, (same j).2.1]
    exact h.current j valid
  · by_cases here : c = b
    · rw [here]
      exact written
    · refine h.clean c fun inside => outside ?_
      rw [pending] at inside
      exact (List.mem_cons.mp inside).resolve_left here
  · show s.committing = true
    rw [h.committing, was]
    rfl

/-- The transaction is over once all its blocks are installed. -/
theorem Inv.cleared (h : Inv s) {tail : Nat} (was : s.commit = some (p, .installTrans tail))
    (finished : s.lh[tail]? = none) : Inv ({ s with lh := [] }.goto p .clear) := by
  have pending : s.pending = [] := by
    simp [Sys.pending, Sys.installed, was, Stage.installed,
      List.getElem?_eq_none_iff.mp finished]
  refine h.relabel rfl rfl rfl List.nodup_nil ?_ h.outstanding (h.busy was)
    fun _ => h.quiet (by simp [was])
  rw [pending]
  simp [Sys.pending, Sys.goto]

theorem Inv.left (h : Inv s) (was : s.commit = some (p, .leave)) :
    Inv { s with committing := false, commit := none } := by
  refine h.relabel rfl rfl rfl h.nodup ?_ h.outstanding rfl fun busy => absurd rfl busy
  simp [Sys.pending, Sys.installed, was, Stage.installed]

theorem Inv.begun (h : Inv s) (idle : s.commit = none) :
    Inv { s with outstanding := s.outstanding + 1, next := s.next + 1, opened := s.next :: s.opened } :=
  h.relabel rfl rfl rfl h.nodup rfl (by simp [h.outstanding]) h.committing fun busy => absurd idle busy

/-- `end_op`; the last one starts a commit. -/
theorem Inv.ended (h : Inv s) (idle : s.commit = none) {op : Nat} (inOp : op ∈ s.opened) (p : P) :
    Inv { s with
      outstanding := s.outstanding - 1
      committing := s.outstanding - 1 = 0
      commit := if s.outstanding - 1 = 0 then some (p, .enter) else s.commit
      opened := s.opened.erase op } := by
  have count : s.outstanding - 1 = (s.opened.erase op).length := by
    rw [h.outstanding, List.length_erase_of_mem inOp]
  by_cases last : s.outstanding - 1 = 0
  · simp only [last, if_true]
    refine h.relabel rfl rfl rfl h.nodup ?_ ?_ rfl fun _ => ?_
    · simp [Sys.pending, Sys.installed, idle, Stage.installed]
    · exact last.symm.trans count
    · exact List.eq_nil_of_length_eq_zero (count.symm.trans last)
  · simp only [last, if_false]
    refine h.relabel rfl rfl rfl h.nodup rfl count ?_ fun busy => absurd idle busy
    simp [idle]

/-! ### What the process that commits can rely on -/

/-- Process `p` waits for buffer `i` or holds it. -/
def Sys.Uses (s : Sys P) (p : P) (i : Idx) : Prop :=
  p ∈ (s.cache.buf i).waiting ∨ (s.cache.buf i).holder = some p

/-- The buffers that process `p` uses are spared from `s` to `t`. -/
structure Spares (p : P) (s t : Sys P) : Prop where
  lh : t.lh = s.lh
  key : ∀ i b, s.Uses p i → (s.cache.buf i).Key b → (t.cache.buf i).Key b
  uses : ∀ i, s.Uses p i → t.Uses p i
  has : ∀ i, s.Has p i → t.Has p i
  contents : ∀ i b, s.Has p i → (s.cache.buf i).Key b → s.disk b = s.last b → t.disk b = t.last b

theorem AtStage.spared {c : Option (P × Stage)} (at_stage : AtStage s c)
    (spares : ∀ p stage, c = some (p, stage) → Spares p s t) : AtStage t c := by
  unfold AtStage at at_stage ⊢
  split
  · next p tail lbuf dbuf =>
    have sp := spares p _ rfl
    obtain ⟨⟨b, entry, key⟩, uses⟩ := at_stage
    exact ⟨⟨b, sp.lh ▸ entry, sp.key dbuf b uses key⟩, sp.uses dbuf uses⟩
  · next p tail lbuf dbuf =>
    have sp := spares p _ rfl
    obtain ⟨⟨b, entry, key, same⟩, has⟩ := at_stage
    exact ⟨⟨b, sp.lh ▸ entry, sp.key dbuf b (.inr has.1) key, sp.contents dbuf b has key same⟩,
      sp.has dbuf has⟩
  · trivial

/-- One buffer changes, and keeps its key and what `p` has of it. -/
theorem Spares.set {b' : Buf P} {order : List Idx} (dev : b'.dev = (s.cache.buf i).dev)
    (blockno : b'.blockno = (s.cache.buf i).blockno)
    (uses : s.Uses p i → p ∈ b'.waiting ∨ b'.holder = some p)
    (has : s.Has p i → b'.holder = some p ∧ b'.valid = true) :
    Spares p s (s.setCache { s.cache.set i b' with order }) := by
  have self : ({ s.cache.set i b' with order } : Cache P).buf i = b' := Function.update_self ..
  have others : ∀ j ≠ i, ({ s.cache.set i b' with order } : Cache P).buf j = s.cache.buf j :=
    fun j other => Function.update_of_ne other ..
  refine ⟨rfl, fun j b _ key => ?_, fun j used => ?_, fun j had => ?_, fun j b _ _ same => same⟩
  · by_cases here : j = i
    · rw [Sys.setCache, here, self, Buf.Key, dev, blockno]
      rw [here] at key
      exact key
    · rw [Sys.setCache, others j here]
      exact key
  · by_cases here : j = i
    · rw [Sys.Uses, Sys.setCache, here, self]
      exact uses (here ▸ used)
    · rw [Sys.Uses, Sys.setCache, others j here]
      exact used
  · by_cases here : j = i
    · rw [Sys.Has, Sys.setCache, here, self]
      exact has (here ▸ had)
    · rw [Sys.Has, Sys.setCache, others j here]
      exact had

/-- A buffer that `p` does not use is recycled. -/
theorem Inv.spares_recycle (h : Inv s) (p q : P) (found : s.cache.victim = some i) (dev b : Nat) :
    Spares p s (s.setCache (s.cache.recycle q dev b i)) := by
  have free : (s.cache.buf i).refcnt = 0 := by simpa using List.find?_some found
  have unused : ¬ s.Uses p i := by
    intro uses
    have none := (h.unused free).1
    rcases uses with waiting | held
    · have := List.length_pos_of_mem waiting
      simp only [Buf.users] at none
      omega
    · simp [Buf.users, held] at none
  have others : ∀ j, s.Uses p j → (s.cache.recycle q dev b i).buf j = s.cache.buf j := by
    intro j used
    refine Function.update_of_ne ?_ ..
    rintro rfl
    exact unused used
  refine ⟨rfl, fun j b used key => ?_, fun j used => ?_, fun j had => ?_, fun j b _ _ same => same⟩
  · rw [Sys.setCache, others j used]
    exact key
  · rw [Sys.Uses, Sys.setCache, others j used]
    exact used
  · rw [Sys.Has, Sys.setCache, others j (.inr had.1)]
    exact had

/-- Another process writes a buffer that it holds. -/
theorem Inv.spares_write (h : Inv s) (held : s.Has q i) (other : q ≠ p) (data : Block) :
    Spares p s (s.write i data) := by
  have base : Spares p s (s.setCache (s.cache.store i data)) := .set rfl rfl id id
  refine ⟨rfl, base.key, base.uses, base.has, fun j b had key same => ?_⟩
  have apart : j ≠ i := by
    rintro rfl
    exact other (Option.some.inj (held.1.symm.trans had.1))
  have blocks : b ≠ (s.cache.buf i).blockno := by
    intro is
    exact apart (h.alone j i b key ⟨h.rooted i (.inr held.2), is.symm⟩)
  show Function.update s.disk _ data b = Function.update s.last _ data b
  rw [Function.update_of_ne blocks, Function.update_of_ne blocks, same]

/-- `bget` finds a buffer for the block, and touches no buffer that another process uses. -/
theorem Inv.bget (h : Inv s) {c : Cache P} (got : s.cache.bget q ROOTDEV b = some (i, c)) :
    Inv (s.setCache c) ∧ (c.buf i).Key b ∧ q ∈ (c.buf i).waiting ∧
      ∀ p, Spares p s (s.setCache c) := by
  unfold Cache.bget at got
  split at got
  · next found =>
    cases got
    have key := lookup_some found
    have self : (s.cache.hit q i).buf i = { s.cache.buf i with
        refcnt := (s.cache.buf i).refcnt + 1, waiting := q :: (s.cache.buf i).waiting } :=
      Function.update_self ..
    refine ⟨h.hit q key.1, ?_, ?_, fun p => .set rfl rfl (fun uses => ?_) fun has => has⟩
    · rw [self]
      exact key
    · rw [self]
      exact List.mem_cons_self
    · exact uses.imp_left (List.mem_cons_of_mem q)
  · next missing =>
    split at got
    · next found =>
      cases got
      have self : (s.cache.recycle q ROOTDEV b i).buf i = { s.cache.buf i with
          dev := ROOTDEV, blockno := b, valid := false, refcnt := 1,
          waiting := q :: (s.cache.buf i).waiting } := Function.update_self ..
      refine ⟨h.recycle q missing found, ?_, ?_, fun p => h.spares_recycle p q found _ _⟩
      · rw [self]
        exact ⟨rfl, rfl⟩
      · rw [self]
        exact List.mem_cons_self
    · cases got

/-- The invariant of the whole system. -/
structure Good (s : Sys P) : Prop extends Inv s where
  stage : AtStage s s.commit

/-- Where the process that commits goes on to a stage that needs to know nothing. -/
theorem Good.at {k : Stage} (inv : Inv t) (commit : t.commit = some (p, k))
    (plain : AtStage t (some (p, k))) : Good t :=
  ⟨inv, by rw [commit]; exact plain⟩

variable {stage : Stage}

theorem Inv.fetch (h : Inv s) (was : s.commit = some (p, stage)) {k : Idx → Stage}
    (got : s.fetch p b k = some t) (same : ∀ i, (k i).installed = stage.installed) :
    ∃ i, Inv t ∧ t.commit = some (p, k i) ∧ t.lh = s.lh ∧ (t.cache.buf i).Key b ∧
      p ∈ (t.cache.buf i).waiting := by
  obtain ⟨⟨i, c⟩, found, rfl⟩ := Option.map_eq_some_iff.mp got
  obtain ⟨inv, key, waiting, -⟩ := h.bget found
  exact ⟨i, inv.goto (s := s.setCache c) was (same i), rfl, rfl, key, waiting⟩

theorem client_ne (client : s.Client q) (was : s.commit = some (p, stage)) : q ≠ p := by
  rintro rfl
  exact client stage was

/-- A step of another process, or of the process that commits inside a `bread` or `brelse`. -/
theorem Good.spared (h : Good s) (inv : Inv t) (commit : t.commit = s.commit)
    (spares : ∀ p stage, s.commit = some (p, stage) → Spares p s t) : Good t :=
  ⟨inv, by rw [commit]; exact h.stage.spared spares⟩

section Step

variable [DecidableEq P] {start : Nat}

theorem Inv.put (h : Inv s) (was : s.commit = some (p, stage)) {waited : Idx} {k : Stage}
    (done : s.put p waited i data k = some t) (same : k.installed = stage.installed) :
    Inv t ∧ t = (s.write i data).goto p k ∧ s.Has p waited ∧ s.Has p i := by
  unfold Sys.put at done
  split at done
  · next has =>
    obtain rfl := Option.some.inj done
    exact ⟨(h.write has.2.2 data).goto (s := s.write i data) was same, rfl, has⟩
  · cases done

theorem Inv.release (h : Inv s) (was : s.commit = some (p, stage)) {k : Stage}
    (done : s.release p i k = some t) (same : k.installed = stage.installed) :
    Inv t ∧ t.commit = some (p, k) := by
  unfold Sys.release at done
  split at done
  · next has =>
    obtain rfl := Option.some.inj done
    exact ⟨(h.unlock p has.1).goto (s := s.setCache (s.cache.unlock p i)) was same, rfl⟩
  · cases done

theorem afterRelease_some {u : Sys P} (done : s.afterRelease p i u = some t) : t = u := by
  unfold Sys.afterRelease at done
  split at done
  · cases done
  · exact (Option.some.inj done).symm

/-- Every step of the commit keeps the invariant. -/
theorem Good.commitStep (h : Good s) (was : s.commit = some (p, stage))
    (done : s.commitStep start p stage = some t) : Good t := by
  have inv := h.toInv
  have known := h.stage
  rw [was] at known
  cases stage with
  | enter =>
    obtain rfl := Option.some.inj done
    refine ⟨inv.goto was (by split <;> rfl), ?_⟩
    show AtStage _ (some (p, _))
    split <;> trivial
  | writeLog tail =>
    simp only [Sys.commitStep] at done
    split at done
    · obtain ⟨i, inv, commit, -⟩ := inv.fetch was done fun _ => rfl
      exact .at inv commit trivial
    · obtain rfl := Option.some.inj done
      exact .at (inv.goto was rfl) rfl trivial
  | writeLogFrom tail blockno dst =>
    simp only [Sys.commitStep] at done
    split at done
    · obtain ⟨i, inv, commit, -⟩ := inv.fetch was done fun _ => rfl
      exact .at inv commit trivial
    · cases done
  | writeLogCopy tail dst src =>
    obtain ⟨inv, rfl, -⟩ := inv.put was done rfl
    exact .at inv rfl trivial
  | writeLogFree tail dst src =>
    obtain ⟨inv, commit⟩ := inv.release was done rfl
    exact .at inv commit trivial
  | writeLogLast tail dst src =>
    obtain ⟨u, released, ended⟩ := Option.bind_eq_some_iff.mp done
    obtain rfl := afterRelease_some ended
    obtain ⟨inv, commit⟩ := inv.release was released rfl
    exact .at inv commit trivial
  | writeLogNext tail dst =>
    obtain rfl := afterRelease_some done
    exact .at (inv.goto was rfl) rfl trivial
  | writeHead =>
    obtain ⟨i, inv, commit, -⟩ := inv.fetch was done fun _ => rfl
    exact .at inv commit trivial
  | writeHeadPut i =>
    obtain ⟨inv, rfl, -⟩ := inv.put was done rfl
    exact .at inv rfl trivial
  | writeHeadFree i =>
    obtain ⟨inv, commit⟩ := inv.release was done rfl
    exact .at inv commit trivial
  | writeHeadDone i =>
    obtain rfl := afterRelease_some done
    exact .at (inv.goto was rfl) rfl trivial
  | installTrans tail =>
    simp only [Sys.commitStep] at done
    split at done
    · obtain ⟨i, inv, commit, -⟩ := inv.fetch was done fun _ => rfl
      exact .at inv commit trivial
    · next finished =>
      obtain rfl := Option.some.inj done
      exact .at (inv.cleared was finished) rfl trivial
  | installDest tail lbuf =>
    simp only [Sys.commitStep] at done
    split at done
    · next b entry =>
      split at done
      · obtain ⟨i, inv, commit, lh, key, waiting⟩ := inv.fetch was done fun _ => rfl
        exact .at inv commit ⟨⟨b, lh ▸ entry, key⟩, .inl waiting⟩
      · cases done
    · cases done
  | installCopy tail lbuf dbuf =>
    obtain ⟨⟨b, entry, key⟩, -⟩ := known
    obtain ⟨inv, rfl, -, has⟩ := inv.put was done rfl
    have self : (s.cache.store dbuf (s.cache.buf lbuf).data).buf dbuf =
        { s.cache.buf dbuf with data := (s.cache.buf lbuf).data } := Function.update_self ..
    refine .at inv rfl ⟨⟨b, entry, ?_, ?_⟩, ?_⟩
    · show ((s.cache.store dbuf _).buf dbuf).Key b
      rw [self]
      exact key
    · show Function.update s.disk _ _ b = Function.update s.last _ _ b
      rw [key.2, Function.update_self, Function.update_self]
    · show ((s.cache.store dbuf _).buf dbuf).holder = some p ∧
        ((s.cache.store dbuf _).buf dbuf).valid = true
      rw [self]
      exact has
  | installUnpin tail lbuf dbuf =>
    obtain ⟨⟨b, entry, key, written⟩, -⟩ := known
    obtain rfl := Option.some.inj done
    exact .at (inv.unpin was entry key written) rfl trivial
  | installFree tail lbuf dbuf =>
    obtain ⟨inv, commit⟩ := inv.release was done rfl
    exact .at inv commit trivial
  | installLast tail lbuf dbuf =>
    obtain ⟨u, released, ended⟩ := Option.bind_eq_some_iff.mp done
    obtain rfl := afterRelease_some ended
    obtain ⟨inv, commit⟩ := inv.release was released rfl
    exact .at inv commit trivial
  | installNext tail dbuf =>
    obtain rfl := afterRelease_some done
    exact .at (inv.goto was rfl) rfl trivial
  | clear =>
    obtain ⟨i, inv, commit, -⟩ := inv.fetch was done fun _ => rfl
    exact .at inv commit trivial
  | clearPut i =>
    obtain ⟨inv, rfl, -⟩ := inv.put was done rfl
    exact .at inv rfl trivial
  | clearFree i =>
    obtain ⟨inv, commit⟩ := inv.release was done rfl
    exact .at inv commit trivial
  | clearDone i =>
    obtain rfl := afterRelease_some done
    exact .at (inv.goto was rfl) rfl trivial
  | leave =>
    obtain rfl := Option.some.inj done
    exact ⟨inv.left was, trivial⟩

/-- Every event keeps the invariant. -/
theorem Good.step (h : Good s) {e : Event P} (done : s.step start e = some t) : Good t := by
  have inv := h.toInv
  cases e with
  | bread q b =>
    obtain ⟨-, got⟩ := Option.ite_none_right_eq_some.mp done
    obtain ⟨⟨i, c⟩, found, rfl⟩ := Option.map_eq_some_iff.mp got
    obtain ⟨inv, -, -, spares⟩ := inv.bget found
    exact h.spared inv rfl fun p _ _ => spares p
  | lock q i =>
    obtain ⟨⟨waits, free⟩, is⟩ := Option.ite_none_right_eq_some.mp done
    obtain rfl := Option.some.inj is
    refine h.spared (inv.lock waits free) rfl fun p _ _ => .set rfl rfl (fun uses => ?_)
      fun has => ?_
    · rcases uses with waiting | held
      · by_cases me : p = q
        · exact .inr (me ▸ rfl)
        · exact .inl ((List.mem_erase_of_ne me).mpr waiting)
      · rw [free] at held
        cases held
    · have held := has.1
      rw [free] at held
      cases held
  | fill q i =>
    obtain ⟨⟨held, invalid⟩, is⟩ := Option.ite_none_right_eq_some.mp done
    obtain rfl := Option.some.inj is
    exact h.spared (inv.fill held invalid) rfl fun p _ _ => .set rfl rfl id fun has => ⟨has.1, rfl⟩
  | bwrite q i data =>
    obtain ⟨⟨client, has⟩, is⟩ := Option.ite_none_right_eq_some.mp done
    obtain rfl := Option.some.inj is
    exact h.spared (inv.write has.2 data) rfl fun p _ was =>
      inv.spares_write has (client_ne client was) data
  | brelse q i =>
    obtain ⟨⟨client, has⟩, is⟩ := Option.ite_none_right_eq_some.mp done
    obtain rfl := Option.some.inj is
    refine h.spared (inv.unlock q has.1) rfl fun p _ was => ?_
    have other : (s.cache.buf i).holder ≠ some p := by
      rw [has.1]
      exact fun same => client_ne client was (Option.some.inj same)
    exact .set rfl rfl (fun uses => .inl (uses.resolve_right other)) fun has => absurd has.1 other
  | unref q i =>
    obtain ⟨inside, is⟩ := Option.ite_none_right_eq_some.mp done
    obtain rfl := Option.some.inj is
    exact h.spared (inv.unref inside) rfl fun p _ _ => .set rfl rfl id id
  | bpin q i =>
    obtain ⟨⟨-, has⟩, is⟩ := Option.ite_none_right_eq_some.mp done
    obtain rfl := Option.some.inj is
    exact h.spared (inv.bpin q (inv.rooted i (.inr has.2))) rfl fun p _ _ => .set rfl rfl id id
  | bunpin q i =>
    obtain ⟨⟨-, inside⟩, is⟩ := Option.ite_none_right_eq_some.mp done
    obtain rfl := Option.some.inj is
    exact h.spared (inv.bunpin inside) rfl fun p _ _ => .set rfl rfl id id
  | beginOp =>
    obtain ⟨⟨ready, -⟩, is⟩ := Option.ite_none_right_eq_some.mp done
    obtain rfl := Option.some.inj is
    have idle : s.commit = none := by simpa [inv.committing] using ready
    exact ⟨inv.begun idle, h.stage⟩
  | logWrite q op i data =>
    obtain ⟨⟨-, has, inOp, -⟩, is⟩ := Option.ite_none_right_eq_some.mp done
    obtain rfl := Option.some.inj is
    have idle : s.commit = none := by
      by_contra busy
      rw [inv.quiet busy] at inOp
      cases inOp
    refine ⟨inv.logWrite op has.2 idle data, ?_⟩
    show AtStage _ s.commit
    rw [idle]
    trivial
  | endOp q op =>
    obtain ⟨⟨inOp, ready⟩, is⟩ := Option.ite_none_right_eq_some.mp done
    obtain rfl := Option.some.inj is
    have idle : s.commit = none := by simpa [inv.committing] using ready
    refine ⟨inv.ended idle inOp q, ?_⟩
    rw [idle]
    show AtStage _ (if _ then _ else _)
    split <;> trivial
  | commit =>
    simp only [Sys.step] at done
    split at done
    · next p stage was => exact h.commitStep was done
    · cases done

/-! ### Keys stay while a buffer is referenced -/

/-- Buffers that are referenced in `s` carry the same blocks in `t`. -/
def SameKeys (s t : Sys P) : Prop :=
  ∀ i, (s.cache.buf i).refcnt ≠ 0 →
    (t.cache.buf i).dev = (s.cache.buf i).dev ∧ (t.cache.buf i).blockno = (s.cache.buf i).blockno

omit [DecidableEq P] in
theorem SameKeys.set (b' : Buf P) (cache : t.cache.buf = Function.update s.cache.buf i b')
    (dev : b'.dev = (s.cache.buf i).dev) (blockno : b'.blockno = (s.cache.buf i).blockno) :
    SameKeys s t := by
  intro j _
  rw [cache]
  by_cases here : j = i
  · rw [here, Function.update_self]
    exact ⟨dev, blockno⟩
  · rw [Function.update_of_ne here]
    exact ⟨rfl, rfl⟩

omit [DecidableEq P] in
theorem SameKeys.bget {c : Cache P} (got : s.cache.bget p ROOTDEV b = some (i, c))
    (cache : t.cache = c) : SameKeys s t := by
  subst cache
  unfold Cache.bget at got
  split at got
  · obtain ⟨rfl, is⟩ := Prod.mk.inj (Option.some.inj got)
    exact .set _ (congrArg Cache.buf is.symm) rfl rfl
  · split at got
    · next victim found =>
      obtain ⟨rfl, is⟩ := Prod.mk.inj (Option.some.inj got)
      have free : (s.cache.buf victim).refcnt = 0 := by simpa using List.find?_some found
      intro j used
      rw [← is, Cache.recycle, Cache.buf_set_of_ne]
      · exact ⟨rfl, rfl⟩
      · rintro rfl
        exact used free
    · cases got

omit [DecidableEq P] in
theorem SameKeys.fetch {k : Idx → Stage} (got : s.fetch p b k = some t) : SameKeys s t := by
  obtain ⟨⟨i, c⟩, found, rfl⟩ := Option.map_eq_some_iff.mp got
  exact .bget found rfl

theorem SameKeys.put {waited : Idx} {k : Stage} (done : s.put p waited i data k = some t) :
    SameKeys s t := by
  obtain ⟨-, is⟩ := Option.ite_none_right_eq_some.mp done
  obtain rfl := Option.some.inj is
  exact .set _ rfl rfl rfl

theorem SameKeys.release {k : Stage} (done : s.release p i k = some t) : SameKeys s t := by
  obtain ⟨-, is⟩ := Option.ite_none_right_eq_some.mp done
  obtain rfl := Option.some.inj is
  exact .set _ rfl rfl rfl

theorem SameKeys.commitStep (done : s.commitStep start p stage = some t) : SameKeys s t := by
  have same : ∀ {u : Sys P}, t = u → u.cache = s.cache → SameKeys s t := by
    rintro u rfl cache i -
    rw [cache]
    exact ⟨rfl, rfl⟩
  cases stage with
  | enter | leave => exact same (Option.some.inj done).symm rfl
  | writeLog tail =>
    simp only [Sys.commitStep] at done
    split at done
    · exact .fetch done
    · exact same (Option.some.inj done).symm rfl
  | writeLogFrom tail blockno dst =>
    obtain ⟨-, got⟩ := Option.ite_none_right_eq_some.mp done
    exact .fetch got
  | writeLogCopy | writeHeadPut | installCopy | clearPut => exact .put done
  | writeLogFree | writeHeadFree | installFree | clearFree => exact .release done
  | writeLogLast | installLast =>
    obtain ⟨u, released, ended⟩ := Option.bind_eq_some_iff.mp done
    obtain rfl := afterRelease_some ended
    exact .release released
  | writeLogNext | writeHeadDone | installNext | clearDone =>
    exact same (afterRelease_some done) rfl
  | writeHead | clear => exact .fetch done
  | installTrans tail =>
    simp only [Sys.commitStep] at done
    split at done
    · exact .fetch done
    · exact same (Option.some.inj done).symm rfl
  | installDest tail lbuf =>
    simp only [Sys.commitStep] at done
    split at done
    · obtain ⟨-, got⟩ := Option.ite_none_right_eq_some.mp done
      exact .fetch got
    · cases done
  | installUnpin tail lbuf dbuf =>
    obtain rfl := Option.some.inj done
    exact .set _ rfl rfl rfl

/-- No event gives another key to a buffer that is referenced. -/
theorem SameKeys.step {e : Event P} (done : s.step start e = some t) : SameKeys s t := by
  cases e with
  | bread q b =>
    obtain ⟨-, got⟩ := Option.ite_none_right_eq_some.mp done
    obtain ⟨⟨i, c⟩, found, rfl⟩ := Option.map_eq_some_iff.mp got
    exact .bget found rfl
  | lock | fill | bwrite | brelse | unref | bpin | bunpin =>
    obtain ⟨-, is⟩ := Option.ite_none_right_eq_some.mp done
    obtain rfl := Option.some.inj is
    exact .set _ rfl rfl rfl
  | beginOp | endOp =>
    obtain ⟨-, is⟩ := Option.ite_none_right_eq_some.mp done
    obtain rfl := Option.some.inj is
    exact fun i _ => ⟨rfl, rfl⟩
  | logWrite q op i data =>
    obtain ⟨-, is⟩ := Option.ite_none_right_eq_some.mp done
    obtain rfl := Option.some.inj is
    unfold Sys.logWrite
    by_cases absorbed : (s.cache.buf i).blockno ∈ s.lh
    · simp only [if_pos absorbed]
      exact .set _ rfl rfl rfl
    · simp only [if_neg absorbed]
      refine .set { s.cache.buf i with data, refcnt := (s.cache.buf i).refcnt + 1 } ?_ rfl rfl
      simp [Cache.pinForLog, Cache.store, Cache.set]
  | commit =>
    simp only [Sys.step] at done
    split at done
    · exact .commitStep done
    · cases done

/-- The states that the system can reach. -/
def Reachable (start : Nat) (s : Sys P) : Prop :=
  ∃ s₀, Initial s₀ ∧ ReflTransGen (fun s t => ∃ e, s.step start e = some t) s₀ s

theorem Reachable.good (r : Reachable start s) : Good s := by
  obtain ⟨s₀, initial, run⟩ := r
  refine Transition.invariant (fun _ _ h ⟨_, done⟩ => h.step done) ⟨.initial initial, ?_⟩ run
  rw [initial.commit]
  trivial

/-- In every reachable state the cache is coherent: each block has one buffer at most, counts match
users and pins, logged blocks that are not yet installed are in the cache, and every valid buffer
holds what was last stored in its block.  `bread` of block `b` takes a buffer for `b`, which stays
one as long as it is referenced. -/
theorem cache_coherent (reach : Reachable start s) :
    Coherent s ∧
    (∀ p b i c, s.cache.bget p ROOTDEV b = some (i, c) → (c.buf i).Key b) ∧
    ∀ e t, s.step start e = some t → SameKeys s t := by
  have inv := reach.good.toInv
  exact ⟨inv.coherent, fun p b i c got => (inv.bget got).2.1, fun e t done => .step done⟩

/-! ### A transaction of one block -/

/-- The events one after the other. -/
def Sys.run (start : Nat) : List (Event P) → Sys P → Option (Sys P)
  | [], s => some s
  | e :: rest, s =>
    match s.step start e with
    | some t => t.run start rest
    | none => none

theorem Reachable.run {events : List (Event P)} (reach : Reachable start s)
    (done : s.run start events = some t) : Reachable start t := by
  induction events generalizing s with
  | nil =>
    obtain rfl := Option.some.inj done
    exact reach
  | cons e rest ih =>
    rw [Sys.run] at done
    split at done
    · next u stepped =>
      obtain ⟨s₀, initial, before⟩ := reach
      exact ih ⟨s₀, initial, before.tail ⟨e, stepped⟩⟩ done
    · cases done

end Step

/-- A system of one process after `binit`. -/
def booted : Sys Unit where
  cache := ⟨fun _ => ⟨false, 0, 0, 0, fun _ => 0, none, [], [], []⟩, (List.finRange NBUF).reverse⟩
  disk _ _ := 0
  lh := []
  outstanding := 0
  committing := false
  commit := none
  last _ _ := 0
  next := 0
  opened := []
  writes := []

theorem booted_reachable : Reachable 2 booted := by
  refine ⟨booted, ⟨List.reverse_perm _, fun i j dev => ?_, fun i valid => ?_, fun _ => rfl,
    fun _ => rfl, rfl, rfl, rfl, rfl, rfl, rfl, rfl⟩, .refl⟩
  · exact absurd (show (0 : Nat) = 1 from dev) (by decide)
  · cases valid

/-- An operation logs block 100. -/
def logOne : List (Event Unit) :=
  [.beginOp, .bread () 100, .lock () 0, .fill () 0, .logWrite () 0 0 fun _ => 1, .brelse () 0,
    .unref () 0]

theorem logOne_runs : ((booted.run 2 logOne).any fun s => s.lh == [100]) = true := by
  decide +kernel

theorem cache_coherent_sample : ∃ s : Sys Unit, Reachable 2 s ∧ s.lh = [100] ∧ Coherent s ∧
    (∀ p b i c, s.cache.bget p ROOTDEV b = some (i, c) → (c.buf i).Key b) ∧
    ∀ e t, s.step 2 e = some t → SameKeys s t := by
  obtain ⟨s, done, lh⟩ := (Option.any_eq_true _ _).mp logOne_runs
  have reach := booted_reachable.run done
  exact ⟨s, reach, by simpa using lh, cache_coherent reach⟩

/-- The operation ends, and its commit writes the log, writes the header and installs the block. -/
def commitOne : List (Event Unit) :=
  [.endOp () 0, .commit, .commit, .lock () 1, .fill () 1, .commit, .lock () 0, .commit, .commit,
    .unref () 0, .commit, .unref () 1, .commit, .commit, .commit, .lock () 2, .fill () 2, .commit,
    .commit, .unref () 2, .commit, .commit, .lock () 1, .commit, .lock () 0, .commit, .commit,
    .commit, .unref () 1, .commit, .unref () 0]

theorem commitOne_runs : ((booted.run 2 (logOne ++ commitOne)).any fun s =>
    s.lh == [100] && decide (∀ i, (s.cache.buf i).Key 100 → (s.cache.buf i).refcnt = 0)) = true := by
  decide +kernel

/-- Between the installation of a block and the end of the loop, the log lists a block that nothing
keeps in the cache. -/
theorem installed_block_unpinned : ∃ s : Sys Unit, Reachable 2 s ∧
    ¬ ∀ b ∈ s.lh, ∃ i, (s.cache.buf i).Key b ∧ (s.cache.buf i).valid = true ∧
      1 ≤ (s.cache.buf i).refcnt := by
  obtain ⟨s, done, facts⟩ := (Option.any_eq_true _ _).mp commitOne_runs
  obtain ⟨lh, loose⟩ := Bool.and_eq_true_iff.mp facts
  refine ⟨s, booted_reachable.run done, fun all => ?_⟩
  obtain ⟨i, key, -, counted⟩ := all 100 (by simp [beq_iff_eq.mp lh])
  have none := of_decide_eq_true loose i key
  omega

end Xv6Lab.Bio

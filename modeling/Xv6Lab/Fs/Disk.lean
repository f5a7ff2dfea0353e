import Xv6Lab.Fs.Inode

/-! What the blocks of the file system store: a bit for every block, the inodes, and the data
blocks.  A write to one of the three kinds leaves the others alone.  The functions of `fs.c` that
work on blocks are specified here by what they do to these, and by what they ask of the log. -/

namespace Xv6Lab.Fs

open Bytes Exec

/-! ### Programs that use the log -/

/-- The transaction goes on, with at most `k` more blocks in the log. -/
structure Grew (k : Nat) (s t : State) : Prop where
  outstanding : t.outstanding = s.outstanding
  lh : t.lh.length ≤ s.lh.length + k

/-- The log has no room for `k` more blocks, or there is no transaction. -/
def Short (k : Nat) (s : State) (e : Halt) : Prop :=
  (e = .panic "too big a transaction" ∧ LOGBLOCKS < s.lh.length + k) ∨
    (e = .panic "log_write outside of trans" ∧ s.outstanding < 1)

/-- `x` ends as `Q` allows, or panics for want of room for `k` blocks in the log. -/
def Does {α : Type} (k : Nat) (x : F α) (Q : α → State → Prop) (s : State) : Prop :=
  wp x (fun a t => Grew k s t ∧ Q a t) (fun e _ => Short k s e) s

section Rules

variable {α β : Type} {k m : Nat} {x : F α} {f : α → F β} {Q : α → State → Prop}
  {R : β → State → Prop} {s t : State}

theorem Grew.refl (s : State) : Grew 0 s s := ⟨rfl, Nat.le_refl _⟩

theorem Grew.trans {u : State} (one : Grew k s t) (two : Grew m t u) : Grew (k + m) s u := by
  refine ⟨two.outstanding.trans one.outstanding, ?_⟩
  have first := one.lh
  have second := two.lh
  omega

theorem Grew.mono (more : k ≤ m) (h : Grew k s t) : Grew m s t := by
  refine ⟨h.outstanding, ?_⟩
  have bound := h.lh
  omega

theorem Short.mono (more : k ≤ m) {e : Halt} (h : Short k s e) : Short m s e := by
  rcases h with ⟨is, full⟩ | outside
  · exact .inl ⟨is, by omega⟩
  · exact .inr outside

theorem Short.before (first : Grew k s t) {e : Halt} (h : Short m t e) : Short (k + m) s e := by
  have grown := first.lh
  rcases h with ⟨is, full⟩ | ⟨is, none⟩
  · exact .inl ⟨is, by omega⟩
  · exact .inr ⟨is, first.outstanding ▸ none⟩

theorem does_pure {a : α} (h : Q a s) : Does 0 (pure a) Q s := ⟨.refl s, h⟩

theorem Does.bind (first : Does k x Q s) (then' : ∀ a t, Q a t → Does (m - k) (f a) R t)
    (within : k ≤ m := by omega) : Does m (x >>= f) R s := by
  unfold Does
  rw [wp_bind]
  refine wp_mono first (fun a t ⟨grew, q⟩ => ?_) fun e _ short => short.mono within
  refine wp_mono (then' a t q) (fun b u ⟨more, r⟩ => ⟨?_, r⟩) fun e _ short => ?_
  · exact (grew.trans more).mono (by omega)
  · exact (short.before grew).mono (by omega)

theorem does_get {f : State → F β} (then' : Does m (f s) R s) : Does m (get >>= f) R s := then'

theorem does_modify {g : State → State} {Q : PUnit → State → Prop} (grew : Grew 0 s (g s))
    (h : Q ⟨⟩ (g s)) : Does 0 (modify g) Q s :=
  ⟨grew, h⟩

theorem Does.conseq {Q' : α → State → Prop} (h : Does k x Q s) (weaker : ∀ a t, Q a t → Q' a t) :
    Does k x Q' s :=
  wp_conseq h fun a t ⟨grew, q⟩ => ⟨grew, weaker a t q⟩

theorem Does.mono (h : Does k x Q s) (more : k ≤ m) : Does m x Q s :=
  wp_mono h (fun _ _ ⟨grew, q⟩ => ⟨grew.mono more, q⟩) fun _ _ short => short.mono more

end Rules

/-! ### Programs that log known blocks -/

/-- The transaction goes on, and each block that it has noted in the log is one of `P`. -/
structure Noted (P : Nat → Prop) (s t : State) : Prop where
  outstanding : t.outstanding = s.outstanding
  lh : ∃ l, t.lh = s.lh ++ l ∧ l.Nodup ∧ ∀ b ∈ l, P b ∧ b ∉ s.lh

/-- The log is full with blocks of `P`, or there is no transaction. -/
def Overfull (P : Nat → Prop) (s : State) (e : Halt) : Prop :=
  (e = .panic "too big a transaction" ∧ ∃ t, Noted P s t ∧ LOGBLOCKS ≤ t.lh.length) ∨
    (e = .panic "log_write outside of trans" ∧ s.outstanding < 1)

/-- `x` ends as `Q` allows, or panics for want of room in the log for blocks of `P`. -/
def Notes {α : Type} (P : Nat → Prop) (x : F α) (Q : α → State → Prop) (s : State) : Prop :=
  wp x (fun a t => Noted P s t ∧ Q a t) (fun e _ => Overfull P s e) s

section Notes

variable {α β : Type} {P P' : Nat → Prop} {x : F α} {f : α → F β} {Q : α → State → Prop}
  {R : β → State → Prop} {s t : State}

theorem Noted.same (outstanding : t.outstanding = s.outstanding) (lh : t.lh = s.lh) :
    Noted P s t :=
  ⟨outstanding, [], by rw [lh, List.append_nil], .nil, fun _ inside => absurd inside List.not_mem_nil⟩

theorem Noted.trans {u : State} (one : Noted P s t) (two : Noted P t u) : Noted P s u := by
  obtain ⟨l, is, nodup, all⟩ := one.lh
  obtain ⟨m, is', nodup', all'⟩ := two.lh
  refine ⟨two.outstanding.trans one.outstanding, l ++ m, by rw [is', is, List.append_assoc], ?_,
    fun b inside => ?_⟩
  · refine nodup.append nodup' fun b first second => (all' b second).2 ?_
    rw [is]
    exact List.mem_append_right _ first
  · rcases List.mem_append.mp inside with first | second
    · exact all b first
    · refine ⟨(all' b second).1, fun before => (all' b second).2 ?_⟩
      rw [is]
      exact List.mem_append_left _ before

theorem Noted.mono (h : Noted P s t) (weaker : ∀ b, P b → P' b) : Noted P' s t := by
  obtain ⟨outstanding, l, is, nodup, all⟩ := h
  exact ⟨outstanding, l, is, nodup, fun b inside => (all b inside).imp_left (weaker b)⟩

theorem Overfull.before {e : Halt} (first : Noted P s t) (h : Overfull P t e) : Overfull P s e := by
  rcases h with ⟨is, u, noted, full⟩ | ⟨is, none⟩
  · exact .inl ⟨is, u, first.trans noted, full⟩
  · exact .inr ⟨is, first.outstanding ▸ none⟩

theorem notes_pure {a : α} (h : Q a s) : Notes P (pure a) Q s := ⟨.same rfl rfl, h⟩

theorem Notes.bind (first : Notes P x Q s) (then' : ∀ a t, Q a t → Notes P (f a) R t) :
    Notes P (x >>= f) R s := by
  unfold Notes
  rw [wp_bind]
  refine wp_conseq first fun a t ⟨noted, q⟩ => ?_
  exact wp_mono (then' a t q) (fun b u ⟨more, r⟩ => ⟨noted.trans more, r⟩)
    fun e _ full => full.before noted

theorem notes_get {f : State → F β} (then' : Notes P (f s) R s) : Notes P (get >>= f) R s := then'

/-- A run that leaves the log alone. -/
theorem notes_run {a : α} (run : x s = .ok a t) (outstanding : t.outstanding = s.outstanding)
    (lh : t.lh = s.lh) (h : Q a t) : Notes P x Q s := by
  unfold Notes
  rw [wp_value run]
  exact ⟨.same outstanding lh, h⟩

/-- A program that goes on as another does from a state with the same log. -/
theorem notes_goes {y : F α} (same : x s = y t) (outstanding : t.outstanding = s.outstanding)
    (lh : t.lh = s.lh) (h : Notes P y Q t) : Notes P x Q s := by
  have before : Noted P s t := .same outstanding lh
  unfold Notes
  rw [wp_goes same]
  exact wp_mono h (fun _ _ ⟨noted, q⟩ => ⟨before.trans noted, q⟩) fun _ _ full => full.before before

theorem notes_modify {g : State → State} {Q : PUnit → State → Prop}
    (outstanding : (g s).outstanding = s.outstanding) (lh : (g s).lh = s.lh) (h : Q ⟨⟩ (g s)) :
    Notes P (modify g) Q s :=
  ⟨.same outstanding lh, h⟩

theorem Notes.conseq {Q' : α → State → Prop} (h : Notes P x Q s)
    (weaker : ∀ a t, Q a t → Q' a t) : Notes P x Q' s :=
  wp_conseq h fun a t ⟨noted, q⟩ => ⟨noted, weaker a t q⟩

theorem Notes.mono (h : Notes P x Q s) (weaker : ∀ b, P b → P' b) : Notes P' x Q s := by
  refine wp_mono h (fun _ _ ⟨noted, q⟩ => ⟨noted.mono weaker, q⟩) fun e _ full => ?_
  exact full.imp_left fun ⟨is, t, noted, long⟩ => ⟨is, t, noted.mono weaker, long⟩

/-- A loop over a list keeps an invariant that speaks of what is left. -/
theorem notes_forM {f : β → F PUnit} (I : List β → State → Prop)
    (kept : ∀ b rest t, I (b :: rest) t → Notes P (f b) (fun _ => I rest) t) (l : List β)
    (h : I l s) : Notes P (l.forM f) (fun _ => I []) s := by
  induction l generalizing s with
  | nil => exact notes_pure h
  | cons b rest ih => exact (kept b rest s h).bind (f := fun _ => rest.forM f) fun _ t after => ih after

/-- The log has room for the blocks of a list that is short enough. -/
theorem Overfull.never {e : Halt} {blocks : List Nat} (full : Overfull P s e)
    (open' : 1 ≤ s.outstanding) (empty : s.lh = []) (all : ∀ b, P b → b ∈ blocks)
    (few : blocks.length < LOGBLOCKS) : False := by
  rcases full with ⟨-, t, noted, long⟩ | ⟨-, none⟩
  · obtain ⟨l, is, nodup, inside⟩ := noted.lh
    rw [empty, List.nil_append] at is
    have short : l.length ≤ blocks.length :=
      (nodup.subperm fun b mem => all b (inside b mem).1).length_le
    rw [is] at long
    omega
  · omega

end Notes

/-! ### The three kinds of blocks -/

/-- What the blocks store. -/
structure Disk where
  used : Nat → Bool
  inode : Nat → Dinode
  data : Nat → Block

namespace Disk

/-- Block `b` is taken, and zeroed. -/
def alloc (v : Disk) (b : Nat) : Disk :=
  { v with used := Function.update v.used b true, data := Function.update v.data b fun _ => 0 }

/-- Block `b` is given back. -/
def free (v : Disk) (b : Nat) : Disk := { v with used := Function.update v.used b false }

def setData (v : Disk) (b : Nat) (data : Block) : Disk :=
  { v with data := Function.update v.data b data }

def setInode (v : Disk) (i : Nat) (d : Dinode) : Disk :=
  { v with inode := Function.update v.inode i d }

theorem setInode_idem (v : Disk) (i : Nat) (d d' : Dinode) :
    (v.setInode i d).setInode i d' = v.setInode i d' := by
  simp [setInode]

theorem setData_self (v : Disk) (b : Nat) (data : Block) : (v.setData b data).data b = data := by
  simp [setData]

end Disk

/-- The blocks of the state store `v`. -/
structure Shows (sb : Superblock) (s : State) (v : Disk) : Prop where
  used : ∀ b < sb.size, testBit (s.blocks (sb.bblock b)) (b % BPB) = v.used b
  inode : ∀ i < sb.ninodes, getDinode (s.blocks (sb.iblock i)) (inodeOff i) = v.inode i
  data : ∀ b, sb.nmeta ≤ b → b < sb.size → s.blocks b = v.data b

section Blocks

variable {sb : Superblock} {s t : State} {v : Disk} {b i : Nat}

theorem Shows.congr (h : Shows sb s v) (same : t.blocks = s.blocks) : Shows sb t v := by
  obtain ⟨used, inode, data⟩ := h
  exact ⟨same ▸ used, same ▸ inode, same ▸ data⟩

namespace Superblock.Valid

variable (valid : sb.Valid)
include valid

theorem bmapstart_lt (b : Nat) (inside : b < sb.size) : sb.bmapstart < sb.nmeta :=
  Nat.lt_of_le_of_lt (Nat.le_add_left _ _) (valid.bitmap b inside)

/-- Inode blocks come before bitmap blocks. -/
theorem iblock_ne_bblock (inside : i < sb.ninodes) (b : Nat) : sb.iblock i ≠ sb.bblock b :=
  Nat.ne_of_lt (Nat.lt_of_lt_of_le (valid.inodes i inside) (Nat.le_add_left _ _))

/-- Bitmap blocks come before data blocks. -/
theorem bblock_lt (inside : b < sb.size) : sb.bblock b < sb.nmeta := valid.bitmap b inside

theorem iblock_lt (inside : i < sb.ninodes) {b : Nat} (some : b < sb.size) :
    sb.iblock i < sb.nmeta :=
  Nat.lt_trans (valid.inodes i inside) (valid.bmapstart_lt b some)

theorem nmeta_pos (inside : b < sb.size) : 0 < sb.nmeta :=
  Nat.lt_of_le_of_lt (Nat.zero_le _) (valid.bblock_lt inside)

end Superblock.Valid

variable (valid : sb.Valid)
include valid

/-- A change of the bit of block `b`. -/
theorem Shows.setBit (h : Shows sb s v) (inside : b < sb.size) (data : Block) (x : Bool)
    (bits : ∀ j, testBit data j = if j = b % BPB then x
      else testBit (s.blocks (sb.bblock b)) j) :
    Shows sb (s.setBlock (sb.bblock b) data) { v with used := Function.update v.used b x } := by
  refine ⟨fun c small => ?_, fun i small => ?_, fun c above small => ?_⟩
  · show _ = Function.update v.used b x c
    rw [State.setBlock_blocks]
    by_cases block : sb.bblock c = sb.bblock b
    · rw [block, Function.update_self, bits]
      have quotient : c / BPB = b / BPB := by
        unfold Superblock.bblock at block
        omega
      by_cases here : c = b
      · rw [here, if_pos rfl, Function.update_self]
      · have apart : c % BPB ≠ b % BPB := by
          intro same
          have one := Nat.div_add_mod c BPB
          have two := Nat.div_add_mod b BPB
          rw [quotient, same] at one
          omega
        rw [if_neg apart, Function.update_of_ne here, ← block]
        exact h.used c small
    · have apart : c ≠ b := fun same => block (by rw [same])
      rw [Function.update_of_ne block, Function.update_of_ne apart]
      exact h.used c small
  · rw [State.setBlock_blocks, Function.update_of_ne (valid.iblock_ne_bblock small b)]
    exact h.inode i small
  · have apart : c ≠ sb.bblock b := by
      have := valid.bblock_lt inside
      omega
    rw [State.setBlock_blocks, Function.update_of_ne apart]
    exact h.data c above small

theorem Shows.setData (h : Shows sb s v) (above : sb.nmeta ≤ b) (inside : b < sb.size)
    (data : Block) : Shows sb (s.setBlock b data) (v.setData b data) := by
  refine ⟨fun c small => ?_, fun i small => ?_, fun c from' small => ?_⟩
  · have apart : sb.bblock c ≠ b := by
      have := valid.bblock_lt small
      omega
    rw [State.setBlock_blocks, Function.update_of_ne apart]
    exact h.used c small
  · have apart : sb.iblock i ≠ b := by
      have := valid.iblock_lt small inside
      omega
    rw [State.setBlock_blocks, Function.update_of_ne apart]
    exact h.inode i small
  · show Function.update s.blocks b data c = Function.update v.data b data c
    by_cases here : c = b
    · rw [here, Function.update_self, Function.update_self]
    · rw [Function.update_of_ne here, Function.update_of_ne here]
      exact h.data c from' small

/-- A change of inode `i` in its block. -/
theorem Shows.setInode (h : Shows sb s v) (inside : i < sb.ninodes) (data : Block) (d : Dinode)
    (here : getDinode data (inodeOff i) = d) (others : ∀ j, j < inodeOff i ∨ inodeOff i + 64 ≤ j →
      data j = s.blocks (sb.iblock i) j) :
    Shows sb (s.setBlock (sb.iblock i) data) (v.setInode i d) := by
  refine ⟨fun c small => ?_, fun j small => ?_, fun c above small => ?_⟩
  · rw [State.setBlock_blocks, Function.update_of_ne (valid.iblock_ne_bblock inside c).symm]
    exact h.used c small
  · show _ = Function.update v.inode i d j
    rw [State.setBlock_blocks]
    by_cases same : j = i
    · rw [same, Function.update_self, Function.update_self, here]
    · rw [Function.update_of_ne same, ← h.inode j small]
      by_cases block : sb.iblock j = sb.iblock i
      · rw [block, Function.update_self]
        have apart := inodeOff_apart same (by unfold Superblock.iblock at block; omega)
        exact getDinode_congr fun k _ _ => others k (by omega)
      · rw [Function.update_of_ne block]
  · have apart : c ≠ sb.iblock i := by
      have := valid.iblock_lt inside small
      omega
    rw [State.setBlock_blocks, Function.update_of_ne apart]
    exact h.data c above small

end Blocks

/-! ### Functions on blocks -/

/-- The tables in memory stay as they are. -/
structure SameTables (s t : State) : Prop where
  itable : t.itable = s.itable
  ftable : t.ftable = s.ftable
  procs : t.procs = s.procs
  current : t.current = s.current

theorem SameTables.refl (s : State) : SameTables s s := ⟨rfl, rfl, rfl, rfl⟩

theorem SameTables.trans {s t u : State} (one : SameTables s t) (two : SameTables t u) :
    SameTables s u :=
  ⟨two.itable.trans one.itable, two.ftable.trans one.ftable, two.procs.trans one.procs,
    two.current.trans one.current⟩

/-- The blocks that were passed to `log_write` on the way from `s` to `t` satisfy `P`. -/
def Logged (P : Nat → Prop) (s t : State) : Prop :=
  ∃ l, t.logged = s.logged ++ l ∧ ∀ b ∈ l, P b

section Logged

variable {P Q : Nat → Prop} {s t u : State}

theorem Logged.none (same : t.logged = s.logged) : Logged P s t :=
  ⟨[], by rw [same, List.append_nil], fun _ inside => absurd inside List.not_mem_nil⟩

theorem Logged.mono (h : Logged P s t) (weaker : ∀ b, P b → Q b) : Logged Q s t := by
  obtain ⟨l, is, all⟩ := h
  exact ⟨l, is, fun b inside => weaker b (all b inside)⟩

theorem Logged.trans (one : Logged P s t) (two : Logged P t u) : Logged P s u := by
  obtain ⟨l, is, all⟩ := one
  obtain ⟨m, is', all'⟩ := two
  refine ⟨l ++ m, by rw [is', is, List.append_assoc], fun b inside => ?_⟩
  rcases List.mem_append.mp inside with first | second
  · exact all b first
  · exact all' b second

end Logged

section Functions

variable {sb : Superblock} {s : State} {v : Disk} {b : Nat}

theorem logWrite_does (b : Nat) : Does 1 (logWrite b)
    (fun _ t => SameTables s t ∧ Logged (· = b) s t ∧ t.blocks = s.blocks) s := by
  unfold Does logWrite
  simp only [wp_bind, wp_modify, wp_get]
  split
  · next full => exact .inl ⟨rfl, Nat.lt_succ_of_le full⟩
  · split
    · next outside => exact .inr ⟨rfl, outside⟩
    · split
      · exact ⟨⟨rfl, Nat.le_succ _⟩, ⟨rfl, rfl, rfl, rfl⟩, ⟨[b], rfl, by simp⟩, rfl⟩
      · refine ⟨⟨rfl, ?_⟩, ⟨rfl, rfl, rfl, rfl⟩, ⟨[b], rfl, by simp⟩, rfl⟩
        simp

/-- A block is changed and logged. -/
theorem bstore_logWrite_does (b : Nat) (data : Block) :
    Does 1 (do bstore b data; logWrite b) (fun _ t => SameTables s t ∧ Logged (· = b) s t ∧
      t.blocks = Function.update s.blocks b data) s := by
  have stored : Does 0 (bstore b data) (fun _ t => t = s.setBlock b data) s :=
    does_modify ⟨rfl, Nat.le_refl _⟩ rfl
  refine Does.bind stored fun _ t is => ?_
  subst is
  exact (logWrite_does b).conseq fun _ u ⟨same, logged, blocks⟩ =>
    ⟨⟨same.itable, same.ftable, same.procs, same.current⟩, logged, blocks⟩

theorem logWrite_notes (b : Nat) : Notes (· = b) (logWrite b)
    (fun _ t => SameTables s t ∧ Logged (· = b) s t ∧ t.blocks = s.blocks) s := by
  unfold Notes logWrite
  rw [wp_bind, wp_modify, wp_bind, wp_get]
  split
  · next full => exact .inl ⟨rfl, s, .same rfl rfl, full⟩
  · split
    · next outside => exact .inr ⟨rfl, outside⟩
    · split
      · exact ⟨.same rfl rfl, ⟨rfl, rfl, rfl, rfl⟩, ⟨[b], rfl, by simp⟩, rfl⟩
      · next new =>
        refine ⟨⟨rfl, [b], rfl, List.nodup_singleton b, fun c inside => ?_⟩, ⟨rfl, rfl, rfl, rfl⟩,
          ⟨[b], rfl, by simp⟩, rfl⟩
        obtain rfl := List.mem_singleton.mp inside
        exact ⟨rfl, new⟩

theorem bstore_logWrite_notes (b : Nat) (data : Block) :
    Notes (· = b) (do bstore b data; logWrite b) (fun _ t => SameTables s t ∧ Logged (· = b) s t ∧
      t.blocks = Function.update s.blocks b data) s := by
  have stored : Notes (· = b) (bstore b data) (fun _ t => t = s.setBlock b data) s :=
    notes_modify rfl rfl rfl
  refine Notes.bind stored fun _ t is => ?_
  subst is
  exact (logWrite_notes b).conseq fun _ u ⟨same, logged, blocks⟩ =>
    ⟨⟨same.itable, same.ftable, same.procs, same.current⟩, logged, blocks⟩

theorem bblock_aligned (aligned : b % BPB = 0) {bi : Nat} (small : bi < BPB) :
    sb.bblock (b + bi) = sb.bblock b := by
  rw [Superblock.bblock, Superblock.bblock,
    Nat.add_div_of_dvd_right (Nat.dvd_of_mod_eq_zero aligned), Nat.div_eq_of_lt small, Nat.add_zero]

theorem mod_aligned (aligned : b % BPB = 0) {bi : Nat} (small : bi < BPB) : (b + bi) % BPB = bi := by
  rw [Nat.add_mod, aligned, Nat.zero_add, Nat.mod_mod, Nat.mod_eq_of_lt small]

/-- What `balloc` returns and leaves: no block where none is free, or a free block, now taken. -/
def Taken (sb : Superblock) (v : Disk) (b : Nat) (v' : Disk) : Prop :=
  (b = 0 ∧ v' = v ∧ ∀ c < sb.size, v.used c = true) ∨
    (b < sb.size ∧ v.used b = false ∧ v' = v.alloc b)

/-- Blocks of the bitmap. -/
def Superblock.IsBitmap (sb : Superblock) (b : Nat) : Prop := ∃ c < sb.size, b = sb.bblock c

section Valid

variable (valid : sb.Valid) (reserved : ∀ b < sb.nmeta, v.used b = true)
include valid

theorem bzero_does (h : Shows sb s v) (above : sb.nmeta ≤ b) (inside : b < sb.size) :
    Does 1 (bzero b) (fun _ t => SameTables s t ∧ Logged (· = b) s t ∧
      Shows sb t (v.setData b fun _ => 0)) s :=
  (bstore_logWrite_does b _).conseq fun _ _ ⟨same, logged, blocks⟩ =>
    ⟨same, logged, (h.setData valid above inside _).congr blocks⟩

include reserved

theorem ballocFrom_does (fuel : Nat) (h : Shows sb s v) (aligned : b % BPB = 0)
    (below : ∀ c < b, c < sb.size → v.used c = true) (enough : sb.size ≤ b + fuel * BPB) :
    Does 2 (ballocFrom sb fuel b) (fun c t => SameTables s t ∧
      Logged (fun b => c ≠ 0 ∧ (sb.IsBitmap b ∨ b = c)) s t ∧ ∃ v', Shows sb t v' ∧ Taken sb v c v') s := by
  have full : ∀ b, (∀ c < b, c < sb.size → v.used c = true) → sb.size ≤ b → Does 2 (pure 0)
      (fun c t => SameTables s t ∧ Logged (fun b => c ≠ 0 ∧ (sb.IsBitmap b ∨ b = c)) s t ∧
        ∃ v', Shows sb t v' ∧ Taken sb v c v') s := by
    intro b below past
    refine (does_pure ?_).mono (Nat.zero_le 2)
    exact ⟨.refl s, .none rfl, v, h, .inl ⟨rfl, rfl, fun c small => below c (by omega) small⟩⟩
  induction fuel generalizing b with
  | zero =>
    rw [Nat.zero_mul] at enough
    exact full b below enough
  | succ fuel ih =>
    unfold ballocFrom
    split
    · next inside =>
      refine does_get ?_
      -- the bits of this bitmap block are those of the blocks from `b` on
      have bits : ∀ bi < min BPB (sb.size - b),
          testBit (s.blocks (sb.bblock b)) bi = v.used (b + bi) := by
        intro bi small
        have shown := h.used (b + bi) (by omega)
        rwa [bblock_aligned aligned (by omega), mod_aligned aligned (by omega)] at shown
      split
      · next bi found =>
        have small : bi < min BPB (sb.size - b) := List.mem_range.mp (List.mem_of_find?_eq_some found)
        have clear : v.used (b + bi) = false := by
          rw [← bits bi small]
          simpa using List.find?_some found
        have above : sb.nmeta ≤ b + bi := by
          by_contra low
          rw [reserved (b + bi) (by omega)] at clear
          cases clear
        have marked := h.setBit valid (b := b + bi) (by omega)
          (Bytes.setBit (s.blocks (sb.bblock b)) bi) true fun j => by
            rw [testBit_setBit, mod_aligned aligned (by omega), bblock_aligned aligned (by omega)]
            by_cases here : j = bi
            · rw [here, if_pos rfl, decide_eq_true rfl, Bool.or_true]
            · rw [if_neg here, decide_eq_false (Ne.symm here), Bool.or_false]
        rw [bblock_aligned aligned (by omega)] at marked
        refine (bstore_logWrite_does _ _).bind (f := fun _ => do bzero (b + bi); pure (b + bi))
          fun _ t ⟨same, logged, blocks⟩ => ?_
        refine (bzero_does valid (marked.congr blocks) above (by omega)).bind
          fun _ u ⟨kept, zeroed, shows⟩ => ?_
        have positive : b + bi ≠ 0 := by
          have := valid.nmeta_pos inside
          omega
        exact does_pure ⟨same.trans kept,
          (logged.mono fun c is => ⟨positive, .inl ⟨b, inside, is⟩⟩).trans
            (zeroed.mono fun c is => ⟨positive, .inr is⟩), _, shows, .inr ⟨by omega, clear, rfl⟩⟩
      · next missing =>
        refine ih (by rw [Nat.add_mod_right, aligned]) (fun c low small => ?_) (by
          rw [Nat.succ_mul] at enough; omega)
        by_cases early : c < b
        · exact below c early small
        · have set := List.find?_eq_none.mp missing (c - b) (List.mem_range.mpr (by omega))
          have shown := bits (c - b) (by omega)
          rw [Nat.add_sub_of_le (Nat.le_of_not_lt early)] at shown
          rw [← shown]
          simpa using set
    · next past => exact full b below (Nat.le_of_not_lt past)

theorem balloc_does (h : Shows sb s v) :
    Does 2 (balloc sb) (fun c t => SameTables s t ∧
      Logged (fun b => c ≠ 0 ∧ (sb.IsBitmap b ∨ b = c)) s t ∧ ∃ v', Shows sb t v' ∧ Taken sb v c v') s := by
  refine ballocFrom_does valid reserved _ h (Nat.zero_mod _) (fun c low => absurd low (by omega)) ?_
  have split := Nat.div_add_mod sb.size BPB
  have rest := Nat.mod_lt sb.size (show 0 < BPB by decide)
  rw [Nat.succ_mul, Nat.mul_comm]
  omega

omit reserved in
/-- `bfree` of a block that is in use. -/
theorem bfree_notes (h : Shows sb s v) (inside : b < sb.size) (used : v.used b = true) :
    Notes sb.IsBitmap (bfree sb b) (fun _ t => SameTables s t ∧ Logged sb.IsBitmap s t ∧
      Shows sb t (v.free b)) s := by
  have bitmap : ∀ c, c = sb.bblock b → sb.IsBitmap c := fun c is => ⟨b, inside, is⟩
  unfold bfree
  refine notes_get ?_
  have set : testBit (s.blocks (sb.bblock b)) (b % BPB) = true := (h.used b inside).trans used
  rw [if_pos set]
  refine ((bstore_logWrite_notes _ _).mono bitmap).conseq fun _ t ⟨same, logged, blocks⟩ =>
    ⟨same, logged.mono bitmap, ?_⟩
  refine (h.setBit valid inside (clearBit (s.blocks (sb.bblock b)) (b % BPB)) false fun j => ?_).congr
    blocks
  rw [testBit_clearBit]
  by_cases here : j = b % BPB
  · rw [here, if_pos rfl, decide_eq_true rfl, Bool.not_true, Bool.and_false]
  · rw [if_neg here, decide_eq_false (Ne.symm here), Bool.not_false, Bool.and_true]

omit reserved in
/-- `iupdate` stores the inode. -/
theorem iupdate_does {ip : InodePtr} (h : Shows sb s v) (inside : (s.itable ip).inum < sb.ninodes)
    (fits : (s.itable ip).toDinode.Fits) :
    Does 1 (iupdate sb ip) (fun _ t => SameTables s t ∧
      Logged (· = sb.iblock (s.itable ip).inum) s t ∧
      Shows sb t (v.setInode (s.itable ip).inum (s.itable ip).toDinode)) s := by
  refine does_get (does_get ?_)
  refine (bstore_logWrite_does _ _).conseq fun _ t ⟨same, logged, blocks⟩ => ⟨same, logged, ?_⟩
  exact (h.setInode valid inside _ _ (getDinode_setDinode fits)
    fun j away => setDinode_out away).congr blocks

omit reserved in
theorem iupdate_notes {ip : InodePtr} (h : Shows sb s v) (inside : (s.itable ip).inum < sb.ninodes)
    (fits : (s.itable ip).toDinode.Fits) :
    Notes (· = sb.iblock (s.itable ip).inum) (iupdate sb ip) (fun _ t => SameTables s t ∧
      Logged (· = sb.iblock (s.itable ip).inum) s t ∧
      Shows sb t (v.setInode (s.itable ip).inum (s.itable ip).toDinode)) s := by
  refine notes_get (notes_get ?_)
  refine (bstore_logWrite_notes _ _).conseq fun _ t ⟨same, logged, blocks⟩ => ⟨same, logged, ?_⟩
  exact (h.setInode valid inside _ _ (getDinode_setDinode fits)
    fun j away => setDinode_out away).congr blocks

end Valid

end Functions

end Xv6Lab.Fs

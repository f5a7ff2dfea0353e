import Mathlib.Data.Finset.Card
import Xv6Lab.Fs.Files

/-! The blocks that are free, and how many of them `bmap` takes: every place of the inode that it
fills takes one, and it fails exactly when there are too few. -/

namespace Xv6Lab.Fs

open Bytes Exec

/-- The number of blocks that are free. -/
def Disk.room (sb : Superblock) (v : Disk) : Nat :=
  ((Finset.range sb.size).filter fun b => v.used b = false).card

/-- The blocks that `bmap` takes to give block `bn` of the file a block. -/
def Disk.missing (v : Disk) (d : Dinode) (bn : Nat) : Nat :=
  if v.at d (dataPlace bn) ≠ 0 then 0
  else if NDIRECT ≤ bn ∧ d.addrs INDIRECT = 0 then 2
  else 1

/-- The places that give block `bn` of a file its block. -/
def needs (bn : Nat) : Finset Place :=
  if NDIRECT ≤ bn then {dataPlace bn, .slot INDIRECT} else {dataPlace bn}

/-- The places `N` of an inode have got blocks, which were free, and its other places are as
before. -/
structure Fills (sb : Superblock) (N : Finset Place) (v : Disk) (d : Dinode) (v' : Disk) (d' : Dinode) :
    Prop where
  empty : ∀ p ∈ N, v.at d p = 0
  filled : ∀ p ∈ N, v'.at d' p ≠ 0
  others : ∀ q ∉ N, v'.at d' q = v.at d q
  room : v'.room sb + N.card = v.room sb

/-- What looking for the block of place `p` leaves, with the block number that it returns: places
among `need` are filled, and no block is free where there is none for `p`. -/
def Supplies (sb : Superblock) (ip : InodePtr) (need : Finset Place) (p : Place) (s : State) (v : Disk)
    (addr : Nat) (t : State) : Prop :=
  ∃ v' N, Holds sb ip t v' ∧ N ⊆ need ∧
    Fills sb N v (s.itable ip).toDinode v' (t.itable ip).toDinode ∧
    v'.at (t.itable ip).toDinode p = addr ∧ (addr = 0 → v'.room sb = 0)

section Room

variable {sb : Superblock} {ip : InodePtr} {s t : State} {v v' w : Disk} {d d' d'' : Dinode}
  {k : Fin 13} {N M : Finset Place} {p : Place} {addr b bn : Nat}

theorem Disk.room_alloc (below : b < sb.size) (clear : v.used b = false) :
    (v.alloc b).room sb + 1 = v.room sb := by
  have member : b ∈ (Finset.range sb.size).filter fun c => v.used c = false :=
    Finset.mem_filter.mpr ⟨Finset.mem_range.mpr below, clear⟩
  have erased : ((Finset.range sb.size).filter fun c => (v.alloc b).used c = false) =
      ((Finset.range sb.size).filter fun c => v.used c = false).erase b := by
    ext c
    rw [Finset.mem_erase, Finset.mem_filter, Finset.mem_filter]
    by_cases this : c = b
    · subst this
      simp [Disk.alloc]
    · have same : (v.alloc b).used c = v.used c := Function.update_of_ne this ..
      rw [same]
      simp [this]
  unfold Disk.room
  rw [erased, Finset.card_erase_add_one member]

theorem Disk.room_full (all : ∀ b < sb.size, v.used b = true) : v.room sb = 0 := by
  unfold Disk.room
  rw [Finset.card_eq_zero, Finset.filter_eq_empty_iff]
  intro b inside clear
  rw [all b (Finset.mem_range.mp inside)] at clear
  cases clear

/-! ### Places that get blocks -/

theorem Fills.refl (sb : Superblock) (v : Disk) (d : Dinode) : Fills sb ∅ v d v d :=
  ⟨nofun, nofun, fun _ _ => rfl, rfl⟩

theorem Fills.trans (one : Fills sb N v d v' d') (two : Fills sb M v' d' w d'') :
    Fills sb (N ∪ M) v d w d'' := by
  have apart : ∀ p ∈ N, p ∉ M := fun p first second => one.filled p first (two.empty p second)
  refine ⟨fun p inside => ?_, fun p inside => ?_, fun q outside => ?_, ?_⟩
  · by_cases first : p ∈ N
    · exact one.empty p first
    · rw [← one.others p first]
      exact two.empty p ((Finset.mem_union.mp inside).resolve_left first)
  · by_cases second : p ∈ M
    · exact two.filled p second
    · rw [two.others p second]
      exact one.filled p ((Finset.mem_union.mp inside).resolve_right second)
  · rw [Finset.mem_union, not_or] at outside
    rw [two.others q outside.2, one.others q outside.1]
  · rw [Finset.card_union_of_disjoint (Finset.disjoint_left.mpr apart), ← one.room, ← two.room]
    omega

/-- One place gets a block. -/
theorem Fills.one (empty : v.at d p = 0) (filled : v'.at d' p ≠ 0)
    (others : ∀ q ≠ p, v'.at d' q = v.at d q) (room : v'.room sb + 1 = v.room sb) :
    Fills sb {p} v d v' d' := by
  refine ⟨fun q inside => ?_, fun q inside => ?_, fun q outside => ?_, room⟩
  · rw [Finset.mem_singleton.mp inside]
    exact empty
  · rw [Finset.mem_singleton.mp inside]
    exact filled
  · exact others q fun same => outside (Finset.mem_singleton.mpr same)

/-- The blocks of a state determine how many are free. -/
theorem Shows.room_eq (h : Shows sb s v) (h' : Shows sb s v') : v.room sb = v'.room sb := by
  unfold Disk.room
  congr 1
  refine Finset.filter_congr fun b inside => ?_
  have below := Finset.mem_range.mp inside
  rw [← h.used b below, ← h'.used b below]

/-- They determine what the places of an inode in memory store. -/
theorem Holds.at_eq (h : Holds sb ip s v) (shows' : Shows sb s v') (q : Place) :
    v'.at (s.itable ip).toDinode q = v.at (s.itable ip).toDinode q := by
  refine at_congr rfl (fun some => ?_) q
  obtain ⟨low, high, -⟩ := h.own.range _ h.inside (.slot INDIRECT) (by rw [held_self]; exact some)
  rw [held_self] at low high
  exact (shows'.data _ low high).symm.trans (h.shows.data _ low high)

/-- What a disk stores in the places, and how many blocks are free, is all that counts. -/
theorem Fills.congr (h : Fills sb N v d v' d') (same : ∀ q, w.at d'' q = v'.at d' q)
    (room : w.room sb = v'.room sb) : Fills sb N v d w d'' := by
  refine ⟨h.empty, fun p inside => ?_, fun q outside => ?_, ?_⟩
  · rw [same]
    exact h.filled p inside
  · rw [same]
    exact h.others q outside
  · rw [room]
    exact h.room

/-- The disk that a state holds may be taken for another that it shows. -/
theorem Fills.shown (h : Fills sb N v d w (t.itable ip).toDinode) (shown : Shows sb t w)
    (holds : Holds sb ip t v') : Fills sb N v d v' (t.itable ip).toDinode :=
  h.congr (fun q => (holds.at_eq shown q).symm) (holds.shows.room_eq shown)

theorem Holds.same (h : Holds sb ip s v) (same : SameTables s t) (shows' : Shows sb t v) :
    Holds sb ip t v := by
  have inode : t.itable ip = s.itable ip := by rw [same.itable]
  refine ⟨shows', ?_, inode.symm ▸ h.inside, inode.symm ▸ h.type⟩
  rw [held_congr rfl inode]
  exact h.own

/-- A place that has a block, or for which there is none, stays as it is. -/
theorem Holds.supplies {need : Finset Place} (h : Holds sb ip s v) (same : SameTables s t)
    (shows' : Shows sb t v) (is : v.at (s.itable ip).toDinode p = addr)
    (full : addr = 0 → v.room sb = 0) : Supplies sb ip need p s v addr t := by
  refine ⟨v, ∅, h.same same shows', Finset.empty_subset _, ?_, ?_, full⟩
  · rw [same.itable]
    exact .refl sb v _
  · rw [same.itable]
    exact is

theorem dataPlace_mem (bn : Nat) : dataPlace bn ∈ needs bn := by
  unfold needs
  split
  · exact Finset.mem_insert_self ..
  · exact Finset.mem_singleton_self _

theorem mem_needs : p ∈ needs bn ↔ p = dataPlace bn ∨ NDIRECT ≤ bn ∧ p = .slot INDIRECT := by
  unfold needs
  split
  · next indirect =>
    rw [Finset.mem_insert, Finset.mem_singleton]
    exact or_congr_right ⟨fun is => ⟨indirect, is⟩, And.right⟩
  · next direct =>
    rw [Finset.mem_singleton]
    exact ⟨.inl, fun which => which.resolve_right fun both => direct both.1⟩

/-- The blocks that are missing are those of the empty places. -/
theorem Disk.missing_eq (v : Disk) (d : Dinode) (bn : Nat) :
    v.missing d bn = ((needs bn).filter fun p => v.at d p = 0).card := by
  have apart : dataPlace bn ≠ .slot INDIRECT := dataPlace_ne bn
  have slot : v.at d (.slot INDIRECT) = d.addrs INDIRECT := rfl
  unfold Disk.missing needs
  by_cases indirect : NDIRECT ≤ bn
  · have word : d.addrs INDIRECT = 0 → v.at d (dataPlace bn) = 0 := by
      intro none
      rw [dataPlace, dif_neg (Nat.not_lt.mpr indirect)]
      exact at_word_none none _
    rw [if_pos indirect, Finset.filter_insert, Finset.filter_singleton, slot]
    by_cases none : d.addrs INDIRECT = 0
    · rw [if_neg (not_not.mpr (word none)), if_pos ⟨indirect, none⟩, if_pos (word none), if_pos none,
        Finset.card_pair apart]
    · rw [if_neg (c := NDIRECT ≤ bn ∧ d.addrs INDIRECT = 0) fun both => none both.2, if_neg none]
      by_cases empty : v.at d (dataPlace bn) = 0
      · rw [if_neg (not_not.mpr empty), if_pos empty]
        rfl
      · rw [if_pos empty, if_neg empty]
        rfl
  · rw [if_neg indirect, if_neg (c := NDIRECT ≤ bn ∧ d.addrs INDIRECT = 0) fun both => indirect both.1,
      Finset.filter_singleton]
    by_cases empty : v.at d (dataPlace bn) = 0
    · rw [if_neg (not_not.mpr empty), if_pos empty]
      rfl
    · rw [if_pos empty, if_neg empty]
      rfl

/-- `bmap` fails exactly when fewer blocks are free than it takes. -/
theorem Supplies.some_iff (h : Supplies sb ip (needs bn) (dataPlace bn) s v addr t) :
    addr ≠ 0 ↔ v.missing (s.itable ip).toDinode bn ≤ v.room sb := by
  obtain ⟨v', N, -, within, fills, is, full⟩ := h
  have room := fills.room
  have taken : ∀ p ∈ N, p ∈ (needs bn).filter fun p => v.at (s.itable ip).toDinode p = 0 :=
    fun p inside => Finset.mem_filter.mpr ⟨within inside, fills.empty p inside⟩
  rw [Disk.missing_eq]
  constructor
  · intro some
    have all : ((needs bn).filter fun p => v.at (s.itable ip).toDinode p = 0) ⊆ N := by
      intro p inside
      obtain ⟨need, empty⟩ := Finset.mem_filter.mp inside
      by_contra outside
      have same := fills.others p outside
      rcases mem_needs.mp need with rfl | ⟨indirect, rfl⟩
      · exact some (is.symm.trans (same.trans empty))
      · -- the indirect block is there once one of its words is
        rw [dataPlace, dif_neg (Nat.not_lt.mpr indirect), at_word_none (same.trans empty)] at is
        exact some is.symm
    have bound := Finset.card_le_card all
    omega
  · rintro enough rfl
    have outside : dataPlace bn ∉ N := fun inside => fills.filled _ inside is
    have member : dataPlace bn ∈ (needs bn).filter fun p => v.at (s.itable ip).toDinode p = 0 :=
      Finset.mem_filter.mpr ⟨dataPlace_mem bn, (fills.others _ outside).symm.trans is⟩
    have fewer := Finset.card_lt_card
      (Finset.ssubset_iff_of_subset (fun p => taken p) |>.mpr ⟨_, member, outside⟩)
    have none := full rfl
    omega

variable (valid : sb.Valid)
include valid

/-- `balloc` fails where no block is free. -/
theorem balloc_ok (reserved : ∀ b < sb.nmeta, v.used b = true) (shows' : Shows sb s v)
    (run : balloc sb s = .ok addr t) : SameTables s t ∧
      ((addr = 0 ∧ v.room sb = 0 ∧ Shows sb t v) ∨ (addr ≠ 0 ∧ sb.nmeta ≤ addr ∧ addr < sb.size ∧
        v.used addr = false ∧ Shows sb t (v.alloc addr))) := by
  obtain ⟨-, same, -, v', shown, taken⟩ := wp_ok (balloc_does valid reserved shows') run
  refine ⟨same, ?_⟩
  rcases taken with ⟨rfl, rfl, all⟩ | ⟨below, clear, rfl⟩
  · exact .inl ⟨rfl, Disk.room_full all, shown⟩
  · have low : sb.nmeta ≤ addr := by
      by_contra less
      rw [reserved addr (by omega)] at clear
      cases clear
    have start := valid.nmeta_pos below
    exact .inr ⟨by omega, low, below, clear, shown⟩

theorem bmapSlot_supplies (h : Holds sb ip s v) (run : bmapSlot sb ip k s = .ok addr t) :
    Supplies sb ip {.slot k} (.slot k) s v addr t := by
  obtain ⟨-, v', mapped⟩ := wp_ok (bmapSlot_does valid h k) run
  unfold bmapSlot at run
  change (if (s.itable ip).addrs k = 0 then _ else _ : F Nat) s = _ at run
  split at run
  · next empty =>
    obtain ⟨b, u, taken, rest⟩ := ok_of_bind run
    obtain ⟨same, ⟨rfl, full, shown⟩ | ⟨positive, -, below, clear, shown⟩⟩ :=
      balloc_ok valid h.own.reserved h.shows taken
    · rw [if_pos rfl] at rest
      cases rest
      exact h.supplies same shown empty fun _ => full
    · rw [if_neg positive] at rest
      obtain ⟨_, w, updated, last⟩ := ok_of_bind rest
      cases updated
      cases last
      set t := u.setInode ip { u.itable ip with addrs := Function.update (u.itable ip).addrs k addr } with is
      have inode : (t.itable ip).toDinode = (s.itable ip).toDinode.setAddr k addr := by
        rw [is, State.setInode_itable, Function.update_self, same.itable]
        rfl
      have here : (v.alloc addr).at (t.itable ip).toDinode (.slot k) = addr := by
        rw [inode]
        exact Function.update_self ..
      have slot : (held v s ip (s.itable ip).inum).addrs k = 0 := by
        rw [held_self]
        exact empty
      have fills : Fills sb {.slot k} v (s.itable ip).toDinode (v.alloc addr) (t.itable ip).toDinode := by
        refine .one empty (by rw [here]; exact positive) (fun q other => ?_)
          (Disk.room_alloc below clear)
        have kept := h.own.at_placeSlot clear slot h.inside (.inr other)
        rwa [Function.update_self, held_self, ← inode] at kept
      have shown' : Shows sb t (v.alloc addr) := shown.congr rfl
      refine ⟨v', _, mapped.holds, Finset.Subset.refl _, fills.shown shown' mapped.holds, ?_,
        fun none => absurd none positive⟩
      rw [← mapped.holds.at_eq shown']
      exact here
  · next some =>
    cases run
    exact h.supplies (.refl s) h.shows rfl fun none => absurd none some

theorem bmapWord_supplies (h : Holds sb ip s v) (some : (s.itable ip).addrs INDIRECT ≠ 0)
    (w : Fin NINDIRECT) (run : bmapWord sb ((s.itable ip).addrs INDIRECT) w s = .ok addr t) :
    Supplies sb ip {.word w} (.word w) s v addr t := by
  obtain ⟨-, v', mapped⟩ := wp_ok (bmapWord_does valid h some w) run
  have some' : (held v s ip (s.itable ip).inum).addrs INDIRECT ≠ 0 := by
    rw [held_self]
    exact some
  obtain ⟨low, high, -⟩ := h.own.range _ h.inside (.slot INDIRECT) some'
  rw [held_self] at low high
  change sb.nmeta ≤ (s.itable ip).addrs INDIRECT at low
  change (s.itable ip).addrs INDIRECT < sb.size at high
  have stored : v.at (s.itable ip).toDinode (.word w) =
      word (v.data ((s.itable ip).addrs INDIRECT)) w := at_word some w
  unfold bmapWord at run
  change (if word (s.blocks ((s.itable ip).addrs INDIRECT)) w = 0 then _ else _ : F Nat) s = _ at run
  rw [h.shows.data _ low high] at run
  split at run
  · next empty =>
    obtain ⟨b, u, taken, rest⟩ := ok_of_bind run
    obtain ⟨same, ⟨rfl, full, shown⟩ | ⟨positive, -, below, clear, shown⟩⟩ :=
      balloc_ok valid h.own.reserved h.shows taken
    · rw [if_pos rfl] at rest
      cases rest
      exact h.supplies same shown (stored.trans empty) fun _ => full
    · rw [if_neg positive] at rest
      have logged : Does 1 (do
          bstore ((s.itable ip).addrs INDIRECT)
            (setLe (v.data ((s.itable ip).addrs INDIRECT)) (4 * w) 4 b)
          logWrite ((s.itable ip).addrs INDIRECT)) _ u := bstore_logWrite_does _ _
      obtain ⟨_, x, first, rest⟩ := ok_of_bind rest
      obtain ⟨_, y, second, last⟩ := ok_of_bind rest
      cases last
      obtain ⟨-, kept, -, blocks⟩ := wp_ok logged ((bind_ok first).trans second)
      have inode : t.itable ip = s.itable ip := by rw [kept.itable, same.itable]
      have shown' : Shows sb t (v.enter ((s.itable ip).addrs INDIRECT) w addr) :=
        (shown.setData valid low high _).congr blocks
      have here : (v.enter ((s.itable ip).addrs INDIRECT) w addr).at (t.itable ip).toDinode (.word w) =
          addr := by
        have small : addr < 2 ^ 32 := Nat.lt_trans below (Nat.lt_trans valid.small (by decide))
        rw [inode, at_word some, Disk.enter, Disk.setData_self, word, le_setLe _ _ (by omega)]
      have fills : Fills sb {.word w} v (s.itable ip).toDinode
          (v.enter ((s.itable ip).addrs INDIRECT) w addr) (t.itable ip).toDinode := by
        refine .one (stored.trans empty) (by rw [here]; exact positive) (fun q other => ?_)
          (Disk.room_alloc below clear)
        have kept := h.own.at_placeWord h.inside clear some' h.inside (.inr other)
        rw [held_self] at kept
        rw [inode]
        exact kept
      refine ⟨v', _, mapped.holds, Finset.Subset.refl _, fills.shown shown' mapped.holds, ?_,
        fun none => absurd none positive⟩
      rw [← mapped.holds.at_eq shown']
      exact here
  · next filled =>
    cases run
    exact h.supplies (.refl s) h.shows stored fun none => absurd none filled

/-- `bmap` fills the places that it needs, as long as blocks are free. -/
theorem bmap_supplies (h : Holds sb ip s v) (inside : bn < MAXFILE)
    (run : bmap sb ip bn s = .ok addr t) : Supplies sb ip (needs bn) (dataPlace bn) s v addr t := by
  unfold bmap at run
  split at run
  · next direct =>
    have place := dataPlace_direct direct
    rw [needs, if_neg (Nat.not_le.mpr direct), place]
    exact bmapSlot_supplies valid h run
  · next indirect =>
    have all : MAXFILE = NDIRECT + NINDIRECT := rfl
    have small : bn - NDIRECT < NINDIRECT := by omega
    have place := dataPlace_indirect indirect small
    rw [if_pos small] at run
    rw [needs, if_pos (Nat.le_of_not_lt indirect), place]
    obtain ⟨block, u, slot, rest⟩ := ok_of_bind run
    obtain ⟨v', N, holds, within, fills, is, full⟩ := bmapSlot_supplies valid h slot
    have before : N ⊆ {.word ⟨bn - NDIRECT, small⟩, .slot INDIRECT} :=
      within.trans (Finset.subset_insert ..)
    by_cases none : block = 0
    · rw [if_pos none] at rest
      cases rest
      refine ⟨v', N, holds, before, fills, at_word_none (is.trans none) _, fun _ => full none⟩
    · rw [if_neg none] at rest
      have here : (u.itable ip).addrs INDIRECT = block := is
      rw [← here] at none rest
      obtain ⟨v'', M, holds', within', fills', is', full'⟩ :=
        bmapWord_supplies valid holds none ⟨bn - NDIRECT, small⟩ rest
      refine ⟨v'', N ∪ M, holds', Finset.union_subset before ?_, fills.trans fills', is', full'⟩
      exact within'.trans fun q inside => Finset.mem_insert.mpr (.inl (Finset.mem_singleton.mp inside))

/-- `bmap` fails exactly when fewer blocks are free than it takes. -/
theorem bmap_ok (h : Holds sb ip s v) (inside : bn < MAXFILE) (run : bmap sb ip bn s = .ok addr t) :
    addr ≠ 0 ↔ v.missing (s.itable ip).toDinode bn ≤ v.room sb :=
  (bmap_supplies valid h inside run).some_iff

end Room

end Xv6Lab.Fs

import Mathlib.Data.Finset.Union
import Xv6Lab.Fs.Room

/-! How far a file can grow: `writei` stops short exactly where the blocks that the file lacks are
more than the free ones. -/

namespace Xv6Lab.Fs

open Bytes Exec

/-- The places that give the first `n` blocks of a file their blocks. -/
def places (n : Nat) : Finset Place := (Finset.range n).biUnion needs

/-- The blocks that a file lacks of its first `n` blocks, with the indirect block. -/
def Disk.lacking (v : Disk) (d : Dinode) (n : Nat) : Nat :=
  ((places n).filter fun p => v.at d p = 0).card

/-- The blocks of `len` bytes. -/
def blocksFor (len : Nat) : Nat := (len + BSIZE - 1) / BSIZE

/-- Enough blocks are free for file `i` to have `len` bytes. -/
def Disk.RoomFor (sb : Superblock) (v : Disk) (i len : Nat) : Prop :=
  v.lacking (v.inode i) (blocksFor len) ≤ v.room sb

/-- The blocks that `writei` has taken where it has written `m` of `n` bytes at `off`: those that the
bytes lie in and, where it has stopped short, all that were free. -/
def Grows (sb : Superblock) (off m n : Nat) (v : Disk) (d : Dinode) (v' : Disk) (d' : Dinode) : Prop :=
  ∃ N, Fills sb N v d v' d' ∧
    (∀ k, blocksFor (off + m) ≤ k → (m < n → (off + m) / BSIZE < k) → N ⊆ places k) ∧
    (m < n → v'.room sb = 0 ∧ v'.at d' (dataPlace ((off + m) / BSIZE)) = 0)

section Lacking

variable {sb : Superblock} {v v' : Disk} {d d' : Dinode} {N : Finset Place} {p : Place}
  {k n m bn off len : Nat}

theorem mem_places : p ∈ places n ↔ ∃ bn < n, p ∈ needs bn := by
  unfold places
  rw [Finset.mem_biUnion]
  exact exists_congr fun bn => and_congr_left' Finset.mem_range

theorem needs_subset (inside : bn < n) : needs bn ⊆ places n := fun _ member =>
  mem_places.mpr ⟨bn, inside, member⟩

theorem places_mono (more : n ≤ m) : places n ⊆ places m := by
  intro p member
  obtain ⟨bn, inside, needed⟩ := mem_places.mp member
  exact needs_subset (by omega) needed

theorem Disk.lacking_mono (more : n ≤ m) : v.lacking d n ≤ v.lacking d m :=
  Finset.card_le_card (Finset.filter_subset_filter _ (places_mono more))

theorem blocksFor_mono (more : n ≤ m) : blocksFor n ≤ blocksFor m := by
  unfold blocksFor BSIZE
  omega

theorem blocksFor_succ (n : Nat) : blocksFor (n + 1) = n / BSIZE + 1 := by
  unfold blocksFor BSIZE
  omega

theorem Disk.RoomFor.mono {i : Nat} (h : v.RoomFor sb i m) (fewer : n ≤ m) : v.RoomFor sb i n :=
  (Disk.lacking_mono (blocksFor_mono fewer)).trans h

/-- Places that get blocks are lacking no more. -/
theorem Fills.lacking_le (h : Fills sb N v d v' d') (n : Nat) :
    v.lacking d n ≤ v'.lacking d' n + N.card := by
  refine (Finset.card_le_card fun p member => ?_).trans (Finset.card_union_le ..)
  obtain ⟨place, empty⟩ := Finset.mem_filter.mp member
  by_cases new : p ∈ N
  · exact Finset.mem_union_right _ new
  · exact Finset.mem_union_left _ (Finset.mem_filter.mpr ⟨place, (h.others p new).trans empty⟩)

theorem Fills.lacking_eq (h : Fills sb N v d v' d') (within : N ⊆ places n) :
    v.lacking d n = v'.lacking d' n + N.card := by
  have apart : Disjoint ((places n).filter fun p => v'.at d' p = 0) N :=
    Finset.disjoint_left.mpr fun p member new => h.filled p new (Finset.mem_filter.mp member).2
  refine Nat.le_antisymm (h.lacking_le n) ?_
  unfold Disk.lacking
  rw [← Finset.card_union_of_disjoint apart]
  refine Finset.card_le_card fun p member => ?_
  rcases Finset.mem_union.mp member with old | new
  · obtain ⟨place, empty⟩ := Finset.mem_filter.mp old
    have other : p ∉ N := fun new => h.filled p new empty
    exact Finset.mem_filter.mpr ⟨place, (h.others p other).symm.trans empty⟩
  · exact Finset.mem_filter.mpr ⟨within new, h.empty p new⟩

/-- A file without holes lacks no block below its size. -/
theorem Solid.lacking_zero (solid : Solid v d) (within : len ≤ d.size) :
    v.lacking d (blocksFor len) = 0 := by
  unfold Disk.lacking
  rw [Finset.card_eq_zero, Finset.filter_eq_empty_iff]
  intro p member empty
  obtain ⟨bn, inside, needed⟩ := mem_places.mp member
  have byte : bn * BSIZE < len := by
    unfold blocksFor BSIZE at *
    omega
  have mapped := solid.mapped (bn * BSIZE) (by omega)
  rw [Nat.mul_div_cancel bn (by decide)] at mapped
  rcases mem_needs.mp needed with rfl | ⟨indirect, rfl⟩
  · exact mapped empty
  · rw [dataPlace, dif_neg (Nat.not_lt.mpr indirect)] at mapped
    exact mapped (at_word_none empty _)

/-! ### What a write takes -/

theorem Grows.refl (sb : Superblock) (off : Nat) (v : Disk) (d : Dinode) : Grows sb off 0 0 v d v d :=
  ⟨∅, .refl sb v d, fun _ _ _ => Finset.empty_subset _, fun less => absurd less (Nat.lt_irrefl 0)⟩

theorem Grows.congr {w : Disk} {d'' : Dinode} (h : Grows sb off m n v d v' d')
    (same : ∀ q, w.at d'' q = v'.at d' q) (room : w.room sb = v'.room sb) :
    Grows sb off m n v d w d'' := by
  obtain ⟨N, fills, within, short⟩ := h
  refine ⟨N, fills.congr same room, within, fun less => ?_⟩
  rw [room, same]
  exact short less

theorem Grows.trans {v'' : Disk} {d'' : Dinode} (one : Grows sb off m m v d v' d')
    (two : Grows sb (off + m) k (n - m) v' d' v'' d'') : Grows sb off (m + k) n v d v'' d'' := by
  obtain ⟨N, first, within, -⟩ := one
  obtain ⟨M, second, within', short⟩ := two
  refine ⟨N ∪ M, first.trans second, fun j enough stops => Finset.union_subset ?_ ?_, fun less => ?_⟩
  · refine within j (Nat.le_trans (blocksFor_mono ?_) enough) fun less => absurd less (Nat.lt_irrefl m)
    omega
  · refine within' j ?_ fun less => ?_
    · rw [Nat.add_assoc]
      exact enough
    · rw [Nat.add_assoc]
      exact stops (by omega)
  · rw [← Nat.add_assoc]
    exact short (by omega)

/-- There was room for what has been written. -/
theorem Grows.enough (h : Grows sb off m n v d v' d') (solid : Solid v' d') (within : off + m ≤ d'.size) :
    v.lacking d (blocksFor (off + m)) ≤ v.room sb := by
  obtain ⟨N, fills, -, -⟩ := h
  have none := solid.lacking_zero within
  have bound := fills.lacking_le (blocksFor (off + m))
  have room := fills.room
  omega

/-- There was no room for one byte more. -/
theorem Grows.short (h : Grows sb off m n v d v' d') (less : m < n) :
    ¬ v.lacking d (blocksFor (off + m + 1)) ≤ v.room sb := by
  obtain ⟨N, fills, within, short⟩ := h
  obtain ⟨none, empty⟩ := short less
  rw [blocksFor_succ]
  have bound := fills.lacking_eq (within ((off + m) / BSIZE + 1) (by unfold blocksFor BSIZE; omega)
    fun _ => Nat.lt_succ_self _)
  have room := fills.room
  have some : 0 < v'.lacking d' ((off + m) / BSIZE + 1) :=
    Finset.card_pos.mpr ⟨_, Finset.mem_filter.mpr
      ⟨needs_subset (Nat.lt_succ_self _) (dataPlace_mem _), empty⟩⟩
  omega

end Lacking

/-! ### `writei` -/

section Writei

variable {sb : Superblock} {ip : InodePtr} {s t : State} {v w : Disk} {src : Buffer} {off m n : Nat}

theorem Resized.ready {size : Nat} (h : Resized ip size s t) (ready : Ready s ip) : Ready t ip := by
  obtain ⟨addrs, is⟩ := h.inode
  refine ⟨?_, ?_⟩
  · rw [is]
    exact ready.live
  · rw [is]
    exact ready.valid

/-- A block of the file is written to. -/
theorem Holds.write (valid : sb.Valid) (h : Holds sb ip s v) {bn : Nat} (inside : bn < MAXFILE)
    (some : v.at (s.itable ip).toDinode (dataPlace bn) ≠ 0) {data : Block} (same : SameTables s t)
    (blocks : t.blocks = Function.update s.blocks (v.at (s.itable ip).toDinode (dataPlace bn)) data) :
    ∃ v', Holds sb ip t v' ∧ Fills sb ∅ v (s.itable ip).toDinode v' (t.itable ip).toDinode := by
  have here : held v s ip (s.itable ip).inum = (s.itable ip).toDinode := held_self
  have filled : v.at (held v s ip (s.itable ip).inum) (dataPlace bn) ≠ 0 := here.symm ▸ some
  obtain ⟨low, high, -⟩ := h.own.range _ h.inside _ filled
  obtain ⟨kept, own, -⟩ := h.own.write h.inside inside filled data
  rw [here] at low high kept own
  have inode : t.itable ip = s.itable ip := by rw [same.itable]
  set v' := v.setData (v.at (s.itable ip).toDinode (dataPlace bn)) data
  have shown : Shows sb t v' := (h.shows.setData valid low high data).congr blocks
  refine ⟨v', ⟨shown, ?_, inode.symm ▸ h.inside, inode.symm ▸ h.type⟩, nofun, nofun, fun q _ => ?_, rfl⟩
  · rw [held_congr rfl inode]
    exact own
  · have places := kept (s.itable ip).inum h.inside q
    rw [here] at places
    rw [inode]
    exact places

theorem writeiLoop_grows (valid : sb.Valid) (fuel : Nat) {tot : Nat} (h : Holds sb ip s v)
    (upTo : tot ≤ n) (enough : n ≤ tot + fuel) (fits : off + (n - tot) ≤ MAXFILE * BSIZE) {r : Nat × Nat}
    (run : writeiLoop sb ip src n fuel tot off s = .ok r t) :
    ∃ m v', r = (tot + m, off + m) ∧ tot + m ≤ n ∧ Holds sb ip t v' ∧
      Grows sb off m (n - tot) v (s.itable ip).toDinode v' (t.itable ip).toDinode := by
  induction fuel generalizing tot off s v with
  | zero =>
    cases run
    refine ⟨0, v, rfl, upTo, h, ?_⟩
    rw [show n - tot = 0 by omega]
    exact .refl ..
  | succ fuel ih =>
    unfold writeiLoop at run
    by_cases more : tot < n
    swap
    · rw [if_neg more] at run
      cases run
      refine ⟨0, v, rfl, upTo, h, ?_⟩
      rw [show n - tot = 0 by omega]
      exact .refl ..
    rw [if_pos more] at run
    have block : off / BSIZE < MAXFILE := by
      rw [Nat.div_lt_iff_lt_mul (by decide)]
      omega
    obtain ⟨addr, u, found, rest⟩ := ok_of_bind run
    obtain ⟨v₁, N, holds, within, fills, is, full⟩ := bmap_supplies valid h block found
    by_cases none : addr = 0
    · -- no block is free
      rw [if_pos none] at rest
      cases rest
      refine ⟨0, v₁, rfl, upTo, holds, N, fills, fun k _ stops => ?_, fun _ => ⟨full none, is.trans none⟩⟩
      exact within.trans (needs_subset (stops (by omega)))
    · rw [if_neg none] at rest
      change (do
        bstore addr (blit (u.blocks addr) (off % BSIZE) (fun i => src (tot + i)) (chunk off (n - tot)))
        logWrite addr
        writeiLoop sb ip src n fuel (tot + chunk off (n - tot)) (off + chunk off (n - tot))) u = _ at rest
      have stores : Does 1 (do
          bstore addr (blit (u.blocks addr) (off % BSIZE) (fun i => src (tot + i)) (chunk off (n - tot)))
          logWrite addr) _ u := bstore_logWrite_does _ _
      obtain ⟨_, x, first, rest⟩ := ok_of_bind rest
      obtain ⟨_, y, second, rest⟩ := ok_of_bind rest
      obtain ⟨-, same, -, blocks⟩ := wp_ok stores ((bind_ok first).trans second)
      rw [← is] at none blocks
      obtain ⟨v₂, holds', kept⟩ := holds.write valid block none same blocks
      have advanced : 0 < chunk off (n - tot) := chunk_pos (by omega)
      have size : chunk off (n - tot) ≤ n - tot := Nat.min_le_left ..
      -- the bytes lie in one block
      have one : Grows sb off (chunk off (n - tot)) (chunk off (n - tot)) v (s.itable ip).toDinode v₂
          (y.itable ip).toDinode := by
        refine ⟨N ∪ ∅, fills.trans kept, fun k enough _ => ?_, fun less => absurd less (Nat.lt_irrefl _)⟩
        rw [Finset.union_empty]
        refine within.trans (needs_subset (Nat.lt_of_lt_of_le ?_ enough))
        unfold blocksFor BSIZE at *
        omega
      obtain ⟨m, v', result, below, last, grows⟩ := ih holds' (by omega) (by omega) (by omega) rest
      rw [Nat.sub_add_eq] at grows
      refine ⟨chunk off (n - tot) + m, v', ?_, by omega, last, one.trans grows⟩
      rw [result, Nat.add_assoc, Nat.add_assoc]

/-- `writei` with what it takes of the free blocks. -/
theorem writei_grows (valid : sb.Valid) (h : Consistent sb s v) (ready : Ready s ip)
    (start : off ≤ (s.itable ip).size) (fits : off + n ≤ MAXFILE * BSIZE) {r : Int}
    (run : writei sb ip src off n s = .ok r t) :
    ∃ (m : Nat) (v' : Disk), r = m ∧ m ≤ n ∧ Wrote sb ip src off m s v t v' ∧ SameFiles s t ∧
      Grows sb off m n v (s.itable ip).toDinode v' (t.itable ip).toDinode := by
  obtain ⟨-, m, v', rfl, within, -, wrote, files, -⟩ := wp_ok (writei_does valid h ready start fits) run
  refine ⟨m, v', rfl, within, wrote, files, ?_⟩
  have bound : MAXFILE * BSIZE = 274432 := by decide
  unfold writei at run
  rw [bind_get, Nat.mod_eq_of_lt (by omega),
    if_neg (by omega), if_neg (by omega)] at run
  obtain ⟨⟨tot, off'⟩, u, loop, rest⟩ := ok_of_bind run
  obtain ⟨m', v₁, is, _, holds, grows⟩ :=
    writeiLoop_grows valid n (h.holds ready) (Nat.zero_le n) (by omega) (by omega) loop
  obtain ⟨rfl, rfl⟩ := Prod.mk.inj is
  obtain ⟨_, x, updated, rest⟩ := ok_of_bind rest
  cases updated
  obtain ⟨_, y, stored, last⟩ := ok_of_bind rest
  obtain ⟨count, rfl⟩ := EStateM.Result.ok.inj last
  rw [Nat.zero_add] at count
  obtain rfl : m' = m := Int.ofNat.inj ((asInt_small (by omega)).symm.trans count)
  set x := u.setInode ip { u.itable ip with size := max (u.itable ip).size (off + m') } with xIs
  have inode : x.itable ip = { u.itable ip with size := max (u.itable ip).size (off + m') } :=
    Function.update_self ..
  have loops : Does (6 * blocksIn off (n - 0)) (writeiLoop sb ip src n n 0 off) _ s :=
    writeiLoop_does valid n (h.holds ready) (Nat.zero_le n) (by omega) (by omega)
  obtain ⟨-, _, _, -, -, -, written, -⟩ := wp_ok loops loop
  have small : (x.itable ip).toDinode.Fits := by
    rw [inode]
    refine ⟨?_, holds.fits valid⟩
    have size := (h.solidInode ready).size
    show max (u.itable ip).size (off + m') < 2 ^ 32
    rw [written.only.size]
    omega
  have inside : (x.itable ip).inum < sb.ninodes := by
    rw [inode]
    exact holds.inside
  have shows : Shows sb x v₁ := holds.shows.congr rfl
  obtain ⟨-, same, -, shown⟩ := wp_ok (iupdate_does valid shows inside small) stored
  have final := wrote.consistent.holds (wrote.resized.ready ready)
  refine grows.congr (fun q => ?_) ?_
  · rw [← final.at_eq shown, same.itable]
    exact at_congr (by rw [inode]) (fun _ => rfl) q
  · rw [final.shows.room_eq shown]
    rfl

end Writei

end Xv6Lab.Fs

import Xv6Lab.Fs.Files

/-! Files are given back.  `itrunc` frees the blocks of every place of an inode; in between, the
places still store blocks that are free already, so ownership is stated again at its end, for the
inode without blocks that `iput` leaves on the disk. -/

namespace Xv6Lab.Fs

open Bytes Exec

/-- The blocks in the places `gone` of an inode are given back. -/
def Disk.release (v : Disk) (d : Dinode) (gone : List Place) : Disk :=
  { v with used := fun b => v.used b && !decide (b ≠ 0 ∧ ∃ p ∈ gone, v.at d p = b) }

/-- The inode with other slots. -/
def Inode.setAddrs (inode : Inode) (addrs : Fin 13 → Nat) : Inode := { inode with addrs := addrs }

/-- Some places of the inode at `ip` have been emptied. -/
structure Trimmed (sb : Superblock) (ip : InodePtr) (s : State) (v : Disk) (gone : List Place)
    (t : State) : Prop where
  shows : Shows sb t (v.release (s.itable ip).toDinode gone)
  inode : t.itable ip = (s.itable ip).setAddrs fun k =>
    if .slot k ∈ gone then 0 else (s.itable ip).addrs k
  others : ∀ jp ≠ ip, t.itable jp = s.itable jp
  ftable : t.ftable = s.ftable
  procs : t.procs = s.procs
  current : t.current = s.current
  logged : Logged sb.IsBitmap s t

section Release

variable {sb : Superblock} {ip : InodePtr} {s t : State} {v : Disk} {L L' : Nat → Dinode} {i : Nat}
  {d : Dinode} {gone : List Place} {p : Place}

theorem release_used {b : Nat} : (v.release d gone).used b = true ↔
    v.used b = true ∧ (b = 0 ∨ ∀ p ∈ gone, v.at d p ≠ b) := by
  show (v.used b && !decide (b ≠ 0 ∧ ∃ p ∈ gone, v.at d p = b)) = true ↔ _
  rw [Bool.and_eq_true, Bool.not_eq_true', decide_eq_false_iff_not]
  refine and_congr_right fun _ => ?_
  push Not
  exact or_iff_not_imp_left.symm

/-- An empty place has nothing to give back. -/
theorem release_cons_empty (empty : v.at d p = 0) : v.release d (p :: gone) = v.release d gone := by
  unfold Disk.release
  congr 1
  funext b
  congr 2
  refine decide_eq_decide.mpr (and_congr_right fun positive => ?_)
  rw [List.exists_mem_cons_iff, empty]
  exact or_iff_right fun is => positive is.symm

theorem release_cons (some : v.at d p ≠ 0) :
    v.release d (p :: gone) = (v.release d gone).free (v.at d p) := by
  unfold Disk.release Disk.free
  congr 1
  funext b
  by_cases this : b = v.at d p
  · subst this
    rw [Function.update_self, decide_eq_true ⟨some, p, List.mem_cons_self, rfl⟩, Bool.not_true,
      Bool.and_false]
  · rw [Function.update_of_ne this]
    congr 2
    refine decide_eq_decide.mpr (and_congr_right fun _ => ?_)
    rw [List.exists_mem_cons_iff]
    exact or_iff_right fun is => this is.symm

theorem release_nil : v.release d [] = v := by
  unfold Disk.release
  simp

/-- An inode without blocks gives back the blocks of every place it had. -/
theorem Own.release (own : Own sb v L) (valid : sb.Valid) (hi : i < sb.ninodes)
    (all : ∀ p, v.at (L i) p ≠ 0 → p ∈ gone) (none : ∀ k, (L' i).addrs k = 0)
    (others : ∀ j ≠ i, L' j = L j) : Own sb (v.release (L i) gone) L' := by
  have same : ∀ j ≠ i, ∀ q, (v.release (L i) gone).at (L' j) q = v.at (L j) q := by
    intro j other q
    rw [others j other]
    exact at_congr rfl (fun _ => rfl) q
  have empty : ∀ q, (v.release (L i) gone).at (L' i) q = 0 := by
    intro q
    cases q with
    | slot k => exact none k
    | word j => exact at_word_none (none INDIRECT) j
  refine ⟨fun j hj q some => ?_, fun j hj k hk q r some eq => ?_, fun b above below used => ?_,
    fun b low => ?_, fun j hj free => ?_⟩
  · by_cases this : j = i
    · rw [this] at some
      exact absurd (empty q) some
    · rw [same j this] at some ⊢
      obtain ⟨low, high, inUse⟩ := own.range j hj q some
      refine ⟨low, high, release_used.mpr ⟨inUse, .inr fun p _ eq => ?_⟩⟩
      exact this (own.alone j hj i hi q p some eq.symm).1
  · by_cases this : j = i
    · rw [this] at some
      exact absurd (empty q) some
    · rw [same j this] at some eq
      by_cases that : k = i
      · rw [that, empty] at eq
        exact absurd eq some
      · rw [same k that] at eq
        exact own.alone j hj k hk q r some eq
  · obtain ⟨inUse, kept⟩ := release_used.mp used
    obtain ⟨j, hj, q, is⟩ := own.covered b above below inUse
    have positive : b ≠ 0 := by
      have := valid.nmeta_pos below
      omega
    have other : j ≠ i := by
      rintro rfl
      exact kept.resolve_left positive q (all q (is.symm ▸ positive)) is
    exact ⟨j, hj, q, (same j other q).trans is⟩
  · refine release_used.mpr ⟨own.reserved b low, ?_⟩
    by_contra freed
    push Not at freed
    obtain ⟨positive, p, -, is⟩ := freed
    have := (own.range i hi p (is.symm ▸ positive)).1
    omega
  · by_cases this : j = i
    · rw [this]
      exact none
    · rw [others j this] at free ⊢
      exact own.free j hj free

variable (valid : sb.Valid)
include valid

/-- `bfree` of the block in a place. -/
theorem bfree_place (h : Holds sb ip s v) (shows : Shows sb t (v.release (s.itable ip).toDinode gone))
    (some : v.at (s.itable ip).toDinode p ≠ 0) (fresh : p ∉ gone) :
    Notes sb.IsBitmap (bfree sb (v.at (s.itable ip).toDinode p)) (fun _ u => SameTables t u ∧
      Logged sb.IsBitmap t u ∧ Shows sb u (v.release (s.itable ip).toDinode (p :: gone))) t := by
  have here : held v s ip (s.itable ip).inum = (s.itable ip).toDinode := held_self
  have filled : v.at (held v s ip (s.itable ip).inum) p ≠ 0 := by rwa [here]
  obtain ⟨-, high, inUse⟩ := h.own.range _ h.inside p filled
  rw [here] at high inUse
  have used : (v.release (s.itable ip).toDinode gone).used (v.at (s.itable ip).toDinode p) = true := by
    refine release_used.mpr ⟨inUse, .inr fun q inside same => fresh ?_⟩
    have alone := h.own.alone _ h.inside _ h.inside p q filled
    rw [here] at alone
    rw [(alone same.symm).2]
    exact inside
  rw [release_cons some]
  exact bfree_notes valid shows high used

/-- The block in a slot is freed, and the slot cleared. -/
theorem clearSlot_notes (h : Holds sb ip s v) (trimmed : Trimmed sb ip s v gone t) (k : Fin 13)
    (some : (s.itable ip).addrs k ≠ 0) (fresh : .slot k ∉ gone) :
    Notes sb.IsBitmap (do
        bfree sb ((s.itable ip).addrs k)
        updInode ip fun inode => { inode with addrs := Function.update inode.addrs k 0 })
      (fun _ u => Trimmed sb ip s v (.slot k :: gone) u) t := by
  refine (bfree_place valid h trimmed.shows (p := .slot k) some fresh).bind
    fun _ u ⟨same, logged, shows⟩ => ?_
  refine notes_modify rfl rfl ⟨shows.congr rfl, ?_, fun jp other => ?_,
    same.ftable.trans trimmed.ftable, same.procs.trans trimmed.procs,
    same.current.trans trimmed.current, trimmed.logged.trans logged⟩
  · rw [State.setInode_itable, Function.update_self, same.itable, trimmed.inode]
    refine congrArg (s.itable ip).setAddrs (funext fun m => ?_)
    show Function.update (fun k => if .slot k ∈ gone then 0 else (s.itable ip).addrs k) k 0 m = _
    by_cases this : m = k
    · rw [this, Function.update_self, if_pos List.mem_cons_self]
    · rw [Function.update_of_ne this]
      refine if_congr ?_ rfl rfl
      rw [List.mem_cons]
      exact (or_iff_right fun is => this (Place.slot.inj is)).symm
  · rw [State.setInode_itable, Function.update_of_ne other, same.itable, trimmed.others jp other]

theorem freeSlot_notes (h : Holds sb ip s v) (trimmed : Trimmed sb ip s v gone t) (k : Fin 13)
    (fresh : .slot k ∉ gone) :
    Notes sb.IsBitmap (freeSlot sb ip k) (fun _ u => Trimmed sb ip s v (.slot k :: gone) u) t := by
  have slot : (t.itable ip).addrs k = (s.itable ip).addrs k := by
    rw [trimmed.inode]
    exact if_neg fresh
  unfold freeSlot
  refine notes_get ?_
  rw [slot]
  split
  · next some => exact clearSlot_notes valid h trimmed k some fresh
  · next none =>
    have empty : (s.itable ip).addrs k = 0 := by
      by_contra some
      exact none some
    refine (notes_pure ⟨?_, ?_, trimmed.others, trimmed.ftable, trimmed.procs, trimmed.current,
      trimmed.logged⟩)
    · rw [release_cons_empty (p := .slot k) empty]
      exact trimmed.shows
    · rw [trimmed.inode]
      refine congrArg (s.itable ip).setAddrs (funext fun m => ?_)
      by_cases this : m = k
      · rw [this, if_neg fresh, if_pos List.mem_cons_self, empty]
      · refine if_congr ?_ rfl rfl
        rw [List.mem_cons]
        exact (or_iff_right fun is => this (Place.slot.inj is)).symm

/-- `itrunc` frees a block that the indirect block lists. -/
theorem freeWord_notes (h : Holds sb ip s v) (trimmed : Trimmed sb ip s v gone t)
    (w : Fin NINDIRECT) (fresh : .word w ∉ gone) :
    Notes sb.IsBitmap (if v.at (s.itable ip).toDinode (.word w) ≠ 0 then
        bfree sb (v.at (s.itable ip).toDinode (.word w)) else pure ())
      (fun _ u => Trimmed sb ip s v (.word w :: gone) u) t := by
  have slots : ∀ k, (Place.slot k ∈ .word w :: gone) ↔ .slot k ∈ gone := by
    intro k
    rw [List.mem_cons]
    exact or_iff_right fun is => by cases is
  have inode : t.itable ip = (s.itable ip).setAddrs fun k =>
      if .slot k ∈ .word w :: gone then 0 else (s.itable ip).addrs k := by
    rw [trimmed.inode]
    exact congrArg (s.itable ip).setAddrs (funext fun k => if_congr (slots k).symm rfl rfl)
  split
  · next some =>
    refine (bfree_place valid h trimmed.shows some fresh).conseq fun _ u ⟨same, logged, shows⟩ => ?_
    refine ⟨shows, ?_, fun jp other => ?_, same.ftable.trans trimmed.ftable,
      same.procs.trans trimmed.procs, same.current.trans trimmed.current,
      trimmed.logged.trans logged⟩
    · rw [same.itable]
      exact inode
    · rw [same.itable, trimmed.others jp other]
  · next none =>
    refine (notes_pure ⟨?_, inode, trimmed.others, trimmed.ftable, trimmed.procs, trimmed.current,
      trimmed.logged⟩)
    rw [release_cons_empty (not_not.mp none)]
    exact trimmed.shows

theorem freeIndirect_notes (h : Holds sb ip s v) (trimmed : Trimmed sb ip s v gone t)
    (which : ∀ p, p ∈ gone ↔ ∃ k, p = .slot k ∧ k ≠ INDIRECT) :
    Notes sb.IsBitmap (freeIndirect sb ip) (fun _ u => ∃ gone', Trimmed sb ip s v gone' u ∧
      ∀ p, v.at (s.itable ip).toDinode p ≠ 0 → p ∈ gone') t := by
  have indirect : .slot INDIRECT ∉ gone := by
    intro inside
    obtain ⟨k, is, other⟩ := (which _).mp inside
    exact other (Place.slot.inj is).symm
  have slot : (t.itable ip).addrs INDIRECT = (s.itable ip).addrs INDIRECT := by
    rw [trimmed.inode]
    exact if_neg indirect
  unfold freeIndirect
  refine notes_get ?_
  dsimp only
  rw [slot]
  split
  · next some =>
    have filled : v.at (held v s ip (s.itable ip).inum) (.slot INDIRECT) ≠ 0 := by
      rw [held_self]
      exact some
    obtain ⟨low, high, -⟩ := h.own.range _ h.inside _ filled
    rw [held_self] at low high
    have data : t.blocks ((s.itable ip).addrs INDIRECT) = v.data ((s.itable ip).addrs INDIRECT) :=
      trimmed.shows.data _ low high
    refine notes_get ?_
    rw [data]
    -- the words that are left, and all other places but the indirect block gone
    let left : List Nat → State → Prop := fun rest u => rest.Nodup ∧ (∀ j ∈ rest, j < NINDIRECT) ∧
      ∃ g, Trimmed sb ip s v g u ∧ .slot INDIRECT ∉ g ∧ (∀ k ≠ INDIRECT, .slot k ∈ g) ∧
        ∀ w : Fin NINDIRECT, .word w ∈ g ↔ w.val ∉ rest
    have loop := notes_forM (P := sb.IsBitmap) (s := t) (f := fun j =>
        if word (v.data ((s.itable ip).addrs INDIRECT)) j ≠ 0 then
          bfree sb (word (v.data ((s.itable ip).addrs INDIRECT)) j) else pure ()) left
      (fun j rest u ⟨nodup, small, g, now, hasNot, direct, words⟩ => ?_) (List.range NINDIRECT)
      ⟨List.nodup_range, fun j inside => List.mem_range.mp inside, gone, trimmed, indirect,
        fun k other => (which _).mpr ⟨k, rfl, other⟩, fun w => ?_⟩
    · refine loop.bind fun _ u ⟨_, _, g, now, hasNot, direct, words⟩ => ?_
      refine (clearSlot_notes valid h now INDIRECT some hasNot).conseq fun _ w last => ⟨_, last, ?_⟩
      intro p _
      cases p with
      | slot k =>
        by_cases this : k = INDIRECT
        · rw [this]
          exact List.mem_cons_self
        · exact List.mem_cons_of_mem _ (direct k this)
      | word j => exact List.mem_cons_of_mem _ ((words j).mpr List.not_mem_nil)
    · have bound := small j List.mem_cons_self
      have place := at_word (v := v) some ⟨j, bound⟩
      have step := freeWord_notes valid h now ⟨j, bound⟩ fun inside =>
        (words _).mp inside List.mem_cons_self
      rw [place] at step
      refine step.conseq fun _ w after => ⟨nodup.of_cons, fun m inside => small m
        (List.mem_cons_of_mem _ inside), _, after, ?_, fun k other => List.mem_cons_of_mem _
        (direct k other), fun x => ?_⟩
      · rw [List.mem_cons]
        rintro (is | inside)
        · cases is
        · exact hasNot inside
      · rw [List.mem_cons, words x]
        constructor
        · rintro (is | out)
          · have value := congrArg Fin.val (Place.word.inj is)
            rw [value]
            exact (List.nodup_cons.mp nodup).1
          · exact fun inside => out (List.mem_cons_of_mem _ inside)
        · intro out
          by_cases this : x.val = j
          · exact .inl (congrArg Place.word (Fin.ext this))
          · exact .inr fun inside => (List.mem_cons.mp inside).elim this out
    · constructor
      · intro inside
        obtain ⟨k, is, -⟩ := (which _).mp inside
        cases is
      · intro out
        exact absurd (List.mem_range.mpr w.isLt) out
  · next none =>
    refine (notes_pure ⟨gone, trimmed, fun p filled => ?_⟩)
    have empty : (s.itable ip).addrs INDIRECT = 0 := not_not.mp none
    cases p with
    | slot k =>
      refine (which _).mpr ⟨k, rfl, ?_⟩
      rintro rfl
      exact filled empty
    | word j => exact absurd (at_word_none empty j) filled

end Release

/-! ### `itrunc` and `iput` -/

/-- The inode without blocks. -/
def Inode.emptied (inode : Inode) : Inode := { inode with addrs := fun _ => 0, size := 0 }

/-- The inode at `ip` has been emptied, in memory and on disk. -/
structure Truncated (sb : Superblock) (ip : InodePtr) (s : State) (v : Disk) (gone : List Place)
    (t : State) : Prop where
  all : ∀ p, v.at (s.itable ip).toDinode p ≠ 0 → p ∈ gone
  shows : Shows sb t ((v.release (s.itable ip).toDinode gone).setInode (s.itable ip).inum
    (s.itable ip).emptied.toDinode)
  inode : t.itable ip = (s.itable ip).emptied
  others : ∀ jp ≠ ip, t.itable jp = s.itable jp
  ftable : t.ftable = s.ftable
  procs : t.procs = s.procs
  current : t.current = s.current
  logged : Logged (fun b => sb.IsBitmap b ∨ b = sb.iblock (s.itable ip).inum) s t

section Itrunc

variable {sb : Superblock} {ip : InodePtr} {s t : State} {v : Disk}

theorem castSucc_iff (p : Place) :
    (∃ k : Fin NDIRECT, p = .slot (Fin.castSucc k)) ↔ ∃ k, p = .slot k ∧ k ≠ INDIRECT := by
  constructor
  · rintro ⟨k, is⟩
    exact ⟨_, is, (Fin.castSucc_lt_last k).ne⟩
  · rintro ⟨k, is, other⟩
    have small : k.val < NDIRECT := by
      have apart : k.val ≠ 12 := fun same => other (Fin.ext same)
      show k.val < 12
      omega
    exact ⟨⟨k.val, small⟩, is⟩

variable (valid : sb.Valid)
include valid

theorem itrunc_notes (h : Holds sb ip s v) :
    Notes (fun b => sb.IsBitmap b ∨ b = sb.iblock (s.itable ip).inum) (itrunc sb ip)
      (fun _ t => ∃ gone, Truncated sb ip s v gone t) s := by
  unfold itrunc
  -- the slots that are left, and the others gone
  let left : List (Fin NDIRECT) → State → Prop := fun rest u => rest.Nodup ∧
    ∃ g, Trimmed sb ip s v g u ∧ ∀ p, p ∈ g ↔
      ∃ k : Fin NDIRECT, p = .slot (Fin.castSucc k) ∧ k ∉ rest
  have none : Trimmed sb ip s v [] s := by
    refine ⟨?_, ?_, fun _ _ => rfl, rfl, rfl, rfl, .none rfl⟩
    · rw [release_nil]
      exact h.shows
    · exact congrArg (s.itable ip).setAddrs (funext fun k => (if_neg List.not_mem_nil).symm)
  have loop := notes_forM (P := sb.IsBitmap) (s := s) (f := fun k => freeSlot sb ip (Fin.castSucc k)) left
    (fun k rest u ⟨nodup, g, now, slots⟩ => ?_) (List.finRange NDIRECT)
    ⟨List.nodup_finRange _, [], none, fun p => ?_⟩
  · have bitmap : ∀ b, sb.IsBitmap b → sb.IsBitmap b ∨ b = sb.iblock (s.itable ip).inum :=
      fun _ => .inl
    refine (loop.mono bitmap).bind fun _ t ⟨_, gone, trimmed, slots⟩ => ?_
    have direct : ∀ p, p ∈ gone ↔ ∃ k, p = .slot k ∧ k ≠ INDIRECT := by
      intro p
      rw [slots, ← castSucc_iff]
      exact exists_congr fun k => and_iff_left List.not_mem_nil
    refine ((freeIndirect_notes valid h trimmed direct).mono bitmap).bind fun _ u ⟨gone', empty, all⟩ => ?_
    have updated : Notes (fun b => sb.IsBitmap b ∨ b = sb.iblock (s.itable ip).inum)
        (updInode ip fun inode => { inode with size := 0 })
        (fun _ w => w = u.setInode ip { u.itable ip with size := 0 }) u :=
      notes_modify rfl rfl rfl
    refine updated.bind fun _ w is => ?_
    have self : w.itable ip = (s.itable ip).emptied := by
      rw [is, State.setInode_itable, Function.update_self, empty.inode]
      have addrs : (fun k => if .slot k ∈ gone' then 0 else (s.itable ip).addrs k) = fun _ => 0 := by
        funext k
        split
        · rfl
        · next out =>
          by_contra some
          exact out (all (.slot k) some)
      rw [addrs]
      rfl
    have inum : (w.itable ip).inum = (s.itable ip).inum := by rw [self]; rfl
    have fits : (w.itable ip).toDinode.Fits := by
      rw [self]
      exact ⟨show 0 < _ by decide, fun k => show 0 < _ by decide⟩
    have shows : Shows sb w (v.release (s.itable ip).toDinode gone') :=
      empty.shows.congr (by rw [is]; rfl)
    have here : ∀ b, b = sb.iblock (w.itable ip).inum →
        sb.IsBitmap b ∨ b = sb.iblock (s.itable ip).inum := fun b is => .inr (inum ▸ is)
    refine ((iupdate_notes valid shows (inum.symm ▸ h.inside) fits).mono here).conseq
      fun _ x ⟨same, logged, stored⟩ => ⟨gone', all, ?_, ?_, fun jp other => ?_, ?_, ?_, ?_, ?_⟩
    · rw [self] at stored
      exact stored
    · rw [same.itable, self]
    · rw [same.itable, is, State.setInode_itable, Function.update_of_ne other, empty.others jp other]
    · rw [same.ftable, is, State.setInode_ftable, empty.ftable]
    · rw [same.procs, is, State.setInode_procs, empty.procs]
    · rw [same.current, is, State.setInode_current, empty.current]
    · rw [inum] at logged
      have last : Logged (· = sb.iblock (s.itable ip).inum) u x :=
        (Logged.none (by rw [is]; rfl)).trans logged
      exact (empty.logged.mono fun b bitmap => .inl bitmap).trans (last.mono fun b here => .inr here)
  · refine (freeSlot_notes valid h now (Fin.castSucc k) fun inside => ?_).conseq fun _ w after =>
      ⟨nodup.of_cons, _, after, fun p => ?_⟩
    · obtain ⟨m, is, out⟩ := (slots _).mp inside
      have same := Fin.castSucc_injective _ (Place.slot.inj is)
      rw [← same] at out
      exact out List.mem_cons_self
    · rw [List.mem_cons, slots]
      constructor
      · rintro (is | ⟨m, is, out⟩)
        · exact ⟨k, is, (List.nodup_cons.mp nodup).1⟩
        · exact ⟨m, is, fun inside => out (List.mem_cons_of_mem _ inside)⟩
      · rintro ⟨m, is, out⟩
        by_cases this : m = k
        · exact .inl (this ▸ is)
        · exact .inr ⟨m, is, fun inside => (List.mem_cons.mp inside).elim this out⟩
  · constructor
    · intro inside
      exact absurd inside List.not_mem_nil
    · rintro ⟨k, -, out⟩
      exact absurd (List.mem_finRange k) out

end Itrunc

end Xv6Lab.Fs

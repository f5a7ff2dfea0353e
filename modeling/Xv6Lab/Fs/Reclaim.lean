import Xv6Lab.Fs.Completion

/-! Orphans.  `ireclaim` runs at boot, when no inode is in memory: one pass over the inodes, in one
transaction, frees those that are in use but have no links, and leaves everything else as it was. -/

namespace Xv6Lab.Fs

open Bytes Exec

/-- The inode is in use, and nothing links to it. -/
def Dinode.Orphan (d : Dinode) : Prop := d.type ≠ 0 ∧ d.nlink = 0

instance (d : Dinode) : Decidable d.Orphan := inferInstanceAs (Decidable (_ ∧ _))

section Code

variable (sb : Superblock)

/-- `ireclaim` looks at inode `inum`. -/
def ireclaimInode (dev inum : Nat) : F Unit := do
  let data ← bread (sb.iblock inum)
  let dip := getDinode data (inodeOff inum)
  if dip.type ≠ 0 ∧ dip.nlink = 0 then
    let ip ← iget dev inum
    ilock sb ip
    iunlock ip
    iput sb ip
  else
    pure ()

/-- The loop of `ireclaim` over `count` inodes from `inum` on. -/
def ireclaimFrom (dev : Nat) : Nat → Nat → F Unit
  | 0, _ => pure ()
  | count + 1, inum => do
    ireclaimInode sb dev inum
    ireclaimFrom dev count (inum + 1)

/-- `ireclaim`.  Its outer loop ends after the first pass, whatever that has found. -/
def ireclaim (dev : Nat) : F Unit := do
  beginOp
  ireclaimFrom sb dev (sb.ninodes - 1) 1
  endOp

end Code

/-! ### What a pass leaves -/

/-- What `iput` leaves of an inode that it frees. -/
def Dinode.vacated (d : Dinode) : Dinode := { d with type := 0, size := 0, addrs := fun _ => 0 }

/-- Block `b` is one of inode `i`. -/
def Disk.Belongs (v : Disk) (i b : Nat) : Prop := b ≠ 0 ∧ ∃ p, v.at (v.inode i) p = b

/-- Inode `i` is one of the orphans before `k`. -/
def Disk.Abandoned (v : Disk) (k i : Nat) : Prop := 1 ≤ i ∧ i < k ∧ (v.inode i).Orphan

instance (v : Disk) (k i : Nat) : Decidable (v.Abandoned k i) :=
  inferInstanceAs (Decidable (_ ∧ _ ∧ _))

/-- The orphans before `k` have been freed, and nothing else has changed. -/
structure Swept (sb : Superblock) (v : Disk) (k : Nat) (w : Disk) : Prop where
  own : Own sb w w.inode
  inode : ∀ i, w.inode i = if v.Abandoned k i then (v.inode i).vacated else v.inode i
  used : ∀ b, w.used b = true ↔ v.used b = true ∧ ¬ ∃ i, v.Abandoned k i ∧ v.Belongs i b
  data : w.data = v.data

section Sweep

variable {sb : Superblock} {v w : Disk} {k i : Nat}

theorem Disk.abandoned_succ (first : 1 ≤ k) :
    v.Abandoned (k + 1) i ↔ v.Abandoned k i ∨ i = k ∧ (v.inode k).Orphan := by
  constructor
  · rintro ⟨low, high, orphan⟩
    rcases Nat.lt_succ_iff_lt_or_eq.mp high with less | rfl
    · exact .inl ⟨low, less, orphan⟩
    · exact .inr ⟨rfl, orphan⟩
  · rintro (⟨low, high, orphan⟩ | ⟨rfl, orphan⟩)
    · exact ⟨low, Nat.lt_succ_of_lt high, orphan⟩
    · exact ⟨first, Nat.lt_succ_self i, orphan⟩

theorem Disk.not_abandoned_self : ¬ v.Abandoned k k := fun ⟨_, less, _⟩ => absurd less (Nat.lt_irrefl k)

theorem Swept.start (own : Own sb v v.inode) : Swept sb v 1 v := by
  have none : ∀ i, ¬ v.Abandoned 1 i := fun i ⟨low, high, _⟩ => by omega
  refine ⟨own, fun i => (if_neg (none i)).symm, fun b => ?_, rfl⟩
  exact ⟨fun used => ⟨used, fun ⟨i, before, _⟩ => none i before⟩, And.left⟩

/-- The inode that comes next is as it was. -/
theorem Swept.next (h : Swept sb v k w) : w.inode k = v.inode k := by
  rw [h.inode, if_neg Disk.not_abandoned_self]

/-- Inode `k` is no orphan. -/
theorem Swept.pass (h : Swept sb v k w) (first : 1 ≤ k) (other : ¬ (v.inode k).Orphan) :
    Swept sb v (k + 1) w := by
  have same : ∀ i, v.Abandoned (k + 1) i ↔ v.Abandoned k i := fun i => by
    rw [Disk.abandoned_succ first]
    exact or_iff_left fun ⟨_, orphan⟩ => other orphan
  refine ⟨h.own, fun i => ?_, fun b => ?_, h.data⟩
  · rw [h.inode]
    exact if_congr (same i).symm rfl rfl
  · simp only [same]
    exact h.used b

/-- Inode `k` is freed with the blocks of every place that it has. -/
theorem Swept.free (valid : sb.Valid) (h : Swept sb v k w) (first : 1 ≤ k) (inside : k < sb.ninodes)
    (orphan : (v.inode k).Orphan) {gone : List Place}
    (all : ∀ p, w.at (w.inode k) p ≠ 0 → p ∈ gone) :
    Swept sb v (k + 1) ((w.release (w.inode k) gone).setInode k (w.inode k).vacated) := by
  set x := (w.release (w.inode k) gone).setInode k (w.inode k).vacated with xIs
  have here : x.inode k = (w.inode k).vacated := Function.update_self ..
  have others : ∀ j ≠ k, x.inode j = w.inode j := fun j other => Function.update_of_ne other ..
  have places : ∀ p, w.at (w.inode k) p = v.at (v.inode k) p := by
    intro p
    rw [h.next]
    exact at_congr rfl (fun _ => by rw [h.data]) p
  have owned : Own sb (w.release (w.inode k) gone) x.inode :=
    h.own.release valid inside all (fun m => by rw [here]; rfl) others
  refine ⟨owned.congr rfl (fun j _ q => at_congr rfl (fun _ => rfl) q) owned.free, fun i => ?_,
    fun b => ?_, h.data⟩
  · by_cases this : i = k
    · subst this
      rw [here, h.next, if_pos ((Disk.abandoned_succ first).mpr (.inr ⟨rfl, orphan⟩))]
    · rw [others i this, h.inode]
      refine if_congr ?_ rfl rfl
      rw [Disk.abandoned_succ first]
      exact (or_iff_left fun ⟨is, _⟩ => this is).symm
  · have bit : x.used b = true ↔ w.used b = true ∧ ¬ v.Belongs k b := by
      refine release_used.trans (and_congr_right fun _ => ?_)
      constructor
      · rintro (zero | away) ⟨positive, p, is⟩
        · exact positive zero
        · rw [← places] at is
          exact away p (all p (is.symm ▸ positive)) is
      · intro away
        by_contra neither
        push Not at neither
        obtain ⟨positive, p, -, is⟩ := neither
        exact away ⟨positive, p, (places p).symm.trans is⟩
    rw [bit, h.used, and_assoc, ← not_or]
    refine and_congr_right fun _ => not_congr ?_
    constructor
    · rintro (⟨i, before, belongs⟩ | belongs)
      · exact ⟨i, (Disk.abandoned_succ first).mpr (.inl before), belongs⟩
      · exact ⟨k, (Disk.abandoned_succ first).mpr (.inr ⟨rfl, orphan⟩), belongs⟩
    · rintro ⟨i, before, belongs⟩
      rcases (Disk.abandoned_succ first).mp before with old | ⟨rfl, -⟩
      · exact .inl ⟨i, old, belongs⟩
      · exact .inr belongs

end Sweep

/-! ### An orphan is freed -/

/-- No inode is in memory, and nobody holds a lock. -/
structure Vacant (s : State) : Prop where
  ref : ∀ ip, (s.itable ip).ref = 0
  unlocked : ∀ ip, (s.itable ip).lock = none

/-- The inode blocks. -/
def Superblock.IsInodes (sb : Superblock) (b : Nat) : Prop := ∃ i < sb.ninodes, b = sb.iblock i

/-- The blocks that `ireclaim` may change. -/
abbrev Superblock.IsMeta (sb : Superblock) (b : Nat) : Prop := sb.IsBitmap b ∨ sb.IsInodes b

section Free

variable {sb : Superblock} {ip : InodePtr} {s : State} {v w : Disk} {i k : Nat}

/-- The inode at `ip` has been freed on disk, and still has its reference. -/
structure Vacated (sb : Superblock) (ip : InodePtr) (s : State) (v : Disk) (gone : List Place)
    (t : State) : Prop where
  all : ∀ p, v.at (s.itable ip).toDinode p ≠ 0 → p ∈ gone
  shows : Shows sb t ((v.release (s.itable ip).toDinode gone).setInode (s.itable ip).inum
    (s.itable ip).toDinode.vacated)
  others : ∀ jp ≠ ip, t.itable jp = s.itable jp
  ref : (t.itable ip).ref = (s.itable ip).ref
  lock : (t.itable ip).lock = none

theorem ifree_notes (valid : sb.Valid) (h : Holds sb ip s v) (free : (s.itable ip).lock = none) :
    Notes (fun b => sb.IsBitmap b ∨ b = sb.iblock (s.itable ip).inum) (ifree sb ip)
      (fun _ t => ∃ gone, Vacated sb ip s v gone t) s := by
  set P : Nat → Prop := fun b => sb.IsBitmap b ∨ b = sb.iblock (s.itable ip).inum
  set locked : Inode := { s.itable ip with lock := some s.current } with is
  have self : (s.setInode ip locked).itable ip = locked := Function.update_self ..
  have others : ∀ jp ≠ ip, (s.setInode ip locked).itable jp = s.itable jp := fun jp other =>
    Function.update_of_ne other ..
  have holds : Holds sb ip (s.setInode ip locked) v := by
    have same : held v (s.setInode ip locked) ip = held v s ip := by
      unfold held
      rw [self]
    refine ⟨h.shows.congr rfl, same ▸ h.own, ?_, ?_⟩
    · rw [self]
      exact h.inside
    · rw [self]
      exact h.type
  have acquired : Notes P (acquiresleep ip) (fun _ t => t = s.setInode ip locked) s :=
    notes_run (acquiresleep_free free) rfl rfl rfl
  unfold ifree
  refine acquired.bind fun _ s' now => ?_
  subst now
  have emptied := itrunc_notes valid holds
  rw [self] at emptied
  refine emptied.bind fun _ t ⟨gone, truncated⟩ => ?_
  have table : t.itable ip = locked.emptied := by
    rw [truncated.inode, self]
  have all := truncated.all
  have shows := truncated.shows
  rw [self] at all shows
  set freed : Inode := { t.itable ip with type := 0 } with freedIs
  have updated : Notes P (updInode ip fun inode => { inode with type := 0 })
      (fun _ u => u = t.setInode ip freed) t := notes_modify rfl rfl rfl
  refine updated.bind fun _ u now => ?_
  have here : u.itable ip = freed := by
    rw [now]
    exact Function.update_self ..
  have dinode : (u.itable ip).toDinode = (s.itable ip).toDinode.vacated := by
    rw [here, freedIs, table]
    rfl
  have inum : (u.itable ip).inum = (s.itable ip).inum := by
    rw [here, freedIs, table]
    rfl
  have fits : (u.itable ip).toDinode.Fits := by
    rw [dinode]
    exact ⟨show 0 < _ by decide, fun k => show 0 < _ by decide⟩
  have shown : Shows sb u _ := shows.congr (t := u) (by rw [now]; rfl)
  have stored := iupdate_notes valid shown (inum.symm ▸ h.inside) fits
  rw [inum] at stored
  have inode : ∀ b, b = sb.iblock (s.itable ip).inum → P b := fun _ => .inr
  refine (stored.mono inode).bind fun _ x ⟨same, _, shows'⟩ => ?_
  rw [dinode, Disk.setInode_idem] at shows'
  set unread : Inode := { x.itable ip with valid := false } with unreadIs
  have dropped : Notes P (updInode ip fun inode => { inode with valid := false })
      (fun _ y => y = x.setInode ip unread) x := notes_modify rfl rfl rfl
  refine dropped.bind fun _ y now' => ?_
  have last : y.itable ip = unread := by
    rw [now']
    exact Function.update_self ..
  have mine : (y.itable ip).lock = some y.current := by
    rw [last, unreadIs, same.itable, here, freedIs, table, now']
    show some s.current = some x.current
    rw [same.current, now]
    show _ = some t.current
    rw [truncated.current]
    rfl
  have released : releasesleep ip y = .ok () (y.setInode ip { y.itable ip with lock := none }) := by
    unfold releasesleep
    rw [bind_get, mine]
    dsimp only
    rw [if_pos rfl]
    rfl
  refine notes_run released rfl rfl ⟨gone, all, ?_, fun jp other => ?_, ?_, ?_⟩
  · exact shows'.congr (by rw [now']; rfl)
  · rw [State.setInode_itable, Function.update_of_ne other, now', State.setInode_itable,
      Function.update_of_ne other, same.itable, now, State.setInode_itable,
      Function.update_of_ne other, truncated.others jp other, others jp other]
  · rw [State.setInode_itable, Function.update_self, last, unreadIs, same.itable, here, freedIs, table]
    rfl
  · rw [State.setInode_itable, Function.update_self]

theorem iget_vacant (empty : Vacant s) (i : Nat) :
    ∃ ip, iget ROOTDEV i s = .ok ip
      (s.setInode ip { s.itable ip with dev := ROOTDEV, inum := i, ref := 1, valid := false }) := by
  have dead : ∀ ip, ¬ 0 < (s.itable ip).ref := fun ip => by
    rw [empty.ref]
    decide
  rcases run : iget ROOTDEV i s with ⟨ip, t⟩ | ⟨e, t⟩
  · rcases wp_ok iget_wp run with ⟨live, -⟩ | ⟨-, is⟩
    · exact absurd live (dead ip)
    · exact ⟨ip, by rw [is]⟩
  · have full := wp_error (iget_seats fun ip live => absurd live (dead ip)) run
    exact absurd (.inr ⟨0, empty.ref 0⟩) full.2

/-- The inode as `iget`, `ilock` and `iunlock` leave it in the table. -/
def loaded (d : Dinode) (inum : Nat) : Inode := ⟨d, ROOTDEV, inum, 1, true, none⟩

/-- `ireclaim` gets the inode into memory. -/
theorem load_run (empty : Vacant s) (shows : Shows sb s w) (inside : i < sb.ninodes)
    (typed : (w.inode i).type ≠ 0) :
    ∃ ip, ∀ {α : Type} (f : InodePtr → F α),
      (iget ROOTDEV i >>= fun ip => ilock sb ip >>= fun _ => iunlock ip >>= fun _ => f ip) s =
        f ip (s.setInode ip (loaded (w.inode i) i)) := by
  obtain ⟨ip, got⟩ := iget_vacant empty i
  refine ⟨ip, fun f => ?_⟩
  rw [bind_ok got]
  set fresh : Inode := { s.itable ip with dev := ROOTDEV, inum := i, ref := 1, valid := false } with is
  have self : (s.setInode ip fresh).itable ip = fresh := Function.update_self ..
  have free : fresh.lock = none := empty.unlocked ip
  have locks : ilock sb ip (s.setInode ip fresh) = _ := ilock_reads (shows.congr rfl)
    (by rw [self]; exact one_pos) (by rw [self]; exact inside) (by rw [self]; exact free)
    (by rw [self]; exact typed) (by rw [self]; exact Bool.false_ne_true)
  rw [bind_ok locks, self, State.setInode_setInode]
  set locked : Inode := { fresh with
    toDinode := w.inode fresh.inum, valid := true, lock := some (s.setInode ip fresh).current }
  have self' : (s.setInode ip locked).itable ip = locked := Function.update_self ..
  have unlocks : iunlock ip (s.setInode ip locked) = _ :=
    iunlock_run (by rw [self']; exact one_pos) (by rw [self']; rfl)
  rw [bind_ok unlocks, self', State.setInode_setInode]
  rfl

/-- Inode `k` is the next. -/
theorem ireclaimInode_notes (valid : sb.Valid) (swept : Swept sb v k w) (first : 1 ≤ k)
    (inside : k < sb.ninodes) (shows : Shows sb s w) (empty : Vacant s) :
    Notes sb.IsMeta (ireclaimInode sb ROOTDEV k)
      (fun _ t => Vacant t ∧ ∃ x, Shows sb t x ∧ Swept sb v (k + 1) x) s := by
  unfold ireclaimInode
  refine notes_get ?_
  rw [shows.inode k inside, swept.next]
  split
  · next orphan =>
    have typed : (w.inode k).type ≠ 0 := by
      rw [swept.next]
      exact orphan.1
    obtain ⟨ip, loads⟩ := load_run empty shows inside typed
    refine notes_goes (loads (iput sb)) rfl rfl ?_
    set inode := loaded (w.inode k) k with is
    have self : (s.setInode ip inode).itable ip = inode := Function.update_self ..
    have holds : Holds sb ip (s.setInode ip inode) w := by
      have same : held w (s.setInode ip inode) ip = w.inode := by
        unfold held
        rw [self]
        exact Function.update_eq_self ..
      refine ⟨shows.congr rfl, same ▸ swept.own, ?_, ?_⟩
      · rw [self]
        exact inside
      · rw [self]
        exact typed
    have last : (inode.ref = 1 ∧ inode.valid = true ∧ inode.nlink = 0) := by
      refine ⟨rfl, rfl, ?_⟩
      show (w.inode k).nlink = 0
      rw [swept.next]
      exact orphan.2
    have frees := ifree_notes valid holds (by rw [self]; rfl)
    rw [self] at frees
    have among : ∀ b, (sb.IsBitmap b ∨ b = sb.iblock inode.inum) → sb.IsMeta b := fun b this =>
      this.imp_right fun is => ⟨k, inside, is⟩
    unfold iput
    refine notes_get ?_
    rw [self]
    dsimp only
    rw [if_pos last]
    refine (frees.mono among).bind fun _ t ⟨gone, vacated⟩ => ?_
    have all := vacated.all
    have shown := vacated.shows
    have ref := vacated.ref
    rw [self] at all shown ref
    have others : ∀ jp ≠ ip, t.itable jp = s.itable jp := fun jp other => by
      rw [vacated.others jp other, State.setInode_itable, Function.update_of_ne other]
    refine notes_modify rfl rfl ⟨⟨fun jp => ?_, fun jp => ?_⟩, _, shown.congr rfl,
      swept.free valid first inside orphan all⟩
    · rw [State.setInode_itable]
      by_cases this : jp = ip
      · rw [this, Function.update_self]
        show (t.itable ip).ref - 1 = 0
        rw [ref]
        rfl
      · rw [Function.update_of_ne this, others jp this, empty.ref]
    · rw [State.setInode_itable]
      by_cases this : jp = ip
      · rw [this, Function.update_self]
        exact vacated.lock
      · rw [Function.update_of_ne this, others jp this, empty.unlocked]
  · next other =>
    exact notes_pure ⟨empty, w, shows, swept.pass first other⟩

theorem ireclaimFrom_notes (valid : sb.Valid) (count : Nat) (swept : Swept sb v k w) (first : 1 ≤ k)
    (all : k + count = sb.ninodes) (shows : Shows sb s w) (empty : Vacant s) :
    Notes sb.IsMeta (ireclaimFrom sb ROOTDEV count k)
      (fun _ t => Vacant t ∧ ∃ x, Shows sb t x ∧ Swept sb v sb.ninodes x) s := by
  induction count generalizing k w s with
  | zero => exact notes_pure ⟨empty, w, shows, all ▸ swept⟩
  | succ count ih =>
    unfold ireclaimFrom
    refine (ireclaimInode_notes valid swept first (by omega) shows empty).bind
      fun _ t ⟨empty', x, shows', swept'⟩ => ?_
    exact ih swept' (by omega) (by omega) shows' empty'

end Free

/-! ### The whole pass -/

/-- The number of inode blocks. -/
def Superblock.inodeBlocks (sb : Superblock) : Nat := (sb.ninodes + IPB - 1) / IPB

/-- The number of bitmap blocks. -/
def Superblock.bitmapBlocks (sb : Superblock) : Nat := (sb.size + BPB - 1) / BPB

/-- One transaction takes all inode blocks and bitmap blocks: `log_write` refuses every block once the
log has `LOGBLOCKS` of them. -/
def Superblock.FitsLog (sb : Superblock) : Prop := sb.inodeBlocks + sb.bitmapBlocks < LOGBLOCKS

/-- The orphans of `v`, from inode 1 on, are free on the disk of `t`, and so are their blocks; nothing
else has changed, and no inode is in memory. -/
structure Reclaims (sb : Superblock) (v : Disk) (t : State) : Prop where
  none : ∀ i, 1 ≤ i → i < sb.ninodes → ¬ ((t.disk sb).inode i).Orphan
  cleared : ∀ i b, v.Abandoned sb.ninodes i → v.Belongs i b → (t.disk sb).used b = false
  inodes : ∀ i < sb.ninodes, ¬ v.Abandoned sb.ninodes i → (t.disk sb).inode i = v.inode i
  bits : ∀ b < sb.size, (∀ i, v.Abandoned sb.ninodes i → ¬ v.Belongs i b) →
    (t.disk sb).used b = v.used b
  data : ∀ b, sb.nmeta ≤ b → b < sb.size → t.blocks b = v.data b
  table : ∀ ip, (t.itable ip).ref = 0
  idle : Idle t

section Whole

variable {sb : Superblock} {s t : State} {v w : Disk} {b : Nat}

theorem Superblock.IsMeta.mem (is : sb.IsMeta b) :
    b ∈ List.range' sb.inodestart sb.inodeBlocks ++ List.range' sb.bmapstart sb.bitmapBlocks := by
  rw [List.mem_append, List.mem_range'_1, List.mem_range'_1]
  rcases is with ⟨c, inside, rfl⟩ | ⟨i, inside, rfl⟩
  · right
    unfold Superblock.bblock Superblock.bitmapBlocks BPB BSIZE
    omega
  · left
    unfold Superblock.iblock Superblock.inodeBlocks IPB BSIZE
    omega

theorem Swept.reclaims (own : Own sb v v.inode) (swept : Swept sb v sb.ninodes w)
    (shows : Shows sb t w) (empty : Vacant t) (log : t.outstanding = 0 ∧ t.lh = []) :
    Reclaims sb v t := by
  have inode : ∀ i < sb.ninodes, (t.disk sb).inode i = w.inode i := shows.inode
  have used : ∀ b < sb.size, (t.disk sb).used b = w.used b := shows.used
  refine ⟨fun i first inside orphan => ?_, fun i b gone belongs => ?_, fun i inside kept => ?_,
    fun b inside away => ?_, fun b above below => ?_, empty.ref, log.1, log.2, empty.unlocked⟩
  · rw [inode i inside, swept.inode] at orphan
    split at orphan
    · exact orphan.1 rfl
    · next kept => exact kept ⟨first, inside, orphan⟩
  · obtain ⟨positive, p, is⟩ := belongs
    have inside := (own.range i gone.2.1 p (is.symm ▸ positive)).2.1
    rw [is] at inside
    rw [used b inside, Bool.eq_false_iff]
    intro still
    exact ((swept.used b).mp still).2 ⟨i, gone, positive, p, is⟩
  · rw [inode i inside, swept.inode, if_neg kept]
  · rw [used b inside, Bool.eq_iff_iff, swept.used]
    exact and_iff_left fun ⟨i, gone, belongs⟩ => away i gone belongs
  · rw [shows.data b above below, swept.data]

/-- `ireclaim` ends, and has freed exactly the orphans. -/
theorem ireclaim_reclaims (valid : sb.Valid) (fits : sb.FitsLog) (shows : Shows sb s v)
    (own : Own sb v v.inode) (idle : Idle s) (empty : ∀ ip, (s.itable ip).ref = 0) :
    wp (ireclaim sb ROOTDEV) (fun _ t => Reclaims sb v t) (fun _ _ => False) s := by
  have begun : beginOp s = .ok () (s.setLog 1 []) := beginOp_run idle.outstanding idle.lh
  have root : 1 < sb.ninodes := valid.root
  have pass := ireclaimFrom_notes valid (sb.ninodes - 1) (Swept.start own) (Nat.le_refl 1) (by omega)
    (shows.congr (t := s.setLog 1 []) rfl) ⟨empty, idle.unlocked⟩
  unfold ireclaim
  rw [wp_goes (bind_ok begun), wp_bind]
  refine wp_mono pass (fun _ t ⟨noted, vacant, w, shows', swept⟩ => ?_) fun e _ full => ?_
  · have one : t.outstanding = 1 := noted.outstanding
    unfold endOp
    rw [wp_modify, one]
    exact swept.reclaims own (shows'.congr rfl) ⟨vacant.ref, vacant.unlocked⟩ ⟨rfl, rfl⟩
  · refine full.never (Nat.le_refl 1) rfl (fun b is => Superblock.IsMeta.mem is) ?_
    rw [List.length_append, List.length_range', List.length_range']
    exact fits

end Whole

/-! ### A root directory without links -/

/-- The inode of the root directory of `mkfs` after its last link is gone. -/
def orphanRoot : Dinode := { rootDinode with nlink := 0 }

/-- The disk of `mkfs` with that root directory. -/
def orphanDisk : Disk := imageDisk.setInode ROOTINO orphanRoot

/-- At boot, before any inode is in memory. -/
def orphaned : State :=
  (booted.setBlock (fsImg.iblock ROOTINO)
    (setDinode (image (fsImg.iblock ROOTINO)) (inodeOff ROOTINO) orphanRoot)).setInode 0
      ⟨freshDinode 0, 0, 0, 0, false, none⟩

theorem orphaned_shows : Shows fsImg orphaned orphanDisk := by
  have shows := image_shows (s := booted) rfl
  have stored := shows.setInode fsImg_valid (i := ROOTINO) (by decide)
    (setDinode (image (fsImg.iblock ROOTINO)) (inodeOff ROOTINO) orphanRoot) orphanRoot
    (getDinode_setDinode ⟨by decide, by decide⟩) fun j away => setDinode_out away
  exact stored.congr rfl

theorem orphanDisk_root : orphanDisk.inode ROOTINO = orphanRoot := by
  show Function.update imageDisk.inode ROOTINO orphanRoot ROOTINO = _
  rw [Function.update_self]

theorem orphanDisk_own : Own fsImg orphanDisk orphanDisk.inode :=
  image_own.setInode rfl fun free => absurd free (by decide)

theorem orphaned_vacant : Vacant orphaned := by
  have others : ∀ ip ≠ 0, orphaned.itable ip = booted.itable ip := fun ip other =>
    Function.update_of_ne other ..
  refine ⟨fun ip => ?_, fun ip => ?_⟩
  · by_cases first : ip = 0
    · rw [first]
      exact congrArg Inode.ref (Function.update_self 0 _ booted.itable)
    · rw [others ip first]
      show (if ip = 0 then _ else _ : Inode).ref = 0
      rw [if_neg first]
  · by_cases first : ip = 0
    · rw [first]
      exact congrArg Inode.lock (Function.update_self 0 _ booted.itable)
    · rw [others ip first]
      exact booted_idle.unlocked ip

theorem orphanRoot_orphan :
    orphanDisk.Abandoned fsImg.ninodes ROOTINO ∧ orphanDisk.Belongs ROOTINO 47 := by
  refine ⟨⟨by decide, by decide, ?_⟩, by decide, .slot 0, ?_⟩
  · rw [orphanDisk_root]
    decide
  · rw [orphanDisk_root]
    rfl

theorem fsImg_fits : fsImg.FitsLog := by
  unfold Superblock.FitsLog
  decide

theorem ireclaim_reclaims_root :
    wp (ireclaim fsImg ROOTDEV) (fun _ t => Reclaims fsImg orphanDisk t) (fun _ _ => False) orphaned := by
  have idle : Idle orphaned := ⟨rfl, rfl, orphaned_vacant.unlocked⟩
  have empty := orphaned_vacant.ref
  have shows := orphaned_shows
  generalize orphaned = s at idle empty shows ⊢
  exact ireclaim_reclaims fsImg_valid fsImg_fits shows orphanDisk_own idle empty

/-- Block 47, which the root directory had, is free afterwards. -/
example (t : State) (h : Reclaims fsImg orphanDisk t) : (t.disk fsImg).used 47 = false :=
  h.cleared ROOTINO 47 orphanRoot_orphan.1 orphanRoot_orphan.2

end Xv6Lab.Fs

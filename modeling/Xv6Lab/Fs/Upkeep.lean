import Xv6Lab.Fs.Release

/-! What the functions on inodes keep.  Between two of them, the file system is consistent and its
directories name inodes that exist; a function that takes references, locks or stores inodes leaves
the entries of the table that are in use where they are. -/

namespace Xv6Lab.Fs

open Bytes Exec

/-- `x` ends as `Q` allows, or stops in another way than by freeing a free block. -/
def Ends {α : Type} (x : F α) (Q : α → State → Prop) (s : State) : Prop :=
  wp x Q (fun e _ => e ≠ .panic "freeing free block") s

section Rules

variable {α β : Type} {x : F α} {f : α → F β} {Q Q' : α → State → Prop} {R : β → State → Prop}
  {s : State}

theorem Ends.bind (first : Ends x Q s) (then' : ∀ a t, Q a t → Ends (f a) R t) :
    Ends (x >>= f) R s := by
  unfold Ends
  rw [wp_bind]
  exact wp_conseq first then'

theorem Ends.conseq (h : Ends x Q s) (weaker : ∀ a t, Q a t → Q' a t) : Ends x Q' s :=
  wp_conseq h weaker

theorem ends_pure {a : α} (h : Q a s) : Ends (pure a) Q s := h

theorem ends_get {f : State → F β} (then' : Ends (f s) R s) : Ends (get >>= f) R s := then'

theorem ends_modify {g : State → State} {Q : PUnit → State → Prop} (h : Q ⟨⟩ (g s)) :
    Ends (modify g) Q s := h

theorem ends_throw {e : Halt} (other : e ≠ .panic "freeing free block") :
    Ends (throw e : F α) Q s := other

theorem Does.ends {k : Nat} (h : Does k x Q s) : Ends x Q s := by
  refine wp_mono h (fun a t done => done.2) fun e _ short => ?_
  rcases short with ⟨is, -⟩ | ⟨is, -⟩ <;> rw [is] <;> decide

theorem Notes.ends {P : Nat → Prop} (h : Notes P x Q s) : Ends x Q s := by
  refine wp_mono h (fun a t done => done.2) fun e _ full => ?_
  rcases full with ⟨is, -⟩ | ⟨is, -⟩ <;> rw [is] <;> decide

end Rules

/-- Directories name inodes that exist. -/
def Entries (sb : Superblock) (v : Disk) : Prop :=
  ∀ i < sb.ninodes, (v.inode i).type = T_DIR → ∀ off, off % DIRENT = 0 →
    off + DIRENT ≤ (v.inode i).size →
    deInum (fun k => v.content (v.inode i) (off + k)) < sb.ninodes

structure Good (sb : Superblock) (s : State) (v : Disk) : Prop extends Consistent sb s v where
  entries : Entries sb v

/-- The entries of the inode table that are in use stay in use, for the same inodes. -/
structure Onward (s t : State) : Prop where
  ref : ∀ jp, 0 < (s.itable jp).ref → (s.itable jp).ref ≤ (t.itable jp).ref
  inum : ∀ jp, 0 < (s.itable jp).ref → (t.itable jp).inum = (s.itable jp).inum
  valid : ∀ jp, 0 < (s.itable jp).ref → (s.itable jp).valid = true → (t.itable jp).valid = true

/-- The file system goes on from `s` to `t`, and logs blocks that satisfy `P`. -/
structure Step (sb : Superblock) (P : Nat → Prop) (s : State) (t : State) (v' : Disk) : Prop where
  good : Good sb t v'
  onward : Onward s t
  ftable : t.ftable = s.ftable
  procs : t.procs = s.procs
  current : t.current = s.current
  logged : Logged P s t

section Steps

variable {sb : Superblock} {P : Nat → Prop} {ip : InodePtr} {s t u : State} {v v' v'' : Disk}

theorem Onward.refl (s : State) : Onward s s :=
  ⟨fun _ _ => Int.le_refl _, fun _ _ => rfl, fun _ _ valid => valid⟩

theorem Onward.live (h : Onward s t) {jp : InodePtr} (live : 0 < (s.itable jp).ref) :
    0 < (t.itable jp).ref :=
  Int.lt_of_lt_of_le live (h.ref jp live)

theorem Onward.trans (one : Onward s t) (two : Onward t u) : Onward s u := by
  refine ⟨fun jp live => ?_, fun jp live => ?_, fun jp live valid => ?_⟩
  · exact Int.le_trans (one.ref jp live) (two.ref jp (one.live live))
  · rw [two.inum jp (one.live live), one.inum jp live]
  · exact two.valid jp (one.live live) (one.valid jp live valid)

theorem Onward.ready (h : Onward s t) (ready : Ready s ip) : Ready t ip :=
  ⟨h.live ready.live, h.valid ip ready.live ready.valid⟩

/-- One entry of the table changes, and goes on. -/
theorem Onward.change (others : ∀ jp ≠ ip, t.itable jp = s.itable jp)
    (this : 0 < (s.itable ip).ref → (s.itable ip).ref ≤ (t.itable ip).ref ∧
      (t.itable ip).inum = (s.itable ip).inum ∧
      ((s.itable ip).valid = true → (t.itable ip).valid = true)) : Onward s t := by
  refine ⟨fun jp live => ?_, fun jp live => ?_, fun jp live valid => ?_⟩
  · by_cases here : jp = ip
    · subst here
      exact (this live).1
    · rw [others jp here]
  · by_cases here : jp = ip
    · subst here
      exact (this live).2.1
    · rw [others jp here]
  · by_cases here : jp = ip
    · subst here
      exact (this live).2.2 valid
    · rwa [others jp here]

theorem Step.refl (h : Good sb s v) : Step sb P s s v :=
  ⟨h, .refl s, rfl, rfl, rfl, .none rfl⟩

/-- No block is logged. -/
abbrev nothing : Nat → Prop := fun _ => False

theorem Step.mono {Q : Nat → Prop} (h : Step sb P s t v') (weaker : ∀ b, P b → Q b) :
    Step sb Q s t v' :=
  ⟨h.good, h.onward, h.ftable, h.procs, h.current, h.logged.mono weaker⟩

theorem Step.any (h : Step sb nothing s t v') : Step sb P s t v' := h.mono fun _ none => none.elim

theorem Step.trans (one : Step sb P s t v') (two : Step sb P t u v'') : Step sb P s u v'' :=
  ⟨two.good, one.onward.trans two.onward, two.ftable.trans one.ftable, two.procs.trans one.procs,
    two.current.trans one.current, one.logged.trans two.logged⟩

/-- Only the inode table changes. -/
theorem Good.setInode (h : Good sb s v) {inode : Inode} (ok : 0 < inode.ref → Slot sb v inode ∧
    ∀ jp ≠ ip, 0 < (s.itable jp).ref → (s.itable jp).inum ≠ inode.inum) :
    Good sb (s.setInode ip inode) v := by
  have self : (s.setInode ip inode).itable ip = inode := Function.update_self ..
  refine ⟨⟨h.shows.congr rfl, h.own, h.solid, h.cached.change (fun jp (other : jp ≠ ip) => ?_)
    (fun _ _ _ => rfl) fun live => ?_⟩, h.entries⟩
  · exact Function.update_of_ne other ..
  · rw [self] at live ⊢
    exact ok live

/-- An entry that is in use changes in its lock and its count, or is read. -/
theorem Good.reslot (h : Good sb s v) {inode : Inode} (inum : inode.inum = (s.itable ip).inum)
    (ok : 0 < inode.ref → 0 < (s.itable ip).ref ∧ Slot sb v inode) :
    Good sb (s.setInode ip inode) v := by
  refine h.setInode fun live => ⟨(ok live).2, fun jp other ref same => ?_⟩
  rw [inum] at same
  exact other (h.cached.unique jp ip ref (ok live).1 same)

theorem Good.setLog (h : Good sb s v) (n : Nat) (lh : List Nat) : Good sb (s.setLog n lh) v :=
  ⟨⟨h.shows.congr rfl, h.own, h.solid, h.cached.slot, h.cached.unique⟩, h.entries⟩

/-- `setInode` as a step. -/
theorem Good.stepInode {inode : Inode} (h : Good sb (s.setInode ip inode) v)
    (this : 0 < (s.itable ip).ref → (s.itable ip).ref ≤ inode.ref ∧
      inode.inum = (s.itable ip).inum ∧ ((s.itable ip).valid = true → inode.valid = true)) :
    Step sb P s (s.setInode ip inode) v := by
  refine ⟨h, .change (fun jp (other : jp ≠ ip) => Function.update_of_ne other ..) fun live => ?_, rfl,
    rfl, rfl, .none rfl⟩
  rw [show (s.setInode ip inode).itable ip = inode from Function.update_self ..]
  exact this live

end Steps

/-! ### References and locks -/

/-- A reference to inode `inum` has been taken. -/
structure Got (ip : InodePtr) (inum : Nat) (s t : State) : Prop where
  live : 0 < (t.itable ip).ref
  inum : (t.itable ip).inum = inum
  more : 0 < (s.itable ip).ref → (t.itable ip).ref = (s.itable ip).ref + 1

section References

variable {sb : Superblock} {ip : InodePtr} {s : State} {v : Disk}

theorem take_ends (h : Good sb s v) (live : 0 < (s.itable ip).ref) :
    Ends (updInode ip fun inode => { inode with ref := inode.ref + 1 })
      (fun _ t => Step sb nothing s t v ∧ Got ip (s.itable ip).inum s t) s := by
  set inode : Inode := { s.itable ip with ref := (s.itable ip).ref + 1 } with is
  have self : (s.setInode ip inode).itable ip = inode := Function.update_self ..
  obtain ⟨dev, inside, synced, typed⟩ := h.cached.slot ip live
  have good : Good sb (s.setInode ip inode) v :=
    h.reslot rfl fun _ => ⟨live, dev, inside, synced, typed⟩
  refine ends_modify ⟨good.stepInode fun _ => ⟨?_, rfl, id⟩, ?_, ?_, fun _ => ?_⟩
  · show (s.itable ip).ref ≤ (s.itable ip).ref + 1
    omega
  · rw [self]
    show 0 < (s.itable ip).ref + 1
    omega
  · rw [self]
  · rw [self]

theorem idup_ends (h : Good sb s v) (live : 0 < (s.itable ip).ref) :
    Ends (idup ip) (fun jp t => jp = ip ∧ Step sb nothing s t v ∧ Got ip (s.itable ip).inum s t) s :=
  (take_ends h live).bind fun _ _ done => ends_pure ⟨rfl, done⟩

theorem iget_ends (h : Good sb s v) {inum : Nat} (inside : inum < sb.ninodes) :
    Ends (iget ROOTDEV inum) (fun ip t => Step sb nothing s t v ∧ Got ip inum s t) s := by
  unfold iget
  refine ends_get ?_
  split
  · next ip found =>
    have facts := List.find?_some found
    obtain ⟨live, -, is⟩ := of_decide_eq_true facts
    refine (take_ends h live).bind fun _ t done => ends_pure ?_
    rw [is] at done
    exact done
  · next missing =>
    split
    · next ip found =>
      have facts := List.find?_some found
      have free : (s.itable ip).ref = 0 := of_decide_eq_true facts
      have dead : ¬ 0 < (s.itable ip).ref := by omega
      set inode : Inode := { s.itable ip with dev := ROOTDEV, inum := inum, ref := 1, valid := false }
        with is
      have self : (s.setInode ip inode).itable ip = inode := Function.update_self ..
      have good : Good sb (s.setInode ip inode) v := by
        refine h.setInode fun _ => ⟨⟨rfl, inside, fun read => ?_, fun read => ?_⟩,
          fun jp _ live same => ?_⟩
        · cases read
        · cases read
        · have other := List.find?_eq_none.mp missing jp (List.mem_finRange jp)
          exact other (decide_eq_true ⟨live, (h.cached.slot jp live).dev, same⟩)
      have updated : Ends (updInode ip fun inode =>
          { inode with dev := ROOTDEV, inum := inum, ref := 1, valid := false })
          (fun _ t => t = s.setInode ip inode) s := ends_modify rfl
      refine updated.bind fun _ t now => ends_pure ?_
      subst now
      refine ⟨good.stepInode fun live => absurd live dead, ?_, ?_, fun live => absurd live dead⟩
      · rw [self]
        show (0 : Int) < 1
        decide
      · rw [self]
    · exact ends_throw (by decide)

/-- The lock of `ip` changes hands. -/
def Relocked (ip : InodePtr) (s t : State) : Prop :=
  ∃ lock, t = s.setInode ip { s.itable ip with lock }

theorem Relocked.step {t : State} (h : Good sb s v) (relocked : Relocked ip s t) :
    Step sb nothing s t v := by
  obtain ⟨lock, rfl⟩ := relocked
  have good : Good sb (s.setInode ip { s.itable ip with lock }) v :=
    h.reslot rfl fun live => by
      obtain ⟨dev, inside, synced, typed⟩ := h.cached.slot ip live
      exact ⟨live, dev, inside, synced, typed⟩
  exact good.stepInode fun _ => ⟨Int.le_refl _, rfl, id⟩

theorem Relocked.refs {t : State} (h : Relocked ip s t) (jp : InodePtr) :
    (t.itable jp).ref = (s.itable jp).ref := by
  obtain ⟨lock, rfl⟩ := h
  by_cases this : jp = ip
  · rw [this, State.setInode_itable, Function.update_self]
  · rw [State.setInode_itable, Function.update_of_ne this]

theorem acquiresleep_ends : Ends (acquiresleep ip) (fun _ t => Relocked ip s t) s := by
  unfold acquiresleep
  refine ends_get ?_
  split
  · exact ends_modify ⟨_, rfl⟩
  · split
    · exact ends_throw (by decide)
    · exact ends_throw (by decide)

theorem releasesleep_ends : Ends (releasesleep ip) (fun _ t => Relocked ip s t) s := by
  unfold releasesleep
  refine ends_get ?_
  split
  · exact ends_throw (by decide)
  · split
    · exact ends_modify ⟨_, rfl⟩
    · exact ends_throw (by decide)

theorem iunlock_ends : Ends (iunlock ip) (fun _ t => Relocked ip s t) s := by
  unfold iunlock
  refine ends_get ?_
  split
  · exact ends_throw (by decide)
  · exact releasesleep_ends

theorem ilockRead_ends (h : Good sb s v) (live : 0 < (s.itable ip).ref) :
    Ends (ilockRead sb ip) (fun _ t => Step sb nothing s t v ∧ Ready t ip ∧
      ∀ jp, (t.itable jp).ref = (s.itable jp).ref) s := by
  unfold ilockRead
  refine ends_get (ends_get ?_)
  obtain ⟨dev, inside, -, -⟩ := h.cached.slot ip live
  rw [h.shows.inode _ inside]
  set inode : Inode := { s.itable ip with toDinode := v.inode (s.itable ip).inum, valid := true }
    with is
  have updated : Ends (updInode ip fun inode =>
      { inode with toDinode := v.inode (s.itable ip).inum, valid := true })
      (fun _ t => t = s.setInode ip inode) s := ends_modify rfl
  refine updated.bind fun _ t now => ?_
  subst now
  split
  · exact ends_throw (by decide)
  · next typed =>
    have self : (s.setInode ip inode).itable ip = inode := Function.update_self ..
    have good : Good sb (s.setInode ip inode) v :=
      h.reslot rfl fun _ => ⟨live, dev, inside, fun _ => rfl, fun _ => typed⟩
    refine ends_pure ⟨good.stepInode fun _ => ⟨Int.le_refl _, rfl, fun _ => rfl⟩, ⟨?_, ?_⟩, fun jp => ?_⟩
    · rw [self]
      exact live
    · rw [self]
    · by_cases this : jp = ip
      · rw [this, self]
      · rw [show (s.setInode ip inode).itable jp = s.itable jp from Function.update_of_ne this ..]

/-- `ilock` returns with an inode that has been read. -/
theorem ilock_ends (h : Good sb s v) : Ends (ilock sb ip) (fun _ t => Step sb nothing s t v ∧
    Ready t ip ∧ ∀ jp, (t.itable jp).ref = (s.itable jp).ref) s := by
  unfold ilock
  refine ends_get ?_
  split
  · exact ends_throw (by decide)
  · next counted =>
    have live : 0 < (s.itable ip).ref := by omega
    refine acquiresleep_ends.bind fun _ t relocked => ?_
    have step := relocked.step h
    split
    · next read =>
      exact ends_pure ⟨step, ⟨step.onward.live live, step.onward.valid ip live read⟩, relocked.refs⟩
    · refine (ilockRead_ends step.good (step.onward.live live)).conseq fun _ u ⟨next, ready, same⟩ => ?_
      exact ⟨step.trans next, ready, fun jp => (same jp).trans (relocked.refs jp)⟩

end References

/-! ### `iput` -/

/-- `iput` finds the last reference to an inode without links. -/
def Last (s : State) (ip : InodePtr) : Prop :=
  (s.itable ip).ref = 1 ∧ (s.itable ip).valid = true ∧ (s.itable ip).nlink = 0

/-- A reference to the inode at `ip` has been dropped, and the inode freed if it was the last. -/
structure Put (sb : Superblock) (ip : InodePtr) (s : State) (v : Disk) (t : State) (v' : Disk) :
    Prop where
  good : Good sb t v'
  ref : (t.itable ip).ref = (s.itable ip).ref - 1
  others : ∀ jp ≠ ip, t.itable jp = s.itable jp
  ftable : t.ftable = s.ftable
  procs : t.procs = s.procs
  current : t.current = s.current
  logged : Logged (fun b => Last s ip ∧
    (sb.IsBitmap b ∨ b = sb.iblock (s.itable ip).inum)) s t
  kept : ¬ Last s ip → t.itable ip = { s.itable ip with ref := (s.itable ip).ref - 1 } ∧ v' = v
  freed : Last s ip → (v'.inode (s.itable ip).inum).type = 0 ∧
    ∀ j ≠ (s.itable ip).inum, v'.inode j = v.inode j

section Iput

variable {sb : Superblock} {ip : InodePtr} {s t : State} {v : Disk}

/-- What `ifree` leaves: the inode is free on disk, and still has its reference. -/
structure Freed (sb : Superblock) (ip : InodePtr) (s : State) (v : Disk) (t : State) (v' : Disk) :
    Prop where
  shows : Shows sb t v'
  own : Own sb v' v'.inode
  solid : ∀ i < sb.ninodes, Solid v' (v'.inode i)
  type : (v'.inode (s.itable ip).inum).type = 0
  inodes : ∀ j ≠ (s.itable ip).inum, v'.inode j = v.inode j
  content : ∀ j ≠ (s.itable ip).inum, ∀ o, v'.content (v'.inode j) o = v.content (v.inode j) o
  ref : (t.itable ip).ref = (s.itable ip).ref
  others : ∀ jp ≠ ip, t.itable jp = s.itable jp
  ftable : t.ftable = s.ftable
  procs : t.procs = s.procs
  current : t.current = s.current
  logged : Logged (fun b => sb.IsBitmap b ∨ b = sb.iblock (s.itable ip).inum) s t

/-- An inode of type 0 is stored over the one that has given back its blocks. -/
theorem Truncated.freed {gone : List Place} (valid : sb.Valid) (h : Good sb s v) (ready : Ready s ip)
    (truncated : Truncated sb ip s v gone t) {d : Dinode} (type : d.type = 0) (size : d.size = 0)
    (addrs : ∀ k, d.addrs k = 0) :
    let v' := (v.release (s.itable ip).toDinode gone).setInode (s.itable ip).inum d
    Own sb v' v'.inode ∧ (∀ i < sb.ninodes, Solid v' (v'.inode i)) ∧
      (v'.inode (s.itable ip).inum).type = 0 ∧
      (∀ j ≠ (s.itable ip).inum, v'.inode j = v.inode j) ∧
      ∀ j ≠ (s.itable ip).inum, ∀ o, v'.content (v'.inode j) o = v.content (v.inode j) o := by
  intro v'
  have slot := h.cached.slot ip ready.live
  have before : v.inode (s.itable ip).inum = (s.itable ip).toDinode := (slot.synced ready.valid).symm
  have here : v'.inode (s.itable ip).inum = d := Function.update_self ..
  have others : ∀ j ≠ (s.itable ip).inum, v'.inode j = v.inode j := fun j other =>
    Function.update_of_ne other ..
  have places : ∀ j ≠ (s.itable ip).inum, ∀ q, v'.at (v'.inode j) q = v.at (v.inode j) q := by
    intro j other q
    rw [others j other]
    exact at_congr rfl (fun _ => rfl) q
  have own : Own sb (v.release (v.inode (s.itable ip).inum) gone) v'.inode := by
    refine h.own.release valid slot.inside (fun p some => ?_) (fun k => ?_) others
    · rw [before] at some
      exact truncated.all p some
    · rw [here]
      exact addrs k
  rw [before] at own
  refine ⟨own.congr rfl (fun j _ q => at_congr rfl (fun _ => rfl) q) own.free, fun j hj => ?_, ?_,
    others, fun j other o => ?_⟩
  · by_cases this : j = (s.itable ip).inum
    · rw [this, here]
      refine ⟨by rw [size]; exact Nat.zero_le _, fun o less => ?_⟩
      rw [size] at less
      exact absurd less (Nat.not_lt_zero o)
    · have old := h.solid j hj
      refine ⟨by rw [others j this]; exact old.size, fun o less => ?_⟩
      rw [places j this]
      exact old.mapped o (by rwa [others j this] at less)
  · rw [here, type]
  · unfold Disk.content
    rw [places j other]
    rfl

theorem ifree_ends (valid : sb.Valid) (h : Good sb s v) (ready : Ready s ip) :
    Ends (ifree sb ip) (fun _ t => ∃ v', Freed sb ip s v t v') s := by
  unfold ifree
  refine acquiresleep_ends.bind fun _ s' relocked => ?_
  have step := relocked.step h
  have inum : (s'.itable ip).inum = (s.itable ip).inum := step.onward.inum ip ready.live
  have ready' := step.onward.ready ready
  have others : ∀ jp ≠ ip, s'.itable jp = s.itable jp := by
    obtain ⟨lock, rfl⟩ := relocked
    exact fun jp other => Function.update_of_ne other ..
  refine (itrunc_notes valid (step.good.holds ready')).ends.bind fun _ t ⟨gone, truncated⟩ => ?_
  set freed : Inode := { t.itable ip with type := 0 } with is
  have updated : Ends (updInode ip fun inode => { inode with type := 0 })
      (fun _ u => u = t.setInode ip freed) t := ends_modify rfl
  refine updated.bind fun _ u now => ?_
  have self : u.itable ip = freed := by rw [now]; exact Function.update_self ..
  have table : t.itable ip = (s'.itable ip).emptied := truncated.inode
  have number : (u.itable ip).inum = (s'.itable ip).inum := by
    rw [self, is, table]
    rfl
  have fits : (u.itable ip).toDinode.Fits := by
    rw [self, is, table]
    exact ⟨show 0 < _ by decide, fun k => show 0 < _ by decide⟩
  obtain ⟨own, solid, type, inodes, content⟩ := truncated.freed valid step.good ready'
    (d := (u.itable ip).toDinode) (by rw [self]) (by rw [self, is, table]; rfl)
    (fun k => by rw [self, is, table]; rfl)
  have shows : Shows sb u _ := truncated.shows.congr (t := u) (by rw [now]; rfl)
  have inside := (step.good.cached.slot ip ready'.live).inside
  refine (iupdate_does valid shows (number.symm ▸ inside) fits).ends.bind
    fun _ w ⟨same, logged, stored⟩ => ?_
  rw [number, Disk.setInode_idem] at stored
  have last : Ends (updInode ip fun inode => { inode with valid := false })
      (fun _ x => x = w.setInode ip { w.itable ip with valid := false }) w := ends_modify rfl
  refine last.bind fun _ x final => ?_
  refine releasesleep_ends.conseq fun _ y ⟨lock, done⟩ =>
    ⟨(v.release (s'.itable ip).toDinode gone).setInode (s'.itable ip).inum (u.itable ip).toDinode, ?_⟩
  rw [inum] at stored own solid type inodes content ⊢
  refine ⟨stored.congr (by rw [done, final]; rfl), own, solid, type, inodes, content, ?_,
    fun jp other => ?_, ?_, ?_, ?_, ?_⟩
  · rw [done, final]
    simp only [State.setInode_itable, Function.update_self]
    rw [same.itable, self, is, table]
    exact relocked.refs ip
  · rw [done, final]
    simp only [State.setInode_itable, Function.update_of_ne other]
    rw [same.itable, now, State.setInode_itable, Function.update_of_ne other,
      truncated.others jp other, others jp other]
  · rw [done, final]
    simp only [State.setInode_ftable]
    rw [same.ftable, now, State.setInode_ftable, truncated.ftable, step.ftable]
  · rw [done, final]
    simp only [State.setInode_procs]
    rw [same.procs, now, State.setInode_procs, truncated.procs, step.procs]
  · rw [done, final]
    simp only [State.setInode_current]
    rw [same.current, now, State.setInode_current, truncated.current, step.current]
  · have first : Logged (fun b => sb.IsBitmap b ∨ b = sb.iblock (s.itable ip).inum) s t := by
      rw [← inum]
      exact (step.logged.mono fun _ none => none.elim).trans truncated.logged
    have second : Logged (· = sb.iblock (s.itable ip).inum) t y := by
      rw [number, inum] at logged
      have one : Logged (· = sb.iblock (s.itable ip).inum) t u := .none (by rw [now]; rfl)
      have two : Logged (· = sb.iblock (s.itable ip).inum) w y := .none (by rw [done, final]; rfl)
      exact (one.trans logged).trans two
    exact first.trans (second.mono fun b here => .inr here)

/-- The reference to an inode that stays in use, or of an entry that is not. -/
theorem drop_put (h : Good sb s v) (more : ¬ Last s ip) :
    Put sb ip s v (s.setInode ip { s.itable ip with ref := (s.itable ip).ref - 1 }) v := by
  set inode : Inode := { s.itable ip with ref := (s.itable ip).ref - 1 } with is
  have self : (s.setInode ip inode).itable ip = inode := Function.update_self ..
  have good : Good sb (s.setInode ip inode) v := by
    refine h.reslot rfl fun live => ?_
    have before : 0 < (s.itable ip).ref := by
      have : 0 < (s.itable ip).ref - 1 := live
      omega
    obtain ⟨dev, inside, synced, typed⟩ := h.cached.slot ip before
    exact ⟨before, dev, inside, synced, typed⟩
  refine ⟨good, by rw [self], fun jp other => Function.update_of_ne other .., rfl, rfl, rfl,
    .none rfl, fun _ => ⟨self, rfl⟩, fun last => absurd last more⟩

/-- The reference to an inode that has been freed. -/
theorem Freed.put {v' : Disk} (h : Good sb s v) (last : Last s ip) (freed : Freed sb ip s v t v') :
    Put sb ip s v (t.setInode ip { t.itable ip with ref := (t.itable ip).ref - 1 }) v' := by
  set inode : Inode := { t.itable ip with ref := (t.itable ip).ref - 1 } with is
  have self : (t.setInode ip inode).itable ip = inode := Function.update_self ..
  have others : ∀ jp ≠ ip, (t.setInode ip inode).itable jp = s.itable jp := fun jp other => by
    rw [State.setInode_itable, Function.update_of_ne other, freed.others jp other]
  have ref : inode.ref = (s.itable ip).ref - 1 := by
    show (t.itable ip).ref - 1 = _
    rw [freed.ref]
  have live : 0 < (s.itable ip).ref := by
    rw [last.1]
    decide
  have cached : Cached sb (t.setInode ip inode) v' := by
    refine h.cached.change others (fun jp other inUse => freed.inodes _ fun same => ?_) fun inUse => ?_
    · exact other (h.cached.unique jp ip inUse live same)
    · rw [self, ref, last.1] at inUse
      exact absurd inUse (by decide)
  have entries : Entries sb v' := by
    intro j hj dir off aligned inside
    by_cases this : j = (s.itable ip).inum
    · rw [this, freed.type] at dir
      exact absurd dir (by decide)
    · rw [freed.inodes j this] at dir inside
      have same := freed.content j this
      simp only [same]
      exact h.entries j hj dir off aligned inside
  refine ⟨⟨⟨freed.shows.congr rfl, freed.own, freed.solid, cached⟩, entries⟩, ?_, others,
    freed.ftable, freed.procs, freed.current, ?_, fun more => absurd last more,
    fun _ => ⟨freed.type, freed.inodes⟩⟩
  · rw [self, ref]
  · have all := freed.logged.mono fun b log => (⟨last, log⟩ : Last s ip ∧ _)
    exact all.trans (.none rfl)

/-- `iput` leaves the contents of the other inodes alone. -/
theorem iput_tells (valid : sb.Valid) (h : Good sb s v) :
    Ends (iput sb ip) (fun _ t => ∃ v', Put sb ip s v t v' ∧
      ∀ j ≠ (s.itable ip).inum, ∀ o, v'.content (v'.inode j) o = v.content (v.inode j) o) s := by
  unfold iput
  refine ends_get ?_
  dsimp only
  split
  · next last =>
    have live : 0 < (s.itable ip).ref := by
      rw [last.1]
      decide
    refine (ifree_ends valid h ⟨live, last.2.1⟩).bind fun _ t ⟨v', freed⟩ => ?_
    exact ends_modify ⟨v', freed.put h last, freed.content⟩
  · next more =>
    have dropped : Ends (updInode ip fun inode => { inode with ref := inode.ref - 1 })
        (fun _ t => ∃ v', Put sb ip s v t v' ∧
          ∀ j ≠ (s.itable ip).inum, ∀ o, v'.content (v'.inode j) o = v.content (v.inode j) o) s :=
      ends_modify ⟨v, drop_put h more, fun _ _ _ => rfl⟩
    exact dropped

theorem iput_ends (valid : sb.Valid) (h : Good sb s v) :
    Ends (iput sb ip) (fun _ t => ∃ v', Put sb ip s v t v') s :=
  (iput_tells valid h).conseq fun _ _ ⟨v', put, _⟩ => ⟨v', put⟩

theorem iunlockput_ends (valid : sb.Valid) (h : Good sb s v) :
    Ends (iunlockput sb ip) (fun _ t => ∃ s' v', Relocked ip s s' ∧ Put sb ip s' v t v') s := by
  refine iunlock_ends.bind fun _ s' relocked => ?_
  exact (iput_ends valid (relocked.step h).good).conseq fun _ t ⟨v', put⟩ => ⟨s', v', relocked, put⟩

end Iput

/-! ### Storing inodes -/

/-- `f` changes the links and the device numbers of an inode only. -/
structure Relinks (f : Inode → Inode) : Prop where
  type : ∀ inode, (f inode).type = inode.type
  size : ∀ inode, (f inode).size = inode.size
  addrs : ∀ inode, (f inode).addrs = inode.addrs
  dev : ∀ inode, (f inode).dev = inode.dev
  inum : ∀ inode, (f inode).inum = inode.inum
  ref : ∀ inode, (f inode).ref = inode.ref
  valid : ∀ inode, (f inode).valid = inode.valid

theorem relinks_nlink (nlink : Inode → Int16) :
    Relinks fun inode => { inode with nlink := nlink inode } :=
  ⟨fun _ => rfl, fun _ => rfl, fun _ => rfl, fun _ => rfl, fun _ => rfl, fun _ => rfl, fun _ => rfl⟩

theorem relinks_fresh (major minor nlink : Int16) :
    Relinks fun inode => { inode with major, minor, nlink } :=
  ⟨fun _ => rfl, fun _ => rfl, fun _ => rfl, fun _ => rfl, fun _ => rfl, fun _ => rfl, fun _ => rfl⟩

section Store

variable {sb : Superblock} {ip : InodePtr} {s t : State} {v v' : Disk}

/-- Inodes that read alike. -/
theorem Entries.congr (h : Entries sb v) (types : ∀ i < sb.ninodes,
      (v'.inode i).type = T_DIR → (v.inode i).type = T_DIR ∧ (v'.inode i).size = (v.inode i).size ∧
      ∀ o, v'.content (v'.inode i) o = v.content (v.inode i) o) : Entries sb v' := by
  intro i hi dir off aligned inside
  obtain ⟨old, size, content⟩ := types i hi dir
  simp only [content]
  exact h i hi old off aligned (size ▸ inside)

/-- Fields of an inode are assigned, and `iupdate` stores them. -/
theorem store_tells (valid : sb.Valid) (h : Good sb s v) (ready : Ready s ip) {f : Inode → Inode}
    (relinks : Relinks f) :
    Ends (do updInode ip f; iupdate sb ip) (fun _ t =>
      Step sb (· = sb.iblock (s.itable ip).inum) s t
        (v.setInode (s.itable ip).inum (f (s.itable ip)).toDinode) ∧
      t.itable = Function.update s.itable ip (f (s.itable ip))) s := by
  have slot := h.cached.slot ip ready.live
  have inum : (f (s.itable ip)).inum = (s.itable ip).inum := relinks.inum _
  set d := (f (s.itable ip)).toDinode with is
  have updated : Ends (updInode ip f) (fun _ u => u = s.setInode ip (f (s.itable ip))) s :=
    ends_modify rfl
  refine updated.bind fun _ u now => ?_
  have self : u.itable ip = f (s.itable ip) := by rw [now]; exact Function.update_self ..
  have fits : (u.itable ip).toDinode.Fits := by
    rw [self]
    have size : (f (s.itable ip)).size = (s.itable ip).size := relinks.size _
    have addrs : (f (s.itable ip)).addrs = (s.itable ip).addrs := relinks.addrs _
    have bound : (s.itable ip).size ≤ MAXFILE * BSIZE := (h.solidInode ready).size
    have all : MAXFILE * BSIZE = 274432 := by decide
    refine ⟨by rw [size]; omega, fun k => ?_⟩
    rw [addrs]
    exact (h.holds ready).fits valid k
  have shows : Shows sb u v := h.shows.congr (by rw [now]; rfl)
  have number : (u.itable ip).inum = (s.itable ip).inum := by rw [self, inum]
  refine (iupdate_does valid shows (number.symm ▸ slot.inside) fits).ends.conseq
    fun _ t ⟨same, logged, stored⟩ => ⟨?_, ?_⟩
  · rw [self, inum] at stored
    rw [number] at logged
    have table : t.itable ip = f (s.itable ip) := by rw [same.itable, self]
    have others : ∀ jp ≠ ip, t.itable jp = s.itable jp := fun jp other => by
      rw [same.itable, now, State.setInode_itable, Function.update_of_ne other]
    have apart : ∀ jp ≠ ip, 0 < (s.itable jp).ref → (s.itable jp).inum ≠ (s.itable ip).inum :=
      fun jp other live eq => other (h.cached.unique jp ip live ready.live eq)
    have before : v.inode (s.itable ip).inum = (s.itable ip).toDinode := (slot.synced ready.valid).symm
    have here : (v.setInode (s.itable ip).inum d).inode (s.itable ip).inum = d :=
      Function.update_self ..
    have elsewhere : ∀ j ≠ (s.itable ip).inum,
        (v.setInode (s.itable ip).inum d).inode j = v.inode j := fun j other =>
      Function.update_of_ne other ..
    have fields : ∀ j, ((v.setInode (s.itable ip).inum d).inode j).type = (v.inode j).type ∧
        ((v.setInode (s.itable ip).inum d).inode j).size = (v.inode j).size ∧
        ((v.setInode (s.itable ip).inum d).inode j).addrs = (v.inode j).addrs := by
      intro j
      by_cases this : j = (s.itable ip).inum
      · rw [this, here, before]
        exact ⟨relinks.type _, relinks.size _, relinks.addrs _⟩
      · rw [elsewhere j this]
        exact ⟨rfl, rfl, rfl⟩
    have places : ∀ j q, (v.setInode (s.itable ip).inum d).at
        ((v.setInode (s.itable ip).inum d).inode j) q = v.at (v.inode j) q := fun j q =>
      at_congr (fields j).2.2 (fun _ => rfl) q
    refine ⟨⟨⟨stored, h.own.congr rfl (fun j _ => places j) fun j hj free k => ?_, fun j hj => ?_,
      h.cached.change others (fun jp other live => elsewhere _ (apart jp other live)) fun _ =>
        ⟨⟨?_, ?_, fun _ => ?_, fun _ => ?_⟩, fun jp other live => ?_⟩⟩, h.entries.congr fun j hj dir =>
        ?_⟩, .change others fun _ => ⟨?_, ?_, fun read => ?_⟩, ?_, ?_, ?_, ?_⟩
    · rw [(fields j).2.2]
      exact h.own.free j hj ((fields j).1 ▸ free) k
    · have old := h.solid j hj
      exact ⟨(fields j).2.1 ▸ old.size, fun o less => by
        rw [places]
        exact old.mapped o ((fields j).2.1 ▸ less)⟩
    · rw [table, relinks.dev]
      exact slot.dev
    · rw [table, inum]
      exact slot.inside
    · rw [table, inum]
      exact here.symm
    · rw [table, relinks.type]
      exact slot.typed ready.valid
    · rw [table, inum]
      exact apart jp other live
    · refine ⟨(fields j).1 ▸ dir, (fields j).2.1, fun o => ?_⟩
      unfold Disk.content
      rw [places]
      rfl
    · rw [table, relinks.ref]
    · rw [table, inum]
    · rw [table, relinks.valid]
      exact read
    · rw [same.ftable, now]
      rfl
    · rw [same.procs, now]
      rfl
    · rw [same.current, now]
      rfl
    · exact (Logged.none (by rw [now]; rfl)).trans logged
  · rw [same.itable, now]
    rfl

theorem store_ends (valid : sb.Valid) (h : Good sb s v) (ready : Ready s ip) {f : Inode → Inode}
    (relinks : Relinks f) :
    Ends (do updInode ip f; iupdate sb ip) (fun _ t => ∃ v',
      Step sb (· = sb.iblock (s.itable ip).inum) s t v' ∧
      v'.inode = Function.update v.inode (s.itable ip).inum (f (s.itable ip)).toDinode ∧
      t.itable = Function.update s.itable ip (f (s.itable ip))) s :=
  (store_tells valid h ready relinks).conseq fun _ _ ⟨step, table⟩ => ⟨_, step, rfl, table⟩

/-! ### `ialloc` -/

/-- Operations begin and end. -/
def Relogged (s t : State) : Prop := ∃ n lh, t = s.setLog n lh

theorem Relogged.step (h : Good sb s v) (relogged : Relogged s t) : Step sb nothing s t v := by
  obtain ⟨n, lh, rfl⟩ := relogged
  exact ⟨h.setLog n lh, ⟨fun _ _ => Int.le_refl _, fun _ _ => rfl, fun _ _ read => read⟩, rfl, rfl,
    rfl, .none rfl⟩

theorem beginOp_ends : Ends beginOp (fun _ t => Relogged s t) s := by
  unfold beginOp
  refine ends_get ?_
  split
  · exact ends_throw (by decide)
  · exact ⟨_, _, rfl⟩

theorem endOp_ends : Ends endOp (fun _ t => Relogged s t) s := ends_modify ⟨_, _, rfl⟩

/-- A free inode is taken. -/
theorem Good.fresh (h : Good sb s v) {i : Nat} (inside : i < sb.ninodes)
    (free : (v.inode i).type = 0) (type : Int16)
    (shows : Shows sb t (v.setInode i (freshDinode type))) (same : SameTables s t) :
    Good sb t (v.setInode i (freshDinode type)) := by
  have here : (v.setInode i (freshDinode type)).inode i = freshDinode type := Function.update_self ..
  have elsewhere : ∀ j ≠ i, (v.setInode i (freshDinode type)).inode j = v.inode j := fun j other =>
    Function.update_of_ne other ..
  have places : ∀ j < sb.ninodes, ∀ q, (v.setInode i (freshDinode type)).at
      ((v.setInode i (freshDinode type)).inode j) q = v.at (v.inode j) q := by
    intro j hj q
    refine at_congr ?_ (fun _ => rfl) q
    by_cases this : j = i
    · rw [this, here]
      funext k
      exact (h.own.free i inside free k).symm
    · rw [elsewhere j this]
  refine ⟨⟨shows, h.own.congr rfl places fun j hj none k => ?_, fun j hj => ?_, ?_⟩, fun j hj dir => ?_⟩
  · by_cases this : j = i
    · rw [this, here]
      rfl
    · rw [elsewhere j this] at none ⊢
      exact h.own.free j hj none k
  · by_cases this : j = i
    · rw [this, here]
      exact ⟨Nat.zero_le _, fun o less => absurd less (Nat.not_lt_zero o)⟩
    · have old := h.solid j hj
      refine ⟨by rw [elsewhere j this]; exact old.size, fun o less => ?_⟩
      rw [elsewhere j this] at less
      rw [places j hj]
      exact old.mapped o less
  · refine ⟨fun ip live => ?_, fun ip jp one two eq => ?_⟩
    · rw [same.itable] at live ⊢
      obtain ⟨dev, inum, synced, typed⟩ := h.cached.slot ip live
      refine ⟨dev, inum, fun read => ?_, typed⟩
      -- an inode that has been read is not free
      have apart : (s.itable ip).inum ≠ i := by
        rintro rfl
        rw [← synced read] at free
        exact typed read free
      rw [elsewhere _ apart]
      exact synced read
    · rw [same.itable] at one two eq
      exact h.cached.unique ip jp one two eq
  · intro off aligned within
    by_cases this : j = i
    · rw [this, here] at within
      exact absurd within (by show ¬ off + 16 ≤ 0; omega)
    · have same : ∀ o, (v.setInode i (freshDinode type)).content
          ((v.setInode i (freshDinode type)).inode j) o = v.content (v.inode j) o := by
        intro o
        unfold Disk.content
        rw [places j hj]
        rfl
      simp only [same]
      rw [elsewhere j this] at dir within
      exact h.entries j hj dir off aligned within

/-- Inode `i` was free, and now has type `type` and a reference. -/
structure Assigned (sb : Superblock) (type : Int16) (i : Nat) (ip : InodePtr) (s : State) (v : Disk)
    (t : State) (v' : Disk) : Prop where
  inside : i < sb.ninodes
  free : (v.inode i).type = 0
  inodes : v' = v.setInode i (freshDinode type)
  step : Step sb (· = sb.iblock i) s t v'
  got : Got ip i s t

theorem iallocFrom_ends (valid : sb.Valid) (h : Good sb s v) (type : Int16) (count : Nat) {inum : Nat}
    (upTo : inum + count ≤ sb.ninodes) :
    Ends (iallocFrom sb ROOTDEV type count inum) (fun r t => (r = none ∧ t = s) ∨
      ∃ ip i v', r = some ip ∧ inum ≤ i ∧ Assigned sb type i ip s v t v') s := by
  induction count generalizing inum with
  | zero => exact ends_pure (.inl ⟨rfl, rfl⟩)
  | succ count ih =>
    unfold iallocFrom
    refine ends_get ?_
    have inside : inum < sb.ninodes := by omega
    split
    · next zero =>
      have free : (v.inode inum).type = 0 := by
        rw [← h.shows.inode inum inside]
        exact zero
      refine beginOp_ends.bind fun _ t begun => ?_
      have first := begun.step h
      have blocks : t.blocks = s.blocks := by
        obtain ⟨n, lh, rfl⟩ := begun
        rfl
      refine (bstore_logWrite_does _ _).ends.bind (f := fun _ => do
        endOp
        let ip ← iget ROOTDEV inum
        pure (some ip)) fun _ u ⟨same, logged, stored⟩ => ?_
      rw [blocks] at stored
      have shows : Shows sb u (v.setInode inum (freshDinode type)) :=
        (h.shows.setInode valid inside _ _ (getDinode_clearDinode type)
          fun j away => clearDinode_out away).congr stored
      have good := first.good.fresh inside free type shows same
      have middle : Step sb (· = sb.iblock inum) t u (v.setInode inum (freshDinode type)) := by
        refine ⟨good, ⟨fun jp _ => ?_, fun jp _ => ?_, fun jp _ read => ?_⟩, same.ftable, same.procs,
          same.current, logged⟩
        · rw [same.itable]
        · rw [same.itable]
        · rwa [same.itable]
      refine endOp_ends.bind fun _ w ended => ?_
      have last := ended.step good
      refine (iget_ends last.good inside).bind fun ip x ⟨final, got⟩ => ?_
      have before : ∀ jp, w.itable jp = s.itable jp := by
        intro jp
        obtain ⟨n, lh, rfl⟩ := begun
        obtain ⟨n', lh', rfl⟩ := ended
        show u.itable jp = _
        rw [same.itable]
        rfl
      refine ends_pure (.inr ⟨ip, inum, _, rfl, Nat.le_refl _, inside, free, rfl,
        ((first.any.trans middle).trans last.any).trans final.any, got.live, got.inum, fun live => ?_⟩)
      have more := got.more
      rw [before] at more
      exact more live
    · refine (ih (by omega)).conseq fun r t post => post.imp_right ?_
      rintro ⟨ip, i, v', is, above, allocated⟩
      exact ⟨ip, i, v', is, by omega, allocated⟩

theorem ialloc_ends (valid : sb.Valid) (h : Good sb s v) (type : Int16) :
    Ends (ialloc sb ROOTDEV type) (fun r t => (r = none ∧ t = s) ∨
      ∃ ip i v', r = some ip ∧ 1 ≤ i ∧ Assigned sb type i ip s v t v') s := by
  refine iallocFrom_ends valid h type _ ?_
  have root : 1 < sb.ninodes := valid.root
  omega

end Store

end Xv6Lab.Fs

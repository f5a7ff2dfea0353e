import Xv6Lab.Fs.Walk

/-! What `unlink` does: it removes one entry of one directory and takes a link from the inode that
the entry names, which is freed if nobody holds it and that link was its last. -/

namespace Xv6Lab.Fs

open Bytes Exec

section Parts

variable {sb : Superblock} {ip : InodePtr} {s t : State} {v v' : Disk} {i j : Nat} {d : Dinode}

/-- Storing one inode leaves the others as they are. -/
theorem alike_setInode (other : j ≠ i) : Alike v (v.setInode i d) j := by
  have same : (v.setInode i d).inode j = v.inode j := Function.update_of_ne other ..
  refine .of_eq same fun o _ => ?_
  rw [same]
  rfl

/-- An inode is stored with other links. -/
theorem store_kept (valid : sb.Valid) (h : Good sb s v) (ready : Ready s ip) {f : Inode → Inode}
    (relinks : Relinks f) : Ends (do updInode ip f; iupdate sb ip) (fun _ t => ∃ v',
      Step sb (· = sb.iblock (s.itable ip).inum) s t v' ∧
      (∀ j ≠ (s.itable ip).inum, Alike v v' j) ∧ Kept v v' (s.itable ip).inum ∧
      (v'.inode (s.itable ip).inum).nlink = (f (s.itable ip)).nlink ∧
      (NoOrphan sb s v → NoOrphan sb t v')) s := by
  have before := (h.cached.slot ip ready.live).synced ready.valid
  refine (store_tells valid h ready relinks).conseq fun _ t ⟨step, _⟩ =>
    ⟨_, step, fun j other => alike_setInode other, ⟨?_, ?_, fun o _ => ?_⟩, ?_, fun tidy => ?_⟩
  · rw [← before, show (v.setInode _ _).inode _ = _ from Function.update_self ..]
    exact relinks.type _
  · rw [← before, show (v.setInode _ _).inode _ = _ from Function.update_self ..]
    exact relinks.size _
  · rw [← before, show (v.setInode _ _).inode _ = _ from Function.update_self ..]
    have places : ∀ q, (v.setInode (s.itable ip).inum (f (s.itable ip)).toDinode).at
        (f (s.itable ip)).toDinode q = v.at (s.itable ip).toDinode q := fun q =>
      at_congr (relinks.addrs _) (fun _ => rfl) q
    unfold Disk.content
    rw [places]
    rfl
  · rw [show (v.setInode _ _).inode _ = _ from Function.update_self ..]
  · refine tidy.update step.onward (step.onward.ready ready) fun j other => ?_
    rw [step.onward.inum ip ready.live] at other
    exact Function.update_of_ne other ..

theorem Ends.run {α : Type} {x : F α} {Q R : α → State → Prop} (h : Ends x Q s)
    (value : ∀ a t, x s = .ok a t → R a t) : Ends x (fun a t => Q a t ∧ R a t) s := by
  refine wp_of_run (fun a t run => ⟨wp_ok h run, value a t run⟩) fun e t run => ?_
  have stopped := wp_error h run
  exact stopped

theorem acquiresleep_wp : wp (acquiresleep ip)
    (fun _ t => (s.itable ip).lock = none ∧ (t.itable ip).lock ≠ none) (fun _ _ => True) s := by
  unfold acquiresleep
  rw [wp_bind, wp_get]
  split
  · next free =>
    refine ⟨free, ?_⟩
    rw [State.setInode_itable, Function.update_self]
    exact Option.some_ne_none _
  · split <;> exact trivial

/-- `ilock` takes a lock that was free. -/
theorem ilock_wp : wp (ilock sb ip)
    (fun _ t => (s.itable ip).lock = none ∧ (t.itable ip).lock ≠ none) (fun _ _ => True) s := by
  unfold ilock
  rw [wp_bind, wp_get]
  split
  · exact trivial
  · rw [wp_bind]
    refine wp_conseq acquiresleep_wp fun _ t ⟨free, held⟩ => ?_
    split
    · exact ⟨free, held⟩
    · unfold ilockRead
      rw [wp_bind, wp_get, wp_bind]
      show wp (updInode ip _ >>= _) _ _ t
      rw [wp_bind]
      show wp (if _ then _ else _ : F Unit) _ _ (t.setInode ip _)
      split
      · exact trivial
      · refine ⟨free, ?_⟩
        rw [State.setInode_itable, Function.update_self]
        exact held

/-- `iget` leaves the locks as they are. -/
theorem iget_locks {dev : Nat} (run : iget dev i s = .ok ip t) (jp : InodePtr) :
    (t.itable jp).lock = (s.itable jp).lock := by
  rcases wp_ok iget_wp run with ⟨-, rfl⟩ | ⟨-, rfl⟩
  · by_cases this : jp = ip
    · simp [this]
    · simp [this]
  · by_cases this : jp = ip
    · simp [this]
    · simp [this]

theorem dirlookup_locks {dp : InodePtr} {name : Path} {r : Option (InodePtr × Nat)} (h : Good sb s v)
    (ready : Ready s dp) (tables : Tables sb v) (run : dirlookup sb dp name s = .ok r t)
    (jp : InodePtr) : (t.itable jp).lock = (s.itable jp).lock := by
  have slot := h.cached.slot dp ready.live
  obtain ⟨dir, -⟩ := wp_ok (dirlookup_finds h ready tables name) run
  have type : (v.inode (s.itable dp).inum).type = T_DIR := by
    rw [← slot.synced ready.valid]
    exact dir
  rw [dirlookup_eq h.toConsistent ready dir (tables _ slot.inside type).whole name] at run
  cases found : v.find (s.itable dp).inum name with
  | none =>
    rw [found] at run
    cases run
    rfl
  | some k =>
    rw [found] at run
    obtain ⟨ip, u, got, rest⟩ := ok_of_bind run
    cases rest
    exact iget_locks got jp

theorem iunlockput_tells (valid : sb.Valid) (h : Good sb s v) :
    Ends (iunlockput sb ip) (fun _ t => ∃ s' v', Relocked ip s s' ∧ Put sb ip s' v t v' ∧
      ∀ j ≠ (s.itable ip).inum, ∀ o, v'.content (v'.inode j) o = v.content (v.inode j) o) s := by
  refine iunlock_ends.bind fun _ s' relocked => ?_
  refine (iput_tells valid (relocked.step h).good).conseq fun _ t ⟨v', put, content⟩ =>
    ⟨s', v', relocked, put, ?_⟩
  rw [relocked.inum] at content
  exact content

theorem Step.files {P : Nat → Prop} (step : Step sb P s t v) : SameFiles s t :=
  ⟨step.ftable, step.procs, step.current⟩

theorem Put.files (put : Put sb ip s v t v') : SameFiles s t :=
  ⟨put.ftable, put.procs, put.current⟩

/-- What `iput` leaves of the inodes. -/
theorem Put.alike {s' : State} (put : Put sb ip s' v t v')
    (content : ∀ j ≠ (s'.itable ip).inum, ∀ o, v'.content (v'.inode j) o = v.content (v.inode j) o)
    (other : j ≠ (s'.itable ip).inum) : Alike v v' j := by
  by_cases last : Last s' ip
  · exact .of_eq ((put.freed last).2 j other) fun o _ => content j other o
  · rw [(put.kept last).2]
    exact .refl v j

/-- What is in use afterwards is as before. -/
theorem Put.alike_used (put : Put sb ip s v t v')
    (content : ∀ j ≠ (s.itable ip).inum, ∀ o, v'.content (v'.inode j) o = v.content (v.inode j) o)
    (used : (v'.inode j).type ≠ 0) : Alike v v' j := by
  by_cases last : Last s ip
  · refine put.alike content fun this => ?_
    rw [this] at used
    exact used (put.freed last).1
  · rw [(put.kept last).2]
    exact .refl v j

end Parts

/-- Entry `k` of directory `d` has been removed, with a link of inode `i` that it named. -/
structure Removed (sb : Superblock) (d k i : Nat) (v v' : Disk) : Prop where
  apart : d ≠ i
  inside : k < v.count d
  links : (v'.inode d).type = (v.inode d).type ∧ (v'.inode d).nlink = (v.inode d).nlink
  size : (v'.inode d).size = (v.inode d).size
  slots : ∀ l < v.count d, v'.slots d l = if l = k then none else v.slots d l
  target : ((v'.inode i).type = 0 ∧ (v.inode i).nlink = 1) ∨
    (Kept v v' i ∧ (v'.inode i).nlink = (v.inode i).nlink - 1)
  linked : 1 ≤ (v.inode i).nlink
  others : ∀ j < sb.ninodes, j ≠ d → j ≠ i → Alike v v' j

section Unlink

variable {sb : Superblock} {dp ip : InodePtr} {s t : State} {v v' : Disk} {k i : Nat}

theorem Removed.count {d : Nat} (removed : Removed sb d k i v v') : v'.count d = v.count d := by
  unfold Disk.count
  rw [removed.size]

/-- The directory is a table afterwards, without the name. -/
theorem Removed.lookup {d : Nat} {name : Path} (removed : Removed sb d k i v v')
    (tabular : Tabular v d) (is : v.slots d k = some (nameOf (cstr name), i)) :
    Tabular v' d ∧ v'.lookup d name = none ∧
      ∀ other, nameOf (cstr other) ≠ nameOf (cstr name) → v'.lookup d other = v.lookup d other := by
  have distinct := Slots.clear_distinct removed.slots tabular.distinct
  obtain ⟨gone, old⟩ := Slots.clear_lookup removed.slots tabular.distinct removed.inside is
  unfold Disk.lookup
  rw [removed.count]
  refine ⟨⟨removed.size ▸ tabular.whole, ?_⟩, gone, fun other apart => old _ apart⟩
  rw [removed.count]
  exact distinct

theorem unlinkFound_removes (valid : sb.Valid) (h : Good sb s v) (tidy : NoOrphan sb s v)
    (tables : Tables sb v) (ready : Ready s dp) (spare : Spare s v dp)
    (dir : (s.itable dp).type = T_DIR) (locked : (s.itable dp).lock ≠ none)
    (live : 0 < (s.itable ip).ref) (inside : k < v.count (s.itable dp).inum) :
    Ends (unlinkFound sb dp ip (DIRENT * k)) (fun r t => r = 0 ∧ ∃ v', Calm sb s v' t ∧
      Removed sb (s.itable dp).inum k (s.itable ip).inum v v') s := by
  set d := (s.itable dp).inum with dirIs
  set i := (s.itable ip).inum with fileIs
  unfold unlinkFound
  refine ((ilock_ends h).run (fun _ _ run => wp_ok ilock_wp run)).bind
    fun _ t ⟨⟨step, read, refs⟩, free, _⟩ => ends_get ?_
  have apart : dp ≠ ip := by
    rintro rfl
    exact locked free
  have different : d ≠ i := fun same => apart (h.cached.unique dp ip ready.live live same)
  split
  · exact ends_throw (by decide)
  next counted =>
  have relinks : Relinks fun inode => { inode with nlink := inode.nlink - 1 } :=
    relinks_nlink (·.nlink - 1)
  have inum : (t.itable ip).inum = i := step.onward.inum ip live
  have before : (t.itable ip).toDinode = v.inode i := by
    rw [(step.good.cached.slot ip read.live).synced read.valid, inum]
  have linked : 1 ≤ (v.inode i).nlink := by
    rw [← before]
    exact Int16.not_lt.mp counted
  refine (store_kept valid step.good read relinks).bind (f := fun _ => do
    let r ← writei sb dp (fun _ => 0) (DIRENT * k) DIRENT
    if r ≠ DIRENT then
      panic "unlink: writei"
    else
      iunlockput sb ip
      iunlockput sb dp
      endOp
      pure 0) fun _ u ⟨v₁, stored, same₁, target₁, nlink₁, tidied⟩ => ?_
  rw [inum] at stored same₁ target₁ nlink₁
  have links₁ : (v₁.inode i).nlink = (v.inode i).nlink - 1 := by
    rw [nlink₁, ← before]
  have onward := step.onward.trans stored.onward
  have dpReady := onward.ready ready
  have ipReady := stored.onward.ready read
  have dpInum : (u.itable dp).inum = d := onward.inum dp ready.live
  have ipInum : (u.itable ip).inum = i := (stored.onward.inum ip read.live).trans inum
  have inside₁ : d < sb.ninodes := (h.cached.slot dp ready.live).inside
  have fileInside : i < sb.ninodes := (h.cached.slot ip live).inside
  have bound := (h.solid d inside₁).size
  have isDir : (v.inode d).type = T_DIR := by
    rw [← (h.cached.slot dp ready.live).synced ready.valid]
    exact dir
  have tabular := tables d inside₁ isDir
  have size₁ : (u.itable dp).size = (v.inode d).size := by
    rw [(stored.good.cached.slot dp dpReady.live).synced dpReady.valid, dpInum]
    exact (same₁ d different).size
  have start : DIRENT * k ≤ (u.itable dp).size := by
    have fits := Disk.entry_whole inside
    omega
  refine (writei_entry valid stored.good.toConsistent dpReady start).ends.bind fun r w post => ?_
  obtain ⟨v₂, files, consistent, ⟨rfl, -, wrote⟩ | ⟨short, -⟩⟩ := post
  swap
  · rw [if_pos short]
    exact ends_throw (by decide)
  rw [if_neg (not_not.mpr rfl)]
  have fitting : Fitting sb (u.itable dp) (fun _ => 0) (DIRENT * k) DIRENT := by
    refine fun _ => ⟨Nat.mul_mod_right .., rfl, ?_⟩
    rw [show deInum (fun _ => 0) = 0 from le_zeros 0 2]
    exact Nat.lt_of_le_of_lt (Nat.zero_le _) inside₁
  have good₂ : Good sb w v₂ := ⟨consistent, wrote.entries stored.good dpReady start (Nat.le_refl _)
    (fun less => absurd less (Nat.lt_irrefl _)) fitting⟩
  have tidy₁ : NoOrphan sb u v₁ := tidied (step.onward.tidy .refl tidy)
  have tidy₂ := wrote.resized.onward.tidy (wrote.links stored.good dpReady) tidy₁
  obtain ⟨type₂, nlink₂, size₂⟩ := wrote.inode stored.good.toConsistent dpReady
  have slots₂ := (wrote.slots stored.good.toConsistent dpReady (by
    rw [dpInum, (same₁ d different).size]
    exact tabular.whole)).2
  rw [dpInum] at type₂ nlink₂ size₂ slots₂
  rw [decode_zero] at slots₂
  refine (iunlockput_tells valid good₂).bind fun _ x ⟨w', v₃, relocked, put, content⟩ => ?_
  have unlocked := relocked.step good₂
  have wInum : (w'.itable ip).inum = i := by
    rw [relocked.inum, wrote.resized.onward.inum ip ipReady.live, ipInum]
  have same₃ : ∀ j ≠ i, Alike v₂ v₃ j := fun j other =>
    put.alike (by rw [relocked.inum]; exact content) (by rw [wInum]; exact other)
  have tidy₃ : NoOrphan sb x v₃ :=
    (put.moves unlocked.good).tidy (unlocked.onward.tidy .refl tidy₂)
  have spare₃ : Spare x v₃ dp := by
    have slot : (x.itable dp).inum = d := by
      rw [put.others dp apart, relocked.inum, wrote.resized.onward.inum dp dpReady.live, dpInum]
    have ref : (s.itable dp).ref ≤ (x.itable dp).ref := by
      rw [put.others dp apart, relocked.refs]
      exact (onward.ref dp ready.live).trans (wrote.resized.onward.ref dp dpReady.live)
    intro used zero
    rw [slot, (same₃ d different).type, type₂, (same₁ d different).type] at used
    rw [slot, (same₃ d different).nlink, nlink₂, (same₁ d different).nlink] at zero
    exact (spare used zero).trans ref
  refine (iunlockput_calm valid put.good tidy₃ spare₃).bind fun _ y ⟨calm, _⟩ => ?_
  refine endOp_ends.bind fun _ z ended => ends_pure ⟨rfl, v₃, ?_, ?_⟩
  · have last := (ended.step calm.good).calm calm.tidy
    refine ⟨last.good, ?_, last.tidy⟩
    exact (((((step.files.trans stored.files).trans files).trans unlocked.files).trans put.files).trans
      calm.files).trans last.files
  · have count₂ : v₂.count d = v.count d := by
      have fits := Disk.entry_whole inside
      unfold Disk.count at *
      rw [size₂, (same₁ d different).size]
      unfold DIRENT at *
      omega
    have bound₂ := (consistent.solid d inside₁).size
    have same₂ : Alike v₁ v₂ i := wrote.alike fileInside (by rw [dpInum]; exact different.symm)
    refine ⟨different, inside, ⟨?_, ?_⟩, ?_, fun l less => ?_, ?_, linked, fun j hj one two => ?_⟩
    · rw [(same₃ d different).type, type₂, (same₁ d different).type]
    · rw [(same₃ d different).nlink, nlink₂, (same₁ d different).nlink]
    · have fits := Disk.entry_whole inside
      rw [(same₃ d different).size, size₂, (same₁ d different).size]
      omega
    · rw [(same₃ d different).slots bound₂ (by rw [count₂]; exact less),
        slots₂.2 l (by rw [count₂]; exact less), (same₁ d different).slots bound less]
    · by_cases last : Last w' ip
      · have freed := (put.freed last).1
        have synced := (unlocked.good.cached.slot ip (by rw [last.1]; decide)).synced last.2.1
        have zero := last.2.2
        rw [synced, wInum, same₂.nlink, links₁] at zero
        rw [wInum] at freed
        exact .inl ⟨freed, by rw [Int16.sub_eq_iff_eq_add] at zero; simpa using zero⟩
      · obtain ⟨-, rfl⟩ := put.kept last
        exact .inr ⟨target₁.trans same₂.toKept, same₂.nlink.trans links₁⟩
    · have middle : Alike v₁ v₂ j := wrote.alike hj (by rw [dpInum]; exact one)
      exact ((same₁ j two).trans middle).trans (same₃ j two)

/-- `unlink` fails and changes nothing, or removes the name from the directory that the path leads
to. -/
theorem unlink_removes (valid : sb.Valid) (h : Good sb s v) (tidy : NoOrphan sb s v)
    (tables : Tables sb v) (path : Path)
    (cwd : path.head? = some SLASH ∨ ∀ ip, (s.procs s.current).cwd = some ip →
      0 < (s.itable ip).ref) :
    Ends (unlink sb path) (fun r t => (r = -1 ∧ Calm sb s v t) ∨
      (r = 0 ∧ ∃ d name k i v', s.parent v path = some (d, name) ∧ d < sb.ninodes ∧
        (v.inode d).type = T_DIR ∧ v.slots d k = some (nameOf (cstr name), i) ∧ Calm sb s v' t ∧
        Removed sb d k i v v')) s := by
  unfold unlink
  refine beginOp_ends.bind fun _ s' begun => ?_
  refine (nameiparent_walks valid h tidy tables begun path cwd).bind fun r t ⟨second, result⟩ => ?_
  rcases r with _ | ⟨dp, name⟩
  · refine endOp_ends.bind fun _ u ended => ends_pure (.inl ⟨rfl, ?_⟩)
    exact second.trans ((ended.step second.good).calm second.tidy)
  obtain ⟨live, spare, parent⟩ := result dp name rfl
  refine ((ilock_ends second.good).run fun _ _ run => wp_ok ilock_wp run).bind
    fun _ u ⟨⟨locking, ready, _⟩, _, locked⟩ => ?_
  have third := second.trans (locking.calm second.tidy)
  have inum : (u.itable dp).inum = (t.itable dp).inum := locking.onward.inum dp live
  have spare' := spare.onward locking.onward live
  have slot := locking.good.cached.slot dp ready.live
  refine ((dirlookup_finds third.good ready tables name).run fun _ _ run =>
    dirlookup_locks third.good ready tables run dp).bind fun r w ⟨⟨dir, post⟩, same⟩ => ?_
  have held : (w.itable dp).lock ≠ none := same ▸ locked
  have isDir : (v.inode (t.itable dp).inum).type = T_DIR := by
    rw [← inum, ← slot.synced ready.valid]
    exact dir
  rcases post with ⟨rfl, rfl, -⟩ | ⟨ip, k, rfl, found, took, got⟩
  · refine (iunlockput_calm valid third.good third.tidy spare').bind fun _ x ⟨calm', _⟩ => ?_
    refine endOp_ends.bind fun _ y ended => ends_pure (.inl ⟨rfl, ?_⟩)
    have fourth := third.trans calm'
    exact fourth.trans ((ended.step fourth.good).calm fourth.tidy)
  · have fourth := third.trans (took.calm third.tidy)
    have inum' : (w.itable dp).inum = (t.itable dp).inum :=
      (took.onward.inum dp ready.live).trans inum
    obtain ⟨inside, a, is⟩ := Slots.find_some found
    have number := decode_inum is
    rw [inum] at inside is number got
    have type' : (w.itable dp).type = T_DIR := by
      rw [(took.good.cached.slot dp (took.onward.live ready.live)).synced
        (took.onward.valid dp ready.live ready.valid), inum']
      exact isDir
    refine (unlinkFound_removes valid took.good fourth.tidy tables (took.onward.ready ready)
      (spare'.onward took.onward ready.live) type' held got.live (by rw [inum']; exact inside)).conseq
      fun r x ⟨done, v', calm', removed⟩ => .inr ⟨done, (t.itable dp).inum, name, k, a, v', parent,
        inum ▸ slot.inside, isDir, is, ⟨calm'.good, fourth.files.trans calm'.files, calm'.tidy⟩, ?_⟩
    rw [inum', got.inum, number] at removed
    exact removed

end Unlink

end Xv6Lab.Fs

import Xv6Lab.Fs.Maps

/-! What `create` does: it finds an inode under the name and changes nothing, or it takes a free inode
and adds one entry for it to one directory. -/

namespace Xv6Lab.Fs

open Bytes Exec

/-- Inode `i` was free; it has been made and entered in directory `d`.  The directory is gone only if
its count of links has come round to zero. -/
structure Created (sb : Superblock) (d k i : Nat) (key : Path) (type : Int16) (v v' : Disk) : Prop where
  apart : d ≠ i
  inside : i < sb.ninodes
  free : (v.inode i).type = 0
  node : (v'.inode i).type = type ∧ (v'.inode i).nlink = 1 ∧ (v'.inode i).size = 0
  parent : ((v'.inode d).type = 0 ∧ type = T_DIR ∧ (v.inode d).nlink + 1 = 0) ∨
    ((v'.inode d).type = (v.inode d).type ∧
      (v'.inode d).nlink = (v.inode d).nlink + (if type = T_DIR then 1 else 0) ∧
      Filled v d k key i v')
  others : ∀ j < sb.ninodes, j ≠ d → j ≠ i → Alike v v' j

section Parts

variable {sb : Superblock} {dp ip : InodePtr} {s t u : State} {v v' w w' : Disk} {d k i : Nat}
  {key : Path} {type : Int16}

/-- What surrounds the filling of an entry leaves the directory as it is. -/
theorem Filled.around (before : Kept v w d) (filled : Filled w d k key i w') (after : Kept w' v' d)
    (bound : (v.inode d).size ≤ MAXFILE * BSIZE) (bound' : (w'.inode d).size ≤ MAXFILE * BSIZE) :
    Filled v d k key i v' := by
  have count := before.count
  refine ⟨count ▸ filled.upTo, fun less => ?_, after.size ▸ filled.whole, ?_, fun l less => ?_⟩
  · rw [← before.slots bound less]
    exact filled.vacant (count.symm ▸ less)
  · rw [after.count, filled.count, count]
  · rw [after.count] at less
    rw [after.slots bound' less, filled.slots l less]
    split
    · rfl
    · next other =>
      have upTo := filled.upTo
      have most := filled.count
      exact before.slots bound (by omega)

theorem linkParent_kept (valid : sb.Valid) (h : Good sb s v) (ready : Ready s dp) :
    Ends (linkParent sb dp type) (fun _ t => ∃ v',
      Step sb (· = sb.iblock (s.itable dp).inum) s t v' ∧
      (∀ j ≠ (s.itable dp).inum, Alike v v' j) ∧ Kept v v' (s.itable dp).inum ∧
      (v'.inode (s.itable dp).inum).nlink =
        (v.inode (s.itable dp).inum).nlink + (if type = T_DIR then 1 else 0) ∧
      (NoOrphan sb s v → NoOrphan sb t v')) s := by
  unfold linkParent
  split
  · have relinks : Relinks fun inode => { inode with nlink := inode.nlink + 1 } :=
      relinks_nlink (·.nlink + 1)
    refine (store_kept valid h ready relinks).conseq fun _ t ⟨v', step, same, kept, nlink, tidy⟩ =>
      ⟨v', step, same, kept, ?_, tidy⟩
    rw [nlink, ← (h.cached.slot dp ready.live).synced ready.valid]
  · refine ends_pure ⟨v, .refl h, fun j _ => .refl v j, (Alike.refl v _).toKept, ?_, id⟩
    simp

theorem Created.tables (created : Created sb d k i key type v v') (h : Good sb s v)
    (tables : Tables sb v) (hd : d < sb.ninodes) (dir : (v.inode d).type = T_DIR)
    (fresh : ∀ l < v.count d, ∀ a, v.slots d l ≠ some (key, a)) : Tables sb v' := by
  intro j hj isDir
  by_cases this : j = d
  · subst this
    rcases created.parent with ⟨gone, -⟩ | ⟨-, -, filled⟩
    · rw [gone] at isDir
      exact absurd isDir (by decide)
    · exact filled.tabular (tables j hd dir) fresh
  · by_cases new : j = i
    · subst new
      have none : v'.count j = 0 := by
        unfold Disk.count
        rw [created.node.2.2]
        rfl
      refine ⟨by rw [created.node.2.2]; exact Nat.zero_mod _, fun l less => ?_⟩
      omega
    · have same := created.others j hj this new
      exact same.tabular (h.solid j hj).size (tables j hj (same.type ▸ isDir))

/-- `create` finds an inode under the name. -/
theorem createExisting_calm (valid : sb.Valid) (tidy : NoOrphan sb s v) (ready : Ready s dp)
    (spare : Spare s v dp) (took : Step sb nothing s t v) (got : Got ip i s t) (type : Int16) :
    Ends (createExisting sb dp ip type) (fun _ u => Calm sb t v u) t := by
  have calm := took.calm tidy
  unfold createExisting
  refine (iunlockput_calm valid took.good calm.tidy (spare.onward took.onward ready.live)).bind
    fun _ u ⟨first, others, inums, one⟩ => ?_
  obtain ⟨live, spare'⟩ := got.passes tidy ready spare took others inums one
  refine (ilock_ends first.good).bind fun _ w ⟨locked, _, _⟩ => ends_get ?_
  have second := first.trans (locked.calm first.tidy)
  split
  · refine iunlock_ends.bind fun _ x relocked => ?_
    have third := second.trans ((relocked.step second.good).calm second.tidy)
    refine endOp_ends.bind fun _ y ended => ends_pure ?_
    exact third.trans ((ended.step third.good).calm third.tidy)
  · refine (iunlockput_calm valid second.good second.tidy (spare'.onward locked.onward live)).bind
      fun _ x ⟨dropped, _⟩ => ?_
    have third := second.trans dropped
    refine endOp_ends.bind fun _ y ended => ends_pure ?_
    exact third.trans ((ended.step third.good).calm third.tidy)

/-- `create` enters the inode that it has made, and drops the directory. -/
theorem createEntry_fills (valid : sb.Valid) (few : sb.ninodes ≤ 65536) (h : Ordered sb s v)
    (ready : Ready s dp) (dir : (s.itable dp).type = T_DIR) (live : 0 < (s.itable ip).ref)
    (some' : 1 ≤ (s.itable ip).inum) (name : Path) :
    Ends (createEntry sb dp ip name) (fun _ t => ∃ v' w k, Calm sb s v' t ∧
      Filled v (s.itable dp).inum k (nameOf (cstr name)) (s.itable ip).inum w ∧
      ((w.inode (s.itable dp).inum).type = (v.inode (s.itable dp).inum).type ∧
        (w.inode (s.itable dp).inum).nlink = (v.inode (s.itable dp).inum).nlink) ∧
      (w.inode (s.itable dp).inum).size ≤ MAXFILE * BSIZE ∧
      (∀ j < sb.ninodes, j ≠ (s.itable dp).inum → Alike v v' j) ∧
      (((v'.inode (s.itable dp).inum).type = 0 ∧ (v.inode (s.itable dp).inum).nlink = 0 ∧
        ¬ Spare s v dp) ∨ Alike w v' (s.itable dp).inum)) s := by
  have slot := h.good.cached.slot dp ready.live
  have type : (v.inode (s.itable dp).inum).type = T_DIR := by
    rw [← slot.synced ready.valid]
    exact dir
  have inside := (h.good.cached.slot ip live).inside
  unfold createEntry
  refine ends_get ?_
  have linked : Ends (dirlink sb dp name (s.itable ip).inum) (fun r t => ∃ w,
      LinkPost sb (s.itable dp).inum name (s.itable ip).inum s v r t w) s := by
    refine wp_mono (dirlink_wp valid h.good.toConsistent ready dir (h.tables _ slot.inside type) name
      some' (by omega)) (fun _ _ post => post) fun e _ stop => ?_
    rcases stop with ⟨rfl, -⟩ | ⟨⟨rfl, -⟩ | ⟨rfl, -⟩, -⟩ <;> decide
  refine linked.bind fun r t ⟨w, post⟩ => ?_
  split
  · exact ends_throw (by decide)
  next done =>
  have after := post.ordered h type slot.inside inside
  obtain ⟨k, filled⟩ : ∃ k, Filled v (s.itable dp).inum k (nameOf (cstr name)) (s.itable ip).inum w := by
    rcases post.result with ⟨rfl, -⟩ | ⟨-, -, -, k, filled⟩
    · exact absurd (by decide) done
    · exact ⟨k, filled⟩
  have inum : (t.itable dp).inum = (s.itable dp).inum := post.onward.inum dp ready.live
  refine (iunlockput_tells valid after.good).bind fun _ u ⟨t', v', relocked, put, content⟩ => ?_
  have unlocked := relocked.step after.good
  have inum' : (t'.itable dp).inum = (s.itable dp).inum := (relocked.inum dp).trans inum
  have same : ∀ j ≠ (s.itable dp).inum, Alike w v' j := fun j other =>
    put.alike (by rw [relocked.inum]; exact content) (by rw [inum']; exact other)
  have tidy : NoOrphan sb u v' :=
    (put.moves unlocked.good).tidy (unlocked.onward.tidy .refl after.tidy)
  refine iunlock_ends.bind fun _ x relocked' => ?_
  have third := (relocked'.step put.good).calm tidy
  refine endOp_ends.bind fun _ y ended => ends_pure ⟨v', w, k, ?_, filled, post.links,
    (post.consistent.solid _ slot.inside).size, fun j hj other => ?_, ?_⟩
  · have last := third.trans ((ended.step third.good).calm third.tidy)
    refine ⟨last.good, ?_, last.tidy⟩
    exact ((post.files.trans unlocked.files).trans put.files).trans last.files
  · exact (post.others j hj other).trans (same j other)
  · by_cases gone : Last t' dp
    · have freed := (put.freed gone).1
      have synced := (unlocked.good.cached.slot dp (by rw [gone.1]; decide)).synced gone.2.1
      have zero := gone.2.2
      rw [synced, inum', post.links.2] at zero
      rw [inum'] at freed
      refine .inl ⟨freed, zero, fun spare => ?_⟩
      have two := spare (by rw [type]; decide) zero
      have more := post.onward.ref dp ready.live
      have one := gone.1
      rw [relocked.refs] at one
      omega
    · rw [(put.kept gone).2]
      exact .inr (.refl w _)

theorem createNew_makes (valid : sb.Valid) (few : sb.ninodes ≤ 65536) (h : Ordered sb s v)
    (ready : Ready s dp) (spare : Spare s v dp) (dir : (s.itable dp).type = T_DIR) (name : Path)
    (type major minor : Int16) :
    Ends (createNew sb dp name type major minor) (fun _ t => ∃ v' k i, Calm sb s v' t ∧
      Created sb (s.itable dp).inum k i (nameOf (cstr name)) type v v') s := by
  have slot := h.good.cached.slot dp ready.live
  have isDir : (v.inode (s.itable dp).inum).type = T_DIR := by
    rw [← slot.synced ready.valid]
    exact dir
  set d := (s.itable dp).inum with dirIs
  unfold createNew
  refine ends_get ?_
  rw [slot.dev]
  refine (ialloc_ends valid h.good type).bind fun r t post => ?_
  rcases post with ⟨rfl, rfl⟩ | ⟨ip, i, v₁, rfl, above, inside, free, inodes, step, got⟩
  · exact ends_throw (by decide)
  have apart : d ≠ i := by
    intro same
    rw [same, free] at isDir
    exact absurd isDir (by decide)
  have new₁ : v₁.inode i = freshDinode type := by
    rw [inodes]
    exact Function.update_self ..
  have same₁ : ∀ j ≠ i, Alike v v₁ j := by
    intro j other
    rw [inodes]
    exact alike_setInode other
  refine (ilock_ends step.good).bind fun _ u ⟨locked, read, _⟩ => ?_
  have inum : (u.itable ip).inum = i := (locked.onward.inum ip got.live).trans got.inum
  have onward := step.onward.trans locked.onward
  have relinks : Relinks fun inode => { inode with major, minor, nlink := 1 } :=
    relinks_fresh major minor 1
  have tidy₁ : NoOrphan sb u v₁ := by
    refine h.tidy.update onward read fun j other => ?_
    rw [inum] at other
    rw [inodes]
    exact Function.update_of_ne other ..
  refine (store_kept valid locked.good read relinks).bind (f := fun _ => do
    linkParent sb dp type
    createEntry sb dp ip name) fun _ w ⟨v₂, stored, same₂, new₂, one, tidied⟩ => ?_
  rw [inum] at same₂ new₂ one
  have onward' := onward.trans stored.onward
  have dpReady := onward'.ready ready
  have ipReady := stored.onward.ready read
  have dpInum : (w.itable dp).inum = d := onward'.inum dp ready.live
  have ipInum : (w.itable ip).inum = i := (stored.onward.inum ip read.live).trans inum
  refine (@linkParent_kept sb _ _ _ type valid stored.good dpReady).bind
    fun _ x ⟨v₃, linked, same₃, kept₃, nlink₃, tidied'⟩ => ?_
  rw [dpInum] at same₃ kept₃ nlink₃
  have kept : ∀ j ≠ i, Kept v v₃ j := by
    intro j other
    have before := ((same₁ j other).trans (same₂ j other)).toKept
    by_cases this : j = d
    · rw [this] at before ⊢
      exact before.trans kept₃
    · exact before.trans (same₃ j this).toKept
  have node : (v₃.inode i).type = type ∧ (v₃.inode i).nlink = 1 ∧ (v₃.inode i).size = 0 := by
    have last := same₃ i apart.symm
    rw [last.type, last.nlink, last.size, new₂.type, new₂.size, one, new₁]
    exact ⟨rfl, rfl, rfl⟩
  have tables : Tables sb v₃ := by
    intro j hj type'
    by_cases new : j = i
    · have none : v₃.count j = 0 := by
        unfold Disk.count
        rw [new, node.2.2]
        rfl
      refine ⟨by rw [new, node.2.2]; exact Nat.zero_mod _, fun l less => ?_⟩
      omega
    · exact (kept j new).tabular (h.good.solid j hj).size (h.tables j hj ((kept j new).type ▸ type'))
  have ordered : Ordered sb x v₃ := ⟨linked.good, tidied' (tidied tidy₁), tables⟩
  have onward'' := onward'.trans linked.onward
  have dpReady' := linked.onward.ready dpReady
  have dpInum' : (x.itable dp).inum = d := onward''.inum dp ready.live
  have ipInum' : (x.itable ip).inum = i := (linked.onward.inum ip ipReady.live).trans ipInum
  have dir' : (x.itable dp).type = T_DIR := by
    rw [(linked.good.cached.slot dp dpReady'.live).synced dpReady'.valid, dpInum', (kept d apart).type]
    exact isDir
  refine (createEntry_fills valid few ordered dpReady' dir' (linked.onward.live ipReady.live)
    (by rw [ipInum']; exact above) name).conseq
    fun _ y ⟨v₅, v₄, k, calm, filled, links, bound, others, final⟩ => ⟨v₅, k, i, ?_, ?_⟩
  · refine ⟨calm.good, ?_, calm.tidy⟩
    exact (((step.files.trans locked.files).trans stored.files).trans linked.files).trans calm.files
  rw [dpInum'] at filled links bound others final
  rw [ipInum'] at filled
  have before : (v₂.inode d).nlink = (v.inode d).nlink :=
    (same₂ d apart).nlink.trans (same₁ d apart).nlink
  rw [before] at nlink₃
  refine ⟨apart, inside, free, ?_, ?_, fun j hj one two => ?_⟩
  · have last := others i inside apart.symm
    rw [last.type, last.nlink, last.size]
    exact node
  · rcases final with ⟨gone, zero, alone⟩ | same
    · rw [nlink₃] at zero
      by_cases isNew : type = T_DIR
      · rw [if_pos isNew] at zero
        exact .inl ⟨gone, isNew, zero⟩
      · -- a directory without links is held by another, as before
        refine absurd (fun used none => ?_) alone
        rw [dpInum'] at used none
        rw [(kept d apart).type] at used
        rw [nlink₃, if_neg isNew, Int16.add_zero] at none
        exact (spare used none).trans (onward''.ref dp ready.live)
    · refine .inr ⟨?_, ?_, filled.around (kept d apart) same.toKept (h.good.solid d slot.inside).size
        bound⟩
      · rw [same.type, links.1, (kept d apart).type]
      · rw [same.nlink, links.2, nlink₃]
  · exact (((same₁ j two).trans (same₂ j two)).trans (same₃ j one)).trans (others j hj one)

/-- `create` changes nothing, or makes an inode in the directory that the path leads to. -/
theorem create_makes (valid : sb.Valid) (few : sb.ninodes ≤ 65536) (h : Ordered sb s v) (path : Path)
    (type major minor : Int16)
    (cwd : path.head? = some SLASH ∨ ∀ ip, (s.procs s.current).cwd = some ip →
      0 < (s.itable ip).ref) :
    Ends (create sb path type major minor) (fun _ t => Calm sb s v t ∨
      ∃ d name k i v', s.parent v path = some (d, name) ∧ d < sb.ninodes ∧
        (v.inode d).type = T_DIR ∧ v.lookup d name = none ∧ Calm sb s v' t ∧
        Created sb d k i (nameOf (cstr name)) type v v') s := by
  unfold create
  refine beginOp_ends.bind fun _ s' begun => ?_
  refine (nameiparent_walks valid h.good h.tidy h.tables begun path cwd).bind
    fun r t ⟨calm, result⟩ => ?_
  rcases r with _ | ⟨dp, name⟩
  · refine endOp_ends.bind fun _ u ended => ends_pure (.inl ?_)
    exact calm.trans ((ended.step calm.good).calm calm.tidy)
  obtain ⟨live, spare, parent⟩ := result dp name rfl
  refine (ilock_ends calm.good).bind fun _ u ⟨locking, ready, _⟩ => ?_
  have second := calm.trans (locking.calm calm.tidy)
  have inum : (u.itable dp).inum = (t.itable dp).inum := locking.onward.inum dp live
  have spare' := spare.onward locking.onward live
  have slot := locking.good.cached.slot dp ready.live
  refine (dirlookup_finds second.good ready h.tables name).bind fun r w ⟨dir, post⟩ => ?_
  have isDir : (v.inode (t.itable dp).inum).type = T_DIR := by
    rw [← inum, ← slot.synced ready.valid]
    exact dir
  rcases post with ⟨rfl, rfl, missing⟩ | ⟨ip, k, rfl, found, took, got⟩
  · refine (createNew_makes valid few (second.ordered h.tables) ready spare' dir name type major
      minor).conseq fun _ x ⟨v', k, i, made, created⟩ => .inr ⟨_, name, k, i, v', parent,
        inum ▸ slot.inside, isDir, inum ▸ missing, ⟨made.good, second.files.trans made.files,
        made.tidy⟩, ?_⟩
    rw [inum] at created
    exact created
  · have third := second.trans (took.calm second.tidy)
    exact (createExisting_calm valid second.tidy ready spare' took got type).conseq
      fun _ x last => .inl (third.trans last)

end Parts

end Xv6Lab.Fs

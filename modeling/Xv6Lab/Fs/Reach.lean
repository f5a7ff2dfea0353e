import Xv6Lab.Fs.Making

/-! Every file can be reached from the root directory.  `create` makes files that can be reached;
`unlink` keeps what the entry led to reachable only if it finds another way there, and this code does
not look. -/

namespace Xv6Lab.Fs

open Bytes Exec Relation

/-- An entry of directory `d` names inode `i`. -/
def Names (v : Disk) (d i : Nat) : Prop :=
  (v.inode d).type = T_DIR ∧ ∃ k < v.count d, ∃ key, v.slots d k = some (key, i)

/-- Inode `i` can be reached from the root directory. -/
def Reaches (v : Disk) (i : Nat) : Prop := ReflTransGen (Names v) ROOTINO i

/-- An entry of directory `a` other than entry `k` of `d` names inode `b`. -/
def NamesBut (v : Disk) (d k a b : Nat) : Prop :=
  (v.inode a).type = T_DIR ∧ ∃ l < v.count a, ¬ (a = d ∧ l = k) ∧ ∃ key, v.slots a l = some (key, b)

/-- Inode `i` can be reached without entry `k` of directory `d`. -/
def ReachesBut (v : Disk) (d k i : Nat) : Prop := ReflTransGen (NamesBut v d k) ROOTINO i

/-- Every inode that is in use and linked can be reached, and entries name inodes that are in use. -/
structure Connected (sb : Superblock) (v : Disk) : Prop where
  reached : ∀ i < sb.ninodes, (v.inode i).type ≠ 0 → 0 < (v.inode i).nlink → Reaches v i
  named : ∀ d i, Reaches v d → Names v d i → (v.inode i).type ≠ 0

/-- The root directory is linked, what is linked can be reached, and what can be reached is linked. -/
structure Anchored (sb : Superblock) (v : Disk) : Prop where
  root : (v.inode ROOTINO).type = T_DIR ∧ (v.inode ROOTINO).nlink ≠ 0
  reached : ∀ i < sb.ninodes, (v.inode i).type ≠ 0 → (v.inode i).nlink ≠ 0 → Reaches v i
  named : ∀ d i, Reaches v d → Names v d i → (v.inode i).type ≠ 0 ∧ (v.inode i).nlink ≠ 0

section Graph

variable {sb : Superblock} {s : State} {v v' : Disk} {d k i j : Nat} {key : Path} {type : Int16}

theorem Anchored.connected (h : Anchored sb v) : Connected sb v := by
  refine ⟨fun i hi used some => h.reached i hi used fun zero => ?_, fun d i reached names =>
    (h.named d i reached names).1⟩
  rw [zero] at some
  exact absurd some (by decide)

theorem Anchored.linked (h : Anchored sb v) (reaches : Reaches v i) :
    (v.inode i).type ≠ 0 ∧ (v.inode i).nlink ≠ 0 := by
  cases reaches with
  | refl => exact ⟨by rw [h.root.1]; decide, h.root.2⟩
  | tail before last => exact h.named _ _ before last

/-- What can be reached exists. -/
theorem Reaches.inside (valid : sb.Valid) (entries : Entries sb v) (reaches : Reaches v i) :
    i < sb.ninodes := by
  induction reaches with
  | refl => exact valid.root
  | tail _ last before =>
    obtain ⟨dir, k, less, key, is⟩ := last
    exact entries.slot before dir less is

theorem Kept.names (kept : Kept v v' d) (bound : (v.inode d).size ≤ MAXFILE * BSIZE) :
    Names v' d i ↔ Names v d i := by
  unfold Names
  rw [kept.type, kept.count]
  refine and_congr_right fun _ => exists_congr fun l => and_congr_right fun less => ?_
  rw [kept.slots bound less]

/-- The inodes that can be reached stay as they are, and no other comes to be linked. -/
theorem Anchored.congr (h : Anchored sb v) (valid : sb.Valid) (entries : Entries sb v)
    (solid : ∀ i < sb.ninodes, Solid v (v.inode i))
    (alike : ∀ i < sb.ninodes, Reaches v i → Alike v v' i)
    (old : ∀ i < sb.ninodes, (v'.inode i).type ≠ 0 → (v'.inode i).nlink ≠ 0 →
      (v.inode i).type ≠ 0 ∧ (v.inode i).nlink ≠ 0) : Anchored sb v' := by
  have inside : ∀ {i}, Reaches v i → i < sb.ninodes := fun reaches => reaches.inside valid entries
  have names : ∀ {a b}, Reaches v a → (Names v' a b ↔ Names v a b) := fun reaches =>
    (alike _ (inside reaches) reaches).toKept.names (solid _ (inside reaches)).size
  have onward : ∀ {i}, Reaches v i → Reaches v' i := fun reaches =>
    Transition.reach_mono (fun _ _ before last => (names before).mpr last) reaches
  have back : ∀ {i}, Reaches v' i → Reaches v i := by
    intro i reaches
    induction reaches with
    | refl => exact .refl
    | tail _ last before => exact before.tail ((names before).mp last)
  have root := alike ROOTINO valid.root .refl
  refine ⟨?_, fun i hi used some => ?_, fun a b reaches last => ?_⟩
  · rw [root.type, root.nlink]
    exact h.root
  · obtain ⟨used', some'⟩ := old i hi used some
    exact onward (h.reached i hi used' some')
  · have before := back reaches
    have last' := (names before).mp last
    have there := before.tail last'
    have same := alike b (inside there) there
    rw [same.type, same.nlink]
    exact h.named a b before last'

/-! ### `create` -/

theorem Created.anchored (created : Created sb d k i key type v v') (h : Anchored sb v)
    (valid : sb.Valid) (entries : Entries sb v) (solid : ∀ i < sb.ninodes, Solid v (v.inode i))
    (hd : d < sb.ninodes) (dir : (v.inode d).type = T_DIR) (used : type ≠ 0)
    (linked : (v.inode d).nlink ≠ 0) (room : type = T_DIR → (v.inode d).nlink + 1 ≠ 0) :
    Anchored sb v' := by
  have inside : ∀ {i}, Reaches v i → i < sb.ninodes := fun reaches => reaches.inside valid entries
  obtain ⟨type', nlink', filled⟩ := created.parent.resolve_left fun gone => room gone.2.1 gone.2.2
  have links : (v'.inode d).nlink ≠ 0 := by
    rw [nlink']
    split
    · next isDir => exact room isDir
    · rwa [Int16.add_zero]
  have apart : ∀ {a}, Reaches v a → a ≠ i := by
    rintro a reaches rfl
    exact (h.linked reaches).1 created.free
  have reached : Reaches v d := h.reached d hd (by rw [dir]; decide) linked
  -- the entries are the old ones and the new one
  have names : ∀ {a b}, Reaches v a → (Names v' a b ↔ Names v a b ∨ (a = d ∧ b = i)) := by
    intro a b reaches
    by_cases this : a = d
    · subst this
      have iff : ∀ key', (∃ l < v'.count a, v'.slots a l = some (key', b)) ↔
          (key' = key ∧ b = i) ∨ ∃ l < v.count a, v.slots a l = some (key', b) := fun key' =>
        Slots.fill_iff filled.upTo filled.count filled.slots filled.vacant
      unfold Names
      rw [type', dir]
      constructor
      · rintro ⟨-, l, less, key', is⟩
        rcases (iff key').mp ⟨l, less, is⟩ with ⟨-, rfl⟩ | ⟨l, less, is⟩
        · exact .inr ⟨rfl, rfl⟩
        · exact .inl ⟨rfl, l, less, key', is⟩
      · rintro (⟨-, l, less, key', is⟩ | ⟨-, rfl⟩)
        · obtain ⟨l, less, is⟩ := (iff key').mpr (.inr ⟨l, less, is⟩)
          exact ⟨rfl, l, less, key', is⟩
        · obtain ⟨l, less, is⟩ := (iff key).mpr (.inl ⟨rfl, rfl⟩)
          exact ⟨rfl, l, less, key, is⟩
    · have same := created.others a (inside reaches) this (apart reaches)
      rw [same.toKept.names (solid a (inside reaches)).size]
      exact (or_iff_left fun both => this both.1).symm
  have onward : ∀ {j}, Reaches v j → Reaches v' j := fun reaches =>
    Transition.reach_mono (fun _ _ before last => (names before).mpr (.inl last)) reaches
  have new : Reaches v' i := (onward reached).tail ((names reached).mpr (.inr ⟨rfl, rfl⟩))
  have back : ∀ {j}, Reaches v' j → Reaches v j ∨ j = i := by
    intro j reaches
    induction reaches with
    | refl => exact .inl .refl
    | @tail a b _ last before =>
      rcases before with before | rfl
      · rcases (names before).mp last with old | ⟨-, is⟩
        · exact .inl (before.tail old)
        · exact .inr is
      · -- the new inode has no entries
        obtain ⟨-, l, less, -⟩ := last
        have none : v'.count a = 0 := by
          unfold Disk.count
          rw [created.node.2.2]
          rfl
        omega
  have old : ∀ {j}, Reaches v j → (v'.inode j).type = (v.inode j).type ∧ (v'.inode j).nlink ≠ 0 := by
    intro j reaches
    by_cases this : j = d
    · rw [this]
      exact ⟨type', links⟩
    · have same := created.others j (inside reaches) this (apart reaches)
      rw [same.type, same.nlink]
      exact ⟨rfl, (h.linked reaches).2⟩
  refine ⟨?_, fun j hj used' some => ?_, fun a b reaches last => ?_⟩
  · obtain ⟨same, some⟩ := old (j := ROOTINO) .refl
    rw [same]
    exact ⟨h.root.1, some⟩
  · by_cases this : j = i
    · rw [this]
      exact new
    · by_cases parent : j = d
      · rw [parent]
        exact onward reached
      · have same := created.others j hj parent this
        rw [same.type] at used'
        rw [same.nlink] at some
        exact onward (h.reached j hj used' some)
  · rcases back (reaches.tail last) with before | rfl
    · obtain ⟨same, some⟩ := old before
      rw [same]
      exact ⟨(h.linked before).1, some⟩
    · rw [created.node.1, created.node.2.1]
      exact ⟨used, by decide⟩

/-! ### `unlink` -/

/-- Inode `i`, which entry `k` of directory `d` names, can be reached without that entry just if it
has another link, and what its entries name can be reached without it. -/
def Expendable (v : Disk) (d k i : Nat) : Prop :=
  (ReachesBut v d k i ↔ (v.inode i).nlink ≠ 1) ∧ ∀ j, Names v i j → j = i ∨ ReachesBut v d k j

theorem NamesBut.names {a b : Nat} (h : NamesBut v d k a b) : Names v a b := by
  obtain ⟨dir, l, less, -, key, is⟩ := h
  exact ⟨dir, l, less, key, is⟩

theorem namesBut_iff {a b : Nat} (other : a ≠ d) : NamesBut v d k a b ↔ Names v a b := by
  refine ⟨NamesBut.names, fun ⟨dir, l, less, key, is⟩ => ?_⟩
  exact ⟨dir, l, less, fun both => other both.1, key, is⟩

theorem ReachesBut.reaches (reaches : ReachesBut v d k i) : Reaches v i :=
  Transition.reach_mono (fun _ _ _ edge => edge.names) reaches

theorem Removed.anchored (removed : Removed sb d k i v v') (h : Anchored sb v) (valid : sb.Valid)
    (entries : Entries sb v) (solid : ∀ i < sb.ninodes, Solid v (v.inode i))
    (is : v.slots d k = some (key, i)) (safe : Expendable v d k i) : Anchored sb v' := by
  have inside : ∀ {j}, ReachesBut v d k j → j < sb.ninodes := fun reaches =>
    reaches.reaches.inside valid entries
  have kept : ReachesBut v d k i → Kept v v' i ∧ (v'.inode i).nlink = (v.inode i).nlink - 1 :=
    fun reaches => removed.target.resolve_left fun freed => safe.1.mp reaches freed.2
  -- the entries are the old ones without the one that is gone
  have names : ∀ {a b}, ReachesBut v d k a → (Names v' a b ↔ NamesBut v d k a b) := by
    intro a b reaches
    by_cases this : a = d
    · subst this
      unfold Names NamesBut
      rw [removed.links.1, removed.count]
      refine and_congr_right fun _ => exists_congr fun l => and_congr_right fun less => ?_
      rw [removed.slots l less]
      split
      · next gone => simp [gone]
      · next other => simp [other]
    · rw [namesBut_iff this]
      by_cases target : a = i
      · subst target
        exact (kept reaches).1.names (solid a (inside reaches)).size
      · exact (removed.others a (inside reaches) this target).toKept.names (solid a (inside reaches)).size
  have onward : ∀ {j}, ReachesBut v d k j → Reaches v' j := fun reaches =>
    Transition.reach_mono (fun _ _ before last => (names before).mpr last) reaches
  have back : ∀ {j}, Reaches v' j → ReachesBut v d k j := by
    intro j reaches
    induction reaches with
    | refl => exact .refl
    | tail _ last before => exact before.tail ((names before).mp last)
  have rest : ∀ {j}, Reaches v j → j = i ∨ ReachesBut v d k j := by
    intro j reaches
    refine Transition.reach_without (fun a b edge => ?_) safe.2 reaches
    obtain ⟨dir, l, less, key', entry⟩ := edge
    by_cases this : a = d ∧ l = k
    · obtain ⟨rfl, rfl⟩ := this
      rw [is] at entry
      exact .inr (Prod.mk.inj (Option.some.inj entry)).2.symm
    · exact .inl ⟨dir, l, less, this, key', entry⟩
  have old : ∀ {j}, ReachesBut v d k j →
      (v'.inode j).type = (v.inode j).type ∧ (v'.inode j).nlink ≠ 0 := by
    intro j reaches
    by_cases this : j = d
    · rw [this, removed.links.1, removed.links.2]
      exact ⟨rfl, (h.linked (this ▸ reaches.reaches)).2⟩
    · by_cases target : j = i
      · subst target
        obtain ⟨same, nlink⟩ := kept reaches
        refine ⟨same.type, fun zero => safe.1.mp reaches ?_⟩
        rw [nlink, Int16.sub_eq_iff_eq_add] at zero
        simpa using zero
      · have same := removed.others j (inside reaches) this target
        rw [same.type, same.nlink]
        exact ⟨rfl, (h.linked reaches.reaches).2⟩
  refine ⟨?_, fun j hj used some => ?_, fun a b reaches last => ?_⟩
  · obtain ⟨same, some⟩ := old (j := ROOTINO) .refl
    rw [same]
    exact ⟨h.root.1, some⟩
  · by_cases target : j = i
    · subst target
      rcases removed.target with ⟨freed, -⟩ | ⟨-, nlink⟩
      · exact absurd freed used
      · refine onward (safe.1.mpr fun one => some ?_)
        rw [nlink, one]
        decide
    · have before : (v.inode j).type ≠ 0 ∧ (v.inode j).nlink ≠ 0 := by
        by_cases this : j = d
        · rw [this, removed.links.1] at used
          rw [this, removed.links.2] at some
          rw [this]
          exact ⟨used, some⟩
        · have same := removed.others j hj this target
          rw [same.type] at used
          rw [same.nlink] at some
          exact ⟨used, some⟩
      exact onward ((rest (h.reached j hj before.1 before.2)).resolve_left target)
  · have there := back (reaches.tail last)
    obtain ⟨same, some⟩ := old there
    rw [same]
    exact ⟨(h.linked there.reaches).1, some⟩

end Graph

/-! ### Runs of `create` and `unlink` -/

/-- Calls that make and remove files, and those that come between them. -/
inductive Change
  | create (path : Path) (type major minor : Int16)
  | unlink (path : Path)
  | namei (path : Path)
  | iput (ip : InodePtr)
  | ilock (ip : InodePtr)
  | iunlock (ip : InodePtr)
  | beginOp
  | endOp
  | schedule (p : Pid)

def Change.run (sb : Superblock) : Change → F Unit
  | .create path type major minor => ignore (Fs.create sb path type major minor)
  | .unlink path => ignore (Fs.unlink sb path)
  | .namei path => ignore (Fs.namei sb path)
  | .iput ip => Fs.iput sb ip
  | .ilock ip => Fs.ilock sb ip
  | .iunlock ip => Fs.iunlock ip
  | .beginOp => Fs.beginOp
  | .endOp => Fs.endOp
  | .schedule p => modify fun s => s.setCurrent p

/-- What the callers see to. -/
def Change.Proper (s : State) : Change → Prop
  | .create path type _ _ => s.Rooted path ∧ (type = T_FILE ∨ type = T_DIR)
  | .unlink path | .namei path => s.Rooted path
  | _ => True

/-- A call loses no file: `create` makes files in directories that are linked and whose count of links
does not come round to zero, and `unlink` removes entries that nothing else depends on. -/
def Change.Sparing (s : State) (v : Disk) : Change → Prop
  | .create path type _ _ => ∀ d name, s.parent v path = some (d, name) → v.lookup d name = none →
      (v.inode d).nlink ≠ 0 ∧ (type = T_DIR → (v.inode d).nlink + 1 ≠ 0)
  | .unlink path => ∀ d name k i, s.parent v path = some (d, name) → k < v.count d →
      v.slots d k = some (nameOf (cstr name), i) → Expendable v d k i
  | _ => True

/-- A call that its caller may make, and that loses no file, runs to its end. -/
def Spares (sb : Superblock) (s t : State) : Prop :=
  ∃ change : Change, change.Proper s ∧ change.Sparing s (s.disk sb) ∧ change.run sb s = .ok () t

section Runs

variable {sb : Superblock} {s t : State} {v v' : Disk}

theorem Anchored.disk (h : Anchored sb v) (valid : sb.Valid) (good : Good sb s v) :
    Anchored sb (s.disk sb) := by
  refine h.congr valid good.entries good.solid (fun i hi _ => good.disk_alike hi)
    fun i hi used some => ?_
  rw [good.shows.disk_inode hi] at used some
  exact ⟨used, some⟩

/-- An inode that is freed could not be reached. -/
theorem iput_anchored (valid : sb.Valid) (h : Ordered sb s v) (anchored : Anchored sb v) {ip : InodePtr} :
    Ends (iput sb ip) (fun _ t => ∃ v', Ordered sb t v' ∧ Anchored sb v') s := by
  refine (iput_tells valid h.good).conseq fun _ t ⟨v', put, content⟩ => ⟨v', ⟨put.good,
    (put.moves h.good).tidy h.tidy, h.tables.alike h.good.solid fun j _ type => ?_⟩, ?_⟩
  · exact put.alike_used content (by rw [type]; decide)
  · refine anchored.congr valid h.good.entries h.good.solid (fun j _ reaches => ?_)
      fun j _ used some => ?_
    · by_cases last : Last s ip
      · refine put.alike content fun this => (anchored.linked reaches).2 ?_
        have synced := (h.good.cached.slot ip (by rw [last.1]; decide)).synced last.2.1
        rw [this, ← synced]
        exact last.2.2
      · rw [(put.kept last).2]
        exact .refl v j
    · have same := put.alike_used content used
      rw [same.type] at used
      rw [same.nlink] at some
      exact ⟨used, some⟩

theorem Change.ends (valid : sb.Valid) (few : sb.ninodes ≤ 65536) (h : Ordered sb s v)
    (anchored : Anchored sb v) (change : Change) (proper : change.Proper s)
    (sparing : change.Sparing s v) :
    Ends (change.run sb) (fun _ t => ∃ v', Ordered sb t v' ∧ Anchored sb v') s := by
  have calm : ∀ {t}, Calm sb s v t → ∃ v', Ordered sb t v' ∧ Anchored sb v' := fun calm =>
    ⟨v, calm.ordered h.tables, anchored⟩
  have steps : ∀ {P t}, Step sb P s t v → ∃ v', Ordered sb t v' ∧ Anchored sb v' := fun step =>
    calm (step.calm h.tidy)
  cases change with
  | create path type major minor =>
    refine ignore_ends ((create_makes valid few h path type major minor proper.1).conseq ?_)
    rintro r t (still | ⟨d, name, k, i, v', parent, hd, dir, missing, made, created⟩)
    · exact calm still
    · obtain ⟨linked, room⟩ := sparing d name parent missing
      refine ⟨v', made.ordered (created.tables h.good h.tables hd dir
        (Slots.lookup_eq_none.mp missing)), created.anchored anchored valid h.good.entries h.good.solid
        hd dir ?_ linked room⟩
      rcases proper.2 with rfl | rfl <;> decide
  | unlink path =>
    refine ignore_ends ((unlink_removes valid h.good h.tidy h.tables path proper).conseq ?_)
    rintro r t (⟨-, still⟩ | ⟨-, d, name, k, i, v', parent, hd, dir, is, made, removed⟩)
    · exact calm still
    · refine ⟨v', made.ordered (removed.tables h.good h.tables hd dir is), removed.anchored anchored
        valid h.good.entries h.good.solid is (sparing d name k i parent removed.inside is)⟩
  | namei path =>
    exact ignore_ends ((namex_walks valid false h.good h.tidy h.tables path proper).bind
      fun r t ⟨still, _⟩ => ends_pure (calm still))
  | iput ip => exact iput_anchored valid h anchored
  | ilock ip => exact (ilock_ends h.good).conseq fun _ t ⟨step, _⟩ => steps step
  | iunlock ip => exact iunlock_ends.conseq fun _ t relocked => steps (relocked.step h.good)
  | beginOp => exact beginOp_ends.conseq fun _ t begun => steps (begun.step h.good)
  | endOp => exact endOp_ends.conseq fun _ t ended => steps (ended.step h.good)
  | schedule p =>
    exact ends_modify ⟨v, ⟨(setCurrent_ran h.good p).good, (setCurrent_ran h.good p).tidy h.tidy,
      h.tables⟩, anchored⟩

/-- No file becomes unreachable in a run in which `create` makes files in directories that are linked
and `unlink` removes entries that nothing else depends on. -/
theorem files_stay_reachable (valid : sb.Valid) (few : sb.ninodes ≤ 65536) (h : Ordered sb s v)
    (anchored : Anchored sb v) (run : ReflTransGen (Spares sb) s t) : Connected sb (t.disk sb) := by
  have all := Transition.invariant (I := fun t => Ordered sb t (t.disk sb) ∧ Anchored sb (t.disk sb))
    (fun t u ⟨ordered, linked⟩ step => ?_) ⟨h.disk valid, anchored.disk valid h.good⟩ run
  · exact all.2.connected
  · obtain ⟨change, proper, sparing, run⟩ := step
    obtain ⟨v', after, linked'⟩ := wp_ok (change.ends valid few ordered linked proper sparing) run
    exact ⟨after.disk valid, linked'.disk valid after.good⟩

end Runs

/-- The entries of the root directory are for itself. -/
def selfNaming (v : Disk) : Bool :=
  (List.range (v.count ROOTINO)).all fun k => (v.slots ROOTINO k).all fun pair => decide (pair.2 = ROOTINO)

theorem reaches_root {v : Disk} (only : selfNaming v = true) {i : Nat} (reaches : Reaches v i) :
    i = ROOTINO := by
  induction reaches with
  | refl => rfl
  | tail _ last before =>
    obtain ⟨-, k, less, key, is⟩ := last
    rw [before] at less is
    have this := List.all_eq_true.mp only k (List.mem_range.mpr less)
    rw [is] at this
    exact of_decide_eq_true this

theorem image_anchored : Anchored fsImg imageDisk := by
  have only : selfNaming imageDisk = true := by decide +kernel
  refine ⟨by decide, fun i _ used _ => ?_, fun d i reaches names => ?_⟩
  · by_cases root : i = ROOTINO
    · rw [root]
      exact .refl
    · have inode : imageDisk.inode i = freshDinode 0 := if_neg root
      rw [inode] at used
      exact absurd rfl used
  · rw [reaches_root only (reaches.tail names)]
    decide

theorem booted_ordered : Ordered fsImg booted imageDisk := ⟨booted_good, booted_noOrphan, image_tables⟩

/-- A file is made in the root directory of a fresh file system. -/
theorem files_stay_reachable_booted : ∃ t,
    Change.run fsImg (.create pathA T_FILE 0 0) booted = .ok () t ∧ Reaches (t.disk fsImg) 2 := by
  have parent : booted.parent (booted.disk fsImg) pathA = some (ROOTINO, [97]) := by decide +kernel
  have linked : ((booted.disk fsImg).inode ROOTINO).nlink ≠ 0 := by decide +kernel
  have sparing : Change.Sparing booted (booted.disk fsImg) (.create pathA T_FILE 0 0) := by
    intro d name is _
    rw [parent] at is
    obtain ⟨rfl, rfl⟩ := Prod.mk.inj (Option.some.inj is)
    exact ⟨linked, fun dir => absurd dir (by decide)⟩
  obtain ⟨t, done⟩ := create_returns
  have made : ((runOperations fsImg [.create pathA T_FILE 0 0] booted).any fun t =>
      decide (((t.disk fsImg).inode 2).type ≠ 0 ∧ 0 < ((t.disk fsImg).inode 2).nlink)) = true := by
    decide +kernel
  simp only [runOperations, done, Option.any_some] at made
  obtain ⟨used, some'⟩ := of_decide_eq_true made
  have all := files_stay_reachable fsImg_valid (by decide) booted_ordered image_anchored
    (.single ⟨.create pathA T_FILE 0 0, ⟨.inl rfl, .inl rfl⟩, sparing, done⟩)
  exact ⟨t, done, all.reached 2 (by decide) used some'⟩

/-- The calls one after the other. -/
def runChanges (sb : Superblock) : List Change → State → Option State
  | [], s => some s
  | change :: rest, s =>
    match change.run sb s with
    | .ok _ t => runChanges sb rest t
    | .error _ _ => none

/-- A directory with a file in it is unlinked. -/
def unlinkFilled : List Change :=
  [.create pathD T_DIR 0 0, .iput 1, .create pathDX T_FILE 0 0, .iput 2, .unlink pathD]

theorem unlinkFilled_loses : ((runChanges fsImg unlinkFilled booted).any fun t =>
    decide (((t.disk fsImg).inode 3).type ≠ 0 ∧ 0 < ((t.disk fsImg).inode 3).nlink) &&
      selfNaming (t.disk fsImg)) = true := by
  decide +kernel

/-- The file in a directory that is unlinked can no longer be reached. -/
theorem files_lost : Connected fsImg (booted.disk fsImg) ∧ ∃ t,
    runChanges fsImg unlinkFilled booted = some t ∧ ¬ Connected fsImg (t.disk fsImg) := by
  refine ⟨(image_anchored.disk fsImg_valid booted_good).connected, ?_⟩
  obtain ⟨t, run, found⟩ := (Option.any_eq_true _ _).mp unlinkFilled_loses
  obtain ⟨facts, only⟩ := Bool.and_eq_true_iff.mp found
  obtain ⟨used, some'⟩ := of_decide_eq_true facts
  refine ⟨t, run, fun connected => ?_⟩
  have root := reaches_root only (connected.reached 3 (by decide) used some')
  exact absurd root (by decide)

end Xv6Lab.Fs

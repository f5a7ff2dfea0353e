import Xv6Lab.Fs.Removal
import Xv6Lab.Fs.Runs

/-! Directories are finite maps from names to inodes.  In every run of `dirlink` and `unlink`, the
entries of a directory are whole and have different names; `dirlink` adds a name unless the name is
there or there is no place for it, `unlink` removes one, and neither touches another name. -/

namespace Xv6Lab.Fs

open Bytes Exec

section Disks

variable {sb : Superblock} {s t : State} {v v' : Disk} {i : Nat}

theorem Tables.alike (tables : Tables sb v) (solid : ∀ i < sb.ninodes, Solid v (v.inode i))
    (alike : ∀ i < sb.ninodes, (v'.inode i).type = T_DIR → Alike v v' i) : Tables sb v' := by
  intro i hi dir
  have same := alike i hi dir
  exact same.tabular (solid i hi).size (tables i hi (same.type ▸ dir))

/-- The entries of directories in use name inodes that exist. -/
theorem entries_of_slots (some' : 0 < sb.ninodes) (named : ∀ i < sb.ninodes,
    (v.inode i).type = T_DIR → ∀ k < v.count i, ∀ key a, v.slots i k = some (key, a) →
      a < sb.ninodes) : Entries sb v := by
  intro i hi dir off aligned inside
  have whole : DIRENT * (off / DIRENT) = off := by
    unfold DIRENT at *
    omega
  have within : off / DIRENT < v.count i := by
    unfold Disk.count
    unfold DIRENT at *
    omega
  have entry : (fun k => v.content (v.inode i) (off + k)) = v.entry i (off / DIRENT) := by
    unfold Disk.entry
    rw [whole]
  rw [entry]
  cases is : v.slots i (off / DIRENT) with
  | none =>
    rw [decode_eq_none.mp is]
    exact some'
  | some pair =>
    rw [decode_inum is]
    exact named i hi dir _ within pair.1 pair.2 is

theorem Entries.slot (entries : Entries sb v) (hi : i < sb.ninodes)
    (dir : (v.inode i).type = T_DIR) {k a : Nat} {key : Path} (inside : k < v.count i)
    (is : v.slots i k = some (key, a)) : a < sb.ninodes := by
  rw [← decode_inum is]
  exact entries i hi dir _ (Nat.mul_mod_right ..) (Disk.entry_whole inside)

/-- The blocks of a state store the disk that it shows. -/
theorem Consistent.disk_alike (h : Consistent sb s v) (inside : i < sb.ninodes) :
    Alike v (s.disk sb) i :=
  .of_eq (h.shows.disk_inode inside) fun o _ => h.shows.disk_content h.own inside o

theorem Tables.disk (tables : Tables sb v) (h : Consistent sb s v) : Tables sb (s.disk sb) :=
  tables.alike h.solid fun _ inside _ => h.disk_alike inside

end Disks

/-! ### Runs of `dirlink` and `unlink` -/

/-- Calls that change directories, and those that come between them. -/
inductive Edit
  | dirlink (dp : InodePtr) (name : Path) (inum : Nat)
  | unlink (path : Path)
  | namei (path : Path)
  | iput (ip : InodePtr)
  | ilock (ip : InodePtr)
  | iunlock (ip : InodePtr)
  | beginOp
  | endOp
  | schedule (p : Pid)

def Edit.run (sb : Superblock) : Edit → F Unit
  | .dirlink dp name inum => ignore (Fs.dirlink sb dp name inum)
  | .unlink path => ignore (Fs.unlink sb path)
  | .namei path => ignore (Fs.namei sb path)
  | .iput ip => Fs.iput sb ip
  | .ilock ip => Fs.ilock sb ip
  | .iunlock ip => Fs.iunlock ip
  | .beginOp => Fs.beginOp
  | .endOp => Fs.endOp
  | .schedule p => modify fun s => s.setCurrent p

/-- What the callers see to: a directory that is passed is in use and has been read, and the inode
that is entered in it is one of the file system. -/
def Edit.Proper (sb : Superblock) (s : State) : Edit → Prop
  | .dirlink dp _ inum => Ready s dp ∧ 1 ≤ inum ∧ inum ≤ 65535 ∧ inum < sb.ninodes
  | .unlink path | .namei path => s.Rooted path
  | _ => True

/-- A call that its caller may make runs to its end. -/
def Edits (sb : Superblock) (s t : State) : Prop :=
  ∃ edit : Edit, edit.Proper sb s ∧ edit.run sb s = .ok () t

/-- The file system is consistent and has no orphans, and its directories are tables. -/
structure Ordered (sb : Superblock) (s : State) (v : Disk) : Prop where
  good : Good sb s v
  tidy : NoOrphan sb s v
  tables : Tables sb v

section Steps

variable {sb : Superblock} {dp ip : InodePtr} {s t : State} {v v' : Disk}

theorem Ordered.disk (valid : sb.Valid) (h : Ordered sb s v) : Ordered sb s (s.disk sb) :=
  ⟨h.good.disk valid, h.tidy.disk h.good.shows, h.tables.disk h.good.toConsistent⟩

theorem Calm.ordered (calm : Calm sb s v t) (tables : Tables sb v) : Ordered sb t v :=
  ⟨calm.good, calm.tidy, tables⟩

theorem LinkPost.ordered {d inum : Nat} {name : Path} {r : Int} (h : Ordered sb s v)
    (dir : (v.inode d).type = T_DIR) (hd : d < sb.ninodes) (inside : inum < sb.ninodes)
    (post : LinkPost sb d name inum s v r t v') : Ordered sb t v' := by
  have links : SameLinks sb v v' := by
    intro j hj
    by_cases this : j = d
    · rw [this]
      exact post.links
    · exact ⟨(post.others j hj this).type, (post.others j hj this).nlink⟩
  have tables : Tables sb v' := by
    intro j hj type
    by_cases this : j = d
    · rw [this]
      exact post.tabular (h.tables d hd dir) (h.good.solid d hd).size
    · have same := post.others j hj this
      exact same.tabular (h.good.solid j hj).size (h.tables j hj (same.type ▸ type))
  have alike : ∀ j, j < sb.ninodes → (v'.inode j).type = T_DIR → Alike v v' j → ∀ k < v'.count j,
      ∀ key a, v'.slots j k = some (key, a) → a < sb.ninodes := by
    intro j hj type same k less key a is
    rw [same.count] at less
    rw [same.slots (h.good.solid j hj).size less] at is
    exact h.good.entries.slot hj (same.type ▸ type) less is
  refine ⟨⟨post.consistent, entries_of_slots (by omega) fun j hj type k less key a is => ?_⟩,
    post.onward.tidy links h.tidy, tables⟩
  by_cases this : j = d
  · subst this
    rcases post.result with ⟨-, -, same⟩ | ⟨-, -, -, l, filled⟩
    · exact alike j hj type same k less key a is
    · rw [filled.slots k less] at is
      split at is
      · rw [← (Prod.mk.inj (Option.some.inj is)).2]
        exact inside
      · have count := filled.count
        have upTo := filled.upTo
        exact h.good.entries.slot hj dir (by omega) is
  · exact alike j hj type (post.others j hj this) k less key a is

theorem dirlink_ordered (valid : sb.Valid) (h : Ordered sb s v) (ready : Ready s dp) (name : Path)
    {inum : Nat} (some' : 1 ≤ inum) (small : inum ≤ 65535) (inside : inum < sb.ninodes) :
    Ends (dirlink sb dp name inum) (fun _ t => ∃ v', Ordered sb t v') s := by
  have slot := h.good.cached.slot dp ready.live
  by_cases dir : (s.itable dp).type = T_DIR
  · have type : (v.inode (s.itable dp).inum).type = T_DIR := by
      rw [← slot.synced ready.valid]
      exact dir
    refine wp_mono (dirlink_wp valid h.good.toConsistent ready dir (h.tables _ slot.inside type) name
      some' small) (fun r t ⟨v', post⟩ => ⟨v', post.ordered h type slot.inside inside⟩) fun e _ stop => ?_
    rcases stop with ⟨rfl, -⟩ | ⟨⟨rfl, -⟩ | ⟨rfl, -⟩, -⟩ <;> decide
  · exact (dirlookup_stops dir name).bind fun _ _ none => none.elim

theorem Removed.tables {d k i : Nat} {key : Path} (removed : Removed sb d k i v v')
    (h : Good sb s v) (tables : Tables sb v) (hd : d < sb.ninodes) (dir : (v.inode d).type = T_DIR)
    (is : v.slots d k = some (key, i)) : Tables sb v' := by
  intro j hj type
  by_cases this : j = d
  · subst this
    refine ⟨removed.size ▸ (tables j hd dir).whole, ?_⟩
    rw [removed.count]
    exact Slots.clear_distinct removed.slots (tables j hd dir).distinct
  · by_cases target : j = i
    · subst target
      rcases removed.target with ⟨free, -⟩ | ⟨kept, -⟩
      · rw [free] at type
        exact absurd type (by decide)
      · exact kept.tabular (h.solid j hj).size (tables j hj (kept.type ▸ type))
    · have same := removed.others j hj this target
      exact same.tabular (h.solid j hj).size (tables j hj (same.type ▸ type))

theorem iput_ordered (valid : sb.Valid) (h : Ordered sb s v) :
    Ends (iput sb ip) (fun _ t => ∃ v', Ordered sb t v') s := by
  refine (iput_tells valid h.good).conseq fun _ t ⟨v', put, content⟩ =>
    ⟨v', put.good, (put.moves h.good).tidy h.tidy, h.tables.alike h.good.solid fun j _ type => ?_⟩
  exact put.alike_used content (by rw [type]; decide)

theorem Edit.ends (valid : sb.Valid) (h : Ordered sb s v) (edit : Edit) (proper : edit.Proper sb s) :
    Ends (edit.run sb) (fun _ t => ∃ v', Ordered sb t v') s := by
  cases edit with
  | dirlink dp name inum =>
    obtain ⟨ready, some', small, inside⟩ := proper
    exact ignore_ends (dirlink_ordered valid h ready name some' small inside)
  | unlink path =>
    refine ignore_ends ((unlink_removes valid h.good h.tidy h.tables path proper).conseq ?_)
    rintro r t (⟨-, calm⟩ | ⟨-, d, name, k, i, v', -, hd, dir, is, calm, removed⟩)
    · exact ⟨v, calm.ordered h.tables⟩
    · exact ⟨v', calm.ordered (removed.tables h.good h.tables hd dir is)⟩
  | namei path =>
    refine ignore_ends ((namex_walks valid false h.good h.tidy h.tables path proper).bind
      fun r t ⟨calm, _⟩ => ends_pure ⟨v, calm.ordered h.tables⟩)
  | iput ip => exact iput_ordered valid h
  | ilock ip =>
    exact (ilock_ends h.good).conseq fun _ t ⟨step, _⟩ => ⟨v, (step.calm h.tidy).ordered h.tables⟩
  | iunlock ip =>
    exact iunlock_ends.conseq fun _ t relocked =>
      ⟨v, ((relocked.step h.good).calm h.tidy).ordered h.tables⟩
  | beginOp =>
    exact beginOp_ends.conseq fun _ t begun =>
      ⟨v, ((begun.step h.good).calm h.tidy).ordered h.tables⟩
  | endOp =>
    exact endOp_ends.conseq fun _ t ended =>
      ⟨v, ((ended.step h.good).calm h.tidy).ordered h.tables⟩
  | schedule p =>
    exact ends_modify ⟨v, (setCurrent_ran h.good p).good, (setCurrent_ran h.good p).tidy h.tidy,
      h.tables⟩

/-- The calls keep directories tables. -/
theorem Ordered.run (valid : sb.Valid) (h : Ordered sb s v)
    (run : Relation.ReflTransGen (Edits sb) s t) : Ordered sb t (t.disk sb) := by
  refine Transition.invariant (I := fun t => Ordered sb t (t.disk sb)) (fun t u ordered step => ?_)
    (h.disk valid) run
  obtain ⟨edit, proper, run⟩ := step
  obtain ⟨v', after⟩ := wp_ok (edit.ends valid ordered proper) run
  exact after.disk valid

end Steps

/-! ### Directories as maps -/

/-- `dirlookup` finds nothing under the name, or takes a reference to the inode that it finds. -/
def Finds (sb : Superblock) (dp : InodePtr) (name : Path) (s : State) : Option Nat → Prop
  | none => dirlookup sb dp name s = .ok none s
  | some i => ∃ off, dirlookup sb dp name s =
      (do let ip ← iget ROOTDEV i; pure (some (ip, off)) : F (Option (InodePtr × Nat))) s

/-- The directory at `dp` is the map `m`: that is what its blocks store and what `dirlookup` finds. -/
structure Lists (sb : Superblock) (s : State) (dp : InodePtr) (m : Path → Option Nat) : Prop where
  stores : ∀ name, (s.disk sb).lookup (s.itable dp).inum name = m name
  finds : ∀ name, Finds sb dp name s (m name)

section Maps

variable {sb : Superblock} {dp : InodePtr} {s t u : State} {v v' : Disk}

theorem finds_lookup (h : Consistent sb s v) (ready : Ready s dp) (dir : (s.itable dp).type = T_DIR)
    (whole : (v.inode (s.itable dp).inum).size % DIRENT = 0) (name : Path) :
    Finds sb dp name s (v.lookup (s.itable dp).inum name) := by
  have runs := dirlookup_eq h ready dir whole name
  cases found : v.find (s.itable dp).inum name with
  | none =>
    rw [found] at runs
    rw [Disk.find_eq_none.mp found]
    exact runs
  | some k =>
    rw [found] at runs
    rw [Disk.lookup_of_find found]
    exact ⟨DIRENT * k, runs⟩

/-- A directory that is read is the map that its blocks store. -/
theorem lists (h : Consistent sb s v) (ready : Ready s dp)
    (dir : (s.itable dp).type = T_DIR) (whole : (v.inode (s.itable dp).inum).size % DIRENT = 0) :
    Lists sb s dp (v.lookup (s.itable dp).inum) := by
  have inside := (h.cached.slot dp ready.live).inside
  have alike := h.disk_alike inside
  have same : ∀ name, (s.disk sb).lookup (s.itable dp).inum name = v.lookup (s.itable dp).inum name :=
    fun name => alike.lookup (h.solid _ inside).size name
  refine ⟨same, fun name => ?_⟩
  exact finds_lookup h ready dir whole name

end Maps

/-- The root directory has two entries, and room for more. -/
theorem image_tables : Tables fsImg imageDisk := by
  intro i _ dir
  by_cases root : i = ROOTINO
  · subst root
    have rest : ((List.range 64).all fun k => decide (k < 2) || (imageDisk.slots ROOTINO k).isNone) =
        true := by
      decide +kernel
    have early : ∀ k < imageDisk.count ROOTINO, ∀ pair, imageDisk.slots ROOTINO k = some pair → k < 2 := by
      intro k less pair is
      have this := List.all_eq_true.mp rest k (List.mem_range.mpr less)
      rw [is] at this
      simpa using this
    have apart : (imageDisk.slots ROOTINO 0).map Prod.fst ≠ (imageDisk.slots ROOTINO 1).map Prod.fst := by
      decide +kernel
    have whole : (imageDisk.inode ROOTINO).size % DIRENT = 0 := by decide +kernel
    refine ⟨whole, fun k hk l hl key a b one two => ?_⟩
    have first := early k hk _ one
    have second := early l hl _ two
    by_contra differ
    have both : k = 0 ∧ l = 1 ∨ k = 1 ∧ l = 0 := by omega
    rcases both with ⟨rfl, rfl⟩ | ⟨rfl, rfl⟩ <;> rw [one, two] at apart <;> exact apart rfl
  · have inode : imageDisk.inode i = freshDinode 0 := if_neg root
    rw [inode] at dir
    exact absurd dir (by decide)

theorem mounted_good : Good fsImg mounted imageDisk := ⟨mounted_consistent, image_entries⟩

/-- The calls one after the other. -/
def runEdits (sb : Superblock) : List Edit → State → Option State
  | [], s => some s
  | edit :: rest, s =>
    match edit.run sb s with
    | .ok _ t => runEdits sb rest t
    | .error _ _ => none

def pathD : Path := [SLASH, 100]
def pathDX : Path := [SLASH, 100, SLASH, 120]
def sixA : Path := [97, 97, 97, 97, 97, 97]

/-- A directory gets two entries, the second for an inode that would lie in its own data block. -/
def strayEntry : List Edit :=
  [.beginOp, .ilock 1, .dirlink 1 sixA 5, .dirlink 1 [120] 240, .iunlock 1, .endOp]

theorem strayEntry_spoils : ((runOperations fsImg [.create pathD T_DIR 0 0] booted).any fun s =>
    decide (((s.disk fsImg).inode (s.itable 1).inum).size = 0) &&
    (runEdits fsImg strayEntry s).any fun t =>
      match unlink fsImg pathDX t with
      | .ok r u => decide (r = 0 ∧ (t.disk fsImg).lookup (s.itable 1).inum sixA = some 5 ∧
          (u.disk fsImg).lookup (s.itable 1).inum sixA = none)
      | .error _ _ => false) = true := by
  decide +kernel

end Xv6Lab.Fs

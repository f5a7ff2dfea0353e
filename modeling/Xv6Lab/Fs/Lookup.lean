import Xv6Lab.Fs.Names

/-! A directory is a table of entries, and `dirlookup` searches it. -/

namespace Xv6Lab.Fs

open Bytes Exec

namespace Disk

variable (v : Disk) (i : Nat)

/-- Entry `k` of directory `i`. -/
def entry (k : Nat) : Buffer := fun j => v.content (v.inode i) (DIRENT * k + j)

/-- The entries by name and inode. -/
def slots (k : Nat) : Option (Path × Nat) := decode (v.entry i k)

/-- The number of entries. -/
def count : Nat := (v.inode i).size / DIRENT

/-- The entry in which directory `i` has the name. -/
def find (name : Path) : Option Nat := Slots.find (v.slots i) (v.count i) (nameOf (cstr name))

/-- The inode that directory `i` has under the name. -/
def lookup (name : Path) : Option Nat := Slots.lookup (v.slots i) (v.count i) (nameOf (cstr name))

end Disk

/-- The directory is a table of whole entries, and no two of them have one name. -/
structure Tabular (v : Disk) (i : Nat) : Prop where
  whole : (v.inode i).size % DIRENT = 0
  distinct : Slots.Distinct (v.slots i) (v.count i)

section Entries

variable {sb : Superblock} {v v' : Disk} {i k : Nat} {de : Buffer} {name : Path}

/-- The test of `dirlookup`. -/
theorem matches_iff : (deInum de ≠ 0 ∧ namecmp (cstr name) (deName de) = 0) ↔
    ∃ a, decode de = some (nameOf (cstr name), a) := by
  rw [namecmp_eq_zero]
  unfold decode
  constructor
  · rintro ⟨used, same⟩
    exact ⟨deInum de, by rw [if_neg used, same]⟩
  · rintro ⟨a, is⟩
    split at is
    · cases is
    · next used => exact ⟨used, (Prod.mk.inj (Option.some.inj is)).1.symm⟩

theorem decode_inum {a : Nat} {key : Path} (is : decode de = some (key, a)) : deInum de = a := by
  unfold decode at is
  split at is
  · cases is
  · exact (Prod.mk.inj (Option.some.inj is)).2

theorem decode_eq_none : decode de = none ↔ deInum de = 0 := by
  unfold decode
  split
  · next zero => exact iff_of_true rfl zero
  · next used => exact iff_of_false (Option.some_ne_none _) used

/-- A whole entry ends with the file. -/
theorem Disk.entry_inside (whole : (v.inode i).size % DIRENT = 0) :
    DIRENT * k < (v.inode i).size ↔ k < v.count i := by
  unfold Disk.count
  unfold DIRENT at *
  omega

theorem Disk.entry_whole (inside : k < v.count i) : DIRENT * k + DIRENT ≤ (v.inode i).size := by
  unfold Disk.count at inside
  unfold DIRENT at *
  omega

theorem Disk.lookup_of_find (found : v.find i name = some k) :
    v.lookup i name = some (deInum (v.entry i k)) := by
  obtain ⟨-, a, is⟩ := Slots.find_some found
  rw [decode_inum is]
  exact Slots.lookup_of_find found is

theorem Disk.find_eq_none : v.find i name = none ↔ v.lookup i name = none := by
  unfold Disk.find Disk.lookup
  rw [Slots.find_eq_none, Slots.lookup_eq_none]

end Entries

/-! ### `dirlookup` -/

/-- What `dirlookup` does once it knows the entry. -/
def lookupFound (v : Disk) (i : Nat) : Option Nat → F (Option (InodePtr × Nat))
  | none => pure none
  | some k => do
    let ip ← iget ROOTDEV (deInum (v.entry i k))
    pure (some (ip, DIRENT * k))

section Dirlookup

variable {sb : Superblock} {dp : InodePtr} {s : State} {v : Disk} {k m : Nat}

/-- The entry at `k` is read whole. -/
theorem readi_whole (h : Consistent sb s v) (ready : Ready s dp) (de : Buffer)
    (inside : k < v.count (s.itable dp).inum) : ∃ de',
      readi sb dp de (DIRENT * k) DIRENT s = .ok ((DIRENT : Int), de') s ∧
      ∀ j < DIRENT, de' j = v.entry (s.itable dp).inum k j := by
  have slot := h.cached.slot dp ready.live
  have size : (s.itable dp).size = (v.inode (s.itable dp).inum).size := by
    rw [← slot.synced ready.valid]
  have fits := Disk.entry_whole inside
  have bound := (h.solid _ slot.inside).size
  have all : MAXFILE * BSIZE = 274432 := by decide
  have count : min DIRENT ((s.itable dp).size - DIRENT * k) = DIRENT := by omega
  have read := readi_ok h ready de (show DIRENT * k + DIRENT < 2 ^ 32 by omega)
  rw [count] at read
  refine ⟨_, read, fun j less => ?_⟩
  rw [blit_in (Nat.zero_le j) (by omega), Nat.sub_zero, slot.synced ready.valid]
  rfl

theorem dirlookupFrom_eq (h : Consistent sb s v) (ready : Ready s dp)
    (whole : (v.inode (s.itable dp).inum).size % DIRENT = 0) (name : Path) (fuel : Nat)
    (enough : m < fuel) (rest : k + m = v.count (s.itable dp).inum) :
    dirlookupFrom sb dp name fuel (DIRENT * k) s =
      lookupFound v (s.itable dp).inum ((List.range' k m).find?
        (Slots.has (v.slots (s.itable dp).inum) (nameOf (cstr name)))) s := by
  have slot := h.cached.slot dp ready.live
  have size : (s.itable dp).size = (v.inode (s.itable dp).inum).size := by
    rw [← slot.synced ready.valid]
  induction fuel generalizing k m with
  | zero => exact absurd enough (Nat.not_lt_zero m)
  | succ fuel ih =>
    unfold dirlookupFrom
    show (if DIRENT * k < (s.itable dp).size then _ else _ : F (Option (InodePtr × Nat))) s = _
    rw [size]
    cases m with
    | zero =>
      rw [if_neg fun inside => ?_]
      · rfl
      · have := (Disk.entry_inside whole).mp inside
        omega
    | succ m =>
      have inside : k < v.count (s.itable dp).inum := by omega
      obtain ⟨de, read, same⟩ := readi_whole h ready (fun _ => 0) inside
      have entry : decode de = v.slots (s.itable dp).inum k := decode_congr same
      rw [if_pos ((Disk.entry_inside whole).mpr inside), bind_ok read, List.range'_succ,
        List.find?_cons]
      dsimp only
      rw [if_neg (not_not.mpr rfl)]
      by_cases found : deInum de ≠ 0 ∧ namecmp (cstr name) (deName de) = 0
      · have has : Slots.has (v.slots (s.itable dp).inum) (nameOf (cstr name)) k = true := by
          rw [Slots.has_iff, ← entry]
          exact matches_iff.mp found
        have number : deInum de = deInum (v.entry (s.itable dp).inum k) :=
          deInum_congr fun j less => same j (by unfold DIRENT; omega)
        rw [if_pos found, has, slot.dev, number]
        rfl
      · have misses : Slots.has (v.slots (s.itable dp).inum) (nameOf (cstr name)) k = false := by
          rw [← Bool.not_eq_true, Slots.has_iff, ← entry]
          exact fun has => found (matches_iff.mpr has)
        rw [if_neg found, misses, show DIRENT * k + DIRENT = DIRENT * (k + 1) from rfl]
        exact ih (by omega) (by omega)

/-- `dirlookup` finds the entry with the name. -/
theorem dirlookup_eq (h : Consistent sb s v) (ready : Ready s dp)
    (dir : (s.itable dp).type = T_DIR) (whole : (v.inode (s.itable dp).inum).size % DIRENT = 0)
    (name : Path) : dirlookup sb dp name s =
      lookupFound v (s.itable dp).inum (v.find (s.itable dp).inum name) s := by
  have slot := h.cached.slot dp ready.live
  have size : (s.itable dp).size = (v.inode (s.itable dp).inum).size := by
    rw [← slot.synced ready.valid]
  unfold dirlookup
  show (if (s.itable dp).type ≠ T_DIR then _ else _ : F (Option (InodePtr × Nat))) s = _
  rw [if_neg (not_not.mpr dir), size]
  have loop := dirlookupFrom_eq h ready whole name ((v.inode (s.itable dp).inum).size / DIRENT + 1)
    (m := v.count (s.itable dp).inum) (k := 0) (Nat.lt_succ_self _) (Nat.zero_add _)
  rw [Nat.mul_zero] at loop
  rw [loop, Disk.find, Slots.find, List.range_eq_range']

end Dirlookup

end Xv6Lab.Fs

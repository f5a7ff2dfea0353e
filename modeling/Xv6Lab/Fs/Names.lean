import Xv6Lab.Fs.Directories
import Xv6Lab.Lib.Slots

/-! Names in directories.  A name is at most `DIRSIZ` bytes, and ends at a zero byte if it is shorter.
`namecmp` compares names, `strncpy` stores them, and `skipelem` takes them from paths; what is
stored under an element of a path is found again under it. -/

namespace Xv6Lab.Fs

open Bytes Exec

/-! ### Names -/

/-- The bytes of `b` from `i` on, at most `n` and up to a zero. -/
def nameFrom (b : Buffer) (i n : Nat) : Path := ((List.range' i n).map b).takeWhile (· ≠ 0)

/-- The name that is stored at `b`. -/
def nameOf (b : Buffer) : Path := nameFrom b 0 DIRSIZ

theorem nameFrom_end {b : Buffer} {i : Nat} (zero : b i = 0) (n : Nat) :
    nameFrom b i (n + 1) = [] := by
  rw [nameFrom, List.range'_succ, List.map_cons, List.takeWhile_cons_of_neg]
  simpa using zero

theorem nameFrom_more {b : Buffer} {i : Nat} (some : b i ≠ 0) (n : Nat) :
    nameFrom b i (n + 1) = b i :: nameFrom b (i + 1) n := by
  rw [nameFrom, List.range'_succ, List.map_cons, List.takeWhile_cons_of_pos]
  · rfl
  · simpa using some

theorem nameFrom_congr {b b' : Buffer} {i n : Nat} (same : ∀ j, i ≤ j → j < i + n → b j = b' j) :
    nameFrom b i n = nameFrom b' i n := by
  unfold nameFrom
  congr 1
  refine List.map_congr_left fun j inside => ?_
  obtain ⟨low, high⟩ := List.mem_range'_1.mp inside
  exact same j low high

theorem toNat_sub_eq_zero {x y : UInt8} : ((x.toNat : Int) - y.toNat = 0) ↔ x = y := by
  rw [← UInt8.toNat_inj]
  omega

theorem strncmp_eq_zero (s t : Buffer) (i n : Nat) :
    strncmp s t i n = 0 ↔ nameFrom s i n = nameFrom t i n := by
  induction n generalizing i with
  | zero => exact iff_of_true rfl rfl
  | succ n ih =>
    unfold strncmp
    split
    · next both =>
      rw [nameFrom_more both.1, nameFrom_more both.2]
      split
      · next differ =>
        rw [toNat_sub_eq_zero]
        refine iff_of_false differ fun same => differ (List.cons.inj same).1
      · next same =>
        rw [ih, not_not.mp same]
        exact (List.cons_inj_right _).symm
    · next ended =>
      rw [toNat_sub_eq_zero]
      by_cases first : s i = 0
      · rw [nameFrom_end first, first]
        by_cases second : t i = 0
        · rw [nameFrom_end second, second]
          exact iff_of_true rfl rfl
        · rw [nameFrom_more second]
          exact iff_of_false (Ne.symm second) (List.cons_ne_nil _ _).symm
      · have second : t i = 0 := by
          by_contra some
          exact ended ⟨first, some⟩
        rw [nameFrom_more first, nameFrom_end second, second]
        exact iff_of_false first (List.cons_ne_nil _ _)

/-- `namecmp` tells whether the names are equal. -/
theorem namecmp_eq_zero (s t : Buffer) : namecmp s t = 0 ↔ nameOf s = nameOf t :=
  strncmp_eq_zero s t 0 DIRSIZ

/-- `strncpy` writes from its offset on. -/
theorem strncpy_before (dst : Buffer) (off : Nat) (src : Buffer) (i n : Nat) {j : Nat}
    (before : j < off + i) : strncpy dst off src i n j = dst j := by
  induction n generalizing dst i with
  | zero => rfl
  | succ n ih =>
    unfold strncpy
    split
    · rw [ih _ _ (by omega)]
      exact Function.update_of_ne (by omega) ..
    · exact blit_out (.inl before)

theorem nameFrom_strncpy (dst : Buffer) (off : Nat) (src : Buffer) (i n : Nat) :
    nameFrom (fun j => strncpy dst off src i n (off + j)) i n = nameFrom src i n := by
  induction n generalizing dst i with
  | zero => rfl
  | succ n ih =>
    unfold strncpy
    split
    · next some =>
      set copied : Buffer := fun j =>
        strncpy (Function.update dst (off + i) (src i)) off src (i + 1) n (off + j) with is
      have first : copied i = src i := by
        rw [is]
        exact (strncpy_before _ _ _ _ _ (by omega)).trans (Function.update_self ..)
      rw [nameFrom_more (first ▸ some), nameFrom_more some, first, ih]
    · next ended =>
      rw [nameFrom_end (not_not.mp ended)]
      refine nameFrom_end ?_ n
      exact blit_in (Nat.le_refl _) (by omega)

/-! ### Entries -/

/-- The name and the inode of an entry, if it has one. -/
def decode (de : Buffer) : Option (Path × Nat) :=
  if deInum de = 0 then none else some (nameOf (deName de), deInum de)

theorem decode_congr {de de' : Buffer} (same : ∀ i < DIRENT, de i = de' i) : decode de = decode de' := by
  have inum : deInum de = deInum de' := deInum_congr fun i less => same i (by unfold DIRENT; omega)
  have name : nameOf (deName de) = nameOf (deName de') :=
    nameFrom_congr fun j _ less => same (2 + j) (by unfold DIRSIZ at less; unfold DIRENT; omega)
  unfold decode
  rw [inum, name]

theorem decode_zero : decode (fun _ => 0) = none := by decide

/-- The entry that `dirlink` makes. -/
theorem decode_setDirent (de : Buffer) (name : Path) {inum : Nat} (some' : 1 ≤ inum)
    (small : inum ≤ 65535) : decode (setDirent de name inum) = some (nameOf (cstr name), inum) := by
  have number : deInum (setDirent de name inum) = inum := le_setLe _ _ (by omega)
  have stored : nameOf (deName (setDirent de name inum)) = nameOf (cstr name) := by
    refine (nameFrom_congr fun j _ _ => ?_).trans (nameFrom_strncpy de 2 (cstr name) 0 DIRSIZ)
    exact blit_out (.inr (by omega))
  unfold decode
  rw [number, if_neg (by omega), stored]

/-! ### Paths -/

/-- The first element of a path, of any length. -/
def element (path : Path) : Path := (path.dropWhile (· = SLASH)).takeWhile (· ≠ SLASH)

/-- `skipelem` takes the first element, cut to `DIRSIZ` bytes. -/
theorem skipelem_name {path name rest : Path} (next : skipelem path = some (name, rest)) :
    name = (element path).take DIRSIZ := by
  unfold skipelem at next
  dsimp only at next
  split at next
  · cases next
  · exact (Prod.mk.inj (Option.some.inj next)).1.symm

end Xv6Lab.Fs

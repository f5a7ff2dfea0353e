import Xv6Lab.Fs.Inode

/-! Directories and paths, as `fs.c` searches, extends and walks them, and `create` and `unlink`.  A
path is the list of its bytes up to the terminating zero; so is a name. -/

namespace Xv6Lab.Fs

open Bytes

abbrev Path := List UInt8

/-- The bytes of a string, as the code finds them behind a pointer. -/
def cstr (name : Path) : Buffer := fun i => name.getD i 0

def SLASH : UInt8 := 47

/-! ### `string.c` -/

/-- `strncmp` of the strings at `s` and `t` from offset `i` on. -/
def strncmp (s t : Buffer) : Nat → Nat → Int
  | _, 0 => 0
  | i, n + 1 =>
    if s i ≠ 0 ∧ t i ≠ 0 then
      if s i ≠ t i then ((s i).toNat : Int) - (t i).toNat else strncmp s t (i + 1) n
    else
      ((s i).toNat : Int) - (t i).toNat

/-- `strncpy` to offset `off` of `dst`, from offset `i` of `src` on. -/
def strncpy (dst : Buffer) (off : Nat) (src : Buffer) : Nat → Nat → Buffer
  | _, 0 => dst
  | i, n + 1 =>
    if src i ≠ 0 then
      strncpy (Function.update dst (off + i) (src i)) off src (i + 1) n
    else
      blit dst (off + i) (fun _ => 0) (n + 1)

/-! ### Directory entries -/

/-- `sizeof(struct dirent)` -/
def DIRENT : Nat := 16

/-- `de.inum` -/
def deInum (de : Buffer) : Nat := le de 0 2

/-- `de.name` -/
def deName (de : Buffer) : Buffer := fun i => de (2 + i)

/-- `strncpy(de.name, name, DIRSIZ); de.inum = inum` -/
def setDirent (de : Buffer) (name : Path) (inum : Nat) : Buffer :=
  setLe (strncpy de 2 (cstr name) 0 DIRSIZ) 0 2 inum

def namecmp (s t : Buffer) : Int := strncmp s t 0 DIRSIZ

/-! ### Paths -/

/-- `skipelem`: the next element of the path, cut to `DIRSIZ` bytes, and the path behind it. -/
def skipelem (path : Path) : Option (Path × Path) :=
  let path := path.dropWhile (· = SLASH)
  if path = [] then
    none
  else
    let name := path.takeWhile (· ≠ SLASH)
    let rest := path.dropWhile (· ≠ SLASH)
    some (name.take DIRSIZ, rest.dropWhile (· = SLASH))

/-- Every element makes the path shorter. -/
theorem skipelem_length {path name rest : Path} (next : skipelem path = some (name, rest)) :
    rest.length < path.length := by
  unfold skipelem at next
  dsimp only at next
  split at next
  · cases next
  · next some =>
    obtain ⟨-, rfl⟩ := Prod.mk.inj (Option.some.inj next)
    obtain ⟨c, tail, is⟩ := List.exists_cons_of_ne_nil some
    have first : c ≠ SLASH := by
      have head := List.head?_dropWhile_not (· = SLASH) path
      rw [is] at head
      simpa using head
    have outer := (List.dropWhile_sublist (· = SLASH)
      (l := (path.dropWhile (· = SLASH)).dropWhile (· ≠ SLASH))).length_le
    have inner : ((path.dropWhile (· = SLASH)).dropWhile (· ≠ SLASH)).length ≤ tail.length := by
      rw [is, List.dropWhile_cons_of_pos (by simpa using first)]
      exact (List.dropWhile_sublist _).length_le
    have all := (List.dropWhile_sublist (· = SLASH) (l := path)).length_le
    rw [is, List.length_cons] at all
    omega

section Code

variable (sb : Superblock)

/-- The loop of `dirlookup` from offset `off` on.  It returns the inode and `*poff`. -/
def dirlookupFrom (dp : InodePtr) (name : Path) : Nat → Nat → F (Option (InodePtr × Nat))
  | 0, _ => pure none
  | fuel + 1, off => do
    let s ← get
    if off < (s.itable dp).size then
      let (r, de) ← readi sb dp (fun _ => 0) off DIRENT
      if r ≠ DIRENT then
        panic "dirlookup read"
      else if deInum de ≠ 0 ∧ namecmp (cstr name) (deName de) = 0 then
        let ip ← iget (s.itable dp).dev (deInum de)
        pure (some (ip, off))
      else
        dirlookupFrom dp name fuel (off + DIRENT)
    else
      pure none

def dirlookup (dp : InodePtr) (name : Path) : F (Option (InodePtr × Nat)) := do
  let s ← get
  if (s.itable dp).type ≠ T_DIR then
    panic "dirlookup not DIR"
  else
    dirlookupFrom sb dp name ((s.itable dp).size / DIRENT + 1) 0

/-- The loop of `dirlink` that looks for an entry without inode, from offset `off` on.  It returns
the offset at which it stops and `de`. -/
def emptyDirent (dp : InodePtr) : Nat → Nat → Buffer → F (Nat × Buffer)
  | 0, off, de => pure (off, de)
  | fuel + 1, off, de => do
    let s ← get
    if off < (s.itable dp).size then
      let (r, de) ← readi sb dp de off DIRENT
      if r ≠ DIRENT then
        panic "dirlink read"
      else if deInum de = 0 then
        pure (off, de)
      else
        emptyDirent dp fuel (off + DIRENT) de
    else
      pure (off, de)

def dirlink (dp : InodePtr) (name : Path) (inum : Nat) : F Int := do
  match ← dirlookup sb dp name with
  | some (ip, _) =>
    iput sb ip
    pure (-1)
  | none =>
    let s ← get
    let (off, de) ← emptyDirent sb dp ((s.itable dp).size / DIRENT + 1) 0 fun _ => 0
    let r ← writei sb dp (setDirent de name inum) off DIRENT
    if r ≠ DIRENT then pure (-1) else pure 0

/-- The loop of `namex`.  With `parent`, it stops one level early, and it returns the last name. -/
def namexFrom (parent : Bool) : Nat → InodePtr → Path → Path → F (Option (InodePtr × Path))
  | 0, _, _, _ => pure none
  | fuel + 1, ip, path, name =>
    match skipelem path with
    | none =>
      if parent then do
        iput sb ip
        pure none
      else
        pure (some (ip, name))
    | some (name, path) => do
      ilock sb ip
      let s ← get
      if (s.itable ip).type ≠ T_DIR then
        iunlockput sb ip
        pure none
      else if parent ∧ path = [] then
        iunlock ip
        pure (some (ip, name))
      else
        match ← dirlookup sb ip name with
        | none =>
          iunlockput sb ip
          pure none
        | some (next, _) =>
          iunlockput sb ip
          namexFrom parent fuel next path name

def namex (parent : Bool) (path : Path) : F (Option (InodePtr × Path)) := do
  let s ← get
  let ip ←
    if path.head? = some SLASH then iget ROOTDEV ROOTINO
    else match (s.procs s.current).cwd with
      | some ip => idup ip
      | none => throw .nullPointer
  namexFrom sb parent (path.length + 1) ip path []

def namei (path : Path) : F (Option InodePtr) := do
  let r ← namex sb false path
  pure (r.map Prod.fst)

def nameiparent (path : Path) : F (Option (InodePtr × Path)) := namex sb true path

/-- `create` finds an inode under the name. -/
def createExisting (dp ip : InodePtr) (type : Int16) : F (Option InodePtr) := do
  iunlockput sb dp
  ilock sb ip
  let s ← get
  if type = T_FILE ∧ (s.itable ip).type = T_FILE then
    iunlock ip
    endOp
    pure (some ip)
  else
    iunlockput sb ip
    endOp
    pure none

/-- `create` counts the link of a new directory to its parent. -/
def linkParent (dp : InodePtr) (type : Int16) : F Unit :=
  if type = T_DIR then do
    updInode dp fun inode => { inode with nlink := inode.nlink + 1 }
    iupdate sb dp
  else
    pure ()

/-- `create` enters the new inode in the directory. -/
def createEntry (dp ip : InodePtr) (name : Path) : F (Option InodePtr) := do
  let s ← get
  let r ← dirlink sb dp name (s.itable ip).inum
  if r < 0 then
    panic "create: dirlink"
  else
    iunlockput sb dp
    iunlock ip
    endOp
    pure (some ip)

/-- `create` makes an inode. -/
def createNew (dp : InodePtr) (name : Path) (type major minor : Int16) : F (Option InodePtr) := do
  let s ← get
  match ← ialloc sb (s.itable dp).dev type with
  | none => panic "create: ialloc"
  | some ip =>
    ilock sb ip
    updInode ip fun inode => { inode with major, minor, nlink := 1 }
    iupdate sb ip
    linkParent sb dp type
    createEntry sb dp ip name

def create (path : Path) (type major minor : Int16) : F (Option InodePtr) := do
  beginOp
  match ← nameiparent sb path with
  | none =>
    endOp
    pure none
  | some (dp, name) =>
    ilock sb dp
    match ← dirlookup sb dp name with
    | some (ip, _) => createExisting sb dp ip type
    | none => createNew sb dp name type major minor

/-- `unlink`, once it has found the entry of `ip` at offset `off`. -/
def unlinkFound (dp ip : InodePtr) (off : Nat) : F Int := do
  ilock sb ip
  let s ← get
  if (s.itable ip).nlink < 1 then
    panic "unlink: nlink < 1"
  else
    updInode ip fun inode => { inode with nlink := inode.nlink - 1 }
    iupdate sb ip
    let r ← writei sb dp (fun _ => 0) off DIRENT
    if r ≠ DIRENT then
      panic "unlink: writei"
    else
      iunlockput sb ip
      iunlockput sb dp
      endOp
      pure 0

def unlink (path : Path) : F Int := do
  beginOp
  match ← nameiparent sb path with
  | none =>
    endOp
    pure (-1)
  | some (dp, name) =>
    ilock sb dp
    match ← dirlookup sb dp name with
    | none =>
      iunlockput sb dp
      endOp
      pure (-1)
    | some (ip, off) => unlinkFound sb dp ip off

end Code

end Xv6Lab.Fs

import Xv6Lab.Fs.Dir

/-! Open files, as `file.c` opens, closes, reads and writes them, and the system calls on file
descriptors.  Pipes and devices are left out: no system call makes a descriptor for one. -/

namespace Xv6Lab.Fs

open Bytes

/-- User addresses. -/
abbrev UserAddr := BitVec 64

/-- The bytes of the current process that `user_va2pa` finds. -/
abbrev UserMem := UserAddr → Option UInt8

/-- Flags of `open`. -/
abbrev Omode := BitVec 32

def O_RDONLY : Omode := 0x000
def O_WRONLY : Omode := 0x001
def O_RDWR : Omode := 0x002
def O_CREATE : Omode := 0x200

def Omode.has (omode flag : Omode) : Bool := omode &&& flag ≠ 0

/-- Assignments to fields of `*f`. -/
def updFile (f : FilePtr) (g : File → File) : F Unit := modify fun s => s.setFile f (g (s.ftable f))

/-- Assignments to fields of `*p`. -/
def updProc (p : Pid) (g : Proc → Proc) : F Unit := modify fun s => s.setProc p (g (s.procs p))

/-- An `int` argument as the `uint` that the callee takes it for. -/
def asUint (n : Int) : Nat := (n % 2 ^ 32).toNat

section Code

variable (sb : Superblock)

/-! ### Files -/

def filealloc : F (Option FilePtr) := do
  let s ← get
  match (List.finRange NFILE).find? fun f => (s.ftable f).ref = 0 with
  | some f =>
    updFile f fun file => { file with ref := 1 }
    pure (some f)
  | none => pure none

def filedup (f : FilePtr) : F FilePtr := do
  let s ← get
  if (s.ftable f).ref < 1 then
    panic "filedup"
  else
    updFile f fun file => { file with ref := file.ref + 1 }
    pure f

def fileopen (ip : InodePtr) (readable writable : Bool) : F (Option FilePtr) := do
  match ← filealloc with
  | none => pure none
  | some f =>
    let ip ← idup ip
    updFile f fun file => { file with type := .inode, ip := some ip, readable, writable, off := 0 }
    pure (some f)

def fileclose (f : FilePtr) : F Unit := do
  let s ← get
  let ff := s.ftable f
  if ff.ref < 1 then
    panic "fileclose"
  else if 1 < ff.ref then
    updFile f fun file => { file with ref := file.ref - 1 }
  else
    updFile f fun file => { file with ref := 0, type := .none }
    match ff.type, ff.ip with
    | .inode, some ip => iput sb ip
    | .inode, none => throw .nullPointer
    | .none, _ => pure ()

def filelock (f : FilePtr) : F Unit := do
  let s ← get
  match (s.ftable f).type, (s.ftable f).ip with
  | .inode, some ip => ilock sb ip
  | .inode, none => panic "ilock"
  | .none, _ => pure ()

def fileunlock (f : FilePtr) : F Unit := do
  let s ← get
  match (s.ftable f).type, (s.ftable f).ip with
  | .inode, some ip => iunlock ip
  | .inode, none => panic "iunlock"
  | .none, _ => pure ()

/-- `f->off += r` where `r > 0`. -/
def advance (f : FilePtr) (r : Int) : F Unit :=
  if 0 < r then
    updFile f fun file => { file with off := (file.off + r.toNat) % 2 ^ 32 }
  else
    pure ()

def fileread (f : FilePtr) (dst : Buffer) (n : Int) : F (Int × Buffer) := do
  let s ← get
  let file := s.ftable f
  if file.readable = false then
    pure (-1, dst)
  else
    match file.type, file.ip with
    | .inode, some ip =>
      if s.holdingsleep ip then
        let (r, dst) ← readi sb ip dst file.off (asUint n)
        advance f r
        pure (r, dst)
      else
        pure (-1, dst)
    | .inode, none => throw .nullPointer
    | .none, _ => panic "fileread"

/-- The most bytes that `filewrite` passes to one `writei`. -/
def MAXCHUNK : Nat := (MAXOPBLOCKS - 1 - 1 - 2) / 2 * BSIZE

/-- The loop of `filewrite`, with `i` of `n` bytes written.  It returns `i`. -/
def filewriteLoop (f : FilePtr) (ip : InodePtr) (src : Buffer) (n : Nat) : Nat → Nat → F Nat
  | 0, i => pure i
  | fuel + 1, i =>
    if i < n then do
      let n1 := min (n - i) MAXCHUNK
      let s ← get
      let r ← writei sb ip (fun k => src (i + k)) (s.ftable f).off n1
      advance f r
      if r = n1 then
        filewriteLoop f ip src n fuel (i + n1)
      else
        pure i
    else
      pure i

def filewrite (f : FilePtr) (src : Buffer) (n : Int) : F Int := do
  let s ← get
  let file := s.ftable f
  if file.writable = false then
    pure (-1)
  else
    match file.type, file.ip with
    | .inode, some ip =>
      if s.holdingsleep ip then
        let i ← filewriteLoop sb f ip src n.toNat n.toNat 0
        pure (if (i : Int) = n then n else -1)
      else
        pure (-1)
    | .inode, none => throw .nullPointer
    | .none, _ => panic "filewrite"

/-- `open` -/
def fsOpen (ip : InodePtr) (readable writable : Bool) : F (Option FilePtr) := do
  beginOp
  let f ← fileopen ip readable writable
  endOp
  pure f

def close (f : FilePtr) : F Unit := do
  beginOp
  fileclose sb f
  endOp

def read (f : FilePtr) (dst : Buffer) (n : Int) : F (Int × Buffer) := do
  beginOp
  filelock sb f
  let r ← fileread sb f dst n
  fileunlock f
  endOp
  pure r

def write (f : FilePtr) (src : Buffer) (n : Int) : F Int := do
  beginOp
  filelock sb f
  let r ← filewrite sb f src n
  fileunlock f
  endOp
  pure r

/-! ### User memory -/

/-- `copyin` from offset `i` on: it stops at a zero byte. -/
def copyin (user : UserMem) (src : UserAddr) (dst : Buffer) : Nat → Nat → Int × Buffer
  | _, 0 => (0, dst)
  | i, left + 1 =>
    match user (src + BitVec.ofNat 64 i) with
    | none => (-1, dst)
    | some c =>
      let dst := Function.update dst i c
      if c = 0 then (0, dst) else copyin user src dst (i + 1) left

/-- `copyout` from offset `i` on. -/
def copyout (user : UserMem) (dst : UserAddr) (src : Buffer) : Nat → Nat → Int × UserMem
  | _, 0 => (0, user)
  | i, left + 1 =>
    match user (dst + BitVec.ofNat 64 i) with
    | none => (-1, user)
    | some _ =>
      copyout (Function.update user (dst + BitVec.ofNat 64 i) (some (src i))) dst src (i + 1) left

theorem copyin_one (user : UserMem) (addr : UserAddr) (buf : Buffer) : copyin user addr buf 0 1 =
    match user addr with
    | none => (-1, buf)
    | some c => (0, Function.update buf 0 c) := by
  rw [copyin, show addr + BitVec.ofNat 64 0 = addr from BitVec.add_zero addr]
  cases user addr with
  | none => rfl
  | some c => exact ite_self _

theorem copyout_one (user : UserMem) (addr : UserAddr) (src : Buffer) : copyout user addr src 0 1 =
    match user addr with
    | none => (-1, user)
    | some _ => (0, Function.update user addr (some (src 0))) := by
  rw [copyout, show addr + BitVec.ofNat 64 0 = addr from BitVec.add_zero addr]
  cases user addr <;> rfl

/-! ### System calls -/

def fdalloc (f : FilePtr) : F Int := do
  let s ← get
  match (List.finRange NOFILE).find? fun fd =>
      3 ≤ fd.val ∧ (s.procs s.current).ofile fd = none with
  | some fd =>
    updProc s.current fun proc => { proc with ofile := Function.update proc.ofile fd (some f) }
    pure fd.val
  | none => pure (-1)

/-- `fd` as an index of `ofile`. -/
def fdIndex (fd : Int) : Option (Fin NOFILE) :=
  if inside : 0 ≤ fd ∧ fd < NOFILE then some ⟨fd.toNat, by omega⟩ else none

def fdget (fd : Int) : F (Option (Fin NOFILE × FilePtr)) := do
  let s ← get
  match fdIndex fd with
  | none => pure none
  | some fd => pure (((s.procs s.current).ofile fd).map fun f => (fd, f))

/-- The first half of `ker_open`: the inode that the path names, or that `create` makes. -/
def openInode (path : Path) (omode : Omode) : F (Option InodePtr) :=
  if omode.has O_CREATE then
    create sb path T_FILE 0 0
  else do
    match ← namei sb path with
    | none => pure none
    | some ip =>
      ilock sb ip
      let s ← get
      if (s.itable ip).type = T_DIR ∧ omode ≠ O_RDONLY then
        iunlockput sb ip
        pure none
      else
        pure (some ip)

/-- The second half of `ker_open`. -/
def openFile (ip : InodePtr) (omode : Omode) : F Int := do
  let f ← fsOpen ip (!omode.has O_WRONLY) (omode.has O_WRONLY || omode.has O_RDWR)
  match f with
  | none =>
    iunlock ip
    iput sb ip
    pure (-1)
  | some f =>
    let fd ← fdalloc f
    if fd < 0 then
      close sb f
      pure (-1)
    else
      if omode.has O_CREATE then pure () else iunlock ip
      pure fd

def kerOpen (path : Path) (omode : Omode) : F Int := do
  match ← openInode sb path omode with
  | none => pure (-1)
  | some ip => openFile sb ip omode

def kerClose (fd : Int) : F Int := do
  match ← fdget fd with
  | none => pure (-1)
  | some (fd, f) =>
    let s ← get
    updProc s.current fun proc => { proc with ofile := Function.update proc.ofile fd none }
    close sb f
    pure 0

/-- `sizeof(kbuf)` -/
def KBUF : Nat := 256

/-- The loop of `ker_read`, with `total` bytes read. -/
def kerReadLoop (f : FilePtr) (addr : UserAddr) (n : Nat) :
    Nat → Nat → Buffer → UserMem → F (Int × UserMem)
  | 0, total, _, user => pure (total, user)
  | fuel + 1, total, kbuf, user =>
    if total < n then do
      let toRead := min (n - total) KBUF
      let (r, kbuf) ← read sb f kbuf toRead
      if r ≤ 0 then
        pure (total, user)
      else
        let (failed, user) := copyout user (addr + BitVec.ofNat 64 total) kbuf 0 r.toNat
        if failed < 0 then
          pure (-1, user)
        else if r < toRead then
          pure (total + r, user)
        else
          kerReadLoop f addr n fuel (total + toRead) kbuf user
    else
      pure (total, user)

/-- `ker_read`; `kbuf` is what its frame holds on entry. -/
def kerRead (fd : Int) (addr : UserAddr) (n : Int) (kbuf : Buffer) (user : UserMem) :
    F (Int × UserMem) := do
  match ← fdget fd with
  | none => pure (-1, user)
  | some (_, f) => kerReadLoop sb f addr n.toNat n.toNat 0 kbuf user

/-- The loop of `ker_write`, with `total` bytes written. -/
def kerWriteLoop (f : FilePtr) (addr : UserAddr) (n : Nat) (user : UserMem) :
    Nat → Nat → Buffer → F Int
  | 0, total, _ => pure total
  | fuel + 1, total, kbuf =>
    if total < n then do
      let toWrite := min (n - total) KBUF
      let (failed, kbuf) := copyin user (addr + BitVec.ofNat 64 total) kbuf 0 toWrite
      if failed < 0 then
        pure (-1)
      else
        let r ← write sb f kbuf toWrite
        if r ≤ 0 then
          pure total
        else if r < toWrite then
          pure (total + r)
        else
          kerWriteLoop f addr n user fuel (total + toWrite) kbuf
    else
      pure total

/-- `ker_write`; `kbuf` is what its frame holds on entry. -/
def kerWrite (fd : Int) (addr : UserAddr) (n : Int) (kbuf : Buffer) (user : UserMem) : F Int := do
  match ← fdget fd with
  | none => pure (-1)
  | some (_, f) => kerWriteLoop sb f addr n.toNat user n.toNat 0 kbuf

def kerUnlink (path : Path) : F Int := unlink sb path

end Code

end Xv6Lab.Fs

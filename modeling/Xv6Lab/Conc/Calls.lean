import Xv6Lab.Conc.Commands

/-! The functions of `sleeplock.c`, `bio.c`, `virtio_disk.c`, `log.c`, `fs.c` and `file.c` as
programs of synchronisation commands.  A test on data that the shared state leaves out is an
arbitrary reply, and a loop over such data runs any number of times. -/

namespace Xv6Lab.Conc

open Prog

def run (c : Cmd) : Code c.Reply := call c

def panic {α : Type} (msg : String) : Code α := .cmd (.panic msg) fun r => nomatch r

def panicIf (b : Bool) (msg : String) : Code Unit := if b then panic msg else pure ()

/-- A branch without `else` on a condition that the shared state does not show. -/
def may (x : Code Unit) : Code Unit := do if ← run .anyBool then x else pure ()

/-- A loop that runs for as long as data outside the shared state says. -/
def loop (body : Code Unit) : Code Unit := do times (← run .anyNat) body

/-! ### `sleeplock.c` -/

def acquiresleep (l : Lock) : Code Unit := do
  run (.acquire (.inner l))
  panicIf (← run (.holding l)) "acquiresleep: recursive lock"
  run (.await (.sleeplock l))
  run (.release (.inner l))

def releasesleep (l : Lock) : Code Unit := do
  run (.acquire (.inner l))
  panicIf (!(← run (.locked l))) "releasesleep: lock not held"
  panicIf (!(← run (.holding l))) "releasesleep: not lock owner"
  run (.unlock l)
  run (.release (.inner l))

def holdingsleep (l : Lock) : Code Bool := do
  run (.acquire (.inner l))
  let r ← run (.holding l)
  run (.release (.inner l))
  return r

/-! ### `virtio_disk.c` and `bio.c` -/

def virtioDiskRw (b : Nat) : Code Unit := do
  run (.acquire .disk)
  run (.await .descriptors)
  run (.submit b)
  run (.await (.disk b))
  run .freeChain
  run (.release .disk)

/-- A buffer that caches the block, or the one that is recycled for it. -/
def bget : Code Nat := do
  run (.acquire .bcache)
  panicIf (← run .anyBool) "bget: no buffers"
  let b ← run .anyNat
  run (.release .bcache)
  acquiresleep (.buf b)
  return b

def bread : Code Nat := do
  let b ← bget
  may (virtioDiskRw b)
  return b

def bwrite (b : Nat) : Code Unit := do
  panicIf (!(← holdingsleep (.buf b))) "bwrite without lock"
  virtioDiskRw b

def brelse (b : Nat) : Code Unit := do
  panicIf (!(← holdingsleep (.buf b))) "brelse without lock"
  releasesleep (.buf b)
  run (.acquire .bcache)
  run (.release .bcache)

def bpin : Code Unit := do
  run (.acquire .bcache)
  run (.release .bcache)

def bunpin : Code Unit := do
  run (.acquire .bcache)
  run (.release .bcache)

/-! ### `log.c` -/

def beginOp : Code Unit := do
  run (.acquire .log)
  run (.await .logSpace)
  run (.release .log)

def writeLogBody : Code Unit := do
  let lbuf ← bread
  let dbuf ← bread
  bwrite lbuf
  brelse dbuf
  brelse lbuf

def writeHead : Code Unit := do
  let b ← bread
  bwrite b
  brelse b

def installTransBody : Code Unit := do
  let lbuf ← bread
  let dbuf ← bread
  bwrite dbuf
  bunpin
  brelse lbuf
  brelse dbuf

def commit : Code Unit := do
  let n ← run .logN
  if 0 < n then
    times n writeLogBody
    writeHead
    times n installTransBody
    run .clearLog
    writeHead
  else pure ()

def endOp : Code Unit := do
  run (.acquire .log)
  let outstanding ← run .leaveOp
  panicIf (← run .committing) "log.committing"
  if outstanding = 0 then
    run (.setCommitting true)
    run (.release .log)
    commit
    run (.acquire .log)
    run (.setCommitting false)
    run (.release .log)
  else run (.release .log)

/-- `log_write` of a buffer for any block. -/
def logWrite : Code Unit := do
  run (.acquire .log)
  panicIf (LOGBLOCKS ≤ (← run .logN)) "too big a transaction"
  panicIf ((← run .outstanding) < 1) "log_write outside of trans"
  if ← run (.logBlock (← run .anyNat)) then bpin else pure ()
  run (.release .log)

/-! ### `fs.c`: blocks -/

/-- `bread`, a change and `log_write`, `brelse`. -/
def modify : Code Unit := do
  let b ← bread
  logWrite
  brelse b

/-- `bread`, `brelse`. -/
def inspect : Code Unit := do
  let b ← bread
  brelse b

def bzero : Code Unit := modify

/-- The bitmap blocks without a clear bit, then the one with; is there one? -/
def balloc : Code Bool := do
  loop inspect
  if ← run .anyBool then
    modify
    bzero
    return true
  else return false

def bfree : Code Unit := do
  let b ← bread
  panicIf (← run .anyBool) "freeing free block"
  logWrite
  brelse b

def iupdate : Code Unit := modify

/-- A slot of `addrs` or of the indirect block, allocated if it is 0. -/
def slot (store : Code Unit) : Code Bool := do
  if ← run .anyBool then
    if ← balloc then
      store
      return true
    else return false
  else return true

/-- `bmap`; is the address not 0? -/
def bmap : Code Bool := do
  if ← run .anyBool then slot (pure ())
  else
    panicIf (← run .anyBool) "bmap: out of range"
    if ← slot (pure ()) then
      let b ← bread
      let ok ← slot logWrite
      brelse b
      return ok
    else return false

def itrunc : Code Unit := do
  loop bfree
  may do
    let b ← bread
    loop bfree
    brelse b
    bfree
  iupdate

def readiLoop : Nat → Code Unit
  | 0 => pure ()
  | n + 1 => do
    if ← bmap then
      inspect
      readiLoop n
    else pure ()

def readi : Code Unit := do readiLoop (← run .anyNat)

def writeiLoop : Nat → Code Unit
  | 0 => pure ()
  | n + 1 => do
    if ← bmap then
      let b ← bread
      if ← run .anyBool then brelse b
      else
        logWrite
        brelse b
        writeiLoop n
    else pure ()

def writei : Code Unit := may do
  writeiLoop (← run .anyNat)
  iupdate

/-! ### `fs.c`: inodes -/

def iget (i : Nat) : Code Unit := do
  run (.acquire .itable)
  panicIf (← run .anyBool) "iget: no inodes"
  run (.incRef i)
  run (.release .itable)

def idup (i : Nat) : Code Unit := do
  run (.acquire .itable)
  run (.incRef i)
  run (.release .itable)

def ialloc (k : Kind) : Code (Option Nat) := do
  loop inspect
  if ← run .anyBool then
    let b ← bread
    beginOp
    let i ← run (.markInode k)
    logWrite
    brelse b
    endOp
    iget i
    return some i
  else return none

def ilock (i : Nat) : Code Unit := do
  panicIf ((← run (.getRef i)) < 1) "ilock"
  acquiresleep (.inode i)
  may do
    inspect
    panicIf (← run .anyBool) "ilock: no type"

def iunlock (i : Nat) : Code Unit := do
  panicIf (!(← holdingsleep (.inode i))) "iunlock"
  panicIf ((← run (.getRef i)) < 1) "iunlock"
  releasesleep (.inode i)

/-- The branch of `iput` that drops the last reference to an unlinked inode. -/
def ifree (i : Nat) : Code Unit := do
  acquiresleep (.inode i)
  run (.release .itable)
  itrunc
  run (.clearInode i)
  iupdate
  releasesleep (.inode i)
  run (.acquire .itable)

def iput (i : Nat) : Code Unit := do
  run (.acquire .itable)
  let n ← run (.getRef i)
  if n = 1 ∧ (← run .anyBool) = true then ifree i else pure ()
  run (.decRef i)
  run (.release .itable)

def iunlockput (i : Nat) : Code Unit := do
  iunlock i
  iput i

/-! ### `fs.c`: directories -/

def dirlookup (d : Nat) : Code (Option Nat) := do
  panicIf ((← run (.getKind d)) ≠ .dir) "dirlookup not DIR"
  loop do
    readi
    panicIf (← run .anyBool) "dirlookup read"
  match ← run (.entry d) with
  | some i =>
    iget i
    return some i
  | none => return none

/-- `dirlink`; is the result not -1? -/
def dirlink (d i : Nat) : Code Bool := do
  match ← dirlookup d with
  | some old =>
    iput old
    return false
  | none =>
    loop do
      readi
      panicIf (← run .anyBool) "dirlink read"
    writei
    if ← run .anyBool then
      run (.link d i)
      return true
    else return false

/-- The loop of `namex` from inode `i` on, with this many path elements to go. -/
def namexLoop (nameiparent : Bool) : Nat → Nat → Code (Option Nat)
  | 0, i =>
    if nameiparent then do
      iput i
      return none
    else return some i
  | n + 1, i => do
    ilock i
    if (← run (.getKind i)) ≠ .dir then
      iunlockput i
      return none
    else if nameiparent ∧ n = 0 then
      iunlock i
      return some i
    else
      match ← dirlookup i with
      | none =>
        iunlockput i
        return none
      | some next =>
        iunlockput i
        namexLoop nameiparent n next

def ROOTINO : Nat := 1

def namex (nameiparent : Bool) : Code (Option Nat) := do
  let elems ← run .anyNat
  if ← run .anyBool then
    iget ROOTINO
    namexLoop nameiparent elems ROOTINO
  else
    let i ← run .cwd
    idup i
    namexLoop nameiparent elems i

/-- `create` below a parent directory without the name. -/
def createNew (k : Kind) (d : Nat) : Code (Option Nat) := do
  match ← ialloc k with
  | none => panic "create: ialloc"
  | some i =>
    ilock i
    iupdate
    if k = .dir then iupdate else pure ()
    panicIf (!(← dirlink d i)) "create: dirlink"
    iunlockput d
    iunlock i
    endOp
    return some i

def create (k : Kind) : Code (Option Nat) := do
  beginOp
  match ← namex true with
  | none =>
    endOp
    return none
  | some d =>
    ilock d
    match ← dirlookup d with
    | some i =>
      iunlockput d
      ilock i
      if k = .file ∧ (← run (.getKind i)) = .file then
        iunlock i
        endOp
        return some i
      else
        iunlockput i
        endOp
        return none
    | none => createNew k d

def unlink : Code Unit := do
  beginOp
  match ← namex true with
  | none => endOp
  | some d =>
    ilock d
    match ← dirlookup d with
    | none =>
      iunlockput d
      endOp
    | some i =>
      ilock i
      panicIf (← run .anyBool) "unlink: nlink < 1"
      iupdate
      writei
      panicIf (← run .anyBool) "unlink: writei"
      run (.clearEntry d i)
      iunlockput i
      iunlockput d
      endOp

/-! ### `file.c`, for files of type `FD_INODE`; a file is named by its inode -/

def filealloc : Code Bool := do
  run (.acquire .ftable)
  let found ← run .anyBool
  run (.release .ftable)
  return found

def fileopen (i : Nat) : Code Bool := do
  if ← filealloc then
    idup i
    return true
  else return false

def fileclose (i : Nat) : Code Unit := do
  run (.acquire .ftable)
  panicIf (← run .anyBool) "fileclose"
  if ← run .anyBool then run (.release .ftable)
  else
    run (.release .ftable)
    iput i

def fileread (i : Nat) : Code Unit := may do
  if ← holdingsleep (.inode i) then readi else pure ()

def filewrite (i : Nat) : Code Unit := may do
  if ← holdingsleep (.inode i) then loop writei else pure ()

/-- `open`. -/
def openInode (i : Nat) : Code Bool := do
  beginOp
  let f ← fileopen i
  endOp
  return f

def close (i : Nat) : Code Unit := do
  beginOp
  fileclose i
  endOp

def read (i : Nat) : Code Unit := do
  beginOp
  ilock i
  fileread i
  iunlock i
  endOp

def write (i : Nat) : Code Unit := do
  beginOp
  ilock i
  filewrite i
  iunlock i
  endOp

/-- The inode that `ker_open` opens: with `O_CREATE` it comes back unlocked, else locked. -/
def kerOpenInode (creating rdonly : Bool) : Code (Option Nat) :=
  if creating then create .file
  else do
    match ← namex false with
    | none => return none
    | some i =>
      ilock i
      if (← run (.getKind i)) = .dir ∧ rdonly = false then
        iunlockput i
        return none
      else return some i

def kerOpen (creating rdonly : Bool) : Code Unit := do
  match ← kerOpenInode creating rdonly with
  | none => pure ()
  | some i =>
    if ← openInode i then
      if ← run (.fdalloc i) then
        if creating then pure () else iunlock i
      else close i
    else
      if (← run (.getRef i)) = 1 then iunlockput i
      else
        iunlock i
        iput i

def kerClose : Code Unit := do
  match ← run .fdget with
  | none => pure ()
  | some i =>
    run (.fdclear i)
    close i

def kerRead : Code Unit := do
  match ← run .fdget with
  | none => pure ()
  | some i => loop (read i)

def kerWrite : Code Unit := do
  match ← run .fdget with
  | none => pure ()
  | some i => loop (write i)

/-- `free_proc`'s loop over the descriptors of the process that is reaped. -/
def closeAll : List Nat → Code Unit
  | [] => pure ()
  | i :: rest => do
    close i
    closeAll rest

/-- What a process may ask of the file system: the system calls, and the functions that kernel
threads call themselves on references they have. -/
inductive Call
  | kerOpen (creating rdonly : Bool)
  | kerClose
  | kerRead
  | kerWrite
  | kerUnlink
  | create (k : Kind)
  | openInode (i : Nat)
  | close (i : Nat)
  | read (i : Nat)
  | write (i : Nat)
  | iput (i : Nat)
  deriving DecidableEq, Repr

def Call.code : Call → Code Unit
  | kerOpen creating rdonly => Conc.kerOpen creating rdonly
  | kerClose => Conc.kerClose
  | kerRead => Conc.kerRead
  | kerWrite => Conc.kerWrite
  | kerUnlink => unlink
  | create k => do let _ ← Conc.create k; pure ()
  | openInode i => do let _ ← Conc.openInode i; pure ()
  | close i => Conc.close i
  | read i => Conc.read i
  | write i => Conc.write i
  | iput i => Conc.iput i

/-- The references that a call is given. -/
def Call.needs : Call → List Nat
  | openInode i | close i | read i | write i | iput i => [i]
  | _ => []

end Xv6Lab.Conc

import Xv6Lab.Vm.Memory

/-! The page tables of `vm.c`. -/

namespace Xv6Lab.Vm

open Rv64 Sv39
open Trap (PGSIZE TRAMPOLINE TRAPFRAME)

/-! ### Walks -/

/-- `sv39_sign_extend` -/
def sv39SignExtend (va : Word) : Word :=
  if va &&& ((1 : Word) <<< 38) ≠ 0 then va ||| ~~~(((1 : Word) <<< 39) - 1)
  else va &&& (((1 : Word) <<< 39) - 1)

/-- `sv39_check_valid` -/
def sv39CheckValid (va : Word) : Bool :=
  va < ((1 : Word) <<< 39) || ((-1 : Word) <<< 39) ≤ va

/-- A pointer to an entry: its table and its index there. -/
structure PteRef where
  table : Word
  idx : Index

def PteRef.read (mem : Mem) (pte : PteRef) : Word := entry mem pte.table pte.idx

def PteRef.write (pte : PteRef) (e : Word) : K Unit := storeWord pte.table (slot pte.idx) e

/-- One level of `walk_lookup`. -/
def descend (mem : Mem) (pt : Word) (i : Index) : Option Word :=
  let pte := entry mem pt i
  if pte &&& V ≠ 0 then
    let pa := pte2pa pte
    if pa = 0 ∨ pa.toNat % 4096 ≠ 0 then none else some pa
  else
    none

/-- `walk_lookup`; `none` is the null pointer. -/
def walkLookup (mem : Mem) (pt va : Word) : Option PteRef :=
  let va := sv39SignExtend va
  if sv39CheckValid va then do
    let pt ← descend mem pt (index 2 va)
    let pt ← descend mem pt (index 1 va)
    pure ⟨pt, index 0 va⟩
  else
    none

/-- One level of `walk_create`; `none` where the function returns null. -/
def descendCreate (pt : Word) (i : Index) : K (Option Word) := do
  let s ← get
  let pte := entry s.mem pt i
  if pte &&& V ≠ 0 then
    pure (some (pte2pa pte))
  else
    let newPt ← allocPage
    if newPt = 0 then
      pure none
    else
      clearPage newPt
      storeWord pt (slot i) (pa2pte newPt ||| V)
      pure (some newPt)

/-- `walk_create`; `none` is the null pointer. -/
def walkCreate (pt va : Word) : K (Option PteRef) := do
  let va := sv39SignExtend va
  if sv39CheckValid va then
    match ← descendCreate pt (index 2 va) with
    | none => pure none
    | some pt =>
      match ← descendCreate pt (index 1 va) with
      | none => pure none
      | some pt => pure (some ⟨pt, index 0 va⟩)
  else
    panic "va out of sv39 range"

/-! ### Mappings -/

/-- `create_pagetable` -/
def createPagetable : K Word := do
  let pt ← allocPage
  if pt = 0 then
    pure 0
  else
    clearPage pt
    pure pt

/-- `exit_proc`.  The wakeup of the parent has nobody to wake: no process sleeps on a process. -/
def exitProc {α : Type} (status : Int) : K α := do
  let s ← get
  match s.current with
  | none => panic "exit_proc: no current process"
  | some p =>
    let proc := s.procs p
    set (s.setProc p { proc with exitStatus := status })
    if proc.parent = none then
      throw .shutdown
    else
      set { s.setProc p { proc with exitStatus := status, state := .zombie } with current := none }
      throw .exited

/-- The user's and the kernel's half of the address space meet here. -/
def USER_LIMIT : Word := 0x80000000

/-- The current process is a user process. -/
def Kernel.userCurrent (s : Kernel) : Bool :=
  match s.current with
  | none => false
  | some p => (s.procs p).isUser

/-- `map_page` -/
def mapPage (pt va pa perm : Word) : K Int := do
  let s ← get
  if s.userCurrent ∧ USER_LIMIT ≤ va ∧ va ≠ TRAMPOLINE ∧ va ≠ TRAPFRAME then
    exitProc (-1)
  if va.toNat % 4096 ≠ 0 then
    panic "map_page: va not aligned"
  match ← walkCreate pt va with
  | none => pure (-1)
  | some pte =>
    let perm := if USER_LIMIT ≤ va then perm &&& ~~~U else perm
    let s ← get
    let old := pte.read s.mem
    if old &&& V ≠ 0 then
      if pte2pa old = pa then
        let newPerm := (flags old ||| perm) &&& 0x3ff
        let newPerm := if USER_LIMIT ≤ va then newPerm &&& ~~~U else newPerm
        pte.write (pa2pte pa ||| newPerm ||| V)
        pure 0
      else
        panic "map_page: remap to different physical address"
    else
      pte.write (pa2pte pa ||| perm ||| V)
      pure 0

/-- All indices of a table, in the order of the loops over it. -/
def indices : List Index := (List.range 512).map (BitVec.ofNat 9)

attribute [irreducible] indices

/-- `free_pagetable`, to a bounded depth of recursion. -/
def freePagetable : Nat → Word → K Unit
  | 0, _ => throw .stackOverflow
  | depth + 1, pt => do
    indices.forM fun i => do
      let s ← get
      let pte := entry s.mem pt i
      if pte &&& V ≠ 0 ∧ pte &&& (R ||| W ||| X) = 0 then
        freePagetable depth (pte2pa pte)
        storeWord pt (slot i) 0
      else if pte &&& V ≠ 0 ∧ pte &&& (R ||| W ||| X) ≠ 0 then
        storeWord pt (slot i) 0
      else
        pure ()
    freePage pt

/-- The addresses that the loop of `uvmcopy` visits for a size. -/
def pagesBelow (sz : Word) : List Word :=
  (List.range ((sz.toNat + 4095) / 4096)).map fun k => BitVec.ofNat 64 (4096 * k)

/-- `uvmcopy` over a list of page addresses. -/
def uvmcopyPages (old new : Word) : List Word → K Int
  | [] => pure 0
  | i :: rest => do
    let s ← get
    match walkLookup s.mem old i with
    | none => uvmcopyPages old new rest
    | some pte =>
      let e := pte.read s.mem
      if e &&& V = 0 then
        uvmcopyPages old new rest
      else
        let fl := if i < USER_LIMIT then flags e ||| U else flags e &&& ~~~U
        let mem ← allocPage
        if mem = 0 then
          pure (-1)
        else
          copyPage mem (pte2pa e)
          let r ← mapPage new i mem fl
          if r ≠ 0 then
            freePage mem
            pure (-1)
          else
            uvmcopyPages old new rest

/-- `uvmcopy` -/
def uvmcopy (old new sz : Word) : K Int := uvmcopyPages old new (pagesBelow sz)

/-! ### Page faults -/

/-- The kinds of access that fault: `type` 1, 2 and 3 of `handle_page_fault`. -/
inductive Access
  | fetch | load | store
  deriving DecidableEq, Repr

/-- The permissions an access needs. -/
def Access.perm : Access → Word
  | .fetch => X ||| R
  | .load => R
  | .store => R ||| W

/-- The table that `handle_page_fault` works on, and whether it is a user's. -/
def Kernel.faultTable (s : Kernel) : Word × Bool :=
  match s.current with
  | none => (s.kernelPagetable, false)
  | some p =>
    if (s.procs p).pagetable ≠ 0 ∧ (s.procs p).isUser then ((s.procs p).pagetable, true)
    else (s.kernelPagetable, false)

/-- `handle_page_fault` for a page that is mapped: the missing permissions are added.  `user` says
that the page needs `PTE_U`. -/
def raisePerm (pte : PteRef) (type : Access) (user : Bool) : K Int := do
  let s ← get
  let e := pte.read s.mem
  let current := e &&& (R ||| W ||| X)
  if current &&& type.perm ≠ type.perm then
    let e := e ||| type.perm
    pte.write (if user then e ||| U else e)
    pure 1
  else
    panic "Unexpected page fault on valid mapping"

/-- `handle_page_fault` for a page that is not mapped: a page of zeros is allocated. -/
def demandPage (pt pageVa : Word) (type : Access) (user : Bool) : K Int := do
  let page ← allocPage
  if page = 0 then
    panic "Out of memory during page fault"
  else
    clearPage page
    let r ← mapPage pt pageVa page (if user then type.perm ||| U else type.perm)
    if r ≠ 0 then
      freePage page
      panic "Failed to map page during page fault"
    else
      pure 1

/-- The first address of the page of `va`. -/
def pageStart (va : Word) : Word := BitVec.ofNat 64 (va.toNat / 4096 * 4096)

/-- `handle_page_fault` -/
def handlePageFault (va : Word) (type : Access) : K Int := do
  let s ← get
  let pageVa := pageStart va
  let (pt, isUser) := s.faultTable
  if va = 0 then
    panic "Null pointer dereference"
  else if va < PGSIZE then
    panic "Low address access (likely null pointer offset)"
  else if MAXVA ≤ pageVa then
    panic "Virtual address out of range"
  else if isUser ∧ USER_LIMIT ≤ va ∧ va ≠ TRAMPOLINE ∧ va ≠ TRAPFRAME then
    panic "User process accessing kernel space"
  else
    match (walkLookup s.mem pt pageVa).filter fun pte => pte.read s.mem &&& V ≠ 0 with
    | some pte => raisePerm pte type (isUser && pageVa < USER_LIMIT)
    | none =>
      if (0xffffff0000000000 : Word) ≤ va then
        panic "Abnormally high address access"
      else
        demandPage pt pageVa type (isUser && pageVa < USER_LIMIT)

/-- `user_va2pa`; `0` is the null pointer. -/
def userVa2pa (mem : Mem) (pt va : Word) : Word :=
  match walkLookup mem pt va with
  | none => 0
  | some pte =>
    let e := pte.read mem
    if e &&& V = 0 then 0
    else if e &&& U = 0 then 0
    else pte2pa e ||| (va &&& 0xfff)

end Xv6Lab.Vm

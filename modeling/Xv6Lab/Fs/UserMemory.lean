import Xv6Lab.Vm.UserAccess
import Xv6Lab.Fs.File

/-! The user memory of the file system calls, as the page table of a process gives it: `copyin` and
`copyout` on a `UserMem` are what the kernel does through `user_va2pa`. -/

namespace Xv6Lab.Fs

open Bytes Rv64 Exec
open Vm (Kernel Canonical userVa2pa)

/-! ### The bytes of a process -/

/-- The bytes that `user_va2pa` finds. -/
def userBytes (mem : Mem) (pt : Word) : UserMem := fun va =>
  if userVa2pa mem pt va = 0 then none
  else some (UInt8.ofBitVec (Vm.loadByte mem (userVa2pa mem pt va)))

/-- No byte of memory has two addresses that the hardware accepts. -/
def Faithful (mem : Mem) (pt : Word) : Prop :=
  ∀ va va', Canonical va → Canonical va' → userVa2pa mem pt va ≠ 0 →
    userVa2pa mem pt va = userVa2pa mem pt va' → va = va'

/-- `user` is what the page table gives at the addresses that the hardware accepts. -/
def Views (mem : Mem) (pt : Word) (user : UserMem) : Prop :=
  ∀ va, Canonical va → userBytes mem pt va = user va

section Copies

variable {s : Kernel} {pt va : Word} {user : UserMem}

/-- The user memory after the byte of an address is stored. -/
theorem Views.store (views : Views s.mem pt user) (separate : Vm.Separate s.mem pt)
    (faithful : Faithful s.mem pt) (canonical : Canonical va)
    (found : userVa2pa s.mem pt va ≠ 0) (b : UInt8) :
    Views (Vm.putAt s.mem (userVa2pa s.mem pt va) b.toBitVec) pt
      (Function.update user va (some b)) := by
  intro va' canonical'
  have kept := (separate.putAt found b.toBitVec).userVa2pa va'
  rw [Vm.setMem_mem] at kept
  unfold userBytes
  rw [kept, Vm.loadByte_putAt]
  by_cases this : va' = va
  · rw [this, Function.update_self, if_neg found, if_pos rfl]
  · rw [Function.update_of_ne this, ← views va' canonical', userBytes]
    by_cases missing : userVa2pa s.mem pt va' = 0
    · rw [if_pos missing, if_pos missing]
    · have other : userVa2pa s.mem pt va' ≠ userVa2pa s.mem pt va := fun same =>
        this (faithful va' va canonical' canonical missing same)
      rw [if_neg missing, if_neg missing, if_neg other]

theorem Faithful.kept {t : Kernel} (faithful : Faithful s.mem pt) (kept : Vm.TableKept pt s t) :
    Faithful t.mem pt := by
  intro va va' canonical canonical' found same
  rw [kept.userVa2pa] at found
  rw [kept.userVa2pa, kept.userVa2pa] at same
  exact faithful va va' canonical canonical' found same

/-- `copyin` reads the bytes that the page table gives. -/
theorem copyin_userBytes (mem : Mem) (pt : Word) (src : UserAddr) (dst : Buffer) (left i : Nat) :
    copyin (userBytes mem pt) src dst i left =
      ((Vm.copyinFrom mem pt src left i fun j => (dst j).toBitVec).1, fun j =>
        UInt8.ofBitVec ((Vm.copyinFrom mem pt src left i fun j => (dst j).toBitVec).2 j)) := by
  induction left generalizing i dst with
  | zero => rfl
  | succ left ih =>
    rw [copyin, Vm.copyinFrom, userBytes]
    dsimp only
    by_cases missing : userVa2pa mem pt (src + BitVec.ofNat 64 i) = 0
    · rw [if_pos missing, if_pos missing]
    · rw [if_neg missing, if_neg missing]
      dsimp only
      generalize Vm.loadByte mem (userVa2pa mem pt (src + BitVec.ofNat 64 i)) = c
      have stored : (Function.update (fun j => (dst j).toBitVec) i c : Nat → BitVec 8) = fun j =>
          (Function.update dst i (UInt8.ofBitVec c) j).toBitVec := by
        funext j
        by_cases this : j = i
        · rw [this, Function.update_self, Function.update_self]
        · rw [Function.update_of_ne this, Function.update_of_ne this]
      have zero : UInt8.ofBitVec c = 0 ↔ c = 0 :=
        ⟨congrArg UInt8.toBitVec, congrArg UInt8.ofBitVec⟩
      rw [Function.update_self, stored]
      by_cases ends : c = 0
      · rw [if_pos ends, if_pos (zero.mpr ends)]
      · rw [if_neg ends, if_neg fun same => ends (zero.mp same), ih]

/-- `copyout` from byte `i` on stores the bytes that it stores in the user memory. -/
theorem copyoutFrom_userBytes (views : Views s.mem pt user) (separate : Vm.Separate s.mem pt)
    (faithful : Faithful s.mem pt) (dst : UserAddr) (src : Buffer) (left i : Nat)
    (canonical : ∀ j < i + left, Canonical (dst + BitVec.ofNat 64 j)) :
    wp (Vm.copyoutFrom pt dst (fun j => (src j).toBitVec) left i)
      (fun (r, _) t => r = (copyout user dst src i left).1 ∧
        Views t.mem pt (copyout user dst src i left).2) (fun _ _ => False) s := by
  induction left generalizing i s user with
  | zero => exact ⟨rfl, views⟩
  | succ left ih =>
    have here := views _ (canonical i (by omega))
    unfold Vm.copyoutFrom
    rw [wp_bind, wp_get]
    dsimp only
    rw [copyout, ← here, userBytes]
    by_cases missing : userVa2pa s.mem pt (dst + BitVec.ofNat 64 i) = 0
    · rw [if_pos missing, if_pos missing]
      exact ⟨rfl, views⟩
    · rw [if_neg missing, if_neg missing, wp_bind]
      have kept := separate.putAt missing (src i).toBitVec
      have next := views.store separate faithful (canonical i (by omega)) missing (src i)
      rw [← Vm.setMem_mem s (Vm.putAt s.mem _ _)] at next
      show wp (Vm.copyoutFrom pt dst (fun j => (src j).toBitVec) left (i + 1)) _ _
        (s.setMem (Vm.putAt s.mem _ (src i).toBitVec))
      apply ih next (kept.separate separate) (faithful.kept kept)
      intro j less
      exact canonical j (by omega)

end Copies

/-- In a user process, `copyin` and `copyout` do to the memory that the process has what they do to
its bytes, on every range whose addresses the hardware accepts. -/
theorem copies_userBytes {s : Kernel} {p : Vm.Slot} (reach : Vm.Reachable s) (live : s.live p)
    (isUser : (s.procs p).isUser = true) (va : UserAddr) (buf : Buffer) (n : Nat)
    (canonical : ∀ j < n, Canonical (va + BitVec.ofNat 64 j)) :
    (copyin (userBytes s.mem (s.procs p).pagetable) va buf 0 n =
      ((Vm.copyin s.mem (s.procs p).pagetable (fun j => (buf j).toBitVec) va n).1, fun j =>
        UInt8.ofBitVec
          ((Vm.copyin s.mem (s.procs p).pagetable (fun j => (buf j).toBitVec) va n).2 j))) ∧
    wp (Vm.copyout (s.procs p).pagetable va (fun j => (buf j).toBitVec) n)
      (fun (r, _) t => r = (copyout (userBytes s.mem (s.procs p).pagetable) va buf 0 n).1 ∧
        Views t.mem (s.procs p).pagetable
          (copyout (userBytes s.mem (s.procs p).pagetable) va buf 0 n).2)
      (fun _ _ => False) s := by
  refine ⟨copyin_userBytes _ _ _ _ _ _, ?_⟩
  have faithful : Faithful s.mem (s.procs p).pagetable := fun a a' accepted accepted' found same =>
    Vm.userVa2pa_injective reach live isUser accepted accepted' found same
  apply copyoutFrom_userBytes (fun _ _ => rfl) (Vm.separate_of_reachable reach live isUser) faithful
  intro j less
  exact canonical j (by omega)

end Xv6Lab.Fs

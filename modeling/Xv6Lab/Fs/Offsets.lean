import Xv6Lab.Fs.Writing

/-! The offset of an open file, and the count that `ker_read` and `ker_write` return.  They differ
where a copy fails after the offset has moved, and where a chunk is written in part. -/

namespace Xv6Lab.Fs

open Bytes Exec

/-- The offset has moved by the count, or not at all where the call has failed. -/
def Accounts (f : FilePtr) (s : State) (r : Int) (t : State) : Prop :=
  if r = -1 then (t.ftable f).off = (s.ftable f).off
  else ((t.ftable f).off : Int) = (s.ftable f).off + r

/-- Every chunk that `ker_write` comes to, but the first, is fetched, and there is room for all of a
chunk that is fetched or for no byte of it. -/
def WritesWhole (sb : Superblock) (v : Disk) (i off : Nat) (user : UserMem) (addr : UserAddr)
    (n : Nat) : Prop :=
  ∀ q, GetsTo sb v i off user addr n q → KBUF * q < n →
    (0 < q → ChunkFetched user addr n q) ∧
    (ChunkFetched user addr n q → ChunkRoom sb v i off n q)

section Offsets

variable {sb : Superblock} {v : Disk} {f : FilePtr} {ip : InodePtr} {i : Nat} {s t : State}
  {user : UserMem} {addr : UserAddr} {fd : Int}

theorem Moved.accounts {off : Nat} {r : Int} (moved : Moved f off s t) :
    Accounts f s r t ↔ if r = -1 then off = (s.ftable f).off else (off : Int) = (s.ftable f).off + r := by
  rw [Accounts, moved.off_eq]

/-- `ker_read` keeps the account exactly if it meets no byte that is not mapped. -/
theorem kerRead_accounts_iff (open' : s.Descriptor fd f) (h : Handle sb v f ip i s) {n : Int}
    (small : n < 2 ^ 31) (kbuf : Buffer) :
    wp (kerRead sb fd addr n kbuf user) (fun r t => Accounts f s r.1 t) (fun _ _ => False) s ↔
      ((s.ftable f).readable = true →
        MappedRange user addr (v.available i (s.ftable f).off n.toNat)) := by
  cases readable : (s.ftable f).readable with
  | false =>
    refine iff_of_true (wp_conseq (kerRead_refused open' h readable n kbuf) ?_) nofun
    rintro _ t ⟨-, moved, rfl⟩
    rw [moved.accounts, if_neg (show ¬ (0 : Int) = -1 by decide), Int.add_zero]
  | true =>
    refine Iff.trans ?_ (forall_prop_of_true rfl).symm
    refine wp_decides (wp_mono (kerRead_wp open' h readable small kbuf) ?_ fun _ _ never => never.elim)
    rintro r t ⟨-, ⟨mapped, rfl, moved⟩ | ⟨missing, failed, c, some, moved⟩⟩
    · refine iff_of_true (moved.accounts.mpr ?_) mapped
      rw [if_neg (by omega), Nat.cast_add]
    · refine iff_of_false (fun accounts => ?_) missing
      rw [moved.accounts, if_pos failed] at accounts
      omega

/-- `ker_write` keeps the account exactly if it writes whole chunks. -/
theorem kerWrite_accounts_iff (valid : sb.Valid) (open' : s.Descriptor fd f)
    (h : Handle sb v f ip i s) (n : Int) (kbuf : Buffer) :
    wp (kerWrite sb fd addr n kbuf user) (fun r t => Accounts f s r t) (fun _ _ => False) s ↔
      ((s.ftable f).writable = true → (s.ftable f).off ≤ (v.inode i).size →
        WritesWhole sb v i (s.ftable f).off user addr n.toNat) := by
  by_cases accepts : (s.ftable f).writable = true ∧ (s.ftable f).off ≤ (v.inode i).size
  swap
  · have refuses : (s.ftable f).writable = false ∨ (v.inode i).size < (s.ftable f).off := by
      rw [not_and_or, Bool.not_eq_true, Nat.not_le] at accepts
      exact accepts
    refine iff_of_true (wp_conseq (kerWrite_refused valid open' h refuses n kbuf) ?_)
      fun writable start => absurd ⟨writable, start⟩ accepts
    rintro r t ⟨-, moved, rfl | rfl⟩
    · rw [moved.accounts, if_neg (by decide), Int.add_zero]
    · rw [moved.accounts, if_pos rfl]
  obtain ⟨writable, start⟩ := accepts
  refine Iff.trans ?_ (Iff.trans (forall_prop_of_true writable) (forall_prop_of_true start)).symm
  refine wp_decides (wp_mono (kerWrite_wp valid open' h writable start n kbuf) ?_
    fun _ _ never => never.elim)
  rintro r t ⟨q, m, w, -, moved, -, gets, stop⟩
  rw [moved.accounts]
  constructor
  · intro accounts k gets' more
    rcases Nat.lt_or_eq_of_le (stop.last more gets') with before | rfl
    · obtain ⟨fetched, -, room⟩ := gets.earlier before
      exact ⟨fun _ => fetched, fun _ _ _ => room⟩
    · -- the call has stopped at this chunk
      cases stop with
      | done all => omega
      | unmapped _ missing =>
        have first : sent n.toNat k = 256 * k := sent_start more
        rw [if_pos rfl] at accounts
        exact ⟨fun later => by omega, fun fetched => absurd fetched missing⟩
      | large _ fetched past => exact ⟨fun _ => fetched, fun _ fits => by omega⟩
      | full _ fetched _ _ _ none =>
        rw [if_neg (by omega)] at accounts
        obtain rfl : m = 0 := by omega
        exact ⟨fun _ => fetched, fun _ _ one => absurd one none⟩
  · intro whole
    cases stop with
    | done => rw [if_neg (by omega), Nat.add_zero, Nat.cast_add]
    | unmapped more missing =>
      have first : q = 0 := by
        by_contra later
        exact missing ((whole q gets more).1 (by omega))
      rw [if_pos rfl, first, sent_zero, Nat.add_zero]
    | large => rw [if_neg (by omega), Nat.add_zero, Nat.cast_add]
    | full more fetched fits less room none =>
      have nothing : m = 0 := by
        by_contra some
        exact none (((whole q gets more).2 fetched fits (room.mono (by omega))).mono (by omega))
      rw [if_neg (by omega), nothing, Nat.add_zero, Nat.cast_add]

/-- The offset moves by what the caller is told, exactly if a read meets no byte of the user's buffer
that is not mapped, and a write is of whole chunks. -/
theorem offsets_account_iff (valid : sb.Valid) (open' : s.Descriptor fd f) (h : Handle sb v f ip i s)
    (addr : UserAddr) (user : UserMem) {n : Int} (small : n < 2 ^ 31) (kbuf : Buffer) :
    (wp (kerRead sb fd addr n kbuf user) (fun r t => Accounts f s r.1 t) (fun _ _ => False) s ↔
      ((s.ftable f).readable = true →
        MappedRange user addr (v.available i (s.ftable f).off n.toNat))) ∧
    (wp (kerWrite sb fd addr n kbuf user) (fun r t => Accounts f s r t) (fun _ _ => False) s ↔
      ((s.ftable f).writable = true → (s.ftable f).off ≤ (v.inode i).size →
        WritesWhole sb v i (s.ftable f).off user addr n.toNat)) :=
  ⟨kerRead_accounts_iff open' h small kbuf, kerWrite_accounts_iff valid open' h n kbuf⟩

end Offsets

theorem offsets_account_iff_file :
    (wp (kerRead fsImg 3 0x10000 300 (fun _ => 0) fun _ => none)
        (fun r t => Accounts 0 fileOpen r.1 t) (fun _ _ => False) fileOpen ↔
      ((fileOpen.ftable 0).readable = true →
        MappedRange (fun _ => none) 0x10000 (fileDisk.available 2 (fileOpen.ftable 0).off 300))) ∧
    (wp (kerWrite fsImg 3 0x10000 300 (fun _ => 0) fun _ => none)
        (fun r t => Accounts 0 fileOpen r t) (fun _ _ => False) fileOpen ↔
      ((fileOpen.ftable 0).writable = true → (fileOpen.ftable 0).off ≤ (fileDisk.inode 2).size →
        WritesWhole fsImg fileDisk 2 (fileOpen.ftable 0).off (fun _ => none) 0x10000 300)) := by
  have open' := fileOpen_descriptor
  have handle := fileOpen_handle
  generalize fileOpen = s at open' handle ⊢
  exact offsets_account_iff fsImg_valid open' handle 0x10000 (fun _ => none) (n := 300) (by decide) fun _ => 0

/-- The first process opens the root directory. -/
def openRoot : List (Pid × Call) := [(0, .kerOpen [SLASH] O_RDONLY)]

/-- User memory of 16 bytes. -/
def smallUser : UserMem := fun a => if 0x10000 ≤ a ∧ a < 0x10010 then some 0 else none

theorem openRoot_runs : ((runCalls fsImg openRoot booted).any fun s =>
    match kerRead fsImg 3 0x10000 32 (fun _ => 0) smallUser s with
    | .ok r t => decide (r.1 = -1 ∧ (s.ftable 0).off = 0 ∧ (t.ftable 0).off = 32 ∧
        (s.procs s.current).ofile ⟨3, by decide⟩ = some 0)
    | .error _ _ => false) = true := by
  decide +kernel

theorem kerRead_loses_bytes : ∃ s r t, runCalls fsImg openRoot booted = some s ∧ s.Descriptor 3 0 ∧
    kerRead fsImg 3 0x10000 32 (fun _ => 0) smallUser s = .ok r t ∧ ¬ Accounts 0 s r.1 t := by
  obtain ⟨s, done, facts⟩ := (Option.any_eq_true _ _).mp openRoot_runs
  split at facts
  · next r t run =>
    obtain ⟨failed, before, after, entry⟩ := of_decide_eq_true facts
    refine ⟨s, r, t, done, ⟨⟨3, by decide⟩, by decide, entry⟩, run, fun accounts => ?_⟩
    rw [Accounts, if_pos failed] at accounts
    omega
  · cases facts

end Xv6Lab.Fs

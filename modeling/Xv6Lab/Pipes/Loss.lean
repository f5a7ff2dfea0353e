import Xv6Lab.Pipes.Turns

/-! A `piperead` whose copy to user memory fails.  The byte has left the pipe by then. -/

namespace Xv6Lab.Pipes

open Fs (UserMem UserAddr)

/-- The copying loop of `piperead`: what it returns, the pipe and the user memory. -/
def pipereadLoop : Nat → Pipe → UserMem → UserAddr → Int → Nat → Option (Int × Pipe × UserMem)
  | 0, _, _, _, _, _ => none
  | fuel + 1, pi, user, addr, n, i =>
    match pipereadTurn pi user addr n i with
    | (.moved _, pi, user) => pipereadLoop fuel pi user addr n (i + 1)
    | (.returned r, pi, user) => some (r, pi, user)
    | (.failed r, pi, user) => some (r, pi, user)
    | _ => none

/-- `piperead` by a process that nobody else interferes with; `none` while it sleeps. -/
def piperead (pi : Pipe) (killed : Bool) (user : UserMem) (addr : UserAddr) (n : Int) :
    Option (Int × Pipe × UserMem) :=
  match pipereadWait pi killed with
  | .returned r => some (r, pi, user)
  | .past => pipereadLoop (n.toNat + 1) pi user addr n 0
  | _ => none

/-- User memory after bytes have been stored from `addr + i` on. -/
def stored (addr : UserAddr) : UserMem → Nat → List UInt8 → UserMem
  | user, _, [] => user
  | user, i, c :: s => stored addr (Function.update user (addr + BitVec.ofNat 64 i) (some c)) (i + 1) s

/-- What `piperead` returns is how far it has advanced, and what it has stored; the rest of the bytes
is still in the pipe. -/
def LosesNothing (pi : Pipe) (killed : Bool) (user : UserMem) (addr : UserAddr) (n : Int) : Prop :=
  ∀ r pi' user', piperead pi killed user addr n = some (r, pi', user') →
    pi'.nread = pi.nread + BitVec.ofNat 32 r.toNat ∧
    user' = stored addr user 0 (pi.contents.take r.toNat) ∧
    pi'.contents = pi.contents.drop r.toNat

section Loop

variable {n : Int} {addr : UserAddr}

theorem update_mapped {user : UserMem} {a b : UserAddr} {c : UInt8} (mapped : user b ≠ none) :
    Function.update user a (some c) b ≠ none := by
  by_cases same : b = a
  · rw [same, Function.update_self]
    nofun
  · rwa [Function.update_of_ne same]

theorem update_unmapped {user : UserMem} {a b : UserAddr} {c : UInt8} (missing : user b = none)
    (mapped : user a ≠ none) : Function.update user a (some c) b = none := by
  have other : b ≠ a := by
    rintro rfl
    exact mapped missing
  rwa [Function.update_of_ne other]

theorem nread_succ (x : BitVec 32) (k : Nat) :
    x + 1 + BitVec.ofNat 32 k = x + BitVec.ofNat 32 (k + 1) := by
  rw [BitVec.ofNat_add, BitVec.add_assoc, BitVec.add_comm (1 : BitVec 32)]
  rfl

/-- The loop where every byte that it comes to is mapped. -/
theorem pipereadLoop_mapped (fuel : Nat) : ∀ (pi : Pipe) (user : UserMem) (i : Nat),
    i ≤ n.toNat → n.toNat < fuel + i →
    (∀ j, i + j < n.toNat → j < pi.contents.length → user (addr + BitVec.ofNat 64 (i + j)) ≠ none) →
    ∃ k pi', pipereadLoop fuel pi user addr n i =
        some (((i + k : Nat) : Int), pi', stored addr user i (pi.contents.take k)) ∧
      pi'.nread = pi.nread + BitVec.ofNat 32 k ∧ pi'.contents = pi.contents.drop k := by
  induction fuel with
  | zero =>
    intro pi user i low high _
    omega
  | succ fuel ih =>
    intro pi user i low high mapped
    rw [pipereadLoop]
    rcases pipereadTurn_cases pi user addr n i with ⟨-, turn⟩ | ⟨more, some', none', -⟩ |
      ⟨more, some', ⟨b, found⟩, turn⟩
    · rw [turn]
      exact ⟨0, pi, rfl, (BitVec.add_zero _).symm, rfl⟩
    · have first := contents_read pi some'
      exact absurd none' (mapped 0 (by omega) (by rw [first, List.length_cons]; omega))
    · have first := contents_read pi some'
      rw [turn, first]
      obtain ⟨k, pi', run, advanced, rest⟩ := ih { pi with nread := pi.nread + 1 }
        (Function.update user (addr + BitVec.ofNat 64 i)
          (some (pi.data (Ring.slot PIPESIZE pi.nread)))) (i + 1) (by omega) (by omega)
        fun j less inside => by
          apply update_mapped
          rw [show i + 1 + j = i + (j + 1) by omega]
          exact mapped (j + 1) (by omega) (by rw [first, List.length_cons]; omega)
      refine ⟨k + 1, pi', ?_, ?_, rest⟩
      · rw [show i + (k + 1) = i + 1 + k by omega]
        exact run
      · rw [advanced]
        exact nread_succ pi.nread k

/-- The loop where byte `m` is the first that is not mapped: its character has been read, too. -/
theorem pipereadLoop_unmapped (m : Nat) : ∀ (fuel : Nat) (pi : Pipe) (user : UserMem) (i : Nat),
    n.toNat < fuel + i → i + m < n.toNat → m < pi.contents.length →
    user (addr + BitVec.ofNat 64 (i + m)) = none →
    (∀ j < m, user (addr + BitVec.ofNat 64 (i + j)) ≠ none) →
    ∃ pi', pipereadLoop fuel pi user addr n i =
        some (((i + m : Nat) : Int), pi', stored addr user i (pi.contents.take m)) ∧
      pi'.nread = pi.nread + BitVec.ofNat 32 (m + 1) := by
  induction m with
  | zero =>
    intro fuel pi user i high less inside none' _
    obtain ⟨fuel, rfl⟩ := Nat.exists_eq_succ_of_ne_zero (show fuel ≠ 0 by omega)
    rw [pipereadLoop]
    rcases pipereadTurn_cases pi user addr n i with ⟨ends, -⟩ | ⟨-, -, -, turn⟩ |
      ⟨-, -, ⟨b, found⟩, -⟩
    · rcases ends with done | empty
      · omega
      · rw [contents_length, empty, BitVec.sub_self] at inside
        cases inside
    · rw [turn]
      exact ⟨_, rfl, rfl⟩
    · rw [Nat.add_zero, found] at none'
      cases none'
  | succ m ih =>
    intro fuel pi user i high less inside none' mapped
    obtain ⟨fuel, rfl⟩ := Nat.exists_eq_succ_of_ne_zero (show fuel ≠ 0 by omega)
    rw [pipereadLoop]
    rcases pipereadTurn_cases pi user addr n i with ⟨ends, -⟩ | ⟨-, -, missing, -⟩ |
      ⟨more, some', ⟨b, found⟩, turn⟩
    · rcases ends with done | empty
      · omega
      · rw [contents_length, empty, BitVec.sub_self] at inside
        cases inside
    · exact absurd missing (mapped 0 (by omega))
    · have first := contents_read pi some'
      rw [turn, first]
      rw [first, List.length_cons] at inside
      obtain ⟨pi', run, advanced⟩ := ih fuel { pi with nread := pi.nread + 1 }
        (Function.update user (addr + BitVec.ofNat 64 i)
          (some (pi.data (Ring.slot PIPESIZE pi.nread)))) (i + 1) (by omega) (by omega) (by omega)
        (by
          rw [show i + 1 + m = i + (m + 1) by omega]
          exact update_unmapped none' (mapped 0 (by omega)))
        (fun j earlier => by
          apply update_mapped
          rw [show i + 1 + j = i + (j + 1) by omega]
          exact mapped (j + 1) (by omega))
      refine ⟨pi', ?_, ?_⟩
      · rw [show i + (m + 1) = i + 1 + m by omega]
        exact run
      · rw [advanced]
        exact nread_succ pi.nread (m + 1)

end Loop

/-- While `piperead` waits, there is nothing to lose. -/
theorem pipereadWait_cases (pi : Pipe) (killed : Bool) : pipereadWait pi killed = .past ∨
    (pi.contents = [] ∧ (pipereadWait pi killed = .sleeps ∨ pipereadWait pi killed = .returned (-1))) := by
  unfold pipereadWait
  split
  · next empty =>
    refine .inr ⟨?_, ?_⟩
    · rw [Pipe.contents, empty.1, Ring.pending_self]
    · cases killed
      · exact .inl rfl
      · exact .inr rfl
  · exact .inl rfl

/-- `piperead` loses nothing exactly where every byte of the destination that it comes to is
mapped. -/
theorem losesNothing_iff (pi : Pipe) (killed : Bool) (user : UserMem) (addr : UserAddr) (n : Int) :
    LosesNothing pi killed user addr n ↔
      ∀ j : Nat, (j : Int) < n → j < (pi.nwrite - pi.nread).toNat →
        user (addr + BitVec.ofNat 64 j) ≠ none := by
  rw [← contents_length]
  rcases pipereadWait_cases pi killed with past | ⟨empty, waits⟩
  · have start : piperead pi killed user addr n = pipereadLoop (n.toNat + 1) pi user addr n 0 := by
      rw [piperead, past]
    constructor
    · intro nothing j less inside missing
      have some' : ∃ m, user (addr + BitVec.ofNat 64 m) = none := ⟨j, missing⟩
      have first := Nat.find_spec some'
      have least : Nat.find some' ≤ j := Nat.find_min' some' missing
      have before : ∀ k < Nat.find some', user (addr + BitVec.ofNat 64 (0 + k)) ≠ none := by
        intro k less
        rw [Nat.zero_add]
        exact Nat.find_min some' less
      generalize Nat.find some' = m at first least before
      obtain ⟨pi', loop, advanced⟩ := pipereadLoop_unmapped (n := n) m (n.toNat + 1) pi user 0 (by omega)
        (by omega) (by omega) (by rwa [Nat.zero_add]) before
      have kept := (nothing _ _ _ (start.trans loop)).1
      rw [advanced, Nat.zero_add, Int.toNat_natCast] at kept
      have small := (pi.nwrite - pi.nread).isLt
      rw [← contents_length] at small
      have same := congrArg BitVec.toNat ((BitVec.add_right_inj pi.nread).mp kept)
      rw [BitVec.toNat_ofNat, BitVec.toNat_ofNat] at same
      omega
    · intro mapped r pi' user' run
      obtain ⟨k, pi₁, loop, advanced, rest⟩ := pipereadLoop_mapped (n := n) (n.toNat + 1) pi user 0
        (Nat.zero_le _) (by omega) fun j less inside => by
          rw [Nat.zero_add]
          exact mapped j (by omega) inside
      rw [start, loop] at run
      cases run
      rw [Nat.zero_add]
      exact ⟨advanced, rfl, rest⟩
  · refine iff_of_true (fun r pi' user' run => ?_) fun j _ inside => ?_
    · rcases waits with sleeps | returned
      · rw [piperead, sleeps] at run
        cases run
      · rw [piperead, returned] at run
        cases run
        refine ⟨(BitVec.add_zero _).symm, ?_, ?_⟩
        · rw [empty]
          rfl
        · rw [empty]
          rfl
    · rw [empty] at inside
      exact absurd inside (Nat.not_lt_zero j)

/-- A pipe with one byte in it. -/
def oneByte : Pipe := ⟨fun _ => 65, 0, 1, true, true⟩

/-- A reader without any memory takes the byte out of the pipe and gets nothing. -/
theorem piperead_loses_byte :
    piperead oneByte false (fun _ => none) 0 1 =
      some (0, { oneByte with nread := 1 }, fun _ => none) ∧
    Pipe.contents { oneByte with nread := 1 } = [] ∧
    ¬ ∀ pi killed user addr n, LosesNothing pi killed user addr n := by
  have run : piperead oneByte false (fun _ => none) 0 1 =
      some (0, { oneByte with nread := 1 }, fun _ => none) := rfl
  refine ⟨run, by decide, fun nothing => ?_⟩
  exact absurd (nothing _ _ _ _ _ _ _ _ run).1 (by decide)

end Xv6Lab.Pipes

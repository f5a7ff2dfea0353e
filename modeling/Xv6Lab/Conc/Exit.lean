import Xv6Lab.Conc.Invariant
import Xv6Lab.Conc.Solo

/-! What a dying process holds.  `sleep` takes its spinlock again before it looks at the killed flag
and calls `exit_proc` from there, and so does `yield` wherever the timer strikes, so a kill that lands
in a call leaves locks, a disk request and an open operation behind.  Apart from that, and from an
`open` without a free descriptor, every call gives back all it took. -/

namespace Xv6Lab.Conc

open Relation

variable {P : Type}

/-- No spinlock, no sleeplock, no disk request in flight and no operation without its `end_op`. -/
def HoldsNothing (s : Shared P) (p : P) : Prop :=
  (∀ lk, s.spin lk ≠ some p) ∧ (∀ l, s.held l ≠ some p) ∧ (∀ b, s.flight b ≠ some p) ∧ s.ops p = 0

theorem Agree.holdsNothing {s : Shared P} {p : P} {v : View} (h : Agree s p v) (rest : v.AtRest) :
    HoldsNothing s p := by
  obtain ⟨F, R, K, rfl⟩ := rest
  refine ⟨fun lk held => ?_, fun l held => ?_, fun b mine => ?_, h.ops⟩
  · exact nomatch (h.spins lk).mp held
  · exact nomatch (h.locks l).mp held
  · exact nomatch h.flight b mine

theorem undisturbed_inv [DecidableEq P] [Fintype P] {s₀ s : State P} (initial : Initial s₀)
    (run : ReflTransGen (StepWith Undisturbed) s₀ s) : ∃ views, Inv s views :=
  Transition.invariant (I := fun s => ∃ views, Inv s views)
    (fun _ _ ⟨_, h⟩ ⟨_, calm, step⟩ => h.step calm step) ⟨_, initial.inv⟩ run

/-- In an undisturbed run a process that has become a zombie holds nothing. -/
theorem zombie_holds_nothing [DecidableEq P] [Fintype P] {s₀ s : State P} (initial : Initial s₀)
    (run : ReflTransGen (StepWith Undisturbed) s₀ s) {p : P} (zombie : s.phase p = .zombie) :
    HoldsNothing s.shared p := by
  obtain ⟨views, h⟩ := undisturbed_inv initial run
  exact (h.agree p).holdsNothing (h.standing_at zombie)

theorem Phase.eq_zombie {ph : Phase} (h : ph.isZombie = true) : ph = .zombie := by
  cases ph <;> first | rfl | cases h

/-- A process reads a file and exits. -/
def readerExited : State (Fin 1) :=
  returnAndExit 0 (callThen 0 (.read 5) 50 [0, 0] (booted 1))

theorem zombie_holds_nothing_sample : HoldsNothing readerExited.shared 0 := by
  have calm (s : State (Fin 1)) (e : Event (Fin 1)) (others : ∀ p c, e ≠ .wake p ∧ e ≠ .yield p ∧
      e ≠ .call p (.kerOpen false c)) : Undisturbed s e :=
    ⟨fun p woken => by have := others p true; grind, fun p c opened => absurd opened (others p c).2.2⟩
  have call := callThen_reaches (p := 0) (c := .read 5) (fun s => calm s _ (by simp))
    (fun s c => calm s _ (by simp)) 50 [0, 0] (booted 1)
  have leave := returnAndExit_reaches (p := 0) (fun s => calm s _ (by simp))
    (fun s => calm s _ (by simp)) (callThen 0 (.read 5) 50 [0, 0] (booted 1))
  exact zombie_holds_nothing (booted_initial 1) (call.trans leave) (Phase.eq_zombie (by decide +kernel))

/-- A process that reads the inode block of the root directory for `unlink` is killed while it sleeps
in `virtio_disk_rw`. -/
def killedReading : State (Fin 1) :=
  killAsleep 0 (fallAsleep 0 (callThen 0 .kerUnlink 100 [1, 1, 0, 1, 0, 7, 1] (booted 1)))

/-- The zombie holds the driver's spinlock, a buffer and an inode, and has left its request in flight
and its operation open. -/
theorem killed_reader_holds :
    ∃ s₀ s : State (Fin 1), Initial s₀ ∧ ReflTransGen AnyStep s₀ s ∧ s.phase 0 = .zombie ∧
      s.shared.spin .disk = some 0 ∧ s.shared.held (.buf 7) = some 0 ∧
      s.shared.held (.inode 1) = some 0 ∧ s.shared.flight 7 = some 0 ∧ s.shared.ops 0 = 1 := by
  refine ⟨booted 1, killedReading, booted_initial 1, ?_, ?_, by decide +kernel⟩
  · exact ((callThen_reaches (fun _ => trivial) (fun _ _ => trivial) _ _ _).trans
      (fallAsleep_reaches (fun _ _ => trivial) _)).trans (killAsleep_reaches _ _)
  · exact Phase.eq_zombie (by decide +kernel)

end Xv6Lab.Conc

import Xv6Lab.Conc.System
import Xv6Lab.Conc.Views
import Xv6Lab.Lib.Transition

/-! The invariant of runs in which no process is killed inside a call and no `open` of an existing
file finds the descriptor table full: every process has a view that agrees with the shared state and
from which the rest of its code keeps the rules. -/

namespace Xv6Lab.Conc

open Prog Relation

/-- A fact about the order of allocation. -/
def Fact.Holds {P : Type} (s : Shared P) : Fact → Prop
  | dir _ => True
  | above d i => d = i ∨ s.stamp d < s.stamp i

/-- The view of `p` agrees with the shared state. -/
structure Agree {P : Type} (s : Shared P) (p : P) (v : View) : Prop where
  spins : ∀ lk, s.spin lk = some p ↔ lk ∈ v.spins
  spinsOnce : v.spins.Nodup
  locks : ∀ l, s.held l = some p ↔ l ∈ v.locks
  locksOnce : v.locks.Nodup
  ops : s.ops p = v.ops
  flight : ∀ b, s.flight b = some p → v.flight = some b
  fds : s.fds p = v.fds
  refs : s.refs p = v.refs
  backed : ∀ i, .inode i ∈ v.locks → i ∈ v.refs ∨ i ∈ v.fds
  knows : ∀ f ∈ v.knows, .inode f.key ∈ v.locks ∧ s.kind f.key = .dir ∧ f.Holds s
  alone : ∀ i, v.alone = some i → .itable ∈ v.spins ∧ s.ref i = 1

/-- What holds of the shared state whoever runs. -/
structure Consistent {P : Type} [Fintype P] (s : Shared P) : Prop where
  ref : ∀ i, s.owned i ≤ s.ref i
  entries : ∀ d, ∀ i ∈ s.entries d, d = i ∨ s.stamp d < s.stamp i
  stamp : ∀ i, s.stamp i ≤ s.clock

section Counting

variable {P : Type} [Fintype P]

theorem Shared.owned_eq (s : Shared P) (i : Nat) :
    s.owned i = ∑ q, (s.refs q).count i + ∑ q, (s.fds q).count i := Finset.sum_add_distrib

variable [DecidableEq P]

theorem sum_count_update (f : P → List Nat) (p : P) (l : List Nat) (i : Nat) :
    ∑ q, (Function.update f p l q).count i + (f p).count i = ∑ q, (f q).count i + l.count i := by
  have rest : ∑ q ∈ Finset.univ.erase p, (Function.update f p l q).count i =
      ∑ q ∈ Finset.univ.erase p, (f q).count i :=
    Finset.sum_congr rfl fun q hq => by rw [Function.update_of_ne (Finset.ne_of_mem_erase hq)]
  rw [← Finset.add_sum_erase _ _ (Finset.mem_univ p), rest, Function.update_self,
    ← Finset.add_sum_erase _ (fun q => (f q).count i) (Finset.mem_univ p)]
  omega

end Counting

section Locks

variable {P : Type} {s : Shared P} {p : P} {v : View}

theorem Agree.acquire (h : Agree s p v) {lk : Spin} (free : s.spin lk = none) :
    Agree (s.setSpin lk (some p)) p { v with spins := lk :: v.spins } := by
  have fresh : lk ∉ v.spins := fun held => by simp [(h.spins lk).mpr held] at free
  refine { h with
    spins := fun lk' => ?_
    spinsOnce := List.nodup_cons.mpr ⟨fresh, h.spinsOnce⟩
    alone := fun i known => ⟨.tail _ (h.alone i known).1, (h.alone i known).2⟩ }
  by_cases same : lk' = lk
  · simp [Shared.setSpin, same]
  · simpa [Shared.setSpin, same] using h.spins lk'

theorem Agree.release (h : Agree s p v) (lk : Spin) :
    Agree (s.setSpin lk none) p
      { v with spins := v.spins.erase lk, alone := if lk = .itable then none else v.alone } := by
  refine { h with
    spins := fun lk' => ?_
    spinsOnce := h.spinsOnce.erase lk
    alone := fun i known => ?_ }
  · rw [h.spinsOnce.mem_erase_iff]
    by_cases same : lk' = lk
    · simp [Shared.setSpin, same]
    · simpa [Shared.setSpin, same] using h.spins lk'
  · dsimp only at known ⊢
    split at known
    · cases known
    · rename_i other
      rw [h.spinsOnce.mem_erase_iff]
      exact ⟨⟨Ne.symm other, (h.alone i known).1⟩, (h.alone i known).2⟩

/-- Another process takes or gives up a spinlock. -/
theorem Agree.setSpin_other (h : Agree s p v) {lk : Spin} {o : Option P} (before : s.spin lk ≠ some p)
    (after : o ≠ some p) : Agree (s.setSpin lk o) p v := by
  refine { h with spins := fun lk' => ?_ }
  by_cases same : lk' = lk
  · subst same
    simpa [Shared.setSpin, after] using fun held => before ((h.spins lk').mpr held)
  · simpa [Shared.setSpin, same] using h.spins lk'

theorem Agree.lock (h : Agree s p v) {l : Lock} (free : s.held l = none)
    (backed : ∀ i, l = .inode i → i ∈ v.refs ∨ i ∈ v.fds) :
    Agree { s with held := Function.update s.held l (some p) } p (v.addLock l) := by
  have fresh : l ∉ v.locks := fun held => by simp [(h.locks l).mpr held] at free
  refine { h with
    locks := fun l' => ?_
    locksOnce := List.nodup_cons.mpr ⟨fresh, h.locksOnce⟩
    backed := fun i held => ?_
    knows := fun f known => ⟨.tail _ (h.knows f known).1, (h.knows f known).2⟩ }
  · by_cases same : l' = l
    · simp [View.addLock, same]
    · simpa [View.addLock, same] using h.locks l'
  · rcases List.mem_cons.mp held with rfl | old
    · exact backed i rfl
    · exact h.backed i old

/-- Another process takes or gives up a sleeplock. -/
theorem Agree.setHeld_other (h : Agree s p v) {l : Lock} {o : Option P} (before : s.held l ≠ some p)
    (after : o ≠ some p) : Agree { s with held := Function.update s.held l o } p v := by
  refine { h with locks := fun l' => ?_ }
  by_cases same : l' = l
  · subst same
    simpa [after] using fun held => before ((h.locks l').mpr held)
  · simpa [same] using h.locks l'

theorem Agree.unlock (h : Agree s p v) (l : Lock) :
    Agree { s with held := Function.update s.held l none } p (v.dropLock l) := by
  refine { h with
    locks := fun l' => ?_
    locksOnce := h.locksOnce.erase l
    backed := fun i held => h.backed i (List.mem_of_mem_erase held)
    knows := fun f known => ?_ }
  · simp only [View.dropLock, h.locksOnce.mem_erase_iff]
    by_cases same : l' = l
    · simp [same]
    · simpa [same] using h.locks l'
  · simp only [View.dropLock, List.mem_filter, decide_eq_true_eq] at known ⊢
    rw [h.locksOnce.mem_erase_iff]
    exact ⟨⟨known.2, (h.knows f known.1).1⟩, (h.knows f known.1).2⟩

end Locks

section Commands

variable {P : Type} [DecidableEq P] {s : Shared P} {p : P} {v : View} {c : Cmd} {r : c.Reply}

/-- The answers to a command are among those that the view allows. -/
theorem Agree.can (h : Agree s p v) (answer : c.Answer p s r) : c.can r v := by
  cases c with
  | acquire lk =>
    intro held
    rw [Cmd.Answer, (h.spins lk).mpr held] at answer
    cases answer
  | await w =>
    cases w with
    | sleeplock l =>
      intro held
      exact answer fun free => by simp [(h.locks l).mpr held] at free
    | _ => trivial
  | holding l => simpa [Cmd.Answer, h.locks] using answer
  | cwd => simpa [Cmd.Answer, h.refs] using answer
  | fdget => simpa [Cmd.Answer, h.fds] using answer
  | fdalloc i => simpa [Cmd.Answer, h.fds] using answer
  | panic msg => cases r
  | _ => trivial

/-- An allocation leaves the known directories and the order of inodes above them alone. -/
theorem Fact.Holds.mark [Fintype P] {f : Fact} {i : Nat} {k : Kind} (h : f.Holds s)
    (con : Consistent s) (free : s.kind i = .free) (dir : s.kind f.key = .dir) :
    ((Cmd.markInode k).effect p s i).kind f.key = .dir ∧
      f.Holds ((Cmd.markInode k).effect p s i) := by
  have other : f.key ≠ i := fun same => by simp [← same, dir] at free
  refine ⟨by simpa [Cmd.effect, other] using dir, ?_⟩
  cases f with
  | dir d => trivial
  | above d j =>
    refine h.imp_right fun lt => ?_
    have kept : Function.update s.stamp i (s.clock + 1) d = s.stamp d :=
      Function.update_of_ne other _ _
    simp only [Cmd.effect, kept]
    by_cases same : j = i
    · simpa [same] using Nat.lt_succ_of_le (con.stamp d)
    · simpa [same] using lt

/-- After a command the process sees what the rule for it says. -/
theorem Agree.effect [Fintype P] (h : Agree s p v) (con : Consistent s) (ok : c.ok v)
    (answer : c.Answer p s r) : Agree (c.effect p s r) p (c.after r v) := by
  cases c with
  | acquire lk => exact h.acquire answer
  | release lk => exact h.release lk
  | await w =>
    cases w with
    | sleeplock l =>
      refine h.lock (not_not.mp answer) ?_
      rintro i rfl
      exact ok.2.2.1
    | logSpace => exact { h with ops := by simp [Cmd.effect, Wait.grant, h.ops] }
    | descriptors => exact { h with }
    | disk b =>
      refine { h with flight := fun b' mine => ?_ }
      have same : b' = b := Option.some_injective _ ((h.flight b' mine).symm.trans ok.2)
      have landed : s.flight b' = none := by
        rw [same]
        exact not_not.mp answer
      exact absurd (landed.symm.trans mine) (by simp)
  | unlock l => exact h.unlock l
  | leaveOp => exact { h with ops := by simp [Cmd.effect, h.ops] }
  | submit b =>
    refine { h with flight := fun b' mine => ?_ }
    by_cases same : b' = b
    · rw [same]
      rfl
    · have old := h.flight b' (by simpa [Cmd.effect, same] using mine)
      exact absurd (ok.symm.trans old) (by simp)
  | getRef i =>
    refine { h with alone := fun j known => ?_ }
    simp only [Cmd.after] at known ⊢
    split at known
    · rename_i one
      obtain rfl : i = j := Option.some_injective _ known
      exact ⟨one.2, answer.symm.trans one.1⟩
    · exact h.alone j known
  | incRef i =>
    refine { h with
      refs := by simp [Cmd.effect, h.refs]
      backed := fun j held => ?_
      alone := fun j known => by cases known }
    exact (h.backed j held).imp_left (.tail _)
  | decRef i =>
    refine { h with
      refs := by simp [Cmd.effect, h.refs]
      backed := fun j held => ?_
      alone := fun j known => by cases known }
    by_cases same : j = i
    · subst same
      exact ok.2.2 held
    · exact (h.backed j held).imp_left fun mem => (List.mem_erase_of_ne same).mpr mem
  | getKind i =>
    refine { h with knows := fun f known => ?_ }
    rcases List.mem_append.mp known with new | old
    · split at new
      · rename_i dir
        obtain rfl : f = .dir i := by simpa using new
        exact ⟨ok, answer.symm.trans dir, trivial⟩
      · cases new
    · exact h.knows f old
  | entry d =>
    refine { h with knows := fun f known => ?_ }
    rcases List.mem_append.mp known with new | old
    · obtain ⟨i, found, rfl⟩ := List.mem_map.mp new
      refine ⟨ok.1, (h.knows _ ok.2).2.1, con.entries d i (answer i ?_)⟩
      simpa using found
    · exact h.knows f old
  | link d i => exact { h with }
  | clearEntry d i => exact { h with }
  | markInode k =>
    refine { h with knows := fun f known => ?_ }
    rcases List.mem_append.mp known with new | old
    · obtain ⟨g, old, fresh⟩ := List.mem_filterMap.mp new
      cases g with
      | above d j => cases fresh
      | dir d =>
        obtain rfl := Option.some_injective _ fresh
        obtain ⟨lock, dir, -⟩ := h.knows _ old
        have other : d ≠ r := by
          rintro rfl
          exact absurd (dir.symm.trans answer) (by simp)
        refine ⟨lock, ?_, .inr ?_⟩
        · simpa [Cmd.effect, Fact.key, other] using dir
        · simpa [Cmd.effect, other] using Nat.lt_succ_of_le (con.stamp d)
    · obtain ⟨lock, dir, holds⟩ := h.knows f old
      exact ⟨lock, holds.mark con answer dir⟩
  | clearInode i =>
    refine { h with knows := fun f known => ?_ }
    obtain ⟨old, other⟩ := List.mem_filter.mp known
    obtain ⟨lock, dir, holds⟩ := h.knows f old
    refine ⟨lock, ?_, holds⟩
    simpa [Cmd.effect, of_decide_eq_true other] using dir
  | fdalloc i =>
    cases r with
    | false => exact { h with }
    | true =>
      refine { h with
        fds := by simp [Cmd.effect, h.fds]
        refs := by simp [Cmd.effect, h.refs]
        backed := fun j held => ?_ }
      by_cases same : j = i
      · subst same
        exact .inr (.head _)
      · exact (h.backed j held).imp (fun mem => (List.mem_erase_of_ne same).mpr mem) (.tail _)
  | fdclear i =>
    refine { h with
      fds := by simp [Cmd.effect, h.fds]
      refs := by simp [Cmd.effect, h.refs]
      backed := fun j held => ?_ }
    by_cases same : j = i
    · subst same
      exact .inl (.head _)
    · exact (h.backed j held).imp (.tail _) fun mem => (List.mem_erase_of_ne same).mpr mem
  | panic msg => cases r
  | _ => exact { h with }

/-- A command of another process leaves the view alone. -/
theorem Agree.effect_other [Fintype P] {q : P} {w : View} (h : Agree s p v) (other : Agree s q w)
    (ne : q ≠ p) (con : Consistent s) (ok : c.ok v) (answer : c.Answer p s r) :
    Agree (c.effect p s r) q w := by
  have mine : (some p : Option P) ≠ some q := fun same => ne (Option.some_injective _ same).symm
  cases c with
  | acquire lk =>
    have free : s.spin lk = none := answer
    exact other.setSpin_other (by simp [free]) mine
  | release lk =>
    have held : s.spin lk = some p := (h.spins lk).mpr ok
    exact other.setSpin_other (by simpa [held] using mine) (by simp)
  | await w =>
    cases w with
    | sleeplock l =>
      have free : s.held l = none := not_not.mp answer
      exact other.setHeld_other (by simp [free]) mine
    | logSpace => exact { other with ops := by simp [Cmd.effect, Wait.grant, ne, other.ops] }
    | descriptors => exact { other with }
    | disk b => exact { other with }
  | unlock l =>
    have held : s.held l = some p := (h.locks l).mpr ok
    exact other.setHeld_other (by simpa [held] using mine) (by simp)
  | leaveOp => exact { other with ops := by simp [Cmd.effect, ne, other.ops] }
  | submit b =>
    refine { other with flight := fun b' theirs => ?_ }
    by_cases same : b' = b
    · exact absurd (by simpa [Cmd.effect, same] using theirs) mine
    · exact other.flight b' (by simpa [Cmd.effect, same] using theirs)
  | incRef i =>
    refine { other with
      refs := by simp [Cmd.effect, ne, other.refs]
      alone := fun j known => ?_ }
    have held := ((h.spins .itable).mpr ok).symm.trans ((other.spins .itable).mpr (other.alone j known).1)
    exact absurd held mine
  | decRef i =>
    refine { other with
      refs := by simp [Cmd.effect, ne, other.refs]
      alone := fun j known => ?_ }
    have held := ((h.spins .itable).mpr ok.1).symm.trans ((other.spins .itable).mpr (other.alone j known).1)
    exact absurd held mine
  | markInode k =>
    refine { other with knows := fun f known => ?_ }
    obtain ⟨lock, dir, holds⟩ := other.knows f known
    exact ⟨lock, holds.mark con answer dir⟩
  | clearInode i =>
    refine { other with knows := fun f known => ?_ }
    obtain ⟨lock, dir, holds⟩ := other.knows f known
    refine ⟨lock, ?_, holds⟩
    have away : f.key ≠ i := by
      rintro rfl
      exact mine (((h.locks _).mpr ok).symm.trans ((other.locks _).mpr lock))
    simpa [Cmd.effect, away] using dir
  | fdalloc i =>
    cases r with
    | false => exact { other with }
    | true =>
      exact { other with
        fds := by simp [Cmd.effect, ne, other.fds]
        refs := by simp [Cmd.effect, ne, other.refs] }
  | fdclear i =>
    exact { other with
      fds := by simp [Cmd.effect, ne, other.fds]
      refs := by simp [Cmd.effect, ne, other.refs] }
  | panic msg => cases r
  | _ => exact { other with }

/-- Every command keeps the reference counts and the order of the directories. -/
theorem Consistent.effect [Fintype P] (con : Consistent s) (h : Agree s p v) (ok : c.ok v)
    (answer : c.Answer p s r) : Consistent (c.effect p s r) := by
  cases c with
  | await w => cases w <;> exact { con with }
  | incRef i =>
    refine { con with ref := fun j => ?_ }
    have old := con.ref j
    have moved := sum_count_update s.refs p (i :: s.refs p) j
    rw [Shared.owned_eq] at old ⊢
    simp only [Cmd.effect, List.count_cons, Function.update_apply] at moved ⊢
    split <;> grind
  | decRef i =>
    refine { con with ref := fun j => ?_ }
    have old := con.ref j
    have mem : i ∈ s.refs p := h.refs ▸ ok.2.1
    have moved := sum_count_update s.refs p ((s.refs p).erase i) j
    have pos : 0 < (s.refs p).count i := List.count_pos_iff.mpr mem
    rw [Shared.owned_eq] at old ⊢
    simp only [Cmd.effect, List.count_erase, Function.update_apply] at moved ⊢
    split <;> grind
  | link d i =>
    refine { con with entries := fun d' j named => ?_ }
    by_cases same : d' = d
    · subst same
      rcases List.mem_cons.mp (by simpa [Cmd.effect] using named) with rfl | old
      · exact (h.knows _ ok.2).2.2
      · exact con.entries d' j old
    · exact con.entries d' j (by simpa [Cmd.effect, same] using named)
  | clearEntry d i =>
    refine { con with entries := fun d' j named => ?_ }
    by_cases same : d' = d
    · subst same
      exact con.entries d' j (List.mem_of_mem_erase (by simpa [Cmd.effect] using named))
    · exact con.entries d' j (by simpa [Cmd.effect, same] using named)
  | markInode k =>
    refine { con with entries := fun d j named => ?_, stamp := fun j => ?_ }
    · by_cases same : d = r
      · simp [Cmd.effect, same] at named
      · have old := con.entries d j (by simpa [Cmd.effect, same] using named)
        have kept : Function.update s.stamp r (s.clock + 1) d = s.stamp d :=
          Function.update_of_ne same _ _
        refine old.imp_right fun lt => ?_
        simp only [Cmd.effect, kept]
        by_cases fresh : j = r
        · simpa [fresh] using Nat.lt_succ_of_le (con.stamp d)
        · simpa [fresh] using lt
    · by_cases same : j = r
      · simp [Cmd.effect, same]
      · simpa [Cmd.effect, same] using Nat.le_succ_of_le (con.stamp j)
  | clearInode i =>
    refine { con with entries := fun d' j named => ?_ }
    by_cases same : d' = i
    · simp [Cmd.effect, same] at named
    · exact con.entries d' j (by simpa [Cmd.effect, same] using named)
  | fdalloc i =>
    cases r with
    | false => exact { con with }
    | true =>
      refine { con with ref := fun j => ?_ }
      have old := con.ref j
      have mem : i ∈ s.refs p := h.refs ▸ ok
      have pos : 0 < (s.refs p).count i := List.count_pos_iff.mpr mem
      have refs := sum_count_update s.refs p ((s.refs p).erase i) j
      have fds := sum_count_update s.fds p (i :: s.fds p) j
      rw [Shared.owned_eq] at old ⊢
      simp only [Cmd.effect, List.count_erase, List.count_cons, if_true] at refs fds ⊢
      grind
  | fdclear i =>
    refine { con with ref := fun j => ?_ }
    have old := con.ref j
    have mem : i ∈ s.fds p := h.fds ▸ ok
    have pos : 0 < (s.fds p).count i := List.count_pos_iff.mpr mem
    have refs := sum_count_update s.refs p (i :: s.refs p) j
    have fds := sum_count_update s.fds p ((s.fds p).erase i) j
    rw [Shared.owned_eq] at old ⊢
    simp only [Cmd.effect, List.count_erase, List.count_cons] at refs fds ⊢
    grind
  | panic msg => cases r
  | _ => exact { con with }

end Commands

/-! ### The whole system -/

section Runs

variable {P : Type} [DecidableEq P] [Fintype P]

/-- No process is killed when it comes back from `sleep` or `yield` in a call, and an `open` without
`O_CREATE` is made only by a process with a free descriptor. -/
def Undisturbed (s : State P) (e : Event P) : Prop :=
  (∀ p, e = .wake p ∨ e = .yield p → s.killed p = false) ∧
    ∀ p rdonly, e = .call p (.kerOpen false rdonly) → (s.shared.fds p).length < NOFILE - 3

/-- What a process still has to do keeps the rules. -/
def Phase.Standing (v : View) : Phase → Prop
  | busy code => code.wp rules (fun _ => View.AtRest) v
  | asleep w k =>
    (Prog.cmd (.await w) k).wp rules (fun _ => View.AtRest) { v with spins := w.lock :: v.spins }
  | unused | idle | zombie => v.AtRest

/-- Every process has a view that agrees with the shared state and from which it keeps the rules. -/
structure Inv (s : State P) (views : P → View) : Prop where
  consistent : Consistent s.shared
  agree : ∀ p, Agree s.shared p (views p)
  standing : ∀ p, (s.phase p).Standing (views p)

omit [DecidableEq P] in
theorem Initial.inv {s : State P} (h : Initial s) :
    Inv s fun p => .calm [] 0 (s.shared.fds p) (s.shared.refs p) [] where
  consistent := ⟨h.ref, h.entries, h.stamp⟩
  agree p := by
    constructor <;> simp [View.calm, h.spin, h.held, h.ops, h.flight]
  standing p := by
    rcases h.phase p with idle | unused
    · rw [idle]
      exact ⟨_, _, _, rfl⟩
    · rw [unused]
      exact ⟨_, _, _, rfl⟩

/-- One process takes a step of its own: its view and its phase change, the others see the same. -/
theorem Inv.move {s : State P} {views : P → View} (h : Inv s views) {p : P} {sh : Shared P} {v : View}
    {ph : Phase} (con : Consistent sh) (own : Agree sh p v)
    (others : ∀ q, q ≠ p → Agree sh q (views q)) (next : ph.Standing v) :
    Inv ((s.setShared sh).setPhase p ph) (Function.update views p v) where
  consistent := con
  agree q := by
    by_cases same : q = p
    · subst same
      simpa using own
    · simpa [same] using others q same
  standing q := by
    by_cases same : q = p
    · subst same
      simpa [State.phase_setPhase] using next
    · simpa [State.phase_setPhase, same] using h.standing q

omit [DecidableEq P] [Fintype P] in
/-- The view of a process at rest, whatever happens to its references. -/
theorem Agree.atRest {s : Shared P} {p : P} {v : View} (h : Agree s p v) (rest : v.AtRest)
    (s' : Shared P) (spin : s'.spin = s.spin) (held : s'.held = s.held) (ops : s'.ops = s.ops)
    (flight : s'.flight = s.flight) {F R : List Nat} (fds : s'.fds p = F) (refs : s'.refs p = R) :
    Agree s' p (.calm [] 0 F R []) := by
  obtain ⟨F₀, R₀, K, rfl⟩ := rest
  exact { h with
    spins := by rw [spin]; exact h.spins
    locks := by rw [held]; exact h.locks
    ops := by rw [ops]; exact h.ops
    flight := by rw [flight]; exact h.flight
    fds
    refs
    backed := fun _ held => nomatch held
    knows := fun _ known => nomatch known
    alone := fun _ known => nomatch known }

theorem Cmd.ok_await {w : Wait} {v : View} (ok : (Cmd.await w).ok v) :
    v.spins = w.lock :: v.spins.erase w.lock := by
  have head : v.spins.head? = some w.lock := by
    cases w with
    | sleeplock l =>
      cases l with
      | buf b => exact ok
      | inode i => exact ok.1
    | logSpace => exact ok
    | descriptors => exact ok
    | disk b => exact ok.1
  obtain ⟨rest, spins⟩ := List.head?_eq_some_iff.mp head
  rw [spins, List.erase_cons_head]

theorem Wait.lock_ne_itable (w : Wait) : w.lock ≠ .itable := by
  cases w <;> simp [Wait.lock]

omit [DecidableEq P] in
theorem Inv.standing_at {s : State P} {views : P → View} (h : Inv s views) {p : P} {ph : Phase}
    (at_ : s.phase p = ph) : ph.Standing (views p) := at_ ▸ h.standing p

/-- `sleep` gives up the spinlock of the loop. -/
theorem Inv.sleep {s : State P} {views : P → View} (h : Inv s views) {p : P} {w : Wait}
    {k : Unit → Code Unit} (next : s.phase p = .busy (.cmd (.await w) k)) :
    ∃ views, Inv ((s.setShared (s.shared.setSpin w.lock none)).setPhase p (.asleep w k)) views := by
  have todo := h.standing_at next
  have spins := Cmd.ok_await todo.1
  have held : s.shared.spin w.lock = some p :=
    ((h.agree p).spins _).mpr (by rw [spins]; exact .head _)
  have gave := (h.agree p).release w.lock
  rw [if_neg w.lock_ne_itable] at gave
  refine ⟨_, h.move { h.consistent with } gave (fun q ne => ?_) ?_⟩
  · refine (h.agree q).setSpin_other ?_ (by simp)
    rw [held]
    exact fun same => ne (Option.some_injective _ same).symm
  · show (Prog.cmd (.await w) k).wp rules _ { views p with spins := w.lock :: _ }
    rw [← spins]
    exact todo

/-- The way out of `sleep` takes the spinlock again. -/
theorem Inv.wake {s : State P} {views : P → View} (h : Inv s views) {p : P} {w : Wait}
    {k : Unit → Code Unit} (asleep : s.phase p = .asleep w k) (free : s.shared.spin w.lock = none) :
    ∃ views, Inv ((s.setShared (s.shared.setSpin w.lock (some p))).setPhase p
      (.busy (.cmd (.await w) k))) views := by
  refine ⟨_, h.move { h.consistent with } ((h.agree p).acquire free) (fun q ne => ?_)
    (h.standing_at asleep)⟩
  refine (h.agree q).setSpin_other (by simp [free]) ?_
  exact fun same => ne (Option.some_injective _ same).symm

/-- The parent takes over the files of the process that it reaps. -/
theorem Inv.reap {s : State P} {views : P → View} (h : Inv s views) {p z : P}
    (idle : s.phase p = .idle) (zombie : s.phase z = .zombie) :
    ∃ views, Inv (((s.setShared (s.shared.inherit p z)).setPhase z .unused).setPhase p
      (.busy (closeAll (s.shared.fds z)))) views := by
  have ne : z ≠ p := by
    rintro rfl
    exact absurd (idle.symm.trans zombie) (by simp)
  have con : Consistent (s.shared.inherit p z) := by
    refine { h.consistent with ref := fun i => ?_ }
    have old := h.consistent.ref i
    have refs := sum_count_update s.shared.refs p (s.shared.fds z ++ s.shared.refs p) i
    have fds := sum_count_update s.shared.fds z [] i
    rw [Shared.owned_eq] at old ⊢
    simp only [Shared.inherit, List.count_append, List.count_nil] at refs fds ⊢
    omega
  have agreeZ : Agree (s.shared.inherit p z) z (.calm [] 0 [] (s.shared.refs z) []) :=
    (h.agree z).atRest (h.standing_at zombie) (s.shared.inherit p z) rfl rfl rfl rfl
      (by simp [Shared.inherit]) (by simp [Shared.inherit, ne])
  have agreeP : Agree (s.shared.inherit p z) p
      (.calm [] 0 (s.shared.fds p) (s.shared.fds z ++ s.shared.refs p) []) :=
    (h.agree p).atRest (h.standing_at idle) (s.shared.inherit p z) rfl rfl rfl rfl
      (by simp [Shared.inherit, ne.symm]) (by simp [Shared.inherit])
  refine ⟨Function.update (Function.update views z (.calm [] 0 [] (s.shared.refs z) [])) p
    (.calm [] 0 (s.shared.fds p) (s.shared.fds z ++ s.shared.refs p) []), con, fun q => ?_,
    fun q => ?_⟩
  · by_cases first : q = p
    · subst first
      simpa using agreeP
    · by_cases second : q = z
      · subst second
        simpa [first] using agreeZ
      · simpa [first, second] using
          ({ h.agree q with
            fds := by simp [Shared.inherit, second, (h.agree q).fds]
            refs := by simp [Shared.inherit, first, (h.agree q).refs] } :
            Agree (s.shared.inherit p z) q (views q))
  · by_cases first : q = p
    · subst first
      rw [State.phase_setPhase, Function.update_self, Function.update_self]
      exact closeAll_wp (List.sublist_append_left _ _).subperm
    · by_cases second : q = z
      · subst second
        simpa [State.phase_setPhase, first] using ⟨_, _, _, rfl⟩
      · simpa [State.phase_setPhase, first, second] using h.standing q

/-- A new process starts with nothing. -/
theorem Inv.spawn {s : State P} {views : P → View} (h : Inv s views) {q : P} {killed : P → Bool}
    (unused : s.phase q = .unused) :
    ∃ views, Inv { (s.setShared (s.shared.fresh q)).setPhase q .idle with killed } views := by
  have con : Consistent (s.shared.fresh q) := by
    refine { h.consistent with ref := fun i => ?_ }
    have old := h.consistent.ref i
    have refs := sum_count_update s.shared.refs q [] i
    have fds := sum_count_update s.shared.fds q [] i
    rw [Shared.owned_eq] at old ⊢
    simp only [Shared.fresh, List.count_nil] at refs fds ⊢
    omega
  have own : Agree (s.shared.fresh q) q (.calm [] 0 [] [] []) :=
    (h.agree q).atRest (h.standing_at unused) (s.shared.fresh q) rfl rfl rfl rfl
      (by simp [Shared.fresh]) (by simp [Shared.fresh])
  have inv := h.move con own (fun r ne => ?_) (show Phase.idle.Standing _ from ⟨_, _, _, rfl⟩)
  · exact ⟨_, inv.consistent, inv.agree, inv.standing⟩
  · exact { h.agree r with
      fds := by simp [Shared.fresh, ne, (h.agree r).fds]
      refs := by simp [Shared.fresh, ne, (h.agree r).refs] }

/-- A new process may start with a working directory of its own. -/
theorem Inv.spawnCwd {s : State P} {views : P → View} (h : Inv s views) {q : P} {i : Nat}
    {killed : P → Bool} (unused : s.phase q = .unused) (free : s.shared.spin .itable = none) :
    ∃ views, Inv { (s.setShared ((s.shared.fresh q).giveCwd q i)).setPhase q .idle with killed }
      views := by
  have con : Consistent ((s.shared.fresh q).giveCwd q i) := by
    refine { h.consistent with ref := fun j => ?_ }
    have old := h.consistent.ref j
    have refs := sum_count_update s.shared.refs q [i] j
    have fds := sum_count_update s.shared.fds q [] j
    rw [Shared.owned_eq] at old ⊢
    simp only [Shared.fresh, Shared.giveCwd, Function.update_idem, List.count_nil,
      Function.update_apply] at refs fds ⊢
    by_cases same : j = i
    · simp [same] at *
      omega
    · simp [same, Ne.symm same] at *
      omega
  have own : Agree ((s.shared.fresh q).giveCwd q i) q (.calm [] 0 [] [i] []) :=
    (h.agree q).atRest (h.standing_at unused) ((s.shared.fresh q).giveCwd q i) rfl rfl rfl rfl
      (by simp [Shared.fresh, Shared.giveCwd]) (by simp [Shared.giveCwd])
  have inv := h.move con own (fun r ne => ?_) (show Phase.idle.Standing _ from ⟨_, _, _, rfl⟩)
  · exact ⟨_, inv.consistent, inv.agree, inv.standing⟩
  · refine { h.agree r with
      fds := by simp [Shared.fresh, Shared.giveCwd, ne, (h.agree r).fds]
      refs := by simp [Shared.fresh, Shared.giveCwd, ne, (h.agree r).refs]
      alone := fun j known => ?_ }
    have held := ((h.agree r).spins .itable).mpr ((h.agree r).alone j known).1
    exact absurd (free.symm.trans held) (by simp)

/-- Every step of an undisturbed run keeps the invariant. -/
theorem Inv.step {s t : State P} {e : Event P} {views : P → View} (h : Inv s views)
    (calm : Undisturbed s e) (step : Step s e t) : ∃ views, Inv t views := by
  cases step with
  | @call p c idle has =>
    obtain ⟨F, R, K, rest⟩ := h.standing_at idle
    have agree := h.agree p
    rw [rest] at agree
    have fds : s.shared.fds p = F := agree.fds
    have refs : s.shared.refs p = R := agree.refs
    refine ⟨_, h.move h.consistent (h.agree p) (fun q _ => h.agree q) ?_⟩
    rw [rest]
    exact c.code_wp (refs ▸ has) fun rdonly isOpen => fds ▸ calm.2 p rdonly (isOpen ▸ rfl)
  | @cmd p c k r next answer =>
    have todo := h.standing_at next
    have agree := h.agree p
    refine ⟨_, h.move (h.consistent.effect agree todo.1 answer)
      (agree.effect h.consistent todo.1 answer) (fun q ne => ?_) (todo.2 r (agree.can answer))⟩
    exact agree.effect_other (h.agree q) ne h.consistent todo.1 answer
  | sleep next blocked => exact h.sleep next
  | wake asleep free alive => exact h.wake asleep free
  | @wakeKilled p w k asleep free dead => exact absurd dead (by simp [calm.1 p (.inl rfl)])
  | @yieldKilled p code busy dead => exact absurd dead (by simp [calm.1 p (.inr rfl)])
  | @ret p next =>
    have rest : (views p).AtRest := h.standing_at next
    exact ⟨_, h.move h.consistent (h.agree p) (fun q _ => h.agree q) rest⟩
  | kill p => exact ⟨views, h.consistent, h.agree, h.standing⟩
  | @exit p idle =>
    have rest : (views p).AtRest := h.standing_at idle
    exact ⟨_, h.move h.consistent (h.agree p) (fun q _ => h.agree q) rest⟩
  | reap idle zombie => exact h.reap idle zombie
  | spawn idle unused => exact h.spawn unused
  | spawnCwd idle unused cwd free => exact h.spawnCwd unused free
  | disk b =>
    refine ⟨views, { h.consistent with }, fun p => { h.agree p with flight := fun b' mine => ?_ },
      h.standing⟩
    by_cases same : b' = b
    · simp [same] at mine
    · exact (h.agree p).flight b' (by simpa [same] using mine)

end Runs

end Xv6Lab.Conc

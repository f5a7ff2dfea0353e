import Xv6Lab.Vm.History

/-! The process table over whole runs, from the creation of the first process on: who has which
number and which pages, who runs, and whom `kill_proc` marks. -/

namespace Xv6Lab.Vm

open Rv64 Exec Relation

/-! ### `kill_proc` and `get_proc` -/

/-- `kill_proc` -/
def killProc (s : Kernel) (pid : Int) : Kernel :=
  match (List.finRange 32).find? fun p => (s.procs p).pid = pid with
  | some p => s.setProc p { s.procs p with killed := true }
  | none => s

/-- `get_proc` -/
def getProc (s : Kernel) (pid : Int) : Option Slot :=
  if pid < 0 ∨ 32 ≤ pid then none
  else (List.finRange 32).find? fun p => (s.procs p).state ≠ .unused ∧ (s.procs p).pid = pid

/-- What `init_proc` and `free_proc` leave of a slot. -/
structure Cleared (proc : Proc) : Prop where
  pid : proc.pid = 0
  trapframe : proc.trapframe = 0
  kstack : proc.kstack = 0
  pagetable : proc.pagetable = 0
  parent : proc.parent = none

/-- The process table between the calls. -/
structure Table (s : Kernel) : Prop where
  pid : ∀ p, s.live p → (s.procs p).pid = p.val
  empty : ∀ p, ¬ s.live p → Cleared (s.procs p)
  running : ∀ p, (s.procs p).state = .running → s.current = some p
  first : s.live 0
  alone : (s.procs 0).parent = none
  lasting : (s.procs 0).state ≠ .zombie

variable {s t u : Kernel} {o : Owners} {p q z c : Slot} {pg pt : Word} {a : Act}

/-! ### `free_proc` -/

def Any : Halt → Kernel → Prop := fun _ _ => True

theorem freePage_procs : wp (freePage pg) (fun _ t => t.procs = s.procs) Any s := by
  unfold freePage
  simp only [wp_bind, wp_get]
  split
  · exact trivial
  · rfl

theorem freePagetable_procs (depth : Nat) :
    wp (freePagetable depth pt) (fun _ t => t.procs = s.procs) Any s := by
  induction depth generalizing pt s with
  | zero => exact trivial
  | succ depth ih =>
    unfold freePagetable
    rw [wp_bind]
    refine wp_conseq (wp_forM (fun _ t => t.procs = s.procs) (fun i rest t same => ?_) indices rfl)
      fun _ t same => wp_conseq freePage_procs fun _ u kept => kept.trans same
    simp only [wp_bind, wp_get]
    split
    · rw [wp_bind]
      exact wp_conseq ih fun _ u kept => kept.trans same
    · split
      · exact same
      · exact same

theorem updProc_wp {Q : Unit → Kernel → Prop} (f : Proc → Proc)
    (h : Q () (s.setProc p (f (s.procs p)))) : wp (updProc p f) Q Any s := h

/-- `free_proc` clears the slot. -/
theorem freeProc_cleared : wp (freeProc z) (fun _ t => Cleared (t.procs z)) Any s := by
  have one : wp (freeTrapframe z) (fun _ t => (t.procs z).trapframe = 0) Any s := by
    unfold freeTrapframe
    simp only [wp_bind, wp_get]
    split
    · rw [wp_bind]
      exact wp_conseq freePage_procs fun _ t _ => updProc_wp _ (by simp)
    · exact updProc_wp _ (by simp)
  have two : ∀ t : Kernel, (t.procs z).trapframe = 0 → wp (freeTable z) (fun _ u =>
      (u.procs z).trapframe = 0 ∧ (u.procs z).pagetable = 0) Any t := by
    intro t none
    unfold freeTable
    simp only [wp_bind, wp_get]
    split
    · rw [wp_bind]
      refine wp_conseq (freePagetable_procs levels) fun _ u kept => updProc_wp _ ?_
      rw [← kept] at none
      simp [none]
    · exact updProc_wp _ (by simp [none])
  have three : ∀ t : Kernel, (t.procs z).trapframe = 0 ∧ (t.procs z).pagetable = 0 →
      wp (freeStack z) (fun _ u => (u.procs z).trapframe = 0 ∧ (u.procs z).pagetable = 0 ∧
        (u.procs z).kstack = 0) Any t := by
    rintro t ⟨none, none'⟩
    unfold freeStack
    simp only [wp_bind, wp_get]
    split
    · rw [wp_bind]
      refine wp_conseq freePage_procs fun _ u kept => updProc_wp _ ?_
      rw [← kept] at none none'
      simp [none, none']
    · exact updProc_wp _ (by simp [none, none'])
  unfold freeProc
  rw [wp_bind]
  refine wp_conseq one fun _ t first => ?_
  rw [wp_bind]
  refine wp_conseq (two t first) fun _ u second => ?_
  rw [wp_bind]
  refine wp_conseq (three u second) fun _ w ⟨trapframe, pagetable, kstack⟩ => updProc_wp _ ?_
  refine ⟨?_, ?_, ?_, ?_, ?_⟩ <;> simp [trapframe, pagetable, kstack]

theorem reapZombie_cleared : wp (reapZombie p) (fun _ t => ∀ z, s.zombieChild p = some z →
    Cleared (t.procs z)) Any s := by
  unfold reapZombie
  simp only [wp_bind, wp_get]
  split
  · next none =>
    intro z found
    rw [none] at found
    cases found
  · next z found =>
    rw [wp_bind]
    refine wp_conseq freeProc_cleared fun _ t cleared z' found' => ?_
    rw [found] at found'
    obtain rfl := Option.some.inj found'
    exact cleared

/-! ### Steps -/

/-- A step that leaves every process at its stage, and changes who runs as it says. -/
theorem Table.same (h : Table s) (same : ∀ p, SameLife (t.procs p) (s.procs p))
    (running : ∀ p, (t.procs p).state = .running → t.current = some p)
    : Table t := by
  have live : ∀ p, t.live p ↔ s.live p := fun p => not_congr (same p).unused
  refine ⟨fun p is => ?_, fun p dead => ?_, running, (live 0).mpr h.first, ?_, fun zombie => ?_⟩
  · rw [(same p).pid]
    exact h.pid p ((live p).mp is)
  · obtain ⟨pid, trapframe, kstack, pagetable, parent⟩ := h.empty p fun is => dead ((live p).mpr is)
    exact ⟨(same p).pid.trans pid, (same p).trapframe.trans trapframe,
      (same p).kstack.trans kstack, (same p).pagetable.trans pagetable,
      (same p).parent.trans parent⟩
  · rw [(same 0).parent]
    exact h.alone
  · exact h.lasting ((same 0).zombie.mp zombie)

/-- One slot other than the first changes. -/
theorem Table.change (h : Table s) (apart : c ≠ 0) (others : ∀ q ≠ c, t.procs q = s.procs q)
    (pid : t.live c → (t.procs c).pid = c.val) (empty : ¬ t.live c → Cleared (t.procs c))
    (running : ∀ q, (t.procs q).state = .running → t.current = some q) : Table t := by
  have first : t.procs 0 = s.procs 0 := others 0 apart.symm
  refine ⟨fun q is => ?_, fun q dead => ?_, running, ?_, ?_, ?_⟩
  · by_cases here : q = c
    · subst here
      exact pid is
    · unfold Kernel.live at is
      rw [others q here] at is ⊢
      exact h.pid q is
  · by_cases here : q = c
    · subst here
      exact empty dead
    · unfold Kernel.live at dead
      rw [others q here] at dead ⊢
      exact h.empty q dead
  · unfold Kernel.live
    rw [first]
    exact h.first
  · rw [first]
    exact h.alone
  · rw [first]
    exact h.lasting

/-- A new process has a slot that was not in use. -/
theorem Table.chosen (h : Table s) (spawned : Spawned c s t) : c ≠ 0 := by
  rintro rfl
  have unused : (s.procs 0).state = .unused := by simpa using List.find?_some spawned.chosen
  exact h.first unused

theorem Table.spawned (h : Table s) (spawned : Spawned c s t) : Table t := by
  refine h.change (h.chosen spawned) spawned.others (fun _ => spawned.pid) (fun dead => ?_)
    fun q is => ?_
  · exact absurd (by simp [Kernel.live, spawned.runnable]) dead
  · by_cases new : q = c
    · rw [new, spawned.runnable] at is
      cases is
    · rw [spawned.others q new] at is
      rw [spawned.current]
      exact h.running q is

theorem Table.exited (h : Table s) (cur : s.current = some p) (child : (s.procs p).parent ≠ none)
    (status : Int) (used : s.live p) : Table (s.exited p status) := by
  have self : (s.exited p status).procs p = { s.procs p with exitStatus := status, state := .zombie } :=
    Function.update_self ..
  have others : ∀ q ≠ p, (s.exited p status).procs q = s.procs q :=
    fun q other => Function.update_of_ne other ..
  refine h.change ?_ others (fun _ => ?_) (fun dead => ?_) fun q is => ?_
  · rintro rfl
    exact child h.alone
  · rw [self]
    exact h.pid p used
  · exact absurd (by simp [Kernel.live, self]) dead
  · by_cases here : q = p
    · rw [here, self] at is
      cases is
    · rw [others q here] at is
      exact absurd (Option.some.inj (cur.symm.trans (h.running q is))).symm here

theorem Table.vanished (h : Table s) (zombie : (s.procs z).state = .zombie) (gone : Vanished z s t)
    (cleared : Cleared (t.procs z)) : Table t := by
  refine h.change ?_ gone.others (fun is => absurd gone.unused is) (fun _ => cleared) fun q is => ?_
  · rintro rfl
    exact h.lasting zombie
  · by_cases here : q = z
    · rw [here, gone.unused] at is
      cases is
    · rw [gone.others q here] at is
      rw [gone.current]
      exact h.running q is

/-- A step that assigns to one slot, and changes who runs as it says. -/
theorem Table.assign (h : Table s) {proc : Proc} {current : Option Slot}
    (same : SameLife proc (s.procs p)) (here : proc.state = .running → current = some p)
    (others : ∀ q ≠ p, (s.procs q).state = .running → current = some q) :
    Table { s.setProc p proc with current := current } := by
  refine h.same (SameLife.assign same) fun q is => ?_
  by_cases this : q = p
  · rw [this]
    rw [this, setProc_procs, Function.update_self] at is
    exact here is
  · rw [setProc_procs, Function.update_of_ne this] at is
    exact others q this is

/-- Every step keeps the table in order. -/
theorem Table.step (h : Table s) (inv : Inv s o) (act : Acts a s t) : Table t := by
  have effect := act.effect inv
  have alone : ∀ {p q}, s.current = some p → q ≠ p → (s.procs q).state ≠ .running := by
    intro p q cur other is
    exact other (Option.some.inj ((h.running q is).symm.trans cur))
  cases act with
  | createKernelProc entry r run =>
    rcases wp_ok (createKernelProc_wp inv entry) run with ⟨-, rfl⟩ | ⟨c, -, o', created, -⟩
    · exact h
    · exact h.spawned created.spawned
  | createUserProc bin size fits usertrap kernelvec r run =>
    rcases wp_ok (createUserProc_wp inv bin fits usertrap kernelvec) run with
      ⟨-, rfl⟩ | ⟨c, -, o', created⟩
    · exact h
    · exact h.spawned created.spawned
  | fork p cur user r child run =>
    rcases (wp_ok (sysFork_wp inv cur user) run).2 with ⟨same, current⟩ | ⟨c, spawned⟩
    · refine h.same (fun p => ?_) fun p is => ?_
      · rw [same]
        exact .refl _
      · rw [same] at is
        rw [current]
        exact h.running p is
    · exact h.spawned spawned
  | exit p cur status run =>
    have spec := exitProc_wp (α := Unit) (s := s) status
    obtain ⟨q, cur', child, rfl⟩ := wp_error spec run rfl
    exact h.exited cur' child status (by simp [Kernel.live, inv.current q cur'])
  | wait p cur r run =>
    have cleared := wp_ok reapZombie_cleared run
    cases r with
    | none =>
      rw [show t = s from effect]
      exact h
    | some r =>
      obtain ⟨-, z, found, -, -, gone⟩ := effect
      have zombie : (s.procs z).state = .zombie ∧ (s.procs z).parent = some p := by
        simpa using List.find?_some found
      exact h.vanished zombie.1 gone (cleared z found)
  | pageFault va type r run =>
    obtain ⟨o', repaired⟩ := wp_ok (handlePageFault_wp inv va type) run
    refine h.same effect fun p is => ?_
    rw [repaired.procs] at is
    rw [repaired.current]
    exact h.running p is
  | dispatch p idle ready =>
    refine h.assign ⟨⟨by simp [ready], rfl, rfl, rfl, rfl, rfl⟩, by simp [ready], rfl, rfl, rfl⟩
      (fun _ => rfl) fun q _ is => ?_
    have running := h.running q is
    rw [idle] at running
    cases running
  | yield p cur =>
    have running := inv.current p cur
    exact h.assign ⟨⟨by simp [running], rfl, rfl, rfl, rfl, rfl⟩, by simp [running], rfl, rfl, rfl⟩
      (fun is => by cases is) fun q other is => absurd is (alone cur other)
  | sleep p cur =>
    have running := inv.current p cur
    exact h.assign ⟨⟨by simp [running], rfl, rfl, rfl, rfl, rfl⟩, by simp [running], rfl, rfl, rfl⟩
      (fun is => by cases is) fun q other is => absurd is (alone cur other)
  | wakeup p asleep =>
    exact h.assign ⟨⟨by simp [asleep], rfl, rfl, rfl, rfl, rfl⟩, by simp [asleep], rfl, rfl, rfl⟩
      (fun is => by cases is) fun q _ is => h.running q is
  | kill p =>
    exact h.assign ⟨⟨.rfl, rfl, rfl, rfl, rfl, rfl⟩, .rfl, rfl, rfl, rfl⟩ (h.running p)
      fun q _ is => h.running q is
  | trapframe p cur f user v => exact h.same effect h.running
  | store p cur user va off v pte found valid mine => exact h.same effect h.running

/-! ### `kill_proc` -/

theorem find_unique {test : Slot → Bool} {p : Slot} (here : test p = true)
    (only : ∀ q, test q = true → q = p) : (List.finRange 32).find? test = some p := by
  cases found : (List.finRange 32).find? test with
  | none => exact absurd here (List.find?_eq_none.mp found p (List.mem_finRange p))
  | some q => rw [only q (List.find?_some found)]

/-- `kill_proc` marks the process that `get_proc` finds, or nobody. -/
theorem Table.kill (h : Table s) {pid : Int} (positive : 1 ≤ pid) : killProc s pid =
    match getProc s pid with
    | some p => s.setProc p { s.procs p with killed := true }
    | none => s := by
  have only : ∀ p, (s.procs p).pid = pid → s.live p ∧ (p.val : Int) = pid := by
    intro p is
    have live : s.live p := by
      by_contra dead
      have zero := (h.empty p dead).pid
      omega
    exact ⟨live, (h.pid p live).symm.trans is⟩
  by_cases exists' : ∃ p, (s.procs p).pid = pid
  · obtain ⟨p, is⟩ := exists'
    obtain ⟨live, number⟩ := only p is
    have same : ∀ q, (s.procs q).pid = pid → q = p := by
      intro q is'
      have := (only q is').2
      exact Fin.ext (by omega)
    have first : (List.finRange 32).find? (fun q => decide ((s.procs q).pid = pid)) = some p :=
      find_unique (decide_eq_true is) fun q test => same q (of_decide_eq_true test)
    have second : getProc s pid = some p := by
      unfold getProc
      have bound := p.isLt
      rw [if_neg (by omega)]
      exact find_unique (decide_eq_true ⟨live, is⟩) fun q test => same q (of_decide_eq_true test).2
    unfold killProc
    rw [first, second]
  · have nobody : ∀ p, (s.procs p).pid ≠ pid := fun p is => exists' ⟨p, is⟩
    have first : (List.finRange 32).find? (fun q => decide ((s.procs q).pid = pid)) = none := by
      simp [nobody]
    have second : getProc s pid = none := by
      unfold getProc
      split
      · rfl
      · simp [nobody]
    unfold killProc
    rw [first, second]

/-! ### Runs -/

/-- The first process has just been created, in a table that `init_proc` has cleared. -/
def Started (s : Kernel) : Prop :=
  ∃ s₀ entry, Booted s₀ ∧ (∀ p, Cleared (s₀.procs p)) ∧ createKernelProc entry s₀ = .ok 0 s

theorem Started.table (h : Started s) : Table s := by
  obtain ⟨s₀, entry, booted, cleared, run⟩ := h
  obtain ⟨o, inv⟩ := booted.inv
  rcases wp_ok (createKernelProc_wp inv entry) run with ⟨failed, -⟩ | ⟨c, is, o', created, -⟩
  · cases failed
  obtain rfl : c = 0 := Fin.ext (show c.val = 0 by omega)
  have spawned := created.spawned
  have others := spawned.others
  refine ⟨fun p is => ?_, fun p dead => ?_, fun p is => ?_, ?_, ?_, ?_⟩
  · by_cases first : p = 0
    · exact first ▸ spawned.pid
    · unfold Kernel.live at is
      rw [others p first] at is
      exact absurd (booted.unused p) is
  · by_cases first : p = 0
    · subst first
      exact absurd (by simp [Kernel.live, spawned.runnable]) dead
    · rw [others p first]
      exact cleared p
  · by_cases first : p = 0
    · rw [first, spawned.runnable] at is
      cases is
    · rw [others p first, booted.unused p] at is
      cases is
  · simp [Kernel.live, spawned.runnable]
  · rw [spawned.parent, booted.current]
  · rw [spawned.runnable]
    simp

theorem Started.reachable (h : Started s) : Reachable s := by
  obtain ⟨s₀, entry, booted, -, run⟩ := h
  exact ⟨s₀, booted, .single (.createKernelProc entry (.inl ⟨_, run⟩))⟩

/-- The table is in order in every state of a run. -/
theorem Table.run (start : Started s) (run : ReflTransGen Step s t) :
    Table t ∧ ∃ o, Inv t o := by
  refine Transition.invariant (I := fun t => Table t ∧ ∃ o, Inv t o) (fun t u ⟨table, o, inv⟩ step => ?_)
    ⟨start.table, start.reachable.inv⟩ run
  obtain ⟨a, act⟩ := inv.acts step
  exact ⟨table.step inv act, (inv.step step).imp fun _ next => next.inv⟩

/-- The result of a call that creates a process. -/
def Act.pid : Act → Option Int
  | .createKernelProc r | .createUserProc r | .fork _ r => some r
  | _ => none

/-- The pages that the process table hands out. -/
structure Pages (s : Kernel) (l : List Word) : Prop where
  nonzero : ∀ p, s.live p →
    (s.procs p).trapframe ≠ 0 ∧ (s.procs p).kstack ≠ 0 ∧ (s.procs p).pagetable ≠ 0
  trapframes : ∀ p q, s.live p → s.live q → (s.procs p).trapframe = (s.procs q).trapframe → p = q
  kstacks : ∀ p q, s.live p → s.live q → (s.procs p).kstack = (s.procs q).kstack → p = q
  apart : ∀ p q, s.live p → s.live q → (s.procs p).trapframe ≠ (s.procs q).kstack
  taken : ∀ p, s.live p → (s.procs p).trapframe ∉ l ∧ (s.procs p).kstack ∉ l

theorem Inv.pages (inv : Inv s o) : ∃ l, Chain s.mem s.freelist l ∧ Pages s l := by
  obtain ⟨l, chain, -, members⟩ := inv.owns.free
  have trapframe : ∀ p, s.live p → o (s.procs p).trapframe = .trapframe (some p) :=
    fun p live => (inv.alive p live).trapframe
  have kstack : ∀ p, s.live p → o (s.procs p).kstack = .kstack (some p) :=
    fun p live => (inv.alive p live).kstack
  refine ⟨l, chain, fun p live => ⟨?_, ?_, ?_⟩, fun p q hp hq same => ?_, fun p q hp hq same => ?_,
    fun p q hp hq same => ?_, fun p live => ⟨fun inside => ?_, fun inside => ?_⟩⟩
  · exact inv.owns.ne_zero (by simp [trapframe p live])
  · exact inv.owns.ne_zero (by simp [kstack p live])
  · cases user : (s.procs p).isUser with
    | false =>
      rw [(inv.alive p live).kernel user]
      exact inv.owns.ne_zero (by simp [inv.kernelRoot])
    | true => exact inv.owns.ne_zero (by simp [((inv.alive p live).user user).space.root])
  · have owner := trapframe p hp
    rw [same, trapframe q hq] at owner
    injection owner with holder
    exact (Option.some.inj holder).symm
  · have owner := kstack p hp
    rw [same, kstack q hq] at owner
    injection owner with holder
    exact (Option.some.inj holder).symm
  · have owner := trapframe p hp
    rw [same, kstack q hq] at owner
    cases owner
  · have owner := (members _).mp inside
    rw [trapframe p live] at owner
    cases owner
  · have owner := (members _).mp inside
    rw [kstack p live] at owner
    cases owner

/-- The process table in every state of a run after the creation of the first process. -/
theorem process_table (start : Started s) (run : ReflTransGen Step s t) :
    Table t ∧ (∃ l, Chain t.mem t.freelist l ∧ Pages t l) ∧
    (∀ a u r, Acts a t u → a.pid = some r → r = -1 ∨ 1 ≤ r) ∧
    ∀ pid : Int, 1 ≤ pid → killProc t pid =
      match getProc t pid with
      | some p => t.setProc p { t.procs p with killed := true }
      | none => t := by
  obtain ⟨table, o, inv⟩ := Table.run start run
  refine ⟨table, inv.pages, fun a u r act is => ?_, fun pid positive => table.kill positive⟩
  have born : Born r t u := by
    have effect := act.effect inv
    cases a <;> simp only [Act.pid, Option.some.injEq, reduceCtorEq] at is
    all_goals
      subst is
      exact effect
  rcases born with ⟨failed, -⟩ | ⟨c, is, spawned⟩
  · exact .inl failed
  · have apart := table.chosen spawned
    have positive : c.val ≠ 0 := fun zero => apart (Fin.ext zero)
    omega

theorem sampleBoot_starts : ∃ t, createKernelProc 0x80001000 sampleBoot = .ok 0 t := by
  have returned : value (createKernelProc 0x80001000) sampleBoot = some 0 := by decide +kernel
  exact ⟨_, run_of_value returned⟩

/-- The first process of a small machine. -/
theorem process_table_started : ∃ t, createKernelProc 0x80001000 sampleBoot = .ok 0 t ∧ Table t := by
  obtain ⟨t, run⟩ := sampleBoot_starts
  exact ⟨t, run, (process_table ⟨sampleBoot, 0x80001000, sampleBoot_booted,
    fun _ => ⟨rfl, rfl, rfl, rfl, rfl⟩, run⟩ .refl).1⟩

end Xv6Lab.Vm

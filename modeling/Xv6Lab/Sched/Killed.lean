import Xv6Lab.Sched.Machine

/-! Killed processes.  A process that is killed by another is not running; it has called `yield` or
`sleep` or has not started, and each of these tests its flag when it goes on.  `usertrap` does not,
so that a process that kills itself goes back to user mode. -/

namespace Xv6Lab.Sched

open Vm (Slot ProcState)
open Instr

/-- The step in which process `p` executes `userret`. -/
def Returns (p : Slot) (m : Machine) (a : Action) : Prop :=
  a = .exec ∧ m.mode = .supervisor ∧ m.current = some p ∧ ∃ rest, m.code = userret :: rest

/-- The step in which `kill_proc` sets the flag of the process that calls it. -/
def KillsItself (m : Machine) (a : Action) : Prop :=
  a = .exec ∧ m.mode = .supervisor ∧ ∃ pid rest p, m.code = Instr.kill pid :: rest ∧
    m.target pid = some p ∧ m.current = some p

/-- The step in which `alloc_proc` takes slot `p` for a new process. -/
def Allocates (p : Slot) (m : Machine) (a : Action) : Prop :=
  a = .exec ∧ m.mode = .supervisor ∧ m.unused = some p ∧
    ∃ isUser entry ending rest, m.code = Instr.create isUser entry ending :: rest

/-! ### The test -/

/-- Started with `cur` as the current process, which `alive` says has not been killed, the code
executes `userret` and installs `uservec` only where its process has been tested since it was last
switched out. -/
def tested : Option Slot → Bool → List Instr → Prop
  | _, _, [] => True
  | cur, alive, userret :: _ => cur.isSome = true ∧ alive = true
  | cur, alive, wStvec .uservec :: rest => cur.isSome = true ∧ alive = true ∧ rest = [userret]
  | cur, _, testKilled p :: rest => cur = some p ∧ tested cur true rest
  | _, _, clearCurrent :: rest => tested none false rest
  | _, _, setCurrent p :: rest => tested (some p) false rest
  | _, _, swtchOut p :: rest => tested (some p) false rest
  | cur, _, swtchIn p :: rest => cur = some p ∧ ∀ cur, tested cur false rest
  | _, _, exit :: _ | _, _, halt :: _ | _, _, forkret :: _ => True
  | cur, alive, _ :: rest => tested cur alive rest

theorem tested_alive {cur : Option Slot} {code : List Instr} (alive : Bool)
    (passes : tested cur alive code) : tested cur true code := by
  induction code generalizing cur alive with
  | nil => trivial
  | cons i rest ih =>
    cases i with
    | userret => exact ⟨passes.1, rfl⟩
    | wStvec vec =>
      cases vec with
      | uservec => exact ⟨passes.1, rfl, passes.2.2⟩
      | kernelvec => exact ih alive passes
    | testKilled | clearCurrent | setCurrent | swtchOut | swtchIn | exit | halt | forkret =>
      exact passes
    | _ => exact ih alive passes

theorem tested_call {cur : Option Slot} {alive : Bool} {rest : List Instr} (call : Call)
    (passes : tested cur alive rest) : tested cur alive (call.code ++ rest) := by
  cases call with
  | exit => trivial
  | _ => exact passes

theorem tested_codes {cur : Option Slot} {alive : Bool} {rest : List Instr} (calls : List Call)
    (passes : tested cur alive rest) : tested cur alive (codes calls ++ rest) := by
  induction calls with
  | nil => exact passes
  | cons call calls ih =>
    rw [codes, List.flatMap_cons, List.append_assoc]
    exact tested_call call ih

theorem tested_externalCode {cur : Option Slot} {alive : Bool} {rest : List Instr} (i : Interrupt)
    (passes : tested cur alive rest) : tested cur alive (externalCode i ++ rest) := by
  cases i with
  | timer | other => exact passes
  | disk chans =>
    have wakes : tested cur alive (chans.flatMap wakeupCode ++ intrOn :: rest) := by
      induction chans with
      | nil => exact passes
      | cons chan chans ih =>
        rw [List.flatMap_cons, List.append_assoc]
        exact ih
    rw [externalCode, List.cons_append, List.cons_append, List.append_assoc]
    exact wakes

theorem tested_kerneltrapCode {cur : Option Slot} {alive : Bool} {rest : List Instr}
    (i : Interrupt) (passes : tested cur alive rest) :
    tested cur alive (kerneltrapCode i ++ rest) := by
  cases i with
  | timer => exact passes
  | disk chans => exact tested_externalCode (.disk chans) passes
  | other => exact passes

/-- A process that has not been killed may go through `usertrap`. -/
theorem tested_usertrapCode (p : Slot) (cause : Cause) :
    tested (some p) true (usertrapCode cause) := by
  have back : tested (some p) true usertrapretCode := ⟨rfl, rfl, rfl⟩
  show tested (some p) true (causeCode cause ++ usertrapretCode)
  cases cause with
  | interrupt i => exact tested_externalCode i back
  | exception handler => exact tested_codes handler back
  | syscall call =>
    cases call with
    | file calls => exact tested_codes calls back
    | exit => trivial
    | _ => exact back

theorem tested_waitTurn {cur : Option Slot} {alive : Bool} {rest : List Instr} (m : Machine)
    (p : Slot) (closing : List Call) (passes : tested cur alive rest) :
    tested cur alive (waitTurn m p closing ++ rest) := by
  unfold waitTurn
  split
  · rw [List.cons_append, List.cons_append, List.append_assoc]
    exact tested_codes closing passes
  · split
    · exact passes
    · exact passes

theorem tested_shutdownCode {cur : Option Slot} {alive : Bool} (commit sync : List Call) :
    tested cur alive (shutdownCode commit sync) := by
  have last : tested cur alive (codes sync ++ [halt]) := tested_codes sync trivial
  have all : tested cur alive (codes commit ++ intrOff :: (codes sync ++ [halt])) :=
    tested_codes commit last
  simpa [shutdownCode, tested] using all

/-! ### The invariant -/

/-- The current process, if there is one, has not been killed. -/
def Machine.alive (m : Machine) : Prop := ∀ p, m.current = some p → (m.procs p).killed = false

/-- Nobody goes back to user mode untested. -/
structure Tested (m : Machine) : Prop where
  code : m.mode = .supervisor → ∃ alive, tested m.current alive m.code ∧ (alive = true → m.alive)
  context : ∀ p, tested (some p) false (m.procs p).context
  cpuContext : ∀ cur, tested cur false m.cpuContext
  user : m.mode = .user → m.current.isSome = true ∧ m.alive
  vec : m.mode = .supervisor → m.stvec = .uservec → (m.current.isSome = true ∧ m.alive) ∧
    (m.code = [userret] ∨ ∃ rest, m.code = wStvec .kernelvec :: rest)

/-- The kernel goes on with code that is tested, and with `kernelvec` installed. -/
theorem Tested.goes {m t : Machine} (ok : Tested m) (supervisor : t.mode = .supervisor)
    (vec : t.stvec = .kernelvec) (alive : Bool) (code : tested t.current alive t.code)
    (known : alive = true → t.alive)
    (context : ∀ p, (t.procs p).context = (m.procs p).context ∨
      tested (some p) false (t.procs p).context)
    (cpuContext : t.cpuContext = m.cpuContext ∨ ∀ cur, tested cur false t.cpuContext) :
    Tested t where
  code _ := ⟨alive, code, known⟩
  context p := by
    rcases context p with same | passes
    · rw [same]
      exact ok.context p
    · exact passes
  cpuContext := by
    rcases cpuContext with same | passes
    · rw [same]
      exact ok.cpuContext
    · exact passes
  user user := by
    rw [supervisor] at user
    cases user
  vec _ uservec := by
    rw [vec] at uservec
    cases uservec

/-- A change of one slot's fields. -/
theorem Tested.setProc {m : Machine} (ok : Tested m) (supervisor : m.mode = .supervisor)
    (vec : m.stvec = .kernelvec) {p : Slot} {proc : Proc}
    (context : tested (some p) false proc.context)
    (killed : m.current = some p → proc.killed = true → (m.procs p).killed = true) :
    Tested (m.setProc p proc) := by
  obtain ⟨alive, code, known⟩ := ok.code supervisor
  refine ok.goes supervisor vec alive code (fun is q cur => ?_) (fun q => ?_) (.inl rfl)
  · show (Function.update m.procs p proc q).killed = false
    have before := known is q cur
    by_cases same : q = p
    · subst same
      rw [Function.update_self]
      by_contra now
      rw [killed cur (by simpa using now)] at before
      cases before
    · rw [Function.update_of_ne same]
      exact before
  · show (Function.update m.procs p proc q).context = _ ∨ _
    by_cases same : q = p
    · subst same
      refine .inr ?_
      show tested (some q) false (Function.update m.procs q proc q).context
      rw [Function.update_self]
      exact context
    · exact .inl (by rw [Function.update_of_ne same])

theorem Tested.userret {m : Machine} {rest : List Instr} (ok : Tested m)
    (supervisor : m.mode = .supervisor) (next : m.code = Instr.userret :: rest) :
    Tested (exec { m with code := rest } Instr.userret) := by
  obtain ⟨alive, passes, known⟩ := ok.code supervisor
  rw [next] at passes
  exact ⟨nofun, ok.context, ok.cpuContext, fun _ => ⟨passes.1, known passes.2⟩, nofun⟩

theorem Tested.kernelvec {m : Machine} {rest : List Instr} (ok : Tested m)
    (supervisor : m.mode = .supervisor) (next : m.code = wStvec .kernelvec :: rest) :
    Tested (exec { m with code := rest } (wStvec .kernelvec)) := by
  obtain ⟨alive, passes, known⟩ := ok.code supervisor
  rw [next] at passes
  exact ok.goes supervisor rfl alive passes known (fun _ => .inl rfl) (.inl rfl)

/-- An instruction with `kernelvec` installed. -/
theorem Tested.instr {m : Machine} {i : Instr} {rest : List Instr} (ok : Tested m)
    (supervisor : m.mode = .supervisor) (vec : m.stvec = .kernelvec) (next : m.code = i :: rest)
    (others : ¬ KillsItself m .exec) : Tested (exec { m with code := rest } i) := by
  obtain ⟨alive, passes, known⟩ := ok.code supervisor
  rw [next] at passes
  have here : ∀ (sie alive : Bool) (code : List Instr), tested m.current alive code →
      (alive = true → m.alive) → Tested { m with sie, code } :=
    fun _ _ _ passes known =>
      ok.goes supervisor vec _ passes known (fun _ => .inl rfl) (.inl rfl)
  have halts : Tested { m with code := [halt] } := here m.sie false [halt] trivial nofun
  have stay : tested m.current alive rest → Tested { m with code := rest } :=
    fun passes => here m.sie alive rest passes known
  cases i with
  | userret => exact ok.userret supervisor next
  | wStvec vec' =>
    cases vec' with
    | kernelvec => exact ok.kernelvec supervisor next
    | uservec =>
      obtain ⟨one, is, rfl⟩ := passes
      refine ⟨fun _ => ⟨true, ⟨one, rfl⟩, fun _ => known is⟩, ok.context, ok.cpuContext,
        fun user => ?_, fun _ _ => ⟨⟨one, known is⟩, .inl rfl⟩⟩
      rw [show m.mode = .user from user] at supervisor
      cases supervisor
  | intrOn | intrOff | sret => exact here _ alive rest passes known
  | setCurrent | clearCurrent =>
    exact ok.goes supervisor vec false passes nofun (fun _ => .inl rfl) (.inl rfl)
  | setState p | setChan p | setParent p =>
    exact (stay passes).setProc supervisor vec (ok.context p) fun _ => id
  | wake chan =>
    have fields : ∀ p, (woken chan (m.procs p)).context = (m.procs p).context ∧
        (woken chan (m.procs p)).killed = (m.procs p).killed := by
      intro p
      unfold woken
      split <;> exact ⟨rfl, rfl⟩
    refine ok.goes supervisor vec _ passes (fun is p cur => ?_) (fun p => .inl (fields p).1) (.inl rfl)
    exact (fields p).2.trans (known is p cur)
  | kill pid =>
    simp only [Sched.exec]
    split
    · next q found =>
      refine (stay passes).setProc supervisor vec (ok.context q) fun cur _ => ?_
      exact absurd ⟨rfl, supervisor, pid, rest, q, next, found, cur⟩ others
    · exact stay passes
  | freeProc p => exact (stay passes).setProc supervisor vec trivial fun _ => id
  | testKilled p =>
    simp only [Sched.exec]
    split
    · exact here m.sie false (Instr.exit :: rest) trivial nofun
    · next clear =>
      refine here m.sie true rest passes.2 fun _ q cur => ?_
      rw [passes.1] at cur
      obtain rfl := Option.some.inj cur
      simpa using clear
  | preempt =>
    simp only [Sched.exec]
    split
    · split
      · exact here m.sie alive (yieldCode ++ rest) passes known
      · exact stay passes
    · exact stay passes
  | yieldBody =>
    simp only [Sched.exec]
    split
    · next p cur =>
      have back : tested (some p) true rest := cur ▸ tested_alive alive passes
      exact here m.sie alive (yieldRest p ++ rest) ⟨rfl, back⟩ known
    · exact stay passes
  | sleepBody chan =>
    simp only [Sched.exec]
    split
    · next p cur =>
      have back : tested (some p) true rest := cur ▸ tested_alive alive passes
      exact here m.sie alive (sleepRest p chan ++ rest) ⟨rfl, back⟩ known
    · exact halts
  | waitBody closing =>
    simp only [Sched.exec]
    split
    · exact here m.sie alive _ (tested_waitTurn _ _ closing passes) known
    · exact here true alive rest passes known
  | exit =>
    simp only [Sched.exec]
    split
    · split
      · exact here m.sie false (exitRest _ _) trivial nofun
      · exact halts
    · exact halts
  | create isUser entry ending =>
    simp only [Sched.exec]
    split
    · next q _ =>
      have ends : tested m.current alive (createRest q ending ++ rest) := by
        cases ending <;> exact passes
      exact (here m.sie alive _ ends known).setProc supervisor vec trivial nofun
    · exact stay passes
  | forkret =>
    simp only [Sched.exec]
    split
    · next p cur =>
      split
      · exact here m.sie false [Instr.exit] trivial nofun
      · next clear =>
        have alive : m.alive := by
          intro q other
          rw [cur] at other
          obtain rfl := Option.some.inj other
          simpa using clear
        split
        · have one : m.current.isSome = true := by rw [cur]; rfl
          refine ⟨fun _ => ⟨true, ⟨one, rfl⟩, fun _ => alive⟩, ok.context, ok.cpuContext,
            fun user => ?_, fun _ _ => ⟨⟨one, alive⟩, .inl rfl⟩⟩
          rw [show m.mode = .user from user] at supervisor
          cases supervisor
        · exact here m.sie false _ (tested_codes _ trivial) nofun
    · exact halts
  | swtchOut p =>
    have away := here m.sie false m.cpuContext (ok.cpuContext m.current) nofun
    exact away.setProc supervisor vec passes fun _ => id
  | swtchIn p =>
    refine ok.goes supervisor vec false ?_ nofun (fun _ => .inl rfl) (.inr passes.2)
    show tested m.current false (m.procs p).context
    rw [passes.1]
    exact ok.context p
  | halt => exact halts

/-- With `uservec` installed, only the first and the last instructions of a trap are executed. -/
theorem Tested.vectored {m : Machine} (ok : Tested m) (supervisor : m.mode = .supervisor) :
    m.stvec = .kernelvec ∨ m.code = [Instr.userret] ∨ ∃ rest, m.code = wStvec .kernelvec :: rest := by
  cases vec : m.stvec with
  | kernelvec => exact .inl rfl
  | uservec => exact .inr (ok.vec supervisor vec).2

theorem Tested.exec {m : Machine} {i : Instr} {rest : List Instr} (ok : Tested m)
    (supervisor : m.mode = .supervisor) (next : m.code = i :: rest)
    (others : ¬ KillsItself m .exec) : Tested (exec { m with code := rest } i) := by
  rcases ok.vectored supervisor with vec | is | ⟨_, is⟩
  · exact ok.instr supervisor vec next others
  · obtain ⟨rfl, -⟩ := List.cons.inj (next.symm.trans is)
    exact ok.userret supervisor next
  · obtain ⟨rfl, -⟩ := List.cons.inj (next.symm.trans is)
    exact ok.kernelvec supervisor next

theorem Tested.idle {m : Machine} (ok : Tested m) (idle : m.idle = true) :
    m.mode = .supervisor ∧ m.stvec = .kernelvec := by
  obtain ⟨supervisor, nothing⟩ := Machine.idle_iff.mp idle
  refine ⟨supervisor, ?_⟩
  rcases ok.vectored supervisor with vec | is | ⟨_, is⟩
  · exact vec
  · cases nothing.symm.trans is
  · cases nothing.symm.trans is

theorem Tested.step {m t : Machine} {a : Action} (ok : Tested m) (moves : step m a = some t)
    (others : ¬ KillsItself m a) : Tested t := by
  cases stepped moves with
  | exec supervisor next => exact ok.exec supervisor next others
  | shutdown commit sync supervisor next =>
    have vec : m.stvec = .kernelvec := by
      rcases ok.vectored supervisor with vec | is | ⟨_, is⟩
      · exact vec
      · cases next.symm.trans is
      · cases next.symm.trans is
    exact ok.goes supervisor vec false (tested_shutdownCode commit sync) nofun
      (fun _ => .inl rfl) (.inl rfl)
  | interrupt i supervisor vec =>
    obtain ⟨alive, passes, known⟩ := ok.code supervisor
    refine ok.goes supervisor vec alive ?_ known (fun _ => .inl rfl) (.inl rfl)
    have back : tested m.current alive (sret true :: m.code) := passes
    exact tested_kerneltrapCode i back
  | exception handler supervisor vec =>
    obtain ⟨alive, passes, known⟩ := ok.code supervisor
    refine ok.goes supervisor vec alive ?_ known (fun _ => .inl rfl) (.inl rfl)
    have back : tested m.current alive (sret m.sie :: m.code) := passes
    exact tested_codes handler back
  | trap cause vec =>
    have one : m.current.isSome = true ∧ m.alive := by
      cases mode : m.mode with
      | user => exact ok.user mode
      | supervisor => exact (ok.vec mode vec).1
    obtain ⟨p, cur⟩ := Option.isSome_iff_exists.mp one.1
    refine ⟨fun _ => ⟨true, ?_, fun _ => one.2⟩, ok.context, ok.cpuContext, nofun,
      fun _ _ => ⟨one, .inr ⟨_, rfl⟩⟩⟩
    show tested m.current true (usertrapCode cause)
    rw [cur]
    exact tested_usertrapCode p cause
  | turn idle =>
    obtain ⟨supervisor, vec⟩ := ok.idle idle
    obtain ⟨alive, passes, known⟩ := ok.code supervisor
    exact ok.goes supervisor vec _ passes known (fun _ => .inl rfl) (.inl rfl)
  | timeout p idle =>
    obtain ⟨supervisor, vec⟩ := ok.idle idle
    exact ok.setProc supervisor vec (ok.context p) fun _ => id
  | dispatch p idle =>
    obtain ⟨supervisor, vec⟩ := ok.idle idle
    exact ok.goes supervisor vec false ⟨rfl, fun _ => trivial⟩ nofun
      (fun _ => .inl rfl) (.inl rfl)

theorem Booted.tested {m : Machine} (boot : Booted m) : Tested m := by
  refine ⟨fun _ => ⟨false, ?_, nofun⟩, fun p => ?_, fun cur => ?_, fun user => ?_, fun _ vec => ?_⟩
  · rw [boot.code]
    trivial
  · obtain ⟨main, entry, first, others⟩ := boot.procs
    by_cases same : p = main
    · rw [same, first]
      trivial
    · rw [others p same]
      trivial
  · rw [boot.cpuContext]
    trivial
  · rw [boot.mode] at user
    cases user
  · rw [boot.stvec] at vec
    cases vec

/-- A process that executes `userret` has not been killed. -/
theorem Tested.returns {m : Machine} {p : Slot} {a : Action} (ok : Tested m)
    (returns : Returns p m a) : (m.procs p).killed = false := by
  obtain ⟨-, supervisor, cur, rest, next⟩ := returns
  obtain ⟨alive, passes, known⟩ := ok.code supervisor
  rw [next] at passes
  exact known passes.2 p cur

/-! ### The flag -/

/-- Only `alloc_proc` clears the flag. -/
theorem exec_killed {m : Machine} {i : Instr} {rest : List Instr} {p : Slot}
    (killed : (m.procs p).killed = true) (supervisor : m.mode = .supervisor)
    (next : m.code = i :: rest) (keeps : ¬ Allocates p m .exec) :
    ((exec { m with code := rest } i).procs p).killed = true := by
  have set : ∀ (q : Slot) (proc : Proc), (q = p → proc.killed = true) →
      (Function.update m.procs q proc p).killed = true := by
    intro q proc still
    by_cases same : p = q
    · subst same
      rw [Function.update_self]
      exact still rfl
    · rw [Function.update_of_ne same]
      exact killed
  cases i with
  | setState q | setChan q | setParent q | freeProc q | swtchOut q =>
    refine set q _ fun same => ?_
    subst same
    exact killed
  | wake chan =>
    show (woken chan (m.procs p)).killed = true
    unfold woken
    split <;> exact killed
  | kill pid =>
    simp only [Sched.exec]
    split
    · exact set _ _ fun _ => rfl
    · exact killed
  | create isUser entry ending =>
    simp only [Sched.exec]
    split
    · next q found =>
      refine set q _ fun same => ?_
      subst same
      exact absurd ⟨rfl, supervisor, found, isUser, entry, ending, rest, next⟩ keeps
    · exact killed
  | _ =>
    simp only [Sched.exec]
    repeat' split
    all_goals exact killed

theorem step_killed {m t : Machine} {a : Action} {p : Slot} (killed : (m.procs p).killed = true)
    (moves : step m a = some t) (keeps : ¬ Allocates p m a) : (t.procs p).killed = true := by
  cases stepped moves with
  | exec supervisor next => exact exec_killed killed supervisor next keeps
  | timeout q =>
    show (Function.update m.procs q _ p).killed = true
    by_cases same : p = q
    · subst same
      rw [Function.update_self]
      exact killed
    · rw [Function.update_of_ne same]
      exact killed
  | _ => exact killed

/-! ### Runs -/

theorem Tested.after {m t : Machine} {acts later : List Action} (ok : Tested m)
    (others : EachStep (fun m a => ¬ KillsItself m a) m (acts ++ later))
    (comes : Sched.after m acts = some t) :
    Tested t ∧ EachStep (fun m a => ¬ KillsItself m a) t later := by
  induction acts generalizing m with
  | nil =>
    obtain rfl := Option.some.inj comes
    exact ⟨ok, others⟩
  | cons a acts ih =>
    obtain ⟨s, moves, rest⟩ := Option.bind_eq_some_iff.mp comes
    obtain ⟨other, others⟩ := others s moves
    exact ih (ok.step moves other) others rest

/-- The check of a property of the steps along a run. -/
def eachStep (p : Machine → Action → Bool) : Machine → List Action → Bool
  | _, [] => true
  | m, a :: rest =>
    match step m a with
    | some t => p m a && eachStep p t rest
    | none => true

theorem eachStep_sound {p : Machine → Action → Bool} {P : Machine → Action → Prop}
    (sound : ∀ m a, p m a = true → P m a) {m : Machine} {acts : List Action}
    (checked : eachStep p m acts = true) : EachStep P m acts := by
  induction acts generalizing m with
  | nil => trivial
  | cons a acts ih =>
    intro t moves
    simp only [eachStep, moves, Bool.and_eq_true] at checked
    exact ⟨sound m a checked.1, ih checked.2⟩

/-- The next instruction calls `alloc_proc`. -/
def creates (m : Machine) (_ : Action) : Bool :=
  match m.code with
  | Instr.create .. :: _ => true
  | _ => false

theorem creates_none (p : Slot) (m : Machine) (a : Action) (ok : (!creates m a) = true) :
    ¬ Allocates p m a := by
  rintro ⟨-, -, -, isUser, entry, ending, rest, next⟩
  simp [creates, next] at ok

/-- The next instruction is not `kill_proc` of the current process. -/
def spares (m : Machine) (_ : Action) : Bool :=
  match m.code with
  | Instr.kill pid :: _ => m.current.isNone || m.target pid != m.current
  | _ => true

theorem spares_others (m : Machine) (a : Action) (ok : spares m a = true) : ¬ KillsItself m a := by
  rintro ⟨-, -, pid, rest, p, next, found, cur⟩
  simp [spares, next, found, cur] at ok

/-- The machine after boot; `kernel_main` starts a user process and kills it before it has run. -/
def killingBoot : Machine :=
  firstBoot.setProc 0 { firstBoot.procs 0 with
    entry := [.create true [] .published, .kill 1, .wait []] }

theorem killingBoot_booted : Booted killingBoot where
  sie := rfl
  stvec := rfl
  mode := rfl
  current := rfl
  code := rfl
  cpuContext := rfl
  procs := ⟨0, [.create true [] .published, .kill 1, .wait []], rfl, fun p other => by
    show Function.update firstBoot.procs 0 _ p = _
    rw [Function.update_of_ne other]
    exact if_neg other⟩

/-- The first user process calls `kill` with its own pid, and the flag is set. -/
def suicide : List Action :=
  launch ++ [.exec, .trap (.syscall (.kill 2)), .exec, .exec]

/-- Process 2 has been killed and is at the start of `usertrapret`. -/
theorem suicide_goesBack : (after firstBoot suicide).any (fun s => (s.procs 2).killed &&
    s.mode == .supervisor && s.current == some 2 &&
    match s.code with
    | [wStvec .uservec, .userret] => true
    | _ => false) = true := by
  decide

end Xv6Lab.Sched

import Xv6Lab.Sched.Machine

/-! Interrupts while the user trap vector is installed.  `yield`, `sleep`, `wakeup` and the scheduler
leave interrupts enabled, so that a new process finds them enabled when `forkret` calls
`return_to_user`, which installs `uservec` in supervisor mode and does not disable them. -/

namespace Xv6Lab.Sched

open Vm (Slot ProcState)
open Instr

/-- In supervisor mode no interrupt comes while `uservec` is installed. -/
def Safe (m : Machine) : Prop :=
  m.mode = .supervisor → m.stvec = .uservec → m.sie = false

/-- The step in which `forkret` calls `return_to_user`. -/
def Enters (m : Machine) (a : Action) : Prop :=
  a = .exec ∧ m.mode = .supervisor ∧ ∃ rest p, m.code = forkret :: rest ∧ m.current = some p ∧
    (m.procs p).killed = false ∧ (m.procs p).isUser = true

/-! ### The interrupt enable bit -/

/-- Started with the bit at `b`, the code has it set wherever it switches, starts a process or goes
back to the scheduler's loop.  A call may leave the bit either way. -/
def flow : Bool → List Instr → Prop
  | b, [] => b = true
  | _, intrOn :: rest => flow true rest
  | _, intrOff :: rest => flow false rest
  | _, sret b :: rest => flow b rest
  | _, preempt :: rest | _, yieldBody :: rest => ∀ b, flow b rest
  | _, sleepBody _ :: rest | _, waitBody _ :: rest => ∀ b, flow b rest
  | b, swtchOut _ :: rest | b, swtchIn _ :: rest => b = true ∧ flow true rest
  | b, forkret :: _ => b = true
  | _, exit :: _ | _, halt :: _ | _, userret :: _ => True
  | b, _ :: rest => flow b rest

theorem flow_wakeupCode {b : Bool} {rest : List Instr} (chan : Chan) (steady : ∀ b, flow b rest) :
    flow b (wakeupCode chan ++ rest) := steady true

theorem flow_wakeups {b : Bool} {rest : List Instr} (chans : List Chan)
    (steady : ∀ b, flow b rest) : flow b (chans.flatMap wakeupCode ++ rest) := by
  induction chans generalizing b with
  | nil => exact steady b
  | cons chan chans ih =>
    rw [List.flatMap_cons, List.append_assoc]
    exact flow_wakeupCode chan fun b => ih

theorem flow_call {b : Bool} {rest : List Instr} (call : Call) (steady : ∀ b, flow b rest) :
    flow b (call.code ++ rest) := by
  cases call with
  | kill | create => exact steady b
  | brelse => exact steady true
  | wakeup chan => exact flow_wakeupCode chan steady
  | exit => trivial
  | yield | sleep | wait => exact steady

theorem flow_codes {b : Bool} {rest : List Instr} (calls : List Call) (steady : ∀ b, flow b rest) :
    flow b (codes calls ++ rest) := by
  induction calls generalizing b with
  | nil => exact steady b
  | cons call calls ih =>
    rw [codes, List.flatMap_cons, List.append_assoc]
    exact flow_call call fun b => ih

theorem flow_externalCode {b : Bool} {rest : List Instr} (i : Interrupt)
    (steady : ∀ b, flow b rest) : flow b (externalCode i ++ rest) := by
  cases i with
  | timer | other => exact steady b
  | disk chans =>
    rw [externalCode, List.cons_append, List.cons_append, List.append_assoc]
    exact flow_wakeups chans fun _ => steady true

theorem flow_kerneltrapCode {b : Bool} {rest : List Instr} (i : Interrupt)
    (steady : ∀ b, flow b rest) : flow b (kerneltrapCode i ++ rest) := by
  cases i with
  | timer => exact steady
  | disk chans => exact flow_externalCode (.disk chans) steady
  | other => exact steady b

theorem flow_usertrapCode {b : Bool} (cause : Cause) : flow b (usertrapCode cause) := by
  have steady : ∀ b, flow b usertrapretCode := fun _ => trivial
  show flow b (causeCode cause ++ usertrapretCode)
  cases cause with
  | interrupt i => exact flow_externalCode i steady
  | exception handler => exact flow_codes handler steady
  | syscall call =>
    cases call with
    | file calls => exact flow_codes calls steady
    | _ => trivial

theorem flow_waitTurn {b : Bool} {rest : List Instr} (m : Machine) (p : Slot)
    (closing : List Call) (steady : ∀ b, flow b rest) : flow b (waitTurn m p closing ++ rest) := by
  unfold waitTurn
  split
  · rw [List.cons_append, List.cons_append, List.append_assoc]
    exact flow_codes closing steady
  · split
    · exact steady true
    · exact fun _ => steady

theorem flow_shutdownCode {b : Bool} (commit sync : List Call) :
    flow b (shutdownCode commit sync) := by
  have last : ∀ b, flow b (codes sync ++ [halt]) := fun _ => flow_codes sync fun _ => trivial
  have all : flow false (codes commit ++ intrOff :: (codes sync ++ [halt])) :=
    flow_codes commit fun _ => last false
  simpa [shutdownCode, flow] using all

/-- Whatever is left to run has the bit set where it is needed. -/
structure Enabled (m : Machine) : Prop where
  code : m.mode = .supervisor → flow m.sie m.code
  context : ∀ p, flow true (m.procs p).context
  cpuContext : flow true m.cpuContext

theorem Enabled.setProc {m : Machine} (en : Enabled m) {p : Slot} {proc : Proc}
    (context : flow true proc.context) : Enabled (m.setProc p proc) where
  code := en.code
  context q := by
    show flow true (Function.update m.procs p proc q).context
    by_cases same : q = p
    · subst same
      rw [Function.update_self]
      exact context
    · rw [Function.update_of_ne same]
      exact en.context q
  cpuContext := en.cpuContext

theorem Enabled.exec {m : Machine} {i : Instr} {rest : List Instr} (en : Enabled m)
    (sup : m.mode = .supervisor) (next : m.code = i :: rest) :
    Enabled (exec { m with code := rest } i) := by
  have flows : flow m.sie (i :: rest) := next ▸ en.code sup
  have here : ∀ (sie : Bool) (code : List Instr), flow sie code → Enabled { m with sie, code } :=
    fun _ _ goes => ⟨fun _ => goes, en.context, en.cpuContext⟩
  cases i with
  | intrOn | intrOff | sret => exact here _ _ flows
  | wStvec | setCurrent | clearCurrent => exact ⟨fun _ => flows, en.context, en.cpuContext⟩
  | setState p | setChan p | setParent p =>
    exact (here m.sie rest flows).setProc (en.context p)
  | wake chan =>
    refine ⟨fun _ => flows, fun p => ?_, en.cpuContext⟩
    show flow true (woken chan (m.procs p)).context
    unfold woken
    split <;> exact en.context p
  | kill pid =>
    simp only [Sched.exec]
    split
    · exact (here m.sie rest flows).setProc (en.context _)
    · exact here m.sie _ flows
  | freeProc p => exact (here m.sie rest flows).setProc trivial
  | testKilled p =>
    simp only [Sched.exec]
    split
    · exact here m.sie (Instr.exit :: rest) trivial
    · exact here m.sie _ flows
  | preempt =>
    simp only [Sched.exec]
    split
    · split
      · exact here m.sie (yieldCode ++ rest) flows
      · exact here m.sie _ (flows m.sie)
    · exact here m.sie _ (flows m.sie)
  | yieldBody =>
    simp only [Sched.exec]
    split
    · exact here m.sie (yieldRest _ ++ rest) ⟨rfl, flows true⟩
    · exact here m.sie _ (flows m.sie)
  | sleepBody chan =>
    simp only [Sched.exec]
    split
    · exact here m.sie (sleepRest _ chan ++ rest) ⟨rfl, flows true⟩
    · exact here m.sie [halt] trivial
  | waitBody closing =>
    simp only [Sched.exec]
    split
    · exact here m.sie _ (flow_waitTurn _ _ closing flows)
    · exact here _ _ (flows true)
  | exit =>
    simp only [Sched.exec]
    split
    · split
      · exact here m.sie (exitRest _ _) ⟨rfl, trivial⟩
      · exact here m.sie [halt] trivial
    · exact here m.sie [halt] trivial
  | create isUser entry ending =>
    simp only [Sched.exec]
    split
    · next q _ =>
      have pushed : flow m.sie (createRest q ending ++ rest) := by
        cases ending <;> exact flows
      exact (here m.sie _ pushed).setProc rfl
    · exact here m.sie _ flows
  | forkret =>
    simp only [Sched.exec]
    split
    · split
      · exact here m.sie [Instr.exit] trivial
      · split
        · exact ⟨fun _ => trivial, en.context, en.cpuContext⟩
        · exact here m.sie _ (flow_codes _ fun _ => trivial)
    · exact here m.sie [halt] trivial
  | swtchOut p =>
    have away : flow m.sie m.cpuContext := flows.1 ▸ en.cpuContext
    exact (here m.sie _ away).setProc flows.2
  | swtchIn p => exact ⟨fun _ => flows.1 ▸ en.context p, en.context, flows.2⟩
  | userret => exact ⟨nofun, en.context, en.cpuContext⟩
  | halt => exact here m.sie [halt] trivial

theorem Enabled.step {m t : Machine} {a : Action} (en : Enabled m) (moves : step m a = some t) :
    Enabled t := by
  have here : ∀ (sie : Bool) (code : List Instr), flow sie code →
      ∀ mode, Enabled { m with sie, code, mode } :=
    fun _ _ goes _ => ⟨fun _ => goes, en.context, en.cpuContext⟩
  cases stepped moves with
  | exec supervisor next => exact en.exec supervisor next
  | shutdown commit sync => exact here m.sie _ (flow_shutdownCode commit sync) m.mode
  | interrupt i supervisor vec enabled =>
    have back : ∀ b, flow b (sret true :: m.code) := fun _ => enabled ▸ en.code supervisor
    exact here false _ (flow_kerneltrapCode i back) m.mode
  | exception handler supervisor =>
    have back : ∀ b, flow b (sret m.sie :: m.code) := fun _ => en.code supervisor
    exact here false _ (flow_codes handler back) m.mode
  | trap cause => exact here false _ (flow_usertrapCode cause) .supervisor
  | turn idle =>
    refine ⟨fun _ => ?_, en.context, en.cpuContext⟩
    show flow true m.code
    rw [(Machine.idle_iff.mp idle).2]
    rfl
  | timeout p => exact en.setProc (en.context p)
  | dispatch p idle =>
    obtain ⟨supervisor, nothing⟩ := Machine.idle_iff.mp idle
    have enabled : m.sie = true := by simpa [nothing, flow] using en.code supervisor
    exact here m.sie (dispatchCode p) ⟨enabled, rfl⟩ m.mode

theorem Booted.enabled {m : Machine} (boot : Booted m) : Enabled m where
  code _ := by
    rw [boot.code, boot.sie]
    rfl
  context p := by
    obtain ⟨main, entry, first, others⟩ := boot.procs
    by_cases same : p = main
    · rw [same, first]
      rfl
    · rw [others p same]
      trivial
  cpuContext := by
    rw [boot.cpuContext]
    trivial

/-! ### The kernel alone -/

/-- The instruction takes part in the return to user mode. -/
def Instr.returns : Instr → Bool
  | wStvec .uservec | userret => true
  | _ => false

/-- The code does not return to user mode. -/
def Plain (code : List Instr) : Prop := ∀ i ∈ code, i.returns = false

theorem Plain.append {code rest : List Instr} (first : Plain code) (second : Plain rest) :
    Plain (code ++ rest) := List.forall_mem_append.mpr ⟨first, second⟩

theorem plain_of_all (code : List Instr) (all : code.all (fun i => !i.returns) = true) :
    Plain code := fun i inside => by simpa using List.all_eq_true.mp all i inside

theorem plain_codes (calls : List Call) : Plain (codes calls) := by
  intro i inside
  obtain ⟨call, -, within⟩ := List.mem_flatMap.mp inside
  have plain : Plain call.code := by
    cases call <;> exact plain_of_all _ rfl
  exact plain i within

theorem plain_kerneltrapCode (i : Interrupt) : Plain (kerneltrapCode i) := by
  cases i with
  | timer | other => exact plain_of_all _ rfl
  | disk chans =>
    have wakes : Plain (chans.flatMap wakeupCode) := by
      intro i inside
      obtain ⟨chan, -, within⟩ := List.mem_flatMap.mp inside
      exact plain_of_all (wakeupCode chan) rfl i within
    exact ((plain_of_all [intrOff] rfl).append wakes).append (plain_of_all _ rfl)

theorem plain_shutdownCode (commit sync : List Call) : Plain (shutdownCode commit sync) := by
  have off : Plain [intrOff] := plain_of_all _ rfl
  have last : Plain [halt] := plain_of_all _ rfl
  have all := ((off.append (plain_codes commit)).append (off.append (plain_codes sync))).append last
  simpa [shutdownCode] using all

theorem plain_waitTurn (m : Machine) (p : Slot) (closing : List Call) :
    Plain (waitTurn m p closing) := by
  unfold waitTurn
  split
  · exact ((plain_of_all [intrOn] rfl).append (plain_codes closing)).append
      (plain_of_all _ rfl)
  · split <;> exact plain_of_all _ rfl

/-- User mode has not been entered, and nothing that is left to run leads to it. -/
structure Inside (m : Machine) : Prop where
  mode : m.mode = .supervisor
  stvec : m.stvec = .kernelvec
  code : Plain m.code
  context : ∀ p, Plain (m.procs p).context
  cpuContext : Plain m.cpuContext

theorem Inside.setProc {m : Machine} (ins : Inside m) {p : Slot} {proc : Proc}
    (context : Plain proc.context) : Inside (m.setProc p proc) where
  mode := ins.mode
  stvec := ins.stvec
  code := ins.code
  context q := by
    show Plain (Function.update m.procs p proc q).context
    by_cases same : q = p
    · subst same
      rw [Function.update_self]
      exact context
    · rw [Function.update_of_ne same]
      exact ins.context q
  cpuContext := ins.cpuContext

theorem Inside.exec {m : Machine} {i : Instr} {rest : List Instr} (ins : Inside m)
    (next : m.code = i :: rest) (stays : ¬ Enters m .exec) :
    Inside (exec { m with code := rest } i) := by
  have plain : Plain (i :: rest) := next ▸ ins.code
  have this : i.returns = false := plain i (List.mem_cons_self ..)
  have left : Plain rest := fun j inside => plain j (List.mem_cons_of_mem _ inside)
  have here : ∀ (sie : Bool) (current : Option Slot) (code : List Instr), Plain code →
      Inside { m with sie, current, code } :=
    fun _ _ _ code => ⟨ins.mode, ins.stvec, code, ins.context, ins.cpuContext⟩
  have push : ∀ code : List Instr, Plain code → Inside { m with code := code ++ rest } :=
    fun _ code => here m.sie m.current _ (code.append left)
  have jump : ∀ code : List Instr, Plain code → Inside { m with code } :=
    fun _ => here m.sie m.current _
  have stay : Inside { m with code := rest } := push [] (plain_of_all _ rfl)
  cases i with
  | intrOn | intrOff | sret => exact here _ m.current rest left
  | setCurrent | clearCurrent => exact here m.sie _ rest left
  | wStvec vec =>
    cases vec with
    | kernelvec => exact ⟨ins.mode, rfl, left, ins.context, ins.cpuContext⟩
    | uservec => cases this
  | setState p | setChan p | setParent p => exact stay.setProc (ins.context p)
  | wake chan =>
    refine ⟨ins.mode, ins.stvec, left, fun p => ?_, ins.cpuContext⟩
    show Plain (woken chan (m.procs p)).context
    unfold woken
    split <;> exact ins.context p
  | kill pid =>
    simp only [Sched.exec]
    split
    · exact stay.setProc (ins.context _)
    · exact stay
  | freeProc p => exact stay.setProc (plain_of_all _ rfl)
  | testKilled p =>
    simp only [Sched.exec]
    split
    · exact push [Instr.exit] (plain_of_all _ rfl)
    · exact stay
  | preempt =>
    simp only [Sched.exec]
    split
    · split
      · exact push yieldCode (plain_of_all _ rfl)
      · exact stay
    · exact stay
  | yieldBody =>
    simp only [Sched.exec]
    split
    · exact push (yieldRest _) (plain_of_all _ rfl)
    · exact stay
  | sleepBody chan =>
    simp only [Sched.exec]
    split
    · exact push (sleepRest _ chan) (plain_of_all _ rfl)
    · exact jump [halt] (plain_of_all _ rfl)
  | waitBody closing =>
    simp only [Sched.exec]
    split
    · exact push _ (plain_waitTurn _ _ closing)
    · exact here true m.current rest left
  | exit =>
    simp only [Sched.exec]
    split
    · split
      · exact jump (exitRest _ _) (plain_of_all _ rfl)
      · exact jump [halt] (plain_of_all _ rfl)
    · exact jump [halt] (plain_of_all _ rfl)
  | create isUser entry ending =>
    simp only [Sched.exec]
    split
    · next q _ =>
      have ends : Plain (createRest q ending) := by
        cases ending <;> exact plain_of_all _ rfl
      exact (push _ ends).setProc (plain_of_all _ rfl)
    · exact stay
  | forkret =>
    simp only [Sched.exec]
    split
    · next p cur =>
      split
      · exact jump [Instr.exit] (plain_of_all _ rfl)
      · next alive =>
        split
        · next user =>
          have alive : (m.procs p).killed = false := by simpa using alive
          exact absurd ⟨rfl, ins.mode, rest, p, next, cur, alive, user⟩ stays
        · exact jump _ ((plain_codes _).append (plain_of_all _ rfl))
    · exact jump [halt] (plain_of_all _ rfl)
  | swtchOut p => exact (jump _ ins.cpuContext).setProc left
  | swtchIn p => exact ⟨ins.mode, ins.stvec, ins.context p, ins.context, left⟩
  | userret => cases this
  | halt => exact jump [halt] (plain_of_all _ rfl)

theorem Inside.step {m t : Machine} {a : Action} (ins : Inside m) (moves : step m a = some t)
    (stays : ¬ Enters m a) : Inside t := by
  have here : ∀ (sie : Bool) (code : List Instr), Plain code → Inside { m with sie, code } :=
    fun _ _ code => ⟨ins.mode, ins.stvec, code, ins.context, ins.cpuContext⟩
  have back : ∀ sie : Bool, Plain (sret sie :: m.code) := fun sie =>
    (plain_of_all [sret sie] rfl).append ins.code
  cases stepped moves with
  | exec _ next => exact ins.exec next stays
  | shutdown commit sync => exact here m.sie _ (plain_shutdownCode commit sync)
  | interrupt i => exact here false _ ((plain_kerneltrapCode i).append (back true))
  | exception handler => exact here false _ ((plain_codes handler).append (back m.sie))
  | trap cause vec =>
    rw [ins.stvec] at vec
    cases vec
  | turn => exact here true m.code ins.code
  | timeout p => exact ins.setProc (ins.context p)
  | dispatch p => exact here m.sie _ (plain_of_all _ rfl)

theorem Booted.inside {m : Machine} (boot : Booted m) : Inside m where
  mode := boot.mode
  stvec := boot.stvec
  code := by
    rw [boot.code]
    exact plain_of_all _ rfl
  context p := by
    obtain ⟨main, entry, first, others⟩ := boot.procs
    by_cases same : p = main
    · rw [same, first]
      exact plain_of_all _ rfl
    · rw [others p same]
      exact plain_of_all _ rfl
  cpuContext := by
    rw [boot.cpuContext]
    exact plain_of_all _ rfl

/-! ### Runs -/

theorem Throughout.head {P : Machine → Prop} {m : Machine} {acts : List Action}
    (all : Throughout P m acts) : P m := by
  cases acts with
  | nil => exact all
  | cons => exact all.1

/-- `forkret` installs `uservec` with interrupts enabled. -/
theorem Enters.unsafe {m t : Machine} {a : Action} (enters : Enters m a) (en : Enabled m)
    (moves : Sched.step m a = some t) : ¬ Safe t := by
  obtain ⟨rfl, supervisor, rest, p, next, cur, alive, user⟩ := enters
  have enabled : m.sie = true := by
    have flows := en.code supervisor
    rw [next] at flows
    exact flows
  have moved : t = { m with stvec := .uservec, code := [userret] } := by
    simpa [Sched.step, supervisor, next, exec, cur, alive, user] using moves.symm
  intro safe
  have disabled := safe (by rw [moved]; exact supervisor) (by rw [moved])
  rw [moved] at disabled
  exact Bool.noConfusion (enabled.symm.trans disabled)

/-- No interrupt comes in supervisor mode with `uservec` installed exactly in the runs in which no
new user process is started. -/
theorem vector_safe_iff {m : Machine} (boot : Booted m) (acts : List Action) :
    Throughout Safe m acts ↔ EachStep (fun m a => ¬ Enters m a) m acts := by
  constructor
  · have start := boot.enabled
    clear boot
    induction acts generalizing m with
    | nil => exact fun _ => trivial
    | cons a acts ih =>
      rintro ⟨-, all⟩ t moves
      have later := all t moves
      exact ⟨fun enters => enters.unsafe start moves later.head, ih (start.step moves) later⟩
  · have start := boot.inside
    clear boot
    induction acts generalizing m with
    | nil =>
      intro _ _ vec
      rw [start.stvec] at vec
      cases vec
    | cons a acts ih =>
      intro each
      refine ⟨fun _ vec => ?_, fun t moves => ?_⟩
      · rw [start.stvec] at vec
        cases vec
      · obtain ⟨stays, later⟩ := each t moves
        exact ih (start.step moves stays) later

theorem vector_safe_iff_launch : Throughout Safe firstBoot launch ↔
    EachStep (fun m a => ¬ Enters m a) firstBoot launch :=
  vector_safe_iff firstBoot_booted launch

theorem Throughout.after {P : Machine → Prop} {m t : Machine} {acts : List Action}
    (all : Throughout P m acts) (comes : Sched.after m acts = some t) : P t := by
  induction acts generalizing m with
  | nil =>
    obtain rfl := Option.some.inj comes
    exact all
  | cons a acts ih =>
    obtain ⟨s, moves, later⟩ := Option.bind_eq_some_iff.mp comes
    exact ih (all.2 s moves) later

/-- The first user process is about to run, with `uservec` installed and interrupts enabled. -/
theorem launch_exposed : (after firstBoot launch).any (fun t =>
    decide (t.mode = .supervisor ∧ t.stvec = .uservec ∧ t.sie = true)) = true := by
  decide

/-- An interrupt may come before the first user process is in user mode. -/
theorem vector_unsafe : Booted firstBoot ∧ ¬ Throughout Safe firstBoot launch := by
  refine ⟨firstBoot_booted, fun all => ?_⟩
  obtain ⟨t, comes, found⟩ := (Option.any_eq_true _ _).mp launch_exposed
  obtain ⟨supervisor, vec, enabled⟩ := of_decide_eq_true found
  have disabled := all.after comes supervisor vec
  rw [enabled] at disabled
  cases disabled

end Xv6Lab.Sched

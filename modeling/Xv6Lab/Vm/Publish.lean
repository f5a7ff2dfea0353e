import Xv6Lab.Vm.Table

/-! The creation of processes, statement by statement.  Each of the four functions takes a slot from
`alloc_proc`, prepares it, makes it runnable, and only then enters its parent and its working
directory; a timer interrupt between two statements may run the new process as it is there. -/

namespace Xv6Lab.Vm

open Rv64 Sv39 Exec Relation
open Trap (PGSIZE TRAMPOLINE TRAPFRAME Field makeSatp)

/-! ### Statements -/

/-- The kernel with the working directories of the processes, and the local variable that holds a
page that has just been allocated. -/
structure Site where
  kernel : Kernel
  cwd : Slot → Option Nat
  page : Word

/-- A statement goes on to the next, or is the last: the function returns, or the kernel stops. -/
inductive Outcome
  | next (x : Site)
  | stop (x : Site)

abbrev Stmt := Site → Outcome

/-- A statement without a test. -/
def act (k : K Unit) : Stmt := fun x =>
  match k x.kernel with
  | .ok _ t => .next { x with kernel := t }
  | .error _ t => .stop { x with kernel := t }

/-- `if (k() != 0) { fail(); return -1; }` -/
def check (fail : K Unit) (k : K Int) : Stmt := fun x =>
  match k x.kernel with
  | .ok r t => if r ≠ 0 then .stop { x with kernel := after fail t } else .next { x with kernel := t }
  | .error _ t => .stop { x with kernel := t }

/-- `page = alloc_page(); if (!page) { free_proc(p); return -1; }` -/
def takePage (p : Slot) : Stmt := fun x =>
  match allocPage x.kernel with
  | .ok pg t =>
    if pg = 0 then .stop { x with kernel := after (freeProc p) t } else .next { x with kernel := t, page := pg }
  | .error _ t => .stop { x with kernel := t }

/-- A statement that uses the page. -/
def withPage (stmt : Word → Stmt) : Stmt := fun x => stmt x.page x

/-- `p->state = RUNNABLE` -/
def publish (p : Slot) : Stmt := act (updProc p fun proc => { proc with state := .runnable })

/-- `p->parent = myproc()` -/
def setParent (p : Slot) : Stmt := act do
  let s ← get
  updProc p fun proc => { proc with parent := s.current }

/-- `p->cwd = parent->cwd`, with or without `idup`. -/
def setCwd (p : Slot) : Stmt := fun x =>
  .next { x with cwd := Function.update x.cwd p (x.kernel.current.bind x.cwd) }

/-- `p->trapframe->f = v` -/
def setField (p : Slot) (f : Field) (v : Word) : Stmt := act do
  let s ← get
  storeField (s.procs p).trapframe f v

/-- The states between the statements, from `x` on. -/
def trail : List Stmt → Site → List Site
  | [], x => [x]
  | stmt :: rest, x => x :: match stmt x with
    | .next y => trail rest y
    | .stop y => [y]

/-! ### The four functions -/

/-- A function that creates a process: the statements before and after the one that makes the new
process runnable. -/
structure Creation where
  isUser : Kernel → Bool
  before : Slot → List Stmt
  rest : Slot → List Stmt

/-- `create_kernel_proc` -/
def kernelCreation (entry : Word) : Creation where
  isUser _ := false
  before p := [setField p .epc entry]
  rest p := [setParent p, setCwd p]

/-- `create_kernel_proc1`; `sleep_ticks` is left out. -/
def kernelCreation1 (entry arg : Word) : Creation where
  isUser _ := false
  before p := [setField p .epc entry, setField p (.reg .a0) arg]
  rest p := [setParent p, setCwd p]

/-- One turn of the loop over the stack pages of `create_user_proc`. -/
def stackStmts (p : Slot) (i : Nat) : List Stmt :=
  [takePage p, withPage fun page => check (do freePage page; freeProc p) do
    let s ← get
    mapPage (s.procs p).pagetable (USER_STACK_SIZE - PGSIZE * BitVec.ofNat 64 (i + 1)) page
      (R ||| W ||| U)]

/-- `create_user_proc` -/
def userCreation (userBin : Nat → BitVec 8) (binSize : Nat) (usertrap kernelvec : Word) : Creation where
  isUser _ := true
  before p := [takePage p,
      withPage fun page => act do
        let s ← get
        let _ ← mapPage (s.procs p).pagetable USER_TEXT_START page (R ||| W ||| X ||| U),
      withPage fun page => act (memcpy page userBin binSize)] ++
    stackStmts p 0 ++ stackStmts p 1 ++
    [act (updProc p fun proc => { proc with sz := USER_STACK_SIZE }),
      check (freeProc p) do
        let s ← get
        mapPage (s.procs p).pagetable TRAPFRAME (s.procs p).trapframe (R ||| W),
      act do
        let s ← get
        clearTrapframe (s.procs p).trapframe,
      setField p .epc USER_TEXT_START,
      setField p (.reg .sp) USER_STACK_SIZE,
      setField p .sstatus ((1 : Word) <<< 5),
      act do
        let s ← get
        storeField (s.procs p).trapframe .kernelSatp (makeSatp s.kernelPagetable),
      act do
        let s ← get
        storeField (s.procs p).trapframe .kernelSp ((s.procs p).kstack + PGSIZE),
      setField p .usertrap usertrap,
      setField p .kernelVec kernelvec]
  rest p := [check (freeProc p) do
      let s ← get
      mapPage (s.procs p).pagetable TRAMPOLINE s.trampolinePhysAddr (X ||| R),
    setParent p]

/-- `fork_proc` of process `parent`. -/
def forkCreation (parent : Slot) : Creation where
  isUser s := (s.procs parent).isUser
  before child := [check (freeProc child) do
      let s ← get
      let r ← uvmcopy (s.procs parent).pagetable (s.procs child).pagetable (s.procs parent).sz
      pure (if r < 0 then r else 0),
    act (modify fun s => s.setProc child { s.procs child with sz := (s.procs parent).sz }),
    check (freeProc child) do
      let s ← get
      pure (if (s.procs child).trapframe.toNat % 4096 ≠ 0 then -1 else 0),
    check (freeProc child) do
      let s ← get
      mapPage (s.procs child).pagetable TRAPFRAME (s.procs child).trapframe (R ||| W),
    check (freeProc child) do
      let s ← get
      mapPage (s.procs child).pagetable TRAMPOLINE s.trampolinePhysAddr (R ||| X),
    act do
      let s ← get
      copyTrapframe (s.procs child).trapframe (s.procs parent).trapframe,
    act do
      let s ← get
      storeField (s.procs child).trapframe .kernelSp ((s.procs child).kstack + PGSIZE),
    act do
      let s ← get
      storeField (s.procs child).trapframe .kernelSatp (makeSatp s.kernelPagetable),
    act do
      let s ← get
      skipEcall (s.procs child).trapframe,
    setField child (.reg .a0) 0]
  rest child := [setParent child, setCwd child]

/-- The site after `alloc_proc` has returned `p`, which it does with `p->cwd = 0`. -/
def Site.allocated (x : Site) (t : Kernel) (p : Slot) : Site :=
  { x with kernel := t, cwd := Function.update x.cwd p none }

/-- The new slot with the states between the statements that follow `alloc_proc`. -/
def Creation.states (c : Creation) (x : Site) : Option (Slot × List Site) :=
  match allocProc (c.isUser x.kernel) x.kernel with
  | .ok (some p) t => some (p, trail (c.before p ++ publish p :: c.rest p) (x.allocated t p))
  | _ => none

/-- The new slot is not runnable, or is complete: its parent is the process that creates it, its
working directory is the one it has in the end, and a user process has its two special pages. -/
structure Complete (parent : Slot) (final : Site) (p : Slot) (y : Site) : Prop where
  parent : (y.kernel.procs p).parent = some parent
  cwd : y.cwd p = final.cwd p
  pages : (y.kernel.procs p).isUser = true →
    translate y.kernel.mem (y.kernel.procs p).pagetable TRAPFRAME ≠ none ∧
    translate y.kernel.mem (y.kernel.procs p).pagetable TRAMPOLINE ≠ none

/-- In every state between two statements, a new process that is runnable is complete. -/
def Creation.PublishesComplete (c : Creation) (x : Site) : Prop :=
  ∀ parent, x.kernel.current = some parent → ∀ p sites, c.states x = some (p, sites) →
    ∀ final, sites.getLast? = some final → ∀ y ∈ sites,
      (y.kernel.procs p).state = .runnable → Complete parent final p y

/-- All of the statements run. -/
def completes : List Stmt → Site → Option Site
  | [], x => some x
  | stmt :: rest, x => match stmt x with
    | .next y => completes rest y
    | .stop _ => none

/-- The call gets as far as the statement that makes the new process runnable: there is a slot, and
the statements before run. -/
def Creation.Arrives (c : Creation) (x : Site) : Prop :=
  ∃ p t, allocProc (c.isUser x.kernel) x.kernel = .ok (some p) t ∧
    (completes (c.before p) (x.allocated t p)).isSome

/-! ### What the statements leave alone -/

/-- Slot `p`, which does not run, keeps what `view` sees of it. -/
def Kept {γ : Type} (view : Proc → γ) (p : Slot) (s t : Kernel) : Prop :=
  view (t.procs p) = view (s.procs p) ∧ t.current ≠ some p

/-- The code keeps what `view` sees of slot `p`, wherever it ends. -/
def Leaves {γ α : Type} (view : Proc → γ) (p : Slot) (x : K α) : Prop :=
  ∀ s, s.current ≠ some p → wp x (fun _ t => Kept view p s t) (fun _ t => Kept view p s t) s

section Leaves

variable {γ α β : Type} {view : Proc → γ} {p q : Slot} {x : K α} {f : α → K β} {s : Kernel}

theorem leaves_pure (a : α) : Leaves view p (pure a) := fun _ other => ⟨rfl, other⟩

theorem leaves_get : Leaves view p get := fun _ other => ⟨rfl, other⟩

theorem leaves_throw (e : Halt) : Leaves view p (throw e : K α) := fun _ other => ⟨rfl, other⟩

theorem leaves_panic (msg : String) : Leaves view p (panic msg : K α) := leaves_throw _

theorem leaves_modify {g : Kernel → Kernel} (same : ∀ s, view ((g s).procs p) = view (s.procs p))
    (current : ∀ s, (g s).current = s.current) : Leaves view p (modify g) :=
  fun s other => ⟨same s, (current s).symm ▸ other⟩

theorem Leaves.bind (first : Leaves view p x) (then' : ∀ a, Leaves view p (f a)) :
    Leaves view p (x >>= f) := by
  intro s other
  rw [wp_bind]
  refine wp_mono (first s other) (fun a t ⟨same, apart⟩ => ?_) fun _ _ kept => kept
  have next : ∀ u, Kept view p t u → Kept view p s u := fun u ⟨same', apart'⟩ =>
    ⟨same'.trans same, apart'⟩
  exact wp_mono (then' a t apart) (fun _ u => next u) fun _ u => next u

theorem leaves_forM {body : β → K PUnit} (each : ∀ b, Leaves view p (body b)) (l : List β) :
    Leaves view p (l.forM body) := by
  induction l with
  | nil => exact leaves_pure _
  | cons b rest ih => exact (each b).bind fun _ => ih

theorem updProc_leaves (g : Proc → Proc) (same : ∀ proc, view (g proc) = view proc) :
    Leaves view p (updProc q g) := by
  refine leaves_modify (fun s => ?_) fun _ => rfl
  by_cases here : p = q
  · subst here
    rw [setProc_procs, Function.update_self]
    exact same _
  · rw [setProc_procs, Function.update_of_ne here]

theorem storeWord_leaves (page off v : Word) : Leaves view p (storeWord page off v) :=
  leaves_modify (fun _ => rfl) fun _ => rfl

theorem clearPage_leaves (page : Word) : Leaves view p (clearPage page) :=
  leaves_modify (fun _ => rfl) fun _ => rfl

theorem allocPage_leaves : Leaves view p allocPage := by
  intro s other
  unfold allocPage
  simp only [wp_bind, wp_get]
  split
  · exact ⟨rfl, other⟩
  · exact ⟨rfl, other⟩

theorem freePage_leaves (page : Word) : Leaves view p (freePage page) := by
  intro s other
  unfold freePage
  simp only [wp_bind, wp_get]
  split
  · exact ⟨rfl, other⟩
  · exact ⟨rfl, other⟩

theorem descendCreate_leaves (pt : Word) (i : Index) : Leaves view p (descendCreate pt i) := by
  refine leaves_get.bind fun s => ?_
  dsimp only
  split
  · exact leaves_pure _
  · refine allocPage_leaves.bind fun page => ?_
    split
    · exact leaves_pure _
    · refine (clearPage_leaves _).bind fun _ => ?_
      exact (storeWord_leaves _ _ _).bind fun _ => leaves_pure _

theorem walkCreate_leaves (pt va : Word) : Leaves view p (walkCreate pt va) := by
  unfold walkCreate
  dsimp only
  split
  · refine (descendCreate_leaves _ _).bind fun r => ?_
    split
    · exact leaves_pure _
    · refine (descendCreate_leaves _ _).bind fun r => ?_
      split <;> exact leaves_pure _
  · exact leaves_panic _

/-- `exit_proc` of another process. -/
theorem exitProc_leaves (status : Int) : Leaves view p (exitProc status : K α) := by
  intro s other
  unfold exitProc
  simp only [wp_bind, wp_get]
  split
  · exact ⟨rfl, other⟩
  · next q cur =>
    have apart : p ≠ q := by
      rintro rfl
      exact other cur
    simp only [wp_bind, wp_set]
    split
    · refine ⟨?_, other⟩
      rw [setProc_procs, Function.update_of_ne apart]
    · refine ⟨?_, by simp⟩
      show view (Function.update s.procs q _ p) = _
      rw [Function.update_of_ne apart]

/-- `if (c) x(); k();` -/
theorem leaves_guard {c : Prop} [Decidable c] {x : K Unit} {k : Unit → K β} (first : Leaves view p x)
    (rest : ∀ a, Leaves view p (k a)) : Leaves view p (if c then x >>= k else k ()) := by
  split
  · exact first.bind rest
  · exact rest ()

theorem mapPage_leaves (pt va pa perm : Word) : Leaves view p (mapPage pt va pa perm) := by
  refine leaves_get.bind fun s => ?_
  refine leaves_guard (exitProc_leaves _) fun _ => ?_
  refine leaves_guard (leaves_panic _) fun _ => ?_
  refine (walkCreate_leaves pt va).bind fun r => ?_
  split
  · exact leaves_pure _
  · refine leaves_get.bind fun s => ?_
    dsimp only
    split
    · split
      · exact (storeWord_leaves _ _ _).bind fun _ => leaves_pure _
      · exact leaves_panic _
    · exact (storeWord_leaves _ _ _).bind fun _ => leaves_pure _

theorem uvmcopyPages_leaves (old new : Word) (l : List Word) :
    Leaves view p (uvmcopyPages old new l) := by
  induction l with
  | nil => exact leaves_pure _
  | cons i rest ih =>
    refine leaves_get.bind fun s => ?_
    split
    · exact ih
    · dsimp only
      split
      · exact ih
      · refine allocPage_leaves.bind fun page => ?_
        split
        · exact leaves_pure _
        · refine (leaves_modify (fun _ => rfl) fun _ => rfl : Leaves view p (copyPage _ _)).bind
            fun _ => (mapPage_leaves _ _ _ _).bind fun r => ?_
          split
          · exact (freePage_leaves _).bind fun _ => leaves_pure _
          · exact ih

theorem memcpy_leaves (dst : Word) (src : Nat → BitVec 8) (n : Nat) :
    Leaves view p (memcpy dst src n) :=
  leaves_forM (fun _ => leaves_get.bind fun _ => storeWord_leaves _ _ _) _

theorem freePagetable_leaves (depth : Nat) (pt : Word) : Leaves view p (freePagetable depth pt) := by
  induction depth generalizing pt with
  | zero => exact leaves_throw _
  | succ depth ih =>
    refine (leaves_forM (fun i => leaves_get.bind fun s => ?_) indices).bind
      fun _ => freePage_leaves pt
    dsimp only
    split
    · exact (ih _).bind fun _ => storeWord_leaves _ _ _
    · split
      · exact storeWord_leaves _ _ _
      · exact leaves_pure _

end Leaves

/-- What the statements before the publication keep of the new slot. -/
def stage (proc : Proc) : ProcState × Option Slot := (proc.state, proc.parent)

theorem Kept.hidden {p : Slot} {s t : Kernel} (kept : Kept stage p s t)
    (hidden : (s.procs p).state ≠ .runnable) : (t.procs p).state ≠ .runnable := by
  rw [show (t.procs p).state = (s.procs p).state from (Prod.mk.inj kept.1).1]
  exact hidden

/-- `free_proc` does not make the slot runnable. -/
theorem freeProc_hides {p : Slot} {s : Kernel} (other : s.current ≠ some p)
    (hidden : (s.procs p).state ≠ .runnable) :
    ((after (freeProc p) s).procs p).state ≠ .runnable := by
  have one : Leaves stage p (freeTrapframe p) := leaves_get.bind fun s =>
    leaves_guard (freePage_leaves _) fun _ => updProc_leaves _ fun _ => rfl
  have two : Leaves stage p (freeTable p) := leaves_get.bind fun s =>
    leaves_guard (freePagetable_leaves _ _) fun _ => updProc_leaves _ fun _ => rfl
  have three : Leaves stage p (freeStack p) := leaves_get.bind fun s =>
    leaves_guard (freePage_leaves _) fun _ => updProc_leaves _ fun _ => rfl
  have whole : wp (freeProc p) (fun _ t => (t.procs p).state ≠ .runnable)
      (fun _ t => (t.procs p).state ≠ .runnable) s := by
    have front := (one.bind fun _ => two.bind fun _ => three) s other
    have last : freeProc p = (do freeTrapframe p; freeTable p; freeStack p) >>= fun _ =>
        updProc p fun proc => { proc with pid := 0, state := .unused, parent := none } := by
      unfold freeProc
      simp only [bind_assoc]
    rw [last, wp_bind]
    refine wp_mono front (fun _ t _ => ?_) fun _ t kept => kept.hidden hidden
    show ((t.setProc p _).procs p).state ≠ .runnable
    rw [setProc_procs, Function.update_self]
    simp
  unfold after
  unfold wp at whole
  cases run : freeProc p s with
  | ok a t =>
    rw [run] at whole
    exact whole
  | error e t =>
    rw [run] at whole
    exact whole

/-- A failure that leaves the slot hidden. -/
def Withdraws (p : Slot) (fail : K Unit) : Prop :=
  ∀ s : Kernel, s.current ≠ some p → (s.procs p).state ≠ .runnable →
    ((after fail s).procs p).state ≠ .runnable

theorem freeProc_withdraws (p : Slot) : Withdraws p (freeProc p) :=
  fun _ other hidden => freeProc_hides other hidden

/-- `free_page(stack_page); free_proc(p)` -/
theorem freeBoth_withdraws (p : Slot) (page : Word) :
    Withdraws p (do freePage page; freeProc p) := by
  intro s other hidden
  have first := (freePage_leaves page : Leaves stage p _) s other
  unfold wp at first
  cases run : freePage page s with
  | ok a t =>
    rw [run] at first
    have both : (do freePage page; freeProc p : K Unit) s = freeProc p t := bind_ok run
    have ends : after (do freePage page; freeProc p) s = after (freeProc p) t := by
      unfold after
      rw [both]
    rw [ends]
    exact freeProc_hides first.2 (Kept.hidden first hidden)
  | error e t =>
    rw [run] at first
    have both : (do freePage page; freeProc p : K Unit) s = .error e t := by
      show EStateM.bind (freePage page) (fun _ => freeProc p) s = _
      unfold EStateM.bind
      rw [run]
    have ends : after (do freePage page; freeProc p) s = t := by
      unfold after
      rw [both]
    rw [ends]
    exact Kept.hidden first hidden

/-- The statement does not make the new slot runnable, and leaves its parent. -/
def Hides (p : Slot) (stmt : Stmt) : Prop :=
  ∀ x : Site, x.kernel.current ≠ some p → (x.kernel.procs p).state ≠ .runnable →
    match stmt x with
    | .next y => Kept stage p x.kernel y.kernel
    | .stop y => (y.kernel.procs p).state ≠ .runnable

section Hides

variable {p : Slot}

theorem act_hides {k : K Unit} (leaves : Leaves stage p k) : Hides p (act k) := by
  intro x other hidden
  have kept := leaves x.kernel other
  unfold wp at kept
  unfold act
  cases run : k x.kernel with
  | ok a t =>
    rw [run] at kept
    exact kept
  | error e t =>
    rw [run] at kept
    exact Kept.hidden kept hidden

theorem check_hides {fail : K Unit} {k : K Int} (withdraws : Withdraws p fail)
    (leaves : Leaves stage p k) : Hides p (check fail k) := by
  intro x other hidden
  have kept := leaves x.kernel other
  unfold wp at kept
  unfold check
  cases run : k x.kernel with
  | ok r t =>
    rw [run] at kept
    by_cases failed : r ≠ 0
    · simp only [if_pos failed]
      exact withdraws t kept.2 (Kept.hidden kept hidden)
    · simp only [if_neg failed]
      exact kept
  | error e t =>
    rw [run] at kept
    exact Kept.hidden kept hidden

theorem takePage_hides : Hides p (takePage p) := by
  intro x other hidden
  have kept := (allocPage_leaves : Leaves stage p _) x.kernel other
  unfold wp at kept
  unfold takePage
  cases run : allocPage x.kernel with
  | ok pg t =>
    rw [run] at kept
    by_cases failed : pg = 0
    · simp only [if_pos failed]
      exact freeProc_hides kept.2 (Kept.hidden kept hidden)
    · simp only [if_neg failed]
      exact kept
  | error e t =>
    rw [run] at kept
    exact Kept.hidden kept hidden

theorem withPage_hides {stmt : Word → Stmt} (each : ∀ page, Hides p (stmt page)) :
    Hides p (withPage stmt) :=
  fun x => each x.page x

theorem storeField_leaves {γ : Type} {view : Proc → γ} (tf : Word) (f : Field) (v : Word) :
    Leaves view p (storeField tf f v) :=
  leaves_modify (fun _ => rfl) fun _ => rfl

theorem setField_hides (f : Field) (v : Word) : Hides p (setField p f v) :=
  act_hides (leaves_get.bind fun _ => storeField_leaves _ _ _)

theorem mapCheck_hides {fail : K Unit} {va pa perm : Kernel → Word} (withdraws : Withdraws p fail) :
    Hides p (check fail do
      let s ← get
      mapPage (s.procs p).pagetable (va s) (pa s) (perm s)) :=
  check_hides withdraws (leaves_get.bind fun _ => mapPage_leaves _ _ _ _)

theorem stackStmts_hide (i : Nat) : ∀ stmt ∈ stackStmts p i, Hides p stmt := by
  intro stmt inside
  simp only [stackStmts, List.mem_cons, List.not_mem_nil, or_false] at inside
  rcases inside with rfl | rfl
  · exact takePage_hides
  · exact withPage_hides fun page =>
      check_hides (freeBoth_withdraws p page) (leaves_get.bind fun _ => mapPage_leaves _ _ _ _)

/-- Nothing is published before the statement that does it. -/
def Creation.Hides (c : Creation) : Prop := ∀ p, ∀ stmt ∈ c.before p, Vm.Hides p stmt

theorem kernelCreation_hides (entry : Word) : (kernelCreation entry).Hides := by
  intro p stmt inside
  rw [List.mem_singleton.mp inside]
  exact setField_hides _ _

theorem kernelCreation1_hides (entry arg : Word) : (kernelCreation1 entry arg).Hides := by
  intro p stmt inside
  simp only [kernelCreation1, List.mem_cons, List.not_mem_nil, or_false] at inside
  rcases inside with rfl | rfl <;> exact setField_hides _ _

theorem userCreation_hides (userBin : Nat → BitVec 8) (binSize : Nat) (usertrap kernelvec : Word) :
    (userCreation userBin binSize usertrap kernelvec).Hides := by
  intro p stmt inside
  simp only [userCreation, List.mem_append, List.mem_cons, List.not_mem_nil, or_false] at inside
  rcases inside with (((rfl | rfl | rfl) | stack) | stack) | inside
  · exact takePage_hides
  · exact withPage_hides fun page => act_hides (leaves_get.bind fun _ =>
      (mapPage_leaves _ _ _ _).bind fun _ => leaves_pure _)
  · exact withPage_hides fun page => act_hides (memcpy_leaves _ _ _)
  · exact stackStmts_hide 0 stmt stack
  · exact stackStmts_hide 1 stmt stack
  · rcases inside with rfl | rfl | rfl | rfl | rfl | rfl | rfl | rfl | rfl | rfl
    · exact act_hides (updProc_leaves _ fun _ => rfl)
    · exact mapCheck_hides (freeProc_withdraws p)
    · exact act_hides (leaves_get.bind fun _ => leaves_modify (fun _ => rfl) fun _ => rfl)
    · exact setField_hides _ _
    · exact setField_hides _ _
    · exact setField_hides _ _
    · exact act_hides (leaves_get.bind fun _ => storeField_leaves _ _ _)
    · exact act_hides (leaves_get.bind fun _ => storeField_leaves _ _ _)
    · exact setField_hides _ _
    · exact setField_hides _ _

theorem forkCreation_hides (parent : Slot) : (forkCreation parent).Hides := by
  intro child stmt inside
  simp only [forkCreation, List.mem_cons, List.not_mem_nil, or_false] at inside
  have copied : Leaves stage child (modify fun s =>
      s.setProc child { s.procs child with sz := (s.procs parent).sz }) := by
    refine leaves_modify (fun s => ?_) fun _ => rfl
    rw [setProc_procs, Function.update_self]
    rfl
  rcases inside with rfl | rfl | rfl | rfl | rfl | rfl | rfl | rfl | rfl | rfl
  · exact check_hides (freeProc_withdraws child) (leaves_get.bind fun _ =>
      (uvmcopyPages_leaves _ _ _).bind fun _ => leaves_pure _)
  · exact act_hides copied
  · exact check_hides (freeProc_withdraws child) (leaves_get.bind fun _ => leaves_pure _)
  · exact mapCheck_hides (freeProc_withdraws child)
  · exact mapCheck_hides (freeProc_withdraws child)
  · exact act_hides (leaves_get.bind fun _ => leaves_modify (fun _ => rfl) fun _ => rfl)
  · exact act_hides (leaves_get.bind fun _ => storeField_leaves _ _ _)
  · exact act_hides (leaves_get.bind fun _ => storeField_leaves _ _ _)
  · exact act_hides (leaves_get.bind fun _ => leaves_modify (fun _ => rfl) fun _ => rfl)
  · exact setField_hides _ _

end Hides

/-! ### The states between the statements -/

section Trail

variable {p : Slot} {l rest : List Stmt} {x y : Site}

theorem mem_trail (l : List Stmt) (x : Site) : x ∈ trail l x := by
  cases l with
  | nil => exact List.mem_singleton_self x
  | cons stmt rest => exact List.mem_cons_self

theorem trail_getLast (l : List Stmt) (x : Site) : ∃ final, (trail l x).getLast? = some final := by
  cases is : (trail l x).getLast? with
  | none =>
    rw [List.getLast?_eq_none_iff] at is
    exact absurd (mem_trail l x) (is ▸ List.not_mem_nil)
  | some final => exact ⟨final, rfl⟩

/-- The statements that ran leave the slot as it was. -/
theorem completes_kept (all : ∀ stmt ∈ l, Hides p stmt) (other : x.kernel.current ≠ some p)
    (hidden : (x.kernel.procs p).state ≠ .runnable) (done : completes l x = some y) :
    Kept stage p x.kernel y.kernel := by
  induction l generalizing x with
  | nil =>
    obtain rfl := Option.some.inj done
    exact ⟨rfl, other⟩
  | cons stmt rest ih =>
    have first := all stmt List.mem_cons_self x other hidden
    unfold completes at done
    split at done
    · next z run =>
      rw [run] at first
      have after := ih (fun stmt inside => all stmt (List.mem_cons_of_mem _ inside)) first.2
        (Kept.hidden first hidden) done
      exact ⟨after.1.trans first.1, after.2⟩
    · cases done

/-- If one of the statements is the last, the slot is hidden throughout. -/
theorem trail_hidden (all : ∀ stmt ∈ l, Hides p stmt) (other : x.kernel.current ≠ some p)
    (hidden : (x.kernel.procs p).state ≠ .runnable) (stopped : completes l x = none) :
    ∀ y ∈ trail (l ++ rest) x, (y.kernel.procs p).state ≠ .runnable := by
  induction l generalizing x with
  | nil => cases stopped
  | cons stmt l ih =>
    have first := all stmt List.mem_cons_self x other hidden
    intro y inside
    rw [List.cons_append, trail] at inside
    rcases List.mem_cons.mp inside with rfl | inside
    · exact hidden
    · unfold completes at stopped
      cases run : stmt x with
      | next z =>
        rw [run] at first stopped inside
        exact ih (fun stmt inside => all stmt (List.mem_cons_of_mem _ inside)) first.2
          (Kept.hidden first hidden) stopped y inside
      | stop z =>
        rw [run] at first inside
        rw [List.mem_singleton.mp inside]
        exact first

/-- The states of what follows are among the states of the whole. -/
theorem trail_suffix (done : completes l x = some y) : ∀ z ∈ trail rest y, z ∈ trail (l ++ rest) x := by
  induction l generalizing x with
  | nil =>
    obtain rfl := Option.some.inj done
    exact fun z inside => inside
  | cons stmt l ih =>
    intro z inside
    unfold completes at done
    rw [List.cons_append, trail]
    split at done
    · exact List.mem_cons_of_mem _ (ih done z inside)
    · cases done

end Trail

/-- `alloc_proc` leaves the parent of every slot. -/
theorem allocProc_leaves (isUser : Bool) (p : Slot) : Leaves Proc.parent p (allocProc isUser) := by
  have abandon : ∀ q, Leaves Proc.parent p (abandonProc q) := by
    intro q
    unfold abandonProc
    exact Leaves.bind (updProc_leaves _ fun _ => rfl) fun _ => leaves_pure _
  have stack : ∀ q, Leaves Proc.parent p (allocStack q) := by
    intro q
    refine allocPage_leaves.bind fun kstack => ?_
    split
    · refine leaves_get.bind fun s => (freePage_leaves _).bind fun _ =>
        (freePagetable_leaves _ _).bind fun _ => ?_
      exact Leaves.bind (updProc_leaves _ fun _ => rfl) fun _ => abandon q
    · exact Leaves.bind (updProc_leaves _ fun _ => rfl) fun _ => leaves_pure _
  have root : Leaves Proc.parent p createPagetable := by
    refine allocPage_leaves.bind fun pt => ?_
    split
    · exact leaves_pure _
    · exact (clearPage_leaves _).bind fun _ => leaves_pure _
  have table : ∀ q, Leaves Proc.parent p (allocTable q isUser) := by
    intro q
    unfold allocTable
    split
    · refine root.bind fun pt => Leaves.bind (updProc_leaves _ fun _ => rfl) fun _ => ?_
      split
      · refine leaves_get.bind fun s => (freePage_leaves _).bind fun _ => ?_
        exact Leaves.bind (updProc_leaves _ fun _ => rfl) fun _ => abandon q
      · exact stack q
    · refine Leaves.bind (leaves_modify (fun s => ?_) fun _ => rfl) fun _ => stack q
      by_cases here : p = q
      · rw [here, setProc_procs, Function.update_self]
      · rw [setProc_procs, Function.update_of_ne here]
  refine leaves_get.bind fun s => ?_
  split
  · exact leaves_pure _
  · next q _ =>
    refine Leaves.bind (updProc_leaves _ fun _ => rfl) fun _ => allocPage_leaves.bind fun tf => ?_
    refine Leaves.bind (updProc_leaves _ fun _ => rfl) fun _ => ?_
    split
    · exact abandon q
    · exact table q

/-- The functions that create processes, with their arguments. -/
inductive Creator
  | createKernelProc (entry : Word)
  | createKernelProc1 (entry arg : Word)
  | createUserProc (userBin : Nat → BitVec 8) (binSize : Nat) (usertrap kernelvec : Word)
  | forkProc

/-- The statements of a function that process `parent` runs. -/
def Creator.creation (parent : Slot) : Creator → Creation
  | .createKernelProc entry => kernelCreation entry
  | .createKernelProc1 entry arg => kernelCreation1 entry arg
  | .createUserProc userBin binSize usertrap kernelvec =>
    userCreation userBin binSize usertrap kernelvec
  | .forkProc => forkCreation parent

theorem Creator.hides (parent : Slot) (f : Creator) : (f.creation parent).Hides := by
  cases f with
  | createKernelProc entry => exact kernelCreation_hides entry
  | createKernelProc1 entry arg => exact kernelCreation1_hides entry arg
  | createUserProc userBin binSize usertrap kernelvec =>
    exact userCreation_hides userBin binSize usertrap kernelvec
  | forkProc => exact forkCreation_hides parent

/-- A process is published complete in every state between two statements exactly where the call
does not get as far as to publish it: no slot is unused, or memory runs out before. -/
theorem publishes_complete_iff {s : Kernel} {x : Site} (start : Started s)
    (run : ReflTransGen Step s x.kernel) {parent : Slot} (cur : x.kernel.current = some parent)
    (f : Creator) :
    (f.creation parent).PublishesComplete x ↔ ¬ (f.creation parent).Arrives x := by
  obtain ⟨table, o, inv⟩ := Table.run start run
  set c := f.creation parent
  -- what `alloc_proc` has done when it returns a slot
  have allocated : ∀ p t, allocProc (c.isUser x.kernel) x.kernel = .ok (some p) t →
      t.current ≠ some p ∧ (t.procs p).state ≠ .runnable ∧ (t.procs p).parent = none := by
    intro p t taken
    rcases wp_ok (allocProc_wp inv.owns (c.isUser x.kernel)) taken with ⟨none, -⟩ | ⟨q, o', is, a⟩
    · cases none
    obtain rfl := Option.some.inj is
    have unused := nextSlot_unused a.chosen
    have other : x.kernel.current ≠ some p := by
      intro is
      rw [inv.current p is] at unused
      cases unused
    have kept := allocProc_leaves (c.isUser x.kernel) p x.kernel other
    rw [wp_value taken] at kept
    refine ⟨kept.2, by simp [a.used], kept.1.trans ?_⟩
    exact (table.empty p fun live => live unused).parent
  constructor
  · rintro complete ⟨p, t, taken, arrives⟩
    obtain ⟨other, hidden, orphan⟩ := allocated p t taken
    obtain ⟨y, done⟩ := Option.isSome_iff_exists.mp arrives
    have kept := completes_kept (x := x.allocated t p) (f.hides parent p) other hidden done
    set z : Site := { y with
      kernel := y.kernel.setProc p { y.kernel.procs p with state := .runnable } } with published
    have passed : z ∈ trail (c.before p ++ publish p :: c.rest p) (x.allocated t p) := by
      refine trail_suffix done z ?_
      rw [trail]
      exact List.mem_cons_of_mem _ (mem_trail (c.rest p) z)
    obtain ⟨final, last⟩ := trail_getLast (c.before p ++ publish p :: c.rest p) (x.allocated t p)
    have states : c.states x =
        some (p, trail (c.before p ++ publish p :: c.rest p) (x.allocated t p)) := by
      unfold Creation.states
      rw [taken]
    have self : z.kernel.procs p = { y.kernel.procs p with state := .runnable } := by
      rw [published, setProc_procs, Function.update_self]
    have runnable : (z.kernel.procs p).state = .runnable := by rw [self]
    have named := (complete parent cur p _ states final last z passed runnable).parent
    rw [self, show (y.kernel.procs p).parent = _ from (Prod.mk.inj kept.1).2] at named
    rw [show ((x.allocated t p).kernel.procs p).parent = none from orphan] at named
    cases named
  · intro never parent' _ p sites states final _ y inside runnable
    unfold Creation.states at states
    split at states
    · next q t taken =>
      obtain ⟨rfl, rfl⟩ := Prod.mk.inj (Option.some.inj states)
      obtain ⟨other, hidden, -⟩ := allocated q t taken
      have stopped : completes (c.before q) (x.allocated t q) = none := by
        cases done : completes (c.before q) (x.allocated t q) with
        | none => rfl
        | some z => exact absurd ⟨q, t, taken, by rw [done]; rfl⟩ never
      exact absurd runnable
        (trail_hidden (f.hides parent q) other hidden stopped y inside)
    · cases states

/-- Process 0, of the kernel, runs. -/
@[irreducible] def firstRuns : Kernel :=
  let t := after (createKernelProc 0x80001000) sampleBoot
  { t.setProc 0 { t.procs 0 with state := .running } with current := some 0 }

theorem firstRuns_reachable : ∃ s, Started s ∧ ReflTransGen Step s firstRuns := by
  have returned : value (createKernelProc 0x80001000) sampleBoot = some 0 := by decide +kernel
  have ready : (after (createKernelProc 0x80001000) sampleBoot).current = none ∧
      ((after (createKernelProc 0x80001000) sampleBoot).procs 0).state = .runnable := by
    decide +kernel
  refine ⟨_, ⟨sampleBoot, 0x80001000, sampleBoot_booted, fun _ => ⟨rfl, rfl, rfl, rfl, rfl⟩,
    run_of_value returned⟩, ?_⟩
  unfold firstRuns
  exact .single (.dispatch 0 ready.1 ready.2)

theorem firstRuns_current : firstRuns.current = some 0 := by decide +kernel

/-- Process 0 with a working directory. -/
def firstSite : Site := ⟨firstRuns, fun _ => some 0, 0⟩

theorem publishes_complete_iff_first :
    (kernelCreation 0x80001000).PublishesComplete firstSite ↔
      ¬ (kernelCreation 0x80001000).Arrives firstSite := by
  obtain ⟨s, started, run⟩ := firstRuns_reachable
  exact publishes_complete_iff (x := firstSite) started run firstRuns_current
    (.createKernelProc 0x80001000)

/-- Process 1 is runnable, and has no parent. -/
theorem orphan_published : ((kernelCreation 0x80001000).states firstSite).any (fun (p, sites) =>
    sites.any fun y => decide ((y.kernel.procs p).state = .runnable ∧
      (y.kernel.procs p).parent = none)) = true := by
  decide +kernel

/-- A process that `create_kernel_proc` has made runnable has no parent yet. -/
theorem published_incomplete : (∃ s, Started s ∧ ReflTransGen Step s firstSite.kernel) ∧
    firstSite.kernel.current = some 0 ∧ ¬ (kernelCreation 0x80001000).PublishesComplete firstSite := by
  refine ⟨firstRuns_reachable, firstRuns_current, fun complete => ?_⟩
  obtain ⟨⟨p, sites⟩, states, some⟩ := (Option.any_eq_true _ _).mp orphan_published
  obtain ⟨y, inside, found⟩ := List.any_eq_true.mp some
  obtain ⟨runnable, orphan⟩ := of_decide_eq_true found
  have nonempty : sites ≠ [] := List.ne_nil_of_mem inside
  have last := List.getLast?_eq_some_getLast nonempty
  have named := (complete 0 firstRuns_current p sites states _ last y inside runnable).parent
  rw [orphan] at named
  cases named

end Xv6Lab.Vm

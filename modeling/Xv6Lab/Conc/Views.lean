import Mathlib.Data.List.Perm.Subperm
import Xv6Lab.Conc.Calls

/-! What a process knows of the shared state while it runs a call: the locks it holds, its open
operations, its disk request, its inode references, and facts about directories that stay true while
it holds their locks.  Every function of the file system keeps the rules for these views. -/

namespace Xv6Lab.Conc

open Prog

/-- Knowledge that is safe for as long as the lock of inode `key` is held. -/
inductive Fact
  /-- `d` is a directory. -/
  | dir (d : Nat)
  /-- `i` is `d` itself, or was allocated after `d`. -/
  | above (d i : Nat)
  deriving DecidableEq, Repr

def Fact.key : Fact → Nat
  | dir d => d
  | above d _ => d

structure View where
  spins : List Spin
  locks : List Lock
  ops : Nat
  /-- The buffer whose request may be in flight. -/
  flight : Option Nat
  fds : List Nat
  refs : List Nat
  knows : List Fact
  /-- An inode with `ref = 1`, known while `itable.lock` is held. -/
  alone : Option Nat

namespace View

def addLock (v : View) (l : Lock) : View := { v with locks := l :: v.locks }

def dropLock (v : View) (l : Lock) : View :=
  { v with
    locks := v.locks.erase l
    knows := v.knows.filter fun f => Lock.inode f.key ≠ l }

def learn (v : View) (fs : List Fact) : View := { v with knows := fs ++ v.knows }

/-- What the allocation of inode `i` tells about the known directories. -/
def freshFacts (v : View) (i : Nat) : List Fact :=
  v.knows.filterMap fun
    | .dir d => some (.above d i)
    | .above _ _ => none

/-- Inode `i` may be locked next: it comes after all that are locked, or nobody else has it. -/
def MayLock (v : View) (i : Nat) : Prop :=
  (∀ d, .inode d ∈ v.locks → .above d i ∈ v.knows) ∨ v.alone = some i

/-- The view outside every critical section of a spinlock. -/
def calm (locks : List Lock) (ops : Nat) (fds refs : List Nat) (knows : List Fact) : View :=
  ⟨[], locks, ops, none, fds, refs, knows, none⟩

/-- There is a reference behind inode `i`. -/
def Has (v : View) (i : Nat) : Prop := i ∈ v.refs ∨ i ∈ v.fds

end View

/-- What a command demands of the view. -/
@[simp] def Cmd.ok : Cmd → View → Prop
  | release lk, v => lk ∈ v.spins
  | await (.sleeplock (.inode i)), v =>
    v.spins.head? = some (.inner (.inode i)) ∧ .inode i ∉ v.locks ∧ v.Has i ∧ v.MayLock i
  | await (.sleeplock (.buf b)), v => v.spins.head? = some (.inner (.buf b))
  | await .logSpace, v => v.spins.head? = some .log
  | await .descriptors, v => v.spins.head? = some .disk
  | await (.disk b), v => v.spins.head? = some .disk ∧ v.flight = some b
  | unlock l, v => l ∈ v.locks
  | submit _, v => v.flight = none
  | incRef _, v => .itable ∈ v.spins
  | decRef i, v =>
    .itable ∈ v.spins ∧ i ∈ v.refs ∧ (.inode i ∈ v.locks → i ∈ v.refs.erase i ∨ i ∈ v.fds)
  | getKind i, v => .inode i ∈ v.locks
  | entry d, v => .inode d ∈ v.locks ∧ .dir d ∈ v.knows
  | link d i, v => .inode d ∈ v.locks ∧ .above d i ∈ v.knows
  | clearEntry d _, v => .inode d ∈ v.locks
  | clearInode i, v => .inode i ∈ v.locks
  | fdalloc i, v => i ∈ v.refs
  | fdclear i, v => i ∈ v.fds
  | acquire _, _ | locked _, _ | holding _, _ | leaveOp, _ | outstanding, _ | committing, _
  | setCommitting _, _ | logN, _ | clearLog, _ | logBlock _, _ | freeChain, _ | getRef _, _
  | markInode _, _ | cwd, _ | fdget, _ | anyBool, _ | anyNat, _ | panic _, _ => True

/-- Which replies the view allows. -/
@[simp] def Cmd.can : (c : Cmd) → c.Reply → View → Prop
  | acquire lk, _, v => lk ∉ v.spins
  | await (.sleeplock l), _, v => l ∉ v.locks
  | holding l, r, v => r = decide (l ∈ v.locks)
  | cwd, i, v => i ∈ v.refs
  | fdget, found, v => ∀ i ∈ found, i ∈ v.fds
  | fdalloc _, ok, v => ok = decide (v.fds.length < NOFILE - 3)
  | await .logSpace, _, _ | await .descriptors, _, _ | await (.disk _), _, _ | release _, _, _
  | locked _, _, _ | unlock _, _, _ | leaveOp, _, _ | outstanding, _, _ | committing, _, _
  | setCommitting _, _, _ | logN, _, _ | clearLog, _, _ | logBlock _, _, _ | submit _, _, _
  | freeChain, _, _ | getRef _, _, _ | incRef _, _, _ | decRef _, _, _ | getKind _, _, _
  | entry _, _, _ | link _ _, _, _ | clearEntry _ _, _, _ | markInode _, _, _
  | clearInode _, _, _ | fdclear _, _, _ | anyBool, _, _ | anyNat, _, _ | panic _, _, _ => True

/-- The view after a command. -/
@[simp] def Cmd.after : (c : Cmd) → c.Reply → View → View
  | acquire lk, _, v => { v with spins := lk :: v.spins }
  | release lk, _, v =>
    { v with spins := v.spins.erase lk, alone := if lk = .itable then none else v.alone }
  | await (.sleeplock l), _, v => v.addLock l
  | await .logSpace, _, v => { v with ops := v.ops + 1 }
  | await (.disk _), _, v => { v with flight := none }
  | unlock l, _, v => v.dropLock l
  | leaveOp, _, v => { v with ops := v.ops - 1 }
  | submit b, _, v => { v with flight := some b }
  | getRef i, n, v => { v with alone := if n = 1 ∧ .itable ∈ v.spins then some i else v.alone }
  | incRef i, _, v => { v with refs := i :: v.refs, alone := none }
  | decRef i, _, v => { v with refs := v.refs.erase i, alone := none }
  | getKind i, k, v => v.learn (if k = .dir then [.dir i] else [])
  | entry d, found, v => v.learn (found.toList.map (.above d))
  | markInode _, i, v => v.learn (v.freshFacts i)
  | clearInode i, _, v => { v with knows := v.knows.filter fun f => f.key ≠ i }
  | fdalloc i, ok, v => if ok then { v with fds := i :: v.fds, refs := v.refs.erase i } else v
  | fdclear i, _, v => { v with fds := v.fds.erase i, refs := i :: v.refs }
  | await .descriptors, _, v | locked _, _, v | holding _, _, v | outstanding, _, v
  | committing, _, v | setCommitting _, _, v | logN, _, v | clearLog, _, v | logBlock _, _, v
  | freeChain, _, v | link _ _, _, v | clearEntry _ _, _, v | cwd, _, v | fdget, _, v
  | anyBool, _, v | anyNat, _, v | panic _, _, v => v

/-- The rules of the commands. -/
def rules : Rules Cmd Cmd.Reply View := ⟨Cmd.ok, Cmd.can, Cmd.after⟩

section Basics

variable {α : Type} {v : View}

@[simp] theorem wp_run (c : Cmd) (Q : c.Reply → View → Prop) (v : View) :
    @wp _ _ (no_index c.Reply) _ rules (run c) Q v =
      (c.ok v ∧ ∀ r, c.can r v → Q r (c.after r v)) := rfl

theorem run_wp {c : Cmd} {Q : c.Reply → View → Prop} (ok : c.ok v)
    (post : ∀ r, c.can r v → Q r (c.after r v)) : (run c).wp rules Q v := ⟨ok, post⟩

@[simp] theorem wp_panic (msg : String) (Q : α → View → Prop) (v : View) :
    (panic msg : Code α).wp rules Q v = True := by
  simp only [eq_iff_iff, iff_true]
  exact ⟨trivial, fun r => nomatch r⟩

@[simp] theorem wp_panicIf (b : Bool) (msg : String) (Q : Unit → View → Prop) (v : View) :
    (panicIf b msg).wp rules Q v = (b = false → Q () v) := by
  cases b <;> simp [panicIf]

@[simp] theorem wp_may (x : Code Unit) (Q : Unit → View → Prop) (v : View) :
    (may x).wp rules Q v = (x.wp rules Q v ∧ Q () v) := by
  simp [may, and_comm]

/-- A function that keeps every view without a request of its own in flight. -/
def Neutral (x : Code α) : Prop :=
  ∀ {v : View} {Q : α → View → Prop}, v.flight = none → (∀ a, Q a v) → x.wp rules Q v

theorem Neutral.times {x : Code Unit} (h : Neutral x) (n : Nat) : Neutral (times n x) := by
  intro v Q quiet post
  refine wp_mono rules (wp_times rules (I := fun w => w = v) ?_ n rfl) ?_
  · rintro _ rfl
    exact h quiet fun _ => rfl
  · rintro a _ rfl
    exact post a

theorem Neutral.loop {x : Code Unit} (h : Neutral x) : Neutral (loop x) := by
  intro v Q quiet post
  simp only [Conc.loop, wp_bind, wp_run, Cmd.ok, Cmd.can, Cmd.after, true_and, forall_true_left]
  exact fun n => h.times n quiet post

end Basics

@[simp] theorem erase_second {α : Type} [DecidableEq α] (a b : α) (l : List α) :
    (a :: b :: l).erase b = a :: l := by
  by_cases same : a = b
  · simp [same]
  · simp [List.erase_cons_tail, same]

@[simp] theorem View.dropLock_buf (v : View) (b : Nat) :
    v.dropLock (.buf b) = { v with locks := v.locks.erase (.buf b) } := by
  simp [View.dropLock]

@[simp] theorem View.addLock_dropLock_buf (v : View) (b : Nat) :
    (v.addLock (.buf b)).dropLock (.buf b) = v := by
  simp [View.addLock]

/-! ### Buffers and the log -/

section Buffers

variable {v : View}

theorem acquiresleep_buf {Q : Unit → View → Prop} {b : Nat}
    (post : .buf b ∉ v.locks → Q () (v.addLock (.buf b))) :
    (acquiresleep (.buf b)).wp rules Q v := by
  simp [acquiresleep, View.addLock]
  intro _ fresh _
  exact post fresh

theorem releasesleep_wp {Q : Unit → View → Prop} {l : Lock} (held : l ∈ v.locks)
    (post : Q () (v.dropLock l)) : (releasesleep l).wp rules Q v := by
  simp [releasesleep, View.dropLock, held]
  intro _ _
  simpa [View.dropLock] using post

theorem holdingsleep_wp {Q : Bool → View → Prop} {l : Lock}
    (post : Q (decide (l ∈ v.locks)) v) : (holdingsleep l).wp rules Q v := by
  simpa [holdingsleep] using fun _ => post

theorem virtioDiskRw_wp {Q : Unit → View → Prop} {b : Nat} (quiet : v.flight = none)
    (post : Q () v) : (virtioDiskRw b).wp rules Q v := by
  have same : ({ v with flight := none } : View) = v := by rw [← quiet]
  simp [virtioDiskRw, quiet, same]
  exact fun _ _ => post

theorem bread_wp {Q : Nat → View → Prop} (quiet : v.flight = none)
    (post : ∀ b, .buf b ∉ v.locks → Q b (v.addLock (.buf b))) : bread.wp rules Q v := by
  simp [bread, bget]
  intro _ b
  refine acquiresleep_buf fun fresh => ?_
  simp only [wp_pure, wp_may]
  exact ⟨virtioDiskRw_wp quiet (post b fresh), post b fresh⟩

theorem bwrite_wp {Q : Unit → View → Prop} {b : Nat} (quiet : v.flight = none) (post : Q () v) :
    (bwrite b).wp rules Q v := by
  simp only [bwrite, wp_bind]
  refine holdingsleep_wp ?_
  rw [wp_panicIf]
  exact fun _ => virtioDiskRw_wp quiet post

theorem brelse_wp {Q : Unit → View → Prop} {b : Nat} (held : .buf b ∈ v.locks)
    (post : Q () (v.dropLock (.buf b))) : (brelse b).wp rules Q v := by
  simp only [brelse, wp_bind]
  refine holdingsleep_wp ?_
  rw [wp_panicIf]
  intro _
  refine releasesleep_wp held ?_
  simp
  intro _ _
  simpa using post

theorem bpin_neutral : Neutral bpin := by
  intro v Q quiet post
  simp [bpin]
  exact fun _ => post

theorem bunpin_neutral : Neutral bunpin := bpin_neutral

theorem writeLogBody_neutral : Neutral writeLogBody := by
  intro v Q quiet post
  simp only [writeLogBody, wp_bind]
  refine bread_wp quiet fun lbuf _ => ?_
  refine bread_wp quiet fun dbuf _ => ?_
  refine bwrite_wp quiet ?_
  refine brelse_wp (.head _) ?_
  rw [View.addLock_dropLock_buf]
  refine brelse_wp (.head _) ?_
  rw [View.addLock_dropLock_buf]
  exact post ()

theorem writeHead_neutral : Neutral writeHead := by
  intro v Q quiet post
  simp only [writeHead, wp_bind]
  refine bread_wp quiet fun b _ => ?_
  refine bwrite_wp quiet ?_
  refine brelse_wp (.head _) ?_
  rw [View.addLock_dropLock_buf]
  exact post ()

theorem installTransBody_neutral : Neutral installTransBody := by
  intro v Q quiet post
  simp only [installTransBody, wp_bind]
  refine bread_wp quiet fun lbuf _ => ?_
  refine bread_wp quiet fun dbuf _ => ?_
  refine bwrite_wp quiet ?_
  refine bunpin_neutral quiet fun _ => ?_
  refine brelse_wp (.tail _ (.head _)) ?_
  have swap : ((v.addLock (.buf lbuf)).addLock (.buf dbuf)).dropLock (.buf lbuf) =
      v.addLock (.buf dbuf) := by
    simp [View.addLock]
  rw [swap]
  refine brelse_wp (.head _) ?_
  rw [View.addLock_dropLock_buf]
  exact post ()

theorem commit_neutral : Neutral commit := by
  intro v Q quiet post
  simp only [commit, wp_bind, wp_run, Cmd.ok, Cmd.can, Cmd.after, true_and, forall_true_left]
  intro n
  split
  · simp only [wp_bind]
    refine writeLogBody_neutral.times n quiet fun _ => ?_
    refine writeHead_neutral quiet fun _ => ?_
    refine installTransBody_neutral.times n quiet fun _ => ?_
    simp only [wp_run, Cmd.ok, Cmd.can, Cmd.after, true_and, forall_true_left]
    exact fun _ => writeHead_neutral quiet post
  · exact post ()

theorem logWrite_neutral : Neutral logWrite := by
  intro v Q quiet post
  simp [logWrite]
  intro _ _ _ _ _
  refine ⟨post, bpin_neutral quiet fun _ => ?_⟩
  simp
  exact post

theorem beginOp_wp {Q : Unit → View → Prop} (post : Q () { v with ops := v.ops + 1 }) :
    beginOp.wp rules Q v := by
  simp [beginOp]
  exact fun _ _ => post

theorem endOp_wp {Q : Unit → View → Prop} (quiet : v.flight = none)
    (post : Q () { v with ops := v.ops - 1 }) : endOp.wp rules Q v := by
  simp [endOp]
  intro _ n
  split
  · simp
    refine commit_neutral quiet fun _ => ?_
    simp
    exact fun _ _ => post
  · simp
    exact fun _ => post

end Buffers

/-! ### Blocks of the file system -/

section Blocks

theorem inspect_neutral : Neutral inspect := by
  intro v Q quiet post
  simp only [inspect, wp_bind]
  refine bread_wp quiet fun b _ => ?_
  refine brelse_wp (.head _) ?_
  rw [View.addLock_dropLock_buf]
  exact post ()

theorem modify_neutral : Neutral modify := by
  intro v Q quiet post
  simp only [modify, wp_bind]
  refine bread_wp quiet fun b _ => ?_
  refine logWrite_neutral quiet fun _ => ?_
  refine brelse_wp (.head _) ?_
  rw [View.addLock_dropLock_buf]
  exact post ()

theorem iupdate_neutral : Neutral iupdate := modify_neutral

theorem balloc_neutral : Neutral balloc := by
  intro v Q quiet post
  simp only [balloc, wp_bind]
  refine inspect_neutral.loop quiet fun _ => ?_
  simp
  refine ⟨post false, ?_⟩
  exact modify_neutral quiet fun _ => modify_neutral quiet fun _ => post true

theorem bfree_neutral : Neutral bfree := by
  intro v Q quiet post
  simp only [bfree, wp_bind]
  refine bread_wp quiet fun b _ => ?_
  simp
  refine logWrite_neutral quiet fun _ => ?_
  refine brelse_wp (.head _) ?_
  rw [View.addLock_dropLock_buf]
  exact post ()

theorem slot_neutral {store : Code Unit} (h : Neutral store) : Neutral (slot store) := by
  intro v Q quiet post
  simp [slot]
  refine ⟨post true, balloc_neutral quiet fun ok => ?_⟩
  split
  · simp only [wp_bind]
    exact h quiet fun _ => post true
  · exact post false

theorem pure_neutral : Neutral (pure () : Code Unit) := fun _ post => post ()

theorem bmap_neutral : Neutral bmap := by
  intro v Q quiet post
  simp [bmap]
  refine ⟨slot_neutral pure_neutral quiet fun ok => ?_, slot_neutral pure_neutral quiet post⟩
  split
  · simp only [wp_bind]
    refine bread_wp quiet fun b _ => ?_
    refine slot_neutral logWrite_neutral quiet fun ok => ?_
    refine brelse_wp (.head _) ?_
    rw [View.addLock_dropLock_buf]
    exact post ok
  · exact post false

theorem itrunc_neutral : Neutral itrunc := by
  intro v Q quiet post
  simp only [itrunc, wp_bind]
  refine bfree_neutral.loop quiet fun _ => ?_
  simp only [wp_may, wp_bind]
  refine ⟨?_, modify_neutral quiet post⟩
  refine bread_wp quiet fun b _ => ?_
  refine bfree_neutral.loop quiet fun _ => ?_
  refine brelse_wp (.head _) ?_
  rw [View.addLock_dropLock_buf]
  exact bfree_neutral quiet fun _ => modify_neutral quiet post

theorem readiLoop_neutral (n : Nat) : Neutral (readiLoop n) := by
  induction n with
  | zero => exact pure_neutral
  | succ n ih =>
    intro v Q quiet post
    simp only [readiLoop, wp_bind]
    refine bmap_neutral quiet fun ok => ?_
    split
    · simp only [wp_bind]
      exact inspect_neutral quiet fun _ => ih quiet post
    · exact post ()

theorem readi_neutral : Neutral readi := by
  intro v Q quiet post
  simp [readi]
  exact fun n => readiLoop_neutral n quiet post

theorem writeiLoop_neutral (n : Nat) : Neutral (writeiLoop n) := by
  induction n with
  | zero => exact pure_neutral
  | succ n ih =>
    intro v Q quiet post
    simp only [writeiLoop, wp_bind]
    refine bmap_neutral quiet fun ok => ?_
    split
    · simp only [wp_bind]
      refine bread_wp quiet fun b _ => ?_
      simp
      constructor
      · refine logWrite_neutral quiet fun _ => ?_
        refine brelse_wp (.head _) ?_
        rw [View.addLock_dropLock_buf]
        exact ih quiet post
      · refine brelse_wp (.head _) ?_
        rw [View.addLock_dropLock_buf]
        exact post ()
    · exact post ()

theorem writei_neutral : Neutral writei := by
  intro v Q quiet post
  simp [writei]
  exact ⟨fun n => writeiLoop_neutral n quiet fun _ => modify_neutral quiet post, post ()⟩

end Blocks

/-! ### Inodes -/

section Inodes

variable {v : View}

theorem acquiresleep_inode {Q : Unit → View → Prop} {i : Nat} (has : v.Has i) (may : v.MayLock i)
    (post : .inode i ∉ v.locks → Q () (v.addLock (.inode i))) :
    (acquiresleep (.inode i)).wp rules Q v := by
  simp only [acquiresleep, wp_bind, wp_run, Cmd.ok, Cmd.can, Cmd.after, true_and, wp_panicIf]
  rintro _ _ _ rfl notMine
  simp only [decide_eq_false_iff_not] at notMine
  refine ⟨⟨rfl, notMine, has, may⟩, fun _ _ => ⟨.head _, fun _ _ => ?_⟩⟩
  simpa [View.addLock] using post notMine

variable {L : List Lock} {n : Nat} {F R : List Nat} {K : List Fact}

theorem getRef_wp {Q : Nat → View → Prop} {i : Nat} (post : ∀ r, Q r (.calm L n F R K)) :
    (run (.getRef i)).wp rules Q (.calm L n F R K) := by
  refine run_wp trivial fun r _ => ?_
  simpa [View.calm] using post r

theorem ilock_wp {Q : Unit → View → Prop} {i : Nat} (has : i ∈ R ∨ i ∈ F)
    (may : ∀ d, .inode d ∈ L → .above d i ∈ K)
    (post : .inode i ∉ L → Q () (.calm (.inode i :: L) n F R K)) :
    (ilock i).wp rules Q (.calm L n F R K) := by
  simp only [ilock, wp_bind]
  refine getRef_wp fun r => ?_
  rw [wp_panicIf]
  intro _
  refine acquiresleep_inode has (.inl may) fun fresh => ?_
  simp only [wp_may, wp_bind]
  refine ⟨inspect_neutral rfl fun _ => ?_, post fresh⟩
  refine run_wp trivial fun _ _ => ?_
  rw [wp_panicIf]
  exact fun _ => post fresh

theorem iunlock_wp {Q : Unit → View → Prop} {i : Nat}
    (post : .inode i ∈ L → ∀ K, Q () (.calm (L.erase (.inode i)) n F R K)) :
    (iunlock i).wp rules Q (.calm L n F R K) := by
  simp only [iunlock, wp_bind]
  refine holdingsleep_wp ?_
  simp only [wp_panicIf, Bool.not_eq_false', decide_eq_true_eq]
  intro held
  refine getRef_wp fun r => ?_
  rw [wp_panicIf]
  intro _
  exact releasesleep_wp held (post held _)

theorem idup_wp {Q : Unit → View → Prop} {i : Nat} (post : Q () (.calm L n F (i :: R) K)) :
    (idup i).wp rules Q (.calm L n F R K) := by
  simp [idup, View.calm]
  exact fun _ => post

theorem iget_wp {Q : Unit → View → Prop} {i : Nat} (post : Q () (.calm L n F (i :: R) K)) :
    (iget i).wp rules Q (.calm L n F R K) := by
  simp [iget, View.calm]
  exact fun _ => post

/-- The end of `iput`, in the critical section of `itable.lock`. -/
theorem iput_end {Q : Unit → View → Prop} {i : Nat} {a : Option Nat} (has : i ∈ R)
    (backed : .inode i ∈ L → i ∈ R.erase i ∨ i ∈ F)
    (post : Q () (.calm L n F (R.erase i) K)) :
    (run (.decRef i)).wp rules (fun _ => (run (.release .itable)).wp rules Q)
      ⟨[.itable], L, n, none, F, R, K, a⟩ := by
  refine run_wp ⟨.head _, has, backed⟩ fun _ _ => run_wp (.head _) fun _ _ => ?_
  simpa [View.calm] using post

/-- `iput` drops a reference, and at worst forgets facts about the inode. -/
theorem iput_wp {Q : Unit → View → Prop} {i : Nat} (has : i ∈ R)
    (backed : .inode i ∈ L → i ∈ R.erase i ∨ i ∈ F)
    (post : ∀ K, Q () (.calm L n F (R.erase i) K)) :
    (iput i).wp rules Q (.calm L n F R K) := by
  simp only [iput, wp_bind]
  refine run_wp trivial fun _ _ => run_wp trivial fun r _ => run_wp trivial fun unlinked _ => ?_
  split
  · rename_i last
    simp only [ifree, wp_bind]
    refine acquiresleep_inode (.inl has) (.inr (by simp [last.1])) fun fresh => ?_
    refine run_wp (.head _) fun _ _ => ?_
    refine itrunc_neutral rfl fun _ => ?_
    refine run_wp (.head _) fun _ _ => ?_
    refine iupdate_neutral rfl fun _ => ?_
    refine releasesleep_wp (.head _) (run_wp trivial fun _ _ => ?_)
    simpa [View.calm, View.addLock, View.dropLock] using
      iput_end (a := none) has backed (post _)
  · exact iput_end has backed (post _)

theorem iunlockput_wp {Q : Unit → View → Prop} {i : Nat} (has : i ∈ R)
    (once : .inode i ∉ L.erase (.inode i))
    (post : ∀ K, Q () (.calm (L.erase (.inode i)) n F (R.erase i) K)) :
    (iunlockput i).wp rules Q (.calm L n F R K) := by
  simp only [iunlockput, wp_bind]
  exact iunlock_wp fun _ _ => iput_wp has (fun held => absurd held once) post

/-- The facts about the known directories that an allocation of inode `i` adds. -/
theorem ialloc_wp {Q : Option Nat → View → Prop} {k : Kind} (none : Q none (.calm L n F R K))
    (some : ∀ i K', (∀ d, .dir d ∈ K → .above d i ∈ K') → Q (some i) (.calm L n F (i :: R) K')) :
    (ialloc k).wp rules Q (.calm L n F R K) := by
  simp only [ialloc, wp_bind]
  refine inspect_neutral.loop rfl fun _ => run_wp trivial fun found _ => ?_
  split
  · simp only [wp_bind]
    refine bread_wp rfl fun b _ => ?_
    refine beginOp_wp (run_wp trivial fun i _ => ?_)
    refine logWrite_neutral rfl fun _ => ?_
    refine brelse_wp (.head _) ?_
    refine endOp_wp rfl ?_
    simp only [View.dropLock_buf, Cmd.after, View.learn, View.addLock, List.erase_cons_head,
      Nat.add_sub_cancel]
    refine iget_wp (some i _ fun d known => List.mem_append_left _ ?_)
    exact List.mem_filterMap.mpr ⟨_, known, rfl⟩
  · exact none

end Inodes

/-! ### Directories -/

section Directories

variable {L : List Lock} {n : Nat} {F R : List Nat} {K : List Fact}

theorem entryLoop_neutral (msg : String) :
    Neutral (loop do readi; panicIf (← run .anyBool) msg) := by
  refine Neutral.loop fun quiet post => ?_
  simp only [wp_bind]
  refine readi_neutral quiet fun _ => run_wp trivial fun _ _ => ?_
  rw [wp_panicIf]
  exact fun _ => post ()

theorem getKind_wp {Q : Kind → View → Prop} {i : Nat} (lock : .inode i ∈ L)
    (post : ∀ k K, Q k (.calm L n F R K)) : (run (.getKind i)).wp rules Q (.calm L n F R K) :=
  run_wp lock fun k _ => post k _

theorem dirlookup_wp {Q : Option Nat → View → Prop} {d : Nat} (lock : .inode d ∈ L)
    (none : Q none (.calm L n F R (.dir d :: K)))
    (some : ∀ i, Q (some i) (.calm L n F (i :: R) (.above d i :: .dir d :: K))) :
    (dirlookup d).wp rules Q (.calm L n F R K) := by
  simp only [dirlookup, wp_bind]
  refine run_wp lock fun k _ => ?_
  simp only [wp_panicIf, decide_eq_false_iff_not, ne_eq, not_not]
  rintro rfl
  refine entryLoop_neutral _ rfl fun _ => run_wp ⟨lock, .head _⟩ fun found _ => ?_
  cases found with
  | none => exact none
  | some i =>
    simp only [wp_bind]
    exact iget_wp (some i)

/-- `dirlink` stores its entry or leaves the caller to panic. -/
theorem dirlink_wp {Q : Bool → View → Prop} {d i : Nat} (lock : .inode d ∈ L)
    (above : .above d i ∈ K) (backed : ∀ j, .inode j ∈ L → j ∈ R ∨ j ∈ F)
    (linked : ∀ K, Q true (.calm L n F R K)) (failed : ∀ w, Q false w) :
    (dirlink d i).wp rules Q (.calm L n F R K) := by
  simp only [dirlink, wp_bind]
  refine dirlookup_wp lock ?_ fun old => ?_
  · simp only [wp_bind]
    refine entryLoop_neutral _ rfl fun _ => writei_neutral rfl fun _ => run_wp trivial fun ok _ => ?_
    split
    · simp only [wp_bind]
      exact run_wp ⟨lock, .tail _ above⟩ fun _ _ => linked _
    · exact failed _
  · simp only [wp_bind]
    refine iput_wp (.head _) (fun held => ?_) fun _ => failed _
    simpa using backed old held

/-- The walk along a path, which holds no lock between two elements. -/
theorem namexLoop_wp {Q : Option Nat → View → Prop} {nameiparent : Bool}
    (none : ∀ K, Q none (.calm [] n F R K))
    (some : ∀ j K, Q (some j) (.calm [] n F (j :: R) K)) (m i : Nat) (K : List Fact) :
    (namexLoop nameiparent m i).wp rules Q (.calm [] n F (i :: R) K) := by
  induction m generalizing i K with
  | zero =>
    simp only [namexLoop]
    split
    · simp only [wp_bind]
      refine iput_wp (.head _) (by simp) fun K => ?_
      simpa using none K
    · exact some i K
  | succ m ih =>
    simp only [namexLoop, wp_bind]
    refine ilock_wp (.inl (.head _)) (by simp) fun _ => getKind_wp (.head _) fun k K => ?_
    split
    · simp only [wp_bind]
      refine iunlockput_wp (.head _) (by simp) fun K => ?_
      simpa using none K
    · split
      · simp only [wp_bind]
        refine iunlock_wp fun _ K => ?_
        simpa using some i K
      · simp only [wp_bind]
        refine dirlookup_wp (.head _) ?_ fun next => ?_
        · simp only [wp_bind]
          refine iunlockput_wp (.head _) (by simp) fun K => ?_
          simpa using none K
        · simp only [wp_bind]
          refine iunlockput_wp (.tail _ (.head _)) (by simp) fun K => ?_
          simpa using ih next K

theorem namex_wp {Q : Option Nat → View → Prop} {nameiparent : Bool}
    (none : ∀ K, Q none (.calm [] n F R K))
    (some : ∀ j K, Q (some j) (.calm [] n F (j :: R) K)) :
    (namex nameiparent).wp rules Q (.calm [] n F R K) := by
  simp only [namex, wp_bind]
  refine run_wp trivial fun elems _ => run_wp trivial fun absolute _ => ?_
  split
  · simp only [wp_bind]
    exact iget_wp (namexLoop_wp none some _ _ _)
  · simp only [wp_bind]
    exact run_wp trivial fun cwd _ => idup_wp (namexLoop_wp none some _ _ _)

theorem createNew_wp {Q : Option Nat → View → Prop} {k : Kind} {d : Nat} (has : d ∈ R)
    (known : .dir d ∈ K) (some : ∀ i K, Q (some i) (.calm [] (n - 1) F (i :: R.erase d) K)) :
    (createNew k d).wp rules Q (.calm [.inode d] n F R K) := by
  simp only [createNew, wp_bind]
  refine ialloc_wp ?_ fun i K' above => ?_
  · simp
  · simp only [wp_bind]
    refine ilock_wp (.inl (.head _)) (by simpa using above d known) fun other => ?_
    have ne : i ≠ d := by simpa using other
    refine iupdate_neutral rfl fun _ => ?_
    have rest : (dirlink d i).wp rules (fun ok => (panicIf (!ok) "create: dirlink").wp rules
        fun _ => (iunlockput d).wp rules fun _ => (iunlock i).wp rules fun _ =>
          endOp.wp rules fun _ => (pure (.some i) : Code (Option Nat)).wp rules Q)
        (.calm [.inode i, .inode d] n F (i :: R) K') := by
      refine dirlink_wp (.tail _ (.head _)) (above d known) (by simp [has]) (fun K => ?_) (by simp)
      simp only [wp_panicIf, Bool.not_true, forall_true_left]
      refine iunlockput_wp (.tail _ has) (by simpa using ne.symm) fun K => ?_
      rw [erase_second, List.erase_cons_tail (by simpa using ne)]
      refine iunlock_wp fun _ K => ?_
      rw [List.erase_cons_head]
      exact endOp_wp rfl (some i K)
    split
    · simp only [wp_bind]
      exact iupdate_neutral rfl fun _ => rest
    · simp only [wp_bind]
      exact rest

theorem create_wp {Q : Option Nat → View → Prop} {k : Kind} (none : ∀ K, Q none (.calm [] n F R K))
    (some : ∀ i K, Q (some i) (.calm [] n F (i :: R) K)) :
    (create k).wp rules Q (.calm [] n F R K) := by
  simp only [create, wp_bind]
  refine beginOp_wp (namex_wp (fun K => ?_) fun d K => ?_)
  · simp only [wp_bind]
    exact endOp_wp rfl (none K)
  · simp only [wp_bind]
    refine ilock_wp (.inl (.head _)) (by simp) fun _ => ?_
    refine dirlookup_wp (.head _) ?_ fun i => ?_
    · refine createNew_wp (.head _) (.head _) fun i K => ?_
      rw [List.erase_cons_head]
      exact some i K
    · simp only [wp_bind]
      refine iunlockput_wp (.tail _ (.head _)) (by simp) fun K => ?_
      rw [erase_second, List.erase_cons_head]
      refine ilock_wp (.inl (.head _)) (by simp) fun _ => getKind_wp (.head _) fun k' K => ?_
      split
      · simp only [wp_bind]
        refine iunlock_wp fun _ K => ?_
        rw [List.erase_cons_head]
        exact endOp_wp rfl (some i K)
      · simp only [wp_bind]
        refine iunlockput_wp (.head _) (by simp) fun K => ?_
        rw [List.erase_cons_head, List.erase_cons_head]
        exact endOp_wp rfl (none K)

theorem unlink_wp {Q : Unit → View → Prop} (post : ∀ K, Q () (.calm [] n F R K)) :
    unlink.wp rules Q (.calm [] n F R K) := by
  simp only [unlink, wp_bind]
  refine beginOp_wp (namex_wp (fun K => ?_) fun d K => ?_)
  · exact endOp_wp rfl (post K)
  · simp only [wp_bind]
    refine ilock_wp (.inl (.head _)) (by simp) fun _ => ?_
    refine dirlookup_wp (.head _) ?_ fun i => ?_
    · simp only [wp_bind]
      refine iunlockput_wp (.head _) (by simp) fun K => ?_
      rw [List.erase_cons_head, List.erase_cons_head]
      exact endOp_wp rfl (post K)
    · simp only [wp_bind]
      refine ilock_wp (.inl (.head _)) (by simp) fun other => run_wp trivial fun _ _ => ?_
      simp only [wp_panicIf]
      intro _
      refine iupdate_neutral rfl fun _ => writei_neutral rfl fun _ => run_wp trivial fun _ _ => ?_
      simp only [wp_panicIf]
      intro _
      refine run_wp (.tail _ (.head _)) fun _ _ => ?_
      refine iunlockput_wp (.head _) (by simpa using other) fun K => ?_
      rw [List.erase_cons_head, List.erase_cons_head]
      refine iunlockput_wp (.head _) (by simp) fun K => ?_
      rw [List.erase_cons_head, List.erase_cons_head]
      exact endOp_wp rfl (post K)

end Directories

/-! ### Files and system calls -/

section Files

variable {L : List Lock} {n : Nat} {F R : List Nat} {K : List Fact}

theorem filealloc_neutral : Neutral filealloc := by
  intro v Q quiet post
  simp [filealloc]
  exact fun _ => ⟨post false, post true⟩

theorem fileread_neutral (i : Nat) : Neutral (fileread i) := by
  intro v Q quiet post
  simp only [fileread, wp_may, wp_bind]
  refine ⟨holdingsleep_wp ?_, post ()⟩
  split
  · exact readi_neutral quiet post
  · exact post ()

theorem filewrite_neutral (i : Nat) : Neutral (filewrite i) := by
  intro v Q quiet post
  simp only [filewrite, wp_may, wp_bind]
  refine ⟨holdingsleep_wp ?_, post ()⟩
  split
  · exact writei_neutral.loop quiet post
  · exact post ()

theorem openInode_wp {Q : Bool → View → Prop} {i : Nat} (failed : Q false (.calm L n F R K))
    (opened : Q true (.calm L n F (i :: R) K)) : (openInode i).wp rules Q (.calm L n F R K) := by
  simp only [openInode, fileopen, wp_bind]
  refine beginOp_wp (filealloc_neutral rfl fun found => ?_)
  split
  · simp only [wp_bind]
    exact idup_wp (endOp_wp rfl opened)
  · exact endOp_wp rfl failed

theorem close_wp {Q : Unit → View → Prop} {i : Nat} (has : i ∈ R)
    (backed : .inode i ∈ L → i ∈ R.erase i ∨ i ∈ F)
    (kept : Q () (.calm L n F R K)) (put : ∀ K, Q () (.calm L n F (R.erase i) K)) :
    (close i).wp rules Q (.calm L n F R K) := by
  simp only [close, fileclose, wp_bind]
  refine beginOp_wp (run_wp trivial fun _ _ => run_wp trivial fun _ _ => ?_)
  rw [wp_panicIf]
  refine fun _ => run_wp trivial fun shared _ => ?_
  split
  · exact run_wp (.head _) fun _ _ => endOp_wp rfl kept
  · simp only [wp_bind]
    exact run_wp (.head _) fun _ _ => iput_wp has backed fun K => endOp_wp rfl (put K)

theorem read_wp {Q : Unit → View → Prop} {i : Nat} (has : i ∈ R ∨ i ∈ F)
    (post : ∀ K, Q () (.calm [] n F R K)) : (read i).wp rules Q (.calm [] n F R K) := by
  simp only [read, wp_bind]
  refine beginOp_wp (ilock_wp (L := []) has (by simp) fun _ => fileread_neutral i rfl fun _ => ?_)
  refine iunlock_wp fun _ K => ?_
  rw [List.erase_cons_head]
  exact endOp_wp rfl (post K)

theorem write_wp {Q : Unit → View → Prop} {i : Nat} (has : i ∈ R ∨ i ∈ F)
    (post : ∀ K, Q () (.calm [] n F R K)) : (write i).wp rules Q (.calm [] n F R K) := by
  simp only [write, wp_bind]
  refine beginOp_wp (ilock_wp (L := []) has (by simp) fun _ => filewrite_neutral i rfl fun _ => ?_)
  refine iunlock_wp fun _ K => ?_
  rw [List.erase_cons_head]
  exact endOp_wp rfl (post K)

theorem kerOpenInode_wp {Q : Option Nat → View → Prop} {creating rdonly : Bool}
    (none : ∀ K, Q none (.calm [] n F R K))
    (some : ∀ i K, Q (some i) (.calm (if creating then [] else [.inode i]) n F (i :: R) K)) :
    (kerOpenInode creating rdonly).wp rules Q (.calm [] n F R K) := by
  unfold kerOpenInode
  split
  · rename_i yes
    exact create_wp none fun i K => by simpa [yes] using some i K
  · rename_i no
    simp only [wp_bind]
    refine namex_wp none fun i K => ?_
    simp only [wp_bind]
    refine ilock_wp (.inl (.head _)) (by simp) fun _ => getKind_wp (.head _) fun k K => ?_
    split
    · simp only [wp_bind]
      refine iunlockput_wp (.head _) (by simp) fun K => ?_
      rw [List.erase_cons_head, List.erase_cons_head]
      exact none K
    · simpa [no] using some i K

/-- The view of a process that is in no call. -/
def View.AtRest (v : View) : Prop := ∃ F R K, v = .calm [] 0 F R K

theorem kerOpen_wp {creating rdonly : Bool} (room : creating = false → F.length < NOFILE - 3) :
    (kerOpen creating rdonly).wp rules (fun _ => View.AtRest) (.calm [] 0 F R K) := by
  simp only [kerOpen, wp_bind]
  refine kerOpenInode_wp (fun K => ⟨F, R, K, rfl⟩) fun i K => ?_
  simp only [wp_bind]
  refine openInode_wp ?_ ?_
  · -- No file structure is left.
    simp only [Bool.false_eq_true, if_false, wp_bind]
    refine getRef_wp fun r => ?_
    have put : (iunlock i).wp rules (fun _ => (iput i).wp rules fun _ => View.AtRest)
        (.calm (if creating then [] else [.inode i]) 0 F (i :: R) K) := by
      refine iunlock_wp fun held K => iput_wp (.head _) ?_ fun K => ?_
      all_goals cases creating <;> simp at held ⊢
      exact ⟨F, R, K, rfl⟩
    split
    · simpa only [iunlockput, wp_bind] using put
    · simpa only [wp_bind] using put
  · simp only [if_true, wp_bind]
    refine run_wp (.head _) fun ok can => ?_
    split
    · rename_i yes
      simp only [Cmd.after, yes, if_true, View.calm, List.erase_cons_head]
      cases creating with
      | true => exact ⟨i :: F, i :: R, K, rfl⟩
      | false =>
        refine iunlock_wp fun _ K => ?_
        rw [if_neg (by simp), List.erase_cons_head]
        exact ⟨i :: F, i :: R, K, rfl⟩
    · -- No descriptor is left, so the inode was created and is not locked.
      rename_i no
      have full : ¬ F.length < NOFILE - 3 := fun left => no (can.trans (decide_eq_true left))
      have created : creating = true := by
        cases creating with
        | true => rfl
        | false => exact absurd (room rfl) full
      simp only [Cmd.after, no, created, if_true]
      exact close_wp (.head _) (by simp) ⟨F, i :: i :: R, K, rfl⟩ fun K => ⟨F, _, K, rfl⟩

theorem kerClose_wp :
    kerClose.wp rules (fun _ => View.AtRest) (.calm [] 0 F R K) := by
  simp only [kerClose, wp_bind]
  refine run_wp trivial fun found can => ?_
  cases found with
  | none => exact ⟨F, R, K, rfl⟩
  | some i =>
    simp only [wp_bind]
    refine run_wp (can i rfl) fun _ _ => ?_
    exact close_wp (.head _) (by simp [View.calm]) ⟨_, _, _, rfl⟩ fun K => ⟨_, _, K, rfl⟩

/-- Calls on one file, over and over. -/
theorem fileLoop_wp {x : Code Unit}
    (once : ∀ K, x.wp rules (fun _ v => ∃ K, v = .calm [] 0 F R K) (.calm [] 0 F R K)) :
    (loop x).wp rules (fun _ => View.AtRest) (.calm [] 0 F R K) := by
  simp only [loop, wp_bind]
  refine run_wp trivial fun m _ => ?_
  refine wp_mono rules (wp_times rules (I := fun v => ∃ K, v = .calm [] 0 F R K) ?_ m ⟨K, rfl⟩) ?_
  · rintro _ ⟨K, rfl⟩
    exact once K
  · rintro _ _ ⟨K, rfl⟩
    exact ⟨F, R, K, rfl⟩

theorem kerRead_wp : kerRead.wp rules (fun _ => View.AtRest) (.calm [] 0 F R K) := by
  simp only [kerRead, wp_bind]
  refine run_wp trivial fun found can => ?_
  cases found with
  | none => exact ⟨F, R, K, rfl⟩
  | some i => exact fileLoop_wp fun K => read_wp (.inr (can i rfl)) fun K => ⟨K, rfl⟩

theorem kerWrite_wp : kerWrite.wp rules (fun _ => View.AtRest) (.calm [] 0 F R K) := by
  simp only [kerWrite, wp_bind]
  refine run_wp trivial fun found can => ?_
  cases found with
  | none => exact ⟨F, R, K, rfl⟩
  | some i => exact fileLoop_wp fun K => write_wp (.inr (can i rfl)) fun K => ⟨K, rfl⟩

theorem closeAll_wp {files : List Nat} (owned : files.Subperm R) :
    (closeAll files).wp rules (fun _ => View.AtRest) (.calm [] 0 F R K) := by
  induction files generalizing R K with
  | nil => exact ⟨F, R, K, rfl⟩
  | cons i rest ih =>
    simp only [closeAll, wp_bind]
    refine close_wp (owned.subset (.head _)) (by simp) (ih ?_) fun K => ih ?_
    · exact (List.sublist_cons_self i rest).subperm.trans owned
    · simpa using owned.erase i

/-- Every call leaves the process holding nothing, if a descriptor is left for an `open` that finds
its file. -/
theorem Call.code_wp (c : Call) (has : ∀ i ∈ c.needs, i ∈ R)
    (room : ∀ rdonly, c = .kerOpen false rdonly → F.length < NOFILE - 3) :
    c.code.wp rules (fun _ => View.AtRest) (.calm [] 0 F R K) := by
  cases c with
  | kerOpen creating rdonly =>
    refine kerOpen_wp fun no => room rdonly ?_
    rw [no]
  | kerClose => exact kerClose_wp
  | kerRead => exact kerRead_wp
  | kerWrite => exact kerWrite_wp
  | kerUnlink => exact unlink_wp fun K => ⟨F, R, K, rfl⟩
  | create k =>
    simp only [code, wp_bind]
    exact create_wp (fun K => ⟨F, R, K, rfl⟩) fun i K => ⟨F, _, K, rfl⟩
  | openInode i =>
    simp only [code, wp_bind]
    exact openInode_wp ⟨F, R, K, rfl⟩ ⟨F, _, K, rfl⟩
  | close i =>
    exact close_wp (has i (.head _)) (by simp) ⟨F, R, K, rfl⟩ fun K => ⟨F, _, K, rfl⟩
  | read i => exact read_wp (.inl (has i (.head _))) fun K => ⟨F, R, K, rfl⟩
  | write i => exact write_wp (.inl (has i (.head _))) fun K => ⟨F, R, K, rfl⟩
  | iput i => exact iput_wp (has i (.head _)) (by simp) fun K => ⟨F, _, K, rfl⟩

end Files

end Xv6Lab.Conc

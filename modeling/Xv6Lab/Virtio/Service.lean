import Xv6Lab.Virtio.Atomic

/-! What a user of the disk may rely on: the calls are atomic, and a block reads back as it was
written. -/

namespace Xv6Lab.Virtio

open BlockStore (Call Act Store)

variable {P β : Type}

/-! ### A call by itself -/

/-- The device can move every byte of a request. -/
theorem moves_all {P β : Type} [DecidableEq P] [DecidableEq β] (m : Machine P β) {head : BitVec 16}
    {o : Order β} (works : head ∈ m.sys.working) (asks : m.sys.disk.order head = some o) :
    ∃ data medium moved, Simulation.Run Machine.Step m [] ⟨m.sys, data, medium, moved⟩ ∧
      ∀ i, moved head i = true := by
  have moves : ∀ is : List (Fin BSIZE), ∃ data medium moved,
      Simulation.Run Machine.Step m [] ⟨m.sys, data, medium, moved⟩ ∧
        ∀ i ∈ is, moved head i = true := by
    intro is
    induction is with
    | nil => exact ⟨m.data, m.medium, m.moved, .nil, fun i inside => absurd inside List.not_mem_nil⟩
    | cons i is ih =>
      obtain ⟨data, medium, moved, run, did⟩ := ih
      have step := Machine.Step.move (s := ⟨m.sys, data, medium, moved⟩) works asks i
      refine ⟨_, _, _, run.silent step, fun j inside => ?_⟩
      show Function.update moved head (Function.update (moved head) i true) head j = true
      rw [Function.update_self]
      by_cases here : j = i
      · rw [here, Function.update_self]
      · rw [Function.update_of_ne here]
        exact did j ((List.mem_cons.mp inside).resolve_left here)
  obtain ⟨data, medium, moved, run, did⟩ := moves (List.finRange BSIZE)
  exact ⟨data, medium, moved, run, fun i => did i (List.mem_finRange i)⟩

/-- No call is under way and the handler is not running. -/
structure Rest (s : System P β) : Prop where
  good : Good s
  out : ∀ p, s.pc p = .outside
  lock : s.lock = none
  handler : s.handler = .idle

theorem Initial.rest {s : System P β} (init : Initial s) : Rest s :=
  ⟨init.good, init.pc, init.lock, init.handler⟩

/-- At rest the rings are empty. -/
theorem Rest.empty {s : System P β} (rest : Rest s) :
    s.fetched = s.disk.availIdx ∧ s.working = [] ∧ s.disk.seen = s.disk.usedIdx := by
  have none : s.queue = [] := by
    refine List.eq_nil_iff_forall_not_mem.mpr fun k inside => ?_
    obtain ⟨p, b, c, request, -⟩ := rest.good.queued.asked inside
    rw [rest.out] at request
    cases request
  have lengths := length_queue s
  rw [none, System.next, if_neg (by rw [rest.handler]; exact Handler.noConfusion), List.length_nil] at lengths
  have same : ∀ {x y : BitVec 16}, (y - x).toNat = 0 → x = y := by
    intro x y zero
    have is : y - x = 0#16 := BitVec.eq_of_toNat_eq zero
    rw [← BitVec.sub_add_cancel y x, is, BitVec.zero_add]
  exact ⟨same (by omega), List.eq_nil_of_length_eq_zero (by omega), same (by omega)⟩

/-- At rest three descriptors can be had. -/
theorem Rest.allocates {s : System P β} (rest : Rest s) : ∃ d, alloc3Desc s.disk =
    .ok (some [0, 1, 2], d) := by
  have free : s.disk.free = fun _ => true := by
    funext i
    refine (rest.good.parted.free i).mpr fun p c has => ?_
    rw [rest.out] at has
    cases has
  generalize s.disk = d at free
  obtain ⟨desc, availIdx, availRing, usedIdx, usedRing, free', seen, infoB, infoStatus, ops⟩ := d
  obtain rfl : free' = fun _ => true := free
  exact ⟨_, rfl⟩

section Steps

variable [DecidableEq P] [DecidableEq β] {m n : Machine P β}

/-- At rest a call can be carried through, to rest again. -/
theorem Rest.serves (rest : Rest m.sys) (p : P) (b : β) (write : Bool) :
    ∃ n, Simulation.Run Machine.Step m [.call p b write (m.sys.place b), .back p b] n ∧
      Rest n.sys ∧ n.sys.blockno = m.sys.blockno := by
  obtain ⟨s, data, medium, moved⟩ := m
  obtain ⟨fetched, working, seen⟩ := rest.empty
  obtain ⟨c, nodup, -, takes⟩ : ∃ c : Chain, c.toList.Nodup ∧ (∀ i ∈ c.toList, s.disk.free i = true) ∧
      alloc3Desc s.disk = .ok (some c.toList, s.disk.take c.toList) := by
    rcases alloc3Desc_spec s.disk with succeeds | ⟨d, fails, -⟩
    · exact succeeds
    · obtain ⟨d', allocates⟩ := rest.allocates
      rw [fails] at allocates
      cases allocates
  have drive : ∀ {s t : System P β} {data medium moved} {e : Event P β}, Step s e t →
      (∀ q, (t.pc q).buffer = (s.pc q).buffer) → t.working = s.working →
      Simulation.Run Machine.Step ⟨s, data, medium, moved⟩ [] ⟨t, data, medium, moved⟩ :=
    fun step inside device => Simulation.Run.nil.silent (.drive step inside device)
  have inside : ∀ {s : System P β} {x y : Pc β}, s.pc p = x → y.buffer = x.buffer →
      ∀ q, ((s.goto p y).pc q).buffer = (s.pc q).buffer :=
    fun at_ same => goto_keeps _ Pc.buffer (at_ ▸ same)
  -- the process makes its request
  have apart : ∀ q b', (s.pc q).buffer = some b' → b' ≠ b ∧ s.place b' ≠ s.place b := by
    intro q b' has
    rw [rest.out] at has
    cases has
  have call : Simulation.Run Machine.Step ⟨s, data, medium, moved⟩ [.call p b write (s.place b)] _ :=
    .one (.call p b write (rest.out p) apart)
  have good := rest.good.step (.call p b write (rest.out p) fun q is => (apart q b is).1 rfl)
  set s₁ := s.goto p (.starting b write)
  have at₁ : s₁.pc p = .starting b write := goto_self ..
  have step₁ : Step s₁ .other _ := .acquire p at₁ rest.lock
  have run := call.trans (drive step₁ (inside at₁ rfl) rfl)
  have good := good.step step₁
  set s₂ : System P β := { s₁.goto p (.allocating b write) with lock := some p }
  have at₂ : s₂.pc p = .allocating b write := goto_self s₁ ..
  have step₂ : Step s₂ .other _ := .alloc p at₂ takes rfl
  have run := run.trans (drive step₂ (inside at₂ rfl) rfl)
  have good := good.step step₂
  set s₃ := (s₂.setDisk (s.disk.take c.toList)).goto p (.filling b write c)
  have at₃ : s₃.pc p = .filling b write c := goto_self ..
  have step₃ : Step s₃ .other _ := .fill p at₃
  have run := run.trans (drive step₃ (inside at₃ rfl) rfl)
  have good := good.step step₃
  set s₄ : System P β :=
    { (s₃.setDisk (s₃.disk.fill b (s₃.blockno b) write c)).goto p (.publishing b c) with
      owned := Function.update s₃.owned b true }
  have at₄ : s₄.pc p = .publishing b c := goto_self (s₃.setDisk _) ..
  have entry := good.queued.ready p b c (by rw [at₄]; rfl)
  have step₄ : Step s₄ (.submit p c b) _ := .publish p at₄
  have run := run.trans (drive step₄ (inside at₄ rfl) rfl)
  have good := good.step step₄
  set s₅ := (s₄.setDisk { s₄.disk with availIdx := s₄.disk.availIdx + 1 }).goto p (.testing b c)
  have at₅ : s₅.pc p = .testing b c := goto_self ..
  -- the device takes it, moves its bytes and completes it
  have other : ∀ x : BitVec 16, x ≠ x + 1 := by
    intro x
    bv_omega
  have new₅ : s₅.fetched ≠ s₅.disk.availIdx := by
    show s.fetched ≠ s.disk.availIdx + 1
    rw [fetched]
    exact other _
  have run := run.silent (.fetch new₅)
  have good := good.step (.fetch new₅)
  set s₆ : System P β := { s₅ with
    working := s₅.disk.availRing (Ring.slot NUM s₅.fetched) :: s₅.working
    fetched := s₅.fetched + 1 }
  have works : s₆.working = [BitVec.ofNat 16 c.i0.val] := by
    show s₅.disk.availRing (Ring.slot NUM s.fetched) :: s.working = _
    rw [working, fetched]
    exact congrArg (fun x => [x]) entry.1
  have head : BitVec.ofNat 16 c.i0.val ∈ s₆.working := works ▸ List.mem_singleton_self _
  have asks : s₆.disk.order (BitVec.ofNat 16 c.i0.val) = some _ :=
    (fill_filled s₃.disk b (s₃.blockno b) write nodup).order
  obtain ⟨data', medium', moved', moves, all⟩ :=
    moves_all ⟨s₆, data, medium, moved⟩ head asks
  have run := (run.trans moves).silent (.complete head all)
  have good := good.step (.complete _ head)
  set s₇ : System P β := { s₆.setDisk (s₆.disk.finish (BitVec.ofNat 16 c.i0.val)) with
    working := s₆.working.erase (BitVec.ofNat 16 c.i0.val) }
  -- the handler reports it
  have handler₇ : s₇.handler = .idle := rest.handler
  have run := run.trans (drive (.interrupt handler₇) (fun _ => rfl) rfl)
  have good := good.step (.interrupt handler₇)
  set s₈ : System P β := { s₇ with handler := .looping }
  have seen₈ : s₈.disk.seen ≠ s₈.disk.usedIdx := by
    show s.disk.seen ≠ s.disk.usedIdx + 1
    rw [seen]
    exact other _
  have run := run.trans (drive (.read rfl seen₈) (fun _ => rfl) rfl)
  have good := good.step (.read rfl seen₈)
  set s₉ : System P β := { s₈ with handler := .found (s₈.disk.usedRing (Ring.slot NUM s₈.disk.seen)) }
  have at₉ : s₉.pc p = .testing b c := at₅
  have alone : ∀ q, q ≠ p → s₉.pc q = .outside := by
    intro q away
    calc s₅.pc q = s₄.pc q := goto_other _ away _
      _ = s₃.pc q := goto_other (s₃.setDisk _) away _
      _ = s₂.pc q := goto_other _ away _
      _ = s₁.pc q := goto_other s₁ away _
      _ = s.pc q := goto_other s away _
      _ = .outside := rest.out q
  obtain ⟨q, b', c', request, -, index, status, buffer⟩ := good.queued.reports good.parted (s := s₉) rfl
  obtain rfl : q = p := by
    by_contra away
    rw [alone q away] at request
    cases request
  rw [at₉] at request
  cases request
  have step₉ : Step s₉ _ _ := .report rfl index status buffer
  have run := run.trans (drive step₉ (fun _ => rfl) rfl)
  have good := good.step step₉
  set s₁₀ : System P β := { s₉ with owned := Function.update s₉.owned b false, handler := .cleared }
  have run := run.trans (drive (.advance rfl) (fun _ => rfl) rfl)
  have good := good.step (.advance (s := s₁₀) rfl)
  set s₁₁ : System P β :=
    { s₁₀.setDisk { s₁₀.disk with seen := s₁₀.disk.seen + 1 } with handler := .looping }
  have seen₁₁ : s₁₁.disk.seen = s₁₁.disk.usedIdx := by
    show s.disk.seen + 1 = s.disk.usedIdx + 1
    rw [seen]
  have run := run.trans (drive (.return_ rfl seen₁₁) (fun _ => rfl) rfl)
  have good := good.step (.return_ rfl seen₁₁)
  set s₁₂ : System P β := { s₁₁ with handler := .idle }
  -- the process goes on
  have step₁₂ : Step s₁₂ .other _ := .leave q at₉ (Function.update_self ..)
  have run := run.trans (drive step₁₂ (inside at₉ rfl) rfl)
  have good := good.step step₁₂
  set s₁₃ := s₁₂.goto q (.freeing b c)
  have at₁₃ : s₁₃.pc q = .freeing b c := goto_self ..
  have step₁₃ : Step s₁₃ (.free q c) _ := .free q at₁₃ (good.parted.frees at₁₃)
  have run := run.trans (drive step₁₃ (inside at₁₃ rfl) rfl)
  have good := good.step step₁₃
  set s₁₄ := (s₁₃.setDisk (Disk.clearChain
    { s₁₃.disk with infoB := Function.update s₁₃.disk.infoB c.i0 none } c)).goto q (.releasing b)
  have at₁₄ : s₁₄.pc q = .releasing b := goto_self ..
  refine ⟨_, run.visible (.back q at₁₄), ⟨good.step (.release q at₁₄), fun r => ?_, rfl, rfl⟩, rfl⟩
  show (s₁₄.goto q .outside).pc r = .outside
  by_cases here : r = q
  · rw [here, goto_self]
  · rw [goto_other _ here]
    calc s₁₄.pc r = s₁₃.pc r := goto_other (s₁₃.setDisk _) here _
      _ = s₁₂.pc r := goto_other _ here _
      _ = .outside := alone r here

end Steps

/-- One process and one buffer, after `virtio_disk_init`, and a medium of zeros. -/
def sampleMachine : Machine Unit Unit where
  sys := sampleSystem
  data _ _ := 0
  medium _ := 0
  moved _ _ := false

theorem sampleMachine_initial : sampleMachine.Initial := ⟨sampleSystem_initial, fun _ _ => rfl⟩

/-- A value is stored, written to block 7, read from it and loaded. -/
theorem sampleMachine_runs (v : Block) : ∃ n w, Simulation.Run Machine.Step sampleMachine
    ([] ++ ([.store () v] ++ ([] ++ ([.call () () true 7] ++ ([.back () ()] ++ ([.call () () false 7] ++
      ([] ++ ([.back () ()] ++ ([] ++ [.load () w]))))))))) n := by
  have rest : Rest sampleSystem := sampleSystem_initial.rest
  have unused : ∀ {s : System Unit Unit}, Rest s → s.Unused () := by
    intro s rest p has
    rw [rest.out] at has
    cases has
  have store : Simulation.Run Machine.Step sampleMachine [.store () v] _ :=
    .one (.store () v (unused rest))
  obtain ⟨n, write, rest, same⟩ := Rest.serves
    (m := { sampleMachine with data := Function.update sampleMachine.data () v }) rest () () true
  obtain ⟨n', read, rest', -⟩ := rest.serves () () false
  have place : n.sys.place () = 7 := by
    rw [System.place, same]
    rfl
  rw [place] at read
  exact ⟨n', _, ((store.trans write).trans read).visible (.load () (unused rest'))⟩

section Steps

variable [DecidableEq P] [DecidableEq β] {m n : Machine P β}

/-- The processes, the handler and the device, at any interleaving and with the bytes of all requests
moved in any order, do to the buffers what a store of blocks does in which every call of
`virtio_disk_rw` takes effect at one moment between its start and its return. -/
theorem disk_atomic {trace : List (Act P β (BitVec 31) Block)} (init : m.Initial)
    (run : Simulation.Run Machine.Step m trace n) :
    ∃ a, Simulation.Run BlockStore.Step m.store trace a ∧ Agrees n a :=
  init.agrees.run run

theorem disk_atomic_sample : ∃ trace n, Simulation.Run Machine.Step sampleMachine trace n ∧
    ∃ a, Simulation.Run BlockStore.Step sampleMachine.store trace a ∧ Agrees n a := by
  obtain ⟨n, w, run⟩ := sampleMachine_runs fun _ => 42
  exact ⟨_, n, run, disk_atomic sampleMachine_initial run⟩

/-- What was in a buffer when it was written to a block is what a later read of the block brings into
any buffer, byte for byte, if no other write of the block is called in between. -/
theorem disk_reads_back {before ready meanwhile during after : List (Act P β (BitVec 31) Block)}
    {p q : P} {b b' : β} {k : BitVec 31} {v w : Block} (init : m.Initial)
    (prepared : ∀ x ∈ ready, ¬ x.Uses b) (quiet : ∀ x ∈ meanwhile ++ during, ¬ x.Writes k)
    (stays : Act.back q b' ∉ during) (kept : ∀ x ∈ after, ¬ x.Uses b')
    (run : Simulation.Run Machine.Step m (before ++ ([.store b v] ++ (ready ++ ([.call p b true k] ++
      (meanwhile ++ ([.call q b' false k] ++ (during ++ ([.back q b'] ++ (after ++
        [.load b' w]))))))))) n) : w = v := by
  obtain ⟨a, atomic, -⟩ := init.agrees.run run
  refine BlockStore.reads_back (fun p q b b' has => ?_) prepared quiet stays kept atomic
  cases has

end Steps

theorem disk_reads_back_sample : ∃ n w, Simulation.Run Machine.Step sampleMachine
    [.store () (fun _ => 42), .call () () true 7, .back () (), .call () () false 7, .back () (),
      .load () w] n ∧ w = fun _ => 42 := by
  obtain ⟨n, w, run⟩ := sampleMachine_runs fun _ => 42
  refine ⟨n, w, run, disk_reads_back sampleMachine_initial (fun x is => absurd is List.not_mem_nil)
    (fun x is => ?_) List.not_mem_nil (fun x is => absurd is List.not_mem_nil) run⟩
  obtain rfl := List.mem_singleton.mp is
  exact fun wrong => wrong

end Xv6Lab.Virtio

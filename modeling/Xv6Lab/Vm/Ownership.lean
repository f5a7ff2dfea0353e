import Xv6Lab.Vm.Process

/-! Who owns which physical page.  A ghost map names for each page what it is used for; `Owns` says
that memory bears the map out: the free list holds exactly the free pages, and the tables of each
holder form a tree.  The specifications of `pm.c` and of the page-table code say how they move
pages from the free list to the holder they work for, and that they touch no one else's pages. -/

namespace Xv6Lab.Vm

open Rv64 Sv39 Exec

/-- Holders of pages: the kernel's page table, or a process. -/
abbrev Holder := Option Slot

/-- What a page is used for. -/
inductive Owner
  | free
  | table (h : Holder) (ds : List Index)
  | frame (h : Holder) (ds : List Index)
  | trapframe (h : Holder)
  | kstack (h : Holder)
  | other
  deriving DecidableEq

/-- The page belongs to the holder. -/
def Owner.of (h : Holder) : Owner → Prop
  | .table h' _ | .frame h' _ | .trapframe h' | .kstack h' => h' = h
  | _ => False

instance (h : Holder) : (w : Owner) → Decidable (w.of h)
  | .table h' _ | .frame h' _ | .trapframe h' | .kstack h' => inferInstanceAs (Decidable (h' = h))
  | .free | .other => inferInstanceAs (Decidable False)

abbrev Owners := Word → Owner

/-- The labels that a map gives to the tables of one holder. -/
def label (o : Owners) (h : Holder) : Label := fun pg =>
  match o pg with
  | .table h' ds => if h' = h then some ds else none
  | _ => none

theorem label_eq {o : Owners} {h : Holder} {pg : Word} {ds : List Index} :
    label o h pg = some ds ↔ o pg = .table h ds := by
  unfold label
  split
  · next h' ds' eq => simp [eq]
  · next other =>
    constructor
    · intro impossible
      cases impossible
    · intro eq
      exact absurd eq (other h ds)

/-- Memory bears out the map. -/
structure Owns (s : Kernel) (o : Owners) : Prop where
  base : KERNBASE ≤ s.kernelEnd
  free : ∃ l, Chain s.mem s.freelist l ∧ l.Nodup ∧ ∀ pg, pg ∈ l ↔ o pg = .free
  managed : ∀ pg, o pg ≠ .other → Managed s pg
  tree : ∀ h, Labelled s.mem (label o h)
  solid : ∀ pg h ds i, o pg = .table h ds → ds.length = 2 → entry s.mem pg i &&& V ≠ 0 →
    entry s.mem pg i &&& (R ||| W ||| X) ≠ 0

/-- The fields of the state that memory management leaves alone. -/
structure Quiet (s t : Kernel) : Prop where
  kernelEnd : t.kernelEnd = s.kernelEnd
  kernelPagetable : t.kernelPagetable = s.kernelPagetable
  trampolinePhysAddr : t.trampolinePhysAddr = s.trampolinePhysAddr
  procs : t.procs = s.procs
  current : t.current = s.current

/-- Pages went from the free list to `h`, and no page changed but new ones and tables of `h`. -/
def Grows (h : Holder) (s : Kernel) (o : Owners) (t : Kernel) (o' : Owners) : Prop :=
  ∀ pg, (o pg = .free ∧ (o' pg).of h) ∨
    (o' pg = o pg ∧ ((∃ ds, o pg = .table h ds) ∨ t.mem pg = s.mem pg))

/-- No page that belongs, before or after, to a holder other than `h` has changed. -/
def Spares (h : Holder) (s : Kernel) (o : Owners) (t : Kernel) (o' : Owners) : Prop :=
  ∀ pg h', h' ≠ h → ((o pg).of h' ∨ (o' pg).of h') → o' pg = o pg ∧ t.mem pg = s.mem pg

/-- Pages went from the free list to `h`, and no page changed but new ones and pages of `h`. -/
def Adds (h : Holder) (s : Kernel) (o : Owners) (t : Kernel) (o' : Owners) : Prop :=
  ∀ pg, (o pg = .free ∧ (o' pg).of h) ∨ (o' pg = o pg ∧ ((o pg).of h ∨ t.mem pg = s.mem pg))

/-- Pages that nobody owns stay so: only free pages find an owner. -/
def Keeps (o o' : Owners) : Prop := ∀ pg, o pg = .other → o' pg = .other

/-- Kernel code that stops, stops with a panic. -/
def Panics : Halt → Kernel → Prop := fun e _ => ∃ msg, e = .panic msg

variable {s t u : Kernel} {o o' o'' : Owners} {h : Holder} {pg : Word}

/-! ### The relations between states -/

theorem Quiet.refl (s : Kernel) : Quiet s s := ⟨rfl, rfl, rfl, rfl, rfl⟩

theorem Quiet.setMem (s : Kernel) (mem : Mem) : Quiet s (s.setMem mem) := ⟨rfl, rfl, rfl, rfl, rfl⟩

theorem Quiet.trans (first : Quiet s t) (second : Quiet t u) : Quiet s u :=
  ⟨second.1.trans first.1, second.2.trans first.2, second.3.trans first.3, second.4.trans first.4,
    second.5.trans first.5⟩

theorem Grows.refl (h : Holder) (s : Kernel) (o : Owners) : Grows h s o s o :=
  fun _ => .inr ⟨rfl, .inr rfl⟩

theorem Grows.trans (first : Grows h s o t o') (second : Grows h t o' u o'') :
    Grows h s o u o'' := by
  intro pg
  rcases first pg with ⟨free, own⟩ | ⟨same, kept⟩
  · rcases second pg with ⟨free', _⟩ | ⟨same', _⟩
    · rw [free'] at own
      exact own.elim
    · exact .inl ⟨free, same' ▸ own⟩
  · rcases second pg with ⟨free', own'⟩ | ⟨same', kept'⟩
    · exact .inl ⟨same ▸ free', own'⟩
    · refine .inr ⟨same'.trans same, ?_⟩
      rw [same] at kept'
      rcases kept with table | kept
      · exact .inl table
      · exact kept'.imp_right fun eq => eq.trans kept

theorem Owner.of_unique {w : Owner} {h h' : Holder} (own : w.of h) (own' : w.of h') : h = h' := by
  cases w <;> simp_all [Owner.of]

theorem Grows.spares (g : Grows h s o t o') : Spares h s o t o' := by
  intro pg h' ne own
  rcases g pg with ⟨free, mine⟩ | ⟨same, kept⟩
  · rw [free] at own
    exact absurd (Owner.of_unique (own.resolve_left id) mine) ne
  · refine ⟨same, ?_⟩
    rw [same, or_self] at own
    rcases kept with ⟨ds, table⟩ | kept
    · rw [table] at own
      exact absurd own.symm ne
    · exact kept

theorem Grows.keeps (g : Grows h s o t o') : Keeps o o' := by
  intro pg other
  rcases g pg with ⟨free, -⟩ | ⟨same, -⟩
  · rw [free] at other
    cases other
  · exact same.trans other

theorem Grows.adds (g : Grows h s o t o') : Adds h s o t o' := by
  intro pg
  refine (g pg).imp_right fun ⟨same, kept⟩ => ⟨same, kept.imp_left ?_⟩
  rintro ⟨ds, table⟩
  rw [table]
  exact rfl

theorem Adds.refl (h : Holder) (s : Kernel) (o : Owners) : Adds h s o s o :=
  (Grows.refl h s o).adds

theorem Adds.trans (first : Adds h s o t o') (second : Adds h t o' u o'') : Adds h s o u o'' := by
  intro pg
  rcases first pg with ⟨free, own⟩ | ⟨same, kept⟩
  · rcases second pg with ⟨free', -⟩ | ⟨same', -⟩
    · rw [free'] at own
      exact own.elim
    · exact .inl ⟨free, same' ▸ own⟩
  · rcases second pg with ⟨free', own'⟩ | ⟨same', kept'⟩
    · exact .inl ⟨same ▸ free', own'⟩
    · refine .inr ⟨same'.trans same, ?_⟩
      rw [same] at kept'
      rcases kept with mine | kept
      · exact .inl mine
      · exact kept'.imp_right fun eq => eq.trans kept

/-- A store into a page of `h`. -/
theorem Adds.store (own : (o pg).of h) (mem : Mem) (away : ∀ pg' ≠ pg, mem pg' = s.mem pg') :
    Adds h s o (s.setMem mem) o := by
  intro pg'
  by_cases same : pg' = pg
  · exact .inr ⟨rfl, .inl (same ▸ own)⟩
  · exact .inr ⟨rfl, .inr (away pg' same)⟩

theorem Keeps.refl (o : Owners) : Keeps o o := fun _ other => other

theorem Keeps.trans (first : Keeps o o') (second : Keeps o' o'') : Keeps o o'' :=
  fun pg other => second pg (first pg other)

theorem Spares.refl (h : Holder) (s : Kernel) (o : Owners) : Spares h s o s o :=
  fun _ _ _ _ => ⟨rfl, rfl⟩

theorem Spares.trans (first : Spares h s o t o') (second : Spares h t o' u o'') :
    Spares h s o u o'' := by
  intro pg h' ne own
  rcases own with own | own
  · obtain ⟨same, mem⟩ := first pg h' ne (.inl own)
    obtain ⟨same', mem'⟩ := second pg h' ne (.inl (same ▸ own))
    exact ⟨same'.trans same, mem'.trans mem⟩
  · obtain ⟨same', mem'⟩ := second pg h' ne (.inr own)
    obtain ⟨same, mem⟩ := first pg h' ne (.inr (same' ▸ own))
    exact ⟨same'.trans same, mem'.trans mem⟩

/-- A store into a page of `h`. -/
theorem Spares.store (own : (o pg).of h) (mem : Mem) (away : ∀ pg' ≠ pg, mem pg' = s.mem pg') :
    Spares h s o (s.setMem mem) o := by
  intro pg' h' ne belongs
  rw [or_self] at belongs
  refine ⟨rfl, away pg' ?_⟩
  rintro rfl
  exact ne (Owner.of_unique belongs own)

/-! ### Memory under a map -/

theorem Managed.ne_zero (base : KERNBASE ≤ s.kernelEnd) (m : Managed s pg) : pg ≠ 0 := by
  rintro rfl
  have above := BitVec.le_def.mp (BitVec.le_trans base m.above)
  exact absurd above (by decide)

theorem Managed.toFrame (m : Managed s pg) : Sv39.Frame pg where
  aligned := m.aligned
  small := by
    have below := BitVec.lt_def.mp m.below
    have bound : PHYSTOP.toNat = 2281701376 := by decide
    omega

theorem Chain.congr {mem mem' : Mem} {head : Word} {l : List Word} (c : Chain mem head l)
    (same : ∀ pg ∈ l, mem' pg = mem pg) : Chain mem' head l := by
  induction l generalizing head with
  | nil => exact c
  | cons pg rest ih =>
    obtain ⟨first, nonzero, tail⟩ := c
    refine ⟨first, nonzero, ?_⟩
    rw [same pg (by simp)]
    exact ih tail fun pg' inside => same pg' (by simp [inside])

/-- The free list is determined by memory. -/
theorem Chain.unique {mem : Mem} {head : Word} {l l' : List Word} (c : Chain mem head l)
    (c' : Chain mem head l') : l = l' := by
  induction l generalizing head l' with
  | nil =>
    cases l' with
    | nil => rfl
    | cons pg rest =>
      obtain ⟨first, nonzero, -⟩ := c'
      exact absurd (first.symm.trans c) nonzero
  | cons pg rest ih =>
    obtain ⟨first, nonzero, tail⟩ := c
    cases l' with
    | nil => exact absurd (first.symm.trans c') nonzero
    | cons pg' rest' =>
      obtain ⟨first', -, tail'⟩ := c'
      obtain rfl : pg = pg' := first.symm.trans first'
      rw [ih tail tail']

theorem Owns.ne_zero (w : Owns s o) (known : o pg ≠ .other) : pg ≠ 0 :=
  (w.managed pg known).ne_zero w.base

/-- Memory may change on pages that are neither free nor tables. -/
theorem Owns.setMem (w : Owns s o) (mem : Mem)
    (same : ∀ pg, (o pg = .free ∨ ∃ h ds, o pg = .table h ds) → mem pg = s.mem pg) :
    Owns (s.setMem mem) o where
  base := w.base
  free := by
    obtain ⟨l, chain, nodup, members⟩ := w.free
    exact ⟨l, chain.congr fun pg inside => same pg (.inl ((members pg).mp inside)), nodup, members⟩
  managed pg known := ⟨(w.managed pg known).1, (w.managed pg known).2, (w.managed pg known).3⟩
  tree h := (w.tree h).congr fun pg ds at_pg _ => same pg (.inr ⟨h, ds, label_eq.mp at_pg⟩)
  solid pg h ds i at_pg len valid := by
    have kept := same pg (.inr ⟨h, ds, at_pg⟩)
    simp only [entry, setMem_mem, kept] at valid ⊢
    exact w.solid pg h ds i at_pg len valid

theorem label_update (o : Owners) (h : Holder) {w : Owner} (known : ∀ h ds, o pg ≠ .table h ds)
    (plain : ∀ h ds, w ≠ .table h ds) : label (Function.update o pg w) h = label o h := by
  funext pg'
  by_cases same : pg' = pg
  · subst same
    have before : label o h pg' = none := by
      by_contra some
      obtain ⟨ds, eq⟩ := Option.ne_none_iff_exists'.mp some
      exact known h ds (label_eq.mp eq)
    have after : label (Function.update o pg' w) h pg' = none := by
      by_contra some
      obtain ⟨ds, eq⟩ := Option.ne_none_iff_exists'.mp some
      exact plain h ds (by simpa using label_eq.mp eq)
    rw [before, after]
  · simp [label, same]

/-- A page in hand gets an owner. -/
theorem Owns.give (w : Owns s o) (hand : o pg = .other) (m : Managed s pg) {own : Owner}
    (used : own ≠ .free) (plain : ∀ h ds, own ≠ .table h ds) :
    Owns s (Function.update o pg own) where
  base := w.base
  free := by
    obtain ⟨l, chain, nodup, members⟩ := w.free
    refine ⟨l, chain, nodup, fun pg' => ?_⟩
    by_cases same : pg' = pg
    · subst same
      simp [members, hand, used]
    · simp [members, same]
  managed pg' known := by
    by_cases same : pg' = pg
    · exact same ▸ m
    · exact w.managed pg' (by simpa [same] using known)
  tree h := by
    rw [label_update o h (by simp [hand]) plain]
    exact w.tree h
  solid pg' h ds i at_pg len valid := by
    by_cases same : pg' = pg
    · subst same
      exact absurd (by simpa using at_pg) (plain h ds)
    · exact w.solid pg' h ds i (by simpa [same] using at_pg) len valid

end Xv6Lab.Vm

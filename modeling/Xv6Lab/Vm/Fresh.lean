import Xv6Lab.Vm.Supply
import Xv6Lab.Vm.System

/-! What a new user process finds in its memory, and how far it depends on the free list: pages come
from `alloc_page` with the link of the free list in their first word. -/

namespace Xv6Lab.Vm

open Rv64 Sv39 Exec Relation
open Trap (PGSIZE TRAMPOLINE TRAPFRAME Field)

/-- What the user of process `p` reads at an address; `none` where the user has no access. -/
def userByte (s : Kernel) (p : Slot) (va : Word) : Option (BitVec 8) :=
  (translate s.mem (s.procs p).pagetable va).bind fun e =>
    if e &&& U = 0 then none else some (byteAt (s.mem (pte2pa e)) (va.toNat % 4096))

/-- A page of user memory: where it is mapped, its frame, and its bytes. -/
structure UserPage where
  va : Word
  frame : Word
  bytes : Nat → BitVec 8

/-- The byte that pages give at an address. -/
def pagesByte (pages : List UserPage) (va : Word) : Option (BitVec 8) :=
  (pages.find? fun page => path page.va = path va).map fun page => page.bytes (va.toNat % 4096)

/-- The page that `create_user_proc` takes with `rest` left on the free list. -/
def stackPage (i : Nat) (frame : Word) (rest : List Word) : UserPage :=
  ⟨stackVa i, frame, byteAt (leftover rest)⟩

def codePage (userBin : Nat → BitVec 8) (binSize : Nat) (frame : Word) (rest : List Word) : UserPage :=
  ⟨USER_TEXT_START, frame, fun i => if i < binSize then userBin i else byteAt (leftover rest) i⟩

/-- The user pages that `create_user_proc` makes from a free list: it takes the trapframe, the root
of the table and the kernel stack, the code page, two tables, and two stack pages. -/
def freshPages (userBin : Nat → BitVec 8) (binSize : Nat) (l : List Word) : List UserPage :=
  [stackPage 1 (l.getD 7 0) (l.drop 8), stackPage 0 (l.getD 6 0) (l.drop 7),
    codePage userBin binSize (l.getD 3 0) (l.drop 4)]

variable {s t u v : Kernel} {o o' o'' : Owners} {p q : Slot} {pg pt va : Word} {l : List Word}

/-! ### A space under construction -/

/-- The page is mapped for the user of `q`, and holds its bytes. -/
structure UserPage.At (page : UserPage) (t : Kernel) (o : Owners) (q : Slot) : Prop where
  mapped : ∃ e, translate t.mem (t.procs q).pagetable page.va = some e ∧ e &&& U ≠ 0 ∧
    pte2pa e = page.frame
  owner : o page.frame = .frame (some q) (path page.va)
  bytes : ∀ i < 4096, byteAt (t.mem page.frame) i = page.bytes i

/-- Slot `q` is under construction with the given user pages and no others, and `l` is the free
list. -/
structure Laid (q : Slot) (s : Kernel) (o : Owners) (l : List Word) (pages : List UserPage)
    (t : Kernel) (o' : Owners) : Prop extends Draft q s o t o' where
  chain : Chain t.mem t.freelist l
  at_ : ∀ page ∈ pages, page.At t o' q
  nothing : ∀ va, Low va → (∀ page ∈ pages, path page.va ≠ path va) →
    translate t.mem (t.procs q).pagetable va = none

theorem UserPage.At.kept {page : UserPage} (is : page.At t o q) (grows : Grows (some q) t o u o')
    (procs : (u.procs q).pagetable = (t.procs q).pagetable)
    (moved : translate u.mem (t.procs q).pagetable page.va =
      translate t.mem (t.procs q).pagetable page.va) : page.At u o' q := by
  obtain ⟨owner, kept⟩ := grows.frame is.owner
  refine ⟨?_, owner, fun i inside => ?_⟩
  · rw [procs, moved]
    exact is.mapped
  · rw [kept]
    exact is.bytes i inside

/-- The user reads the bytes of the page. -/
theorem UserPage.At.byte {page : UserPage} (is : page.At t o q) (here : path page.va = path va) :
    userByte t q va = some (page.bytes (va.toNat % 4096)) := by
  obtain ⟨e, mapped, user, frame⟩ := is.mapped
  rw [userByte, translate_congr_path here.symm, mapped, Option.bind_some, if_neg user, frame,
    is.bytes _ (Nat.mod_lt _ (by decide))]

/-- The next page off the free list is mapped at `va`. -/
theorem Laid.mapFrame_wp {page perm : Word} {rest : List Word} {pages : List UserPage}
    (d : Laid q s o l pages t o') (free : o' page = .free)
    (filled : Filled (some q) page (.frame (some q) (path va)) t o' u)
    (chain : Chain u.mem u.freelist rest) (low : va < USER_LIMIT) (aligned : va.toNat % 4096 = 0)
    (new : ∀ page ∈ pages, path page.va ≠ path va) (solid : perm &&& (R ||| W ||| X) ≠ 0)
    (user : perm &&& U ≠ 0) (small : perm.toNat < 1024) {n : Nat}
    (tables : missing t.mem (t.procs q).pagetable va = n) :
    wp (mapPage (t.procs q).pagetable va page perm) (fun r v => r = 0 ∧ v.procs = t.procs ∧
      n ≤ rest.length ∧ (∀ j ≠ index 2 va, entry v.mem (t.procs q).pagetable j =
        entry t.mem (t.procs q).pagetable j) ∧ ∃ o'',
      Laid q s o (rest.drop n) (⟨va, page, byteAt (u.mem page)⟩ :: pages) v o'') (Short n rest) u := by
  have unset := d.nothing va (low_of_lt low) new
  have spec := mapFrame_chain d.owns free filled d.space chain low aligned unset solid user small
  rw [tables] at spec
  refine wp_conseq spec ?_
  rintro r v ⟨zero, enough, chain', entries, o'', framed⟩
  have procs : v.procs q = t.procs q := by rw [framed.quiet.procs]
  refine ⟨zero, framed.quiet.procs, enough, entries, o'',
    d.grow framed.owns framed.quiet framed.grows framed.space, chain', fun page' inside => ?_, fun va' isLow others => ?_⟩
  · rcases List.mem_cons.mp inside with rfl | inside
    · refine ⟨⟨_, ?_, ?_, framed.frame⟩, framed.owner, fun i _ => by rw [framed.contents]⟩
      · rw [procs, framed.translate, if_pos rfl]
      · rw [make_bit _ _ (by decide), BitVec.or_comm]
        exact or_user _ user
    · refine (d.at_ page' inside).kept framed.grows (by rw [procs]) ?_
      rw [framed.translate, if_neg (new page' inside)]
  · have away : path va ≠ path va' :=
      others ⟨va, page, byteAt (u.mem page)⟩ List.mem_cons_self
    rw [procs, framed.translate, if_neg away.symm]
    exact d.nothing va' isLow fun page' inside => others page' (by simp [inside])

/-- The next page off the free list. -/
theorem Laid.alloc_wp {pages : List UserPage} (d : Laid q s o l pages t o') (va : Word) :
    wp allocPage (fun page u => ∃ rest, l = page :: rest ∧ o' page = .free ∧
      Filled (some q) page (.frame (some q) (path va)) t o' u ∧ Chain u.mem u.freelist rest ∧
      u.mem page = leftover rest) (Short 1 l) t := by
  refine wp_mono (wp_and (allocPage_for d.owns (.frame (some q) (path va)) rfl (by simp))
    (allocPage_chain d.owns d.chain)) ?_ fun _ _ stopped => ⟨stopped.1, stopped.2.2 ▸ Nat.one_pos⟩
  rintro page u ⟨⟨free, filled⟩, rest, is, chain, contents⟩
  exact ⟨rest, is, free, filled, chain, contents⟩

/-- One turn of the loop over the stack pages. -/
theorem Laid.mapStack_wp {pages : List UserPage} {i : Nat} {turns : List Nat} {done : K Int}
    {Q : Int → Kernel → Prop} {E : Halt → Kernel → Prop} (stop : ∀ e u, Short 1 l e u → E e u)
    (d : Laid q s o l pages t o') (low : stackVa i < USER_LIMIT)
    (aligned : (stackVa i).toNat % 4096 = 0) (new : ∀ page ∈ pages, path page.va ≠ path (stackVa i))
    (tables : missing t.mem (t.procs q).pagetable (stackVa i) = 0)
    (next : ∀ page rest v o'', l = page :: rest → v.procs = t.procs →
      (∀ j ≠ index 2 (stackVa i), entry v.mem (t.procs q).pagetable j =
        entry t.mem (t.procs q).pagetable j) →
      Laid q s o rest (stackPage i page rest :: pages) v o'' → wp (mapStack q done turns) Q E v) :
    wp (mapStack q done (i :: turns)) Q E t := by
  unfold mapStack
  rw [wp_bind]
  refine wp_mono (d.alloc_wp (stackVa i)) ?_ stop
  rintro page u ⟨rest, is, free, filled, chain, contents⟩
  rw [if_neg (d.owns.ne_zero (by simp [free]))]
  simp only [wp_bind, wp_get, filled.quiet.procs]
  refine wp_mono (d.mapFrame_wp free filled chain low aligned new (by decide) (by decide) (by decide)
    tables) ?_ fun _ _ short => short.never
  rintro r v ⟨rfl, procs, -, entries, o'', more⟩
  rw [if_neg (by simp)]
  rw [contents] at more
  exact next page rest v o'' is procs entries more

/-- A page that is written to. -/
theorem Laid.write {page : UserPage} (d : Laid q s o l [page] t o') {mem : Mem}
    (away : ∀ pg ≠ page.frame, mem pg = t.mem pg) {bytes : Nat → BitVec 8}
    (written : ∀ i < 4096, byteAt (mem page.frame) i = bytes i) :
    Laid q s o l [{ page with bytes := bytes }] (t.setMem mem) o' := by
  have here := d.at_ page (by simp)
  have own : (o' page.frame).of (some q) := by
    rw [here.owner]
    exact rfl
  obtain ⟨draft, moved⟩ := d.toDraft.write own (by simp [here.owner]) mem away
  refine ⟨draft, d.owns.chain_setMem d.chain fun pg free => away pg ?_, fun page' is => ?_,
    fun va low others => ?_⟩
  · rintro rfl
    rw [here.owner] at free
    cases free
  · obtain rfl := List.mem_singleton.mp is
    refine ⟨?_, here.owner, written⟩
    obtain ⟨e, mapped⟩ := here.mapped
    exact ⟨e, (moved _).trans mapped.1, mapped.2⟩
  · exact (moved va).trans (d.nothing va low fun page' is => by
      obtain rfl := List.mem_singleton.mp is
      exact others { page' with bytes := bytes } (List.mem_singleton_self _))

/-! ### The creation of a user process -/

theorem createPagetable_chain (w : Owns s o) (chain : Chain s.mem s.freelist l) :
    wp createPagetable (fun r t => 1 ≤ l.length ∧ Chain t.mem t.freelist (l.drop 1) ∧
      ∀ j, entry t.mem r j = 0) (Short 1 l) s := by
  unfold createPagetable
  rw [wp_bind]
  refine wp_mono (wp_and (allocPage_wp w) (allocPage_chain w chain)) ?_
    fun _ _ stopped => ⟨stopped.1, stopped.2.2 ▸ Nat.one_pos⟩
  rintro pt t ⟨⟨free, w', -, -⟩, rest, rfl, chain', -⟩
  rw [if_neg (w.ne_zero (by simp [free]))]
  simp only [clearPage, wp_bind, wp_modify, wp_pure]
  refine ⟨by simp, w'.chain_setMem chain' fun pg unused => Function.update_of_ne ?_ .., fun j => ?_⟩
  · rintro rfl
    simp at unused
  · rw [entry, setMem_mem, Function.update_self]

/-- The kernel stack is the last page that `alloc_proc` takes. -/
theorem allocStack_chain (w : Owns s o) (chain : Chain s.mem s.freelist l)
    (known : o (s.procs q).pagetable ≠ .free) :
    wp (allocStack q) (fun r t => r = some q ∧ 1 ≤ l.length ∧ Chain t.mem t.freelist (l.drop 1) ∧
      ∀ j, entry t.mem (t.procs q).pagetable j = entry s.mem (s.procs q).pagetable j)
      (Short 1 l) s := by
  unfold allocStack
  simp only [wp_bind, updProc]
  refine wp_mono (wp_and (allocPage_wp w) (allocPage_chain w chain)) ?_
    fun _ _ stopped => ⟨stopped.1, stopped.2.2 ▸ Nat.one_pos⟩
  rintro kstack t ⟨⟨free, -, quiet, away⟩, rest, rfl, chain', -⟩
  rw [if_neg (w.ne_zero (by simp [free]))]
  simp only [wp_bind, wp_modify, wp_pure]
  have apart : (s.procs q).pagetable ≠ kstack := fun same => known (same ▸ free)
  refine ⟨trivial, by simp, chain', fun j => ?_⟩
  rw [setProc_procs, Function.update_self, quiet.procs, entry, entry, setProc_mem, away _ apart]

/-- The pages that `alloc_proc` takes: the trapframe, the root of a user's table, and the stack. -/
def allocCost (isUser : Bool) : Nat := if isUser then 3 else 2

theorem allocTable_chain (w : Owns s o) (chain : Chain s.mem s.freelist l)
    (kernel : o s.kernelPagetable ≠ .free) (isUser : Bool) :
    wp (allocTable q isUser) (fun r t => r = some q ∧ allocCost isUser ≤ l.length + 1 ∧
      Chain t.mem t.freelist (l.drop (allocCost isUser - 1)) ∧
      (isUser = true → ∀ j, entry t.mem (t.procs q).pagetable j = 0))
      (Short (allocCost isUser - 1) l) s := by
  unfold allocTable
  cases isUser with
  | true =>
    simp only [if_true, wp_bind]
    refine wp_mono (wp_and (createPagetable_wp w (some q)) (createPagetable_chain w chain)) ?_
      fun _ _ stopped => ⟨stopped.1, Nat.lt_succ_of_lt stopped.2.2⟩
    rintro pt t ⟨⟨o₁, w₁, -, -, root, -⟩, enough, chain₁, empty⟩
    simp only [updProc, wp_modify]
    rw [if_neg (w₁.ne_zero (by simp [root]))]
    have known : o₁ ((t.setProc q { t.procs q with pagetable := pt }).procs q).pagetable ≠ .free := by
      simp [root]
    refine wp_mono (allocStack_chain (w₁.setProc q _) chain₁ known) ?_
      fun _ _ short => short.more (Nat.le_refl 2)
    rintro r u ⟨is, enough', chain₂, same⟩
    rw [List.length_drop] at enough'
    rw [List.drop_drop] at chain₂
    refine ⟨is, show 3 ≤ _ by omega, chain₂, fun _ j => (same j).trans ?_⟩
    rw [setProc_procs, Function.update_self, setProc_mem]
    exact empty j
  | false =>
    simp only [Bool.false_eq_true, if_false, wp_bind, wp_modify]
    have known : o ((s.setProc q { s.procs q with pagetable := s.kernelPagetable }).procs q).pagetable ≠
        .free := by
      simpa using kernel
    refine wp_conseq (allocStack_chain (w.setProc q _) chain known) ?_
    rintro r u ⟨is, enough, chain', -⟩
    exact ⟨is, show 2 ≤ _ by omega, chain', fun user => by cases user⟩

theorem allocProc_chain (w : Owns s o) (chain : Chain s.mem s.freelist l)
    (kernel : o s.kernelPagetable ≠ .free) (isUser : Bool) :
    wp (allocProc isUser) (fun r t => r = s.nextSlot ∧ ∀ q, r = some q →
      allocCost isUser ≤ l.length ∧ Chain t.mem t.freelist (l.drop (allocCost isUser)) ∧
      (isUser = true → ∀ j, entry t.mem (t.procs q).pagetable j = 0))
      (fun e t => s.nextSlot ≠ none ∧ Short (allocCost isUser) l e t) s := by
  unfold allocProc
  simp only [wp_bind, wp_get]
  split
  · next found =>
    refine ⟨found.symm, fun q impossible => ?_⟩
    cases impossible
  next q found =>
  have slot : s.nextSlot = some q := found
  have taken : s.nextSlot ≠ none := by simp [slot]
  simp only [wp_bind, updProc, wp_modify]
  have w₁ := w.setProc q { s.procs q with pid := q.val, state := .used, isUser := isUser }
  refine wp_mono (wp_and (allocPage_wp w₁) (allocPage_chain w₁ chain)) ?_
    fun _ _ stopped => ⟨taken, stopped.1, stopped.2.2 ▸ (by cases isUser <;> decide)⟩
  rintro tf t ⟨⟨free, w₂, quiet, -⟩, rest, rfl, chain₂, -⟩
  rw [if_neg (w₁.ne_zero (by simp [free])), wp_modify]
  have w₃ := w₂.setProc q { t.procs q with trapframe := tf }
  have known : Function.update o tf .other t.kernelPagetable ≠ .free := by
    have apart : t.kernelPagetable ≠ tf := by
      rintro same
      rw [quiet.kernelPagetable] at same
      exact kernel (same ▸ free)
    rw [Function.update_of_ne apart, quiet.kernelPagetable]
    exact kernel
  refine wp_mono (allocTable_chain (q := q) w₃ chain₂ known isUser) ?_ fun e u short => ?_
  · rintro r u ⟨rfl, enough, chain₃, empty⟩
    refine ⟨slot.symm, fun q' here => ?_⟩
    obtain rfl := Option.some.inj here
    refine ⟨enough, ?_, empty⟩
    cases isUser <;> exact chain₃
  · refine ⟨taken, ?_⟩
    cases isUser <;> exact short.head

/-- The tables on the way to the page next to the code are there. -/
theorem Laid.tables {pages : List UserPage} (d : Laid q s o l pages t o') {page : UserPage}
    (inside : page ∈ pages) (code : page.va = USER_TEXT_START)
    (same : index 2 va = index 2 USER_TEXT_START ∧ index 1 va = index 1 USER_TEXT_START) :
    missing t.mem (t.procs q).pagetable va = 0 := by
  obtain ⟨e, mapped, -⟩ := (d.at_ page inside).mapped
  rw [code] at mapped
  exact missing_of_translate mapped same

/-- What the user of the finished process reads. -/
theorem Laid.byte {pages : List UserPage} (d : Laid q s o l pages t o') (finished : Finished q t o' u)
    (created : Created q true s o u o'') (va : Word) : userByte u q va = pagesByte pages va := by
  have space := ((created.inv.alive q (by simp [created.runnable])).user created.isUser).space
  have kept : ∀ page ∈ pages, page.At u o' q ∧ Low page.va := by
    intro page inside
    have is := d.at_ page inside
    obtain ⟨e, mapped, user, frame⟩ := is.mapped
    have low : Low page.va := by
      by_contra high
      exact user (d.space.high _ e mapped high).1
    refine ⟨⟨⟨e, ?_, user, frame⟩, is.owner, fun i small => ?_⟩, low⟩
    · rw [finished.pagetable, finished.low _ low]
      exact mapped
    · rw [finished.frames _ _ is.owner]
      exact is.bytes i small
  unfold pagesByte
  cases found : pages.find? fun page => path page.va = path va with
  | some page =>
    have here : path page.va = path va := by simpa using List.find?_some found
    exact (kept page (List.mem_of_find?_eq_some found)).1.byte here
  | none =>
    have others : ∀ page ∈ pages, path page.va ≠ path va := by simpa using found
    rw [Option.map_none, userByte]
    cases is : translate u.mem (u.procs q).pagetable va with
    | none => rfl
    | some e =>
      have high : ¬ Low va := by
        intro low
        have unset := (finished.low va low).trans (d.nothing va low others)
        rw [finished.pagetable, unset] at is
        cases is
      rw [Option.bind_some, if_pos (space.high va e is high).1]

theorem freshPages_eq {userBin : Nat → BitVec 8} {binSize : Nat} {page page₀ page₁ : Word}
    {rest rest₀ rest₁ : List Word} (is : l.drop 3 = page :: rest) (is₀ : rest.drop 2 = page₀ :: rest₀)
    (is₁ : rest₀ = page₁ :: rest₁) : freshPages userBin binSize l =
      [stackPage 1 page₁ rest₁, stackPage 0 page₀ rest₀, codePage userBin binSize page rest] := by
  subst is₁
  rcases l with _ | ⟨a, _ | ⟨b, _ | ⟨c, l⟩⟩⟩ <;> simp only [List.drop_succ_cons, List.drop_zero,
    List.drop_nil, reduceCtorEq] at is
  subst is
  rcases rest with _ | ⟨x, _ | ⟨y, rest⟩⟩ <;> simp only [List.drop_succ_cons, List.drop_zero,
    List.drop_nil, reduceCtorEq] at is₀
  subst is₀
  rfl

theorem text_apart : ∀ i < 2, path USER_TEXT_START ≠ path (stackVa i) := by decide

theorem stacks_apart : path (stackVa 0) ≠ path (stackVa 1) := by decide

/-! ### The special pages -/

/-- The trapframe of a new process is mapped first, with its two tables; then the trampoline needs
none. -/
theorem Draft.mapTrapframe_chain (d : Draft q s o t o') (chain : Chain t.mem t.freelist l)
    (zero : entry t.mem (t.procs q).pagetable (index 2 TRAPFRAME) = 0) (pa perm : Word)
    (solid : perm &&& (R ||| W ||| X) ≠ 0) :
    wp (mapPage (t.procs q).pagetable TRAPFRAME pa perm) (fun r u => r = 0 ∧ 2 ≤ l.length ∧
      ∃ o'' e, Draft q s o u o'' ∧ Mapped (some q) (t.procs q).pagetable TRAPFRAME e t o' u o'' ∧
        translate u.mem (t.procs q).pagetable TRAMPOLINE = none ∧
        missing u.mem (t.procs q).pagetable TRAMPOLINE = 0) (Short 2 l) t := by
  have none' : child t.mem (t.procs q).pagetable (index 2 TRAPFRAME) = none := by
    rw [child, zero, if_pos (by decide)]
  have unset : ∀ va, index 2 va = index 2 TRAPFRAME →
      translate t.mem (t.procs q).pagetable va = none := by
    intro va same
    rw [Sv39.translate, node, same, none']
    rfl
  have two : missing t.mem (t.procs q).pagetable TRAPFRAME = 2 := by
    unfold missing
    rw [none']
  have spec := wp_and (d.mapSpecial_wp (.inl rfl) pa perm solid)
    (mapPage_chain d.owns d.space.root (fun _ => .inr (.inr rfl)) (by decide) (unset _ rfl) pa perm
      chain)
  rw [two] at spec
  refine wp_mono spec ?_ fun _ _ stopped => stopped.2
  rintro r u ⟨⟨zero, o'', e, draft, mapped⟩, enough, -⟩
  refine ⟨zero, enough, o'', e, draft, mapped, ?_, ?_⟩
  · rw [mapped.translate, if_neg (by decide)]
    exact unset _ (by decide)
  · exact missing_of_translate ((mapped.translate TRAPFRAME).trans (if_pos rfl)) (by decide)

theorem Draft.mapTrampoline_wp (d : Draft q s o t o')
    (unset : translate t.mem (t.procs q).pagetable TRAMPOLINE = none)
    (tables : missing t.mem (t.procs q).pagetable TRAMPOLINE = 0) (pa perm : Word)
    (solid : perm &&& (R ||| W ||| X) ≠ 0) :
    wp (mapPage (t.procs q).pagetable TRAMPOLINE pa perm) (fun r _ => r = 0) (fun _ _ => False) t := by
  obtain ⟨l, chain, -, -⟩ := d.owns.free
  have spec := wp_and (d.mapSpecial_wp (.inr rfl) pa perm solid)
    (mapPage_chain d.owns d.space.root (fun _ => .inr (.inl rfl)) (by decide) unset pa perm chain)
  rw [tables] at spec
  exact wp_mono spec (fun _ _ done => done.1.1) fun _ _ stopped => absurd stopped.2.2 (by simp)

/-- The rest of `create_user_proc` takes two pages. -/
theorem finishUserProc_chain (d : Draft q s o t o') (chain : Chain t.mem t.freelist l)
    (zero : entry t.mem (t.procs q).pagetable (index 2 TRAPFRAME) = 0) (usertrap kernelvec : Word) :
    wp (finishUserProc q usertrap kernelvec) (fun _ _ => 2 ≤ l.length) (Short 2 l) t := by
  unfold finishUserProc
  simp only [wp_bind, updProc, wp_modify, wp_get]
  have d₁ := d.assign { t.procs q with sz := USER_STACK_SIZE } rfl rfl rfl ⟨rfl, rfl⟩
  set t₁ := t.setProc q { t.procs q with sz := USER_STACK_SIZE } with is₁
  have zero₁ : entry t₁.mem (t₁.procs q).pagetable (index 2 TRAPFRAME) = 0 := by
    rw [is₁, setProc_procs, Function.update_self]
    exact zero
  refine wp_conseq (d₁.mapTrapframe_chain (l := l) chain zero₁ _ _ (by decide)) ?_
  rintro r u ⟨rfl, enough, o₂, e, d₂, mapped, unset, tables⟩
  rw [if_neg (by simp)]
  simp only [wp_bind]
  have procs₂ : u.procs q = t₁.procs q := by rw [mapped.quiet.procs]
  refine wp_conseq (clearTrapframe_wp ⟨u.mem, rfl, fun _ _ => rfl⟩) fun _ v sc => ?_
  iterate 7 refine wp_conseq (storeField_wp sc _ _) fun _ v sc => ?_
  have at_tf : o₂ (t₁.procs q).trapframe = .trapframe (some q) := procs₂ ▸ d₂.trapframe
  obtain ⟨d₃, procs₃, quiet₃, moved₃⟩ := d₂.scribbled at_tf sc
  have procs : v.procs q = t₁.procs q := by rw [procs₃, procs₂]
  rw [wp_modify]
  have d₄ := d₃.assign { v.procs q with state := .runnable } rfl rfl rfl ⟨rfl, rfl⟩
  set v₁ := v.setProc q { v.procs q with state := .runnable } with is₄
  have table : (t₁.procs q).pagetable = (v₁.procs q).pagetable := by simp [is₄, procs]
  have kept : missing v.mem (t₁.procs q).pagetable TRAMPOLINE = 0 := by
    obtain ⟨mem, rfl, away⟩ := sc
    rw [← tables]
    refine d₂.owns.missing_congr (procs₂ ▸ d₂.space.root) (fun pg ds at_pg => away pg ?_) _
    rintro rfl
    rw [at_tf] at at_pg
    cases at_pg
  rw [procs₂] at moved₃
  rw [table] at moved₃ unset kept ⊢
  refine wp_mono (d₄.mapTrampoline_wp ((moved₃ _).trans unset) kept _ _ (by decide)) ?_
    fun _ _ never => never.elim
  rintro r x rfl
  rw [if_neg (by simp), wp_bind, wp_modify, wp_pure]
  exact enough

/-- `create_user_proc` makes the pages that the free list gives it, and no others; it takes ten. -/
theorem createUserProc_exact (inv : Inv s o) (chain : Chain s.mem s.freelist l)
    (userBin : Nat → BitVec 8) {binSize : Nat} (fits : binSize ≤ 4096) (usertrap kernelvec : Word) :
    wp (createUserProc userBin binSize usertrap kernelvec) (fun r t => r = -1 ∧ s.nextSlot = none ∨
      10 ≤ l.length ∧ ∃ q : Slot, s.nextSlot = some q ∧ r = q.val ∧
        ∀ va, userByte t q va = pagesByte (freshPages userBin binSize l) va)
      (fun e t => s.nextSlot ≠ none ∧ Short 10 l e t) s := by
  have kernel : o s.kernelPagetable ≠ .free := by simp [inv.kernelRoot]
  unfold createUserProc
  rw [wp_bind]
  refine wp_mono (wp_and (allocProc_wp inv.owns true) (allocProc_chain inv.owns chain kernel true))
    ?_ fun _ _ stopped => ⟨stopped.2.1, stopped.2.2.1, Nat.lt_of_lt_of_le stopped.2.2.2 (by decide)⟩
  rintro r t ⟨⟨rfl, rfl⟩ | ⟨q, o₁, rfl, a⟩, slot, taken⟩
  · exact .inl ⟨rfl, slot.symm⟩
  obtain ⟨-, chain₁, empty⟩ := taken q rfl
  have some' : s.nextSlot ≠ none := by simp [← slot]
  have short : ∀ {n k : Nat} {e u}, n + k ≤ 10 → Short n (l.drop k) e u →
      s.nextSlot ≠ none ∧ Short 10 l e u := fun sum short => ⟨some', short.more sum⟩
  have zero := empty rfl
  have d₁ : Laid q s o (l.drop 3) [] t o₁ :=
    ⟨a.draft, chain₁, by simp, fun va _ _ => (a.user rfl).2 va⟩
  have none' : missing t.mem (t.procs q).pagetable USER_TEXT_START = 2 := by
    have unset : child t.mem (t.procs q).pagetable (index 2 USER_TEXT_START) = none := by
      rw [child, zero, if_pos (by decide)]
    unfold missing
    rw [unset]
  simp only [wp_bind]
  refine wp_mono (d₁.alloc_wp USER_TEXT_START) ?_ fun _ _ few => short (by decide) few
  rintro page u ⟨rest, is, free, filled, chain₂, contents⟩
  have left : rest = l.drop 4 := by
    rw [show (4 : Nat) = 3 + 1 from rfl, ← List.drop_drop, is]
    rfl
  have m := d₁.owns.managed page (by simp [free])
  rw [if_neg (d₁.owns.ne_zero (by simp [free]))]
  simp only [wp_bind, wp_get, filled.quiet.procs]
  refine wp_mono (d₁.mapFrame_wp free filled chain₂ (by decide) (by decide) (by simp) (by decide)
    (by decide) (by decide) none') ?_ fun _ _ few => short (by decide) (left ▸ few)
  rintro r v ⟨-, procs, -, entries, o₂, d₂⟩
  refine wp_conseq (memcpy_wp m.aligned userBin fits) ?_
  rintro - x ⟨mem, rfl, away, bytes⟩
  have code := d₂.at_ _ (List.mem_singleton_self _)
  have written : ∀ i < 4096, byteAt (mem page) i =
      (codePage userBin binSize page rest).bytes i := by
    intro i inside
    rw [bytes i inside, code.bytes i inside, contents]
    rfl
  have d₃ : Laid q s o (rest.drop 2) [codePage userBin binSize page rest] (v.setMem mem) o₂ :=
    d₂.write away written
  have zero₃ : entry mem (t.procs q).pagetable (index 2 TRAPFRAME) = 0 := by
    have apart : (t.procs q).pagetable ≠ page := by
      rintro same
      have root := d₂.space.root
      rw [procs, same, code.owner] at root
      cases root
    rw [entry, away _ apart]
    exact (entries _ (by decide)).trans (zero _)
  refine d₃.mapStack_wp (fun e u few => short (n := 1) (k := 6) (by decide) ?_) (by decide) (by decide)
    ?_ (d₃.tables (List.mem_singleton_self _) rfl (by decide)) ?_
  · rwa [left, List.drop_drop] at few
  · intro page' inside
    obtain rfl := List.mem_singleton.mp inside
    exact text_apart 0 (by decide)
  intro page₀ rest₀ y o₃ is₀ procs₀ entries₀ d₄
  have left₀ : rest₀ = l.drop 7 := by
    rw [show (7 : Nat) = 4 + 2 + 1 from rfl, ← List.drop_drop, ← List.drop_drop, ← left, is₀]
    rfl
  refine d₄.mapStack_wp (fun e u few => short (n := 1) (k := 7) (by decide) (left₀ ▸ few)) (by decide)
    (by decide) ?_ (d₄.tables (List.mem_cons_of_mem _ (List.mem_singleton_self _)) rfl (by decide)) ?_
  · intro page' inside
    simp only [List.mem_cons, List.not_mem_nil, or_false] at inside
    rcases inside with rfl | rfl
    · exact stacks_apart
    · exact text_apart 1 (by decide)
  intro page₁ rest₁ z o₄ is₁ procs₁ entries₁ d₅
  have left₁ : rest₁ = l.drop 8 := by
    rw [show (8 : Nat) = 7 + 1 from rfl, ← List.drop_drop, ← left₀, is₁]
    rfl
  have zero₅ : entry z.mem (z.procs q).pagetable (index 2 TRAPFRAME) = 0 := by
    have first := entries₀ (index 2 TRAPFRAME) (by decide)
    have second := entries₁ (index 2 TRAPFRAME) (by decide)
    rw [procs₁, second, procs₀, first]
    show entry mem (v.procs q).pagetable _ = 0
    rw [procs]
    exact zero₃
  refine wp_mono (wp_and (finishUserProc_wp d₅.toDraft inv a.chosen usertrap kernelvec)
    (finishUserProc_chain d₅.toDraft d₅.chain zero₅ usertrap kernelvec)) ?_
    fun _ _ stopped => short (by decide) (left₁ ▸ stopped.2)
  rintro r w ⟨⟨rfl, ⟨o', created⟩, finished⟩, enough⟩
  rw [left₁, List.length_drop] at enough
  refine .inr ⟨by omega, q, a.chosen, rfl, fun va => ?_⟩
  have same : freshPages userBin binSize l =
      [stackPage 1 page₁ rest₁, stackPage 0 page₀ rest₀, codePage userBin binSize page rest] :=
    freshPages_eq is is₀ is₁
  rw [same]
  exact d₅.byte finished created va

/-! ### Two runs -/

/-- Byte `i` of a doubleword. -/
def wordByte (w : Word) (i : Nat) : BitVec 8 := (w >>> (8 * i)).setWidth 8

/-- Two states that agree on everything except the order of the free list, which is `l` and `l'`,
and what its pages hold. -/
structure Shuffled (s s' : Kernel) (l l' : List Word) : Prop where
  kernelEnd : s'.kernelEnd = s.kernelEnd
  kernelPagetable : s'.kernelPagetable = s.kernelPagetable
  trampolinePhysAddr : s'.trampolinePhysAddr = s.trampolinePhysAddr
  procs : s'.procs = s.procs
  current : s'.current = s.current
  chain : Chain s.mem s.freelist l
  chain' : Chain s'.mem s'.freelist l'
  perm : l'.Perm l
  outside : ∀ pg ∉ l, s'.mem pg = s.mem pg

/-- The pages whose addresses new user pages reveal are the same: those that follow the two stack
pages on the free list, and the one that follows the code page as far as the binary leaves its
address in place. -/
structure SameLinks (l l' : List Word) (binSize : Nat) : Prop where
  code : ∀ i, binSize ≤ i → i < 8 → wordByte (l.getD 4 0) i = wordByte (l'.getD 4 0) i
  stack₀ : l.getD 7 0 = l'.getD 7 0
  stack₁ : l.getD 8 0 = l'.getD 8 0

/-- Process `p` finds the same in its memory after the two runs, and later in every page that a page
fault maps. -/
structure FreshAlike (p : Slot) (t t' : Kernel) : Prop where
  created : ∀ va, userByte t p va = userByte t' p va
  faulted : ∀ u u' w w' va type type' r r', ReflTransGen Step t u → ReflTransGen Step t' u' →
    u.current = some p → u'.current = some p → (u.procs p).isUser = true →
    (u'.procs p).isUser = true → translate u.mem (u.procs p).pagetable va = none →
    translate u'.mem (u'.procs p).pagetable va = none → handlePageFault va type u = .ok r w →
    handlePageFault va type' u' = .ok r' w' →
    ∀ va', path va' = path va → userByte w p va' = userByte w' p va'

variable {s' t' : Kernel} {l' : List Word}

theorem wordByte_injective {w w' : Word} (same : ∀ i < 8, wordByte w i = wordByte w' i) : w = w' := by
  apply BitVec.eq_of_getLsbD_eq
  intro k small
  have bit := congrArg (BitVec.getLsbD · (k % 8)) (same (k / 8) (by omega))
  simp only [wordByte, BitVec.getLsbD_setWidth, BitVec.getLsbD_ushiftRight] at bit
  have position : 8 * (k / 8) + k % 8 = k := Nat.div_add_mod k 8
  rw [position, decide_eq_true (Nat.mod_lt k (by decide))] at bit
  simpa using bit

/-- The first eight bytes of a page off the free list are the address of the next page. -/
theorem leftover_byte (rest : List Word) {i : Nat} (inside : i < 4096) :
    byteAt (leftover rest) i = if i < 8 then wordByte (rest.headD 0) i else wordByte fives (i % 8) := by
  unfold byteAt leftover wordByte
  by_cases first : i < 8
  · have zero : (BitVec.ofNat 64 (i / 8 * 8) : Word) = 0 := by
      rw [show i / 8 = 0 by omega]
      rfl
    rw [if_pos first, if_pos zero, Nat.mod_eq_of_lt first]
  · have later : (BitVec.ofNat 64 (i / 8 * 8) : Word) ≠ 0 := by
      intro zero
      have eq := congrArg BitVec.toNat zero
      rw [BitVec.toNat_ofNat, show (0 : Word).toNat = 0 from rfl] at eq
      omega
    rw [if_neg first, if_neg later]

theorem headD_drop (l : List Word) (n : Nat) : (l.drop n).headD 0 = l.getD n 0 := by
  rw [List.headD_eq_head?_getD, List.head?_drop, List.getD_eq_getElem?_getD]

theorem stackVa_byte : ∀ i < 2, ∀ j : Fin 8,
    path (stackVa i + BitVec.ofNat 64 j) = path (stackVa i) ∧
      (stackVa i + BitVec.ofNat 64 j).toNat % 4096 = j := by
  decide

theorem textVa_byte : ∀ j : Fin 8,
    path (USER_TEXT_START + BitVec.ofNat 64 j) = path USER_TEXT_START ∧
      (USER_TEXT_START + BitVec.ofNat 64 j).toNat % 4096 = j := by
  decide

theorem pagesByte_cons (page : UserPage) (pages : List UserPage) (va : Word) :
    pagesByte (page :: pages) va =
      if path page.va = path va then some (page.bytes (va.toNat % 4096)) else pagesByte pages va := by
  unfold pagesByte
  rw [List.find?_cons]
  by_cases here : path page.va = path va
  · simp only [here, decide_true, if_true, Option.map_some]
  · simp only [here, decide_false, if_false]

/-- What the user reads depends on the free list through the links alone. -/
theorem freshPages_iff (userBin : Nat → BitVec 8) (binSize : Nat) :
    (∀ va, pagesByte (freshPages userBin binSize l) va = pagesByte (freshPages userBin binSize l') va) ↔
      SameLinks l l' binSize := by
  constructor
  · intro same
    have link : ∀ i < 2, ∀ j < 8, path (stackVa i + BitVec.ofNat 64 j) = path (stackVa i) ∧
        (stackVa i + BitVec.ofNat 64 j).toNat % 4096 = j := fun i first j small =>
      stackVa_byte i first ⟨j, small⟩
    refine ⟨fun i above first => ?_, wordByte_injective fun j small => ?_,
      wordByte_injective fun j small => ?_⟩
    · obtain ⟨here, off⟩ := textVa_byte ⟨i, first⟩
      have eq := same (USER_TEXT_START + BitVec.ofNat 64 i)
      simp only [freshPages, pagesByte_cons, stackPage, codePage, here,
        if_neg (text_apart 0 (by decide)).symm, if_neg (text_apart 1 (by decide)).symm, if_true, off,
        if_neg (Nat.not_lt.mpr above), Option.some.injEq] at eq
      rwa [leftover_byte _ (by omega), leftover_byte _ (by omega), if_pos first, if_pos first,
        headD_drop, headD_drop] at eq
    · obtain ⟨here, off⟩ := link 0 (by decide) j small
      have eq := same (stackVa 0 + BitVec.ofNat 64 j)
      simp only [freshPages, pagesByte_cons, stackPage, here, if_neg stacks_apart.symm, if_true, off,
        Option.some.injEq] at eq
      rwa [leftover_byte _ (by omega), leftover_byte _ (by omega), if_pos small, if_pos small,
        headD_drop, headD_drop] at eq
    · obtain ⟨here, off⟩ := link 1 (by decide) j small
      have eq := same (stackVa 1 + BitVec.ofNat 64 j)
      simp only [freshPages, pagesByte_cons, stackPage, here, if_true, off, Option.some.injEq] at eq
      rwa [leftover_byte _ (by omega), leftover_byte _ (by omega), if_pos small, if_pos small,
        headD_drop, headD_drop] at eq
  · rintro ⟨code, stack₀, stack₁⟩ va
    have inside : va.toNat % 4096 < 4096 := Nat.mod_lt _ (by decide)
    have first : byteAt (leftover (l.drop 7)) (va.toNat % 4096) =
        byteAt (leftover (l'.drop 7)) (va.toNat % 4096) := by
      rw [leftover_byte _ inside, leftover_byte _ inside, headD_drop, headD_drop, stack₀]
    have second : byteAt (leftover (l.drop 8)) (va.toNat % 4096) =
        byteAt (leftover (l'.drop 8)) (va.toNat % 4096) := by
      rw [leftover_byte _ inside, leftover_byte _ inside, headD_drop, headD_drop, stack₁]
    have third : binSize ≤ va.toNat % 4096 → byteAt (leftover (l.drop 4)) (va.toNat % 4096) =
        byteAt (leftover (l'.drop 4)) (va.toNat % 4096) := by
      intro above
      rw [leftover_byte _ inside, leftover_byte _ inside, headD_drop, headD_drop]
      split
      · next low => exact code _ above low
      · rfl
    simp only [freshPages, pagesByte_cons, stackPage, codePage, first, second]
    congr 2
    split
    · congr 1
      split
      · rfl
      · next above => rw [third (Nat.not_lt.mp above)]
    · rfl

/-- Owners are the same after a shuffle of the free list. -/
theorem Shuffled.inv (shuffled : Shuffled s s' l l') (inv : Inv s o) : Inv s' o := by
  obtain ⟨nodup, members⟩ := inv.owns.mem_chain shuffled.chain
  have kept : ∀ pg, o pg ≠ .free → s'.mem pg = s.mem pg := fun pg used =>
    shuffled.outside pg fun inside => used ((members pg).mp inside)
  have table : ∀ pg h ds, o pg = .table h ds → s'.mem pg = s.mem pg := fun pg h ds is =>
    kept pg (by simp [is])
  have spares : Spares none s o s' o := fun pg h _ own => ⟨rfl, kept pg (by
    rintro free
    rw [free, or_self] at own
    exact own)⟩
  have owns : Owns s' o := {
    base := shuffled.kernelEnd ▸ inv.owns.base
    free := ⟨l', shuffled.chain', shuffled.perm.nodup_iff.mpr nodup, fun pg =>
      shuffled.perm.mem_iff.trans (members pg)⟩
    managed := fun pg known =>
      have m := inv.owns.managed pg known
      ⟨m.1, shuffled.kernelEnd ▸ m.2, m.3⟩
    tree := fun h => (inv.owns.tree h).congr fun pg ds at_pg _ => table pg h ds (label_eq.mp at_pg)
    solid := fun pg h ds i at_pg len valid => by
      rw [entry, table pg h ds at_pg] at valid ⊢
      exact inv.owns.solid pg h ds i at_pg len valid }
  refine inv.change none owns spares shuffled.kernelPagetable ?_ (fun p _ => ?_) (by simp) (by simp)
    fun p cur => ?_
  · rw [shuffled.kernelPagetable]
    exact inv.kernelRoot
  · rw [shuffled.procs]
    exact .refl _
  · rw [shuffled.procs]
    exact inv.current p (shuffled.current.symm.trans cur)

/-- The page of an address and the address have the same indices. -/
theorem path_pageStart (va : Word) : path (pageStart va) = path va := by
  have bound := va.isLt
  simp only [path, List.cons.injEq, and_true, ← BitVec.toNat_inj, toNat_index, pageStart,
    BitVec.toNat_ofNat]
  omega

/-- With a slot and enough pages `create_user_proc` takes the slot, and its pages are known. -/
theorem createUserProc_creates (inv : Inv s o) (chain : Chain s.mem s.freelist l)
    (slot : s.nextSlot = some p) (enough : 10 ≤ l.length) (userBin : Nat → BitVec 8) {binSize : Nat}
    (fits : binSize ≤ 4096) (usertrap kernelvec : Word) :
    value (createUserProc userBin binSize usertrap kernelvec) s = some (p.val : Int) ∧
      ∀ va, userByte (after (createUserProc userBin binSize usertrap kernelvec) s) p va =
        pagesByte (freshPages userBin binSize l) va := by
  have exact' := createUserProc_exact inv chain userBin fits usertrap kernelvec
  unfold value after
  cases run : createUserProc userBin binSize usertrap kernelvec s with
  | ok r t =>
    rcases wp_ok exact' run with ⟨-, none'⟩ | ⟨-, q, slot', rfl, reads⟩
    · rw [slot] at none'
      cases none'
    · obtain rfl := Option.some.inj (slot.symm.trans slot')
      exact ⟨rfl, reads⟩
  | error e t => exact absurd (wp_error exact' run).2.2 (Nat.not_lt.mpr enough)

/-- A page that a page fault maps holds zeros. -/
theorem fault_zeros (inv : Inv u o) (cur : u.current = some p) (user : (u.procs p).isUser = true)
    (unset : translate u.mem (u.procs p).pagetable va = none) {type : Access} {r : Int}
    (run : handlePageFault va type u = .ok r v) {va' : Word} (here : path va' = path va) :
    userByte v p va' = some 0 := by
  obtain ⟨o', repaired⟩ := wp_ok (handlePageFault_wp inv va type) run
  have space := ((inv.alive p (by simp [inv.current p cur])).user user).space
  have nonzero : (u.procs p).pagetable ≠ 0 := inv.owns.ne_zero (by simp [space.root])
  have table : u.faultTable = ((u.procs p).pagetable, true) := by
    simp only [Kernel.faultTable, cur, user]
    exact if_pos ⟨nonzero, trivial⟩
  have fresh := repaired.fresh
  rw [table, translate_congr_path (path_pageStart va), translate_congr_path (path_pageStart va)] at fresh
  obtain ⟨e, mapped, isUser, zeros⟩ := fresh rfl unset
  rw [userByte, repaired.procs, translate_congr_path here, mapped, Option.bind_some, if_neg isUser,
    zeros]
  simp [byteAt]

theorem Inv.steps (inv : Inv s o) (run : ReflTransGen Step s t) : ∃ o', Inv t o' :=
  Transition.invariant (I := fun t => ∃ o, Inv t o)
    (fun _ _ ⟨_, inv⟩ step => (inv.step step).imp fun _ next => next.inv) ⟨o, inv⟩ run

/-- A new process finds the same in its memory, whatever the free list, exactly if its pages are
followed on the free list by the same pages. -/
theorem fresh_memory_iff (reach : Reachable s) (shuffled : Shuffled s s' l l')
    {userBin : Nat → BitVec 8} {binSize : Nat} (fits : binSize ≤ 4096) {usertrap kernelvec : Word}
    (run : createUserProc userBin binSize usertrap kernelvec s = .ok (p.val : Int) t)
    (run' : createUserProc userBin binSize usertrap kernelvec s' = .ok (p.val : Int) t') :
    FreshAlike p t t' ↔ SameLinks l l' binSize := by
  obtain ⟨o, inv⟩ := reach.inv
  have inv' := shuffled.inv inv
  have reads : ∀ {s t l}, Inv s o → Chain s.mem s.freelist l →
      createUserProc userBin binSize usertrap kernelvec s = .ok (p.val : Int) t →
      (∃ o', Inv t o') ∧ ∀ va, userByte t p va = pagesByte (freshPages userBin binSize l) va := by
    intro s t l inv chain run
    refine ⟨(inv.step (.createUserProc userBin binSize fits usertrap kernelvec (.inl ⟨_, run⟩))).imp
      fun _ next => next.inv, ?_⟩
    rcases wp_ok (createUserProc_exact inv chain userBin fits usertrap kernelvec) run with
      ⟨failed, -⟩ | ⟨-, q, -, is, reads⟩
    · omega
    · obtain rfl : p = q := Fin.ext (by omega)
      exact reads
  obtain ⟨⟨o₁, inv₁⟩, reads₁⟩ := reads inv shuffled.chain run
  obtain ⟨⟨o₂, inv₂⟩, reads₂⟩ := reads inv' shuffled.chain' run'
  rw [← freshPages_iff userBin binSize]
  constructor
  · intro alike va
    rw [← reads₁, ← reads₂]
    exact alike.created va
  · intro same
    refine ⟨fun va => by rw [reads₁, reads₂, same], ?_⟩
    intro u u' w w' va type type' r r' steps steps' cur cur' user user' unset unset' fault fault' va'
      here
    obtain ⟨o₃, inv₃⟩ := inv₁.steps steps
    obtain ⟨o₄, inv₄⟩ := inv₂.steps steps'
    rw [fault_zeros inv₃ cur user unset fault here, fault_zeros inv₄ cur' user' unset' fault' here]

/-! ### Two orders of the free list -/

/-- The small memory with its free pages in the other order. -/
def reversedBoot : Kernel where
  kernelEnd := sampleBoot.kernelEnd
  mem pg off :=
    if pg ∈ samplePages then
      if off = 0 ∧ 0x87000000 < pg then pg - 4096 else 0
    else sampleBoot.mem pg off
  freelist := 0x87017000
  kernelPagetable := sampleBoot.kernelPagetable
  trampolinePhysAddr := sampleBoot.trampolinePhysAddr
  procs := sampleBoot.procs
  current := sampleBoot.current

theorem reversedBoot_shuffled : Shuffled sampleBoot reversedBoot samplePages samplePages.reverse where
  kernelEnd := rfl
  kernelPagetable := rfl
  trampolinePhysAddr := rfl
  procs := rfl
  current := rfl
  chain := by decide +kernel
  chain' := by decide +kernel
  perm := List.reverse_perm _
  outside pg out := funext fun off => if_neg out

theorem sampleBoot_shuffled : Shuffled sampleBoot sampleBoot samplePages samplePages :=
  ⟨rfl, rfl, rfl, rfl, rfl, reversedBoot_shuffled.chain, reversedBoot_shuffled.chain, .refl _,
    fun _ _ => rfl⟩

def sampleBin : Nat → BitVec 8 := fun _ => 0x73

theorem sampleBoot_reachable : Reachable sampleBoot := ⟨_, sampleBoot_booted, .refl⟩

/-- A state with the small memory's free pages, in any order, makes its first process in slot 0. -/
theorem sample_creates (shuffled : Shuffled sampleBoot s samplePages l) :
    value (createUserProc sampleBin 16 0x80001000 0x80002000) s = some 0 ∧
      ∀ va, userByte (after (createUserProc sampleBin 16 0x80001000 0x80002000) s) 0 va =
        pagesByte (freshPages sampleBin 16 l) va := by
  obtain ⟨o, inv⟩ := sampleBoot_reachable.inv
  have slot : s.nextSlot = some 0 := by
    unfold Kernel.nextSlot
    rw [shuffled.procs]
    rfl
  have enough : 10 ≤ l.length := by
    rw [shuffled.perm.length_eq]
    decide
  exact createUserProc_creates (shuffled.inv inv) shuffled.chain' slot enough sampleBin (by decide)
    0x80001000 0x80002000

theorem fresh_memory_iff_reversed :
    FreshAlike 0 (after (createUserProc sampleBin 16 0x80001000 0x80002000) sampleBoot)
      (after (createUserProc sampleBin 16 0x80001000 0x80002000) reversedBoot) ↔
    SameLinks samplePages samplePages.reverse 16 :=
  fresh_memory_iff sampleBoot_reachable reversedBoot_shuffled (by decide)
    (run_of_value (sample_creates sampleBoot_shuffled).1)
    (run_of_value (sample_creates reversedBoot_shuffled).1)

/-- A new stack page tells the user an address of the kernel: the second byte differs. -/
theorem stack_reveals_link : Reachable sampleBoot ∧
    Shuffled sampleBoot reversedBoot samplePages samplePages.reverse ∧
    ∃ t t', createUserProc sampleBin 16 0x80001000 0x80002000 sampleBoot = .ok 0 t ∧
      createUserProc sampleBin 16 0x80001000 0x80002000 reversedBoot = .ok 0 t' ∧
      userByte t 0 0x1f001 ≠ userByte t' 0 0x1f001 := by
  refine ⟨sampleBoot_reachable, reversedBoot_shuffled, _, _,
    run_of_value (sample_creates sampleBoot_shuffled).1,
    run_of_value (sample_creates reversedBoot_shuffled).1, ?_⟩
  rw [(sample_creates sampleBoot_shuffled).2, (sample_creates reversedBoot_shuffled).2]
  decide +kernel

end Xv6Lab.Vm

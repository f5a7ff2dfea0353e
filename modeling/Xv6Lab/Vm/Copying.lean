import Xv6Lab.Vm.AddressSpace
import Xv6Lab.Vm.Supply
import Xv6Lab.Vm.Walk

/-! What `uvmcopy` does to the destination and to the free list, for any source table in use. -/

namespace Xv6Lab.Vm

open Rv64 Sv39 Exec

/-- A page that is neither free nor one of the tables of `c`. -/
def Apart (o : Owners) (c : Slot) (pg : Word) : Prop := o pg ≠ .free ∧ ∀ ds, o pg ≠ .table (some c) ds

/-- The page of the address starts below `sz`. -/
def PageBelow (va sz : Word) : Prop := va.toNat / 4096 * 4096 < sz.toNat

/-- The table at `old` is in use as far as `sz`: neither its tables nor the frames below `sz` are
free or belong to the tables of `c`, and its entries there are leaves. -/
structure Source (s : Kernel) (o : Owners) (c : Slot) (old sz : Word) : Prop where
  tables : ∀ ds pg, ds.length ≤ 2 → node s.mem old ds = some pg → Apart o c pg
  frames : ∀ va e, PageBelow va sz → lookup s old va = some e → Apart o c (pte2pa e)
  leaves : ∀ va e, PageBelow va sz → lookup s old va = some e → e &&& (R ||| W ||| X) ≠ 0

/-- The pages lie together under one table. -/
def Near (pages : List Word) : Prop := ∀ i ∈ pages, index 2 i = 0 ∧ index 1 i = 0

/-- The pages that the copies of a list near each other take: one each, and what tables are
missing. -/
def copyCost (s : Kernel) (old new : Word) (pages : List Word) : Nat :=
  let n := pages.countP fun i => (lookup s old i).isSome
  if n = 0 then 0 else n + missing s.mem new 0

variable {s t u : Kernel} {o o' o'' : Owners} {c p : Slot} {old new pt sz va : Word} {l : List Word}

/-! ### A new frame -/

/-- `map_page` of a new frame takes the pages of the tables that are missing. -/
theorem mapFrame_chain {page perm : Word} (w : Owns s o) (free : o page = .free)
    (filled : Filled (some p) page (.frame (some p) (path va)) s o t) (sp : Space s.mem o p pt)
    (chain : Chain t.mem t.freelist l) (low : va < USER_LIMIT) (aligned : va.toNat % 4096 = 0)
    (unset : translate s.mem pt va = none) (solid : perm &&& (R ||| W ||| X) ≠ 0)
    (user : perm &&& U ≠ 0) (small : perm.toNat < 1024) :
    wp (mapPage pt va page perm) (fun r u => r = 0 ∧ missing s.mem pt va ≤ l.length ∧
      Chain u.mem u.freelist (l.drop (missing s.mem pt va)) ∧
      (∀ j ≠ index 2 va, entry u.mem pt j = entry s.mem pt j) ∧
      ∃ o', Framed p pt va page (perm ||| V) s o t u o') (Short (missing s.mem pt va) l) t := by
  have unset' := (filled.translate _ _ sp.root va).trans unset
  have root := (sp.filled filled).root
  have away : ∀ pg ds, o pg = .table (some p) ds → t.mem pg = s.mem pg := by
    intro pg ds at_pg
    refine filled.others pg ?_
    rintro rfl
    rw [free] at at_pg
    cases at_pg
  have same := w.missing_congr sp.root away va
  have may : MayMap t va := fun _ => .inl low
  have spec := wp_and (mapFrame_wp w free filled sp low unset solid user small)
    (wp_and (mapPage_chain filled.owns root may aligned unset' page perm chain)
      (mapPage_root filled.owns root may page perm))
  rw [same] at spec
  refine wp_mono spec ?_ fun _ _ stopped => stopped.2.1
  rintro r u ⟨⟨zero, framed⟩, ⟨enough, chain'⟩, entries⟩
  refine ⟨zero, enough, chain', fun j other => ?_, framed⟩
  rw [entries j other, entry, entry, away _ _ sp.root]

/-! ### The source -/

theorem Apart.kept {pg : Word} (apart : Apart o c pg) (g : Grows (some c) s o t o') :
    Apart o' c pg ∧ t.mem pg = s.mem pg := by
  rcases g pg with ⟨free, -⟩ | ⟨same, ⟨ds, table⟩ | kept⟩
  · exact absurd free apart.1
  · exact absurd table (apart.2 ds)
  · refine ⟨?_, kept⟩
    rw [Apart, same]
    exact apart

theorem Source.tableKept (source : Source s o c old sz) (g : Grows (some c) s o t o') :
    TableKept old s t :=
  fun ds pg short walk => ((source.tables ds pg short walk).kept g).2

theorem Source.grows (source : Source s o c old sz) (g : Grows (some c) s o t o') :
    Source t o' c old sz := by
  have kept := source.tableKept g
  refine ⟨fun ds pg short walk => ?_, fun va e below is => ?_, fun va e below is => ?_⟩
  · rw [kept.nodes (by omega)] at walk
    exact ((source.tables ds pg short walk).kept g).1
  · rw [kept.lookup] at is
    exact ((source.frames va e below is).kept g).1
  · rw [kept.lookup] at is
    exact source.leaves va e below is

/-! ### The loop -/

/-- What the loop has done to the table at `new` after the pages of a list. -/
structure Carried (c : Slot) (old new : Word) (l : List Word) (s : Kernel) (o : Owners) (t : Kernel)
    (o' : Owners) : Prop where
  owns : Owns t o'
  quiet : Quiet s t
  grows : Grows (some c) s o t o'
  space : Space t.mem o' c new
  others : ∀ va, (∀ i ∈ l, path i ≠ path va) → translate t.mem new va = translate s.mem new va
  unmapped : ∀ i ∈ l, lookup s old i = none → translate t.mem new i = none
  copied : ∀ i ∈ l, ∀ e, lookup s old i = some e → ∃ e', translate t.mem new i = some e' ∧
    flags e' = flags e ||| U ∧ t.mem (pte2pa e') = s.mem (pte2pa e) ∧
    o (pte2pa e') = .free ∧ o' (pte2pa e') = .frame (some c) (path i)
  entries : ∀ j, (∀ i ∈ l, index 2 i ≠ j) → entry t.mem new j = entry s.mem new j

theorem Carried.refl (w : Owns s o) (space : Space s.mem o c new) : Carried c old new [] s o s o :=
  ⟨w, .refl s, .refl _ s o, space, fun _ _ => rfl, by simp, by simp, fun _ _ => rfl⟩

/-- The flags of a copy. -/
theorem copy_flags {e : Word} (valid : e &&& V ≠ 0) : flags e ||| U ||| V = flags e ||| U := by
  have set : flags e ||| V = flags e := flags_or_bit (k := 0) (by decide) valid
  rw [BitVec.or_assoc, BitVec.or_comm U V, ← BitVec.or_assoc, set]

/-- One page is copied. -/
theorem carryOne_wp {i e : Word} (w : Owns s o) (space : Space s.mem o c new)
    (chain : Chain s.mem s.freelist l) (low : i < USER_LIMIT) (aligned : i.toNat % 4096 = 0)
    (is : lookup s old i = some e) (apart : Apart o c (pte2pa e))
    (leaf : e &&& (R ||| W ||| X) ≠ 0) (unset : translate s.mem new i = none)
    {rest : K Int} {Q : Int → Kernel → Prop} {E : Halt → Kernel → Prop}
    (stop : ∀ e t, Short (1 + missing s.mem new i) l e t → E e t)
    (next : ∀ t o', Carried c old new [i] s o t o' → 1 + missing s.mem new i ≤ l.length →
      Chain t.mem t.freelist (l.drop (1 + missing s.mem new i)) → wp rest Q E t) :
    wp (do
      let mem ← allocPage
      if mem = 0 then
        pure (-1)
      else
        copyPage mem (pte2pa e)
        let r ← mapPage new i mem (if i < USER_LIMIT then flags e ||| U else flags e &&& ~~~U)
        if r ≠ 0 then
          freePage mem
          pure (-1)
        else
          rest) Q E s := by
  have solid : flags e &&& (R ||| W ||| X) ≠ 0 := by
    rw [flags, mask_rwx _ (by decide)]
    exact leaf
  have user : (flags e ||| U) &&& U ≠ 0 := by
    rw [BitVec.and_or_distrib_right]
    intro zero
    exact absurd (BitVec.or_eq_zero_iff.mp zero).2 (by decide)
  have small : (flags e ||| U).toNat < 1024 := or_lt_flags (flags_lt e) (by decide)
  rw [wp_bind, if_pos low]
  refine wp_mono (wp_and (allocPage_wp w) (allocPage_chain w chain)) ?_ ?_
  case refine_2 =>
    rintro e t ⟨-, panics, rfl⟩
    exact stop e t ⟨panics, by rw [List.length_nil]; omega⟩
  rintro mem t ⟨⟨free, w', quiet, away⟩, rest', rfl, chain', -⟩
  rw [if_neg (w.ne_zero (by simp [free]))]
  simp only [copyPage, wp_bind, wp_modify]
  have mine : (Owner.frame (some c) (path i)).of (some c) := rfl
  have filled := w.fill w' free quiet away (t.mem (pte2pa e)) mine (by simp)
  have chain'' : Chain (Function.update t.mem mem (t.mem (pte2pa e))) t.freelist rest' := by
    refine w'.chain_setMem chain' fun pg unused => Function.update_of_ne ?_ ..
    rintro rfl
    simp at unused
  refine wp_mono (mapFrame_chain w free filled space chain'' low aligned unset (rwx_or _ solid) user
    small) ?_ fun e t short => stop e t (Nat.add_comm 1 _ ▸ short.head)
  rintro r u ⟨rfl, enough, chain₁, entries, o', framed⟩
  rw [copy_flags (lookup_valid is)] at framed
  rw [if_neg (by simp)]
  have other : pte2pa e ≠ mem := by
    rintro eq
    exact apart.1 (eq ▸ free)
  refine next u o' ⟨framed.owns, framed.quiet, framed.grows, framed.space, fun va away => ?_, ?_, ?_,
    fun j away => entries j (away i (by simp)).symm⟩ ?_ ?_
  · rw [framed.translate va, if_neg fun same => away i (by simp) same.symm]
  · intro j inside none'
    rw [List.mem_singleton.mp inside, is] at none'
    cases none'
  · intro j inside e₁ is₁
    obtain rfl := List.mem_singleton.mp inside
    obtain rfl := Option.some.inj (is.symm.trans is₁)
    refine ⟨_, (framed.translate j).trans (if_pos rfl), flags_make _ small, ?_, ?_, ?_⟩
    · rw [framed.frame, framed.contents, setMem_mem, Function.update_self, away _ other]
    · rw [framed.frame]
      exact free
    · rw [framed.frame]
      exact framed.owner
  · rw [List.length_cons]
    omega
  · rw [Nat.add_comm, List.drop_succ_cons]
    exact chain₁

theorem Grows.free (g : Grows (some c) s o t o') {pg : Word} (free : o' pg = .free) : o pg = .free := by
  rcases g pg with ⟨was, -⟩ | ⟨same, -⟩
  · exact was
  · exact same.symm.trans free

/-- What is copied stays so while more pages are copied. -/
theorem Carried.cons {i : Word} {rest : List Word} (source : Source s o c old sz)
    (below : ∀ j ∈ rest, PageBelow j sz) (apart : ∀ j ∈ rest, path j ≠ path i)
    (first : Carried c old new [i] s o t o') (second : Carried c old new rest t o' u o'') : Carried c old new (i :: rest) s o u o'' where
  owns := second.owns
  quiet := first.quiet.trans second.quiet
  grows := first.grows.trans second.grows
  space := second.space
  others va away := by
    rw [second.others va fun j inside => away j (by simp [inside]),
      first.others va fun j inside => away j (by simp [List.mem_singleton.mp inside])]
  unmapped j inside none' := by
    rcases List.mem_cons.mp inside with rfl | inside
    · rw [second.others j apart]
      exact first.unmapped j (by simp) none'
    · exact second.unmapped j inside (((source.tableKept first.grows).lookup j).trans none')
  copied j inside e is := by
    rcases List.mem_cons.mp inside with rfl | inside
    · obtain ⟨e', maps, same, contents, free, owner⟩ := first.copied j (by simp) e is
      have mine : Apart o' c (pte2pa e') := by
        rw [Apart, owner]
        simp
      obtain ⟨-, kept⟩ := mine.kept second.grows
      refine ⟨e', (second.others j apart).trans maps, same, kept.trans contents, free, ?_⟩
      exact (second.grows.known (by simp [owner])).trans owner
    · have is' := ((source.tableKept first.grows).lookup j).trans is
      obtain ⟨e', maps, same, contents, free, owner⟩ := second.copied j inside e is'
      refine ⟨e', maps, same, contents.trans ?_, first.grows.free free, owner⟩
      exact ((source.frames j e (below j inside) is).kept first.grows).2
  entries j away := by
    rw [second.entries j fun k inside => away k (by simp [inside]),
      first.entries j fun k inside => away k (by simp [List.mem_singleton.mp inside])]

theorem Carried.skip {i : Word} {rest : List Word} (none' : lookup s old i = none)
    (unset : translate s.mem new i = none) (apart : ∀ j ∈ rest, path j ≠ path i)
    (more : Carried c old new rest s o t o') : Carried c old new (i :: rest) s o t o' where
  owns := more.owns
  quiet := more.quiet
  grows := more.grows
  space := more.space
  others va away := more.others va fun j inside => away j (by simp [inside])
  unmapped j inside is := by
    rcases List.mem_cons.mp inside with rfl | inside
    · exact (more.others j apart).trans unset
    · exact more.unmapped j inside is
  copied j inside e is := by
    rcases List.mem_cons.mp inside with rfl | inside
    · rw [none'] at is
      cases is
    · exact more.copied j inside e is
  entries j away := more.entries j fun k inside => away k (by simp [inside])

/-! ### What the loop takes -/

theorem copyCost_skip {i : Word} {rest : List Word} (none' : lookup s old i = none) :
    copyCost s old new (i :: rest) = copyCost s old new rest := by
  unfold copyCost
  rw [List.countP_cons_of_neg (by simp [none'])]

theorem Near.missing {i : Word} {rest : List Word} (near : Near (i :: rest)) (mem : Mem) (pt : Word) :
    missing mem pt 0 = missing mem pt i := by
  obtain ⟨high, middle⟩ := near i (by simp)
  unfold Vm.missing
  rw [high, middle]
  rfl

/-- The first copy alone. -/
theorem copyCost_first {i e : Word} {rest : List Word} (near : Near (i :: rest))
    (is : lookup s old i = some e) : 1 + missing s.mem new i ≤ copyCost s old new (i :: rest) := by
  unfold copyCost
  rw [List.countP_cons_of_pos (by simp [is]), near.missing]
  dsimp only
  rw [if_neg (Nat.succ_ne_zero _)]
  omega

theorem copyCost_cons {i e : Word} {rest : List Word} (near : Near (i :: rest))
    (source : Source s o c old sz) (is : lookup s old i = some e)
    (first : Carried c old new [i] s o t o') :
    copyCost s old new (i :: rest) = 1 + missing s.mem new i + copyCost t old new rest := by
  obtain ⟨high, middle⟩ := near i (by simp)
  have tables := near.missing s.mem new
  obtain ⟨e', maps, -⟩ := first.copied i (by simp) e is
  have done : missing t.mem new 0 = 0 := missing_of_translate maps ⟨high.symm, middle.symm⟩
  have same : (rest.countP fun j => (lookup t old j).isSome) =
      rest.countP fun j => (lookup s old j).isSome := by
    simp only [(source.tableKept first.grows).lookup]
  unfold copyCost
  rw [List.countP_cons_of_pos (by simp [is]), same, done, tables]
  dsimp only
  rw [if_neg (Nat.succ_ne_zero _)]
  split <;> omega

/-- `uvmcopy` copies every page of the list that the source maps.  For pages near each other, it
fails exactly if the free list is too short. -/
theorem carry_wp (pages : List Word) (w : Owns s o) (source : Source s o c old sz)
    (space : Space s.mem o c new) (chain : Chain s.mem s.freelist l)
    (low : ∀ i ∈ pages, i < USER_LIMIT) (aligned : ∀ i ∈ pages, i.toNat % 4096 = 0)
    (below : ∀ i ∈ pages, PageBelow i sz) (distinct : pages.Pairwise fun i j => path j ≠ path i)
    (unset : ∀ i ∈ pages, translate s.mem new i = none) :
    wp (uvmcopyPages old new pages)
      (fun r t => r = 0 ∧ (∃ o', Carried c old new pages s o t o') ∧
        (Near pages → copyCost s old new pages ≤ l.length ∧
          Chain t.mem t.freelist (l.drop (copyCost s old new pages))))
      (fun e t => Panics e t ∧ (Near pages → l.length < copyCost s old new pages)) s := by
  induction pages generalizing s o l with
  | nil => exact ⟨rfl, ⟨o, .refl w space⟩, fun _ => ⟨Nat.zero_le _, chain⟩⟩
  | cons i rest ih =>
    obtain ⟨apart, distinct⟩ := List.pairwise_cons.mp distinct
    have low' : ∀ j ∈ rest, j < USER_LIMIT := fun j inside => low j (by simp [inside])
    have aligned' : ∀ j ∈ rest, j.toNat % 4096 = 0 := fun j inside => aligned j (by simp [inside])
    have below' : ∀ j ∈ rest, PageBelow j sz := fun j inside => below j (by simp [inside])
    have unset' : ∀ j ∈ rest, translate s.mem new j = none := fun j inside => unset j (by simp [inside])
    have near' : Near (i :: rest) → Near rest := fun near j inside => near j (by simp [inside])
    have skipped : lookup s old i = none → wp (uvmcopyPages old new rest)
        (fun r t => r = 0 ∧ (∃ o', Carried c old new (i :: rest) s o t o') ∧
          (Near (i :: rest) → copyCost s old new (i :: rest) ≤ l.length ∧
            Chain t.mem t.freelist (l.drop (copyCost s old new (i :: rest)))))
        (fun e t => Panics e t ∧ (Near (i :: rest) → l.length < copyCost s old new (i :: rest)))
        s := by
      intro none'
      rw [copyCost_skip none']
      refine wp_mono (ih w source space chain low' aligned' below' distinct unset') ?_ ?_
      · rintro r t ⟨zero, ⟨o', more⟩, list⟩
        exact ⟨zero, ⟨o', .skip none' (unset i (by simp)) apart more⟩, fun near => list (near' near)⟩
      · rintro e t ⟨panics, few⟩
        exact ⟨panics, fun near => few (near' near)⟩
    have found : lookup s old i = (walkLookup s.mem old i).bind fun pte =>
      if pte.read s.mem &&& V = 0 then none else some (pte.read s.mem) := rfl
    unfold uvmcopyPages
    simp only [wp_bind, wp_get]
    split
    · next none' => exact skipped (by rw [found, none']; rfl)
    next pte is =>
    rw [is, Option.bind_some] at found
    split
    · next invalid => exact skipped (by rw [found, if_pos invalid])
    next valid =>
    rw [if_neg valid] at found
    have here := below i (by simp)
    refine carryOne_wp w space chain (low i (by simp)) (aligned i (by simp)) found
      (source.frames i _ here found) (source.leaves i _ here found) (unset i (by simp))
      (fun e t short => ?_) fun t o₁ first enough chain₁ => ?_
    · exact ⟨short.1, fun near => short.2.trans_le (copyCost_first near found)⟩
    refine wp_mono (ih first.owns (source.grows first.grows) first.space chain₁ low' aligned' below'
      distinct fun j inside => ?_) ?_ ?_
    · rw [first.others j fun k here => ?_]
      · exact unset' j inside
      · rw [List.mem_singleton.mp here]
        exact (apart j inside).symm
    · rintro r u ⟨zero, ⟨o', second⟩, list⟩
      refine ⟨zero, ⟨o', first.cons source below' apart second⟩, fun near => ?_⟩
      obtain ⟨enough', chain₂⟩ := list (near' near)
      rw [List.length_drop] at enough'
      rw [List.drop_drop] at chain₂
      rw [copyCost_cons near source found first]
      exact ⟨by omega, chain₂⟩
    · rintro e u ⟨panics, few⟩
      refine ⟨panics, fun near => ?_⟩
      have few' := few (near' near)
      rw [List.length_drop] at few'
      rw [copyCost_cons near source found first]
      omega

/-! ### The copies of a process -/

/-- The space of another process is a source. -/
theorem Space.source (w : Owns s o) (parent : Space s.mem o p old) (other : p ≠ c)
    (small : sz ≤ USER_LIMIT) : Source s o c old sz := by
  have maps : ∀ va, lookup s old va = translate s.mem old va := fun va =>
    (translate_of_walkLookup w parent.root va).symm
  refine ⟨fun ds pg short walk => ?_, fun va e below is => ?_, fun va e _ is => ?_⟩
  · have table := label_eq.mp ((w.tree (some p)).node (label_eq.mpr parent.root)
      (show 0 + ds.length ≤ 2 by omega) walk)
    rw [Apart, table]
    simpa using other
  · have low : va < USER_LIMIT := by
      have limit : sz.toNat ≤ 2147483648 := BitVec.le_def.mp small
      unfold PageBelow at below
      exact BitVec.lt_def.mpr (show va.toNat < 2147483648 by omega)
    rw [maps] at is
    rw [Apart, (parent.low va e is (low_of_lt low)).1]
    simp
  · rw [maps] at is
    exact w.translate_solid parent.root is

/-- From a user's pages, copies have the flags of what they copy. -/
theorem Carried.uvmCopied (w : Owns s o) (parent : Space s.mem o p old)
    (low : ∀ i ∈ l, i < USER_LIMIT) (carried : Carried c old new l s o t o') :
    UvmCopied p c old new l s o t o' := by
  refine ⟨carried.owns, carried.quiet, carried.grows, carried.space, carried.others,
    fun i inside => ?_⟩
  have maps : lookup s old i = translate s.mem old i :=
    (translate_of_walkLookup w parent.root i).symm
  rw [Copied, ← maps]
  cases is : lookup s old i with
  | none => exact carried.unmapped i inside is
  | some e =>
    obtain ⟨e', copy, same, contents, -, owner⟩ := carried.copied i inside e is
    refine ⟨e', copy, same.trans ?_, contents, owner⟩
    exact flags_or_bit (k := 4) (by decide) (parent.low i e (maps ▸ is) (low_of_lt (low i inside))).2

/-- `uvmcopy` copies the pages of a process. -/
theorem uvmcopyPages_wp (w : Owns s o) (parent : Space s.mem o p old) (child : Space s.mem o c new)
    (ne : p ≠ c) (chain : Chain s.mem s.freelist l) (small : sz ≤ USER_LIMIT)
    (unset : ∀ i ∈ pagesBelow sz, translate s.mem new i = none) :
    wp (uvmcopyPages old new (pagesBelow sz))
      (fun r t => r = 0 ∧ (∃ o', UvmCopied p c old new (pagesBelow sz) s o t o' ∧
          ∀ j, (∀ i ∈ pagesBelow sz, index 2 i ≠ j) → entry t.mem new j = entry s.mem new j) ∧
        (Near (pagesBelow sz) → copyCost s old new (pagesBelow sz) ≤ l.length ∧
          Chain t.mem t.freelist (l.drop (copyCost s old new (pagesBelow sz)))))
      (fun e t => Panics e t ∧ (Near (pagesBelow sz) →
        l.length < copyCost s old new (pagesBelow sz))) s := by
  have limit : sz.toNat ≤ 2147483648 := BitVec.le_def.mp small
  have low : ∀ i ∈ pagesBelow sz, i < USER_LIMIT := by
    intro i inside
    obtain ⟨-, below⟩ := mem_pagesBelow.mp inside
    exact BitVec.lt_def.mpr (show i.toNat < 2147483648 by omega)
  have source := parent.source (c := c) w ne small
  refine wp_conseq (carry_wp _ w source child chain low (fun i inside => (mem_pagesBelow.mp inside).1)
    (fun i inside => ?_) (pagesBelow_distinct (by omega)) unset) ?_
  · obtain ⟨aligned, below⟩ := mem_pagesBelow.mp inside
    unfold PageBelow
    omega
  · rintro r t ⟨zero, ⟨o', carried⟩, list⟩
    exact ⟨zero, ⟨o', carried.uvmCopied w parent low, carried.entries⟩, list⟩

end Xv6Lab.Vm

import Xv6Lab.Virtio.Driver

/-! What the functions on descriptors do: `alloc3_desc` takes three free descriptors or none, and
`free_chain` frees the three of a chain that `virtio_disk_rw` has written. -/

namespace Xv6Lab.Virtio

variable {β : Type}

/-! ### `alloc3_desc` -/

/-- The descriptors `got` are no longer free. -/
def Disk.take (d : Disk β) (got : List (Fin NUM)) : Disk β :=
  { d with free := fun i => d.free i && !got.contains i }

/-- Only descriptors that are free have been changed. -/
structure Untouched (d d' : Disk β) : Prop where
  rest : d' = { d with desc := d'.desc }
  desc : ∀ i, d.free i = false → d'.desc i = d.desc i

theorem allocDesc_take (d : Disk β) (got : List (Fin NUM)) :
    (∃ i, d.free i = true ∧ i ∉ got ∧
      allocDesc (d.take got) = some (i, d.take (got ++ [i]))) ∨
    allocDesc (d.take got) = none := by
  unfold allocDesc
  cases found : (List.finRange NUM).find? (d.take got).free with
  | none => exact .inr rfl
  | some i =>
    have here := List.find?_some found
    simp only [Disk.take, Bool.and_eq_true, Bool.not_eq_true', List.contains_eq_mem,
      decide_eq_false_iff_not] at here
    refine .inl ⟨i, here.1, here.2, ?_⟩
    refine congrArg (fun d => some (i, d)) ?_
    unfold Disk.take
    congr 1
    funext j
    by_cases same : j = i
    · subst same
      simp
    · simp [same]

theorem freeAll_take (d : Disk β) (desc : Fin NUM → Desc β) (got : List (Fin NUM))
    (nodup : got.Nodup) (were : ∀ i ∈ got, d.free i = true)
    (same : ∀ i, d.free i = false → desc i = d.desc i) :
    ∃ d', freeAll { d.take got with desc } got = .ok d' ∧ Untouched d d' := by
  induction got generalizing desc with
  | nil =>
    refine ⟨_, rfl, ?_, same⟩
    simp [Disk.take]
  | cons i rest ih =>
    obtain ⟨fresh, nodup⟩ := List.nodup_cons.mp nodup
    have taken : ({ d.take (i :: rest) with desc } : Disk β).free i = false := by simp [Disk.take]
    have frees : freeDesc { d.take (i :: rest) with desc } i.val =
        .ok { d.take rest with desc := Function.update desc i ⟨.null, 0, 0, 0⟩ } := by
      have now : Function.update (d.take (i :: rest)).free i true = (d.take rest).free := by
        funext j
        by_cases here : j = i
        · subst here
          simp [Disk.take, were, fresh]
        · simp [Disk.take, here]
      unfold freeDesc
      rw [dif_pos i.isLt]
      show (if ({ d.take (i :: rest) with desc } : Disk β).free i = true then _ else _) = _
      rw [if_neg (by rw [taken]; exact Bool.false_ne_true)]
      refine congrArg Except.ok ?_
      show ({ d.take (i :: rest) with
        desc := Function.update desc i ⟨.null, 0, 0, 0⟩
        free := Function.update (d.take (i :: rest)).free i true } : Disk β) = _
      rw [now]
      rfl
    rw [freeAll, frees]
    refine ih _ nodup (fun j inside => were j (List.mem_cons_of_mem _ inside)) fun j busy => ?_
    have other : j ≠ i := by
      rintro rfl
      rw [were j (List.mem_cons_self ..)] at busy
      cases busy
    rw [Function.update_of_ne other]
    exact same j busy

theorem alloc3Loop_take (d : Disk β) (n : Nat) (got : List (Fin NUM)) (nodup : got.Nodup)
    (were : ∀ i ∈ got, d.free i = true) :
    (∃ more : List (Fin NUM), more.length = n ∧ (got ++ more).Nodup ∧
      (∀ i ∈ got ++ more, d.free i = true) ∧
      alloc3Loop (d.take got) n got = .ok (some (got ++ more), d.take (got ++ more))) ∨
    ∃ d', alloc3Loop (d.take got) n got = .ok (none, d') ∧ Untouched d d' := by
  induction n generalizing got with
  | zero => exact .inl ⟨[], rfl, by simpa using nodup, by simpa using were, by simp [alloc3Loop]⟩
  | succ n ih =>
    rcases allocDesc_take d got with ⟨i, free, fresh, takes⟩ | none
    · have nodup' : (got ++ [i]).Nodup := by
        refine List.nodup_append.mpr ⟨nodup, List.nodup_singleton i, ?_⟩
        rintro j inside k only rfl
        exact fresh (List.mem_singleton.mp only ▸ inside)
      have were' : ∀ j ∈ got ++ [i], d.free j = true := by
        intro j inside
        rcases List.mem_append.mp inside with old | new
        · exact were j old
        · exact List.mem_singleton.mp new ▸ free
      have goes : alloc3Loop (d.take got) (n + 1) got =
          alloc3Loop (d.take (got ++ [i])) n (got ++ [i]) := by
        rw [alloc3Loop, takes]
      rw [goes]
      rcases ih (got ++ [i]) nodup' were' with ⟨more, length, all, free', done⟩ | failed
      · refine .inl ⟨i :: more, by simp [length], ?_, ?_, ?_⟩
        all_goals simp only [List.append_assoc, List.singleton_append] at all free' done
        · exact all
        · exact free'
        · exact done
      · exact .inr failed
    · obtain ⟨d', back, same⟩ := freeAll_take d d.desc got nodup were fun _ _ => rfl
      refine .inr ⟨d', ?_, same⟩
      rw [alloc3Loop, none]
      show (freeAll (d.take got) got).map _ = _
      rw [show d.take got = { d.take got with desc := d.desc } from rfl, back]
      rfl

/-- `alloc3_desc` takes three free descriptors, or leaves the free ones as they are. -/
theorem alloc3Desc_spec (d : Disk β) :
    (∃ c : Chain, c.toList.Nodup ∧ (∀ i ∈ c.toList, d.free i = true) ∧
      alloc3Desc d = .ok (some c.toList, d.take c.toList)) ∨
    ∃ d', alloc3Desc d = .ok (none, d') ∧ Untouched d d' := by
  have start : d.take [] = d := by simp [Disk.take]
  rcases alloc3Loop_take d 3 [] List.nodup_nil (by simp) with ⟨more, length, nodup, free, done⟩ | fail
  · refine .inl ?_
    rw [start] at done
    match more, length with
    | [i0, i1, i2], _ => exact ⟨⟨i0, i1, i2⟩, nodup, free, done⟩
  · rw [start] at fail
    exact .inr fail

/-! ### `free_chain` -/

/-- The descriptors of the chain are linked as `virtio_disk_rw` links them. -/
structure Linked (d : Disk β) (c : Chain) : Prop where
  flag0 : (d.desc c.i0).flags &&& VRING_DESC_F_NEXT ≠ 0
  next0 : (d.desc c.i0).next.toNat = c.i1.val
  flag1 : (d.desc c.i1).flags &&& VRING_DESC_F_NEXT ≠ 0
  next1 : (d.desc c.i1).next.toNat = c.i2.val
  flag2 : (d.desc c.i2).flags &&& VRING_DESC_F_NEXT = 0
  status : (d.desc c.i2).addr = .status c.i0

/-- Every descriptor of the chain is free again. -/
def Disk.clearChain (d : Disk β) (c : Chain) : Disk β := ((d.clear c.i0).clear c.i1).clear c.i2

theorem freeDesc_busy {d : Disk β} {i : Fin NUM} (busy : d.free i = false) :
    freeDesc d i.val = .ok (d.clear i) := by
  simp [freeDesc, busy]

theorem freeLoop_next {d : Disk β} {i j : Fin NUM} (fuel : Nat) (busy : d.free i = false)
    (flag : (d.desc i).flags &&& VRING_DESC_F_NEXT ≠ 0) (next : (d.desc i).next.toNat = j.val) :
    freeLoop d (fuel + 1) i.val = freeLoop (d.clear i) fuel j.val := by
  rw [freeLoop, dif_pos i.isLt]
  show (freeDesc d i.val).bind _ = _
  rw [freeDesc_busy busy]
  show (if (d.desc i).flags &&& VRING_DESC_F_NEXT ≠ 0 then
    freeLoop (d.clear i) fuel (d.desc i).next.toNat else _) = _
  rw [if_pos flag, next]

theorem freeLoop_last {d : Disk β} {i : Fin NUM} (fuel : Nat) (busy : d.free i = false)
    (flag : (d.desc i).flags &&& VRING_DESC_F_NEXT = 0) :
    freeLoop d (fuel + 1) i.val = .ok (d.clear i) := by
  rw [freeLoop, dif_pos i.isLt]
  show (freeDesc d i.val).bind _ = _
  rw [freeDesc_busy busy]
  show (if (d.desc i).flags &&& VRING_DESC_F_NEXT ≠ 0 then _ else _) = _
  rw [if_neg (not_not.mpr flag)]

theorem clear_other (d : Disk β) {i j : Fin NUM} (other : j ≠ i) :
    (d.clear i).desc j = d.desc j ∧ (d.clear i).free j = d.free j :=
  ⟨Function.update_of_ne other _ _, Function.update_of_ne other _ _⟩

/-- `free_chain` frees the three descriptors of a chain. -/
theorem freeChain_linked {d : Disk β} {c : Chain} (linked : Linked d c) (nodup : c.toList.Nodup)
    (busy : ∀ i ∈ c.toList, d.free i = false) : freeChain d c.i0.val = .ok (d.clearChain c) := by
  have apart : c.i0 ≠ c.i1 ∧ c.i0 ≠ c.i2 ∧ c.i1 ≠ c.i2 := by
    simpa [Chain.toList, and_assoc] using nodup
  obtain ⟨n01, n02, n12⟩ := apart
  have first := clear_other d n01.symm
  have second := clear_other d n02.symm
  have third := clear_other (d.clear c.i0) n12.symm
  have b0 := busy c.i0 (by simp [Chain.toList])
  have b1 := busy c.i1 (by simp [Chain.toList])
  have b2 := busy c.i2 (by simp [Chain.toList])
  unfold freeChain
  rw [freeLoop_next 16 b0 linked.flag0 linked.next0,
    freeLoop_next 15 (first.2.trans b1) (first.1 ▸ linked.flag1) (first.1 ▸ linked.next1),
    freeLoop_last 14 (third.2.trans (second.2.trans b2))]
  · rfl
  · rw [third.1, second.1]
    exact linked.flag2

theorem Linked.congr {d d' : Disk β} {c : Chain} (linked : Linked d c)
    (same : ∀ i ∈ c.toList, d'.desc i = d.desc i) : Linked d' c := by
  have s0 := same c.i0 (by simp [Chain.toList])
  have s1 := same c.i1 (by simp [Chain.toList])
  have s2 := same c.i2 (by simp [Chain.toList])
  constructor
  · exact s0 ▸ linked.flag0
  · exact s0 ▸ linked.next0
  · exact s1 ▸ linked.flag1
  · exact s1 ▸ linked.next1
  · exact s2 ▸ linked.flag2
  · exact s2 ▸ linked.status

/-- What `free_chain` leaves of the fields. -/
theorem clearChain_free (d : Disk β) (c : Chain) (i : Fin NUM) :
    (d.clearChain c).free i = (d.free i || c.toList.contains i) := by
  simp only [Disk.clearChain, Disk.clear, Function.update_apply, Chain.toList,
    List.contains_eq_mem, List.mem_cons, List.not_mem_nil, or_false]
  by_cases i = c.i2 <;> by_cases i = c.i1 <;> by_cases i = c.i0 <;> simp_all

theorem clearChain_desc (d : Disk β) {c : Chain} {i : Fin NUM} (out : i ∉ c.toList) :
    (d.clearChain c).desc i = d.desc i := by
  simp only [Chain.toList, List.mem_cons, List.not_mem_nil, or_false, not_or] at out
  show Function.update (Function.update (Function.update d.desc c.i0 _) c.i1 _) c.i2 _ i = _
  rw [Function.update_of_ne out.2.2, Function.update_of_ne out.2.1, Function.update_of_ne out.1]

/-- A request that has been written is linked. -/
theorem fill_linked (d : Disk β) (b : β) (blockno : BitVec 32) (write : Bool) {c : Chain}
    (nodup : c.toList.Nodup) : Linked (d.fill b blockno write c) c := by
  have apart : c.i0 ≠ c.i1 ∧ c.i0 ≠ c.i2 ∧ c.i1 ≠ c.i2 := by
    simpa [Chain.toList, and_assoc] using nodup
  obtain ⟨n01, n02, n12⟩ := apart
  have small : ∀ i : Fin NUM, i.val % 65536 = i.val := fun i =>
    Nat.mod_eq_of_lt (lt_trans i.isLt (by decide))
  constructor
  all_goals simp only [Disk.fill, Function.update_self, Function.update_of_ne n01,
    Function.update_of_ne n02, Function.update_of_ne n12, BitVec.toNat_ofNat]
  · decide
  · exact small c.i1
  · cases write <;> decide
  · exact small c.i2
  · decide

/-- The device finds the status byte of the request. -/
theorem Linked.statusOf {d : Disk β} {c : Chain} (linked : Linked d c) :
    d.statusOf NUM (BitVec.ofNat 16 c.i0.val) = some c.i0 := by
  have small : ∀ i : Fin NUM, (BitVec.ofNat 16 i.val).toNat = i.val := fun i => by
    rw [BitVec.toNat_ofNat]
    exact Nat.mod_eq_of_lt (lt_trans i.isLt (by decide))
  have goes : ∀ (fuel : Nat) (w : BitVec 16) (i : Fin NUM), w.toNat = i.val →
      (d.desc i).flags &&& VRING_DESC_F_NEXT ≠ 0 →
      d.statusOf (fuel + 1) w = d.statusOf fuel (d.desc i).next := by
    intro fuel w i is flag
    have index : (⟨w.toNat, is ▸ i.isLt⟩ : Fin NUM) = i := Fin.ext is
    rw [Disk.statusOf, dif_pos (is ▸ i.isLt)]
    show (if (d.desc ⟨w.toNat, _⟩).flags &&& VRING_DESC_F_NEXT ≠ 0 then
      d.statusOf fuel (d.desc ⟨w.toNat, _⟩).next else _) = _
    rw [index, if_pos flag]
  have index : (⟨(d.desc c.i1).next.toNat, linked.next1 ▸ c.i2.isLt⟩ : Fin NUM) = c.i2 :=
    Fin.ext linked.next1
  rw [goes 15 _ c.i0 (small c.i0) linked.flag0, goes 14 _ c.i1 linked.next0 linked.flag1,
    Disk.statusOf, dif_pos (linked.next1 ▸ c.i2.isLt)]
  simp only [index, linked.flag2, linked.status, ne_eq, not_true_eq_false, if_false]

end Xv6Lab.Virtio

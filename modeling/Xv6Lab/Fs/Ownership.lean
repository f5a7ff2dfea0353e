import Xv6Lab.Fs.Disk

/-! Ownership of data blocks, and the contents of files.  A block number is stored in a place: a
slot of an inode, or a word of its indirect block.  Blocks in use and places that are not empty
correspond one to one, so that a write to one place, or to one block, is seen in one file only. -/

namespace Xv6Lab.Fs

open Bytes

/-- Where an inode stores a block number. -/
inductive Place
  | slot (k : Fin 13)
  | word (j : Fin NINDIRECT)
  deriving DecidableEq

/-- Places in the indirect block. -/
def Place.IsWord : Place → Prop
  | .slot _ => False
  | .word _ => True

/-- The block number that an inode stores in a place. -/
def Disk.at (v : Disk) (d : Dinode) : Place → Nat
  | .slot k => d.addrs k
  | .word j => if d.addrs INDIRECT = 0 then 0 else Fs.word (v.data (d.addrs INDIRECT)) j

theorem at_word_none {v : Disk} {d : Dinode} (none : d.addrs INDIRECT = 0) (j : Fin NINDIRECT) :
    v.at d (.word j) = 0 :=
  if_pos none

theorem at_word {v : Disk} {d : Dinode} (some : d.addrs INDIRECT ≠ 0) (j : Fin NINDIRECT) :
    v.at d (.word j) = Fs.word (v.data (d.addrs INDIRECT)) j :=
  if_neg some

theorem direct_slot {bn : Nat} (direct : bn < NDIRECT) : bn < 13 := Nat.lt_succ_of_lt direct

/-- The place of block `bn` of a file. -/
def dataPlace (bn : Nat) : Place :=
  if direct : bn < NDIRECT then .slot ⟨bn, direct_slot direct⟩
  else .word ⟨(bn - NDIRECT) % NINDIRECT, Nat.mod_lt _ (by decide)⟩

theorem dataPlace_direct {bn : Nat} (direct : bn < NDIRECT) :
    dataPlace bn = .slot ⟨bn, Nat.lt_succ_of_lt direct⟩ :=
  dif_pos direct

theorem dataPlace_indirect {bn : Nat} (indirect : ¬ bn < NDIRECT) (small : bn - NDIRECT < NINDIRECT) :
    dataPlace bn = .word ⟨bn - NDIRECT, small⟩ := by
  rw [dataPlace, dif_neg indirect]
  congr 1
  exact Fin.ext (Nat.mod_eq_of_lt small)

/-- Byte `off` of a file; where it has no block, its bytes are zero. -/
def Disk.content (v : Disk) (d : Dinode) (off : Nat) : UInt8 :=
  if v.at d (dataPlace (off / BSIZE)) = 0 then 0
  else v.data (v.at d (dataPlace (off / BSIZE))) (off % BSIZE)

theorem dataPlace_ne (bn : Nat) : dataPlace bn ≠ .slot INDIRECT := by
  unfold dataPlace
  split
  · next direct =>
    intro same
    have value := congrArg Fin.val (Place.slot.inj same)
    have twelve : (INDIRECT : Fin 13).val = NDIRECT := rfl
    simp only [twelve] at value
    omega
  · intro same
    cases same

theorem dataPlace_inj {m n : Nat} (hm : m < MAXFILE) (hn : n < MAXFILE)
    (same : dataPlace m = dataPlace n) : m = n := by
  have all : MAXFILE = NDIRECT + NINDIRECT := rfl
  unfold dataPlace at same
  split at same
  · split at same
    · exact congrArg Fin.val (Place.slot.inj same)
    · cases same
  · split at same
    · cases same
    · have value := congrArg Fin.val (Place.word.inj same)
      simp only at value
      rw [Nat.mod_eq_of_lt (by omega), Nat.mod_eq_of_lt (by omega)] at value
      omega

/-- Blocks in use and places correspond.  `L` gives the inodes. -/
structure Own (sb : Superblock) (v : Disk) (L : Nat → Dinode) : Prop where
  range : ∀ i < sb.ninodes, ∀ p, v.at (L i) p ≠ 0 →
    sb.nmeta ≤ v.at (L i) p ∧ v.at (L i) p < sb.size ∧ v.used (v.at (L i) p) = true
  alone : ∀ i < sb.ninodes, ∀ j < sb.ninodes, ∀ p q, v.at (L i) p ≠ 0 →
    v.at (L i) p = v.at (L j) q → i = j ∧ p = q
  covered : ∀ b, sb.nmeta ≤ b → b < sb.size → v.used b = true →
    ∃ i < sb.ninodes, ∃ p, v.at (L i) p = b
  reserved : ∀ b < sb.nmeta, v.used b = true
  free : ∀ i < sb.ninodes, (L i).type = 0 → ∀ k, (L i).addrs k = 0

variable {sb : Superblock} {v v' : Disk} {L L' : Nat → Dinode} {i j b : Nat} {p q : Place}

theorem Own.alone_place (own : Own sb v L) (hi : i < sb.ninodes) (hj : j < sb.ninodes)
    (some : v.at (L i) p ≠ 0) (other : i ≠ j ∨ p ≠ q) : v.at (L i) p ≠ v.at (L j) q := by
  intro same
  obtain ⟨inode, place⟩ := own.alone i hi j hj p q some same
  rcases other with apart | apart
  · exact apart inode
  · exact apart place

/-- A free block is stored nowhere. -/
theorem Own.unplaced (own : Own sb v L) (hi : i < sb.ninodes) (clear : v.used b = false)
    (p : Place) (some : v.at (L i) p ≠ 0) : v.at (L i) p ≠ b := by
  intro same
  have used := (own.range i hi p some).2.2
  rw [same, clear] at used
  cases used

/-- Inodes that agree in what they store and in which are free. -/
theorem Own.congr (own : Own sb v L) (used : v'.used = v.used)
    (same : ∀ i < sb.ninodes, ∀ p, v'.at (L' i) p = v.at (L i) p)
    (free : ∀ i < sb.ninodes, (L' i).type = 0 → ∀ k, (L' i).addrs k = 0) : Own sb v' L' := by
  refine ⟨fun i hi p some => ?_, fun i hi j hj p q some eq => ?_, fun b above below inUse => ?_, ?_,
    free⟩
  · rw [same i hi] at some ⊢
    rw [used]
    exact own.range i hi p some
  · rw [same i hi] at some eq
    rw [same j hj] at eq
    exact own.alone i hi j hj p q some eq
  · rw [used] at inUse
    obtain ⟨i, hi, p, is⟩ := own.covered b above below inUse
    exact ⟨i, hi, p, (same i hi p).trans is⟩
  · rw [used]
    exact own.reserved

/-- A free block is taken and stored in an empty place. -/
theorem Own.place (own : Own sb v L) (hi : i < sb.ninodes) (start : 0 < sb.nmeta) (below : b < sb.size)
    (clear : v.used b = false) (empty : v.at (L i) p = 0)
    (used : v'.used = Function.update v.used b true)
    (here : v'.at (L' i) p = b)
    (others : ∀ j < sb.ninodes, ∀ q, j ≠ i ∨ q ≠ p → v'.at (L' j) q = v.at (L j) q)
    (free : ∀ j < sb.ninodes, (L' j).type = 0 → ∀ k, (L' j).addrs k = 0) : Own sb v' L' := by
  have above : sb.nmeta ≤ b := by
    by_contra low
    rw [own.reserved b (by omega)] at clear
    cases clear
  -- every place but the new one stores what it did before, and that is not `b`
  have split : ∀ j < sb.ninodes, ∀ q, (j = i ∧ q = p ∧ v'.at (L' j) q = b) ∨
      ((j ≠ i ∨ q ≠ p) ∧ v'.at (L' j) q = v.at (L j) q) := by
    intro j hj q
    by_cases same : j = i ∧ q = p
    · obtain ⟨rfl, rfl⟩ := same
      exact .inl ⟨rfl, rfl, here⟩
    · have apart : j ≠ i ∨ q ≠ p := by
        by_contra none
        push Not at none
        exact same none
      exact .inr ⟨apart, others j hj q apart⟩
  refine ⟨fun j hj q some => ?_, fun j hj k hk q r some eq => ?_, fun c low high inUse => ?_,
    fun c low => ?_, free⟩
  · rcases split j hj q with ⟨-, -, is⟩ | ⟨-, is⟩
    · rw [is, used, Function.update_self]
      exact ⟨above, below, rfl⟩
    · rw [is] at some ⊢
      obtain ⟨low, high, inUse⟩ := own.range j hj q some
      refine ⟨low, high, ?_⟩
      rw [used, Function.update_of_ne (own.unplaced hj clear q some)]
      exact inUse
  · rcases split j hj q with ⟨rfl, rfl, is⟩ | ⟨-, is⟩ <;> rcases split k hk r with ⟨rfl, rfl, is'⟩ | ⟨-, is'⟩
    · exact ⟨rfl, rfl⟩
    · rw [is, is'] at eq
      have filled : v.at (L k) r ≠ 0 := by omega
      exact absurd eq.symm (own.unplaced hk clear r filled)
    · rw [is] at some eq
      rw [is'] at eq
      exact absurd eq (own.unplaced hj clear q some)
    · rw [is] at some eq
      rw [is'] at eq
      exact own.alone j hj k hk q r some eq
  · by_cases new : c = b
    · exact ⟨i, hi, p, here.trans new.symm⟩
    · rw [used, Function.update_of_ne new] at inUse
      obtain ⟨j, hj, q, is⟩ := own.covered c low high inUse
      have apart : j ≠ i ∨ q ≠ p := by
        by_contra none
        push Not at none
        obtain ⟨rfl, rfl⟩ := none
        omega
      exact ⟨j, hj, q, (others j hj q apart).trans is⟩
  · rw [used]
    by_cases new : c = b
    · rw [new, Function.update_self]
    · rw [Function.update_of_ne new]
      exact own.reserved c low

/-! ### Growing files -/

/-- What a place stores depends on the slots and on the indirect block. -/
theorem at_congr {d d' : Dinode} (addrs : d'.addrs = d.addrs)
    (indirect : d.addrs INDIRECT ≠ 0 → v'.data (d.addrs INDIRECT) = v.data (d.addrs INDIRECT))
    (q : Place) : v'.at d' q = v.at d q := by
  cases q with
  | slot k => exact congrFun addrs k
  | word j =>
    by_cases none : d.addrs INDIRECT = 0
    · rw [at_word_none (by rw [addrs]; exact none), at_word_none none]
    · rw [at_word (by rw [addrs]; exact none), at_word none, addrs, indirect none]

/-- An inode is stored with the slots that it had. -/
theorem Own.setInode (own : Own sb v v.inode) {d : Dinode} (addrs : d.addrs = (v.inode i).addrs)
    (free : d.type = 0 → ∀ k, d.addrs k = 0) : Own sb (v.setInode i d) (v.setInode i d).inode := by
  have self : (v.setInode i d).inode i = d := Function.update_self ..
  have others : ∀ j ≠ i, (v.setInode i d).inode j = v.inode j := fun j other =>
    Function.update_of_ne other ..
  refine own.congr rfl (fun j _ p => ?_) fun j hj none => ?_
  · by_cases this : j = i
    · rw [this, self]
      exact at_congr addrs (fun _ => rfl) p
    · rw [others j this]
      exact at_congr rfl (fun _ => rfl) p
  · by_cases this : j = i
    · rw [this, self] at none ⊢
      exact free none
    · rw [others j this] at none ⊢
      exact own.free j hj none

/-- Files keep their blocks, and what they store in them. -/
structure Extends (sb : Superblock) (v : Disk) (L : Nat → Dinode) (v' : Disk) (L' : Nat → Dinode) :
    Prop where
  kept : ∀ j < sb.ninodes, ∀ q, v.at (L j) q ≠ 0 → v'.at (L' j) q = v.at (L j) q
  content : ∀ j < sb.ninodes, ∀ off, v'.content (L' j) off = v.content (L j) off

theorem Extends.refl : Extends sb v L v L := ⟨fun _ _ _ _ => rfl, fun _ _ _ => rfl⟩

theorem Extends.trans {v'' : Disk} {L'' : Nat → Dinode} (one : Extends sb v L v' L')
    (two : Extends sb v' L' v'' L'') : Extends sb v L v'' L'' := by
  refine ⟨fun j hj q some => ?_, fun j hj off => ?_⟩
  · have first := one.kept j hj q some
    rw [two.kept j hj q (first.symm ▸ some), first]
  · rw [two.content j hj, one.content j hj]

/-- A new block is zero, so the file reads as before. -/
theorem Extends.place (empty : v.at (L i) p = 0) (here : v'.at (L' i) p = b) (fresh : v'.data b = fun _ => 0)
    (others : ∀ j < sb.ninodes, ∀ q, j ≠ i ∨ q ≠ p → v'.at (L' j) q = v.at (L j) q)
    (data : ∀ j < sb.ninodes, ∀ q ≠ .slot INDIRECT, v.at (L j) q ≠ 0 →
      v'.data (v.at (L j) q) = v.data (v.at (L j) q)) : Extends sb v L v' L' := by
  refine ⟨fun j hj q some => ?_, fun j hj off => ?_⟩
  · refine others j hj q ?_
    by_contra none
    push Not at none
    obtain ⟨rfl, rfl⟩ := none
    exact some empty
  · unfold Disk.content
    by_cases same : j = i ∧ dataPlace (off / BSIZE) = p
    · obtain ⟨rfl, rfl⟩ := same
      rw [here, empty, if_pos rfl, fresh]
      exact ite_self 0
    · have apart : j ≠ i ∨ dataPlace (off / BSIZE) ≠ p := by
        by_contra none
        push Not at none
        exact same none
      rw [others j hj _ apart]
      by_cases none : v.at (L j) (dataPlace (off / BSIZE)) = 0
      · rw [if_pos none, if_pos none]
      · rw [if_neg none, if_neg none, data j hj _ (dataPlace_ne _) none]

/-- Inode `i` with block `b` in slot `k`. -/
def Dinode.setAddr (d : Dinode) (k : Fin 13) (b : Nat) : Dinode :=
  { d with addrs := Function.update d.addrs k b }

theorem word_zero (j : Nat) : word (fun _ => 0) j = 0 := by
  simp [word, le]

theorem at_setAddr_other {d : Dinode} {k : Fin 13} (other : q ≠ .slot k)
    (indirect : k ≠ INDIRECT) : v.at (d.setAddr k b) q = v.at d q := by
  cases q with
  | slot m =>
    have apart : m ≠ k := fun same => other (by rw [same])
    exact Function.update_of_ne apart ..
  | word j =>
    have same : (d.setAddr k b).addrs INDIRECT = d.addrs INDIRECT :=
      Function.update_of_ne indirect.symm ..
    unfold Disk.at
    rw [same]

/-- Places other than the slot that gets a free block store what they did. -/
theorem Own.at_placeSlot (own : Own sb v L) (clear : v.used b = false) {k : Fin 13}
    (empty : (L i).addrs k = 0) (hj : j < sb.ninodes) (apart : j ≠ i ∨ q ≠ .slot k) :
    (v.alloc b).at (Function.update L i ((L i).setAddr k b) j) q = v.at (L j) q := by
  have data : ∀ c ≠ b, (v.alloc b).data c = v.data c := fun c other => Function.update_of_ne other ..
  have fresh : (v.alloc b).data b = fun _ => 0 := Function.update_self ..
  -- no indirect block is the free block
  have same : (v.alloc b).at (L j) q = v.at (L j) q :=
    at_congr rfl (fun some => data _ (own.unplaced hj clear (.slot INDIRECT) some)) q
  by_cases this : j = i
  · subst this
    have other : q ≠ .slot k := apart.resolve_left fun ne => ne rfl
    rw [Function.update_self]
    by_cases indirect : k = INDIRECT
    · subst indirect
      cases q with
      | slot m =>
        have ne : m ≠ INDIRECT := fun same => other (by rw [same])
        exact Function.update_of_ne ne ..
      | word w =>
        have slot : ((L j).setAddr INDIRECT b).addrs INDIRECT = b := by simp [Dinode.setAddr]
        rw [at_word_none empty]
        by_cases none : b = 0
        · exact at_word_none (slot.trans none) w
        · rw [at_word (by rw [slot]; exact none), slot, fresh, word_zero]
    · rw [at_setAddr_other other indirect]
      exact same
  · rw [Function.update_of_ne this]
    exact same

/-- A slot gets a free block. -/
theorem Own.placeSlot (own : Own sb v L) (hi : i < sb.ninodes) (start : 0 < sb.nmeta)
    (below : b < sb.size) (clear : v.used b = false) {k : Fin 13} (empty : (L i).addrs k = 0)
    (type : (L i).type ≠ 0) :
    Own sb (v.alloc b) (Function.update L i ((L i).setAddr k b)) ∧
      Extends sb v L (v.alloc b) (Function.update L i ((L i).setAddr k b)) := by
  have data : ∀ c ≠ b, (v.alloc b).data c = v.data c := fun c other => Function.update_of_ne other ..
  have fresh : (v.alloc b).data b = fun _ => 0 := Function.update_self ..
  have here : (v.alloc b).at (Function.update L i ((L i).setAddr k b) i) (.slot k) = b := by
    rw [Function.update_self]
    exact Function.update_self ..
  have others : ∀ j < sb.ninodes, ∀ q, j ≠ i ∨ q ≠ .slot k →
      (v.alloc b).at (Function.update L i ((L i).setAddr k b) j) q = v.at (L j) q :=
    fun j hj q => own.at_placeSlot clear empty hj
  refine ⟨own.place hi start below clear (p := .slot k) empty rfl here others fun j hj none => ?_,
    .place (p := .slot k) empty here fresh others fun j hj q _ some => ?_⟩
  · by_cases this : j = i
    · subst this
      rw [Function.update_self] at none
      exact absurd none type
    · rw [Function.update_of_ne this] at none ⊢
      exact own.free j hj none
  · exact data _ (own.unplaced hj clear q some)

/-- The disk after a word of the indirect block `a` has got the free block `b`. -/
def Disk.enter (v : Disk) (a : Nat) (w : Fin NINDIRECT) (b : Nat) : Disk :=
  (v.alloc b).setData a (setLe (v.data a) (4 * w) 4 b)

/-- Places other than the word that gets a free block store what they did. -/
theorem Own.at_placeWord (own : Own sb v L) (hi : i < sb.ninodes) (clear : v.used b = false)
    {w : Fin NINDIRECT} (some : (L i).addrs INDIRECT ≠ 0) (hj : j < sb.ninodes)
    (other : j ≠ i ∨ q ≠ .word w) : (v.enter ((L i).addrs INDIRECT) w b).at (L j) q = v.at (L j) q := by
  set a := (L i).addrs INDIRECT with is
  have atBlock : (v.enter a w b).data a = setLe (v.data a) (4 * w) 4 b := Function.update_self ..
  by_cases this : j = i
  · subst this
    have ne : q ≠ .word w := other.resolve_left fun ne => ne rfl
    cases q with
    | slot k => rfl
    | word x =>
      have away : 4 * x.val + 4 ≤ 4 * w.val ∨ 4 * w.val + 4 ≤ 4 * x.val := by
        have : x.val ≠ w.val := fun same => ne (by rw [Fin.ext same])
        omega
      rw [at_word some, at_word some, ← is, atBlock, word, word, le_setLe_out away]
  · refine at_congr rfl (fun filled => ?_) q
    have notA : (L j).addrs INDIRECT ≠ a :=
      own.alone_place hj hi filled (.inl this) (p := .slot INDIRECT) (q := .slot INDIRECT)
    have notB : (L j).addrs INDIRECT ≠ b := own.unplaced hj clear (.slot INDIRECT) filled
    show Function.update (Function.update v.data b _) a _ _ = _
    rw [Function.update_of_ne notA, Function.update_of_ne notB]

/-- A word of an indirect block gets a free block. -/
theorem Own.placeWord (own : Own sb v L) (hi : i < sb.ninodes) (start : 0 < sb.nmeta)
    (below : b < sb.size) (small : sb.size < 2 ^ 32) (clear : v.used b = false) {w : Fin NINDIRECT}
    (some : (L i).addrs INDIRECT ≠ 0) (empty : v.at (L i) (.word w) = 0) :
    let v' := v.enter ((L i).addrs INDIRECT) w b
    Own sb v' L ∧ Extends sb v L v' L := by
  intro v'
  have others : ∀ j < sb.ninodes, ∀ q, j ≠ i ∨ q ≠ .word w → v'.at (L j) q = v.at (L j) q :=
    fun j hj q => own.at_placeWord hi clear some hj
  set a := (L i).addrs INDIRECT with is
  have apart : a ≠ b := own.unplaced hi clear (.slot INDIRECT) some
  have atBlock : v'.data a = setLe (v.data a) (4 * w) 4 b := Function.update_self ..
  have fresh : v'.data b = fun _ => 0 := by
    show Function.update (Function.update v.data b _) a _ b = _
    rw [Function.update_of_ne apart.symm, Function.update_self]
  have data : ∀ c, c ≠ a → c ≠ b → v'.data c = v.data c := by
    intro c notA notB
    show Function.update (Function.update v.data b _) a _ c = _
    rw [Function.update_of_ne notA, Function.update_of_ne notB]
  have here : v'.at (L i) (.word w) = b := by
    rw [at_word some, ← is, atBlock, word, le_setLe _ _ (by omega)]
  refine ⟨own.place hi start below clear empty rfl here others own.free,
    .place empty here fresh others fun j hj q notIndirect filled => ?_⟩
  refine data _ ?_ (own.unplaced hj clear q filled)
  exact own.alone_place hj hi filled (.inr notIndirect) (q := .slot INDIRECT)

/-! ### Writing to blocks -/

/-- A write to a block of a file changes this block of this file. -/
theorem Own.write (own : Own sb v L) (hi : i < sb.ninodes) {bn : Nat} (small : bn < MAXFILE)
    (some : v.at (L i) (dataPlace bn) ≠ 0) (data : Block) :
    let v' := v.setData (v.at (L i) (dataPlace bn)) data
    (∀ j < sb.ninodes, ∀ q, v'.at (L j) q = v.at (L j) q) ∧ Own sb v' L ∧
    ∀ j < sb.ninodes, ∀ off, off / BSIZE < MAXFILE → v'.content (L j) off =
      if j = i ∧ off / BSIZE = bn then data (off % BSIZE) else v.content (L j) off := by
  intro v'
  have same : ∀ j < sb.ninodes, ∀ q, v'.at (L j) q = v.at (L j) q := by
    refine fun j hj q => at_congr rfl (fun filled => Function.update_of_ne ?_ ..) q
    exact own.alone_place hj hi filled (.inr (dataPlace_ne bn).symm) (p := .slot INDIRECT)
  refine ⟨same, own.congr rfl same own.free, fun j hj off inside => ?_⟩
  unfold Disk.content
  rw [same j hj]
  by_cases this : j = i ∧ off / BSIZE = bn
  · rw [if_pos this, this.1, this.2, if_neg some]
    exact congrFun (Function.update_self (v.at (L i) (dataPlace bn)) data v.data) _
  · rw [if_neg this]
    by_cases none : v.at (L j) (dataPlace (off / BSIZE)) = 0
    · rw [if_pos none, if_pos none]
    · rw [if_neg none, if_neg none]
      refine congrFun (Function.update_of_ne ?_ ..) _
      refine own.alone_place hj hi none ?_
      by_cases inode : j = i
      · exact .inr fun place => this ⟨inode, dataPlace_inj inside small place⟩
      · exact .inl inode

end Xv6Lab.Fs

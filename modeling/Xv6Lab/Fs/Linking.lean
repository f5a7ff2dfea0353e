import Xv6Lab.Fs.Lookup
import Xv6Lab.Fs.Room

/-! What `dirlink` does to a directory: it adds the name to the table, unless the name is there or
there is neither a free entry nor room for another one. -/

namespace Xv6Lab.Fs

open Bytes Exec

/-! ### Inodes that stay as they are -/

/-- Inode `j` has the same type, size and bytes. -/
structure Kept (v v' : Disk) (j : Nat) : Prop where
  type : (v'.inode j).type = (v.inode j).type
  size : (v'.inode j).size = (v.inode j).size
  content : ∀ o, o / BSIZE < MAXFILE → v'.content (v'.inode j) o = v.content (v.inode j) o

/-- Inode `j` has the same links, too. -/
structure Alike (v v' : Disk) (j : Nat) : Prop extends Kept v v' j where
  nlink : (v'.inode j).nlink = (v.inode j).nlink

section Alike

variable {sb : Superblock} {v v' v'' : Disk} {i j k : Nat}

theorem Kept.trans (one : Kept v v' j) (two : Kept v' v'' j) : Kept v v'' j :=
  ⟨two.type.trans one.type, two.size.trans one.size,
    fun o small => (two.content o small).trans (one.content o small)⟩

theorem Alike.refl (v : Disk) (j : Nat) : Alike v v j := ⟨⟨rfl, rfl, fun _ _ => rfl⟩, rfl⟩

theorem Alike.trans (one : Alike v v' j) (two : Alike v' v'' j) : Alike v v'' j :=
  ⟨one.toKept.trans two.toKept, two.nlink.trans one.nlink⟩

theorem Alike.of_eq (inode : v'.inode j = v.inode j)
    (content : ∀ o, o / BSIZE < MAXFILE → v'.content (v'.inode j) o = v.content (v.inode j) o) :
    Alike v v' j :=
  ⟨⟨by rw [inode], by rw [inode], content⟩, by rw [inode]⟩

theorem Kept.count (kept : Kept v v' j) : v'.count j = v.count j := by
  unfold Disk.count
  rw [kept.size]

/-- The bytes of an entry lie in blocks that a file can have. -/
theorem entry_block {l : Nat} (inside : DIRENT * k + DIRENT ≤ MAXFILE * BSIZE) (less : l < DIRENT) :
    (DIRENT * k + l) / BSIZE < MAXFILE := by
  rw [Nat.div_lt_iff_lt_mul (by decide)]
  omega

theorem Kept.slots (kept : Kept v v' j) (bound : (v.inode j).size ≤ MAXFILE * BSIZE)
    (inside : k < v.count j) : v'.slots j k = v.slots j k := by
  have fits := Disk.entry_whole inside
  exact decode_congr fun l less => kept.content _ (entry_block (fits.trans bound) less)

theorem Kept.tabular (kept : Kept v v' j) (bound : (v.inode j).size ≤ MAXFILE * BSIZE)
    (tabular : Tabular v j) : Tabular v' j := by
  refine ⟨kept.size ▸ tabular.whole, ?_⟩
  rw [kept.count]
  exact tabular.distinct.agree fun l less => kept.slots bound less

theorem Kept.lookup (kept : Kept v v' j) (bound : (v.inode j).size ≤ MAXFILE * BSIZE)
    (name : Path) : v'.lookup j name = v.lookup j name := by
  unfold Disk.lookup
  rw [kept.count]
  exact Slots.lookup_agree fun l less => kept.slots bound less

end Alike

/-! ### Writing an entry -/

section Write

variable {sb : Superblock} {dp : InodePtr} {s t : State} {v v' : Disk} {src : Buffer} {k m off : Nat}

/-- A write changes one file. -/
theorem Wrote.alike (wrote : Wrote sb dp src off m s v t v') {j : Nat} (inside : j < sb.ninodes)
    (other : j ≠ (s.itable dp).inum) : Alike v v' j := by
  have same : v'.inode j = v.inode j := by rw [wrote.inodes, Function.update_of_ne other]
  refine .of_eq same fun o small => ?_
  rw [wrote.content j inside o small, if_neg fun here => other here.1]

/-- The file that is written keeps its type and its links. -/
theorem Wrote.inode (h : Consistent sb s v) (ready : Ready s dp)
    (wrote : Wrote sb dp src off m s v t v') :
    (v'.inode (s.itable dp).inum).type = (v.inode (s.itable dp).inum).type ∧
    (v'.inode (s.itable dp).inum).nlink = (v.inode (s.itable dp).inum).nlink ∧
    (v'.inode (s.itable dp).inum).size = max (v.inode (s.itable dp).inum).size (off + m) := by
  obtain ⟨addrs, is⟩ := wrote.resized.inode
  have before := (h.cached.slot dp ready.live).synced ready.valid
  rw [wrote.inodes, Function.update_self, is, ← before]
  exact ⟨rfl, rfl, rfl⟩

/-- A write of nothing changes no file. -/
theorem Wrote.idle (h : Consistent sb s v) (ready : Ready s dp)
    (wrote : Wrote sb dp src off 0 s v t v') (start : off ≤ (v.inode (s.itable dp).inum).size)
    {j : Nat} (inside : j < sb.ninodes) : Alike v v' j := by
  by_cases this : j = (s.itable dp).inum
  · obtain ⟨type, nlink, size⟩ := wrote.inode h ready
    rw [this]
    refine ⟨⟨type, by omega, fun o small => ?_⟩, nlink⟩
    rw [wrote.content _ (this ▸ inside) o small, if_neg fun here => by omega]
  · exact wrote.alike inside this

/-- One entry of the directory is written. -/
theorem Wrote.slots (h : Consistent sb s v) (ready : Ready s dp)
    (wrote : Wrote sb dp src (DIRENT * k) DIRENT s v t v')
    (whole : (v.inode (s.itable dp).inum).size % DIRENT = 0) :
    (v'.inode (s.itable dp).inum).size % DIRENT = 0 ∧
    v'.count (s.itable dp).inum = max (v.count (s.itable dp).inum) (k + 1) ∧
    ∀ l < v'.count (s.itable dp).inum, v'.slots (s.itable dp).inum l =
      if l = k then decode src else v.slots (s.itable dp).inum l := by
  obtain ⟨-, -, size⟩ := wrote.inode h ready
  have inside := (h.cached.slot dp ready.live).inside
  refine ⟨?_, ?_, fun l less => ?_⟩
  · rw [size]
    unfold DIRENT at *
    omega
  · unfold Disk.count
    rw [size]
    unfold DIRENT at *
    omega
  · have fits := (Disk.entry_whole less).trans (wrote.consistent.solid _ inside).size
    have bytes : ∀ j < DIRENT, v'.entry (s.itable dp).inum l j =
        if l = k then src j else v.entry (s.itable dp).inum l j := by
      intro j small
      refine (wrote.content _ inside _ (entry_block fits small)).trans ?_
      by_cases this : l = k
      · subst this
        rw [if_pos ⟨rfl, by omega, by omega⟩, if_pos rfl, Nat.add_sub_cancel_left]
      · rw [if_neg this, if_neg]
        · rfl
        · rintro ⟨-, low, high⟩
          unfold DIRENT at *
          omega
    split
    · next this => exact decode_congr fun j small => (bytes j small).trans (if_pos this)
    · next this => exact decode_congr fun j small => (bytes j small).trans (if_neg this)

/-- The file has room for entry `k`, as it is or with blocks that are free. -/
def Fits (sb : Superblock) (v : Disk) (i k : Nat) : Prop :=
  DIRENT * k + DIRENT ≤ MAXFILE * BSIZE ∧
    v.missing (v.inode i) (DIRENT * k / BSIZE) ≤ v.room sb

/-- The loop of `writei` for one entry. -/
theorem writeiLoop_entry (valid : sb.Valid) (h : Consistent sb s v) (ready : Ready s dp)
    (bound : DIRENT * k + DIRENT ≤ MAXFILE * BSIZE) {tot off : Nat}
    (run : writeiLoop sb dp src DIRENT DIRENT 0 (DIRENT * k) s = .ok (tot, off) t) :
    (tot = DIRENT ∧ Fits sb v (s.itable dp).inum k) ∨
      (tot = 0 ∧ ¬ Fits sb v (s.itable dp).inum k) := by
  have synced := (h.cached.slot dp ready.live).synced ready.valid
  change writeiLoop sb dp src DIRENT (15 + 1) 0 (DIRENT * k) s = _ at run
  unfold writeiLoop at run
  rw [if_pos (by decide)] at run
  obtain ⟨addr, u, mapped, rest⟩ := ok_of_bind run
  have block : DIRENT * k / BSIZE < MAXFILE := entry_block bound (show 0 < DIRENT by decide)
  have found := bmap_ok valid (h.holds ready) block mapped
  rw [synced] at found
  split at rest
  · next none =>
    cases rest
    refine .inr ⟨rfl, fun fits => found.mpr fits.2 none⟩
  · next some =>
    obtain ⟨data, w, _, rest⟩ := ok_of_bind rest
    obtain ⟨_, x, _, rest⟩ := ok_of_bind rest
    obtain ⟨_, y, _, rest⟩ := ok_of_bind rest
    have all : min (DIRENT - 0) (BSIZE - DIRENT * k % BSIZE) = DIRENT := by
      unfold DIRENT BSIZE
      omega
    rw [all] at rest
    change writeiLoop sb dp src DIRENT (14 + 1) _ _ y = _ at rest
    unfold writeiLoop at rest
    rw [if_neg (by decide)] at rest
    cases rest
    exact .inl ⟨Nat.zero_add _, bound, found.mp some⟩

theorem writei_entry_ok (valid : sb.Valid) (h : Consistent sb s v) (ready : Ready s dp)
    (start : DIRENT * k ≤ (s.itable dp).size) (bound : DIRENT * k + DIRENT ≤ MAXFILE * BSIZE) {r : Int}
    (run : writei sb dp src (DIRENT * k) DIRENT s = .ok r t) :
    (r = DIRENT ∧ Fits sb v (s.itable dp).inum k) ∨ (r = 0 ∧ ¬ Fits sb v (s.itable dp).inum k) := by
  have most : MAXFILE * BSIZE = 274432 := by decide
  have small : DIRENT * k + DIRENT < 2 ^ 32 := by omega
  unfold writei at run
  change (if _ then _ else _ : F Int) s = _ at run
  rw [Nat.mod_eq_of_lt small, if_neg (by omega), if_neg (by omega)] at run
  obtain ⟨⟨tot, off⟩, u, loop, rest⟩ := ok_of_bind run
  obtain ⟨_, w, _, rest⟩ := ok_of_bind rest
  obtain ⟨_, x, _, rest⟩ := ok_of_bind rest
  cases rest
  rcases writeiLoop_entry valid h ready bound loop with ⟨rfl, fits⟩ | ⟨rfl, short⟩
  · exact .inl ⟨rfl, fits⟩
  · exact .inr ⟨rfl, short⟩

/-- `writei` of one entry, at the end of the directory or before it. -/
theorem writei_entry (valid : sb.Valid) (h : Consistent sb s v) (ready : Ready s dp)
    (start : DIRENT * k ≤ (s.itable dp).size) :
    Does 7 (writei sb dp src (DIRENT * k) DIRENT) (fun r t => ∃ v', SameFiles s t ∧
      Consistent sb t v' ∧
      ((r = DIRENT ∧ Fits sb v (s.itable dp).inum k ∧ Wrote sb dp src (DIRENT * k) DIRENT s v t v') ∨
        (r ≠ DIRENT ∧ ¬ Fits sb v (s.itable dp).inum k ∧ Onward s t ∧
          ∀ j < sb.ninodes, Alike v v' j))) s := by
  have most : MAXFILE * BSIZE = 274432 := by decide
  by_cases bound : DIRENT * k + DIRENT ≤ MAXFILE * BSIZE
  · have single : blocksIn (DIRENT * k) DIRENT = 1 := by
      unfold blocksIn DIRENT BSIZE
      rw [if_neg (by decide)]
      omega
    have does := @writei_does sb dp s v src _ _ valid h ready start bound
    rw [single] at does
    unfold Does wp at does ⊢
    split
    · next r t run =>
      rw [run] at does
      obtain ⟨grew, m, v', is, within, -, wrote, files, -⟩ := does
      refine ⟨grew, v', files, wrote.consistent, ?_⟩
      rcases writei_entry_ok valid h ready start bound run with ⟨whole, fits⟩ | ⟨none, short⟩
      · obtain rfl : m = DIRENT := Int.ofNat.inj (is.symm.trans whole)
        exact .inl ⟨whole, fits, wrote⟩
      · obtain rfl : m = 0 := Int.ofNat.inj (is.symm.trans none)
        refine .inr ⟨by rw [none]; decide, short, wrote.resized.onward, fun j inside => ?_⟩
        refine wrote.idle h ready ?_ inside
        rw [← (h.cached.slot dp ready.live).synced ready.valid]
        exact start
    · next e t run =>
      rw [run] at does
      exact does
  · have size : (s.itable dp).size ≤ MAXFILE * BSIZE := (h.solidInode ready).size
    unfold writei
    refine does_get ?_
    have small : (DIRENT * k + DIRENT) % 2 ^ 32 = DIRENT * k + DIRENT :=
      Nat.mod_eq_of_lt (by unfold DIRENT at *; omega)
    rw [small, if_neg (by unfold DIRENT at *; omega), if_pos (by omega)]
    refine (does_pure ⟨v, ⟨rfl, rfl, rfl⟩, h, .inr ⟨by decide, fun fits => bound fits.1, .refl s, ?_⟩⟩).mono
      (Nat.zero_le 7)
    exact fun j _ => .refl v j

end Write

/-! ### `dirlink` -/

section References

variable {sb : Superblock} {ip : InodePtr} {s t : State} {i dev : Nat}

/-- `iget` counts a reference or takes a free entry of the table. -/
theorem iget_wp : wp (iget dev i) (fun ip t =>
    (0 < (s.itable ip).ref ∧ t = s.setInode ip { s.itable ip with ref := (s.itable ip).ref + 1 }) ∨
    ((s.itable ip).ref = 0 ∧
      t = s.setInode ip { s.itable ip with dev := dev, inum := i, ref := 1, valid := false }))
    (fun e _ => e = .panic "iget: no inodes") s := by
  unfold iget
  rw [wp_bind, wp_get]
  split
  · next found =>
    have facts := List.find?_some found
    exact .inl ⟨(of_decide_eq_true facts).1, rfl⟩
  · split
    · next found =>
      have facts := List.find?_some found
      exact .inr ⟨of_decide_eq_true facts, rfl⟩
    · rfl

theorem iput_kept (more : ¬ Last s ip) :
    iput sb ip s = .ok () (s.setInode ip { s.itable ip with ref := (s.itable ip).ref - 1 }) := by
  have kept : ¬ ((s.itable ip).ref = 1 ∧ (s.itable ip).valid = true ∧ (s.itable ip).nlink = 0) := more
  unfold iput
  rw [bind_get]
  dsimp only
  rw [if_neg kept]
  rfl

/-- The reference that `iget` takes is dropped at once. -/
theorem iget_iput (run : iget dev i s = .ok ip t) : ∃ u, iput sb ip t = .ok () u ∧
    u.blocks = s.blocks ∧ u.logged = s.logged ∧ u.lh = s.lh ∧ u.outstanding = s.outstanding ∧
    SameFiles s u ∧ (∀ jp, (u.itable jp).ref = (s.itable jp).ref) ∧
    ∀ jp, 0 < (s.itable jp).ref → u.itable jp = s.itable jp := by
  rcases wp_ok iget_wp run with ⟨live, rfl⟩ | ⟨free, rfl⟩
  · have more : ¬ Last (s.setInode ip { s.itable ip with ref := (s.itable ip).ref + 1 }) ip := by
      rintro ⟨one, -⟩
      rw [State.setInode_itable, Function.update_self] at one
      change (s.itable ip).ref + 1 = 1 at one
      omega
    refine ⟨_, iput_kept more, rfl, rfl, rfl, rfl, ⟨rfl, rfl, rfl⟩, fun jp => ?_, fun jp _ => ?_⟩
    · by_cases this : jp = ip
      · simp [this]
      · simp [this]
    · by_cases this : jp = ip
      · simp [this]
      · simp [this]
  · have more : ¬ Last (s.setInode ip
        { s.itable ip with dev := dev, inum := i, ref := 1, valid := false }) ip := by
      rintro ⟨-, read, -⟩
      rw [State.setInode_itable, Function.update_self] at read
      cases read
    refine ⟨_, iput_kept more, rfl, rfl, rfl, rfl, ⟨rfl, rfl, rfl⟩, fun jp => ?_, fun jp live => ?_⟩
    · by_cases this : jp = ip
      · simp [this, free]
      · simp [this]
    · have this : jp ≠ ip := by
        rintro rfl
        omega
      simp [this]

end References

section Dirlink

variable {sb : Superblock} {dp : InodePtr} {s t : State} {v v' : Disk} {k m : Nat}

theorem emptyDirent_ok (h : Consistent sb s v) (ready : Ready s dp)
    (whole : (v.inode (s.itable dp).inum).size % DIRENT = 0) (fuel : Nat) (de : Buffer)
    (enough : m < fuel) (rest : k + m = v.count (s.itable dp).inum) : ∃ l de',
      emptyDirent sb dp fuel (DIRENT * k) de s = .ok (DIRENT * l, de') s ∧
      l ≤ v.count (s.itable dp).inum ∧
      (l < v.count (s.itable dp).inum → v.slots (s.itable dp).inum l = none) ∧
      ∀ j, k ≤ j → j < l → v.slots (s.itable dp).inum j ≠ none := by
  have slot := h.cached.slot dp ready.live
  have size : (s.itable dp).size = (v.inode (s.itable dp).inum).size := by
    rw [← slot.synced ready.valid]
  induction fuel generalizing k m de with
  | zero => exact absurd enough (Nat.not_lt_zero m)
  | succ fuel ih =>
    unfold emptyDirent
    rw [bind_get, size]
    cases m with
    | zero =>
      rw [if_neg fun inside => ?_]
      · exact ⟨k, de, rfl, by omega, fun less => by omega, fun j low high => by omega⟩
      · have := (Disk.entry_inside whole).mp inside
        omega
    | succ m =>
      have inside : k < v.count (s.itable dp).inum := by omega
      obtain ⟨de', read, same⟩ := readi_whole h ready de inside
      have entry : decode de' = v.slots (s.itable dp).inum k := decode_congr same
      rw [if_pos ((Disk.entry_inside whole).mpr inside), bind_ok read]
      dsimp only
      rw [if_neg (not_not.mpr rfl)]
      by_cases free : deInum de' = 0
      · rw [if_pos free]
        refine ⟨k, de', rfl, by omega, fun _ => ?_, fun j low high => by omega⟩
        rw [← entry]
        exact decode_eq_none.mpr free
      · rw [if_neg free, show DIRENT * k + DIRENT = DIRENT * (k + 1) from rfl]
        obtain ⟨l, last, run, upTo, vacant, before⟩ := ih (k := k + 1) (m := m) de' (by omega) (by omega)
        refine ⟨l, last, run, upTo, vacant, fun j low high => ?_⟩
        by_cases first : j = k
        · rw [first, ← entry]
          exact fun none => free (decode_eq_none.mp none)
        · exact before j (by omega) high

/-- An entry that the directory has lies in a block that it has. -/
theorem fits_inside (solid : Solid v (v.inode k)) {l : Nat} (inside : l < v.count k) :
    Fits sb v k l := by
  have whole := Disk.entry_whole inside
  refine ⟨whole.trans solid.size, ?_⟩
  have mapped := solid.mapped (DIRENT * l) (by unfold DIRENT at *; omega)
  unfold Disk.missing
  rw [if_pos mapped]
  exact Nat.zero_le _

/-- Every entry is in use, and there is no room for another one. -/
def Full (sb : Superblock) (v : Disk) (i : Nat) : Prop :=
  (∀ k < v.count i, v.slots i k ≠ none) ∧ ¬ Fits sb v i (v.count i)

/-- Entry `k` of directory `i` has been filled. -/
structure Filled (v : Disk) (i k : Nat) (key : Path) (inum : Nat) (v' : Disk) : Prop where
  upTo : k ≤ v.count i
  vacant : k < v.count i → v.slots i k = none
  whole : (v'.inode i).size % DIRENT = 0
  count : v'.count i = max (v.count i) (k + 1)
  slots : ∀ l < v'.count i, v'.slots i l = if l = k then some (key, inum) else v.slots i l

/-- What `dirlink` leaves, with its result. -/
structure LinkPost (sb : Superblock) (i : Nat) (name : Path) (inum : Nat) (s : State) (v : Disk)
    (r : Int) (t : State) (v' : Disk) : Prop where
  consistent : Consistent sb t v'
  onward : Onward s t
  files : SameFiles s t
  others : ∀ j < sb.ninodes, j ≠ i → Alike v v' j
  links : (v'.inode i).type = (v.inode i).type ∧ (v'.inode i).nlink = (v.inode i).nlink
  result : (r = -1 ∧ (v.lookup i name ≠ none ∨ Full sb v i) ∧ Alike v v' i) ∨
    (r = 0 ∧ v.lookup i name = none ∧ ¬ Full sb v i ∧ ∃ k, Filled v i k (nameOf (cstr name)) inum v')

theorem Filled.tabular {i inum : Nat} {key : Path} (filled : Filled v i k key inum v')
    (tabular : Tabular v i) (fresh : ∀ l < v.count i, ∀ a, v.slots i l ≠ some (key, a)) :
    Tabular v' i :=
  ⟨filled.whole, Slots.fill_distinct filled.upTo filled.count filled.slots tabular.distinct fresh⟩

/-- The name is in the directory, and the others are as before. -/
theorem Filled.lookup {i inum : Nat} {name : Path}
    (filled : Filled v i k (nameOf (cstr name)) inum v') (tabular : Tabular v i)
    (missing : v.lookup i name = none) : v'.lookup i name = some inum ∧
      ∀ other, nameOf (cstr other) ≠ nameOf (cstr name) → v'.lookup i other = v.lookup i other := by
  obtain ⟨new, old⟩ := Slots.fill_lookup filled.upTo filled.vacant filled.count filled.slots
    tabular.distinct (Slots.lookup_eq_none.mp missing)
  exact ⟨new, fun other apart => old _ apart⟩

/-- The directory is a table afterwards. -/
theorem LinkPost.tabular {i inum : Nat} {name : Path} {r : Int}
    (post : LinkPost sb i name inum s v r t v') (tabular : Tabular v i)
    (bound : (v.inode i).size ≤ MAXFILE * BSIZE) : Tabular v' i := by
  rcases post.result with ⟨-, -, alike⟩ | ⟨-, missing, -, k, filled⟩
  · exact alike.tabular bound tabular
  · exact filled.tabular tabular (Slots.lookup_eq_none.mp missing)

theorem dirlink_wp (valid : sb.Valid) (h : Consistent sb s v) (ready : Ready s dp)
    (dir : (s.itable dp).type = T_DIR) (tabular : Tabular v (s.itable dp).inum) (name : Path)
    {inum : Nat} (some' : 1 ≤ inum) (small : inum ≤ 65535) :
    wp (dirlink sb dp name inum)
      (fun r t => ∃ v', LinkPost sb (s.itable dp).inum name inum s v r t v')
      (fun e _ => (e = .panic "iget: no inodes" ∧ v.lookup (s.itable dp).inum name ≠ none) ∨
        (Short 7 s e ∧ v.lookup (s.itable dp).inum name = none)) s := by
  have slot := h.cached.slot dp ready.live
  have size : (s.itable dp).size = (v.inode (s.itable dp).inum).size := by
    rw [← slot.synced ready.valid]
  set i := (s.itable dp).inum with is
  unfold dirlink
  rw [wp_bind, wp_congr (dirlookup_eq h ready dir tabular.whole name), ← is]
  cases found : v.find i name with
  | some k =>
    have present : v.lookup i name ≠ none := by
      rw [Disk.lookup_of_find found]
      exact Option.some_ne_none _
    show wp (iget ROOTDEV (deInum (v.entry i k)) >>= fun ip => pure (some (ip, DIRENT * k))) _ _ s
    rw [wp_bind]
    refine wp_of_run (fun ip t got => ?_) fun e _ stopped => ?_
    swap
    · have reason := wp_error iget_wp stopped
      exact .inl ⟨reason, present⟩
    obtain ⟨u, put, blocks, -, -, -, files, refs, kept⟩ := @iget_iput sb _ _ _ _ _ got
    show wp (iput sb ip >>= fun _ => pure (-1)) _ _ t
    rw [wp_bind]
    refine wp_of_run (fun _ w done => ?_) fun e _ stopped => ?_
    · rw [put] at done
      cases done
      refine ⟨v, ⟨h.shows.congr blocks, h.own, h.solid, ⟨fun jp live => ?_, fun jp kp one two same => ?_⟩⟩,
        ⟨fun jp _ => ?_, fun jp live => ?_, fun jp live read => ?_⟩, files, fun j _ _ => .refl v j,
        ⟨rfl, rfl⟩, .inl ⟨rfl, .inl present, .refl v i⟩⟩
      · rw [refs] at live
        rw [kept jp live]
        exact h.cached.slot jp live
      · rw [refs] at one two
        rw [kept jp one, kept kp two] at same
        exact h.cached.unique jp kp one two same
      · rw [refs]
      · rw [kept jp live]
      · rw [kept jp live]
        exact read
    · rw [put] at stopped
      cases stopped
  | none =>
    have missing := Disk.find_eq_none.mp found
    obtain ⟨l, de, empty, upTo, vacant, before⟩ := emptyDirent_ok h ready tabular.whole
      ((s.itable dp).size / DIRENT + 1) (fun _ => 0) (m := v.count i) (k := 0)
      (by rw [size]; exact Nat.lt_succ_self _) (Nat.zero_add _)
    rw [Nat.mul_zero] at empty
    rw [← is] at upTo vacant before
    show wp (emptyDirent sb dp ((s.itable dp).size / DIRENT + 1) 0 (fun _ => 0) >>= _) _ _ s
    rw [wp_congr (bind_ok empty)]
    show wp (writei sb dp (setDirent de name inum) (DIRENT * l) DIRENT >>= _) _ _ s
    have start : DIRENT * l ≤ (s.itable dp).size := by
      rw [size]
      unfold Disk.count DIRENT at *
      omega
    rw [wp_bind]
    refine wp_mono (writei_entry valid h ready start) ?_ fun e _ short => .inr ⟨short, missing⟩
    rintro r t ⟨-, v', files, consistent, ⟨rfl, fits, wrote⟩ | ⟨short, full, onward, alike⟩⟩
    · rw [if_neg (not_not.mpr rfl)]
      obtain ⟨whole, count, slots⟩ := wrote.slots h ready tabular.whole
      rw [decode_setDirent de name some' small] at slots
      obtain ⟨type, nlink, -⟩ := wrote.inode h ready
      refine ⟨v', consistent, wrote.resized.onward, files, fun j inside other =>
        wrote.alike inside other, ⟨type, nlink⟩, .inr ⟨rfl, missing, fun all => ?_, l,
        upTo, vacant, whole, count, slots⟩⟩
      -- the entry is a free one, or the one behind the last
      by_cases inside : l < v.count i
      · exact all.1 l inside (vacant inside)
      · obtain rfl : l = v.count i := by omega
        exact all.2 fits
    · rw [if_pos short]
      refine ⟨v', consistent, onward, files, fun j inside _ => alike j inside,
        ⟨(alike i slot.inside).type, (alike i slot.inside).nlink⟩, .inl ⟨rfl, .inr ⟨fun j less => ?_, ?_⟩,
        alike i slot.inside⟩⟩
      · refine before j (Nat.zero_le j) ?_
        by_contra late
        exact full (fits_inside (h.solid i slot.inside) (by omega))
      · have last : l = v.count i := by
          by_contra early
          exact full (fits_inside (h.solid i slot.inside) (by omega))
        rw [← last]
        exact full

end Dirlink

end Xv6Lab.Fs

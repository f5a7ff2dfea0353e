import Xv6Lab.Fs.Image

/-! The files of a consistent file system are byte arrays: `writei` replaces the bytes it is given,
for as long as it finds blocks, and `readi` returns the bytes that are there and changes nothing. -/

namespace Xv6Lab.Fs

open Bytes Exec

/-- In memory, only the slots and the size of `ip` change, and the size is `size`. -/
structure Resized (ip : InodePtr) (size : Nat) (s t : State) : Prop where
  inode : ∃ addrs, t.itable ip = { s.itable ip with addrs := addrs, size := size }
  others : ∀ jp ≠ ip, t.itable jp = s.itable jp

/-- Open files and processes stay as they are. -/
structure SameFiles (s t : State) : Prop where
  ftable : t.ftable = s.ftable
  procs : t.procs = s.procs
  current : t.current = s.current

/-- `m` bytes of `src` have been written to the file at `off`. -/
structure Wrote (sb : Superblock) (ip : InodePtr) (src : Buffer) (off m : Nat) (s : State)
    (v : Disk) (t : State) (v' : Disk) : Prop where
  consistent : Consistent sb t v'
  resized : Resized ip (max (s.itable ip).size (off + m)) s t
  inodes : v'.inode = Function.update v.inode (s.itable ip).inum (t.itable ip).toDinode
  kept : ∀ j < sb.ninodes, ∀ q, v.at (v.inode j) q ≠ 0 → v'.at (v'.inode j) q = v.at (v.inode j) q
  content : ∀ j < sb.ninodes, ∀ o, o / BSIZE < MAXFILE → v'.content (v'.inode j) o =
    if j = (s.itable ip).inum ∧ off ≤ o ∧ o < off + m then src (o - off)
    else v.content (v.inode j) o

section Inodes

variable {sb : Superblock} {ip : InodePtr} {s t : State} {v v' : Disk} {size : Nat}

/-- The inode that is in memory is stored, with another size. -/
theorem at_store {d : Dinode} (addrs : d.addrs = (t.itable ip).addrs) (j : Nat) (q : Place) :
    (v.setInode (t.itable ip).inum d).at ((v.setInode (t.itable ip).inum d).inode j) q =
      v.at (held v t ip j) q := by
  show v.at (Function.update v.inode (t.itable ip).inum d j) q = _
  unfold held
  by_cases this : j = (t.itable ip).inum
  · subst this
    rw [Function.update_self, Function.update_self]
    exact at_congr addrs (fun _ => rfl) q
  · rw [Function.update_of_ne this, Function.update_of_ne this]

theorem content_store {d : Dinode} (addrs : d.addrs = (t.itable ip).addrs) (j o : Nat) :
    (v.setInode (t.itable ip).inum d).content ((v.setInode (t.itable ip).inum d).inode j) o =
      v.content (held v t ip j) o := by
  unfold Disk.content
  rw [at_store addrs]
  rfl

theorem OnlyAddrs.resized {u : State} (only : OnlyAddrs ip s t)
    (itable : u.itable = Function.update t.itable ip { t.itable ip with size := size }) :
    Resized ip size s u := by
  obtain ⟨addrs, is⟩ := only.inode
  refine ⟨⟨addrs, ?_⟩, fun jp other => ?_⟩
  · rw [itable, Function.update_self, is]
  · rw [itable, Function.update_of_ne other, only.others jp other]

theorem Resized.inum (h : Resized ip size s t) : (t.itable ip).inum = (s.itable ip).inum := by
  obtain ⟨addrs, is⟩ := h.inode
  rw [is]

/-- The inode table after one of its inodes has been changed and stored. -/
theorem Cached.resized (h : Cached sb s v) (resized : Resized ip size s t)
    (inodes : v'.inode = Function.update v.inode (s.itable ip).inum (t.itable ip).toDinode)
    (live : 0 < (s.itable ip).ref) : Cached sb t v' := by
  have apart : ∀ jp ≠ ip, 0 < (s.itable jp).ref → (s.itable jp).inum ≠ (s.itable ip).inum :=
    fun jp other ref same => other (h.unique jp ip ref live same)
  obtain ⟨dev, inside, -, typed⟩ := h.slot ip live
  refine h.change resized.others (fun jp other ref => ?_) fun _ => ⟨?_, fun jp other ref => ?_⟩
  · rw [inodes, Function.update_of_ne (apart jp other ref)]
  · obtain ⟨addrs, is⟩ := resized.inode
    have stored : v'.inode (t.itable ip).inum = (t.itable ip).toDinode := by
      rw [inodes, resized.inum, Function.update_self]
    rw [is] at stored ⊢
    exact ⟨dev, inside, fun _ => stored.symm, typed⟩
  · rw [resized.inum]
    exact apart jp other ref

/-- `writei` stores the inode with its new size. -/
theorem Written.stored {u : State} {src : Buffer} {off m : Nat} (h : Consistent sb s v)
    (ready : Ready s ip) (written : Written sb ip src 0 off m s v t v')
    (start : off ≤ (s.itable ip).size) (fits : off + m ≤ MAXFILE * BSIZE)
    (resized : Resized ip (max (s.itable ip).size (off + m)) s u)
    (addrs : (u.itable ip).addrs = (t.itable ip).addrs)
    (shows : Shows sb u (v'.setInode (t.itable ip).inum (u.itable ip).toDinode)) :
    Wrote sb ip src off m s v u (v'.setInode (t.itable ip).inum (u.itable ip).toDinode) := by
  set v'' := v'.setInode (t.itable ip).inum (u.itable ip).toDinode with is
  have before := h.held ready
  have inum := written.only.inum
  have size : (u.itable ip).size = max (s.itable ip).size (off + m) := by
    obtain ⟨a, inode⟩ := resized.inode
    rw [inode]
  have type : (u.itable ip).type ≠ 0 := by
    obtain ⟨a, inode⟩ := resized.inode
    rw [inode]
    exact (h.cached.slot ip ready.live).typed ready.valid
  have inodes : v''.inode = Function.update v.inode (s.itable ip).inum (u.itable ip).toDinode := by
    rw [← written.inodes, ← inum]
    rfl
  have places : ∀ j q, v''.at (v''.inode j) q = v'.at (held v' t ip j) q := at_store addrs
  have kept : ∀ j < sb.ninodes, ∀ q, v.at (v.inode j) q ≠ 0 →
      v''.at (v''.inode j) q = v.at (v.inode j) q := by
    intro j hj q some
    rw [places]
    have kept := written.kept j hj q
    rw [before] at kept
    exact kept some
  have free : ∀ j < sb.ninodes, (v''.inode j).type = 0 → ∀ k, (v''.inode j).addrs k = 0 := by
    intro j hj none
    rw [inodes] at none ⊢
    by_cases this : j = (s.itable ip).inum
    · rw [this, Function.update_self] at none
      exact absurd none type
    · rw [Function.update_of_ne this] at none ⊢
      exact h.own.free j hj none
  refine ⟨⟨shows, written.holds.own.congr rfl (fun j _ => places j) free, fun j hj => ?_,
    h.cached.resized resized inodes ready.live⟩, resized, inodes, kept, fun j hj o small => ?_⟩
  · by_cases this : j = (s.itable ip).inum
    · have here : v''.inode j = (u.itable ip).toDinode := by rw [inodes, this, Function.update_self]
      have old := h.solidInode ready
      refine ⟨?_, fun o less => ?_⟩
      · rw [here, size]
        exact Nat.max_le.mpr ⟨old.size, fits⟩
      · rw [here, size] at less
        by_cases early : o < (s.itable ip).size
        · have mapped := old.mapped o early
          rw [(h.cached.slot ip ready.live).synced ready.valid, ← this] at mapped
          rw [kept j hj _ mapped]
          exact mapped
        · rw [places, this, held_inum written.only]
          exact written.mapped o (by omega) (by omega)
    · have same : v''.inode j = v.inode j := by rw [inodes, Function.update_of_ne this]
      have old := h.solid j hj
      refine ⟨same ▸ old.size, fun o less => ?_⟩
      have mapped := old.mapped o (same ▸ less)
      rw [kept j hj _ mapped]
      exact mapped
  · have content := written.content j hj o small
    rw [before, Nat.zero_add] at content
    rw [← content]
    exact content_store addrs j o

theorem Resized.size_eq (h : Resized ip size s t) : (t.itable ip).size = size := by
  obtain ⟨addrs, is⟩ := h.inode
  rw [is]

/-- A place of the inode that is not empty keeps its block. -/
theorem Wrote.keeps {src : Buffer} {off m : Nat} {q : Place} (h : Consistent sb s v)
    (ready : Ready s ip) (wrote : Wrote sb ip src off m s v t v')
    (some : v.at (s.itable ip).toDinode q ≠ 0) :
    v'.at (t.itable ip).toDinode q = v.at (s.itable ip).toDinode q := by
  have slot := h.cached.slot ip ready.live
  have kept := wrote.kept _ slot.inside q
  rw [wrote.inodes, Function.update_self, ← slot.synced ready.valid] at kept
  exact kept some

end Inodes

section Writei

variable {sb : Superblock} {ip : InodePtr} {s : State} {v : Disk} {src : Buffer} {off n : Nat}

theorem asInt_small {m : Nat} (small : m ≤ MAXFILE * BSIZE) : asInt m = m := by
  unfold asInt
  rw [if_pos]
  have bound : MAXFILE * BSIZE = 274432 := by decide
  omega

theorem writei_does (valid : sb.Valid) (h : Consistent sb s v) (ready : Ready s ip)
    (start : off ≤ (s.itable ip).size) (fits : off + n ≤ MAXFILE * BSIZE) :
    Does (6 * blocksIn off n + 1) (writei sb ip src off n) (fun r t => ∃ (m : Nat) (v' : Disk), r = m ∧
      m ≤ n ∧ (m < n → (m = 0 ∨ (off + m) % BSIZE = 0) ∧ ∀ b < sb.size, v'.used b = true) ∧
      Wrote sb ip src off m s v t v' ∧ SameFiles s t ∧
      Logged (fun b => b = sb.iblock (s.itable ip).inum ∨ WriteLog sb ip off m n s v t v' b) s t)
      s := by
  have small : off + n < 2 ^ 32 := by
    have bound : MAXFILE * BSIZE = 274432 := by decide
    omega
  unfold writei
  refine does_get ?_
  rw [Nat.mod_eq_of_lt small, if_neg (by omega), if_neg (by omega)]
  have loop : Does _ (writeiLoop sb ip src n n 0 off) _ s :=
    writeiLoop_does valid n (h.holds ready) (Nat.zero_le n) (by omega)
      (show off + (n - 0) ≤ MAXFILE * BSIZE by omega)
  rw [Nat.sub_zero] at loop
  refine loop.bind fun ⟨tot, off'⟩ t ⟨m, v', is, within, short, written, logged⟩ => ?_
  obtain ⟨rfl, rfl⟩ := Prod.mk.inj is
  rw [Nat.zero_add] at within short ⊢
  set inode : Inode := { t.itable ip with size := max (t.itable ip).size (off + m) } with now
  have updated : Does 0 (updInode ip fun inode => { inode with size := max inode.size (off + m) })
      (fun _ u => u = t.setInode ip inode) t := does_modify ⟨rfl, Nat.le_refl _⟩ rfl
  refine updated.bind fun _ u is => ?_
  have self : u.itable ip = inode := by rw [is, State.setInode_itable, Function.update_self]
  have resized : Resized ip (max (s.itable ip).size (off + m)) s u := by
    refine written.only.resized ?_
    rw [is, State.setInode_itable, now, written.only.size]
  have fit : (u.itable ip).toDinode.Fits := by
    rw [self]
    refine ⟨?_, written.holds.fits valid⟩
    have := (h.solidInode ready).size
    show max (t.itable ip).size (off + m) < 2 ^ 32
    rw [written.only.size]
    have bound : MAXFILE * BSIZE = 274432 := by decide
    have old : (s.itable ip).size ≤ MAXFILE * BSIZE := this
    omega
  have shown : Shows sb u v' := written.holds.shows.congr (by rw [is]; rfl)
  have inum : (u.itable ip).inum = (t.itable ip).inum := by rw [self]
  have stored := iupdate_does valid shown (inum.symm ▸ written.holds.inside) fit
  refine stored.bind fun _ w ⟨same, log, shows⟩ => ?_
  rw [inum] at shows log
  have table : w.itable ip = u.itable ip := by rw [same.itable]
  have final : Resized ip (max (s.itable ip).size (off + m)) s w := by
    obtain ⟨⟨a, inode⟩, others⟩ := resized
    exact ⟨⟨a, table.trans inode⟩, fun jp other => by rw [same.itable, others jp other]⟩
  have files : SameFiles s w := by
    refine ⟨?_, ?_, ?_⟩
    · rw [same.ftable, is, State.setInode_ftable, written.only.ftable]
    · rw [same.procs, is, State.setInode_procs, written.only.procs]
    · rw [same.current, is, State.setInode_current, written.only.current]
  have addrs : (w.itable ip).addrs = (t.itable ip).addrs := by rw [table, self]
  rw [← table] at shows
  refine (does_pure ⟨m, v'.setInode (t.itable ip).inum (w.itable ip).toDinode,
    asInt_small (by omega), by omega, short,
    written.stored h ready start (by omega) final addrs shows, files, ?_⟩).mono (Nat.zero_le _)
  have middle : Logged _ t w := (Logged.none (by rw [is]; rfl)).trans log
  refine (logged.mono fun b log => ?_).trans (middle.mono fun b log => ?_)
  · right
    have places : ∀ q, (v'.setInode (t.itable ip).inum (w.itable ip).toDinode).at
        (w.itable ip).toDinode q = v'.at (t.itable ip).toDinode q := fun q =>
      at_congr addrs (fun _ => rfl) q
    rcases log with ⟨o, low, high, is⟩ | ⟨o, low, high, empty, which⟩
    · exact .inl ⟨o, low, high, (places _).trans is⟩
    · refine .inr ⟨o, low, high, empty, ?_⟩
      rwa [addrs]
  · left
    rw [written.only.inum] at log
    exact log

end Writei

/-! ### `readi` -/

section Readi

variable {sb : Superblock} {ip : InodePtr} {s : State} {v : Disk}

/-- `bmap` of a block that the file has. -/
theorem bmap_mapped (h : Holds sb ip s v) {bn : Nat} (inside : bn < MAXFILE)
    (some : v.at (s.itable ip).toDinode (dataPlace bn) ≠ 0) :
    bmap sb ip bn s = .ok (v.at (s.itable ip).toDinode (dataPlace bn)) s := by
  have slot : ∀ k, (s.itable ip).addrs k ≠ 0 →
      bmapSlot sb ip k s = .ok ((s.itable ip).addrs k) s := by
    intro k filled
    show (if (s.itable ip).addrs k = 0 then _ else _ : F Nat) s = _
    rw [if_neg filled]
    rfl
  unfold bmap
  split
  · next direct =>
    rw [dataPlace_direct direct] at some ⊢
    exact slot _ some
  · next indirect =>
    have all : MAXFILE = NDIRECT + NINDIRECT := rfl
    have small : bn - NDIRECT < NINDIRECT := by omega
    have place := dataPlace_indirect indirect small
    rw [place] at some ⊢
    have filled : (s.itable ip).addrs INDIRECT ≠ 0 := fun none => some (at_word_none none _)
    rw [at_word filled] at some ⊢
    obtain ⟨low, high, -⟩ := h.own.range _ h.inside (.slot INDIRECT) (by rw [held_self]; exact filled)
    rw [held_self] at low high
    have data : s.blocks ((s.itable ip).addrs INDIRECT) = v.data ((s.itable ip).addrs INDIRECT) :=
      h.shows.data _ low high
    rw [if_pos small, bind_ok (slot INDIRECT filled), if_neg filled]
    show (if word (s.blocks ((s.itable ip).addrs INDIRECT)) (bn - NDIRECT) = 0 then _ else _ : F Nat) s
      = _
    rw [data, if_neg some]
    rfl

theorem blit_more {dst : Buffer} {tot m k : Nat} {f : Nat → UInt8} :
    blit (blit dst tot f m) (tot + m) (fun i => f (m + i)) k = blit dst tot f (m + k) := by
  funext i
  unfold blit
  by_cases late : tot + m ≤ i ∧ i < tot + m + k
  · rw [if_pos late, if_pos (by omega)]
    show f (m + (i - (tot + m))) = f (i - tot)
    congr 1
    omega
  · rw [if_neg late]
    by_cases early : tot ≤ i ∧ i < tot + m
    · rw [if_pos early, if_pos (by omega)]
    · rw [if_neg early, if_neg (by omega)]

theorem blit_congr {dst : Buffer} {tot m : Nat} {f g : Nat → UInt8} (same : ∀ i < m, f i = g i) :
    blit dst tot f m = blit dst tot g m := by
  funext i
  unfold blit
  split
  · exact same _ (by omega)
  · rfl

theorem readiLoop_ok (h : Holds sb ip s v) (fuel : Nat) {n tot off : Nat} (dst : Buffer)
    (upTo : tot ≤ n) (enough : n ≤ tot + fuel) (fits : off + (n - tot) ≤ MAXFILE * BSIZE)
    (mapped : ∀ o, off ≤ o → o < off + (n - tot) →
      v.at (s.itable ip).toDinode (dataPlace (o / BSIZE)) ≠ 0) :
    readiLoop sb ip n fuel tot off dst s =
      .ok (n, blit dst tot (fun i => v.content (s.itable ip).toDinode (off + i)) (n - tot)) s := by
  have stop : tot = n → (pure (tot, dst) : F (Nat × Buffer)) s =
      .ok (n, blit dst tot (fun i => v.content (s.itable ip).toDinode (off + i)) (n - tot)) s := by
    intro done
    have none : blit dst tot (fun i => v.content (s.itable ip).toDinode (off + i)) (n - tot) = dst := by
      funext i
      exact blit_out (by omega)
    rw [none, done]
    rfl
  induction fuel generalizing tot off dst with
  | zero => exact stop (by omega)
  | succ fuel ih =>
    unfold readiLoop
    split
    · next more =>
      have block : off / BSIZE < MAXFILE := by
        rw [Nat.div_lt_iff_lt_mul (by decide)]
        omega
      have some := mapped off (Nat.le_refl _) (by omega)
      have size : chunk off (n - tot) ≤ n - tot := Nat.min_le_left ..
      have positive := @chunk_pos off _ (show 0 < n - tot by omega)
      set addr := v.at (s.itable ip).toDinode (dataPlace (off / BSIZE)) with is
      obtain ⟨low, high, -⟩ := h.own.range _ h.inside (dataPlace (off / BSIZE))
        (by rw [held_self]; exact some)
      rw [held_self] at low high
      have data := h.shows.data _ low high
      rw [bind_ok (bmap_mapped h block some), if_neg some]
      set copied := blit dst tot (fun i => s.blocks addr (off % BSIZE + i)) (chunk off (n - tot))
        with now
      have rest := @ih (tot + chunk off (n - tot)) (off + chunk off (n - tot)) copied
        (by omega) (by omega) (by omega) (fun o low high => mapped o (by omega) (by omega))
        fun done => ?_
      · have same : copied = blit dst tot (fun i => v.content (s.itable ip).toDinode (off + i))
            (chunk off (n - tot)) := by
          refine blit_congr fun i less => ?_
          have within := inChunk_iff.mp ⟨Nat.le_add_right off i, Nat.add_lt_add_left less off⟩
          have place : (off + i) % BSIZE = off % BSIZE + i := by
            have one := Nat.div_add_mod off BSIZE
            have two := Nat.div_add_mod (off + i) BSIZE
            rw [within.1] at two
            omega
          rw [data, Disk.content, within.1, if_neg some, place]
        refine rest.trans ?_
        rw [same]
        simp only [Nat.add_assoc off]
        rw [blit_more, show n - (tot + chunk off (n - tot)) = n - tot - chunk off (n - tot) by omega,
          Nat.add_sub_of_le size]
      · have none : blit copied (tot + chunk off (n - tot)) (fun i => v.content
            (s.itable ip).toDinode (off + chunk off (n - tot) + i)) (n - (tot + chunk off (n - tot))) =
            copied := by
          funext i
          exact blit_out (by omega)
        rw [none, done]
        rfl
    · exact stop (by omega)

/-- `readi` copies the bytes that are there, and changes nothing. -/
theorem readi_ok (h : Consistent sb s v) (ready : Ready s ip) (dst : Buffer) {off n : Nat}
    (small : off + n < 2 ^ 32) : readi sb ip dst off n s =
      .ok ((min n ((s.itable ip).size - off) : Nat), blit dst 0
        (fun i => v.content (s.itable ip).toDinode (off + i)) (min n ((s.itable ip).size - off))) s := by
  have solid := h.solidInode ready
  have size : (s.itable ip).size ≤ MAXFILE * BSIZE := solid.size
  unfold readi
  show (if _ then _ else _ : F (Int × Buffer)) s = _
  rw [Nat.mod_eq_of_lt small]
  by_cases past : (s.itable ip).size < off
  · rw [if_pos (.inl past), show min n ((s.itable ip).size - off) = 0 by omega]
    have none : blit dst 0 (fun i => v.content (s.itable ip).toDinode (off + i)) 0 = dst := by
      funext i
      exact blit_out (by omega)
    rw [none]
    rfl
  · have count : (if (s.itable ip).size < off + n then (s.itable ip).size - off else n) =
        min n ((s.itable ip).size - off) := by
      split <;> omega
    rw [if_neg (by omega), count]
    have loop := readiLoop_ok (h.holds ready) (min n ((s.itable ip).size - off)) dst
      (Nat.zero_le (min n ((s.itable ip).size - off))) (by omega)
      (show off + (min n ((s.itable ip).size - off) - 0) ≤ _ by omega)
      fun o low high => solid.mapped o (show o < (s.itable ip).size by omega)
    rw [bind_ok loop, Nat.sub_zero]
    show EStateM.Result.ok (asInt _, _) s = _
    rw [asInt_small (by omega)]

end Readi

/-! ### Byte arrays -/

/-- The bytes of file `i`. -/
def Disk.file (v : Disk) (i : Nat) : List UInt8 :=
  (List.range (v.inode i).size).map (v.content (v.inode i))

/-- The first `n` bytes of a buffer. -/
def bytes (src : Buffer) (n : Nat) : List UInt8 := (List.range n).map src

section Arrays

variable {sb : Superblock} {ip : InodePtr} {s t : State} {v v' : Disk} {src : Buffer} {off m : Nat}

/-- Bytes `off` to `off + m` of the list are replaced. -/
theorem splice_eq {size : Nat} {f g : Nat → UInt8} (start : off ≤ size)
    (values : ∀ o < max size (off + m), g o = if off ≤ o ∧ o < off + m then src (o - off) else f o) :
    (List.range (max size (off + m))).map g = ((List.range size).map f).take off ++ bytes src m ++
      ((List.range size).map f).drop (off + m) := by
  refine List.ext_getElem ?_ fun o left right => ?_
  · simp only [bytes, List.length_append, List.length_take, List.length_drop, List.length_map,
      List.length_range]
    omega
  · rw [List.length_map, List.length_range] at left
    have prior : (((List.range size).map f).take off).length = off := by
      rw [List.length_take, List.length_map, List.length_range]
      omega
    have middle : (bytes src m).length = m := by rw [bytes, List.length_map, List.length_range]
    rw [List.getElem_map, List.getElem_range, values o left]
    by_cases early : o < off
    · rw [if_neg (by omega), List.getElem_append_left (by rw [List.length_append]; omega),
        List.getElem_append_left (by omega), List.getElem_take, List.getElem_map, List.getElem_range]
    · by_cases within : o < off + m
      · rw [if_pos ⟨by omega, within⟩, List.getElem_append_left (by rw [List.length_append]; omega),
          List.getElem_append_right (by omega)]
        simp only [bytes, List.getElem_map, List.getElem_range, prior]
      · rw [if_neg (by omega), List.getElem_append_right (by rw [List.length_append]; omega)]
        simp only [List.getElem_drop, List.getElem_map, List.getElem_range, List.length_append, prior,
          middle]
        congr 1
        omega

/-- The file is written as an array. -/
theorem Wrote.file (wrote : Wrote sb ip src off m s v t v') (h : Consistent sb s v)
    (ready : Ready s ip) (start : off ≤ (s.itable ip).size) :
    v'.file (s.itable ip).inum = (v.file (s.itable ip).inum).take off ++ bytes src m ++
      (v.file (s.itable ip).inum).drop (off + m) := by
  have inside := (h.cached.slot ip ready.live).inside
  have before : v.inode (s.itable ip).inum = (s.itable ip).toDinode :=
    ((h.cached.slot ip ready.live).synced ready.valid).symm
  have size : (v'.inode (s.itable ip).inum).size = max (s.itable ip).size (off + m) := by
    obtain ⟨addrs, is⟩ := wrote.resized.inode
    rw [wrote.inodes, Function.update_self, is]
  have bound := (wrote.consistent.solid _ inside).size
  have old : (v.inode (s.itable ip).inum).size = (s.itable ip).size := by rw [before]
  rw [Disk.file, Disk.file, size, old]
  refine splice_eq start fun o less => ?_
  have small : o / BSIZE < MAXFILE := by
    rw [Nat.div_lt_iff_lt_mul (by decide)]
    omega
  rw [wrote.content _ inside o small]
  simp only [true_and]

/-- The other files stay as they are. -/
theorem Wrote.otherFile (wrote : Wrote sb ip src off m s v t v') {j : Nat} (inside : j < sb.ninodes)
    (other : j ≠ (s.itable ip).inum) : v'.file j = v.file j := by
  have same : v'.inode j = v.inode j := by rw [wrote.inodes, Function.update_of_ne other]
  have bound := (wrote.consistent.solid j inside).size
  rw [Disk.file, Disk.file]
  have size : (v'.inode j).size = (v.inode j).size := by rw [same]
  rw [size] at bound ⊢
  refine List.map_congr_left fun o less => ?_
  have small : o / BSIZE < MAXFILE := by
    rw [Nat.div_lt_iff_lt_mul (by decide)]
    have := List.mem_range.mp less
    omega
  rw [wrote.content j inside o small, if_neg fun is => other is.1]

/-- The bytes that `readi` copies. -/
theorem bytes_read (dst : Buffer) (d : Dinode) (n : Nat) :
    bytes (blit dst 0 (fun i => v.content d (off + i)) (min n (d.size - off)))
      (min n (d.size - off)) = (((List.range d.size).map (v.content d)).drop off).take n := by
  refine List.ext_getElem ?_ fun i left right => ?_
  · simp only [bytes, List.length_map, List.length_range, List.length_take, List.length_drop]
  · rw [bytes, List.length_map, List.length_range] at left
    simp only [bytes, List.getElem_map, List.getElem_range, List.getElem_take, List.getElem_drop]
    rw [blit_in (Nat.zero_le i) (by omega), Nat.sub_zero]

end Arrays

/-- How a call panics. -/
def panics {α : Type} (x : F α) (s : State) : Option Halt :=
  match x s with
  | .ok _ _ => none
  | .error e _ => some e

end Xv6Lab.Fs

import Xv6Lab.Fs.Paths
import Xv6Lab.Lib.Transition

/-! The operations of `fs.c` and `file.c`, and their runs.  In every run in which pointers are to
inodes in use and directories are written by `create` and `unlink` only, every block in use has one
owner between the operations, and no operation frees a free block. -/

namespace Xv6Lab.Fs

open Bytes Exec

/-- An operation has run, and has logged blocks that satisfy `P`. -/
structure Ran (sb : Superblock) (P : Nat → Prop) (s : State) (v : Disk) (t : State) (v' : Disk) :
    Prop where
  good : Good sb t v'
  logged : Logged P s t
  tidy : NoOrphan sb s v → NoOrphan sb t v'

section Ran

variable {sb : Superblock} {P Q : Nat → Prop} {ip : InodePtr} {f : FilePtr} {s t u : State}
  {v v' v'' : Disk}

theorem Ran.refl (h : Good sb s v) : Ran sb P s v s v := ⟨h, .none rfl, id⟩

theorem Ran.trans (one : Ran sb P s v t v') (two : Ran sb P t v' u v'') : Ran sb P s v u v'' :=
  ⟨two.good, one.logged.trans two.logged, fun none => two.tidy (one.tidy none)⟩

theorem Ran.mono (h : Ran sb P s v t v') (weaker : ∀ b, P b → Q b) : Ran sb Q s v t v' :=
  ⟨h.good, h.logged.mono weaker, h.tidy⟩

theorem Moves.ran (h : Moves sb P s v t v') : Ran sb P s v t v' := ⟨h.good, h.logged, h.tidy⟩

/-- Only the table of open files changes. -/
structure Refiled (s t : State) : Prop where
  blocks : t.blocks = s.blocks
  itable : t.itable = s.itable
  procs : t.procs = s.procs
  current : t.current = s.current
  logged : t.logged = s.logged

theorem Refiled.ran (h : Good sb s v) (refiled : Refiled s t) : Ran sb P s v t v := by
  obtain ⟨blocks, itable, -, -, logged⟩ := refiled
  refine ⟨⟨⟨h.shows.congr blocks, h.own, h.solid, ?_, ?_⟩, h.entries⟩, .none logged, fun none => ?_⟩
  · rw [itable]
    exact h.cached.slot
  · rw [itable]
    exact h.cached.unique
  · unfold NoOrphan
    rw [itable]
    exact none

theorem updFile_ends (g : File → File) : Ends (updFile f g) (fun _ t => Refiled s t) s :=
  ends_modify ⟨rfl, rfl, rfl, rfl, rfl⟩

theorem advance_ends (r : Int) : Ends (advance f r) (fun _ t => Refiled s t ∧
    (0 < r → (t.ftable f).off = ((s.ftable f).off + r.toNat) % 2 ^ 32)) s := by
  unfold advance
  split
  · refine ends_modify ⟨⟨rfl, rfl, rfl, rfl, rfl⟩, fun _ => ?_⟩
    rw [State.setFile_ftable, Function.update_self]
  · next none => exact ends_pure ⟨⟨rfl, rfl, rfl, rfl, rfl⟩, fun some => absurd some none⟩

end Ran

/-! ### Open files -/

section Files

variable {sb : Superblock} {ip : InodePtr} {f : FilePtr} {s : State} {v : Disk}

theorem asUint_lt (n : Int) : asUint n < 2 ^ 32 := by
  unfold asUint
  omega

/-- `readi` changes nothing. -/
theorem readi_same (h : Good sb s v) (ready : Ready s ip) (dst : Buffer) {off n : Nat}
    (small : n < 2 ^ 32) : Ends (readi sb ip dst off n) (fun _ t => t = s) s := by
  by_cases fits : off + n < 2 ^ 32
  · exact ends_ok (readi_ok h.toConsistent ready dst fits) rfl
  · unfold readi
    refine ends_get ?_
    dsimp only
    rw [if_pos (by omega)]
    exact ends_pure rfl

theorem filealloc_ends : Ends filealloc (fun _ t => Refiled s t) s := by
  unfold filealloc
  refine ends_get ?_
  split
  · exact (updFile_ends _).bind fun _ t refiled => ends_pure refiled
  · exact ends_pure ⟨rfl, rfl, rfl, rfl, rfl⟩

theorem fileopen_ran (h : Good sb s v) (live : 0 < (s.itable ip).ref) (readable writable : Bool) :
    Ends (fileopen ip readable writable) (fun _ t => Ran sb nothing s v t v) s := by
  unfold fileopen
  refine filealloc_ends.bind fun r t refiled => ?_
  have first := refiled.ran (P := nothing) h
  split
  · exact ends_pure first
  · have live' : 0 < (t.itable ip).ref := by
      rw [refiled.itable]
      exact live
    refine (idup_ends first.good live').bind fun jp u ⟨_, step, _⟩ => ?_
    have second := first.trans (step.moves .refl).ran
    exact (updFile_ends _).bind fun _ w last => ends_pure (second.trans (last.ran second.good))

/-- An operation of `file.c` between `begin_op` and `end_op`. -/
theorem operation_ran {α : Type} {P : Nat → Prop} {x : F α} (h : Good sb s v)
    (body : ∀ t, Relogged s t → Ends x (fun _ u => ∃ v', Ran sb P t v u v') t) :
    Ends (do
        beginOp
        let a ← x
        endOp
        pure a) (fun _ t => ∃ v', Ran sb P s v t v') s := by
  refine beginOp_ends.bind fun _ t begun => ?_
  refine (body t begun).bind fun a u ⟨v', ran⟩ => ?_
  refine endOp_ends.bind fun _ w ended => ends_pure ⟨v', ?_⟩
  exact ((relogged_moves h begun).ran.trans ran).trans (relogged_moves ran.good ended).ran

theorem fsOpen_ran (h : Good sb s v) (live : 0 < (s.itable ip).ref) (readable writable : Bool) :
    Ends (fsOpen ip readable writable) (fun _ t => ∃ v', Ran sb nothing s v t v') s := by
  refine operation_ran h fun t begun => ?_
  have step := begun.step h
  exact (fileopen_ran step.good (step.onward.live live) readable writable).conseq
    fun _ u ran => ⟨v, ran⟩

theorem fileclose_ran (valid : sb.Valid) (h : Good sb s v) :
    Ends (fileclose sb f) (fun _ t => ∃ v' i, Ran sb (Among sb [sb.iblock i]) s v t v') s := by
  unfold fileclose
  refine ends_get ?_
  dsimp only
  split
  · exact ends_throw (by decide)
  · split
    · exact (updFile_ends _).conseq fun _ t refiled => ⟨v, 0, refiled.ran h⟩
    · refine (updFile_ends _).bind fun _ t refiled => ?_
      have first := refiled.ran (P := nothing) h
      split
      · next ip _ _ =>
        refine (show Ends (iput sb ip) _ t from iput_moves valid first.good).conseq fun _ u ⟨v', moves⟩ =>
          ⟨v', (t.itable ip).inum, ?_⟩
        refine (first.mono fun _ none => none.elim).trans (moves.ran.mono ?_)
        rintro b ⟨-, bitmap | is⟩
        · exact .inl bitmap
        · exact .inr (is ▸ List.mem_cons_self)
      · exact ends_throw (by decide)
      · exact ends_pure ⟨v, 0, first.mono fun _ none => none.elim⟩

theorem close_ran (valid : sb.Valid) (h : Good sb s v) :
    Ends (close sb f) (fun _ t => ∃ v' i, Ran sb (Among sb [sb.iblock i]) s v t v') s := by
  unfold close
  refine beginOp_ends.bind fun _ t begun => ?_
  refine (fileclose_ran valid (begun.step h).good).bind fun _ u ⟨v', i, ran⟩ => ?_
  refine endOp_ends.conseq fun _ w ended => ⟨v', i, ?_⟩
  exact ((relogged_moves h begun).ran.trans ran).trans (relogged_moves ran.good ended).ran

/-- `filelock` returns with the inode of the file read. -/
theorem filelock_ends (h : Good sb s v) : Ends (filelock sb f) (fun _ t => Step sb nothing s t v ∧
    ∀ ip, (s.ftable f).type = .inode → (s.ftable f).ip = some ip →
      Ready t ip ∧ 0 < (s.itable ip).ref) s := by
  unfold filelock
  refine ends_get ?_
  split
  · next jp _ has =>
    refine (show Ends (ilock sb jp) _ s from ilock_ends h).conseq fun _ t ⟨step, ready, refs⟩ =>
      ⟨step, fun ip _ is => ?_⟩
    rw [has] at is
    obtain rfl := Option.some.inj is
    exact ⟨ready, refs jp ▸ ready.live⟩
  · exact ends_throw (by decide)
  · next is =>
    refine ends_pure ⟨.refl h, fun ip other => ?_⟩
    rw [is] at other
    cases other

theorem fileunlock_ran (h : Good sb s v) :
    Ends (fileunlock f) (fun _ t => Ran sb nothing s v t v) s := by
  unfold fileunlock
  refine ends_get ?_
  split
  · exact iunlock_ends.conseq fun _ t relocked => (relocked_moves h relocked).ran
  · exact ends_throw (by decide)
  · exact ends_pure (.refl h)

theorem fileread_ran (h : Good sb s v) (dst : Buffer) (n : Int)
    (ready : ∀ ip, (s.ftable f).type = .inode → (s.ftable f).ip = some ip → Ready s ip) :
    Ends (fileread sb f dst n) (fun _ t => Ran sb nothing s v t v) s := by
  unfold fileread
  refine ends_get ?_
  dsimp only
  split
  · exact ends_pure (.refl h)
  · split
    · next ip type is =>
      split
      · refine (readi_same h (ready ip type is) dst (asUint_lt n)).bind fun ⟨r, dst⟩ t same => ?_
        subst same
        exact (advance_ends r).bind fun _ u ⟨refiled, _⟩ => ends_pure (refiled.ran h)
      · exact ends_pure (.refl h)
    · exact ends_throw (by decide)
    · exact ends_throw (by decide)

theorem read_ran (h : Good sb s v) (dst : Buffer) (n : Int) :
    Ends (read sb f dst n) (fun _ t => ∃ v', Ran sb nothing s v t v') s := by
  unfold read
  refine beginOp_ends.bind fun _ t begun => ?_
  have first := begun.step h
  refine (filelock_ends first.good).bind fun _ u ⟨locked, ready⟩ => ?_
  have second : Ran sb nothing s v u v := (first.trans locked).moves .refl |>.ran
  refine (fileread_ran locked.good dst n ?_).bind fun r w read => ?_
  · rw [locked.ftable]
    exact fun ip type is => (ready ip type is).1
  refine (fileunlock_ran read.good).bind fun _ x unlocked => ?_
  refine endOp_ends.bind fun _ y ended => ends_pure ⟨v, ?_⟩
  exact ((second.trans read).trans unlocked).trans (relogged_moves unlocked.good ended).ran

end Files

/-! ### `write` -/

/-- `M` of `N` bytes have been written to the file of `ip` from `off` on. -/
structure Filed (sb : Superblock) (ip : InodePtr) (off M N : Nat) (s : State) (v : Disk) (t : State)
    (v' : Disk) : Prop where
  good : Good sb t v'
  onward : Onward s t
  links : SameLinks sb v v'
  keeps : ∀ q, v.at (s.itable ip).toDinode q ≠ 0 →
    v'.at (t.itable ip).toDinode q = v.at (s.itable ip).toDinode q
  logged : Logged (fun b => b = sb.iblock (s.itable ip).inum ∨
    WriteLog sb ip off M N s v t v' b) s t

section Write

variable {sb : Superblock} {ip : InodePtr} {f : FilePtr} {s t u : State} {v v' v'' : Disk}
  {off m k N : Nat}

theorem Filed.refl (h : Good sb s v) : Filed sb ip off 0 N s v s v :=
  ⟨h, .refl s, .refl, fun _ _ => rfl, .none rfl⟩

theorem Filed.ran (filed : Filed sb ip off m N s v t v') : Ran sb (fun b =>
    b = sb.iblock (s.itable ip).inum ∨ WriteLog sb ip off m N s v t v' b) s v t v' :=
  ⟨filed.good, filed.logged, filed.onward.tidy filed.links⟩

/-- The next chunk. -/
theorem Filed.trans (one : Filed sb ip off m m s v t v') (two : Filed sb ip (off + m) k (N - m) t v' u v'')
    (live : 0 < (s.itable ip).ref) (within : m ≤ N)
    (mapped : ∀ o, off ≤ o → o < off + m →
      v'.at (t.itable ip).toDinode (dataPlace (o / BSIZE)) ≠ 0) :
    Filed sb ip off (m + k) N s v u v'' := by
  refine ⟨two.good, one.onward.trans two.onward, fun i hi => ?_, fun q some => ?_, ?_⟩
  · obtain ⟨type, nlink⟩ := one.links i hi
    obtain ⟨type', nlink'⟩ := two.links i hi
    exact ⟨type'.trans type, nlink'.trans nlink⟩
  · have first := one.keeps q some
    rw [two.keeps q (first.symm ▸ some), first]
  · refine (one.logged.mono fun b log => ?_).trans (two.logged.mono fun b log => ?_)
    · exact log.imp_right fun log => log.before mapped two.keeps within
    · rw [one.onward.inum ip live] at log
      exact log.imp_right fun log => WriteLog.after log one.keeps within

/-- What one `writei` of `filewrite` does, with the offset advanced. -/
theorem Wrote.filed {src : Buffer} (h : Good sb s v) (ready : Ready s ip)
    (wrote : Wrote sb ip src off m s v t v')
    (step : Step sb (fun b => b = sb.iblock (s.itable ip).inum ∨ WriteLog sb ip off m N s v t v' b) s t v')
    (refiled : Refiled t u) : Filed sb ip off m N s v u v' := by
  have last := refiled.ran (P := nothing) step.good
  have onward : Onward s u := by
    obtain ⟨ref, inum, valid⟩ := step.onward
    refine ⟨?_, ?_, ?_⟩ <;> rw [refiled.itable]
    · exact ref
    · exact inum
    · exact valid
  refine ⟨last.good, onward, wrote.links h ready, fun q some => ?_, ?_⟩
  · rw [refiled.itable]
    exact wrote.keeps h.toConsistent ready some
  · refine (step.logged.trans (.none refiled.logged)).mono fun b log => log.imp_right fun log => ?_
    unfold WriteLog at log ⊢
    rw [refiled.itable]
    exact log

theorem Filed.longer (filed : Filed sb ip off m k s v t v') (longer : k ≤ N) :
    Filed sb ip off m N s v t v' := by
  obtain ⟨good, onward, links, keeps, logged⟩ := filed
  refine ⟨good, onward, links, keeps, logged.mono fun b log => log.imp_right fun log => ?_⟩
  refine log.imp_right fun ⟨o, low, high, rest⟩ => ⟨o, low, ?_, rest⟩
  omega

/-- The bytes that `filewrite` has `writei` write: the chunks that end within the largest file. -/
def accepted (size off n : Nat) : Nat :=
  if size < off then 0
  else if off + n ≤ MAXFILE * BSIZE then n
  else (MAXFILE * BSIZE - off) / MAXCHUNK * MAXCHUNK

/-- The first chunk, and what follows it. -/
theorem accepted_chunk {size n : Nat} (start : off ≤ size) (fits : off + min n MAXCHUNK ≤ MAXFILE * BSIZE) :
    accepted size off n = min n MAXCHUNK +
      accepted (max size (off + min n MAXCHUNK)) (off + min n MAXCHUNK) (n - min n MAXCHUNK) := by
  have most : MAXFILE * BSIZE = 274432 := by decide
  have bound : MAXCHUNK = 3072 := by decide
  have after : ¬ max size (off + min n MAXCHUNK) < off + min n MAXCHUNK := by omega
  unfold accepted
  rw [if_neg (Nat.not_lt.mpr start), if_neg after, most, bound]
  rw [bound, most] at fits
  by_cases all : off + n ≤ 274432
  · rw [if_pos all, if_pos (by omega)]
    omega
  · rw [if_neg all, if_neg (by omega)]
    omega

theorem filewriteLoop_filed (valid : sb.Valid) (src : Buffer) (n fuel : Nat) {i : Nat}
    (h : Good sb s v) (ready : Ready s ip) (file : (s.itable ip).type ≠ T_DIR) :
    Ends (filewriteLoop sb f ip src n fuel i) (fun _ t => ∃ M v',
      M ≤ accepted (s.itable ip).size (s.ftable f).off (n - i) ∧
      Filed sb ip (s.ftable f).off M (accepted (s.itable ip).size (s.ftable f).off (n - i)) s v t v')
      s := by
  have most : MAXFILE * BSIZE = 274432 := by decide
  have bound : MAXCHUNK = 3072 := by decide
  induction fuel generalizing i s v with
  | zero => exact ends_pure ⟨0, v, Nat.zero_le _, .refl h⟩
  | succ fuel ih =>
    unfold filewriteLoop
    split
    · next more =>
      refine ends_get ?_
      set off := (s.ftable f).off
      set n1 := min (n - i) MAXCHUNK
      have fitting : Fitting sb (s.itable ip) (fun k => src (i + k)) off n1 :=
        fun dir => absurd dir file
      refine (writei_ends valid h ready (by omega) fitting).bind fun r t post => ?_
      refine (advance_ends r).bind fun _ u ⟨refiled, advanced⟩ => ?_
      rcases post with ⟨-, rfl, rfl⟩ | ⟨m, v', rfl, within, fits, _, wrote, step⟩
      · have unequal : (-1 : Int) ≠ n1 := by omega
        rw [if_neg unequal]
        refine ends_pure ⟨0, v, Nat.zero_le _, (refiled.ran (P := nothing) h).good, ?_, .refl, ?_,
          .none refiled.logged⟩
        · refine ⟨?_, ?_, ?_⟩ <;> rw [refiled.itable]
          · exact fun _ _ => Int.le_refl _
          · exact fun _ _ => rfl
          · exact fun _ _ read => read
        · intro q _
          rw [refiled.itable]
      · have filed := wrote.filed h ready step refiled
        have chunks := accepted_chunk fits.1 fits.2
        split
        · next whole =>
          obtain rfl : m = n1 := Int.ofNat.inj whole
          have size := wrote.resized.size_eq
          have solid := wrote.consistent.solidInode (step.onward.ready ready)
          have next : (u.ftable f).off = off + n1 := by
            rw [advanced (by omega), step.ftable, Int.toNat_natCast, Nat.mod_eq_of_lt (by omega)]
          have mapped : ∀ o, off ≤ o → o < off + n1 →
              v'.at (u.itable ip).toDinode (dataPlace (o / BSIZE)) ≠ 0 := by
            intro o _ high
            rw [refiled.itable]
            exact solid.mapped o (show o < (t.itable ip).size by omega)
          have type : (u.itable ip).type ≠ T_DIR := by
            obtain ⟨addrs, is⟩ := wrote.resized.inode
            rw [refiled.itable, is]
            exact file
          refine (ih (i := i + n1) filed.good (filed.onward.ready ready) type).conseq
            fun _ w ⟨k, v'', within, filed'⟩ => ⟨n1 + k, v'', ?_⟩
          rw [next, refiled.itable, size, Nat.sub_add_eq] at within filed'
          rw [chunks]
          refine ⟨Nat.add_le_add_left within _, filed.trans ?_ ready.live (Nat.le_add_right ..) mapped⟩
          rw [Nat.add_sub_cancel_left]
          exact filed'
        · refine ends_pure ⟨m, v', ?_, filed.longer ?_⟩ <;> rw [chunks] <;> omega
    · exact ends_pure ⟨0, v, Nat.zero_le _, .refl h⟩

/-- The blocks of a file that `len` bytes from `off` on lie in, by number. -/
def span (off len : Nat) : List Nat := List.range' (off / BSIZE) (blocksIn off len)

theorem mem_span {len o : Nat} (low : off ≤ o) (high : o < off + len) : o / BSIZE ∈ span off len := by
  unfold span blocksIn
  rw [List.mem_range'_1, if_neg (by omega)]
  have first : off / BSIZE ≤ o / BSIZE := Nat.div_le_div_right low
  have last : o / BSIZE ≤ (off + len - 1) / BSIZE := Nat.div_le_div_right (by omega)
  omega

/-- The blocks that a write of `len` bytes at `off` asks of the log: the inode, the blocks of the file
and, where one of these is missing, the bitmap and perhaps the indirect block. -/
def writeCost (v : Disk) (d : Dinode) (off len : Nat) : Nat :=
  1 + blocksIn off len +
    (if ∃ bn ∈ span off len, v.at d (dataPlace bn) = 0 then 1 else 0) +
    (if ∃ bn ∈ span off len, NDIRECT ≤ bn ∧ v.at d (dataPlace bn) = 0 then 1 else 0)

/-- At most `k` blocks satisfy `P`, where the bitmap is one block. -/
def Within (sb : Superblock) (k : Nat) (P : Nat → Prop) : Prop :=
  sb.size ≤ BPB → ∃ F : Finset Nat, F.card ≤ k ∧ ∀ b, P b → b ∈ F

theorem Superblock.IsBitmap.eq {b : Nat} (bitmap : sb.IsBitmap b) (single : sb.size ≤ BPB) :
    b = sb.bmapstart := by
  obtain ⟨c, inside, rfl⟩ := bitmap
  unfold Superblock.bblock
  rw [Nat.div_eq_of_lt (by omega), Nat.zero_add]

theorem dataPlace_isWord {bn : Nat} (word : (dataPlace bn).IsWord) : NDIRECT ≤ bn := by
  unfold dataPlace at word
  split at word
  · exact word.elim
  · omega

theorem Filed.within (within : m ≤ N) : Within sb (writeCost v (s.itable ip).toDinode off N)
    (fun b => b = sb.iblock (s.itable ip).inum ∨ WriteLog sb ip off m N s v t v' b) := by
  intro single
  let missing : Prop := ∃ bn ∈ span off N, v.at (s.itable ip).toDinode (dataPlace bn) = 0
  let words : Prop := ∃ bn ∈ span off N, NDIRECT ≤ bn ∧ v.at (s.itable ip).toDinode (dataPlace bn) = 0
  refine ⟨{sb.iblock (s.itable ip).inum} ∪
    (span off N).toFinset.image (fun bn => v'.at (t.itable ip).toDinode (dataPlace bn)) ∪
    (if missing then {sb.bmapstart} else ∅) ∪
    (if words then {(t.itable ip).addrs INDIRECT} else ∅), ?_, ?_⟩
  · have data : ((span off N).toFinset.image fun bn =>
        v'.at (t.itable ip).toDinode (dataPlace bn)).card ≤ blocksIn off N := by
      refine Finset.card_image_le.trans ((List.toFinset_card_le _).trans ?_)
      rw [span, List.length_range']
    unfold writeCost
    refine (Finset.card_union_le _ _).trans (Nat.add_le_add ?_ ?_)
    · refine (Finset.card_union_le _ _).trans (Nat.add_le_add ?_ ?_)
      · refine (Finset.card_union_le _ _).trans (Nat.add_le_add ?_ data)
        rw [Finset.card_singleton]
      · show Finset.card (if missing then _ else _) ≤ if missing then 1 else 0
        split <;> simp
    · show Finset.card (if words then _ else _) ≤ if words then 1 else 0
      split <;> simp
  · intro b log
    simp only [Finset.mem_union, Finset.mem_singleton, Finset.mem_image, List.mem_toFinset]
    rcases log with here | ⟨o, low, high, is⟩ | ⟨o, low, high, empty, bitmap | ⟨-, word, is⟩⟩
    · exact .inl (.inl (.inl here))
    · exact .inl (.inl (.inr ⟨o / BSIZE, mem_span low (by omega), is⟩))
    · refine .inl (.inr ?_)
      rw [if_pos ⟨o / BSIZE, mem_span low high, empty⟩, bitmap.eq single]
      exact Finset.mem_singleton_self _
    · refine .inr ?_
      rw [if_pos ⟨o / BSIZE, mem_span low high, dataPlace_isWord word, empty⟩, is]
      exact Finset.mem_singleton_self _

theorem Within.mono {P Q : Nat → Prop} (h : Within sb k P) (weaker : ∀ b, Q b → P b) : Within sb k Q := by
  intro single
  obtain ⟨F, card, all⟩ := h single
  exact ⟨F, card, fun b q => all b (weaker b q)⟩

theorem within_nothing : Within sb k nothing := fun _ => ⟨∅, Nat.zero_le _, fun _ none => none.elim⟩

theorem within_among {l : List Nat} (short : l.length < k) : Within sb k (Among sb l) := by
  intro single
  refine ⟨insert sb.bmapstart l.toFinset, ?_, fun b among => ?_⟩
  · refine (Finset.card_insert_le _ _).trans ?_
    have := List.toFinset_card_le l
    omega
  · rcases among with bitmap | inside
    · exact bitmap.eq single ▸ Finset.mem_insert_self ..
    · exact Finset.mem_insert_of_mem (List.mem_toFinset.mpr inside)

/-- What `filewrite` of `n` bytes asks of the log. -/
def filewriteCost (s : State) (v : Disk) (f : FilePtr) (n : Nat) : Nat :=
  match (s.ftable f).type, (s.ftable f).ip with
  | .inode, some ip => writeCost v (v.inode (s.itable ip).inum) (s.ftable f).off
      (accepted (v.inode (s.itable ip).inum).size (s.ftable f).off n)
  | _, _ => 0

/-- The file is not a directory. -/
def Plain (s : State) (v : Disk) (f : FilePtr) : Prop :=
  ∀ ip, (s.ftable f).type = .inode → (s.ftable f).ip = some ip →
    (v.inode (s.itable ip).inum).type ≠ T_DIR

theorem filewrite_ran (valid : sb.Valid) (h : Good sb s v) (src : Buffer) (n : Int)
    (plain : Plain s v f)
    (ready : ∀ ip, (s.ftable f).type = .inode → (s.ftable f).ip = some ip → Ready s ip) :
    Ends (filewrite sb f src n) (fun _ t => ∃ v' P, Ran sb P s v t v' ∧
      Within sb (if (s.ftable f).writable then filewriteCost s v f n.toNat else 0) P) s := by
  have idle : ∃ v' P, Ran sb P s v s v' ∧
      Within sb (if (s.ftable f).writable then filewriteCost s v f n.toNat else 0) P :=
    ⟨v, nothing, .refl h, within_nothing⟩
  unfold filewrite
  refine ends_get ?_
  dsimp only
  split
  · exact ends_pure idle
  · next writable =>
    split
    · next ip type is =>
      split
      · have synced := (h.cached.slot ip (ready ip type is).live).synced (ready ip type is).valid
        have file : (s.itable ip).type ≠ T_DIR := by
          rw [synced]
          exact plain ip type is
        refine (filewriteLoop_filed valid src n.toNat n.toNat h (ready ip type is) file).bind
          fun _ t ⟨M, v', within, filed⟩ => ends_pure ⟨v', _, filed.ran, ?_⟩
        have cost : filewriteCost s v f n.toNat = writeCost v (s.itable ip).toDinode (s.ftable f).off
            (accepted (s.itable ip).size (s.ftable f).off n.toNat) := by
          unfold filewriteCost
          simp only [type, is]
          rw [← synced]
        rw [if_pos (Bool.eq_true_of_not_eq_false writable), cost]
        rw [Nat.sub_zero] at within ⊢
        exact Filed.within within
      · exact ends_pure idle
    · exact ends_throw (by decide)
    · exact ends_throw (by decide)

/-- The `write` of one transaction. -/
theorem write_ran (valid : sb.Valid) (h : Good sb s v) (src : Buffer) (n : Int)
    (plain : Plain s v f) :
    Ends (write sb f src n) (fun _ t => ∃ v' P, Ran sb P s v t v' ∧
      Within sb (if (s.ftable f).writable then filewriteCost s v f n.toNat else 0) P) s := by
  unfold write
  refine beginOp_ends.bind fun _ t begun => ?_
  have first := begun.step h
  refine (filelock_ends first.good).bind fun _ u ⟨locked, ready⟩ => ?_
  have step := first.trans locked
  have ftable : u.ftable = s.ftable := step.ftable
  rw [first.ftable] at ready
  have inum : ∀ ip, (s.ftable f).type = .inode → (s.ftable f).ip = some ip →
      (u.itable ip).inum = (s.itable ip).inum := by
    intro ip type is
    have live := (ready ip type is).2
    obtain ⟨_, _, rfl⟩ := begun
    exact locked.onward.inum ip live
  have cost : filewriteCost u v f n.toNat = filewriteCost s v f n.toNat := by
    unfold filewriteCost
    rw [ftable]
    split
    · next ip type is => rw [inum ip type is]
    · rfl
  refine (filewrite_ran valid locked.good src n ?_ ?_).bind fun r w ⟨v', P, ran, within⟩ => ?_
  · intro ip type is
    rw [ftable] at type is
    rw [inum ip type is]
    exact plain ip type is
  · rw [ftable]
    exact fun ip type is => (ready ip type is).1
  rw [ftable, cost] at within
  refine (fileunlock_ran ran.good).bind fun _ x unlocked => ?_
  refine endOp_ends.bind fun _ y ended => ends_pure ⟨v', P, ?_, within⟩
  have before : Ran sb P s v u v := (step.any.moves .refl).ran
  have after : Ran sb P w v' x v' := unlocked.mono fun _ none => none.elim
  exact ((before.trans ran).trans after).trans (relogged_moves after.good ended).ran

end Write

end Xv6Lab.Fs

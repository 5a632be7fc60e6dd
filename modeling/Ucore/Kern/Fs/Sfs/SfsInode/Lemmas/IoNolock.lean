import Ucore.Kern.Fs.Sfs.SfsInode.Lemmas.Phases

/-!
This module contains the specification of `sfs_io_nolock`: which of its arguments lead to a transfer,
and what the statements behind `out` do to the inode.
-/

namespace Ucore

namespace SfsCtx

variable {s s' : SfsCtx}

/--
The inode after the statements behind `out`.
-/
def extend (s : SfsCtx) (endpos : Nat) : SfsCtx :=
  if endpos > s.sin.din.size then (s.setDin (s.sin.din.setSize endpos)).setDirty true else s

theorem extend_of_le {endpos : Nat} (h : endpos ≤ s.sin.din.size) : s.extend endpos = s := by
  rw [extend, if_neg (by omega)]

theorem extend_of_lt {endpos : Nat} (h : s.sin.din.size < endpos)
    : s.extend endpos = (s.setDin (s.sin.din.setSize endpos)).setDirty true := by
  rw [extend, if_pos h]

@[simp]
theorem extend_sfs (s : SfsCtx) (endpos : Nat) : (s.extend endpos).sfs = s.sfs := by
  unfold extend
  split
  . rfl
  . rfl

@[simp]
theorem extend_blocks (s : SfsCtx) (endpos : Nat)
    : (s.extend endpos).sin.din.blocks = s.sin.din.blocks := by
  unfold extend
  split
  . rfl
  . rfl

@[simp]
theorem extend_type (s : SfsCtx) (endpos : Nat)
    : (s.extend endpos).sin.din.type = s.sin.din.type := by
  unfold extend
  split
  . rfl
  . rfl

@[simp]
theorem extend_indirect (s : SfsCtx) (endpos : Nat)
    : (s.extend endpos).sin.din.indirect = s.sin.din.indirect := by
  unfold extend
  split
  . rfl
  . rfl

@[simp]
theorem extend_bmap (s : SfsCtx) (endpos : Nat) (v : Vol) (i : Nat)
    : v.bmap (s.extend endpos).sin.din i = v.bmap s.sin.din i := by
  unfold extend
  split
  . rfl
  . rfl

@[simp]
theorem extend_content (s : SfsCtx) (endpos : Nat) (v : Vol)
    : v.content (s.extend endpos).sin.din = v.content s.sin.din := by
  unfold extend
  split
  . rfl
  . rfl

theorem extend_size {endpos : Nat} (h : endpos < 2 ^ 32)
    : (s.extend endpos).sin.din.size = max s.sin.din.size endpos := by
  by_cases hlt : s.sin.din.size < endpos
  . rw [extend_of_lt hlt, Nat.max_eq_right (by omega)]
    exact Nat.mod_eq_of_lt h
  . rw [extend_of_le (by omega), Nat.max_eq_left (by omega)]

theorem extend_mapOk {endpos : Nat} (h : s.sfs.vol.MapOk s.sin.din)
    : (s.extend endpos).sfs.vol.MapOk (s.extend endpos).sin.din := by
  unfold extend
  split
  . exact ⟨h.1, h.2, h.3, h.4, h.5, h.6⟩
  . exact h

theorem Frame.extend {endpos : Nat} (h : Frame s s') : Frame s (s'.extend endpos) := by
  unfold SfsCtx.extend
  split
  . exact h.setSize
  . exact h

theorem ioFinish_run (offset : Nat) (t : SfsIo) (ret : Option Errno)
    : ioFinish offset t ret =
        .ok { ret, alen := t.alen, buf := t.buf } (t.ctx.extend (offset + t.alen)) := by
  unfold ioFinish
  by_cases h : offset + t.alen > t.sin.din.size
  . simp only [if_pos h]
    rw [extend_of_lt h]
    rfl
  . simp only [if_neg h]
    rw [extend_of_le (Nat.not_lt.mp h)]
    rfl

/--
The end of the range `sfs_io_nolock` transfers.
-/
def ioEnd (write : Bool) (size : Nat) (offset : Int) (len : Nat) : Int :=
  if write then
    min (ioEndpos offset len) sfsMaxFileSize
  else
    min (min (ioEndpos offset len) sfsMaxFileSize) size

theorem ioEndpos_of_lt {offset len : Nat} (h : offset + len < 2 ^ 63)
    : ioEndpos offset len = offset + len := by
  unfold ioEndpos
  exact Int.bmod_eq_of_le_mul_two (by omega) (by omega)

/--
The file system and the inode with the buffer at the start of a transfer.
-/
abbrev withBuf (s : SfsCtx) (buf : Bytes) : SfsIo := ⟨s.sfs, s.sin, buf, 0⟩

/--
`sfs_io_nolock` either has nothing to do, or it transfers a range that is not empty.
-/
theorem sfsIoNolock_cases (buf : Bytes) (offset : Int) (len : Nat) (write : Bool)
    (htype : s.sin.din.type ≠ sfsTypeDir)
    : (∃ ret, sfsIoNolock buf offset len write s = .ok { ret, alen := 0, buf } s) ∨
        ∃ o e : Nat, offset = o ∧ o < e ∧ ioEnd write s.sin.din.size offset len = e ∧
          sfsIoNolock buf offset len write s = ioTransfer write buf o e s := by
  unfold sfsIoNolock
  rw [Prog.get_bind_run, Prog.assert_bind_run htype]
  simp only
  split
  . exact .inl ⟨_, rfl⟩
  . next hinval =>
    split
    . exact .inl ⟨_, rfl⟩
    . next hne =>
      cases write with
      | true =>
        refine .inr ⟨offset.toNat, (min (ioEndpos offset len) sfsMaxFileSize).toNat, by omega,
          by omega, ?_, rfl⟩
        simp only [ioEnd, if_true]
        omega
      | false =>
        simp only [Bool.false_eq_true, if_false]
        split
        . exact .inl ⟨_, rfl⟩
        . next hsize =>
          refine .inr ⟨offset.toNat,
            (min (min (ioEndpos offset len) sfsMaxFileSize) s.sin.din.size).toNat, by omega,
            by omega, ?_, rfl⟩
          simp only [ioEnd, Bool.false_eq_true, if_false]
          omega

/--
What a transfer does that does not panic.
-/
inductive Ended (write : Bool) (M : Nat → Nat → Nat → SfsIo → SfsIo → Prop)
    (F : Nat → Nat → SfsIo → SfsIo → Prop) (buf : Bytes) (offset endpos : Nat) (s : SfsCtx)
    (r : IoResult) (s' : SfsCtx) : Prop where
  | done (t : SfsIo) (data : Nat) (hret : r = { ret := none, alen := t.alen, buf := t.buf })
      (hs' : s' = t.ctx.extend (offset + t.alen))
      (hmoved : M offset (endpos - offset) data (s.withBuf buf) t)
  | failed (t : SfsIo) (e : Errno) (hret : r = { ret := some e, alen := t.alen, buf := t.buf })
      (hs' : s' = t.ctx.extend (offset + t.alen))
      (hinterrupted : SfsIo.Interrupted write M F offset endpos (s.withBuf buf) t)

open SfsIo (Phased AtRun OutOfRange wholeBlocks)

theorem ioTransfer_sat {write : Bool} {M : Nat → Nat → Nat → SfsIo → SfsIo → Prop}
    {F : Nat → Nat → SfsIo → SfsIo → Prop} {X : Panic → Prop} (hphased : Phased write M F)
    {buf : Bytes} {offset endpos : Nat} (hok : s.sfs.Ok) (hmap : s.sfs.vol.MapOk s.sin.din)
    (hle : offset / sfsBlksize ≤ s.sin.din.blocks) (hlt : offset < endpos)
    (hwhole : ∀ t, AtRun write offset (s.withBuf buf) t →
      nblksOf offset < endpos / sfsBlksize →
      (wholeBlocks write (nblksOf offset) (endpos / sfsBlksize - nblksOf offset) t).Sat
        (fun _ s' => M (nblksOf offset * sfsBlksize)
          ((endpos / sfsBlksize - nblksOf offset) * sfsBlksize)
          (endpos / sfsBlksize - nblksOf offset) t s')
        (fun _ s' => F (nblksOf offset * sfsBlksize)
          (endpos / sfsBlksize - nblksOf offset) t s') X)
    (hX : OutOfRange endpos (s.withBuf buf) → X .sfsBmapGetOutOfRange)
    : (ioTransfer write buf offset endpos s).Sat
        (fun r s' => Ended write M F buf offset endpos s r s') (fun _ _ => False) X := by
  have h := SfsIo.phases_sat (s := s.withBuf buf) hphased hok hmap hle hlt hwhole hX
  unfold ioTransfer
  revert h
  cases SfsIo.phases write offset endpos (s.withBuf buf) with
  | ok _ t =>
    intro ⟨d, hmoved⟩
    simp only [ioFinish_run]
    exact .done t d rfl rfl hmoved
  | error e t =>
    intro hinterrupted
    simp only [ioFinish_run]
    exact .failed t e rfl rfl hinterrupted
  | panic p => exact id

theorem ioTransfer_of_phases {write : Bool} {buf : Bytes} {offset endpos : Nat} {Q : SfsIo → Prop}
    (h : (SfsIo.phases write offset endpos (s.withBuf buf)).Sat (fun _ t => Q t) (fun _ _ => True)
      (fun _ => True))
    : (ioTransfer write buf offset endpos s).Sat
        (fun r s' => r.ret = none → ∃ t, Q t ∧ r = { ret := none, alen := t.alen, buf := t.buf } ∧
          s' = t.ctx.extend (offset + t.alen))
        (fun _ _ => True) (fun _ => True) := by
  unfold ioTransfer
  revert h
  cases SfsIo.phases write offset endpos (s.withBuf buf) with
  | ok _ t =>
    intro h
    simp only [ioFinish_run]
    exact fun _ => ⟨t, h, rfl, rfl⟩
  | error e t =>
    intro _
    simp only [ioFinish_run]
    exact fun hret => absurd hret (Option.some_ne_none e)
  | panic p => exact fun _ => trivial

end SfsCtx

end Ucore

import Ucore.Kern.Fs.Sfs.NewFs
import Ucore.Kern.Fs.Sfs.SfsInode.Lemmas.IoNolock
import Ucore.Lib.ByteFile

/-!
This module relates `sfs_io_nolock` to reading and overwriting an array of bytes. It does the same
exactly if the whole blocks in the middle of the request are successive on the disk.
-/

namespace Ucore

theorem SfsDiskInode.needTo_mono {din : SfsDiskInode} {m n : Nat} (h : m ≤ n)
    : din.needTo m ≤ din.needTo n := by
  unfold needTo
  split
  . next hm =>
    rw [if_pos ⟨by omega, hm.2⟩]
    omega
  . omega

namespace SfsCtx

variable {s t : SfsCtx}

open SfsIo (Moved Stopped Interrupted RunOk AtRun phased_moved)

/--
The content of the inode as an array of bytes.
-/
def file (s : SfsCtx) : ByteFile := ByteFile.ofBytes s.sin.din.size (s.sfs.vol.content s.sin.din)

/--
What reading or writing `len` bytes at `offset` of the file ought to do.
-/
structure IoLaw (write : Bool) (buf : Bytes) (offset len : Nat) (s : SfsCtx) (r : IoResult)
    (s' : SfsCtx) : Prop where
  ret : r.ret = none
  alen : r.alen = if write then len else s.file.count offset len
  filled : r.buf = if write then buf else
    buf.copy 0 (s.file.byte.drop offset) (s.file.count offset len)
  file : s'.file = if write then s.file.overwrite offset buf len else s.file
  other : ∀ b, b ∉ s.sfs.vol.free → ¬s.sfs.vol.Owns s.sin.din b →
    b ∉ s'.sfs.vol.free ∧ s'.sfs.vol.data b = s.sfs.vol.data b

/--
Only the content of the file may differ.
-/
def SameLayout (s t : SfsCtx) : Prop :=
  ∃ data, t = { s with sfs := { s.sfs with dev := { s.sfs.dev with data } } } ∧
    s.sfs.vol.DataOnly t.sfs.vol s.sin.din

theorem Frame.other {b : Nat} (h : Frame s t) (hfree : b ∉ s.sfs.vol.free)
    (howns : ¬s.sfs.vol.Owns s.sin.din b)
    : b ∉ t.sfs.vol.free ∧ t.sfs.vol.data b = s.sfs.vol.data b := by
  refine ⟨?_, h.confined.data b hfree howns⟩
  intro hb
  cases h.confined.sub b (.inr hb) with
  | inl h => exact howns h
  | inr h => exact hfree h

/--
The end of the range that is transferred.
-/
def endOf (s : SfsCtx) (write : Bool) (offset len : Nat) : Nat :=
  if write then offset + len else min (offset + len) s.sin.din.size

/--
The whole blocks in the middle of the request are at most one, or they are blocks of the file and
successive on the disk.
-/
def MiddleOk (s : SfsCtx) (write : Bool) (offset len : Nat) : Prop :=
  RunOk s.sfs.vol s.sin.din (nblksOf offset)
    (s.endOf write offset len / sfsBlksize - nblksOf offset)

/--
An inode of a file together with a request within what its block map can name, on a device that does
not fail.
-/
structure Serviceable (s : SfsCtx) (write : Bool) (offset len : Nat) : Prop where
  ok : s.sfs.Ok
  mapOk : s.sfs.vol.MapOk s.sin.din
  type : s.sin.din.type = sfsTypeFile
  blocks : s.sin.din.blocks = nblksOf s.sin.din.size
  env : s.sfs.env = Faults.never
  offset_le : offset ≤ s.sin.din.size
  range : offset + len ≤ maxBlocks * sfsBlksize
  space : write = true → s.sin.din.needTo (nblksOf (offset + len)) ≤ s.sfs.vol.free.length

theorem Serviceable.of_sameLayout {write : Bool} {offset len : Nat}
    (h : s.Serviceable write offset len) (ht : s.SameLayout t)
    : t.Serviceable write offset len := by
  obtain ⟨data, rfl, hdata⟩ := ht
  refine ⟨?_, hdata.mapOk h.mapOk, h.type, h.blocks, h.env, h.offset_le, h.range, h.space⟩
  exact ⟨h.ok.1, h.ok.2, h.ok.3, h.ok.4, h.ok.5, h.ok.6⟩

theorem MiddleOk.of_sameLayout {write : Bool} {offset len : Nat}
    (h : s.MiddleOk write offset len) (hmap : s.sfs.vol.MapOk s.sin.din) (ht : s.SameLayout t)
    : t.MiddleOk write offset len := by
  obtain ⟨data, rfl, hdata⟩ := ht
  apply h.imp id
  intro ⟨hend, hsucc⟩
  refine ⟨hend, fun k hk => ?_⟩
  rw [hdata.bmap hmap, hdata.bmap hmap]
  exact hsucc k hk

section

variable {write : Bool} {buf : Bytes} {offset len : Nat}

theorem nblksOf_div_le (n : Nat) : n / sfsBlksize ≤ nblksOf n :=
  Nat.div_le_div_right (by omega)

theorem Serviceable.div_le (h : s.Serviceable write offset len)
    : offset / sfsBlksize ≤ s.sin.din.blocks := by
  rw [h.blocks]
  exact Nat.le_trans (nblksOf_div_le _) (nblksOf_mono h.offset_le)

theorem Serviceable.nblksOf_le (h : s.Serviceable write offset len)
    : nblksOf offset ≤ s.sin.din.blocks := by
  rw [h.blocks]
  exact nblksOf_mono h.offset_le

theorem Serviceable.size_le (h : s.Serviceable write offset len)
    : s.sin.din.size ≤ maxBlocks * sfsBlksize := by
  have hle := h.mapOk.blocks_le
  rw [h.blocks] at hle
  simp only [nblksOf, maxBlocks, sfsNdirect, sfsBlkNentry, sfsBlksize] at hle ⊢
  omega

theorem Serviceable.endOf_le (h : s.Serviceable write offset len)
    : s.endOf write offset len ≤ maxBlocks * sfsBlksize := by
  have := h.range
  unfold endOf
  split
  . omega
  . omega

theorem Serviceable.run (h : s.Serviceable write offset len) (buf : Bytes)
    : (s.endOf write offset len ≤ offset ∧
        sfsIoNolock buf offset len write s = .ok { ret := none, alen := 0, buf } s) ∨
      (offset < s.endOf write offset len ∧
        sfsIoNolock buf offset len write s =
          ioTransfer write buf offset (s.endOf write offset len) s) := by
  have htype : s.sin.din.type ≠ sfsTypeDir := by
    rw [h.type]
    decide
  have hrange := h.range
  have hoffset := h.offset_le
  have hsize := h.size_le
  simp only [maxBlocks, sfsNdirect, sfsBlkNentry, sfsBlksize] at hrange hsize
  have hend : ioEndpos offset len = (offset + len : Nat) := by
    rw [ioEndpos_of_lt (by omega)]
    rfl
  have hvalid : ¬((offset : Int) < 0 ∨ (offset : Int) ≥ sfsMaxFileSize ∨
      (offset : Int) > (offset + len : Nat)) := by
    simp only [sfsMaxFileSize]
    omega
  unfold sfsIoNolock
  rw [Prog.get_bind_run, Prog.assert_bind_run htype]
  simp only [hend]
  rw [if_neg hvalid]
  by_cases hlen : len = 0
  . subst hlen
    rw [if_pos (show (offset : Int) = (offset + 0 : Nat) from rfl)]
    refine .inl ⟨?_, rfl⟩
    unfold endOf
    split
    . omega
    . omega
  . rw [if_neg (by omega)]
    have hmin : min ((offset + len : Nat) : Int) sfsMaxFileSize = (offset + len : Nat) := by
      simp only [sfsMaxFileSize]
      omega
    rw [hmin]
    cases write with
    | true =>
      simp only [endOf, if_true, Int.toNat_natCast]
      exact .inr ⟨by omega, trivial⟩
    | false =>
      simp only [endOf, Bool.false_eq_true, if_false]
      by_cases hge : s.sin.din.size ≤ offset
      . rw [if_pos (by omega)]
        exact .inl ⟨by omega, rfl⟩
      . rw [if_neg (by omega)]
        have hmin' : (min ((offset + len : Nat) : Int) s.sin.din.size).toNat =
            min (offset + len) s.sin.din.size := by
          omega
        rw [hmin', Int.toNat_natCast]
        exact .inr ⟨by omega, rfl⟩

theorem Serviceable.not_interrupted (h : s.Serviceable write offset len)
    (hlt : offset < s.endOf write offset len) {t : SfsIo}
    : ¬Interrupted write (Moved write) Stopped offset (s.endOf write offset len) (s.withBuf buf) t := by
  intro hinterrupted
  obtain ⟨hblocks, hfree⟩ := hinterrupted.noSpace h.env hlt
  cases write with
  | true => exact absurd hfree (Nat.not_lt.mpr (h.space rfl))
  | false =>
    have hle : nblksOf (s.endOf false offset len) ≤ nblksOf s.sin.din.size :=
      nblksOf_mono (Nat.min_le_right _ _)
    rw [← h.blocks] at hle
    exact absurd hblocks (Nat.not_lt.mpr hle)

theorem MiddleOk.atRun (h : s.MiddleOk write offset len) {t : SfsIo}
    (hat : AtRun write offset (s.withBuf buf) t)
    : RunOk t.sfs.vol t.sin.din (nblksOf offset)
        (s.endOf write offset len / sfsBlksize - nblksOf offset) := by
  cases hat with
  | inl hat =>
    rw [hat.2]
    exact h
  | inr hat =>
    have hmoved := hat.2
    have hblocks : s.sin.din.blocks ≤ t.sin.din.blocks := by
      rw [hmoved.blocks]
      exact Nat.le_max_left _ _
    apply h.imp id
    intro ⟨hend, hsucc⟩
    refine ⟨by omega, fun k hk => ?_⟩
    rw [hmoved.bmap _ (by simp only; omega), hmoved.bmap _ (by simp only; omega)]
    exact hsucc k hk

theorem Serviceable.law_done (h : s.Serviceable write offset len)
    (hlt : offset < s.endOf write offset len) {d : Nat} {t : SfsIo}
    (hmoved : Moved write offset (s.endOf write offset len - offset) d (s.withBuf buf) t)
    : IoLaw write buf offset len s { ret := none, alen := t.alen, buf := t.buf }
        (t.ctx.extend (offset + t.alen)) := by
  have halen : t.alen = s.endOf write offset len - offset := hmoved.alen.trans (Nat.zero_add _)
  have hbuf := hmoved.buf
  have hcontent := hmoved.content
  refine ⟨rfl, ?_, ?_, ?_, fun b => (Frame.extend hmoved.frame).other⟩
  . simp only [halen]
    cases write with
    | true => simp only [endOf, if_true, Nat.add_sub_cancel_left]
    | false => rfl
  . rw [hbuf]
    cases write with
    | true => rfl
    | false =>
      simp only [Bool.false_eq_true, if_false]
      apply Bytes.copy_congr
      intro i hi
      have hi' : offset + i < s.sin.din.size := by
        simp only [endOf, Bool.false_eq_true, if_false] at hi
        omega
      exact (ByteFile.ofBytes_byte hi').symm
  . have hext : offset + t.alen = s.endOf write offset len := by omega
    have hlt32 : s.endOf write offset len < 2 ^ 32 := Nat.lt_of_le_of_lt h.endOf_le (by decide)
    have hfile : (t.ctx.extend (offset + t.alen)).file =
        ByteFile.ofBytes (max s.sin.din.size (s.endOf write offset len)) t.content := by
      rw [file, extend_content, extend_sfs, hext, extend_size hlt32]
      rw [show t.ctx.sin.din.size = s.sin.din.size from hmoved.size]
      rfl
    rw [hfile, hcontent]
    cases write with
    | true =>
      simp only [endOf, if_true, Nat.add_sub_cancel_left, Bytes.drop_zero]
      exact ByteFile.ofBytes_copy h.offset_le _ _ _
    | false =>
      simp only [endOf, Bool.false_eq_true, if_false]
      rw [Nat.max_eq_left (Nat.min_le_right _ _)]
      rfl

/--
If the middle of the request is all right, `sfs_io_nolock` reads and writes as it ought to.
-/
theorem Serviceable.law (h : s.Serviceable write offset len) (hmiddle : s.MiddleOk write offset len)
    (buf : Bytes)
    : (sfsIoNolock buf offset len write s).Sat (fun r s' => IoLaw write buf offset len s r s')
        (fun _ _ => False) (fun _ => False) := by
  cases h.run buf with
  | inl hrun =>
    obtain ⟨hend, hrun⟩ := hrun
    rw [hrun]
    refine ⟨rfl, ?_, ?_, ?_, fun b hfree _ => ⟨hfree, rfl⟩⟩
    . cases write with
      | true =>
        simp only [endOf, if_true] at hend ⊢
        omega
      | false => exact (Nat.sub_eq_zero_of_le hend).symm
    . cases write with
      | true => rfl
      | false =>
        have hcount : s.file.count offset len = 0 := Nat.sub_eq_zero_of_le hend
        simp only [Bool.false_eq_true, if_false, hcount, Bytes.copy_zero]
    . cases write with
      | true =>
        obtain rfl : len = 0 := by
          simp only [endOf, if_true] at hend
          omega
        exact (ByteFile.overwrite_zero h.offset_le _).symm
      | false => rfl
  | inr hrun =>
    obtain ⟨hlt, hrun⟩ := hrun
    have hend := h.endOf_le
    rw [hrun]
    apply (ioTransfer_sat (phased_moved write) h.ok h.mapOk h.div_le hlt ?_ ?_).mono
    . intro r s' hended
      cases hended with
      | done t d hr hs' hmoved =>
        rw [hr, hs']
        exact h.law_done hlt hmoved
      | failed t e hr hs' hinterrupted => exact absurd hinterrupted (h.not_interrupted hlt)
    . exact fun _ _ => id
    . exact fun _ => id
    . intro t hat hn
      obtain ⟨hok, hmap, hle, _⟩ := hat.start h.ok h.mapOk h.div_le
      apply (SfsIo.wholeBlocks_sat hok hmap hle (by omega) (hmiddle.atRun hat)).mono
      . exact fun _ _ => id
      . exact fun _ _ => id
      . intro p ⟨_, _, hmax⟩
        have hdiv : s.endOf write offset len / sfsBlksize ≤ maxBlocks :=
          Nat.div_le_of_le_mul (by rwa [Nat.mul_comm])
        omega
    . exact fun hrange => absurd hrange.1 (by omega)

/--
A request with whole blocks in the middle goes wrong if its three phases do.
-/
theorem Serviceable.not_law (h : s.Serviceable write offset len)
    (hn : nblksOf offset < s.endOf write offset len / sfsBlksize) {Q : SfsIo → Prop}
    (hphases : (SfsIo.phases write offset (s.endOf write offset len) (s.withBuf buf)).Sat
      (fun _ t => Q t) (fun _ _ => True) (fun _ => True))
    (hQ : ∀ t, Q t → ¬IoLaw write buf offset len s { ret := none, alen := t.alen, buf := t.buf }
      (t.ctx.extend (offset + t.alen)))
    : ¬(sfsIoNolock buf offset len write s).Sat (fun r s' => IoLaw write buf offset len s r s')
        (fun _ _ => False) (fun _ => False) := by
  intro hlaw
  cases h.run buf with
  | inl hrun =>
    have hdiv : s.endOf write offset len / sfsBlksize ≤ offset / sfsBlksize :=
      Nat.div_le_div_right hrun.1
    have := nblksOf_div_le offset
    omega
  | inr hrun =>
    rw [hrun.2] at hlaw
    obtain ⟨r, s', _, hlaw, hret⟩ := (hlaw.and (ioTransfer_of_phases hphases)).exists_ok
      (fun _ _ h => h.1) (fun _ h => h.1)
    obtain ⟨t, ht, rfl, rfl⟩ := hret hlaw.ret
    exact hQ t ht hlaw

theorem nblksOf_mul (b : Nat) : nblksOf (b * sfsBlksize) = b := by
  simp only [nblksOf, sfsBlksize]
  omega

theorem offset_le_nblksOf (offset : Nat) : offset ≤ nblksOf offset * sfsBlksize := by
  simp only [nblksOf, sfsBlksize]
  omega

theorem AtRun.blocks_eq {t : SfsIo} (hat : AtRun write offset (s.withBuf buf) t)
    (hle : nblksOf offset ≤ s.sin.din.blocks)
    : t.sin = s.sin ∧ s.sfs.vol.DataOnly t.sfs.vol s.sin.din := by
  cases hat with
  | inl hat =>
    rw [hat.2]
    exact ⟨rfl, Vol.DataOnly.refl _ _⟩
  | inr hat =>
    obtain ⟨hoff, hmoved⟩ := hat
    have hpos : offset + (sfsBlksize - offset % sfsBlksize) = nblksOf offset * sfsBlksize := by
      simp only [nblksOf, sfsBlksize] at hoff ⊢
      omega
    have hblocks : t.sin.din.blocks = s.sin.din.blocks := by
      rw [hmoved.blocks, hpos, nblksOf_mul]
      exact Nat.max_eq_left hle
    exact ⟨hmoved.same hblocks, hmoved.dataOnly hblocks⟩

/--
Where the bytes of the buffer have to end up.
-/
theorem IoLaw.content {r : IoResult} {endpos i : Nat}
    (h : IoLaw true buf offset len s r (t.extend endpos)) (hge : offset ≤ i) (hlt : i < offset + len)
    : t.sfs.vol.content t.sin.din i = buf (i - offset) := by
  have hsize := congrArg ByteFile.size h.file
  have hbyte := congrArg (fun f => f.byte i) h.file
  simp only [if_true] at hsize hbyte
  have hlt' : i < (t.extend endpos).sin.din.size := by
    rw [show (t.extend endpos).sin.din.size = max s.sin.din.size (offset + len) from hsize]
    omega
  rw [ByteFile.overwrite_byte, Bytes.copy_of_mem _ _ hge hlt, SfsCtx.file,
    ByteFile.ofBytes_byte hlt',
    extend_content, extend_sfs] at hbyte
  exact hbyte

/--
A run that leads beyond the end of the file leaves some of the bytes it should write unwritten.
-/
theorem Serviceable.not_law_grow (h : s.Serviceable true offset len)
    (hn : nblksOf offset + 2 ≤ s.endOf true offset len / sfsBlksize)
    (hgrow : s.sin.din.blocks < s.endOf true offset len / sfsBlksize)
    : ¬(sfsIoNolock (fun _ => 255) offset len true s).Sat
        (fun r s' => IoLaw true (fun _ => 255) offset len s r s') (fun _ _ => False)
        (fun _ => False) := by
  have hstart := offset_le_nblksOf offset
  apply h.not_law (by omega) (Q := fun t => t.sin.din.blocks < s.endOf true offset len / sfsBlksize)
  . apply SfsIo.phases_middle_sat (s := s.withBuf _) h.ok h.mapOk h.div_le (by omega)
      (R := fun _ u => u.sin.din.blocks < s.endOf true offset len / sfsBlksize)
    . intro t hat
      obtain ⟨hok, hmap, hle, _⟩ := hat.start h.ok h.mapOk h.div_le
      apply (SfsIo.wholeBlocks_blocks hok hmap hle).imp
      intro _ u hu
      rw [hu, (AtRun.blocks_eq hat h.nblksOf_le).1]
      omega
    . intro t u _ hu
      by_cases hend : s.endOf true offset len % sfsBlksize ≠ 0
      . rw [Prog.when_pos hend]
        unfold SfsIo.partialBlock
        rw [Prog.bind_run_panic (p := .sfsBmapLoadIndex)]
        . trivial
        . simp only [SfsIo.onCtx, Prog.zoom, sfsBmapLoadNolock_panic (s := ⟨u.sfs, u.sin⟩) hu]
      . rw [Prog.when_neg hend]
        exact hu
  . intro t ht hlaw
    have hlast : (s.endOf true offset len / sfsBlksize - 1) * sfsBlksize / sfsBlksize =
        s.endOf true offset len / sfsBlksize - 1 :=
      Nat.mul_div_cancel _ (by decide)
    have hlt : (s.endOf true offset len / sfsBlksize - 1) * sfsBlksize < offset + len := by
      have hmul := Nat.div_mul_le_self (s.endOf true offset len) sfsBlksize
      have hend : s.endOf true offset len = offset + len := rfl
      rw [Nat.sub_mul]
      simp only [sfsBlksize] at hmul hn ⊢
      omega
    have hge : offset ≤ (s.endOf true offset len / sfsBlksize - 1) * sfsBlksize :=
      Nat.le_trans hstart (Nat.mul_le_mul_right _ (by omega))
    have hzero : t.sfs.vol.content t.sin.din
        ((s.endOf true offset len / sfsBlksize - 1) * sfsBlksize) = 0 :=
      Vol.content_of_ge (by rw [hlast]; omega)
    have hbyte := hlaw.content hge hlt
    rw [show t.ctx.sfs.vol.content t.ctx.sin.din _ = 0 from hzero] at hbyte
    exact absurd hbyte (by decide)

/--
The state with the first byte of a block replaced.
-/
def poke (s : SfsCtx) (b : Nat) (x : UInt8) : SfsCtx :=
  { s with sfs := s.sfs.setBlock b (Function.update (s.sfs.dev.data b) 0 x) }

theorem poke_data_self (s : SfsCtx) (b : Nat) (x : UInt8) : (s.poke b x).sfs.vol.data b 0 = x := by
  simp [poke, SfsFs.setBlock, SfsFs.vol]

theorem poke_data_of_ne (s : SfsCtx) {b b' : Nat} (x : UInt8) (h : b' ≠ b)
    : (s.poke b x).sfs.vol.data b' = s.sfs.vol.data b' := by
  simp [poke, SfsFs.setBlock, SfsFs.vol, h]

theorem sameLayout_poke {i : Nat} (h : i < s.sin.din.blocks) (x : UInt8)
    : s.SameLayout (s.poke (s.sfs.vol.bmap s.sin.din i) x) := by
  refine ⟨_, rfl, rfl, rfl, ?_⟩
  intro b hb
  exact poke_data_of_ne s x (hb i h).symm

theorem bmap_poke {i : Nat} (hmap : s.sfs.vol.MapOk s.sin.din) (h : i < s.sin.din.blocks)
    (x : UInt8) (j : Nat)
    : (s.poke (s.sfs.vol.bmap s.sin.din i) x).sfs.vol.bmap s.sin.din j =
        s.sfs.vol.bmap s.sin.din j :=
  Vol.bmap_congr fun _ => poke_data_of_ne s x (hmap.indirect_ne i h).symm

theorem SameLayout.refl (s : SfsCtx) : s.SameLayout s := ⟨_, rfl, Vol.DataOnly.refl _ _⟩

/--
The first byte of block `i` of the file.
-/
theorem content_first {v : Vol} {din : SfsDiskInode} {i : Nat} (h : i < din.blocks)
    : v.content din (i * sfsBlksize) = v.data (v.bmap din i) 0 := by
  have hdiv : i * sfsBlksize / sfsBlksize = i := Nat.mul_div_cancel _ (by decide)
  rw [Vol.content_of_lt (by rwa [hdiv]), hdiv, Nat.mul_mod_left]

/--
The content of the file behind the first phase.
-/
theorem AtRun.content {t : SfsIo} (hat : AtRun write offset (s.withBuf buf) t) {i : Nat}
    (hi : nblksOf offset * sfsBlksize ≤ i)
    : t.content i = s.sfs.vol.content s.sin.din i := by
  cases hat with
  | inl hat =>
    rw [hat.2]
    rfl
  | inr hat =>
    obtain ⟨hoff, hmoved⟩ := hat
    have hpos : offset + (sfsBlksize - offset % sfsBlksize) = nblksOf offset * sfsBlksize := by
      simp only [nblksOf, sfsBlksize] at hoff ⊢
      omega
    rw [hmoved.content]
    cases write with
    | true =>
      simp only [if_true]
      rw [Bytes.copy_of_not_mem _ _ (by omega)]
      rfl
    | false => rfl

theorem AtRun.buf_eq {t : SfsIo} (hat : AtRun true offset (s.withBuf buf) t) : t.buf = buf := by
  cases hat with
  | inl hat => rw [hat.2]
  | inr hat => exact hat.2.buf

theorem AtRun.read_data {t : SfsIo} (hat : AtRun false offset (s.withBuf buf) t)
    (hmap : s.sfs.vol.MapOk s.sin.din) (hle : nblksOf offset ≤ s.sin.din.blocks) (b : Nat)
    : t.sfs.vol.data b 0 = s.sfs.vol.data b 0 := by
  obtain ⟨hsame, hdata⟩ := AtRun.blocks_eq hat hle
  by_cases hb : ∃ i < s.sin.din.blocks, s.sfs.vol.bmap s.sin.din i = b
  . obtain ⟨i, hi, rfl⟩ := hb
    have hcontent : t.content = (s.withBuf buf).content := by
      cases hat with
      | inl hat => rw [hat.2]
      | inr hat => exact hat.2.content
    have hfirst := congrFun hcontent (i * sfsBlksize)
    rw [SfsIo.content, hsame, SfsIo.content, content_first hi, content_first hi,
      hdata.bmap hmap] at hfirst
    exact hfirst
  . rw [hdata.data b fun i hi hbi => hb ⟨i, hi, hbi⟩]

/--
A buffer that leaves the indirect block as it is, should the run hit it, and otherwise holds `c` in
block `k` of the run and `d` in the others.
-/
def probe (s : SfsCtx) (offset k : Nat) (c d : UInt8) : Bytes := fun i =>
  let j := (offset + i) / sfsBlksize - nblksOf offset
  if s.sfs.vol.bmap s.sin.din (nblksOf offset) + j = s.sin.din.indirect then
    s.sfs.vol.data s.sin.din.indirect ((offset + i) % sfsBlksize)
  else if j = k then
    c
  else
    d

theorem probe_apply (s : SfsCtx) {offset i j : Nat} (k : Nat) (c d : UInt8) {off : Nat}
    (hi : offset + i = (nblksOf offset + j) * sfsBlksize + off) (hoff : off < sfsBlksize)
    : s.probe offset k c d i =
        if s.sfs.vol.bmap s.sin.din (nblksOf offset) + j = s.sin.din.indirect then
          s.sfs.vol.data s.sin.din.indirect off
        else if j = k then
          c
        else
          d := by
  have hdiv : (offset + i) / sfsBlksize - nblksOf offset = j := by
    rw [hi]
    simp only [sfsBlksize] at hoff ⊢
    omega
  have hmod : (offset + i) % sfsBlksize = off := by
    rw [hi]
    simp only [sfsBlksize] at hoff ⊢
    omega
  rw [probe, hdiv, hmod]

/--
Writing the probe to the run leaves `d` in the first byte of the block that holds block `k` of the
run according to the block map.
-/
theorem probe_run {n k : Nat} {c d : UInt8} {t u : SfsIo} {f : Request → Nat}
    (hmap : s.sfs.vol.MapOk s.sin.din) (hat : AtRun true offset (s.withBuf buf) t)
    (hbuf : buf = s.probe offset k c d) (hend : nblksOf offset + n ≤ s.sin.din.blocks)
    (hk : k < n)
    (hne : s.sfs.vol.bmap s.sin.din (nblksOf offset + k) ≠
      s.sfs.vol.bmap s.sin.din (nblksOf offset) + k)
    (hd : s.sfs.vol.data (s.sfs.vol.bmap s.sin.din (nblksOf offset + k)) 0 = d)
    (halen : offset + t.alen = nblksOf offset * sfsBlksize)
    (hvol : u.sfs.vol = (t.sfs.vol.requested f).writeRun
      (s.sfs.vol.bmap s.sin.din (nblksOf offset)) n (buf.drop t.alen))
    (hsin : u.sin = s.sin)
    : u.sfs.vol.MapOk u.sin.din ∧ u.content ((nblksOf offset + k) * sfsBlksize) = d := by
  obtain ⟨hsame, hdata⟩ := AtRun.blocks_eq hat (by omega)
  have hlt : nblksOf offset + k < s.sin.din.blocks := by omega
  have hind : ∀ i < s.sin.din.blocks, s.sfs.vol.bmap s.sin.din i ≠ s.sin.din.indirect :=
    hmap.indirect_ne
  have hprobe : ∀ j, ∀ off < sfsBlksize, (buf.drop t.alen).drop (j * sfsBlksize) off =
      if s.sfs.vol.bmap s.sin.din (nblksOf offset) + j = s.sin.din.indirect then
        s.sfs.vol.data s.sin.din.indirect off
      else if j = k then c else d := by
    intro j off hoff
    rw [Bytes.drop_apply, Bytes.drop_apply, hbuf]
    apply probe_apply _ _ _ _ _ hoff
    rw [Nat.add_mul]
    omega
  have hkeep : u.sfs.vol.data s.sin.din.indirect = t.sfs.vol.data s.sin.din.indirect := by
    rw [hvol, Vol.writeRun]
    simp only
    split
    . next hin =>
      obtain ⟨j, hj⟩ := Nat.exists_eq_add_of_le hin.1
      funext off
      by_cases hoff : off < sfsBlksize
      . rw [Bytes.copy_of_mem _ _ (Nat.zero_le _) (by omega), Nat.sub_zero, hj,
          Nat.add_sub_cancel_left, hprobe j off hoff, if_pos hj.symm, ← hj, hdata.data _ hind]
      . rw [Bytes.copy_of_not_mem _ _ (by omega)]
        rfl
    . rfl
  have hbmap : ∀ i, u.sfs.vol.bmap s.sin.din i = s.sfs.vol.bmap s.sin.din i :=
    fun i => Vol.bmap_congr fun _ => hkeep.trans (hdata.data _ hind)
  refine ⟨?_, ?_⟩
  . rw [hsin]
    apply hmap.congr
    . exact fun _ => hkeep.trans (hdata.data _ hind)
    . rw [hvol]
      exact hdata.blocks
    . intro b hb
      rw [hvol] at hb
      rwa [← hdata.free]
  . have hold : t.sfs.vol.data (s.sfs.vol.bmap s.sin.din (nblksOf offset + k)) 0 = d := by
      have hcontent := AtRun.content hat (Nat.mul_le_mul_right sfsBlksize
        (Nat.le_add_right (nblksOf offset) k))
      rw [content_first hlt, hd] at hcontent
      rw [← hcontent, SfsIo.content, hsame, content_first hlt, hdata.bmap hmap]
    rw [SfsIo.content, hsin, content_first hlt, hbmap, hvol, Vol.writeRun]
    simp only
    split
    . next hin =>
      obtain ⟨j, hj⟩ := Nat.exists_eq_add_of_le hin.1
      rw [Bytes.copy_of_mem _ _ (Nat.zero_le _) (by decide), Nat.sub_zero, hj,
        Nat.add_sub_cancel_left, hprobe j 0 (by decide), if_neg, if_neg]
      . intro hjk
        exact hne (hj.trans (by rw [hjk]))
      . rw [← hj]
        exact hind _ hlt
    . exact hold

/--
The last phase does not touch the bytes before it.
-/
theorem tail_sat {u : SfsIo} {endpos i : Nat} (hok : u.sfs.Ok) (hmap : u.sfs.vol.MapOk u.sin.din)
    (hle : endpos / sfsBlksize ≤ u.sin.din.blocks)
    : (Prog.when (endpos % sfsBlksize ≠ 0)
        (SfsIo.partialBlock write (endpos / sfsBlksize) (endpos % sfsBlksize) 0) u).Sat
        (fun _ t => (i < endpos / sfsBlksize * sfsBlksize → t.content i = u.content i) ∧
          (i < u.alen → t.buf i = u.buf i)) (fun _ _ => True) (fun _ => True) := by
  by_cases hend : endpos % sfsBlksize ≠ 0
  . have hmod : endpos % sfsBlksize < sfsBlksize := Nat.mod_lt _ (by decide)
    rw [Prog.when_pos hend]
    apply (SfsIo.partialBlock_sat hok hmap hle (Nat.add_zero _).symm (by decide) (by omega)
      (by omega)).mono
    . intro _ t hmoved
      rw [hmoved.content, hmoved.buf]
      cases write with
      | true =>
        simp only [if_true, implies_true, and_true]
        exact fun hi => Bytes.copy_of_not_mem _ _ (.inl hi)
      | false =>
        simp only [Bool.false_eq_true, if_false, implies_true, true_and]
        exact fun hi => Bytes.copy_of_not_mem _ _ (.inl hi)
    . exact fun _ _ _ => trivial
    . exact fun _ _ => trivial
  . rw [Prog.when_neg hend]
    exact ⟨fun _ => rfl, fun _ => rfl⟩

theorem block_lt_endOf {k : Nat} (hk : nblksOf offset + k < s.endOf write offset len / sfsBlksize)
    : offset ≤ (nblksOf offset + k) * sfsBlksize ∧
        (nblksOf offset + k) * sfsBlksize < s.endOf write offset len := by
  refine ⟨Nat.le_trans (offset_le_nblksOf offset) (Nat.mul_le_mul_right _ (by omega)), ?_⟩
  have := Nat.div_mul_le_self (s.endOf write offset len) sfsBlksize
  simp only [sfsBlksize] at hk this ⊢
  omega

/--
Writing to a run that is not where the block map says stores some of its bytes elsewhere.
-/
theorem Serviceable.not_law_probe (h : s.Serviceable true offset len) {k : Nat}
    (hend : s.endOf true offset len / sfsBlksize ≤ s.sin.din.blocks)
    (hk : nblksOf offset + k < s.endOf true offset len / sfsBlksize)
    (hne : s.sfs.vol.bmap s.sin.din (nblksOf offset + k) ≠
      s.sfs.vol.bmap s.sin.din (nblksOf offset) + k) {c d : UInt8}
    (hd : s.sfs.vol.data (s.sfs.vol.bmap s.sin.din (nblksOf offset + k)) 0 = d)
    (hc : (if s.sfs.vol.bmap s.sin.din (nblksOf offset) + k = s.sin.din.indirect then
      s.sfs.vol.data s.sin.din.indirect 0 else c) ≠ d)
    : ¬(sfsIoNolock (s.probe offset k c d) offset len true s).Sat
        (fun r s' => IoLaw true (s.probe offset k c d) offset len s r s') (fun _ _ => False)
        (fun _ => False) := by
  have hpos := block_lt_endOf hk
  have hlt : k < s.endOf true offset len / sfsBlksize - nblksOf offset := by omega
  have hbefore : (nblksOf offset + k) * sfsBlksize <
      s.endOf true offset len / sfsBlksize * sfsBlksize :=
    Nat.mul_lt_mul_of_pos_right hk (by decide)
  have hend' : nblksOf offset + (s.endOf true offset len / sfsBlksize - nblksOf offset) ≤
      s.sin.din.blocks := by
    omega
  apply h.not_law (by omega) (Q := fun t => t.content ((nblksOf offset + k) * sfsBlksize) = d)
  . apply SfsIo.phases_middle_sat (s := s.withBuf _) h.ok h.mapOk h.div_le (by omega)
      (R := fun _ u => u.sfs.Ok ∧ u.sin = s.sin ∧ u.sfs.vol.MapOk u.sin.din ∧
        u.content ((nblksOf offset + k) * sfsBlksize) = d)
    . intro t hat
      obtain ⟨hok, hmap, _, halen⟩ := hat.start h.ok h.mapOk h.div_le
      obtain ⟨hsame, hdata⟩ := AtRun.blocks_eq hat h.nblksOf_le
      have hstart : nblksOf offset < t.sin.din.blocks := by
        rw [hsame]
        omega
      apply (SfsIo.wholeBlocks_write hok hmap hstart).imp
      intro _ u ⟨hok', hsin, _, _, f, hvol⟩
      rw [AtRun.buf_eq hat, hsame, hdata.bmap h.mapOk] at hvol
      exact ⟨hok', hsin.trans hsame, probe_run h.mapOk hat rfl hend' hlt hne hd
        (halen.trans (Nat.add_zero _)) hvol (hsin.trans hsame)⟩
    . intro t u _ ⟨hok, hsin, hmap, hcontent⟩
      apply (tail_sat hok hmap (by rwa [hsin])).imp
      intro _ t' ht'
      rw [ht'.1 hbefore, hcontent]
  . intro t ht hlaw
    have hbyte := hlaw.content hpos.1 hpos.2
    rw [show t.ctx.sfs.vol.content t.ctx.sin.din _ = d from ht,
      probe_apply s k c d ((Nat.add_sub_of_le hpos.1).trans (Nat.add_zero _).symm) (by decide),
      if_pos rfl] at hbyte
    exact hc hbyte.symm

/--
Reading a run that is not where the block map says finds some bytes elsewhere.
-/
theorem Serviceable.not_law_read (h : s.Serviceable false offset len) {k : Nat}
    (hk : nblksOf offset + k < s.endOf false offset len / sfsBlksize)
    (hne : s.sfs.vol.data (s.sfs.vol.bmap s.sin.din (nblksOf offset + k)) 0 ≠
      s.sfs.vol.data (s.sfs.vol.bmap s.sin.din (nblksOf offset) + k) 0)
    : ¬(sfsIoNolock buf offset len false s).Sat
        (fun r s' => IoLaw false buf offset len s r s') (fun _ _ => False)
        (fun _ => False) := by
  have hpos := block_lt_endOf hk
  have hle : s.endOf false offset len / sfsBlksize ≤ s.sin.din.blocks := by
    rw [h.blocks]
    exact Nat.le_trans (nblksOf_div_le _) (nblksOf_mono (Nat.min_le_right _ _))
  have hindex : (nblksOf offset + k) * sfsBlksize = nblksOf offset * sfsBlksize + k * sfsBlksize :=
    Nat.add_mul _ _ _
  have hlt : k * sfsBlksize <
      (s.endOf false offset len / sfsBlksize - nblksOf offset) * sfsBlksize :=
    Nat.mul_lt_mul_of_pos_right (by omega) (by decide)
  apply h.not_law (by omega) (Q := fun t => t.buf ((nblksOf offset + k) * sfsBlksize - offset) =
    s.sfs.vol.data (s.sfs.vol.bmap s.sin.din (nblksOf offset) + k) 0)
  . apply SfsIo.phases_middle_sat (s := s.withBuf _) h.ok h.mapOk h.div_le (by omega)
      (R := fun _ u => u.sfs.Ok ∧ u.sin = s.sin ∧ u.sfs.vol.MapOk u.sin.din ∧
        (nblksOf offset + k) * sfsBlksize - offset < u.alen ∧
        u.buf ((nblksOf offset + k) * sfsBlksize - offset) =
          s.sfs.vol.data (s.sfs.vol.bmap s.sin.din (nblksOf offset) + k) 0)
    . intro t hat
      obtain ⟨hok, hmap, _, halen⟩ := hat.start h.ok h.mapOk h.div_le
      obtain ⟨hsame, hdata⟩ := AtRun.blocks_eq hat h.nblksOf_le
      have hstart : nblksOf offset < t.sin.din.blocks := by
        rw [hsame]
        omega
      have halen' : offset + t.alen = nblksOf offset * sfsBlksize :=
        halen.trans (Nat.add_zero _)
      have hi : (nblksOf offset + k) * sfsBlksize - offset = t.alen + k * sfsBlksize := by omega
      apply (SfsIo.wholeBlocks_read hok hmap hstart).imp
      rintro _ u ⟨hok', hsin, halen', hbuf, f, hvol⟩
      refine ⟨hok', hsin.trans hsame, ?_, by omega, ?_⟩
      . rw [hvol, hsin]
        exact ⟨hmap.1, hmap.2, hmap.3, hmap.4, hmap.5, hmap.6⟩
      . rw [hbuf, hi, Bytes.copy_of_mem _ _ (Nat.le_add_right _ _) (Nat.add_lt_add_left hlt _),
          Nat.add_sub_cancel_left, Vol.readRun, Nat.mul_div_cancel _ (by decide),
          Nat.mul_mod_left, hsame, hdata.bmap h.mapOk]
        exact AtRun.read_data hat h.mapOk h.nblksOf_le _
    . rintro t u _ ⟨hok, hsin, hmap, halen, hbuf⟩
      apply (tail_sat hok hmap (by rwa [hsin])).imp
      intro _ t' ht'
      rw [ht'.2 halen, hbuf]
  . intro t ht hlaw
    have hfilled := congrFun hlaw.filled ((nblksOf offset + k) * sfsBlksize - offset)
    have hsize : (nblksOf offset + k) * sfsBlksize < s.sin.din.size :=
      Nat.lt_of_lt_of_le hpos.2 (Nat.min_le_right _ _)
    have hcount : (nblksOf offset + k) * sfsBlksize - offset < 0 + s.file.count offset len := by
      have : s.file.count offset len = s.endOf false offset len - offset := rfl
      omega
    simp only [Bool.false_eq_true, if_false] at hfilled
    rw [Bytes.copy_of_mem _ _ (Nat.zero_le _) hcount, Nat.sub_zero, Bytes.drop_apply,
      Nat.add_sub_of_le hpos.1, file, ByteFile.ofBytes_byte hsize,
      content_first (by omega), ht] at hfilled
    exact hne hfilled.symm

end

/--
`sfs_io_nolock` reads and overwrites the content of a file as an array of bytes, whatever that
content and the buffer are, if and only if the middle of the request is all right.
-/
theorem sfsIoNolock_law_iff {write : Bool} {offset len : Nat}
    (h : s.Serviceable write offset len)
    : (∀ t, s.SameLayout t → ∀ buf, (sfsIoNolock buf offset len write t).Sat
        (fun r t' => IoLaw write buf offset len t r t') (fun _ _ => False) (fun _ => False)) ↔
      s.MiddleOk write offset len := by
  constructor
  . intro hlaw
    by_contra hmiddle
    obtain ⟨hn, hrun⟩ := not_or.mp hmiddle
    have hstart := h.nblksOf_le
    by_cases hgrow : s.sin.din.blocks < s.endOf write offset len / sfsBlksize
    . cases write with
      | true => exact h.not_law_grow (by omega) hgrow (hlaw s (SameLayout.refl s) _)
      | false =>
        have : s.endOf false offset len / sfsBlksize ≤ s.sin.din.blocks := by
          rw [h.blocks]
          exact Nat.le_trans (nblksOf_div_le _) (nblksOf_mono (Nat.min_le_right _ _))
        omega
    . have hex : ∃ k, nblksOf offset + k < s.endOf write offset len / sfsBlksize ∧
          s.sfs.vol.bmap s.sin.din (nblksOf offset + k) ≠
            s.sfs.vol.bmap s.sin.din (nblksOf offset) + k := by
        by_contra hnone
        apply hrun
        refine ⟨by omega, fun k hk => ?_⟩
        by_contra hne
        exact hnone ⟨k, by omega, hne⟩
      obtain ⟨k, hk, hne⟩ := hex
      have hlt : nblksOf offset + k < s.sin.din.blocks := by omega
      cases write with
      | true =>
        -- What the run stores of block `k` differs from what the block of the map already holds.
        obtain ⟨c, hc⟩ : ∃ c, c = if s.sfs.vol.bmap s.sin.din (nblksOf offset) + k =
          s.sin.din.indirect then s.sfs.vol.data s.sin.din.indirect 0 else 0 := ⟨_, rfl⟩
        have hlayout := sameLayout_poke hlt (c + 1)
        refine Serviceable.not_law_probe (h.of_sameLayout hlayout) (c := 0) (d := c + 1)
          (Nat.not_lt.mp hgrow) hk ?_ ?_ ?_ (hlaw _ hlayout _)
        . exact (bmap_poke h.mapOk hlt _ _).trans_ne (hne.trans_eq
            (congrArg (· + k) (bmap_poke h.mapOk hlt _ _).symm))
        . exact (congrArg (fun b => Vol.data _ b 0) (bmap_poke h.mapOk hlt _ _)).trans
            (poke_data_self s _ _)
        . have hkeep := poke_data_of_ne s (c + 1) (h.mapOk.indirect_ne _ hlt).symm
          have hbmap := bmap_poke h.mapOk hlt (c + 1) (nblksOf offset)
          simp only [hbmap, show (s.poke _ (c + 1)).sin = s.sin from rfl, hkeep, ← hc]
          grind
      | false =>
        have hlayout := sameLayout_poke hlt
          (s.sfs.vol.data (s.sfs.vol.bmap s.sin.din (nblksOf offset) + k) 0 + 1)
        refine Serviceable.not_law_read (h.of_sameLayout hlayout) hk ?_ (hlaw _ hlayout Bytes.zero)
        have hbmap := bmap_poke h.mapOk hlt
          (s.sfs.vol.data (s.sfs.vol.bmap s.sin.din (nblksOf offset) + k) 0 + 1)
        simp only [show ∀ b x, (s.poke b x).sin = s.sin from fun _ _ => rfl, hbmap, poke_data_self,
          poke_data_of_ne s _ hne.symm]
        grind
  . intro hmiddle t ht buf
    exact (h.of_sameLayout ht).law (hmiddle.of_sameLayout h.mapOk ht) buf

/--
A new file system of 16 blocks, with an empty file whose inode is in block 3.
-/
def newFile : SfsCtx where
  sfs := SfsFs.new 16 4
  sin := { din := SfsDiskInode.new sfsTypeFile sfsTypeFile_lt, ino := 3, dirty := false, reclaimCount := 1 }

theorem newFile_serviceable {len : Nat} (h : nblksOf len ≤ 12) (hlen : len ≤ maxBlocks * sfsBlksize)
    : newFile.Serviceable true 0 len := by
  refine ⟨SfsFs.new_ok (by decide) (by decide), Vol.mapOk_new _ _, rfl, rfl, rfl, Nat.le_refl _,
    by omega, ?_⟩
  intro _
  rw [Nat.zero_add, show newFile.sfs.vol.free = List.range' 4 12 from SfsFs.new_free 16 4,
    List.length_range', SfsDiskInode.needTo, if_neg fun hlt => absurd hlt.1 (Nat.not_lt.mpr h)]
  exact Nat.le_trans (Nat.sub_le _ _) h

theorem sfsIoNolock_law_iff_newFile
    : newFile.Serviceable true 0 100 ∧
      ((∀ t, newFile.SameLayout t → ∀ buf, (sfsIoNolock buf (0 : Nat) 100 true t).Sat
          (fun r t' => IoLaw true buf 0 100 t r t') (fun _ _ => False) (fun _ => False)) ↔
        newFile.MiddleOk true 0 100) :=
  have h := @newFile_serviceable 100 (by decide) (by decide)
  ⟨h, sfsIoNolock_law_iff h⟩

/--
Writing two whole blocks to an empty file appends only the first of them.
-/
theorem not_sfsIoNolock_law
    : ¬∀ (s : SfsCtx) (write : Bool) (offset len : Nat) (buf : Bytes),
        s.Serviceable write offset len →
        (sfsIoNolock buf offset len write s).Sat (fun r s' => IoLaw write buf offset len s r s')
          (fun _ _ => False) (fun _ => False) := by
  have hserviceable : newFile.Serviceable true 0 8192 :=
    newFile_serviceable (by decide) (by decide)
  have hend : newFile.endOf true 0 8192 / sfsBlksize = 2 := rfl
  simp only [not_forall]
  refine ⟨newFile, true, 0, 8192, fun _ => 255, hserviceable, hserviceable.not_law_grow ?_ ?_⟩
  . rw [hend]
    decide
  . rw [hend]
    decide

end SfsCtx

end Ucore

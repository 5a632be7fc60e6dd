import Ucore.Kern.Fs.Sfs.NewFs
import Ucore.Kern.Fs.Sfs.SfsInode.Lemmas.Truncfile
import Ucore.Lib.Run

/-!
This module contains the runs of `sfs_truncfile` on a file: which bytes it keeps, and when the bytes that it adds are
zero.
-/

namespace Ucore
namespace SfsCtx

variable {s s' : SfsCtx} {len : Nat}

/--
Byte `i` of the blocks of the file, whether or not it is part of the file.
-/
def byte (s : SfsCtx) (i : Nat) : UInt8 := s.sfs.vol.content s.sin.din i

/--
An inode of a file, with as many blocks as its size takes.
-/
structure Regular (s : SfsCtx) : Prop where
  ok : s.sfs.Ok
  mapOk : s.sfs.vol.MapOk s.sin.din
  type : s.sin.din.type = sfsTypeFile
  blocks : s.sin.din.blocks = nblksOf s.sin.din.size

/--
What `sfs_truncfile` ought to do.
-/
structure TruncLaw (s : SfsCtx) (len : Nat) (s' : SfsCtx) : Prop where
  kept : ∀ i < min s.sin.din.size len, s'.byte i = s.byte i
  zero : ∀ i, s.sin.din.size ≤ i → i < len → s'.byte i = 0
  size : s'.sin.din.size = len
  blocks : s'.sin.din.blocks = nblksOf len
  mapped : ∀ i < maxBlocks, s'.sfs.vol.bmap s'.sin.din i ≠ 0 ↔ i < nblksOf len

/--
A call without an error.
-/
def truncStep (s : SfsCtx) (len : Nat) : Option SfsCtx :=
  match sfsTruncfile len s with
  | .ok _ s' => some s'
  | _ => none

/--
The lengths that the block map can name.
-/
def InMap (_ : SfsCtx) (len : Nat) : Prop := len ≤ maxBlocks * sfsBlksize

/--
The bytes behind the end of the file that become part of it are zero.
-/
def ZeroUpTo (s : SfsCtx) (len : Nat) : Prop := ∀ i, s.sin.din.size ≤ i → i < len → s.byte i = 0

/--
What `sfs_truncfile` does.
-/
structure Resized (s : SfsCtx) (len : Nat) (s' : SfsCtx) : Prop where
  regular : s'.Regular
  size : s'.sin.din.size = len
  byte : ∀ i < len, s'.byte i = s.byte i

theorem nblksOf_le (h : len ≤ maxBlocks * sfsBlksize) : nblksOf len ≤ maxBlocks := by
  simp only [nblksOf, maxBlocks, sfsNdirect, sfsBlkNentry, sfsBlksize] at h ⊢
  omega

theorem div_lt_nblksOf {i : Nat} (h : i < len) : i / sfsBlksize < nblksOf len := by
  simp only [nblksOf, sfsBlksize]
  omega

/--
The end of `sfs_truncfile`.
-/
theorem Regular.resized (h : s.Regular) (hlen : len < 2 ^ 32) (hframe : Frame s s')
    (hblocks : s'.sin.din.blocks = nblksOf len) (hbyte : ∀ i < len, s'.byte i = s.byte i)
    : Resized s len ((s'.setDin (s'.sin.din.setSize len)).setDirty true) := by
  have hframe' : Frame s ((s'.setDin (s'.sin.din.setSize len)).setDirty true) := hframe.setSize
  have hsize : (s'.sin.din.setSize len).size = len := Nat.mod_eq_of_lt hlen
  exact ⟨⟨hframe'.ok, hframe'.mapOk, hframe'.type.trans h.type, hblocks.trans (congrArg nblksOf hsize.symm)⟩, hsize,
    hbyte⟩

/--
`sfs_truncfile` keeps all bytes, also those that were behind the end of the file.
-/
theorem Regular.sfsTruncfile (h : s.Regular) (hlen : InMap s len)
    : (SfsCtx.sfsTruncfile len s).Sat (fun _ s' => Resized s len s') (fun _ _ => True) (fun _ => False) := by
  have hblocks := nblksOf_le hlen
  have hmax : ¬((len : Int) < 0 ∨ (len : Int) > sfsMaxFileSize) := by
    simp only [InMap, maxBlocks, sfsNdirect, sfsBlkNentry, sfsBlksize, sfsMaxFileSize] at hlen ⊢
    omega
  have hsmall : len < 2 ^ 32 := by
    simp only [InMap, maxBlocks, sfsNdirect, sfsBlkNentry, sfsBlksize] at hlen
    omega
  unfold SfsCtx.sfsTruncfile
  rw [Prog.get_bind_run, if_neg hmax]
  simp only [Int.toNat_natCast, Int.natCast_inj]
  by_cases hsame : s.sin.din.size = len
  . rw [if_pos hsame]
    have heq : nblksOf len = s.sin.din.blocks := hsame ▸ h.blocks.symm
    simp only [Prog.assert, heq, if_true]
    exact ⟨h, hsame, fun _ _ => rfl⟩
  . rw [if_neg hsame]
    by_cases hgrow : s.sin.din.blocks < nblksOf len
    . rw [if_pos hgrow]
      apply Prog.sat_bind (growLoop_sat h.ok h.mapOk)
      . intro _ s' hgrew
        have hblocks' : s'.sin.din.blocks = nblksOf len := by
          rw [hgrew.blocks]
          omega
        rw [Prog.get_bind_run, Prog.assert_bind_run hblocks', Prog.modify_run]
        refine h.resized hsmall hgrew.frame hblocks' ?_
        intro i _
        exact congrFun hgrew.content i
      . exact fun _ _ _ => trivial
      . rintro p ⟨-, hlt, -⟩
        omega
    . rw [if_neg hgrow]
      apply Prog.sat_bind (shrinkLoop_sat h.ok h.mapOk (Nat.sub_le _ _))
      . intro _ s' hshrank
        have hrest : s.sin.din.blocks - (s.sin.din.blocks - nblksOf len) = nblksOf len := by omega
        have hblocks' : s'.sin.din.blocks = nblksOf len := hshrank.blocks.trans hrest
        rw [Prog.get_bind_run, Prog.assert_bind_run hblocks', Prog.modify_run]
        refine h.resized hsmall hshrank.frame hblocks' ?_
        intro i hi
        rw [byte, byte, Vol.content, Vol.content, hshrank.block, if_pos]
        rw [hrest]
        exact div_lt_nblksOf hi
      . exact fun _ _ _ => trivial
      . exact fun _ => False.elim

theorem Resized.law_iff (h : Resized s len s') : TruncLaw s len s' ↔ s.ZeroUpTo len := by
  have hblocks : s'.sin.din.blocks = nblksOf len := h.regular.blocks.trans (congrArg nblksOf h.size)
  constructor
  . intro hlaw i hle hlt
    rw [← h.byte i hlt, hlaw.zero i hle hlt]
  . intro hzero
    refine ⟨fun i hi => h.byte i (by omega), ?_, h.size, hblocks, ?_⟩
    . intro i hle hlt
      rw [h.byte i hlt, hzero i hle hlt]
    . intro i hi
      constructor
      . intro hne
        by_contra hge
        exact hne (h.regular.mapOk.zero i hi (by omega))
      . intro hlt
        exact (h.regular.mapOk.inUse i (by omega)).ne_zero

/--
In every run of calls without errors, a call does what it ought to do exactly if the bytes behind the end of the file
that become part of it are zero.
-/
theorem truncLaw_iff (h : s.Regular)
    : ∀ lens t, Run.Admits truncStep InMap s lens → Run.exec truncStep s lens = some t →
        ∀ len t', InMap t len → t.truncStep len = some t' → (TruncLaw t len t' ↔ t.ZeroUpTo len) := by
  have hstep {t t' : SfsCtx} {len : Nat} (ht : t.Regular) (hlen : InMap t len) (hstep : t.truncStep len = some t')
      : Resized t len t' := by
    have hsat := ht.sfsTruncfile hlen
    rw [truncStep] at hstep
    split at hstep
    . rename_i t'' heq
      rw [heq] at hsat
      exact Option.some_inj.mp hstep ▸ hsat
    . exact nomatch hstep
  intro lens t hlegal hexec len t' hlen htrunc
  have ht : t.Regular := Run.exec_invariant_of_admits (I := Regular)
    (fun t len t' ht hlen htrunc => (hstep ht hlen htrunc).regular) h hlegal hexec
  exact (hstep ht hlen htrunc).law_iff

/--
A file of 100 bytes in block 4, all of which are 7.
-/
def sevens : SfsCtx where
  sfs := { SfsFs.new 16 5 with dev := { dBlocks := 16, data := fun b => if b = 4 then fun _ => 7 else Bytes.zero } }
  sin :=
    { din :=
        (((SfsDiskInode.new sfsTypeFile sfsTypeFile_lt).setDirect ⟨0, zero_lt_sfsNdirect⟩ 4).setBlocks 1).setSize 100
      ino := 3
      dirty := false
      reclaimCount := 1 }

theorem sevens_regular : sevens.Regular := by
  have hok : (SfsFs.new 16 5).Ok := SfsFs.new_ok (by decide) (by decide)
  refine ⟨⟨hok.1, hok.2, hok.3, hok.4, hok.5, hok.6⟩, Vol.mapOk_consecutive 4 (by decide) rfl (by decide) ?_,
    rfl, rfl⟩
  intro i hi
  obtain rfl : i = 0 := Nat.lt_one_iff.mp hi
  exact SfsFs.new_inUse (by decide) (by decide) (by decide)

theorem truncLaw_iff_sevens
    : sevens.Regular ∧ ∀ lens t, Run.Admits truncStep InMap sevens lens → Run.exec truncStep sevens lens = some t →
        ∀ len t', InMap t len → t.truncStep len = some t' → (TruncLaw t len t' ↔ t.ZeroUpTo len) :=
  ⟨sevens_regular, truncLaw_iff sevens_regular⟩

/--
A file that shrinks and grows again gets its old bytes back.
-/
theorem not_truncLaw
    : ¬∀ s : SfsCtx, s.Regular → ∀ lens t, Run.Admits truncStep InMap s lens → Run.exec truncStep s lens = some t →
        ∀ len t', InMap t len → t.truncStep len = some t' → TruncLaw t len t' := by
  intro hall
  have hshrink : sevens.truncStep 50 = some ((sevens.setDin (sevens.sin.din.setSize 50)).setDirty true) := rfl
  have hexec := Option.bind_eq_some_iff.mpr ⟨_, hshrink, rfl⟩
  have hlegal : Run.Admits truncStep InMap sevens [50] := ⟨by unfold InMap; decide, fun _ _ => trivial⟩
  have hlaw := hall sevens sevens_regular [50] _ hlegal hexec 100 _ (by unfold InMap; decide) rfl
  have hseven : (7 : UInt8) = 0 := hlaw.zero 60 (by decide) (by decide)
  exact absurd hseven (by decide)

end SfsCtx
end Ucore

import Mathlib
import Ucore.Kern.Fs.Sfs.SfsNamefile.Lemmas.Tree

/-!
This module contains what the functions that bring the inodes of a tree into memory, and let them go again, do to their
reference counts.
-/

namespace Ucore

open Faults (cost)

/--
An inode that is written to a block can be read from it.
-/
theorem SfsDiskInode.ofBytes_copy (b : Bytes) (din : SfsDiskInode)
    : SfsDiskInode.ofBytes (b.copy 0 din.toBytes SfsDiskInode.byteSize) = din := by
  have hfield {k w v : Nat} (hk : k + w ≤ SfsDiskInode.byteSize) (hv : v < 256 ^ w)
      (hbytes : ∀ i < w, din.toBytes (k + i) = Bytes.ofNat v i)
      : ((b.copy 0 din.toBytes SfsDiskInode.byteSize).drop k).toNat w = v := by
    rw [← Bytes.toNat_ofNat_of_lt hv]
    apply Bytes.toNat_congr
    intro i hi
    rw [Bytes.drop_apply, Bytes.copy_of_mem _ _ (Nat.zero_le _) (by omega), Nat.sub_zero, hbytes i hi]
  have hsize := @hfield 0 4 din.size (by decide) din.size_lt (by intro i hi; simp [toBytes, hi])
  rw [Bytes.drop_zero] at hsize
  have htype := @hfield 4 2 din.type (by decide) din.type_lt
    (by intro i hi; simp [toBytes, show 4 + i < 6 by omega])
  have hnlinks := @hfield 6 2 din.nlinks (by decide) din.nlinks_lt
    (by intro i hi; simp [toBytes, show 6 + i < 8 by omega, show ¬6 + i < 4 by omega, show ¬6 + i < 6 by omega])
  have hblocks := @hfield 8 4 din.blocks (by decide) din.blocks_lt
    (by
      intro i hi
      simp [toBytes, show 8 + i < 12 by omega, show ¬8 + i < 4 by omega, show ¬8 + i < 6 by omega])
  have hdirect (j : Fin sfsNdirect) := @hfield (12 + 4 * j) 4 (din.direct j)
    (by have := j.isLt; simp only [SfsDiskInode.byteSize, sfsNdirect] at *; omega) (din.direct_lt j)
    (by
      intro i hi
      have hj : (12 + 4 * j.val + i - 12) / 4 = j.val := by omega
      have hi' : (12 + 4 * j.val + i - 12) % 4 = i := by omega
      rw [toBytes, if_neg (by omega), if_neg (by omega), if_neg (by omega), if_neg (by omega),
        dif_pos (by rw [hj]; exact j.isLt)]
      simp only [hj, hi'])
  have hindirect := @hfield 60 4 din.indirect (by decide) din.indirect_lt
    (by
      intro i hi
      rw [toBytes, if_neg (by omega), if_neg (by omega), if_neg (by omega), if_neg (by omega),
        dif_neg (by simp only [sfsNdirect]; omega)]
      rw [Nat.add_sub_cancel_left])
  cases din with
  | mk size type nlinks blocks direct indirect =>
    simp only [ofBytes, mk.injEq]
    exact ⟨hsize, htype, hnlinks, hblocks, funext hdirect, hindirect⟩

namespace SfsMount

variable {T : DirTree} {s t u : SfsMount} {d node : Nat} {n : SfsMemInode}

theorem Consistent.like_refl (hs : Consistent T s) : Like T s s :=
  ⟨hs.ok, rfl, rfl, fun _ _ => rfl, fun _ _ => rfl, hs.mem⟩

theorem Consistent.requested (hs : Consistent T s) (c : Request → Nat)
    : Acts T 0 s { s with sfs := s.sfs.requested c } where
  like := ⟨hs.ok.requested c, rfl, rfl, fun _ _ => rfl, fun _ _ => rfl, fun d hd n hn =>
    have hmem := hs.mem d hd n hn
    ⟨hmem.ino, hmem.refCount, hmem.openCount, hmem.reclaimCount, hmem.clean⟩⟩
  never := by
    intro hnever
    rw [SfsFs.requested, hnever, Faults.never_drop]
  refs := fun d => (Int.add_zero _).symm
  opens := fun d => rfl

@[simp]
theorem setInode_self (s : SfsMount) (d : Nat) (n : SfsMemInode) : (s.setInode d n).inodes d = some n :=
  Function.update_self ..

theorem setInode_of_ne (s : SfsMount) {d d' : Nat} (n : SfsMemInode) (h : d' ≠ d)
    : (s.setInode d n).inodes d' = s.inodes d' :=
  Function.update_of_ne h ..

theorem setInode_setInode (s : SfsMount) (d : Nat) (n n' : SfsMemInode)
    : (s.setInode d n).setInode d n' = s.setInode d n' := by
  simp only [SfsMount.setInode, Function.update_idem]

theorem din_of_some (hn : s.inodes d = some n) : s.din d = n.sin.din := by
  simp only [din, hn]

theorem din_congr (hinode : t.inodes d = s.inodes d) (hblock : t.sfs.dev.data d = s.sfs.dev.data d)
    : t.din d = s.din d := by
  simp only [din, hinode, hblock]

theorem refs_of_some (hn : s.inodes d = some n) : s.refs d = n.refCount := by
  simp only [refs, hn]

theorem opens_of_some (hn : s.inodes d = some n) : s.opens d = n.openCount := by
  simp only [opens, hn]

theorem deref_run (hn : s.inodes d = some n) : deref d s = .ok n s := by
  simp only [deref, hn]

/--
The counts of an inode in memory, or of one that is not, are replaced.
-/
theorem Consistent.setInode (hs : Consistent T s) {n' : SfsMemInode} (hdin : n'.sin.din = s.din d)
    (hopen : n'.openCount = s.opens d) (hmem : T.dirs d → s.MemOk d n')
    : Acts T (Pi.single d (n'.refCount - s.refs d)) s (s.setInode d n') where
  like := by
    refine ⟨hs.ok, rfl, rfl, fun _ _ => rfl, ?_, ?_⟩
    . intro d' hd'
      by_cases heq : d' = d
      . subst heq
        rw [din_of_some (setInode_self ..), hdin]
      . rw [din, din, setInode_of_ne _ _ heq]
        rfl
    . intro d' hd' m hm
      by_cases heq : d' = d
      . subst heq
        rw [setInode_self] at hm
        obtain rfl := Option.some_inj.mp hm
        have hok := hmem hd'
        exact ⟨hok.ino, hok.refCount, hok.openCount, hok.reclaimCount, hok.clean⟩
      . rw [setInode_of_ne _ _ heq] at hm
        have hok := hs.mem d' hd' m hm
        exact ⟨hok.ino, hok.refCount, hok.openCount, hok.reclaimCount, hok.clean⟩
  never := id
  refs := by
    intro d'
    by_cases heq : d' = d
    . subst heq
      rw [refs_of_some (setInode_self ..), Pi.single_eq_same]
      omega
    . rw [refs, refs, setInode_of_ne _ _ heq, Pi.single_eq_of_ne heq, Int.add_zero]
  opens := by
    intro d'
    by_cases heq : d' = d
    . subst heq
      rw [opens_of_some (setInode_self ..), hopen]
    . rw [opens, opens, setInode_of_ne _ _ heq]

theorem Consistent.dirOk (hs : Consistent T s) (hd : T.dirs d) (hn : s.inodes d = some n)
    : SfsCtx.DirOk ⟨s.sfs, n.sin⟩ ∧ SfsCtx.slots ⟨s.sfs, n.sin⟩ = (s.ctx d).slots := by
  have hdir := hs.dir d hd
  have hdin := din_of_some hn
  refine ⟨⟨hdir.ok, ?_, ?_⟩, ?_⟩
  . rw [← hdin]
    exact hdir.mapOk
  . rw [← hdin]
    exact hdir.type
  . simp only [SfsCtx.slots, ctx, hdin]
    rfl

/--
Reading from a directory changes nothing in memory.
-/
theorem Consistent.onNode_read {α : Type} {m : Prog Errno Panic SfsCtx α} {R : α → Prop} {F : Errno → Prop}
    (hs : Consistent T s) (hn : s.inodes d = some n)
    (h : (m ⟨s.sfs, n.sin⟩).Sat (fun a t => R a ∧ SfsCtx.Requested ⟨s.sfs, n.sin⟩ t)
      (fun e t => SfsCtx.Requested ⟨s.sfs, n.sin⟩ t ∧ F e) (fun _ => False))
    : (onNode d m s).Sat (fun a t => R a ∧ t.inodes = s.inodes ∧ Acts T 0 s t)
        (fun e t => F e ∧ t.inodes = s.inodes ∧ Acts T 0 s t) (fun _ => False) := by
  have hsame (sfs : SfsFs) : { s with sfs }.setInode d n = { s with sfs } := by
    simp only [SfsMount.setInode, mk.injEq, true_and]
    exact Function.update_eq_self_iff.mpr hn.symm
  unfold onNode
  rw [Prog.bind_run_ok (deref_run hn)]
  apply Prog.sat_zoom
  apply h.mono
  . rintro a _ ⟨ha, c, rfl⟩
    rw [hsame]
    exact ⟨ha, rfl, hs.requested c⟩
  . rintro e _ ⟨⟨c, rfl⟩, he⟩
    rw [hsame]
    exact ⟨he, rfl, hs.requested c⟩
  . exact fun _ => id

theorem Consistent.opens_le (hs : Consistent T s) (hd : T.dirs d) : 0 ≤ s.opens d ∧ s.opens d ≤ s.refs d := by
  cases hn : s.inodes d with
  | some n =>
    rw [opens_of_some hn, refs_of_some hn]
    exact (hs.mem d hd n hn).openCount
  | none => simp only [opens, refs, hn, le_refl, and_self]

/--
An inode that somebody refers to is in memory.
-/
theorem exists_of_refs_pos (h : 0 < s.refs d) : ∃ n, s.inodes d = some n := by
  cases hn : s.inodes d with
  | some n => exact ⟨n, rfl⟩
  | none =>
    simp only [refs, hn] at h
    contradiction

theorem Acts.of_eq {δ ε : Nat → Int} (h : Acts T δ s t) (heq : δ = ε) : Acts T ε s t := heq ▸ h

/--
The counts of an inode in memory are replaced.
-/
theorem Consistent.setCounts (hs : Consistent T s) (hd : T.dirs d) (hn : s.inodes d = some n)
    {refCount reclaimCount : Int} (hopen : n.openCount ≤ refCount)
    (hreclaim : reclaimCount = if refCount = 0 then 0 else 1)
    : Acts T (Pi.single d (refCount - n.refCount)) s
        (s.setInode d { n with sin := { n.sin with reclaimCount }, refCount }) := by
  have hmem := hs.mem d hd n hn
  have hnonneg := hmem.openCount.1
  have hacts := @Consistent.setInode T s d hs { n with sin := { n.sin with reclaimCount }, refCount }
    (din_of_some hn).symm (opens_of_some hn).symm fun _ =>
      ⟨hmem.ino, Int.le_trans hnonneg hopen, ⟨hnonneg, hopen⟩, hreclaim, hmem.clean⟩
  rwa [refs_of_some hn] at hacts

theorem inodeRefInc_run (hn : s.inodes d = some n)
    : inodeRefInc d s = .ok (n.refCount + 1) (s.setInode d { n with refCount := n.refCount + 1 }) := by
  rw [inodeRefInc, Prog.bind_run_ok (deref_run hn), Prog.modify_bind_run, Prog.pure_run]

/--
One reference more.
-/
theorem Consistent.raised (hs : Consistent T s) (hd : T.dirs d) (hn : s.inodes d = some n) {reclaimCount : Int}
    (hreclaim : reclaimCount = 1)
    : Acts T (one d) s
        (s.setInode d { n with sin := { n.sin with reclaimCount }, refCount := n.refCount + 1 }) := by
  have hmem := hs.mem d hd n hn
  have hopen := hmem.openCount
  have hacts := @setCounts T s d n hs hd hn (n.refCount + 1) reclaimCount (by omega)
    (by rw [if_neg (by omega)]; exact hreclaim)
  rwa [show n.refCount + 1 - n.refCount = 1 by omega] at hacts

/--
`vop_ref_inc` of an inode that is referenced.
-/
theorem Consistent.inodeRefInc (hs : Consistent T s) (hd : T.dirs d) (hn : s.inodes d = some n) (hpos : 0 < n.refCount)
    : (inodeRefInc d s).Sat (fun _ t => Acts T (one d) s t) (fun _ _ => False) (fun _ => False) := by
  have hreclaim : n.sin.reclaimCount = 1 := by rw [(hs.mem d hd n hn).reclaimCount, if_neg (by omega)]
  rw [inodeRefInc_run hn]
  exact hs.raised hd hn hreclaim

/--
Another inode block with the inode that is in memory.
-/
theorem Consistent.written (hs : Consistent T s) (hd : T.dirs d) (hn : s.inodes d = some n) {sfs : SfsFs} (hok : sfs.Ok)
    {c : Request → Nat}
    (hvol : sfs.vol = (s.sfs.vol.requested c).write d 0 n.sin.din.toBytes SfsDiskInode.byteSize)
    : Acts T 0 s ({ s with sfs }.setInode d { n with sin := { n.sin with dirty := false } }) := by
  have hmem := hs.mem d hd n hn
  have hdata (b : Nat) (hb : b ≠ d) : sfs.vol.data b = s.sfs.vol.data b := by
    rw [hvol, Vol.write_data_of_ne _ _ _ _ hb]
    rfl
  have hself : SfsDiskInode.ofBytes (sfs.dev.data d) = n.sin.din := by
    have : sfs.vol.data d = (s.sfs.vol.data d).copy 0 n.sin.din.toBytes SfsDiskInode.byteSize := by
      rw [hvol, Vol.write_data_self]
      rfl
    rw [show sfs.dev.data d = _ from this, SfsDiskInode.ofBytes_copy]
  refine ⟨⟨hok, by rw [show (SfsMount.setInode _ d _).sfs = sfs from rfl, hvol]; rfl,
    by rw [show (SfsMount.setInode _ d _).sfs = sfs from rfl, hvol]; rfl, ?_, ?_, ?_⟩, ?_, ?_, ?_⟩
  . exact fun b hb => hdata b fun heq => hb (heq ▸ hd)
  . intro d' _
    by_cases heq : d' = d
    . subst heq
      rw [din_of_some (setInode_self ..), din_of_some hn]
    . exact din_congr (setInode_of_ne _ _ heq) (hdata d' heq)
  . intro d' hd' m hm
    by_cases heq : d' = d
    . subst heq
      rw [setInode_self] at hm
      obtain rfl := Option.some_inj.mp hm
      exact ⟨hmem.ino, hmem.refCount, hmem.openCount, hmem.reclaimCount, fun _ => hself⟩
    . rw [setInode_of_ne _ _ heq] at hm
      have hok := hs.mem d' hd' m hm
      refine ⟨hok.ino, hok.refCount, hok.openCount, hok.reclaimCount, fun hclean => ?_⟩
      rw [← hok.clean hclean]
      exact congrArg SfsDiskInode.ofBytes (hdata d' heq)
  . intro hnever
    have henv : sfs.vol.env = s.sfs.env.drop c := by
      rw [hvol]
      rfl
    exact henv.trans (by rw [hnever, Faults.never_drop])
  . intro d'
    by_cases heq : d' = d
    . subst heq
      rw [refs_of_some (setInode_self ..), refs_of_some hn]
      exact (Int.add_zero _).symm
    . rw [refs, refs, setInode_of_ne _ _ heq]
      exact (Int.add_zero _).symm
  . intro d'
    by_cases heq : d' = d
    . subst heq
      rw [opens_of_some (setInode_self ..), opens_of_some hn]
    . rw [opens, opens, setInode_of_ne _ _ heq]

/--
`vop_fsync` of an inode in memory.
-/
theorem Consistent.sfsFsync (hs : Consistent T s) (hd : T.dirs d) (hn : s.inodes d = some n)
    (hdirty : n.sin.dirty = true)
    : (onNode d SfsCtx.sfsFsync s).Sat
        (fun _ t => Acts T 0 s t ∧ t.inodes d = some { n with sin := { n.sin with dirty := false } })
        (fun _ t => Acts T 0 s t) (fun _ => False) := by
  have hmem := hs.mem d hd n hn
  have hvalid : s.sfs.vol.Valid n.sin.ino := hmem.ino ▸ (hs.inUse d hd).1
  have hwrite := @SfsFs.sfsWbuf_sat s.sfs .inode n.sin.ino hs.ok hvalid n.sin.din.toBytes SfsDiskInode.byteSize 0
    (by decide) (by decide)
  unfold onNode SfsCtx.sfsFsync
  rw [Prog.bind_run_ok (deref_run hn)]
  apply Prog.sat_zoom
  rw [Prog.get_bind_run, Prog.when_pos hdirty, Prog.modify_bind_run]
  apply Prog.sat_onError (F := fun _ t => ∃ c, t = ⟨s.sfs.requested c, { n.sin with dirty := false }⟩)
    (Y := fun _ => False)
  . apply Prog.sat_zoom
    apply hwrite.mono
    . intro _ sfs ⟨hok, hvol, _⟩
      rw [hmem.ino] at hvol
      exact ⟨hs.written hd hn hok hvol, setInode_self ..⟩
    . intro _ sfs ⟨_, c, hsfs, _⟩
      exact ⟨c, by rw [hsfs]; rfl⟩
    . exact fun _ => id
  . rintro e _ ⟨c, rfl⟩
    have hback : ({ s with sfs := s.sfs.requested c }).setInode d n = { s with sfs := s.sfs.requested c } := by
      simp only [SfsMount.setInode, mk.injEq, true_and]
      exact Function.update_eq_self_iff.mpr hn.symm
    have hsin : { n.sin with dirty := true } = n.sin := by rw [← hdirty]
    show Acts T 0 s (({ s with sfs := s.sfs.requested c }).setInode d { n with sin := { n.sin with dirty := true } })
    rw [hsin, hback]
    exact hs.requested c
  . exact fun _ => id

/--
An inode that nobody refers to is freed.
-/
theorem Consistent.kill (hs : Consistent T s) (hd : T.dirs d) (hn : s.inodes d = some n) (hzero : n.refCount = 0)
    (hclean : n.sin.dirty = false)
    : (inodeKill d s).Sat (fun _ t => Acts T 0 s t) (fun _ _ => False) (fun _ => False) := by
  have hmem := hs.mem d hd n hn
  have hopen := hmem.openCount
  unfold inodeKill
  rw [Prog.bind_run_ok (deref_run hn), Prog.assert_bind_run ⟨hzero, by omega⟩, Prog.modify_run]
  have hnone {d' : Nat} (heq : d' ≠ d) : Function.update s.inodes d none d' = s.inodes d' :=
    Function.update_of_ne heq ..
  have hself : Function.update s.inodes d none d = none := Function.update_self ..
  refine ⟨⟨hs.ok, rfl, rfl, fun _ _ => rfl, ?_, ?_⟩, id, ?_, ?_⟩
  . intro d' _
    by_cases heq : d' = d
    . subst heq
      rw [din_of_some hn, ← hmem.clean hclean]
      simp only [din, hself]
    . simp only [din, hnone heq]
  . intro d' hd' m hm
    dsimp only at hm
    by_cases heq : d' = d
    . subst heq
      rw [hself] at hm
      contradiction
    . rw [hnone heq] at hm
      have hok := hs.mem d' hd' m hm
      exact ⟨hok.ino, hok.refCount, hok.openCount, hok.reclaimCount, hok.clean⟩
  . intro d'
    by_cases heq : d' = d
    . subst heq
      rw [refs_of_some hn, hzero]
      simp only [refs, hself]
      rfl
    . simp only [refs, hnone heq]
      exact (Int.add_zero _).symm
  . intro d'
    by_cases heq : d' = d
    . subst heq
      rw [opens_of_some hn, show n.openCount = 0 by omega]
      simp only [opens, hself]
    . simp only [opens, hnone heq]

/--
An inode with links that nobody refers to is written back and freed, or stays in memory if that fails.
-/
theorem Consistent.reclaimUnused (hs : Consistent T s) (hd : T.dirs d) (hn : s.inodes d = some n)
    (hzero : n.refCount = 0)
    : (reclaimUnused d s).Sat (fun _ t => Acts T 0 s t) (fun _ t => Acts T 0 s t) (fun _ => False) := by
  have hnlinks : n.sin.din.nlinks ≠ 0 := by
    rw [← din_of_some hn]
    exact hs.nlinks d hd
  unfold SfsMount.reclaimUnused
  rw [Prog.bind_run_ok (deref_run hn), Prog.when_neg hnlinks, Prog.pure_bind_run, Prog.bind_run_ok (deref_run hn)]
  have hrest {t : SfsMount} (hacts : Acts T 0 s t) {n' : SfsMemInode} (hn' : t.inodes d = some n')
      (hsame : n'.refCount = 0 ∧ n'.sin.dirty = false ∧ n'.sin.din = n.sin.din)
      : (do
          let n ← deref d
          Prog.when (n.sin.din.nlinks = 0) do
            onSfs (SfsFs.sfsBlockFree n.sin.ino)
            Prog.when (n.sin.din.indirect ≠ 0) (onSfs (SfsFs.sfsBlockFree n.sin.din.indirect))
          inodeKill d : Prog Errno Panic SfsMount Unit) t |>.Sat (fun _ u => Acts T 0 s u) (fun _ u => Acts T 0 s u)
          (fun _ => False) := by
    rw [Prog.bind_run_ok (deref_run hn'), Prog.when_neg (by rw [hsame.2.2]; exact hnlinks), Prog.pure_bind_run]
    exact ((hacts.like.consistent hs).kill hd hn' hsame.1 hsame.2.1).mono (fun _ u hu => hacts.trans hu)
      (fun _ _ => False.elim) fun _ => id
  cases hdirty : n.sin.dirty with
  | true =>
    rw [Prog.when_pos rfl]
    apply Prog.sat_bind (hs.sfsFsync hd hn hdirty)
    . intro _ t ⟨hacts, hn'⟩
      exact hrest hacts hn' ⟨hzero, rfl, rfl⟩
    . exact fun _ t ht => ht
    . exact fun _ => id
  | false =>
    rw [Prog.when_neg Bool.false_ne_true, Prog.pure_bind_run]
    exact hrest ⟨hs.like_refl, id, fun _ => (Int.add_zero _).symm, fun _ => rfl⟩ hn ⟨hzero, hdirty, rfl⟩

/--
`vop_ref_dec` takes away a reference that is not one of an opener, whatever comes of the reclaim.
-/
theorem Consistent.inodeRefDec (hs : Consistent T s) (hd : T.dirs d) (hpos : s.opens d < s.refs d)
    : (inodeRefDec d s).Sat (fun _ t => Acts T (-one d) s t) (fun _ _ => False) (fun _ => False) := by
  obtain ⟨n, hn⟩ := exists_of_refs_pos (Int.lt_of_le_of_lt (hs.opens_le hd).1 hpos)
  have hnonneg := (hs.opens_le hd).1
  rw [refs_of_some hn, opens_of_some hn] at hpos
  rw [opens_of_some hn] at hnonneg
  have hreclaim : n.sin.reclaimCount = 1 := by rw [(hs.mem d hd n hn).reclaimCount, if_neg (by omega)]
  -- the counts behind the reclaim, which comes to nothing while there are other references
  have hdropped {reclaimCount : Int} (hcount : reclaimCount = if n.refCount - 1 = 0 then 0 else 1)
      : Acts T (-one d) s (s.setInode d
          { n with sin := { n.sin with reclaimCount }, refCount := n.refCount - 1 }) := by
    have hacts := hs.setCounts hd hn (by omega) hcount
    rwa [show n.refCount - 1 - n.refCount = -1 by omega, Pi.single_neg] at hacts
  unfold SfsMount.inodeRefDec
  rw [Prog.bind_run_ok (deref_run hn), Prog.assert_bind_run (by omega), Prog.modify_bind_run]
  by_cases hlast : n.refCount - 1 = 0
  . rw [Prog.when_pos hlast]
    have hacts := @hdropped 0 (by rw [if_pos hlast])
    have hdead := (hacts.like.consistent hs).reclaimUnused hd (setInode_self ..) hlast
    apply Prog.sat_bind_imp (Prog.sat_attempt (E := fun _ _ => False) (Q := fun _ t => Acts T (-one d) s t)
      (X := fun _ => False) ?_)
    exact fun _ t ht => ht
    unfold sfsReclaim
    rw [Prog.bind_run_ok (deref_run (setInode_self ..)), Prog.assert_bind_run (by show n.sin.reclaimCount > 0; omega),
      Prog.modify_bind_run, setInode_setInode]
    have hcount : n.sin.reclaimCount - 1 = 0 := by omega
    dsimp only
    rw [hcount, if_neg (by omega)]
    apply hdead.mono
    . exact fun _ t ht => (hacts.trans ht).of_eq (add_zero _)
    . exact fun _ t ht => (hacts.trans ht).of_eq (add_zero _)
    . exact fun _ => id
  . rw [Prog.when_neg hlast]
    have hacts := @hdropped 1 (by rw [if_neg hlast])
    have hsin : { n.sin with reclaimCount := 1 } = n.sin := by rw [← hreclaim]
    rw [hsin] at hacts
    exact hacts

theorem Consistent.kmalloc (hs : Consistent T s)
    : (onSfs SfsFs.kmalloc s).Sat (fun _ t => t.inodes = s.inodes ∧ Acts T 0 s t)
        (fun e t => e = .noMem ∧ Acts T 0 s t ∧ s.sfs.env ≠ Faults.never) (fun _ => False) := by
  apply Prog.sat_zoom
  apply s.sfs.kmalloc_sat.mono
  . rintro _ _ ⟨c, rfl⟩
    exact ⟨rfl, hs.requested c⟩
  . rintro e _ ⟨he, ⟨c, rfl⟩, hnever⟩
    exact ⟨he, hs.requested c, hnever⟩
  . exact fun _ => id

/--
The inode of a directory comes into memory with one more reference.
-/
theorem Consistent.lookupSfsNolock (hs : Consistent T s) (hd : T.dirs d) (hn : s.inodes d = some n)
    : (lookupSfsNolock d s).Sat (fun _ t => Acts T (one d) s t) (fun _ _ => False) (fun _ => False) := by
  have hmem := hs.mem d hd n hn
  have hcount := hmem.refCount
  unfold SfsMount.lookupSfsNolock
  rw [Prog.bind_run_ok (inodeRefInc_run hn), Prog.bind_run_ok (deref_run (setInode_self ..))]
  by_cases hfirst : n.refCount + 1 = 1
  . rw [Prog.when_pos hfirst, Prog.modify_run, setInode_setInode]
    have hreclaim : n.sin.reclaimCount + 1 = 1 := by
      rw [hmem.reclaimCount, if_pos (by omega)]
      rfl
    exact hs.raised hd hn hreclaim
  . rw [Prog.when_neg hfirst]
    have hreclaim : n.sin.reclaimCount = 1 := by rw [hmem.reclaimCount, if_neg (by omega)]
    exact hs.raised hd hn hreclaim

theorem Consistent.sfsCreateInode (hs : Consistent T s) (hd : T.dirs d) (hn : s.inodes d = none)
    : (sfsCreateInode (s.din d) d s).Sat (fun _ t => Acts T (one d) s t)
        (fun _ t => Acts T 0 s t ∧ s.sfs.env ≠ Faults.never) (fun _ => False) := by
  unfold SfsMount.sfsCreateInode
  apply Prog.sat_bind hs.kmalloc
  . intro _ t ⟨hsame, hacts⟩
    have ht := hacts.like.consistent hs
    have hn' : t.inodes d = none := by rw [hsame, hn]
    rw [Prog.assert_bind_run (.inl (hs.dir d hd).type), Prog.modify_run]
    have hset := @Consistent.setInode T t d ht
      { sin := { din := s.din d, ino := d, dirty := false, reclaimCount := 1 }, refCount := 1, openCount := 0 }
      (hacts.like.din d hd).symm (by simp only [opens, hn']) fun _ =>
        ⟨rfl, Int.one_nonneg, ⟨le_refl _, Int.one_nonneg⟩, rfl, fun _ => by
          rw [← hacts.like.din d hd]
          simp only [din, hn']⟩
    apply (hacts.trans hset).of_eq
    rw [zero_add, one]
    congr 1
    simp only [refs, hn']
    rfl
  . exact fun e t ht => ht.2
  . exact fun _ => id

theorem Consistent.sfsLoadInode (hs : Consistent T s) (hd : T.dirs d)
    : (sfsLoadInode d s).Sat (fun r t => r = d ∧ Acts T (one d) s t)
        (fun _ t => Acts T 0 s t ∧ s.sfs.env ≠ Faults.never) (fun _ => False) := by
  unfold SfsMount.sfsLoadInode
  rw [Prog.get_bind_run]
  cases hn : s.inodes d with
  | some n =>
    simp only [Option.isSome_some, if_true]
    apply Prog.sat_bind (hs.lookupSfsNolock hd hn)
    . exact fun _ t ht => ⟨rfl, ht⟩
    . exact fun _ _ => False.elim
    . exact fun _ => id
  | none =>
    simp only [Option.isSome_none, Bool.false_eq_true, if_false]
    apply Prog.sat_bind hs.kmalloc
    . rintro _ t ⟨hsame, hacts⟩
      have ht := hacts.like.consistent hs
      have hinUse : onSfs (SfsFs.assertInuse d .sfsLoadInodeInuse) t = .ok () t := by
        simp only [onSfs, Prog.zoom, SfsFs.assertInuse_run ht.ok (ht.inUse d hd)]
      rw [Prog.bind_run_ok hinUse]
      apply Prog.sat_bind_zoom (SfsFs.sfsRbuf_sat ht.ok (ht.inUse d hd).1 (by decide) (by decide))
      . rintro _ _ ⟨rfl, rfl, -⟩
        have hu := ht.requested (cost .inode 1)
        have hnone : t.inodes d = none := by rw [hsame, hn]
        have hread : SfsDiskInode.ofBytes ((t.sfs.dev.data d).drop 0)
            = ({ t with sfs := t.sfs.requested (cost .inode 1) } : SfsMount).din d := by
          rw [Bytes.drop_zero]
          simp only [din, hnone]
          rfl
        have hconsistent := hu.like.consistent ht
        rw [hread, Prog.assert_bind_run (hconsistent.nlinks d hd)]
        apply Prog.sat_bind (hconsistent.sfsCreateInode hd hnone)
        . intro _ v hv
          exact ⟨rfl, ((hacts.trans hu).trans hv).of_eq (by rw [zero_add, zero_add])⟩
        . rintro _ v ⟨hv, hnever⟩
          exact ⟨((hacts.trans hu).trans hv).of_eq (by rw [zero_add, zero_add]),
            fun h => hnever (hu.never (hacts.never h))⟩
        . exact fun _ => id
      . rintro _ _ ⟨rfl, hans⟩
        refine ⟨(hacts.trans (ht.requested _)).of_eq (zero_add _), fun hnever => hans ?_⟩
        rw [hacts.never hnever]
        exact Faults.answers_never
      . exact fun _ => id
    . exact fun e t ht => ht.2
    . exact fun _ => id

/--
`sfs_lookup_once` of `..`, which brings the parent into memory.
-/
theorem Consistent.sfsLookupOnce (hs : Consistent T s) (hd : T.dirs d) (hn : s.inodes d = some n)
    : (sfsLookupOnce d Ucore.SfsMount.dotdot s).Sat (fun r t => r.1 = T.parent d ∧ Acts T (one (T.parent d)) s t)
        (fun _ t => Acts T 0 s t ∧ s.sfs.env ≠ Faults.never) (fun _ => False) := by
  obtain ⟨entry, hentry, hparent⟩ := hs.dotdot d hd
  obtain ⟨hdir, hslots⟩ := hs.dirOk hd hn
  rw [← hslots] at hentry
  have hsearch := hs.onNode_read (F := fun _ => s.sfs.env ≠ Faults.never) hn
    (hdir.sfsDirentSearchNolock (by decide) hentry)
  unfold SfsMount.sfsLookupOnce
  apply Prog.sat_bind hsearch
  . rintro ⟨ino, slot⟩ t ⟨hino, -, hacts⟩
    obtain rfl : ino = T.parent d := Eq.trans hino hparent
    apply Prog.sat_bind ((hacts.like.consistent hs).sfsLoadInode (T.parent_mem d hd))
    . rintro _ u ⟨rfl, hu⟩
      exact ⟨rfl, (hacts.trans hu).of_eq (zero_add _)⟩
    . intro _ u ⟨hu, hnever⟩
      exact ⟨(hacts.trans hu).of_eq (zero_add _), fun h => hnever (hacts.never h)⟩
    . exact fun _ => id
  . exact fun e t ht => ⟨ht.2.2, ht.1⟩
  . exact fun _ => id

/--
`sfs_dirent_findino_nolock` of a directory in its parent.
-/
theorem Consistent.sfsDirentFindinoNolock (hs : Consistent T s) (hd : T.dirs d) (hdepth : T.depth d ≠ 0)
    (hn : s.inodes (T.parent d) = some n)
    : (onNode (T.parent d) (SfsCtx.sfsDirentFindinoNolock d) s).Sat
        (fun entry t => entry.cname = T.name d ∧ Acts T 0 s t)
        (fun _ t => Acts T 0 s t ∧ s.sfs.env ≠ Faults.never) (fun _ => False) := by
  obtain ⟨entry, hentry, hname⟩ := hs.entry d hd hdepth
  obtain ⟨hdir, hslots⟩ := hs.dirOk (T.parent_mem d hd) hn
  have hfind : (SfsCtx.slots ⟨s.sfs, n.sin⟩).find? (fun entry => entry.ino = d) = some entry := by
    rw [hslots, ← List.head?_filter, hentry]
    rfl
  have hread := hs.onNode_read (F := fun _ => s.sfs.env ≠ Faults.never) hn (hdir.sfsDirentFindinoNolock hfind)
  apply hread.mono
  . rintro _ t ⟨rfl, -, hacts⟩
    exact ⟨hname, hacts⟩
  . exact fun e t ht => ⟨ht.2.2, ht.1⟩
  . exact fun _ => id

end SfsMount
end Ucore

import Ucore.Kern.Fs.Sfs.SfsInode.Lemmas.BmapLoad

/-!
This module contains the specification of `sfs_bmap_truncate_nolock`, which removes the last block of
the file.
-/

namespace Ucore

open Faults (cost)

namespace Vol

variable {v v' : Vol} {din din' : SfsDiskInode}

/--
The last block of the file has been put back among the free blocks.
-/
structure Shrunk (v v' : Vol) (din din' : SfsDiskInode) : Prop where
  blocks : v'.blocks = v.blocks
  free : v'.free = v.free.orderedInsert (· ≤ ·) (v.bmap din (din.blocks - 1))
  data : ∀ b, ¬(din.indirect ≠ 0 ∧ b = din.indirect) → v'.data b = v.data b
  bmap : ∀ i < maxBlocks, v'.bmap din' i = if i = din.blocks - 1 then 0 else v.bmap din i
  indirect : din'.indirect = din.indirect
  size : din'.size = din.size
  type : din'.type = din.type
  nlinks : din'.nlinks = din.nlinks
  din_blocks : din'.blocks = din.blocks - 1

theorem Shrunk.mapOk (h : Shrunk v v' din din') (hmap : v.MapOk din) (hne : din.blocks ≠ 0)
    : v'.MapOk din' := by
  have hle := hmap.blocks_le
  have hlast : din.blocks - 1 < din.blocks := by omega
  have hbmap : ∀ i < din'.blocks, v'.bmap din' i = v.bmap din i := by
    intro i hi
    rw [h.din_blocks] at hi
    rw [h.bmap i (by omega), if_neg (by omega)]
  have hinUse : ∀ b, v.InUse b → b ≠ v.bmap din (din.blocks - 1) → v'.InUse b := by
    intro b hb hlast
    refine ⟨⟨hb.1.1, h.blocks ▸ hb.1.2⟩, ?_⟩
    rw [h.free, List.mem_orderedInsert, not_or]
    exact ⟨hlast, hb.2⟩
  refine ⟨?_, ?_, ?_, ?_, ?_, ?_⟩
  . rw [h.din_blocks]
    omega
  . intro i hi
    rw [hbmap i hi]
    rw [h.din_blocks] at hi
    apply hinUse _ (hmap.inUse i (by omega))
    intro heq
    have := hmap.inj i (by omega) _ hlast heq
    omega
  . intro i hi j hj hij
    rw [hbmap i hi, hbmap j hj] at hij
    rw [h.din_blocks] at hi hj
    exact hmap.inj i (by omega) j (by omega) hij
  . intro i hi hge
    rw [h.bmap i hi]
    rw [h.din_blocks] at hge
    split
    . rfl
    . exact hmap.zero i hi (by omega)
  . rw [h.indirect]
    intro hind
    exact hinUse _ (hmap.indirect_inUse hind) (hmap.indirect_ne _ hlast).symm
  . intro i hi
    rw [hbmap i hi, h.indirect]
    rw [h.din_blocks] at hi
    exact hmap.indirect_ne i (by omega)

theorem setBlocks_blocks_of_le {n : Nat} (h : n ≤ din.blocks)
    : (din.setBlocks n).blocks = n :=
  Nat.mod_eq_of_lt (Nat.lt_of_le_of_lt h din.blocks_lt)

theorem shrunk_direct (hlt : din.blocks - 1 < sfsNdirect)
    : Shrunk v (v.release (din.direct ⟨din.blocks - 1, hlt⟩)) din
        ((din.setDirect ⟨din.blocks - 1, hlt⟩ 0).setBlocks (din.blocks - 1)) := by
  refine ⟨rfl, ?_, fun _ _ => rfl, ?_, rfl, rfl, rfl, rfl, ?_⟩
  . rw [bmap_direct hlt]
    rfl
  . intro i _
    rw [bmap_setBlocks, bmap_setDirect _ _ _ (by decide)]
    rfl
  . exact @setBlocks_blocks_of_le din _ (Nat.sub_le _ _)

theorem shrunk_indirect {c : Request → Nat} (hmap : v.MapOk din) (hne : din.blocks ≠ 0)
    (hge : ¬din.blocks - 1 < sfsNdirect)
    : Shrunk v (((v.requested c).write din.indirect ((din.blocks - 1 - sfsNdirect) * 4)
        (Bytes.ofNat 0) 4).release (v.bmap din (din.blocks - 1))) din
        (din.setBlocks (din.blocks - 1)) := by
  have hind : din.indirect ≠ 0 := hmap.indirect_ne_zero (by omega)
  refine ⟨rfl, rfl, ?_, ?_, rfl, rfl, rfl, rfl, setBlocks_blocks_of_le (Nat.sub_le _ _)⟩
  . intro b hb
    exact write_data_of_ne _ _ _ _ fun heq => hb ⟨hind, heq⟩
  . intro i _
    rw [bmap_setBlocks]
    by_cases hdir : i < sfsNdirect
    . rw [if_neg (by omega), bmap_direct hdir, bmap_direct hdir]
    . have hrelease : ∀ (w : Vol) (b j : Nat), (w.release b).entry din.indirect j =
          w.entry din.indirect j := fun _ _ _ => rfl
      rw [bmap_indirect hdir hind, hrelease]
      by_cases hlast : i = din.blocks - 1
      . rw [if_pos hlast, hlast, entry_write_self, Nat.zero_mod]
      . rw [if_neg hlast, entry_write_of_ne _ _ _ (by omega), bmap_indirect hdir hind,
          entry_requested]

end Vol

/--
The requests it takes to remove the last block of the file.
-/
def SfsDiskInode.shrinkCost (din : SfsDiskInode) : Request → Nat :=
  if din.blocks - 1 < sfsNdirect then 0 else cost .entry 1 + cost .entry 2

namespace SfsCtx

variable {s : SfsCtx}

/--
What removing the last block of the file does.
-/
structure Truncated (s s' : SfsCtx) : Prop where
  ok : s'.sfs.Ok
  shrunk : s.sfs.vol.Shrunk s'.sfs.vol s.sin.din s'.sin.din
  env : s'.sfs.env = s.sfs.env.drop s.sin.din.shrinkCost
  answers : s.sfs.env.Answers s.sin.din.shrinkCost
  sin : s'.sin = { s.sin with din := s'.sin.din, dirty := true }

theorem sfsBmapTruncateNolock_sat (hok : s.sfs.Ok) (hmap : s.sfs.vol.MapOk s.sin.din)
    (hne : s.sin.din.blocks ≠ 0)
    : (sfsBmapTruncateNolock s).Sat (fun _ s' => Truncated s s')
        (fun _ s' => (∃ c, s' = { s with sfs := s.sfs.requested c }) ∧
          ¬s.sfs.env.Answers s.sin.din.shrinkCost)
        (fun _ => False) := by
  have hinUse := hmap.inUse (s.sin.din.blocks - 1) (by omega)
  have hle := hmap.blocks_le
  unfold sfsBmapTruncateNolock sfsBmapFreeNolock
  rw [Prog.get_bind_run, Prog.assert_bind_run hne, Prog.bind_assoc_run, Prog.get_bind_run]
  by_cases hdir : s.sin.din.blocks - 1 < sfsNdirect
  . have hcost : s.sin.din.shrinkCost = 0 := by simp [SfsDiskInode.shrinkCost, hdir]
    rw [Vol.bmap_direct hdir] at hinUse
    obtain ⟨sfs, hrun, hok', hvol'⟩ := SfsFs.sfsBlockFree_run hok hinUse
    simp only [hdir, dif_pos]
    rw [Prog.when_pos hinUse.ne_zero, Prog.bind_assoc_run, Prog.bind_run_ok (onSfs_run hrun),
      Prog.modify_bind_run, Prog.modify_run]
    refine ⟨hok', ?_, ?_, by rw [hcost]; exact Faults.answers_zero, rfl⟩
    . rw [show (SfsCtx.setDirty _ true).sfs.vol = sfs.vol from rfl, hvol']
      exact Vol.shrunk_direct hdir
    . rw [hcost, Faults.drop_zero]
      exact congrArg Vol.env hvol'
  . have hind : s.sin.din.indirect ≠ 0 := hmap.indirect_ne_zero (by omega)
    have hinUse' := hmap.indirect_inUse hind
    have hi : s.sin.din.blocks - 1 - sfsNdirect < sfsBlkNentry := by
      simp only [maxBlocks] at hle
      omega
    have hoff : (s.sin.din.blocks - 1 - sfsNdirect) * 4 < sfsBlksize := by
      simp only [sfsBlkNentry, sfsBlksize] at hi ⊢
      omega
    have hlen : (s.sin.din.blocks - 1 - sfsNdirect) * 4 + 4 ≤ sfsBlksize := by
      simp only [sfsBlkNentry, sfsBlksize] at hi ⊢
      omega
    have hcost : s.sin.din.shrinkCost = cost .entry 1 + cost .entry 2 := by
      simp [SfsDiskInode.shrinkCost, hdir]
    have hbmap := Vol.bmap_indirect (v := s.sfs.vol) hdir hind
    simp only [hdir, dif_neg, not_false_eq_true]
    rw [Prog.when_pos ⟨hi, hind⟩]
    apply sat_bind_onSfs (Y := fun _ => False)
      (R := fun _ sfs => sfs.Ok ∧
        sfs.vol = ((s.sfs.vol.requested (cost .entry 1 + cost .entry 2)).write s.sin.din.indirect
          ((s.sin.din.blocks - 1 - sfsNdirect) * 4) (Bytes.ofNat 0) 4).release
            (s.sfs.vol.bmap s.sin.din (s.sin.din.blocks - 1)) ∧
        s.sfs.env.Answers (cost .entry 1 + cost .entry 2))
      (F := fun _ sfs => (∃ c, sfs = s.sfs.requested c) ∧
        ¬s.sfs.env.Answers (cost .entry 1 + cost .entry 2))
    . unfold SfsFs.sfsBmapFreeSubNolock
      rw [Prog.bind_run_ok (SfsFs.assertInuse_run hok hinUse'), Prog.assert_bind_run hi]
      apply Prog.sat_bind (SfsFs.sfsRbuf_sat hok hinUse'.1 hoff hlen)
      . rintro b sfs ⟨hb, hsfs, hans⟩
        subst hsfs
        have hentry : b.toNat 4 = s.sfs.vol.bmap s.sin.din (s.sin.din.blocks - 1) := by
          rw [hbmap, hb]
          rfl
        rw [hentry, Prog.when_pos hinUse.ne_zero]
        apply Prog.sat_bind (SfsFs.sfsWbuf_sat (hok.requested _) hinUse'.1 (Bytes.ofNat 0) hoff hlen)
        . rintro _ sfs ⟨hok', hvol', hans'⟩
          have hinUse'' : sfs.vol.InUse (s.sfs.vol.bmap s.sin.din (s.sin.din.blocks - 1)) := by
            rw [hvol']
            exact hinUse
          obtain ⟨t, hrun, hokt, hvolt⟩ := SfsFs.sfsBlockFree_run hok' hinUse''
          rw [hrun]
          refine ⟨hokt, ?_, Faults.answers_add.mpr ⟨hans, hans'⟩⟩
          rw [hvolt, hvol']
          simp [Vol.requested]
        . rintro _ sfs ⟨_, c, hsfs, hans'⟩
          subst hsfs
          exact ⟨⟨cost .entry 1 + c, by simp [SfsFs.requested]⟩,
            Faults.not_answers_add_right hans'⟩
        . exact fun _ => id
      . rintro _ sfs ⟨hsfs, hans⟩
        exact ⟨⟨_, hsfs⟩, Faults.not_answers_add_left hans⟩
      . exact fun _ => id
    . rintro _ sfs ⟨hok', hvol', hans⟩
      rw [Prog.modify_run]
      refine ⟨hok', ?_, ?_, by rwa [hcost], rfl⟩
      . rw [show (SfsCtx.setDirty _ true).sfs.vol = sfs.vol from rfl, hvol']
        exact Vol.shrunk_indirect hmap hne hdir
      . rw [hcost]
        exact congrArg Vol.env hvol'
    . rintro _ sfs ⟨⟨c, hsfs⟩, hans⟩
      exact ⟨⟨c, by rw [hsfs]⟩, by rwa [hcost]⟩
    . exact fun _ => id

end SfsCtx

end Ucore

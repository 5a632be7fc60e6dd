import Ucore.Kern.Fs.Sfs.SfsInode.Lemmas.Io

/-!
This module contains the specification of the second phase of `sfs_io_nolock`, the transfer of whole
blocks that are successive on the disk, both where these are blocks of the file and where they are
not.
-/

namespace Ucore

open Faults (cost)

namespace SfsIo

open SfsCtx (Frame Loaded LoadStopped nblksOf)

variable {s s' : SfsIo}

theorem sfsRwblock_transferred {write : Bool} {b p n : Nat} (hok : s.sfs.Ok)
    (hmap : s.sfs.vol.MapOk s.sin.din)
    (hrun : ∀ k < n, b + k < s.sin.din.blocks ∧ s.sfs.vol.bmap s.sin.din (b + k) = p + k)
    : (onTransfer (Transfer.sfsRwblock .data write s.alen p n) s).Sat
        (fun _ s' => Transferred write (b * sfsBlksize) (n * sfsBlksize) n s s')
        (fun _ s' => NotTransferred n s s') (fun _ => False) := by
  have hvalid : ∀ k < n, s.sfs.vol.Valid (p + k) := by
    intro k hk
    rw [← (hrun k hk).2]
    exact (hmap.inUse _ (hrun k hk).1).1
  apply Prog.sat_zoom
  cases write with
  | true =>
    apply (Transfer.sfsRwblock_write_sat (t := ⟨s.sfs, s.buf⟩) hok hvalid).mono
    . rintro _ t ⟨hok', hbuf, hvol', hans⟩
      have hdata : s.sfs.vol.DataOnly t.sfs.vol s.sin.din := by
        rw [hvol']
        exact Vol.writeRun_dataOnly hrun _
      have henv : t.sfs.env = s.sfs.env.drop (cost .data n) := congrArg Vol.env hvol'
      refine ⟨Frame.of_dataOnly hok' hmap rfl hdata ⟨_, henv⟩, rfl, rfl, hdata,
        hdata.bmap hmap, ?_, hbuf, ?_⟩
      . simp only [SfsIo.content, if_true]
        rw [hvol']
        exact Vol.content_writeRun hmap hrun _
      . intro m
        simp only [henv]
        rfl
    . rintro _ t ⟨hok', _, ⟨c, k, hk, hvol'⟩, hans⟩
      have hdata : s.sfs.vol.DataOnly t.sfs.vol s.sin.din := by
        rw [hvol']
        exact Vol.writeRun_dataOnly (fun j hj => hrun j (by omega)) _
      have henv : t.sfs.env = s.sfs.env.drop c := congrArg Vol.env hvol'
      exact ⟨Frame.of_dataOnly hok' hmap rfl hdata ⟨_, henv⟩, rfl, rfl, fault_of_not_answers hans⟩
    . exact fun _ => id
  | false =>
    apply (Transfer.sfsRwblock_read_sat (t := ⟨s.sfs, s.buf⟩) hok hvalid).mono
    . rintro _ t ⟨ht, hans⟩
      subst ht
      refine ⟨Frame.requested hok hmap _, rfl, rfl, ⟨rfl, rfl, fun _ _ => rfl⟩, fun _ => rfl, rfl,
        ?_, fun _ => rfl⟩
      simp only [Bool.false_eq_true, if_false]
      funext i
      by_cases hi : s.alen ≤ i ∧ i < s.alen + n * sfsBlksize
      . rw [Bytes.copy_of_mem _ _ hi.1 hi.2, Bytes.copy_of_mem _ _ hi.1 hi.2]
        exact (Vol.content_readRun hrun (by omega)).symm
      . rw [Bytes.copy_of_not_mem _ _ (by omega), Bytes.copy_of_not_mem _ _ (by omega)]
    . rintro _ t ⟨⟨c, ht⟩, hans⟩
      refine ⟨?_, rfl, rfl, fault_of_not_answers hans⟩
      have := Frame.requested (s := s.ctx) hok hmap c
      simp only [ctx, ht]
      exact this
    . exact fun _ => id

/--
The run of `n` blocks from block `b` of the file on can be transferred by looking up only the first.
-/
def RunOk (v : Vol) (din : SfsDiskInode) (b n : Nat) : Prop :=
  n ≤ 1 ∨ (b + n ≤ din.blocks ∧ ∀ k < n, v.bmap din (b + k) = v.bmap din b + k)

theorem wholeBlocks_sat {write : Bool} {b n : Nat} (hok : s.sfs.Ok)
    (hmap : s.sfs.vol.MapOk s.sin.din) (hle : b ≤ s.sin.din.blocks) (hpos : 0 < n)
    (hrun : RunOk s.sfs.vol s.sin.din b n)
    : (wholeBlocks write b n s).Sat
        (fun _ s' => Moved write (b * sfsBlksize) (n * sfsBlksize) n s s')
        (fun _ s' => Stopped (b * sfsBlksize) n s s')
        (fun p => p = .sfsBmapGetOutOfRange ∧ b = s.sin.din.blocks ∧ b = maxBlocks) := by
  have hnblks : nblksOf (b * sfsBlksize + 0 + n * sfsBlksize) = b + n := by
    simp only [nblksOf, sfsBlksize]
    omega
  unfold wholeBlocks
  apply sat_bind_onCtx (SfsCtx.sfsBmapLoadNolock_sat hok hmap hle)
  . intro ino t hload
    have hblocks : t.sin.din.blocks = max s.sin.din.blocks (b + 1) := hload.blocks
    have hrun' : ∀ k < n, b + k < t.sin.din.blocks ∧
        t.sfs.vol.bmap t.sin.din (b + k) = ino + k := by
      intro k hk
      by_cases hone : n = 1
      . obtain rfl : k = 0 := by omega
        exact ⟨by omega, hload.bmap⟩
      . obtain ⟨hend, hsucc⟩ := hrun.resolve_left (by omega)
        have hold := hload.old (by simp only [ctx]; omega)
        refine ⟨by omega, ?_⟩
        rw [← hload.bmap, hold.1, hold.2]
        exact hsucc k hk
    have hmax : max s.sin.din.blocks (b + 1) = max s.sin.din.blocks (b + n) := by
      by_cases hone : n = 1
      . rw [hone]
      . have := (hrun.resolve_left (by omega)).1
        omega
    rw [Prog.get_bind_run]
    apply Prog.sat_bind (sfsRwblock_transferred (s := { s with sfs := t.sfs, sin := t.sin }) hload.frame.ok
      hload.frame.mapOk hrun')
    . intro _ s' h
      rw [Prog.modify_run]
      rw [← Nat.add_zero (b * sfsBlksize)] at h ⊢
      exact Loaded.moved 0 hload (by rw [hnblks, hmax]) (by rw [hnblks]; omega) h
    . intro _ s' h
      rw [← Nat.add_zero (b * sfsBlksize)]
      exact Loaded.stopped 0 hload hle (by decide) h
    . exact fun _ => False.elim
  . intro _ t h
    rw [← Nat.add_zero (b * sfsBlksize)]
    exact LoadStopped.stopped 0 h (by decide)
  . exact fun _ => id

/--
A run of blocks that leaves the block map of the file alone, wherever else it leads.
-/
def RunKeeps (write : Bool) (v : Vol) (din : SfsDiskInode) (b n : Nat) : Prop :=
  n ≤ 1 ∨ (b + n ≤ din.blocks ∧ (write = true → ∀ k < n, v.bmap din b + k ≠ din.indirect))

theorem RunOk.keeps {v : Vol} {din : SfsDiskInode} {write : Bool} {b n : Nat}
    (h : RunOk v din b n) (hmap : v.MapOk din)
    : RunKeeps write v din b n := by
  apply h.imp id
  intro ⟨hend, hsucc⟩
  refine ⟨hend, fun _ k hk => ?_⟩
  rw [← hsucc k hk]
  exact hmap.indirect_ne _ (by omega)

/--
What a run of blocks does to a volume, if it stays clear of the indirect block.
-/
theorem mapOk_of_run {write : Bool} {v v' : Vol} {din : SfsDiskInode} {c : Request → Nat}
    {p n : Nat} {src : Bytes} (hmap : v.MapOk din)
    (hkeep : write = true → ∀ k < n, p + k ≠ din.indirect)
    (hv : v' = if write then (v.requested c).writeRun p n src else v.requested c)
    : v'.MapOk din ∧ v'.free = v.free ∧ (∀ i, v'.bmap din i = v.bmap din i) ∧
        v'.env = v.env.drop c := by
  have hdata : v'.data din.indirect = v.data din.indirect := by
    rw [hv]
    cases write with
    | true =>
      apply if_neg
      intro ⟨h₁, h₂⟩
      obtain ⟨k, hk⟩ := Nat.exists_eq_add_of_le h₁
      exact hkeep rfl k (by omega) hk.symm
    | false => rfl
  have hfree : v'.free = v.free := by
    rw [hv]
    split
    . rfl
    . rfl
  have hblocks : v'.blocks = v.blocks := by
    rw [hv]
    split
    . rfl
    . rfl
  refine ⟨?_, hfree, fun _ => Vol.bmap_congr fun _ => hdata, ?_⟩
  . exact hmap.congr (fun _ => hdata) hblocks (fun b hb => by rwa [← hfree])
  . rw [hv]
    split
    . rfl
    . rfl

theorem notPassed_of_broken {write : Bool} {p n : Nat} {t : Transfer}
    (hmap : s.sfs.vol.MapOk s.sin.din)
    (hkeep : write = true → ∀ k < n, p + k ≠ s.sin.din.indirect)
    (h : Transfer.Broken .data write s.alen p n ⟨s.sfs, s.buf⟩ t)
    : NotPassed n s { s with sfs := t.sfs, buf := t.buf } := by
  obtain ⟨c, k, hk, hvol⟩ := h.vol
  have hmap' := mapOk_of_run hmap (fun hw j hj => hkeep hw j (by omega)) hvol
  exact ⟨h.ok, hmap'.1, rfl, rfl, fault_of_not_answers h.fault⟩

/--
A run of blocks that may lead out of the file, or even out of the file system.
-/
theorem sfsRwblock_passed {write : Bool} {p n : Nat} (hok : s.sfs.Ok)
    (hmap : s.sfs.vol.MapOk s.sin.din) (hp : s.sfs.vol.Valid p)
    (hkeep : write = true → ∀ k < n, p + k ≠ s.sin.din.indirect)
    : (onTransfer (Transfer.sfsRwblock .data write s.alen p n) s).Sat
        (fun _ s' => Passed n s s') (fun _ s' => NotPassed n s s')
        (fun q => q = .sfsRwblock ∧ s.sfs.vol.blocks < p + n) := by
  apply Prog.sat_zoom
  by_cases hn : s.sfs.vol.blocks < p + n
  . apply (Transfer.sfsRwblock_outside (t := ⟨s.sfs, s.buf⟩) hok hp hn).mono
    . exact fun _ _ => False.elim
    . exact fun _ t h => notPassed_of_broken hmap hkeep h
    . exact fun _ hq => ⟨hq, hn⟩
  . apply (Transfer.sfsRwblock_sat (t := ⟨s.sfs, s.buf⟩) hok (n := n) ?_).mono
    . intro _ t ⟨hok', hvol⟩
      obtain ⟨hmap', hfree, hbmap, henv⟩ := mapOk_of_run hmap hkeep hvol
      refine ⟨hok', hmap', rfl, rfl, hfree, hbmap, ?_⟩
      intro m
      rw [show t.sfs.env = s.sfs.env.drop (cost .data n) from henv]
      rfl
    . exact fun _ t h => notPassed_of_broken hmap hkeep h
    . exact fun _ => False.elim
    . exact Vol.valid_run hp hn

theorem wholeBlocks_advanced {write : Bool} {b n : Nat} (hok : s.sfs.Ok)
    (hmap : s.sfs.vol.MapOk s.sin.din) (hle : b ≤ s.sin.din.blocks) (hpos : 0 < n)
    (hrun : RunKeeps write s.sfs.vol s.sin.din b n)
    : (wholeBlocks write b n s).Sat
        (fun _ s' => Advanced (b * sfsBlksize) (n * sfsBlksize) n s s')
        (fun _ s' => Halted (b * sfsBlksize) n s s')
        (fun p => (p = .sfsBmapGetOutOfRange ∧ b = s.sin.din.blocks ∧ b = maxBlocks) ∨
          (p = .sfsRwblock ∧ 2 ≤ n ∧ s.sfs.vol.blocks < s.sfs.vol.bmap s.sin.din b + n)) := by
  by_cases hone : n = 1
  . apply (wholeBlocks_sat hok hmap hle hpos (.inl (by omega))).mono
    . exact fun _ s' h => h.toAdvanced
    . exact fun _ s' h => h.toHalted
    . exact fun _ => .inl
  . obtain ⟨hend, hkeep⟩ := hrun.resolve_left (by omega)
    have hold : b < s.sin.din.blocks := by omega
    have hnblks : nblksOf (b * sfsBlksize + 0 + n * sfsBlksize) = b + n := by
      simp only [nblksOf, sfsBlksize]
      omega
    have hmax : max s.sin.din.blocks (b + 1) = max s.sin.din.blocks (b + n) := by omega
    have hvalid := (hmap.inUse b hold).1
    unfold wholeBlocks
    apply sat_bind_onCtx (SfsCtx.sfsBmapLoadNolock_sat hok hmap hle)
    . intro ino t hload
      obtain ⟨hsin, hvol⟩ := hload.old hold
      have hino : ino = s.sfs.vol.bmap s.sin.din b := by
        rw [← hload.bmap, hsin, hvol]
        rfl
      subst hino
      rw [Prog.get_bind_run]
      apply Prog.sat_bind (sfsRwblock_passed (s := { s with sfs := t.sfs, sin := t.sin })
        hload.frame.ok hload.frame.mapOk (by rw [hvol]; exact hvalid) ?_)
      . intro _ s' h
        rw [Prog.modify_run]
        rw [← Nat.add_zero (b * sfsBlksize)]
        exact Loaded.advanced 0 hload (by rw [hnblks, hmax]) (by rw [hnblks]; omega) h
      . intro _ s' h
        rw [← Nat.add_zero (b * sfsBlksize)]
        exact Loaded.halted 0 hload hle (by decide) h
      . rintro p ⟨hp, hlt⟩
        rw [hvol] at hlt
        exact .inr ⟨hp, by omega, hlt⟩
      . rw [hsin]
        exact hkeep
    . intro _ t h
      rw [← Nat.add_zero (b * sfsBlksize)]
      exact (LoadStopped.stopped 0 h (by decide)).toHalted
    . exact fun _ => .inl

theorem onTransfer_sin (m : Prog Errno Panic Transfer Unit)
    : (onTransfer m s).Sat (fun _ s' => s'.sin = s.sin ∧ s'.alen = s.alen) (fun _ _ => True)
        (fun _ => True) := by
  apply Prog.sat_zoom
  cases m ⟨s.sfs, s.buf⟩ with
  | ok a t => exact ⟨rfl, rfl⟩
  | error e t => trivial
  | panic p => trivial

/--
Wherever the run leads, only the first block is appended to the file.
-/
theorem wholeBlocks_blocks {write : Bool} {b n : Nat} (hok : s.sfs.Ok)
    (hmap : s.sfs.vol.MapOk s.sin.din) (hle : b ≤ s.sin.din.blocks)
    : (wholeBlocks write b n s).Sat
        (fun _ s' => s'.sin.din.blocks = max s.sin.din.blocks (b + 1))
        (fun _ _ => True) (fun _ => True) := by
  unfold wholeBlocks
  apply sat_bind_onCtx (SfsCtx.sfsBmapLoadNolock_sat hok hmap hle)
  . intro ino t hload
    rw [Prog.get_bind_run]
    apply Prog.sat_bind_imp (onTransfer_sin _)
    intro _ s' ⟨hsin, _⟩
    rw [Prog.modify_run]
    simp only [Outcome.sat_ok, hsin]
    exact hload.blocks
  . exact fun _ _ _ => trivial
  . exact fun _ _ => trivial

/--
Writing a run of blocks writes to the blocks that are successive on the disk.
-/
theorem wholeBlocks_write {b n : Nat} (hok : s.sfs.Ok) (hmap : s.sfs.vol.MapOk s.sin.din)
    (hlt : b < s.sin.din.blocks)
    : (wholeBlocks true b n s).Sat
        (fun _ s' => s'.sfs.Ok ∧ s'.sin = s.sin ∧ s'.buf = s.buf ∧ s'.alen = s.alen + n * sfsBlksize ∧
          ∃ c, s'.sfs.vol = (s.sfs.vol.requested c).writeRun (s.sfs.vol.bmap s.sin.din b) n
            (s.buf.drop s.alen))
        (fun _ _ => True) (fun _ => True) := by
  have hvalid := (hmap.inUse b hlt).1
  unfold wholeBlocks
  apply sat_bind_onCtx (SfsCtx.sfsBmapLoadNolock_old hok hmap hlt)
  . intro ino t ⟨hino, ht, _⟩
    subst hino
    subst ht
    rw [Prog.get_bind_run]
    apply Prog.sat_bind_zoom (Y := fun _ => True)
      (R := fun _ t => t.sfs.Ok ∧ t.buf = s.buf ∧ ∃ c, t.sfs.vol =
        (s.sfs.vol.requested c).writeRun (s.sfs.vol.bmap s.sin.din b) n (s.buf.drop s.alen))
      (F := fun _ _ => True)
    . by_cases hn : s.sfs.vol.blocks < s.sfs.vol.bmap s.sin.din b + n
      . apply (Transfer.sfsRwblock_outside (hok.requested _) hvalid hn).mono
        . exact fun _ _ => False.elim
        . exact fun _ _ _ => trivial
        . exact fun _ _ => trivial
      . apply (Transfer.sfsRwblock_write_sat (hok.requested _) ?_).mono
        . intro _ t ⟨hok', hbuf, hvol, _⟩
          refine ⟨hok', hbuf, SfsCtx.lookupCost b + cost .data n, ?_⟩
          rw [hvol, ← Vol.requested_requested]
          rfl
        . exact fun _ _ _ => trivial
        . exact fun _ => False.elim
        . exact Vol.valid_run hvalid hn
    . intro _ t ⟨hok', hbuf, hvol⟩
      rw [Prog.modify_run]
      exact ⟨hok', rfl, hbuf, rfl, hvol⟩
    . exact fun _ _ => id
    . exact fun _ => id
  . exact fun _ _ _ => trivial
  . exact fun _ _ => trivial

/--
Reading a run of blocks reads the blocks that are successive on the disk.
-/
theorem wholeBlocks_read {b n : Nat} (hok : s.sfs.Ok) (hmap : s.sfs.vol.MapOk s.sin.din)
    (hlt : b < s.sin.din.blocks)
    : (wholeBlocks false b n s).Sat
        (fun _ s' => s'.sfs.Ok ∧ s'.sin = s.sin ∧ s'.alen = s.alen + n * sfsBlksize ∧
          s'.buf = s.buf.copy s.alen (s.sfs.vol.readRun (s.sfs.vol.bmap s.sin.din b))
            (n * sfsBlksize) ∧
          ∃ c, s'.sfs.vol = s.sfs.vol.requested c)
        (fun _ _ => True) (fun _ => True) := by
  have hvalid := (hmap.inUse b hlt).1
  unfold wholeBlocks
  apply sat_bind_onCtx (SfsCtx.sfsBmapLoadNolock_old hok hmap hlt)
  . intro ino t ⟨hino, ht, _⟩
    subst hino
    subst ht
    rw [Prog.get_bind_run]
    apply Prog.sat_bind_zoom (Y := fun _ => True)
      (R := fun _ t => t.sfs.Ok ∧ (∃ c, t.sfs.vol = s.sfs.vol.requested c) ∧
        t.buf = s.buf.copy s.alen (s.sfs.vol.readRun (s.sfs.vol.bmap s.sin.din b))
          (n * sfsBlksize))
      (F := fun _ _ => True)
    . by_cases hn : s.sfs.vol.blocks < s.sfs.vol.bmap s.sin.din b + n
      . apply (Transfer.sfsRwblock_outside (hok.requested _) hvalid hn).mono
        . exact fun _ _ => False.elim
        . exact fun _ _ _ => trivial
        . exact fun _ _ => trivial
      . apply (Transfer.sfsRwblock_read_sat (hok.requested _) ?_).mono
        . intro _ t ⟨ht, _⟩
          subst ht
          refine ⟨(hok.requested _).requested _, ⟨SfsCtx.lookupCost b + cost .data n, ?_⟩, rfl⟩
          rw [← Vol.requested_requested]
          rfl
        . exact fun _ _ _ => trivial
        . exact fun _ => False.elim
        . exact Vol.valid_run hvalid hn
    . intro _ t ⟨hok', hvol, hbuf⟩
      rw [Prog.modify_run]
      exact ⟨hok', rfl, rfl, hbuf, hvol⟩
    . exact fun _ _ => id
    . exact fun _ => id
  . exact fun _ _ _ => trivial
  . exact fun _ _ => trivial

end SfsIo

end Ucore

import Ucore.Kern.Fs.Sfs.SfsFs.MountRuns
import Ucore.Kern.Fs.Sfs.SfsNamefile.Lemmas.Inode

/-!
This module contains what a later mount finds on the device behind a `sfs_sync`: the file system that was in memory.
-/

namespace Ucore

open Mounting

namespace SfsMount

variable {s t : SfsMount} {list : List Nat}

theorem sfsSync_listed (hs : s.Listed list) (hflagged : s.Flagged)
    : (sfsSync list s).Sat (fun _ t => t.Listed list) (fun _ t => t.Listed list) (fun _ => False) := by
  unfold sfsSync
  apply Prog.sat_bind (syncInodes_sat hs hflagged (fun _ => id) hs.nodup)
  . intro _ u hu
    apply (syncSuper_sat hu.listed hu.flagged).mono
    . exact fun _ t ht => ht.1.listed
    . exact fun _ t ht => ht.1.listed
    . exact fun _ => id
  . exact fun _ _ h => h.elim
  . exact fun _ => id

theorem SuperSaved.diskSuper (h : s.SuperSaved) (hmagic : s.sfs.super.magic = sfsMagic) (hok : s.sfs.Ok)
    : (diskSuper s.sfs.dev).magic = sfsMagic ∧ (diskSuper s.sfs.dev).blocks = s.sfs.super.blocks ∧
        (diskSuper s.sfs.dev).unusedBlocks = s.sfs.super.unusedBlocks := by
  have hblocks : s.sfs.super.blocks ≤ 2 ^ 20 := Nat.le_trans hok.blocks_le_dBlocks hok.dBlocks_le
  have hunused : s.sfs.super.unusedBlocks ≤ 2 ^ 20 := by
    have hsub : s.sfs.freemap.free ⊆ List.range s.sfs.super.blocks :=
      fun b hb => List.mem_range.mpr (hok.free_valid b hb).2
    have hle := (s.sfs.freemap.free_nodup.subperm hsub).length_le
    rw [List.length_range] at hle
    rw [hok.unusedBlocks]
    exact Nat.le_trans hle hblocks
  have hmagic_lt : s.sfs.super.magic < 2 ^ 32 := by
    rw [hmagic]
    decide
  refine ⟨?_, ?_, ?_⟩
  . rw [← hmagic]
    refine word_of_bytes hmagic_lt fun j hj => ?_
    rw [h _ (by simp only [SfsSuper.byteSize]; omega), SfsSuper.toBytes, if_pos (by omega)]
    congr 1
    omega
  . refine word_of_bytes (by omega) fun j hj => ?_
    rw [h _ (by simp only [SfsSuper.byteSize]; omega), SfsSuper.toBytes, if_neg (by omega), if_pos (by omega)]
    congr 1
    omega
  . refine word_of_bytes (by omega) fun j hj => ?_
    rw [h _ (by simp only [SfsSuper.byteSize]; omega), SfsSuper.toBytes, if_neg (by omega), if_neg (by omega),
      if_pos (by omega)]
    congr 1
    omega

/--
The bits of a freemap that is on the disk.
-/
theorem FreemapSaved.bit (h : s.FreemapSaved) (hblocks : (diskSuper s.sfs.dev).blocks = s.sfs.super.blocks)
    (hcount : Mounting.Countable (diskSuper s.sfs.dev)) {i : Nat} (hi : i < (diskSuper s.sfs.dev).freemapBits)
    : (diskFreemap s.sfs.dev).bit i = s.sfs.freemap.bit i := by
  obtain ⟨hbits, -, -⟩ := hcount.freemapBits
  have hblks : (diskSuper s.sfs.dev).freemapBlocks = s.sfs.super.freemapBlocks := by
    rw [SfsSuper.freemapBlocks, SfsSuper.freemapBlocks, hblocks]
  rw [hbits, hblks] at hi
  have hword : Bytes.word (fun i => s.sfs.dev.data (sfsBlknFreemap + i / sfsBlksize) (i % sfsBlksize)) (i / wordBits) =
      (s.sfs.freemap.map (i / wordBits)).toNat := by
    rw [← Bytes.word_ofWords (w := fun ix => (s.sfs.freemap.map ix).toNat) (BitVec.isLt _)]
    refine Bytes.word_congr fun j hj => ?_
    have hlt : (4 * (i / wordBits) + j) / sfsBlksize < s.sfs.super.freemapBlocks := by
      apply Nat.div_lt_of_lt_mul
      simp only [sfsBlkbits, sfsBlksize, wordBits] at hi ⊢
      omega
    rw [h _ hlt _ (Nat.mod_lt _ (by decide)), Nat.div_add_mod']
    rfl
  have hmap : (diskFreemap s.sfs.dev).map (i / wordBits) = s.sfs.freemap.map (i / wordBits) :=
    (congrArg (BitVec.ofNat 32) hword).trans (by rw [BitVec.ofNat_toNat, BitVec.setWidth_eq])
  rw [Bitmap.bit, Bitmap.bit, hmap]

theorem InodeSaved.ofBytes {sin : SfsInode} (h : s.InodeSaved sin)
    : SfsDiskInode.ofBytes (s.sfs.dev.data sin.ino) = sin.din := by
  have hdata : s.sfs.dev.data sin.ino =
      (s.sfs.dev.data sin.ino).copy 0 sin.din.toBytes SfsDiskInode.byteSize := by
    funext i
    by_cases hi : i < SfsDiskInode.byteSize
    . rw [Bytes.copy_of_mem _ _ (Nat.zero_le _) (by omega), h i hi, Nat.sub_zero]
    . rw [Bytes.copy_of_not_mem _ _ (by omega)]
  rw [hdata, SfsDiskInode.ofBytes_copy]

/--
A file system in memory as a mount makes it.
-/
structure Mountable (s : SfsMount) : Prop where
  magic : s.sfs.super.magic = sfsMagic
  nbits : s.sfs.freemap.nbits = s.sfs.super.freemapBits
  blocks : 0 < s.sfs.super.blocks
  data : ∀ b ∈ s.sfs.freemap.free, s.sfs.super.DataBlock b

/--
The memory for a mount or a request of it is refused.
-/
def Refused (super : SfsSuper) (m : Mounting) : Prop :=
  (∃ i < 5, m.mem.refuses i = true) ∨ m.env .super 0 ≠ none ∨ ∃ i < super.freemapBlocks, m.env .freemap i ≠ none

/--
What a mount finds on a device that has everything.
-/
structure Found (t : SfsMount) : Prop where
  magic : (diskSuper t.sfs.dev).magic = sfsMagic
  blocks : (diskSuper t.sfs.dev).blocks = t.sfs.super.blocks
  unusedBlocks : (diskSuper t.sfs.dev).unusedBlocks = t.sfs.super.unusedBlocks
  countable : Mounting.Countable (diskSuper t.sfs.dev)
  free : (diskFreemap t.sfs.dev).free = t.sfs.freemap.free
  consistent : Mounting.Consistent t.sfs.dev

theorem Saved.found (h : t.Saved) (hok : t.sfs.Ok) (hmountable : t.Mountable) : t.Found := by
  obtain ⟨hmagic, hblocks, hunused⟩ := h.super.diskSuper hmountable.magic hok
  have hsmall : t.sfs.super.blocks ≤ 2 ^ 20 := Nat.le_trans hok.blocks_le_dBlocks hok.dBlocks_le
  have hcount : Mounting.Countable (diskSuper t.sfs.dev) := by
    rw [Mounting.Countable, hblocks]
    refine ⟨hmountable.blocks, Nat.le_trans hsmall ?_⟩
    decide
  have hnbits : t.sfs.freemap.nbits = (diskSuper t.sfs.dev).freemapBits := by
    rw [hmountable.nbits, SfsSuper.freemapBits, SfsSuper.freemapBits, hblocks]
  have hfree : t.sfs.freemap.free = (diskFreemap t.sfs.dev).free :=
    Mounting.free_eq hnbits fun i hi => (h.freemap.bit hblocks hcount hi).symm
  refine ⟨hmagic, hblocks, hunused, hcount, hfree.symm, ?_, fun b hb => ?_⟩
  . rw [← hfree, hunused, hok.unusedBlocks]
  . have hdata := hmountable.data b (hfree ▸ hb)
    rwa [SfsSuper.DataBlock, SfsSuper.freemapBlocks, hblocks]

/--
Behind a `sfs_sync` that writes every inode, a mount of the device has the free blocks that were in memory and reads
every inode as it was in memory.
-/
theorem sfsSync_mount (hs : s.Listed list) (hflagged : s.Flagged) (hmountable : s.Mountable) (hlost : s.lost list = [])
    : (sfsSync list s).Sat
        (fun _ t => ∀ m : Mounting, (sfsDoMount sfsBlksize t.sfs.dev m).Sat
          (fun _ u => ∃ sfs, u.fsStore = some sfs ∧ sfs.super.blocks = s.sfs.super.blocks ∧
            sfs.super.unusedBlocks = s.sfs.super.unusedBlocks ∧ sfs.freemap.free = s.sfs.freemap.free ∧
            sfs.AllocatorSafe ∧
            ∀ node n, s.inodes node = some n → SfsDiskInode.ofBytes (t.sfs.dev.data node) = n.sin.din)
          (fun _ u => Undone m u ∧ Refused s.sfs.super m)
          (fun _ => False))
        (fun _ t => t.sfs.superDirty = true ∧ s.SuperFails)
        (fun _ => False) := by
  apply ((sfsSync_sat hs hflagged).and (sfsSync_listed hs hflagged)).mono
  . rintro _ t ⟨⟨ht, -⟩, hlisted⟩ m
    have hsaved := ht.saved hlost
    have hsame := ht.sameMemory
    have hmountable' : t.Mountable := by
      obtain ⟨hmagic, hnbits, hblocks, hdata⟩ := hmountable
      rw [← hsame.super] at hmagic hnbits hblocks hdata
      rw [← hsame.freemap] at hnbits hdata
      exact ⟨hmagic, hnbits, hblocks, hdata⟩
    have hfound := hsaved.found hlisted.ok hmountable'
    have hblks : (diskSuper t.sfs.dev).freemapBlocks = s.sfs.super.freemapBlocks := by
      rw [SfsSuper.freemapBlocks, SfsSuper.freemapBlocks, hfound.blocks, hsame.super]
    have hread : ∀ node n, s.inodes node = some n → SfsDiskInode.ofBytes (t.sfs.dev.data node) = n.sin.din := by
      intro node n hn
      have hmap := hsame.inode node
      rw [hn, Option.map_some, Option.map_eq_some_iff] at hmap
      obtain ⟨n', hn', hdin⟩ := hmap
      rw [← hdin, ← (hsaved.inode node n' hn').ofBytes, hlisted.ino node n' hn']
    have hle : (diskSuper t.sfs.dev).blocks ≤ t.sfs.dev.dBlocks := by
      rw [hfound.blocks]
      exact hlisted.ok.blocks_le_dBlocks
    have hfreemap : sfsBlknFreemap + (diskSuper t.sfs.dev).freemapBlocks ≤ (diskSuper t.sfs.dev).blocks := by
      rw [hblks, hfound.blocks, hsame.super]
      exact hs.freemap_le
    apply (sfsDoMount_of_consistent hfound.magic hle hfreemap hfound.countable hfound.consistent m).mono
    . rintro _ u ⟨sfs, hstore, hloaded, hfree, hsafe⟩
      refine ⟨sfs, hstore, ?_, ?_, ?_, hsafe, hread⟩
      . rw [hloaded.blocks, hfound.blocks, hsame.super]
      . rw [hloaded.unusedBlocks, hfound.unusedBlocks, hsame.super]
      . rw [hfree, hfound.free, hsame.freemap]
    . rintro _ u ⟨hundone, hrefused⟩
      rw [hblks] at hrefused
      exact ⟨hundone, hrefused⟩
    . exact fun _ h => h
  . exact fun _ t ht => ⟨ht.1.1.superDirty, ht.1.2⟩
  . exact fun _ h => h.1

/--
A volume of four blocks without free ones, and an inode that is marked as dirty.
-/
def fullVolume : SfsMount where
  sfs :=
    { super := { blocks := 4, unusedBlocks := 0 }
      dev := { dBlocks := 4, data := fun _ => Bytes.zero }
      freemap := { nbits := 32768, nwords := 1024, map := fun _ => 0 }
      superDirty := true
      env := Faults.never }
  inodes := fun node =>
    if node = 3 then
      some
        { sin := { din := SfsDiskInode.new sfsTypeFile sfsTypeFile_lt, ino := 3, dirty := true, reclaimCount := 1 }
          refCount := 1
          openCount := 0 }
    else none

theorem fullVolume_free : fullVolume.sfs.freemap.free = [] := by
  rw [Bitmap.free, List.filter_eq_nil_iff]
  intro b _ hbit
  simp [Bitmap.bit, fullVolume] at hbit

theorem fullVolume_listed : fullVolume.Listed [3] := by
  refine ⟨⟨rfl, by decide, by decide, by decide, ?_, ?_⟩, by decide, by decide, fun node => ?_, ?_, ?_, ?_⟩
  . exact fun b hb => absurd (fullVolume_free ▸ hb) List.not_mem_nil
  . rw [fullVolume_free]
    rfl
  . by_cases hnode : node = 3
    . simp [fullVolume, hnode]
    . simp [fullVolume, hnode]
  . intro node n hn
    by_cases hnode : node = 3
    . simp only [fullVolume, if_pos hnode, Option.some_inj] at hn
      rw [← hn, hnode]
    . simp [fullVolume, hnode] at hn
  . intro node hnode
    rw [List.mem_singleton.mp hnode]
    exact ⟨by decide, show 3 < 4 by decide⟩
  . intro node hnode
    rw [List.mem_singleton.mp hnode]
    decide

theorem fullVolume_flagged : fullVolume.Flagged := by
  refine ⟨nofun, fun node n hn hclean => ?_⟩
  by_cases hnode : node = 3
  . simp only [fullVolume, if_pos hnode, Option.some_inj] at hn
    rw [← hn] at hclean
    contradiction
  . simp [fullVolume, hnode] at hn

theorem sfsSync_mount_fullVolume
    : (sfsSync [3] fullVolume).Sat
        (fun _ t => ∀ m : Mounting, (sfsDoMount sfsBlksize t.sfs.dev m).Sat
          (fun _ u => ∃ sfs, u.fsStore = some sfs ∧ sfs.super.blocks = fullVolume.sfs.super.blocks ∧
            sfs.super.unusedBlocks = fullVolume.sfs.super.unusedBlocks ∧
            sfs.freemap.free = fullVolume.sfs.freemap.free ∧ sfs.AllocatorSafe ∧
            ∀ node n, fullVolume.inodes node = some n → SfsDiskInode.ofBytes (t.sfs.dev.data node) = n.sin.din)
          (fun _ u => Undone m u ∧ Refused fullVolume.sfs.super m)
          (fun _ => False))
        (fun _ t => t.sfs.superDirty = true ∧ fullVolume.SuperFails)
        (fun _ => False) :=
  sfsSync_mount fullVolume_listed fullVolume_flagged
    ⟨rfl, by decide, by decide, fun b hb => absurd (fullVolume_free ▸ hb) List.not_mem_nil⟩ (by decide)

end SfsMount
end Ucore

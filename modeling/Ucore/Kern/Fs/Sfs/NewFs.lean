import Ucore.Kern.Fs.Sfs.SfsInode.Lemmas.Basic

/-!
This module contains file systems of which the first blocks are in use and the rest is free, with a
new inode on them.
-/

namespace Ucore

namespace Bitmap

def ofBits (nwords : Nat) (p : Nat → Bool) : Bitmap where
  nbits := nwords * wordBits
  nwords := nwords
  map i := (BitVec.ofBoolListLE ((List.range wordBits).map fun j => p (i * wordBits + j))).setWidth 32

theorem bit_ofBits (nwords : Nat) (p : Nat → Bool) (i : Nat) : (ofBits nwords p).bit i = p i := by
  have hlt : i % wordBits < wordBits := Nat.mod_lt _ (by decide)
  have hsum : i / wordBits * wordBits + i % wordBits = i := by
    rw [Nat.mul_comm]
    exact Nat.div_add_mod i wordBits
  rw [bit, ofBits, BitVec.getLsbD_setWidth, BitVec.getLsbD_ofBoolListLE,
    List.getD_eq_getElem?_getD, List.getElem?_map, List.getElem?_range hlt, Option.map_some,
    Option.getD_some, hsum, decide_eq_true hlt, Bool.true_and]

theorem free_ofBits (nwords : Nat) (p : Nat → Bool)
    : (ofBits nwords p).free = (List.range (nwords * wordBits)).filter p := by
  unfold free
  rw [funext (bit_ofBits nwords p)]
  rfl

theorem filter_range (n used blocks : Nat) (h : blocks ≤ n)
    : ((List.range n).filter fun i => decide (used ≤ i ∧ i < blocks)) =
        List.range' used (blocks - used) := by
  have hrange : (List.range' used (blocks - used)).Pairwise (· < ·) :=
    List.pairwise_lt_range' 1 Nat.one_pos
  apply List.Perm.eq_of_pairwise' (r := (· < ·))
  . exact List.pairwise_lt_range.filter _
  . exact hrange
  . rw [List.perm_ext_iff_of_nodup (List.nodup_range.filter _) (hrange.imp Nat.ne_of_lt)]
    intro b
    simp only [List.mem_filter, List.mem_range, List.mem_range'_1, decide_eq_true_eq]
    omega

/--
The blocks of the file system from block `used` on are free.
-/
def new (blocks used : Nat) : Bitmap :=
  ofBits ((blocks + (sfsBlksize * 8 - 1)) / (sfsBlksize * 8) * 1024)
    fun i => decide (used ≤ i ∧ i < blocks)

theorem blocks_le_new (blocks used : Nat) : blocks ≤ (new blocks used).nbits := by
  simp only [new, ofBits, sfsBlksize, wordBits]
  omega

theorem new_free (blocks used : Nat) : (new blocks used).free = List.range' used (blocks - used) := by
  rw [new, free_ofBits]
  exact filter_range _ used blocks (blocks_le_new blocks used)

end Bitmap

namespace SfsFs

/--
A file system of `blocks` blocks that are all zero, of which the first `used` are in use.
-/
def new (blocks used : Nat) : SfsFs where
  super := { blocks, unusedBlocks := blocks - used }
  dev := { dBlocks := blocks, data := fun _ => Bytes.zero }
  freemap := Bitmap.new blocks used
  superDirty := false
  env := Faults.never

theorem new_free (blocks used : Nat) : (new blocks used).vol.free = List.range' used (blocks - used) :=
  Bitmap.new_free blocks used

theorem new_inUse {blocks used b : Nat} (hused : used ≤ blocks) (hpos : b ≠ 0) (hlt : b < used)
    : (new blocks used).vol.InUse b := by
  refine ⟨⟨hpos, show b < blocks by omega⟩, ?_⟩
  rw [new_free, List.mem_range'_1]
  omega

theorem new_ok {blocks used : Nat} (hused : 0 < used) (hblocks : blocks ≤ 2 ^ 20)
    : (new blocks used).Ok := by
  refine ⟨rfl, Bitmap.blocks_le_new _ _, Nat.le_refl _, hblocks, ?_, ?_⟩
  . rw [show (new blocks used).freemap = Bitmap.new blocks used from rfl, Bitmap.new_free]
    intro b hb
    rw [List.mem_range'_1] at hb
    simp only [new]
    omega
  . rw [show (new blocks used).freemap = Bitmap.new blocks used from rfl, Bitmap.new_free,
      List.length_range']
    rfl

end SfsFs

theorem sfsTypeFile_lt : sfsTypeFile < 2 ^ 16 := by decide

theorem sfsTypeDir_lt : sfsTypeDir < 2 ^ 16 := by decide

theorem zero_lt_sfsNdirect : 0 < sfsNdirect := by decide

theorem one_lt_sfsNdirect : 1 < sfsNdirect := by decide

/--
An inode of a file without blocks.
-/
def SfsDiskInode.new (type : Nat) (h : type < 2 ^ 16) : SfsDiskInode where
  size := 0
  type := type
  nlinks := 1
  blocks := 0
  direct _ := 0
  indirect := 0
  size_lt := by decide
  type_lt := h
  nlinks_lt := by decide
  blocks_lt := by decide
  direct_lt := by simp
  indirect_lt := by decide

theorem Vol.mapOk_new (v : Vol) {type : Nat} (h : type < 2 ^ 16)
    : v.MapOk (SfsDiskInode.new type h) := by
  refine ⟨Nat.zero_le _, ?_, ?_, ?_, ?_, ?_⟩
  . exact fun _ hi => absurd hi (Nat.not_lt_zero _)
  . exact fun _ hi => absurd hi (Nat.not_lt_zero _)
  . intro i _ _
    unfold bmap
    split
    . rfl
    . exact if_pos rfl
  . exact fun hind => absurd rfl hind
  . exact fun _ hi => absurd hi (Nat.not_lt_zero _)

/--
The block map of an inode whose blocks follow each other.
-/
theorem Vol.bmap_consecutive {v : Vol} {din : SfsDiskInode} (first : Nat)
    (hdirect : ∀ i, din.direct i = if i.val < din.blocks then first + i else 0) (hind : din.indirect = 0)
    (hblocks : din.blocks ≤ sfsNdirect) (i : Nat)
    : v.bmap din i = if i < din.blocks then first + i else 0 := by
  by_cases hi : i < sfsNdirect
  . rw [bmap_direct hi, hdirect]
  . rw [bmap_none hi hind, if_neg (by omega)]

theorem Vol.mapOk_consecutive {v : Vol} {din : SfsDiskInode} (first : Nat)
    (hdirect : ∀ i, din.direct i = if i.val < din.blocks then first + i else 0) (hind : din.indirect = 0)
    (hblocks : din.blocks ≤ sfsNdirect) (hinUse : ∀ i < din.blocks, v.InUse (first + i))
    : v.MapOk din := by
  have hbmap := @bmap_consecutive v din first hdirect hind hblocks
  refine ⟨Nat.le_trans hblocks (by decide), ?_, ?_, ?_, fun h => absurd hind h, ?_⟩
  . intro i hi
    rw [hbmap, if_pos hi]
    exact hinUse i hi
  . intro i hi j hj heq
    rw [hbmap, hbmap, if_pos hi, if_pos hj] at heq
    omega
  . intro i _ hi
    rw [hbmap, if_neg (by omega)]
  . intro i hi
    rw [hbmap, if_pos hi, hind]
    exact (hinUse i hi).ne_zero

end Ucore

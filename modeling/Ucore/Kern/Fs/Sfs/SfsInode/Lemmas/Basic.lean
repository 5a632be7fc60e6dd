import Ucore.Kern.Fs.Sfs.SfsInode.Lemmas.Block

/-!
This module contains the block map of an inode: the blocks it names, when it is well formed, and how
it changes when a block is appended.
-/

namespace Ucore

open Faults (cost)

/--
The number of blocks that the direct entries and one indirect block can name.
-/
abbrev maxBlocks : Nat := sfsNdirect + sfsBlkNentry

namespace Vol

/--
Entry `i` of the indirect block `b`.
-/
def entry (v : Vol) (b i : Nat) : Nat := ((v.data b).drop (i * 4)).toNat 4

/--
The block that holds block `i` of the file, 0 if there is none.
-/
def bmap (v : Vol) (din : SfsDiskInode) (i : Nat) : Nat :=
  if h : i < sfsNdirect then
    din.direct ⟨i, h⟩
  else if din.indirect = 0 then
    0
  else
    v.entry din.indirect (i - sfsNdirect)

/--
The block map names the first `blocks` blocks of the file and no others, they are in use and
distinct from each other and from the indirect block.
-/
structure MapOk (v : Vol) (din : SfsDiskInode) : Prop where
  blocks_le : din.blocks ≤ maxBlocks
  inUse : ∀ i < din.blocks, v.InUse (v.bmap din i)
  inj : ∀ i < din.blocks, ∀ j < din.blocks, v.bmap din i = v.bmap din j → i = j
  zero : ∀ i < maxBlocks, din.blocks ≤ i → v.bmap din i = 0
  indirect_inUse : din.indirect ≠ 0 → v.InUse din.indirect
  indirect_ne : ∀ i < din.blocks, v.bmap din i ≠ din.indirect

/--
The blocks an inode refers to.
-/
def Owns (v : Vol) (din : SfsDiskInode) (b : Nat) : Prop :=
  (∃ i < din.blocks, v.bmap din i = b) ∨ (din.indirect ≠ 0 ∧ b = din.indirect)

/--
What an operation that fails may do to a volume: a block in use keeps its content, and a free block
may be lost only if it could not be cleared.
-/
structure Kept (v v' : Vol) : Prop where
  blocks : v'.blocks = v.blocks
  data : ∀ b, b ∉ v.free → v'.data b = v.data b
  free_subset : ∀ b ∈ v'.free, b ∈ v.free
  free_eq : (∀ n, v.env .clear n = none) → v'.free = v.free
  env : ∃ c, v'.env = v.env.drop c

theorem Kept.refl (v : Vol) : Kept v v :=
  ⟨rfl, fun _ _ => rfl, fun _ => id, fun _ => rfl, 0, by simp⟩

theorem Kept.requested {v v' : Vol} (h : Kept v v') (c : Request → Nat)
    : Kept v (v'.requested c) := by
  obtain ⟨d, henv⟩ := h.env
  refine ⟨h.blocks, h.data, h.free_subset, h.free_eq, d + c, ?_⟩
  rw [requested_env, henv, Faults.drop_drop]

theorem Kept.of_requested {v v' : Vol} {c : Request → Nat} (h : Kept (v.requested c) v')
    : Kept v v' := by
  obtain ⟨d, henv⟩ := h.env
  refine ⟨h.blocks, h.data, h.free_subset, ?_, c + d, ?_⟩
  . intro hclear
    exact h.free_eq fun n => hclear _
  . rw [henv, requested_env, Faults.drop_drop]

variable {v v' : Vol} {din din' : SfsDiskInode} {b ino : Nat}

theorem bmap_direct {i : Nat} (h : i < sfsNdirect) : v.bmap din i = din.direct ⟨i, h⟩ := by
  simp [bmap, h]

theorem bmap_indirect {i : Nat} (h : ¬i < sfsNdirect) (hind : din.indirect ≠ 0)
    : v.bmap din i = v.entry din.indirect (i - sfsNdirect) := by
  simp [bmap, h, hind]

theorem bmap_none {i : Nat} (h : ¬i < sfsNdirect) (hind : din.indirect = 0) : v.bmap din i = 0 := by
  simp [bmap, h, hind]

theorem InUse.ne_zero (h : v.InUse b) : b ≠ 0 := h.1.1

theorem InUse.requested {c : Request → Nat} (h : v.InUse b) : (v.requested c).InUse b := h

theorem entry_congr {b i : Nat} (h : v'.data b = v.data b) : v'.entry b i = v.entry b i := by
  rw [entry, entry, h]

@[simp]
theorem entry_requested (v : Vol) (c : Request → Nat) (b i : Nat)
    : (v.requested c).entry b i = v.entry b i := rfl

@[simp]
theorem bmap_requested (v : Vol) (c : Request → Nat) (din : SfsDiskInode) (i : Nat)
    : (v.requested c).bmap din i = v.bmap din i := rfl

theorem bmap_congr {i : Nat} (h : din.indirect ≠ 0 → v'.data din.indirect = v.data din.indirect)
    : v'.bmap din i = v.bmap din i := by
  unfold bmap
  split
  . rfl
  . split
    . rfl
    . next hind => exact entry_congr (h hind)

theorem entry_write_self (v : Vol) (b i n : Nat)
    : (v.write b (i * 4) (Bytes.ofNat n) 4).entry b i = n % 2 ^ 32 := by
  rw [entry, write_data_self, Bytes.toNat_drop_copy, Bytes.toNat_ofNat]
  rfl

theorem entry_write_of_ne (v : Vol) (b : Nat) (src : Bytes) {i j : Nat} (h : j ≠ i)
    : (v.write b (i * 4) src 4).entry b j = v.entry b j := by
  rw [entry, entry, write_data_self]
  apply Bytes.toNat_drop_congr
  intro k h₁ h₂
  apply Bytes.copy_of_not_mem
  omega

theorem entry_clear (v : Vol) (b : Nat) {i : Nat} (h : i < sfsBlkNentry)
    : (v.clear b).entry b i = 0 := by
  rw [entry, clear, write_data_self]
  have hzero : (((v.data b).copy 0 Bytes.zero sfsBlksize).drop (i * 4)).toNat 4 =
      Bytes.zero.toNat 4 := by
    apply Bytes.toNat_congr
    intro k hk
    rw [Bytes.drop_apply, Bytes.copy_of_mem]
    . rfl
    . omega
    . simp only [sfsBlkNentry, sfsBlksize] at h ⊢
      omega
  rw [hzero, Bytes.toNat_zero]

theorem MapOk.indirect_ne_zero (h : v.MapOk din) (hlt : sfsNdirect < din.blocks)
    : din.indirect ≠ 0 := by
  intro hind
  have := h.inUse sfsNdirect hlt
  rw [bmap_none (by omega) hind] at this
  exact this.ne_zero rfl

theorem MapOk.owns_inUse (h : v.MapOk din) (howns : v.Owns din b) : v.InUse b := by
  cases howns with
  | inl howns =>
    obtain ⟨i, hi, rfl⟩ := howns
    exact h.inUse i hi
  | inr howns =>
    obtain ⟨hind, rfl⟩ := howns
    exact h.indirect_inUse hind

/--
The block map only depends on the indirect block and on whether the blocks of the inode are in use.
-/
theorem MapOk.of_owns (h : v.MapOk din) (hdata : din.indirect ≠ 0 → v'.data din.indirect = v.data din.indirect)
    (hinUse : ∀ b, v.Owns din b → v'.InUse b)
    : v'.MapOk din := by
  have hbmap : ∀ i, v'.bmap din i = v.bmap din i := fun i => bmap_congr hdata
  refine ⟨h.blocks_le, ?_, ?_, ?_, ?_, ?_⟩
  . intro i hi
    rw [hbmap]
    exact hinUse _ (.inl ⟨i, hi, rfl⟩)
  . intro i hi j hj hij
    rw [hbmap, hbmap] at hij
    exact h.inj i hi j hj hij
  . intro i hi hle
    rw [hbmap]
    exact h.zero i hi hle
  . intro hind
    exact hinUse _ (.inr ⟨hind, rfl⟩)
  . intro i hi
    rw [hbmap]
    exact h.indirect_ne i hi

theorem MapOk.congr (h : v.MapOk din)
    (hdata : din.indirect ≠ 0 → v'.data din.indirect = v.data din.indirect)
    (hblocks : v'.blocks = v.blocks) (hfree : ∀ b ∈ v'.free, b ∈ v.free)
    : v'.MapOk din := by
  apply h.of_owns hdata
  intro b howns
  obtain ⟨hvalid, hmem⟩ := h.owns_inUse howns
  exact ⟨⟨hvalid.1, hblocks ▸ hvalid.2⟩, fun hb => hmem (hfree b hb)⟩

theorem Kept.mapOk (h : Kept v v') (hmap : v.MapOk din) : v'.MapOk din := by
  apply hmap.congr
  . intro hind
    exact h.data _ (hmap.indirect_inUse hind).2
  . exact h.blocks
  . exact h.free_subset

/--
The free blocks are blocks of the file system, each listed once.
-/
structure FreeOk (v : Vol) : Prop where
  nodup : v.free.Nodup
  valid : ∀ b ∈ v.free, v.Valid b

/--
The file has been extended by the block `ino`, the first free block that is not needed for the
indirect block.
-/
structure Grown (v v' : Vol) (din din' : SfsDiskInode) (ino : Nat) : Prop where
  blocks : v'.blocks = v.blocks
  free :
    (v.free = ino :: v'.free ∧ din'.indirect = din.indirect ∧
      (din.blocks < sfsNdirect ∨ din.indirect ≠ 0)) ∨
    (v.free = din'.indirect :: ino :: v'.free ∧ din.indirect = 0 ∧ sfsNdirect ≤ din.blocks)
  data : ∀ b, b ∉ v.free → ¬(din.indirect ≠ 0 ∧ b = din.indirect) → v'.data b = v.data b
  zero : ∀ i < sfsBlksize, v'.data ino i = 0
  bmap : ∀ i < maxBlocks, v'.bmap din' i = if i = din.blocks then ino else v.bmap din i
  size : din'.size = din.size
  type : din'.type = din.type
  nlinks : din'.nlinks = din.nlinks
  din_blocks : din'.blocks = din.blocks + 1

theorem Grown.mem_free (h : Grown v v' din din' ino) (hb : b ∈ v'.free) : b ∈ v.free := by
  cases h.free with
  | inl hfree =>
    rw [hfree.1]
    exact List.mem_cons_of_mem _ hb
  | inr hfree =>
    rw [hfree.1]
    exact List.mem_cons_of_mem _ (List.mem_cons_of_mem _ hb)

theorem Grown.ino_mem_free (h : Grown v v' din din' ino) : ino ∈ v.free := by
  cases h.free with
  | inl hfree => simp [hfree.1]
  | inr hfree => simp [hfree.1]

theorem Grown.ino_not_mem_free (h : Grown v v' din din' ino) (hv : v.FreeOk) : ino ∉ v'.free := by
  have hnodup := hv.nodup
  cases h.free with
  | inl hfree =>
    rw [hfree.1] at hnodup
    exact (List.nodup_cons.mp hnodup).1
  | inr hfree =>
    rw [hfree.1] at hnodup
    exact (List.nodup_cons.mp (List.nodup_cons.mp hnodup).2).1

theorem Grown.ino_inUse (h : Grown v v' din din' ino) (hv : v.FreeOk) : v'.InUse ino := by
  have := hv.valid ino h.ino_mem_free
  exact ⟨⟨this.1, h.blocks ▸ this.2⟩, h.ino_not_mem_free hv⟩

theorem Grown.inUse (h : Grown v v' din din' ino) (hb : v.InUse b) : v'.InUse b :=
  ⟨⟨hb.1.1, h.blocks ▸ hb.1.2⟩, fun hmem => hb.2 (h.mem_free hmem)⟩

theorem Grown.freeOk (h : Grown v v' din din' ino) (hv : v.FreeOk) : v'.FreeOk := by
  refine ⟨?_, ?_⟩
  . have hnodup := hv.nodup
    cases h.free with
    | inl hfree =>
      rw [hfree.1] at hnodup
      exact (List.nodup_cons.mp hnodup).2
    | inr hfree =>
      rw [hfree.1] at hnodup
      exact (List.nodup_cons.mp (List.nodup_cons.mp hnodup).2).2
  . intro b hb
    have := hv.valid b (h.mem_free hb)
    exact ⟨this.1, h.blocks ▸ this.2⟩

theorem Grown.mapOk (h : Grown v v' din din' ino) (hv : v.FreeOk) (hmap : v.MapOk din)
    (hlt : din.blocks < maxBlocks)
    : v'.MapOk din' := by
  have hino := h.ino_inUse hv
  have hne : ∀ i < din.blocks, v.bmap din i ≠ ino := by
    intro i hi heq
    exact (hmap.inUse i hi).2 (heq ▸ h.ino_mem_free)
  have hbmap : ∀ i < din'.blocks, v'.bmap din' i = if i = din.blocks then ino else v.bmap din i := by
    intro i hi
    apply h.bmap
    rw [h.din_blocks] at hi
    omega
  refine ⟨?_, ?_, ?_, ?_, ?_, ?_⟩
  . rw [h.din_blocks]
    omega
  . intro i hi
    rw [hbmap i hi]
    rw [h.din_blocks] at hi
    split
    . exact hino
    . exact h.inUse (hmap.inUse i (by omega))
  . intro i hi j hj hij
    rw [hbmap i hi, hbmap j hj] at hij
    rw [h.din_blocks] at hi hj
    by_cases hi' : i = din.blocks
    . by_cases hj' : j = din.blocks
      . omega
      . rw [if_pos hi', if_neg hj'] at hij
        exact absurd hij.symm (hne j (by omega))
    . by_cases hj' : j = din.blocks
      . rw [if_neg hi', if_pos hj'] at hij
        exact absurd hij (hne i (by omega))
      . rw [if_neg hi', if_neg hj'] at hij
        exact hmap.inj i (by omega) j (by omega) hij
  . intro i hi hle
    rw [h.din_blocks] at hle
    rw [h.bmap i hi, if_neg (by omega)]
    exact hmap.zero i hi (by omega)
  . intro hind
    cases h.free with
    | inl hfree =>
      rw [hfree.2.1] at hind ⊢
      exact h.inUse (hmap.indirect_inUse hind)
    | inr hfree =>
      have hnodup := hv.nodup
      have hvalid := hv.valid din'.indirect (by simp [hfree.1])
      rw [hfree.1] at hnodup
      refine ⟨⟨hvalid.1, h.blocks ▸ hvalid.2⟩, ?_⟩
      intro hmem
      exact (List.nodup_cons.mp hnodup).1 (List.mem_cons_of_mem _ hmem)
  . intro i hi
    rw [hbmap i hi]
    rw [h.din_blocks] at hi
    cases h.free with
    | inl hfree =>
      rw [hfree.2.1]
      split
      . intro heq
        by_cases hind : din.indirect = 0
        . exact hino.ne_zero (heq.trans hind)
        . exact (hmap.indirect_inUse hind).2 (heq ▸ h.ino_mem_free)
      . exact hmap.indirect_ne i (by omega)
    | inr hfree =>
      have hnodup := hv.nodup
      rw [hfree.1] at hnodup
      split
      . intro heq
        exact (List.nodup_cons.mp hnodup).1 (by simp [heq])
      . intro heq
        apply (hmap.inUse i (by omega)).2
        rw [hfree.1, heq]
        exact List.mem_cons_self

end Vol

/--
The number of blocks it takes to append one block to the file.
-/
def SfsDiskInode.need (din : SfsDiskInode) : Nat :=
  if din.blocks < sfsNdirect ∨ din.indirect ≠ 0 then 1 else 2

theorem SfsFs.Ok.free_lt {sfs : SfsFs} (h : sfs.Ok) {b : Nat} (hb : b ∈ sfs.vol.free)
    : b < 2 ^ 32 := by
  have h₁ := (h.free_valid b hb).2
  have h₂ := h.blocks_lt
  omega

theorem SfsFs.Ok.freeOk {sfs : SfsFs} (h : sfs.Ok) : sfs.vol.FreeOk :=
  ⟨h.free_nodup, h.free_valid⟩

end Ucore

import Ucore.Kern.Fs.Sfs.SfsInode.Lemmas.BmapTruncate

/-!
This module contains what all operations on the block map of an inode have in common: the inode only
exchanges blocks with the free blocks, and no other block in use changes. It also contains the
content of the file as a sequence of blocks and how appending or removing a block changes it.
-/

namespace Ucore

open Faults (cost)

namespace Vol

variable {v v' v'' : Vol} {din din' din'' : SfsDiskInode} {ino : Nat}

/--
Only blocks the inode owns and free blocks change, and the inode only takes blocks from there.
-/
structure Confined (v v' : Vol) (din din' : SfsDiskInode) : Prop where
  blocks : v'.blocks = v.blocks
  data : ∀ b, b ∉ v.free → ¬v.Owns din b → v'.data b = v.data b
  sub : ∀ b, v'.Owns din' b ∨ b ∈ v'.free → v.Owns din b ∨ b ∈ v.free

/--
No block is lost: what the inode owned and what was free still is one or the other.
-/
def Conserved (v v' : Vol) (din din' : SfsDiskInode) : Prop :=
  ∀ b, v.Owns din b ∨ b ∈ v.free → v'.Owns din' b ∨ b ∈ v'.free

theorem Confined.refl (v : Vol) (din : SfsDiskInode) : Confined v v din din :=
  ⟨rfl, fun _ _ _ => rfl, fun _ => id⟩

theorem Confined.trans (h₁ : Confined v v' din din') (h₂ : Confined v' v'' din' din'')
    : Confined v v'' din din'' := by
  refine ⟨h₂.blocks.trans h₁.blocks, ?_, fun b hb => h₁.sub b (h₂.sub b hb)⟩
  intro b hfree howns
  have hout : ¬(v'.Owns din' b ∨ b ∈ v'.free) := by
    intro h
    cases h₁.sub b h with
    | inl h => exact howns h
    | inr h => exact hfree h
  rw [not_or] at hout
  rw [h₂.data b hout.2 hout.1, h₁.data b hfree howns]

theorem Conserved.trans (h₁ : Conserved v v' din din') (h₂ : Conserved v' v'' din' din'')
    : Conserved v v'' din din'' :=
  fun b hb => h₂ b (h₁ b hb)

theorem owns_congr (hblocks : din'.blocks = din.blocks) (hindirect : din'.indirect = din.indirect)
    (hbmap : ∀ i < din.blocks, v'.bmap din' i = v.bmap din i) (b : Nat)
    : v'.Owns din' b ↔ v.Owns din b := by
  unfold Owns
  rw [hblocks, hindirect]
  constructor
  . intro h
    cases h with
    | inl h =>
      obtain ⟨i, hi, hb⟩ := h
      exact .inl ⟨i, hi, by rw [← hbmap i hi, hb]⟩
    | inr h => exact .inr h
  . intro h
    cases h with
    | inl h =>
      obtain ⟨i, hi, hb⟩ := h
      exact .inl ⟨i, hi, by rw [hbmap i hi, hb]⟩
    | inr h => exact .inr h

theorem Kept.owns (h : Kept v v') (hmap : v.MapOk din) (b : Nat) : v'.Owns din b ↔ v.Owns din b :=
  owns_congr rfl rfl
    (fun _ _ => bmap_congr fun hind => h.data _ (hmap.indirect_inUse hind).2) b

theorem Kept.confined (h : Kept v v') (hmap : v.MapOk din) : Confined v v' din din := by
  refine ⟨h.blocks, fun b hfree _ => h.data b hfree, ?_⟩
  intro b hb
  rw [h.owns hmap] at hb
  exact hb.imp id (h.free_subset b)

theorem Kept.conserved (h : Kept v v') (hmap : v.MapOk din) (hclear : ∀ n, v.env .clear n = none)
    : Conserved v v' din din := by
  intro b hb
  rwa [h.owns hmap, h.free_eq hclear]

theorem Grown.owns (h : Grown v v' din din' ino) (hv : v.FreeOk) (hlt : din.blocks < maxBlocks)
    (b : Nat)
    : v'.Owns din' b ∨ b ∈ v'.free ↔ v.Owns din b ∨ b ∈ v.free := by
  have hmapped : (∃ i < din'.blocks, v'.bmap din' i = b) ↔
      (∃ i < din.blocks, v.bmap din i = b) ∨ b = ino := by
    constructor
    . intro ⟨i, hi, hb⟩
      rw [h.din_blocks] at hi
      rw [h.bmap i (by omega)] at hb
      by_cases hib : i = din.blocks
      . rw [if_pos hib] at hb
        exact .inr hb.symm
      . rw [if_neg hib] at hb
        exact .inl ⟨i, by omega, hb⟩
    . intro hb
      cases hb with
      | inl hb =>
        obtain ⟨i, hi, hb⟩ := hb
        refine ⟨i, by rw [h.din_blocks]; omega, ?_⟩
        rw [h.bmap i (by omega), if_neg (by omega), hb]
      | inr hb =>
        refine ⟨din.blocks, by rw [h.din_blocks]; omega, ?_⟩
        rw [h.bmap _ hlt, if_pos rfl, hb]
  unfold Owns
  rw [hmapped]
  cases h.free with
  | inl hfree =>
    rw [hfree.1, hfree.2.1, List.mem_cons]
    grind
  | inr hfree =>
    have hne : din'.indirect ≠ 0 := (hv.valid din'.indirect (by simp [hfree.1])).1
    rw [hfree.1, List.mem_cons, List.mem_cons]
    grind

theorem Grown.confined (h : Grown v v' din din' ino) (hv : v.FreeOk) (hlt : din.blocks < maxBlocks)
    : Confined v v' din din' :=
  ⟨h.blocks, fun b hfree howns => h.data b hfree fun hb => howns (.inr hb),
    fun b => (h.owns hv hlt b).mp⟩

theorem Grown.conserved (h : Grown v v' din din' ino) (hv : v.FreeOk) (hlt : din.blocks < maxBlocks)
    : Conserved v v' din din' :=
  fun b => (h.owns hv hlt b).mpr

theorem Shrunk.owns (h : Shrunk v v' din din') (hmap : v.MapOk din) (hne : din.blocks ≠ 0) (b : Nat)
    : v'.Owns din' b ∨ b ∈ v'.free ↔ v.Owns din b ∨ b ∈ v.free := by
  have hle := hmap.blocks_le
  have hmapped : (∃ i < din.blocks, v.bmap din i = b) ↔
      (∃ i < din'.blocks, v'.bmap din' i = b) ∨ b = v.bmap din (din.blocks - 1) := by
    constructor
    . intro ⟨i, hi, hb⟩
      by_cases hib : i = din.blocks - 1
      . exact .inr (by rw [← hb, hib])
      . refine .inl ⟨i, by rw [h.din_blocks]; omega, ?_⟩
        rw [h.bmap i (by omega), if_neg hib, hb]
    . intro hb
      cases hb with
      | inl hb =>
        obtain ⟨i, hi, hb⟩ := hb
        rw [h.din_blocks] at hi
        rw [h.bmap i (by omega), if_neg (by omega)] at hb
        exact ⟨i, by omega, hb⟩
      | inr hb => exact ⟨din.blocks - 1, by omega, hb.symm⟩
  unfold Owns
  rw [hmapped, h.indirect, h.free, List.mem_orderedInsert]
  grind

theorem Shrunk.confined (h : Shrunk v v' din din') (hmap : v.MapOk din) (hne : din.blocks ≠ 0)
    : Confined v v' din din' :=
  ⟨h.blocks, fun b _ howns => h.data b fun hb => howns (.inr hb),
    fun b => (h.owns hmap hne b).mp⟩

theorem Shrunk.conserved (h : Shrunk v v' din din') (hmap : v.MapOk din) (hne : din.blocks ≠ 0)
    : Conserved v v' din din' :=
  fun b => (h.owns hmap hne b).mpr

/--
Block `i` of the file. A block the file does not have reads as zeros.
-/
def block (v : Vol) (din : SfsDiskInode) (i : Nat) : Bytes := fun off =>
  if i < din.blocks ∧ off < sfsBlksize then v.data (v.bmap din i) off else 0

theorem block_of_lt {i off : Nat} (hi : i < din.blocks) (hoff : off < sfsBlksize)
    : v.block din i off = v.data (v.bmap din i) off := by
  rw [block, if_pos ⟨hi, hoff⟩]

theorem block_of_ge {i : Nat} (hi : din.blocks ≤ i) : v.block din i = Bytes.zero := by
  funext off
  rw [block, if_neg (by omega)]
  rfl

theorem Kept.block (h : Kept v v') (hmap : v.MapOk din) (i : Nat)
    : v'.block din i = v.block din i := by
  funext off
  unfold Vol.block
  split
  . next hi =>
    have hbmap : v'.bmap din i = v.bmap din i :=
      bmap_congr fun hind => h.data _ (hmap.indirect_inUse hind).2
    rw [hbmap, h.data _ (hmap.inUse i hi.1).2]
  . rfl

theorem Grown.block (h : Grown v v' din din' ino) (hmap : v.MapOk din)
    (hlt : din.blocks < maxBlocks) (i : Nat)
    : v'.block din' i = v.block din i := by
  funext off
  unfold Vol.block
  rw [h.din_blocks]
  by_cases hoff : off < sfsBlksize
  . by_cases hi : i < din.blocks
    . rw [if_pos ⟨by omega, hoff⟩, if_pos ⟨hi, hoff⟩, h.bmap i (by omega), if_neg (by omega),
        h.data _ (hmap.inUse i hi).2 fun hind => hmap.indirect_ne i hi hind.2]
    . by_cases hib : i = din.blocks
      . rw [if_pos ⟨by omega, hoff⟩, if_neg (by omega), h.bmap i (by omega), if_pos hib,
          h.zero off hoff]
      . rw [if_neg (by omega), if_neg (by omega)]
  . rw [if_neg (by omega), if_neg (by omega)]

theorem Shrunk.block (h : Shrunk v v' din din') (hmap : v.MapOk din) (i : Nat)
    : v'.block din' i = if i < din.blocks - 1 then v.block din i else Bytes.zero := by
  have hle := hmap.blocks_le
  funext off
  by_cases hi : i < din.blocks - 1
  . unfold Vol.block
    rw [if_pos hi, h.din_blocks]
    by_cases hoff : off < sfsBlksize
    . rw [if_pos ⟨hi, hoff⟩, if_pos ⟨by omega, hoff⟩, h.bmap i (by omega), if_neg (by omega),
        h.data _ fun hind => hmap.indirect_ne i (by omega) hind.2]
    . rw [if_neg (by omega), if_neg (by omega)]
  . rw [if_neg hi, block_of_ge]
    rw [h.din_blocks]
    omega

end Vol

namespace SfsCtx

variable {s s' s'' : SfsCtx}

/--
No clearing of a block will fail.
-/
def ClearOk (sfs : SfsFs) : Prop := ∀ n, sfs.env .clear n = none

/--
What all operations on the block map of an inode have in common.
-/
structure Frame (s s' : SfsCtx) : Prop where
  ok : s'.sfs.Ok
  mapOk : s'.sfs.vol.MapOk s'.sin.din
  confined : s.sfs.vol.Confined s'.sfs.vol s.sin.din s'.sin.din
  conserved : ClearOk s.sfs → s.sfs.vol.Conserved s'.sfs.vol s.sin.din s'.sin.din
  env : ∃ c, s'.sfs.env = s.sfs.env.drop c
  type : s'.sin.din.type = s.sin.din.type
  nlinks : s'.sin.din.nlinks = s.sin.din.nlinks
  ino : s'.sin.ino = s.sin.ino
  reclaimCount : s'.sin.reclaimCount = s.sin.reclaimCount

theorem Frame.refl (hok : s.sfs.Ok) (hmap : s.sfs.vol.MapOk s.sin.din) : Frame s s :=
  ⟨hok, hmap, Vol.Confined.refl _ _, fun _ _ => id, ⟨0, by simp⟩, rfl, rfl, rfl, rfl⟩

theorem Frame.trans (h₁ : Frame s s') (h₂ : Frame s' s'') : Frame s s'' := by
  obtain ⟨c, hc⟩ := h₁.env
  obtain ⟨d, hd⟩ := h₂.env
  refine ⟨h₂.ok, h₂.mapOk, h₁.confined.trans h₂.confined, ?_, ⟨c + d, ?_⟩,
    h₂.type.trans h₁.type, h₂.nlinks.trans h₁.nlinks, h₂.ino.trans h₁.ino,
    h₂.reclaimCount.trans h₁.reclaimCount⟩
  . intro hclear
    apply (h₁.conserved hclear).trans
    apply h₂.conserved
    intro n
    rw [hc]
    exact hclear _
  . rw [hd, hc, Faults.drop_drop]

theorem Frame.of_kept (hok : s'.sfs.Ok) (hmap : s.sfs.vol.MapOk s.sin.din) (hsin : s'.sin = s.sin)
    (hkept : s.sfs.vol.Kept s'.sfs.vol)
    : Frame s s' := by
  refine ⟨hok, ?_, ?_, ?_, hkept.env, by rw [hsin], by rw [hsin], by rw [hsin], by rw [hsin]⟩
  . rw [hsin]
    exact hkept.mapOk hmap
  . rw [hsin]
    exact hkept.confined hmap
  . rw [hsin]
    exact hkept.conserved hmap

theorem Frame.requested (hok : s.sfs.Ok) (hmap : s.sfs.vol.MapOk s.sin.din) (c : Request → Nat)
    : Frame s { s with sfs := s.sfs.requested c } :=
  Frame.of_kept (hok.requested c) hmap rfl ((Vol.Kept.refl _).requested c)

theorem LoadedNew.frame {ino : Nat} (h : LoadedNew s s' ino) (hok : s.sfs.Ok)
    (hmap : s.sfs.vol.MapOk s.sin.din) (hlt : s.sin.din.blocks < maxBlocks)
    : Frame s s' :=
  ⟨h.ok, h.grown.mapOk hok.freeOk hmap hlt, h.grown.confined hok.freeOk hlt,
    fun _ => h.grown.conserved hok.freeOk hlt, ⟨_, h.env⟩, h.grown.type, h.grown.nlinks,
    by rw [h.sin], by rw [h.sin]⟩

theorem LoadFailed.frame (h : LoadFailed s s') (hmap : s.sfs.vol.MapOk s.sin.din) : Frame s s' :=
  Frame.of_kept h.ok hmap h.sin h.kept

theorem Truncated.frame (h : Truncated s s') (hmap : s.sfs.vol.MapOk s.sin.din)
    (hne : s.sin.din.blocks ≠ 0)
    : Frame s s' :=
  ⟨h.ok, h.shrunk.mapOk hmap hne, h.shrunk.confined hmap hne, fun _ => h.shrunk.conserved hmap hne,
    ⟨_, h.env⟩, h.shrunk.type, h.shrunk.nlinks, by rw [h.sin], by rw [h.sin]⟩

/--
The size and the dirty flag are not part of the block map.
-/
theorem Frame.setSize {n : Nat} {dirty : Bool} (h : Frame s s')
    : Frame s ((s'.setDin (s'.sin.din.setSize n)).setDirty dirty) := by
  have howns : ∀ b, s'.sfs.vol.Owns (s'.sin.din.setSize n) b ↔ s'.sfs.vol.Owns s'.sin.din b :=
    fun _ => Iff.rfl
  refine ⟨h.ok, ?_, ⟨h.confined.blocks, h.confined.data, h.confined.sub⟩, h.conserved, h.env, h.type,
    h.nlinks, h.ino, h.reclaimCount⟩
  exact ⟨h.mapOk.1, h.mapOk.2, h.mapOk.3, h.mapOk.4, h.mapOk.5, h.mapOk.6⟩

end SfsCtx

end Ucore

import Ucore.Kern.Fs.Sfs.SfsInode.Lemmas.Io

/-!
This module contains the specification of the loops of `sfs_truncfile`: how far they get, and which
requests that takes.
-/

namespace Ucore

open Faults (cost)

namespace SfsDiskInode

/--
The accesses to the indirect block it takes to let the file grow to `hi` blocks.
-/
def growEntries (din : SfsDiskInode) (hi : Nat) : Nat :=
  3 * (hi - max din.blocks sfsNdirect) - if sfsNdirect < hi ∧ din.indirect = 0 then 1 else 0

/--
The requests it takes to let the file grow to `hi` blocks.
-/
def growCosts (din : SfsDiskInode) (hi : Nat) : Request → Nat :=
  cost .clear (din.needTo hi) + cost .entry (din.growEntries hi)

/--
The requests it takes to let the file shrink to `lo` blocks.
-/
def shrinkCosts (din : SfsDiskInode) (lo : Nat) : Request → Nat :=
  cost .entry (3 * (din.blocks - max lo sfsNdirect))

theorem shrinkCost_eq (din : SfsDiskInode) (h : din.blocks ≠ 0)
    : din.shrinkCost = din.shrinkCosts (din.blocks - 1) := by
  unfold shrinkCost shrinkCosts
  split
  . rw [show din.blocks - max (din.blocks - 1) sfsNdirect = 0 by omega, Nat.mul_zero,
      Faults.cost_zero]
  . rw [show din.blocks - max (din.blocks - 1) sfsNdirect = 1 by omega, Faults.cost_add]

end SfsDiskInode

namespace Vol

variable {v v' : Vol} {din din' : SfsDiskInode} {ino hi : Nat}

theorem MapOk.needTo_self (h : v.MapOk din) : din.needTo din.blocks = 0 := by
  unfold SfsDiskInode.needTo
  rw [Nat.sub_self, if_neg]
  intro ⟨hlt, hind⟩
  exact h.indirect_ne_zero hlt hind

theorem MapOk.growCosts_self (h : v.MapOk din) : din.growCosts din.blocks = 0 := by
  unfold SfsDiskInode.growCosts SfsDiskInode.growEntries
  rw [h.needTo_self, Nat.sub_eq_zero_of_le (Nat.le_max_left _ _), Nat.mul_zero, Nat.zero_sub,
    Faults.cost_zero, Faults.cost_zero]
  rfl

theorem Grown.growCosts (h : v.Grown v' din din' ino) (hv : v.FreeOk) (hlt : din.blocks < hi)
    : din.growCost + din'.growCosts hi = din.growCosts hi := by
  unfold SfsDiskInode.growCost SfsDiskInode.growCosts SfsDiskInode.growEntries
    SfsDiskInode.needTo
  rw [h.din_blocks]
  cases h.free with
  | inl hfree =>
    rw [hfree.2.1]
    funext k
    by_cases hdir : din.blocks < sfsNdirect
    . rw [if_pos hdir]
      simp only [Pi.add_apply, cost]
      grind
    . have hind : din.indirect ≠ 0 := hfree.2.2.resolve_left hdir
      rw [if_neg hdir, if_pos hind, if_neg fun h => hind h.2]
      simp only [Pi.add_apply, cost]
      grind
  | inr hfree =>
    have hne : din'.indirect ≠ 0 := (hv.valid _ (by simp [hfree.1])).1
    rw [if_neg (by omega), if_neg (by simp [hfree.2.1]), if_neg fun h => hne h.2]
    funext k
    simp only [Pi.add_apply, cost]
    grind

theorem Grown.growDirty (h : v.Grown v' din din' ino) (hdirty : din.growDirty = false)
    : din'.growDirty = false := by
  unfold SfsDiskInode.growDirty at hdirty ⊢
  rw [decide_eq_false_iff_not, not_or] at hdirty ⊢
  rw [h.din_blocks]
  cases h.free with
  | inl hfree =>
    rw [hfree.2.1]
    exact ⟨by omega, hdirty.2⟩
  | inr hfree => exact absurd hfree.2.1 hdirty.2

end Vol

namespace SfsCtx

variable {s s' s'' : SfsCtx}

/--
What appending `n` blocks to the file does.
-/
structure Grew (n : Nat) (s s' : SfsCtx) : Prop where
  frame : Frame s s'
  size : s'.sin.din.size = s.sin.din.size
  blocks : s'.sin.din.blocks = s.sin.din.blocks + n
  bmap : ∀ i < s.sin.din.blocks, s'.sfs.vol.bmap s'.sin.din i = s.sfs.vol.bmap s.sin.din i
  content : s'.sfs.vol.content s'.sin.din = s.sfs.vol.content s.sin.din
  dirty : s'.sin.dirty = (s.sin.dirty || (decide (0 < n) && s.sin.din.growDirty))
  env : s'.sfs.env = s.sfs.env.drop (s.sin.din.growCosts (s.sin.din.blocks + n))
  answers : s.sfs.env.Answers (s.sin.din.growCosts (s.sin.din.blocks + n))
  space : s.sin.din.needTo (s.sin.din.blocks + n) ≤ s.sfs.vol.free.length
  needTo : ∀ hi, s.sin.din.blocks + n ≤ hi → s'.sfs.vol.free.length + s.sin.din.needTo hi =
    s.sfs.vol.free.length + s'.sin.din.needTo hi
  growCosts : ∀ hi, s.sin.din.blocks + n ≤ hi →
    s.sin.din.growCosts (s.sin.din.blocks + n) + s'.sin.din.growCosts hi = s.sin.din.growCosts hi
  zero : n = 0 → s' = s

theorem Grew.refl (hok : s.sfs.Ok) (hmap : s.sfs.vol.MapOk s.sin.din) : Grew 0 s s := by
  refine ⟨Frame.refl hok hmap, rfl, rfl, fun _ _ => rfl, rfl, by simp, ?_, ?_, ?_, fun _ _ => rfl,
    ?_, fun _ => rfl⟩
  . rw [Nat.add_zero, hmap.growCosts_self, Faults.drop_zero]
  . rw [Nat.add_zero, hmap.growCosts_self]
    exact Faults.answers_zero
  . rw [Nat.add_zero, hmap.needTo_self]
    exact Nat.zero_le _
  . intro hi _
    rw [Nat.add_zero, hmap.growCosts_self, zero_add]

theorem LoadedNew.grew {n ino : Nat} (h : LoadedNew s s' ino) (hok : s.sfs.Ok)
    (hmap : s.sfs.vol.MapOk s.sin.din) (hlt : s.sin.din.blocks < maxBlocks)
    (hgrew : Grew n s' s'')
    : Grew (n + 1) s s'' := by
  have hblocks : s'.sin.din.blocks + n = s.sin.din.blocks + (n + 1) := by
    rw [h.grown.din_blocks]
    omega
  have hcosts : s.sin.din.growCost + s'.sin.din.growCosts (s.sin.din.blocks + (n + 1)) =
      s.sin.din.growCosts (s.sin.din.blocks + (n + 1)) :=
    h.grown.growCosts hok.freeOk (by omega)
  have henv := hgrew.env
  have hanswers := hgrew.answers
  have hspace := hgrew.space
  have hneedTo := hgrew.needTo
  have hgrowCosts := hgrew.growCosts
  rw [hblocks] at henv hanswers hspace hneedTo hgrowCosts
  refine ⟨(h.frame hok hmap hlt).trans hgrew.frame, hgrew.size.trans h.grown.size,
    hgrew.blocks.trans hblocks, ?_, ?_, ?_, ?_, ?_, ?_, ?_, ?_, by omega⟩
  . intro i hi
    rw [hgrew.bmap i (by rw [h.grown.din_blocks]; omega), h.grown.bmap i (by omega),
      if_neg (by omega)]
  . rw [hgrew.content]
    exact Vol.content_congr (h.grown.block hmap hlt)
  . rw [hgrew.dirty, h.sin]
    cases hdirty : s.sin.din.growDirty with
    | true => simp
    | false => simp [h.grown.growDirty hdirty]
  . rw [henv, h.env, Faults.drop_drop, hcosts]
  . rw [← hcosts]
    rw [h.env] at hanswers
    exact Faults.answers_add.mpr ⟨h.answers, hanswers⟩
  . have := h.grown.needTo hok.freeOk (show s.sin.din.blocks < s.sin.din.blocks + (n + 1) by omega)
    omega
  . intro hi hhi
    have := h.grown.needTo hok.freeOk (show s.sin.din.blocks < hi by omega)
    have := hneedTo hi hhi
    omega
  . intro hi hhi
    rw [← hcosts, ← h.grown.growCosts hok.freeOk (show s.sin.din.blocks < hi by omega), add_assoc,
      hgrowCosts hi hhi]

/--
The loop appends block after block until one of them cannot be appended.
-/
theorem growLoop_sat {n : Nat} (hok : s.sfs.Ok) (hmap : s.sfs.vol.MapOk s.sin.din)
    : (growLoop s.sin.din.blocks n s).Sat (fun _ s' => Grew n s s')
        (fun _ s' => ∃ j < n, ∃ t, Grew j s t ∧ LoadFailed t s')
        (fun p => p = .sfsBmapGetOutOfRange ∧ maxBlocks < s.sin.din.blocks + n ∧
          ∃ t, Grew (maxBlocks - s.sin.din.blocks) s t) := by
  induction n generalizing s with
  | zero =>
    rw [growLoop, Prog.pure_run]
    exact Grew.refl hok hmap
  | succ n ih =>
    rw [growLoop]
    by_cases hlt : s.sin.din.blocks < maxBlocks
    . apply Prog.sat_bind (sfsBmapLoadNolock_new hok hmap hlt)
      . intro ino t hloaded
        have hblocks := hloaded.grown.din_blocks
        rw [← hblocks]
        apply (ih hloaded.ok (hloaded.frame hok hmap hlt).mapOk).mono
        . exact fun _ s' hgrew => hloaded.grew hok hmap hlt hgrew
        . intro _ s' ⟨j, hj, u, hgrew, hfailed⟩
          exact ⟨j + 1, by omega, u, hloaded.grew hok hmap hlt hgrew, hfailed⟩
        . intro p ⟨hp, hfull, u, hgrew⟩
          refine ⟨hp, by omega, u, ?_⟩
          have := hloaded.grew hok hmap hlt hgrew
          rwa [show maxBlocks - t.sin.din.blocks + 1 = maxBlocks - s.sin.din.blocks by omega] at this
      . exact fun _ s' hfailed => ⟨0, by omega, s, Grew.refl hok hmap, hfailed⟩
      . exact fun _ => False.elim
    . have hblocks : s.sin.din.blocks = maxBlocks := Nat.le_antisymm hmap.blocks_le (by omega)
      rw [Prog.bind_run_panic (sfsBmapLoadNolock_outOfRange (by omega))]
      refine ⟨rfl, by omega, s, ?_⟩
      rw [hblocks, Nat.sub_self]
      exact Grew.refl hok hmap

/--
What removing the last `n` blocks of the file does.
-/
structure Shrank (n : Nat) (s s' : SfsCtx) : Prop where
  frame : Frame s s'
  size : s'.sin.din.size = s.sin.din.size
  le : n ≤ s.sin.din.blocks
  blocks : s'.sin.din.blocks = s.sin.din.blocks - n
  bmap : ∀ i < s.sin.din.blocks - n,
    s'.sfs.vol.bmap s'.sin.din i = s.sfs.vol.bmap s.sin.din i
  block : ∀ i, s'.sfs.vol.block s'.sin.din i =
    if i < s.sin.din.blocks - n then s.sfs.vol.block s.sin.din i else Bytes.zero
  dirty : s'.sin.dirty = (s.sin.dirty || decide (0 < n))
  env : s'.sfs.env = s.sfs.env.drop (s.sin.din.shrinkCosts (s.sin.din.blocks - n))
  answers : s.sfs.env.Answers (s.sin.din.shrinkCosts (s.sin.din.blocks - n))
  free : s'.sfs.vol.free.length = s.sfs.vol.free.length + n
  zero : n = 0 → s' = s

theorem Shrank.refl (hok : s.sfs.Ok) (hmap : s.sfs.vol.MapOk s.sin.din) : Shrank 0 s s := by
  have hcosts : s.sin.din.shrinkCosts (s.sin.din.blocks - 0) = 0 := by
    rw [SfsDiskInode.shrinkCosts, Nat.sub_zero, Nat.sub_eq_zero_of_le (Nat.le_max_left _ _),
      Nat.mul_zero, Faults.cost_zero]
  refine ⟨Frame.refl hok hmap, rfl, Nat.zero_le _, rfl, fun _ _ => rfl, ?_, by simp, ?_, ?_, rfl,
    fun _ => rfl⟩
  . intro i
    split
    . rfl
    . exact Vol.block_of_ge (by omega)
  . rw [hcosts, Faults.drop_zero]
  . rw [hcosts]
    exact Faults.answers_zero

theorem Truncated.shrank {n : Nat} (h : Truncated s s') (hmap : s.sfs.vol.MapOk s.sin.din)
    (hne : s.sin.din.blocks ≠ 0) (hshrank : Shrank n s' s'')
    : Shrank (n + 1) s s'' := by
  have hle := hmap.blocks_le
  have hlen := hshrank.le
  have hblocks : s'.sin.din.blocks - n = s.sin.din.blocks - (n + 1) := by
    rw [h.shrunk.din_blocks]
    omega
  have hcosts : s.sin.din.shrinkCost + s'.sin.din.shrinkCosts (s.sin.din.blocks - (n + 1)) =
      s.sin.din.shrinkCosts (s.sin.din.blocks - (n + 1)) := by
    rw [s.sin.din.shrinkCost_eq hne]
    unfold SfsDiskInode.shrinkCosts
    rw [h.shrunk.din_blocks, Faults.cost_add]
    congr 1
    omega
  have henv := hshrank.env
  have hanswers := hshrank.answers
  have hbmap := hshrank.bmap
  have hblock := hshrank.block
  rw [hblocks] at henv hanswers hbmap hblock
  rw [h.shrunk.din_blocks] at hlen
  refine ⟨(h.frame hmap hne).trans hshrank.frame, hshrank.size.trans h.shrunk.size, by omega,
    hshrank.blocks.trans hblocks, ?_, ?_, ?_, ?_, ?_, ?_, by omega⟩
  . intro i hi
    rw [hbmap i hi, h.shrunk.bmap i (by omega), if_neg (by omega)]
  . intro i
    rw [hblock i]
    split
    . rw [h.shrunk.block hmap, if_pos (by omega)]
    . rfl
  . rw [hshrank.dirty, h.sin]
    simp
  . rw [henv, h.env, Faults.drop_drop, hcosts]
  . rw [← hcosts]
    rw [h.env] at hanswers
    exact Faults.answers_add.mpr ⟨h.answers, hanswers⟩
  . rw [hshrank.free, h.shrunk.free, List.orderedInsert_length]
    omega

/--
The loop removes block after block until the indirect block cannot be accessed.
-/
theorem shrinkLoop_sat {n : Nat} (hok : s.sfs.Ok) (hmap : s.sfs.vol.MapOk s.sin.din)
    (hle : n ≤ s.sin.din.blocks)
    : (shrinkLoop n s).Sat (fun _ s' => Shrank n s s')
        (fun _ s' => ∃ j < n, ∃ t, Shrank j s t ∧ (∃ c, s' = { t with sfs := t.sfs.requested c }) ∧
          ¬t.sfs.env.Answers t.sin.din.shrinkCost)
        (fun _ => False) := by
  induction n generalizing s with
  | zero =>
    rw [shrinkLoop, Prog.pure_run]
    exact Shrank.refl hok hmap
  | succ n ih =>
    have hne : s.sin.din.blocks ≠ 0 := by omega
    rw [shrinkLoop]
    apply Prog.sat_bind (sfsBmapTruncateNolock_sat hok hmap hne)
    . intro _ t htruncated
      have hblocks := htruncated.shrunk.din_blocks
      apply (ih htruncated.ok (htruncated.frame hmap hne).mapOk (by omega)).mono
      . exact fun _ s' hshrank => htruncated.shrank hmap hne hshrank
      . intro _ s' ⟨j, hj, u, hshrank, hfailed⟩
        exact ⟨j + 1, by omega, u, htruncated.shrank hmap hne hshrank, hfailed⟩
      . exact fun _ => id
    . exact fun _ s' hfailed => ⟨0, by omega, s, Shrank.refl hok hmap, hfailed⟩
    . exact fun _ => id

end SfsCtx

end Ucore

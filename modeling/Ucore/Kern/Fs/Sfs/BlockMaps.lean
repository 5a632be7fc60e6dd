import Ucore.Kern.Fs.Sfs.NewFs
import Ucore.Kern.Fs.Sfs.SfsInode.Lemmas.Frame
import Ucore.Lib.Run

/-!
This module contains the runs of `sfs_bmap_load_nolock` and `sfs_bmap_truncate_nolock` on the inodes of one file system:
what each call does to the block map of its inode, and that it leaves the other ones alone.
-/

namespace Ucore

namespace Vol

variable {v v' : Vol} {din din' other : SfsDiskInode}

/--
An operation on one inode leaves the block map of another one alone that has none of its blocks.
-/
theorem Confined.bmap_other (h : Confined v v' din din') (hother : v.MapOk other)
    (hapart : ∀ b, v.Owns other b → ¬v.Owns din b) (i : Nat)
    : v'.bmap other i = v.bmap other i := by
  apply bmap_congr
  intro hind
  exact h.data _ (hother.indirect_inUse hind).2 (hapart _ (.inr ⟨hind, rfl⟩))

theorem Confined.inUse_other (h : Confined v v' din din') (hother : v.MapOk other)
    (hapart : ∀ b, v.Owns other b → ¬v.Owns din b) {b : Nat} (hb : v.Owns other b)
    : v'.InUse b ∧ ¬v'.Owns din' b := by
  have hinUse := hother.owns_inUse hb
  have hout : ¬(v'.Owns din' b ∨ b ∈ v'.free) := fun hor => (h.sub b hor).elim (hapart b hb) hinUse.2
  rw [not_or] at hout
  exact ⟨⟨⟨hinUse.1.1, h.blocks ▸ hinUse.1.2⟩, hout.2⟩, hout.1⟩

theorem Confined.mapOk_other (h : Confined v v' din din') (hother : v.MapOk other)
    (hapart : ∀ b, v.Owns other b → ¬v.Owns din b)
    : v'.MapOk other := by
  apply hother.of_owns
  . intro hind
    exact h.data _ (hother.indirect_inUse hind).2 (hapart _ (.inr ⟨hind, rfl⟩))
  . exact fun b hb => (h.inUse_other hother hapart hb).1

end Vol

/--
A file system and its inodes in memory.
-/
structure SfsInodes (ι : Type) where
  sfs : SfsFs
  inodes : ι → SfsInode

inductive BmapCall (ι : Type) where
  | load (i : ι) (index : Nat)
  | truncate (i : ι)

namespace SfsInodes

variable {ι : Type}

def ctx (c : SfsInodes ι) (i : ι) : SfsCtx := ⟨c.sfs, c.inodes i⟩

/--
Block `index` of inode `i`.
-/
def map (c : SfsInodes ι) (i : ι) (index : Nat) : Nat := c.sfs.vol.bmap (c.inodes i).din index

def blocks (c : SfsInodes ι) (i : ι) : Nat := (c.inodes i).din.blocks

def free (c : SfsInodes ι) : List Nat := c.sfs.vol.free

/--
The block maps are well formed, and no block belongs to two inodes.
-/
structure Consistent (c : SfsInodes ι) : Prop where
  ok : c.sfs.Ok
  mapOk : ∀ i, c.sfs.vol.MapOk (c.inodes i).din
  apart : ∀ i j, i ≠ j → ∀ b, c.sfs.vol.Owns (c.inodes i).din b → ¬c.sfs.vol.Owns (c.inodes j).din b

/--
No block is behind two indices of one inode.
-/
def Injective (c : SfsInodes ι) : Prop :=
  ∀ i, ∀ x < c.blocks i, ∀ y < c.blocks i, c.map i x = c.map i y → x = y

/--
The entries of all other indices and of all other inodes are unchanged.
-/
structure OnlyEntry (i : ι) (index : Nat) (c c' : SfsInodes ι) : Prop where
  entries : ∀ x < maxBlocks, x ≠ index → c'.map i x = c.map i x
  others : ∀ j, j ≠ i → c'.inodes j = c.inodes j ∧ ∀ x, c'.map j x = c.map j x

/--
What loading an index that the inode has ought to do.
-/
structure Found (i : ι) (index ino : Nat) (c c' : SfsInodes ι) : Prop where
  result : ino = c.map i index
  entry : c'.map i index = c.map i index
  blocks : c'.blocks i = c.blocks i
  free : c'.free = c.free
  only : OnlyEntry i index c c'

/--
What loading the first index that the inode does not have ought to do. At most the indirect block is taken besides the
block.
-/
structure Extended (i : ι) (index ino : Nat) (c c' : SfsInodes ι) : Prop where
  entry : c'.map i index = ino
  blocks : c'.blocks i = c.blocks i + 1
  fresh : ino ∈ c.free ∧ ino ∉ c'.free
  zeroed : ∀ k < sfsBlksize, c'.sfs.vol.data ino k = 0
  taken : ∀ b, b ∈ c.free ↔ b ∈ c'.free ∨ b = ino ∨
    (c.inodes i).din.indirect = 0 ∧ b = (c'.inodes i).din.indirect ∧ b ≠ 0
  only : OnlyEntry i index c c'

/--
What truncating ought to do.
-/
structure Freed (i : ι) (c c' : SfsInodes ι) : Prop where
  entry : c'.map i (c.blocks i - 1) = 0
  blocks : c'.blocks i + 1 = c.blocks i
  freed : c.map i (c.blocks i - 1) ∉ c.free ∧ ∀ b, b ∈ c'.free ↔ b ∈ c.free ∨ b = c.map i (c.blocks i - 1)
  only : OnlyEntry i (c.blocks i - 1) c c'

def Law (c : SfsInodes ι) (call : BmapCall ι) (r : Option Nat) (c' : SfsInodes ι) : Prop :=
  match call with
  | .load i index => ∃ ino, r = some ino ∧
      if index = c.blocks i then Extended i index ino c c' else Found i index ino c c'
  | .truncate i => Freed i c c'

/--
An index is at most the number of blocks, and an inode that is truncated has a block.
-/
def Legal (c : SfsInodes ι) : BmapCall ι → Prop
  | .load i index => index ≤ c.blocks i
  | .truncate i => c.blocks i ≠ 0

/--
The block map has no place for another block.
-/
def Full (c : SfsInodes ι) : BmapCall ι → Prop
  | .load i index => index = c.blocks i ∧ c.blocks i = maxBlocks
  | .truncate _ => False

section Steps

variable [DecidableEq ι] {c c' : SfsInodes ι} {i : ι}

def setCtx (c : SfsInodes ι) (i : ι) (s : SfsCtx) : SfsInodes ι :=
  { sfs := s.sfs, inodes := Function.update c.inodes i s.sin }

/--
A call returns the block it loads.
-/
def run (c : SfsInodes ι) : BmapCall ι → Outcome Errno Panic (SfsInodes ι) (Option Nat)
  | .load i index => Prog.zoom (fun c => c.ctx i) (fun c s => c.setCtx i s)
      (do return some (← SfsCtx.sfsBmapLoadNolock index)) c
  | .truncate i => Prog.zoom (fun c => c.ctx i) (fun c s => c.setCtx i s)
      (do SfsCtx.sfsBmapTruncateNolock; return none) c

/--
A call without an error.
-/
def step (c : SfsInodes ι) (call : BmapCall ι) : Option (SfsInodes ι) :=
  match c.run call with
  | .ok _ c' => some c'
  | _ => none

theorem setCtx_self (s : SfsCtx) : (c.setCtx i s).inodes i = s.sin := Function.update_self ..

theorem setCtx_of_ne (s : SfsCtx) {j : ι} (h : j ≠ i) : (c.setCtx i s).inodes j = c.inodes j :=
  Function.update_of_ne h ..

/--
An operation on one inode that only exchanges its blocks with free ones.
-/
theorem Consistent.setCtx (h : c.Consistent) {s : SfsCtx} (hframe : SfsCtx.Frame (c.ctx i) s)
    : (c.setCtx i s).Consistent := by
  have hconfined := hframe.confined
  have happart {j : ι} (hj : j ≠ i) := h.apart j i hj
  have howns {j : ι} (hj : j ≠ i) (b : Nat)
      (hb : s.sfs.vol.Owns (c.inodes j).din b) : c.sfs.vol.Owns (c.inodes j).din b := by
    refine (Vol.owns_congr rfl rfl ?_ b).mp hb
    exact fun x _ => hconfined.bmap_other (h.mapOk j) (happart hj) x
  constructor
  . exact hframe.ok
  . intro j
    by_cases hj : j = i
    . subst hj
      rw [setCtx_self]
      exact hframe.mapOk
    . rw [setCtx_of_ne s hj]
      exact hconfined.mapOk_other (h.mapOk j) (happart hj)
  . intro j k hne b hb hb'
    by_cases hj : j = i
    . subst hj
      rw [setCtx_self] at hb
      rw [setCtx_of_ne s hne.symm] at hb'
      exact (hconfined.inUse_other (h.mapOk k) (happart hne.symm) (howns hne.symm b hb')).2 hb
    . rw [setCtx_of_ne s hj] at hb
      have howned := howns hj b hb
      by_cases hk : k = i
      . subst hk
        rw [setCtx_self] at hb'
        exact (hconfined.inUse_other (h.mapOk j) (happart hj) howned).2 hb'
      . rw [setCtx_of_ne s hk] at hb'
        exact h.apart j k hne b howned (howns hk b hb')

theorem Consistent.others (h : c.Consistent) {s : SfsCtx} (hframe : SfsCtx.Frame (c.ctx i) s) {j : ι} (hj : j ≠ i)
    : (c.setCtx i s).inodes j = c.inodes j ∧ ∀ x, (c.setCtx i s).map j x = c.map j x := by
  refine ⟨setCtx_of_ne s hj, ?_⟩
  intro x
  rw [map, setCtx_of_ne s hj]
  exact hframe.confined.bmap_other (h.mapOk j) (h.apart j i hj) x

theorem setCtx_map (s : SfsCtx) (x : Nat) : (c.setCtx i s).map i x = s.sfs.vol.bmap s.sin.din x := by
  rw [map, setCtx_self]
  rfl

theorem setCtx_blocks (s : SfsCtx) : (c.setCtx i s).blocks i = s.sin.din.blocks := by
  rw [blocks, setCtx_self]

omit [DecidableEq ι] in
theorem Consistent.injective (h : c.Consistent) : c.Injective :=
  fun i x hx y hy => (h.mapOk i).inj x hx y hy

theorem Consistent.found (h : c.Consistent) (index : Nat) (d : Request → Nat)
    : (c.setCtx i { c.ctx i with sfs := c.sfs.requested d }).Consistent ∧
        Found i index (c.map i index) c (c.setCtx i { c.ctx i with sfs := c.sfs.requested d }) := by
  have hframe : SfsCtx.Frame (c.ctx i) { c.ctx i with sfs := c.sfs.requested d } :=
    SfsCtx.Frame.requested h.ok (h.mapOk i) d
  refine ⟨h.setCtx hframe, rfl, ?_, ?_, rfl, ?_, ?_⟩
  . rw [setCtx_map]
    rfl
  . rw [setCtx_blocks]
    rfl
  . intro x _ _
    rw [setCtx_map]
    rfl
  . exact fun j hj => h.others hframe hj

theorem Consistent.extended (h : c.Consistent) (hlt : c.blocks i < maxBlocks) {s : SfsCtx} {ino : Nat}
    (hloaded : SfsCtx.LoadedNew (c.ctx i) s ino)
    : (c.setCtx i s).Consistent ∧ Extended i (c.blocks i) ino c (c.setCtx i s) := by
  have hgrown := hloaded.grown
  have hframe := hloaded.frame h.ok (h.mapOk i) hlt
  refine ⟨h.setCtx hframe, ?_, ?_, ⟨hgrown.ino_mem_free, hgrown.ino_not_mem_free h.ok.freeOk⟩, hgrown.zero, ?_, ?_, ?_⟩
  . rw [setCtx_map, hgrown.bmap _ hlt]
    exact if_pos rfl
  . rw [setCtx_blocks, hgrown.din_blocks]
    rfl
  . intro b
    rw [setCtx_self]
    show b ∈ (c.ctx i).sfs.vol.free ↔ b ∈ s.sfs.vol.free ∨ _
    have hvalid := h.ok.freeOk.valid
    rcases hgrown.free with ⟨hfree, hindirect, -⟩ | ⟨hfree, hnone, -⟩
    . rw [hfree, List.mem_cons, hindirect]
      constructor
      . exact fun hb => hb.elim (fun heq => .inr (.inl heq)) .inl
      . rintro (hb | rfl | ⟨hnone, rfl, hb⟩)
        . exact .inr hb
        . exact .inl rfl
        . exact absurd hnone hb
    . have hne : s.sin.din.indirect ≠ 0 := (hvalid _ (hfree ▸ List.mem_cons_self)).1
      rw [hfree, List.mem_cons, List.mem_cons]
      constructor
      . rintro (rfl | rfl | hb)
        . exact .inr (.inr ⟨hnone, rfl, hne⟩)
        . exact .inr (.inl rfl)
        . exact .inl hb
      . rintro (hb | rfl | ⟨-, rfl, -⟩)
        . exact .inr (.inr hb)
        . exact .inr (.inl rfl)
        . exact .inl rfl
  . intro x hx hne
    rw [setCtx_map, hgrown.bmap x hx]
    exact if_neg hne
  . exact fun j hj => h.others hframe hj

theorem Consistent.freed (h : c.Consistent) (hne : c.blocks i ≠ 0) {s : SfsCtx}
    (htruncated : SfsCtx.Truncated (c.ctx i) s)
    : (c.setCtx i s).Consistent ∧ Freed i c (c.setCtx i s) := by
  have hshrunk := htruncated.shrunk
  have hframe := htruncated.frame (h.mapOk i) hne
  have hle := (h.mapOk i).blocks_le
  have hblocks : c.blocks i = (c.ctx i).sin.din.blocks := rfl
  refine ⟨h.setCtx hframe, ?_, ?_, ⟨((h.mapOk i).inUse _ (Nat.sub_one_lt hne)).2, ?_⟩, ?_, ?_⟩
  . rw [setCtx_map, hshrunk.bmap _ (by change c.blocks i ≤ _ at hle; omega)]
    exact if_pos rfl
  . rw [setCtx_blocks, hshrunk.din_blocks]
    omega
  . intro b
    show b ∈ s.sfs.vol.free ↔ _
    rw [hshrunk.free, List.mem_orderedInsert, or_comm]
    rfl
  . intro x hx hxne
    rw [setCtx_map, hshrunk.bmap x hx]
    exact if_neg hxne
  . exact fun j hj => h.others hframe hj

/--
A call does what it ought to do. It panics only where the block map has no place for another block.
-/
theorem Consistent.run (h : c.Consistent) {call : BmapCall ι} (hlegal : c.Legal call)
    : (c.run call).Sat (fun r c' => c'.Consistent ∧ c.Law call r c') (fun _ _ => True)
        (fun p => p = .sfsBmapGetOutOfRange ∧ c.Full call) := by
  cases call with
  | load i index =>
    rw [SfsInodes.run]
    apply Prog.sat_zoom
    by_cases hindex : index = c.blocks i
    . subst hindex
      by_cases hlt : c.blocks i < maxBlocks
      . apply Prog.sat_bind (SfsCtx.sfsBmapLoadNolock_new (s := c.ctx i) h.ok (h.mapOk i) hlt)
        . intro ino s hloaded
          obtain ⟨hconsistent, hextended⟩ := h.extended hlt hloaded
          refine ⟨hconsistent, ino, rfl, ?_⟩
          rw [if_pos rfl]
          exact hextended
        . exact fun _ _ _ => trivial
        . exact fun _ => False.elim
      . have hfull : c.blocks i = maxBlocks := Nat.le_antisymm (h.mapOk i).blocks_le (Nat.not_lt.mp hlt)
        have hpanic : SfsCtx.sfsBmapLoadNolock (c.blocks i) (c.ctx i) = .panic .sfsBmapGetOutOfRange :=
          SfsCtx.sfsBmapLoadNolock_outOfRange (s := c.ctx i) (Nat.not_lt.mp hlt)
        rw [Prog.bind_run_panic hpanic]
        exact ⟨rfl, rfl, hfull⟩
    . have hlt : index < c.blocks i := Nat.lt_of_le_of_ne hlegal hindex
      apply Prog.sat_bind (SfsCtx.sfsBmapLoadNolock_old (s := c.ctx i) h.ok (h.mapOk i) hlt)
      . rintro ino s ⟨rfl, rfl, -⟩
        obtain ⟨hconsistent, hfound⟩ := h.found (i := i) index (SfsCtx.lookupCost index)
        refine ⟨hconsistent, _, rfl, ?_⟩
        rw [if_neg hindex]
        exact hfound
      . exact fun _ _ _ => trivial
      . exact fun _ => False.elim
  | truncate i =>
    rw [SfsInodes.run]
    apply Prog.sat_zoom
    apply Prog.sat_bind (SfsCtx.sfsBmapTruncateNolock_sat (s := c.ctx i) h.ok (h.mapOk i) hlegal)
    . exact fun _ s htruncated => h.freed hlegal htruncated
    . exact fun _ _ _ => trivial
    . exact fun _ => False.elim

/--
In every run without errors the maps stay injective, and every call does what it ought to do.
-/
theorem bmap_law {c₀ : SfsInodes ι} (h₀ : c₀.Consistent)
    : ∀ calls c, Run.Admits step Legal c₀ calls → Run.exec step c₀ calls = some c →
        c.Injective ∧ ∀ call, c.Legal call →
          (c.run call).Sat (fun r c' => c.Law call r c') (fun _ _ => True)
            (fun p => p = .sfsBmapGetOutOfRange ∧ c.Full call) := by
  intro calls c hlegal hexec
  have h : c.Consistent := by
    refine Run.exec_invariant_of_admits (I := Consistent) ?_ h₀ hlegal hexec
    intro c call c' h hlegal hstep
    have hrun := h.run hlegal
    rw [step] at hstep
    split at hstep
    . rename_i r c'' heq
      rw [heq] at hrun
      exact Option.some_inj.mp hstep ▸ hrun.1
    . exact nomatch hstep
  refine ⟨h.injective, ?_⟩
  intro call hlegal
  exact (h.run hlegal).mono (fun _ _ hlaw => hlaw.2) (fun _ _ => id) (fun _ => id)

/--
Two files without blocks.
-/
def newFiles : SfsInodes Bool where
  sfs := SfsFs.new 16 5
  inodes i := { din := SfsDiskInode.new sfsTypeFile sfsTypeFile_lt, ino := if i then 3 else 4, dirty := false
                reclaimCount := 1 }

theorem newFiles_consistent : newFiles.Consistent := by
  refine ⟨SfsFs.new_ok (by decide) (by decide), fun i => Vol.mapOk_new _ _, ?_⟩
  rintro i j - b (⟨x, hx, -⟩ | ⟨hind, -⟩)
  . exact absurd hx (Nat.not_lt_zero x)
  . exact absurd rfl hind

theorem bmap_law_newFiles
    : newFiles.Consistent ∧
        ∀ calls c, Run.Admits step Legal newFiles calls → Run.exec step newFiles calls = some c →
          c.Injective ∧ ∀ call, c.Legal call →
            (c.run call).Sat (fun r c' => c.Law call r c') (fun _ _ => True)
              (fun p => p = .sfsBmapGetOutOfRange ∧ c.Full call) :=
  ⟨newFiles_consistent, bmap_law newFiles_consistent⟩

/--
The files grow in turns, and the first one shrinks.
-/
example : (Run.exec step newFiles [.load true 0, .load false 0, .load true 1, .truncate true, .load false 1]).map
      (fun c => [c.map true 0, c.map true 1, c.map false 0, c.map false 1]) = some [5, 0, 6, 7] := by
  decide +kernel

end Steps

end SfsInodes
end Ucore

import Ucore.Kern.Mm.Kmalloc.HeapInv
import Ucore.Lib.Run

/-!
This module contains runs of `kmalloc` and `kfree`: the state of the heap in every run, and which sizes
`kmalloc` serves.
-/

namespace Ucore

open Slob

/--
`live` records the blocks of the free list that `kmalloc` has given out, with their headers.
-/
structure KmallocSys where
  heap : Slob
  live : List Block

inductive KmallocEvent where
  | kmalloc (size : Nat) (ans : KmallocAnswers)
  | kfree (block : Nat)

namespace BigBlock

def descriptor (bb : BigBlock) : Block := ⟨bb.addr, slobUnits sizeofBigblock⟩

def block (bb : BigBlock) : Block := ⟨bb.pages, pageUnits * 2 ^ bb.order⟩

end BigBlock

namespace KmallocSys

/--
All blocks in use: the small ones, and the big ones with their descriptors.
-/
def used (s : KmallocSys) : List Block :=
  s.live ++ (s.heap.bigblocks.map BigBlock.descriptor ++ s.heap.bigblocks.map BigBlock.block)

/--
`kmalloc` has returned the pointer and it has not been freed.
-/
def Owns (s : KmallocSys) (block : Nat) : Prop :=
  (∃ b ∈ s.live, b.addr + 1 = block) ∨ ∃ bb ∈ s.heap.bigblocks, bb.pages = block

instance (s : KmallocSys) (block : Nat) : Decidable (s.Owns block) :=
  inferInstanceAs (Decidable (_ ∨ _))

/--
What `alloc_pages` answers are pages that nobody has.
-/
def Legal (arena : Nat) (s : KmallocSys) (size : Nat) (ans : KmallocAnswers) : Prop :=
  (∀ p ∈ ans.slobPage, FreshPages arena s.heap p 0) ∧
    ∀ q ∈ ans.bigPages, FreshPages arena s.heap q (findOrder size) ∧
      ∀ p ∈ ans.slobPage, p + pageUnits ≤ q ∨ q + pageUnits * 2 ^ findOrder size ≤ p

instance (arena : Nat) (s : KmallocSys) (size : Nat) (ans : KmallocAnswers)
    : Decidable (s.Legal arena size ans) :=
  inferInstanceAs (Decidable (_ ∧ _))

def recordKmalloc (s : KmallocSys) (size : Nat) : Option Nat × Slob → KmallocSys
  | (some p, heap) =>
    if size < kmallocPageSize - slobUnit then
      { heap, live := ⟨p - 1, (heap.mem (p - 1)).units⟩ :: s.live }
    else
      { s with heap }
  | (none, heap) => { s with heap }

def step (arena : Nat) (s : KmallocSys) : KmallocEvent → Option KmallocSys
  | .kmalloc size ans =>
    if 1 ≤ size ∧ size < 2 ^ 64 ∧ s.Legal arena size ans then
      (s.heap.kmalloc size ans).map (s.recordKmalloc size)
    else
      none
  | .kfree block =>
    if s.Owns block then
      (s.heap.kfree block).map fun heap =>
        { heap, live := s.live.erase ⟨block - 1, (s.heap.mem (block - 1)).units⟩ }
    else
      none

/--
The states of all runs.
-/
def Reachable (arena : Nat) (s : KmallocSys) : Prop :=
  ∃ mem events, Run.exec (step arena) { heap := Slob.init mem arena, live := [] } events = some s

structure Inv (arena : Nat) (s : KmallocSys) (fs : List Block) : Prop where
  heap : Heap arena s.heap s.used fs
  headers : ∀ b ∈ s.live, (s.heap.mem b.addr).units = b.units ∧ 1 < b.units
  bigs : ∀ bb ∈ s.heap.bigblocks, bb.pages % pageUnits = 0 ∧ bb.block ∈ s.heap.pages

variable {arena : Nat} {s t : KmallocSys} {fs : List Block} {size block : Nat} {ans : KmallocAnswers}

theorem init_inv (mem : Nat → SlobBlock) (arena : Nat)
    : Inv arena { heap := Slob.init mem arena, live := [] } [arenaBlock arena] := by
  refine ⟨⟨⟨?_, ?_, ?_, ?_⟩, ?_, ?_, ?_, ?_, ?_⟩, ?_, ?_⟩
  . exact ⟨by simp [Slob.init, arenaBlock, firstAddr], trivial⟩
  . simp [Slob.init, arenaBlock]
  . simp [Block.Spaced]
  . simp [arenaBlock]
  . simp
  . simp [used, Slob.init]
  . intro x
    simp only [Slob.init, Block.cover_cons, Block.cover_nil]
    split <;> omega
  . simp [Slob.init]
  . simp [used, Slob.init]
  . simp
  . simp [Slob.init]

/--
A small request is served from the free list.
-/
theorem Inv.kmalloc_small (h : s.Inv arena fs) (hpos : 1 ≤ size) (hsmall : size + 2 * slobUnit < kmallocPageSize)
    (hlegal : s.Legal arena size ans)
    : (s.heap.kmalloc size ans = some (none, s.heap)) ∨
        ∃ b heap fs', s.heap.kmalloc size ans = some (some (b + 1), heap) ∧
          Inv arena { heap, live := ⟨b, slobUnits (size + slobUnit)⟩ :: s.live } fs' ∧
          heap.bigblocks = s.heap.bigblocks := by
  have hsize : size < kmallocPageSize - slobUnit := by
    simp only [slobUnit, kmallocPageSize] at *
    omega
  rw [Slob.kmalloc, if_pos hsize]
  rcases h.heap.slobAlloc (show size + slobUnit + slobUnit < kmallocPageSize by omega)
    (show slobUnit < size + slobUnit by omega) hlegal.1 with
    ⟨hnone, -⟩ | ⟨b, heap, fs', hsome, hheap, hcell, hbigs, hframe, hpages⟩
  . exact .inl (by rw [hnone]; rfl)
  . refine .inr ⟨b, heap, fs', by rw [hsome]; rfl, ⟨?_, ?_, ?_⟩, hbigs⟩
    . have : used { heap, live := ⟨b, slobUnits (size + slobUnit)⟩ :: s.live } =
          ⟨b, slobUnits (size + slobUnit)⟩ :: s.used := by
        simp only [used, hbigs, List.cons_append]
      rw [this]
      exact hheap
    . intro c hc
      rcases List.mem_cons.mp hc with rfl | hc
      . exact ⟨hcell, one_lt_slobUnits (by omega)⟩
      . rw [hframe c (List.mem_append_left _ hc)]
        exact h.headers c hc
    . intro bb hbb
      rw [hbigs] at hbb
      obtain ⟨haligned, hmem⟩ := h.bigs bb hbb
      refine ⟨haligned, ?_⟩
      rcases hpages with hpages | ⟨p, -, hpages⟩ <;> rw [hpages]
      . exact hmem
      . exact List.mem_cons_of_mem _ hmem

theorem descriptor_units : slobUnits sizeofBigblock = 2 := by decide

/--
A big request takes a descriptor from the free list and pages.
-/
theorem Inv.kmalloc_big (h : s.Inv arena fs) (hbig : kmallocPageSize - slobUnit ≤ size)
    (hlegal : s.Legal arena size ans)
    : (∃ heap fs', s.heap.kmalloc size ans = some (none, heap) ∧ Inv arena { s with heap } fs' ∧
          (ans.bigPages = none ∨ ans.slobPage = none)) ∨
        ∃ addr pages heap fs', s.heap.kmalloc size ans = some (some pages, heap) ∧
          ans.bigPages = some pages ∧ Inv arena { s with heap } fs' ∧
          heap.bigblocks = { addr, order := findOrder size, pages } :: s.heap.bigblocks := by
  rw [Slob.kmalloc, if_neg (Nat.not_lt.mpr hbig)]
  rcases h.heap.slobAlloc (show sizeofBigblock + slobUnit < kmallocPageSize by decide)
    (show slobUnit < sizeofBigblock by decide) hlegal.1 with
    ⟨hnone, hpage, -⟩ | ⟨b, heap, fs', hsome, hheap, hcell, hbigs, hframe, hpages⟩
  . refine .inl ⟨s.heap, fs, ?_, h, .inr hpage⟩
    simp only [hnone, Option.bind_eq_bind, Option.bind_some]
  . simp only [hsome, Option.bind_eq_bind, Option.bind_some]
    have hbigsOk : ∀ bb ∈ heap.bigblocks, bb.pages % pageUnits = 0 ∧ bb.block ∈ heap.pages := by
      intro bb hbb
      rw [hbigs] at hbb
      obtain ⟨haligned, hmem⟩ := h.bigs bb hbb
      refine ⟨haligned, ?_⟩
      rcases hpages with hpages | ⟨p, -, hpages⟩ <;> rw [hpages]
      . exact hmem
      . exact List.mem_cons_of_mem _ hmem
    cases hbigPages : ans.bigPages with
    | none =>
      -- the descriptor is given back
      obtain ⟨heap', fs'', hfree, hheap', hpages', hbigs', hframe', -⟩ :=
        @Heap.slobFree arena heap s.used fs' ⟨b, slobUnits sizeofBigblock⟩ sizeofBigblock hheap rfl
      simp only [hfree, Option.map_some]
      refine .inl ⟨heap', fs'', rfl, ⟨?_, ?_, ?_⟩, by simp⟩
      . have : used { s with heap := heap' } = s.used := by simp only [used, hbigs', hbigs]
        rw [this]
        exact hheap'
      . intro c hc
        rw [hframe' c (List.mem_append_left _ hc), hframe c (List.mem_append_left _ hc)]
        exact h.headers c hc
      . rw [hbigs', hpages']
        exact hbigsOk
    | some pages =>
      obtain ⟨hfresh, hslob⟩ := hlegal.2 pages hbigPages
      have hfresh' : FreshPages arena heap pages (findOrder size) := by
        rcases hpages with hpages | ⟨p, hp, hpages⟩
        . exact ⟨hfresh.aligned, hfresh.ne_zero, by rw [hpages]; exact hfresh.free, hfresh.apart⟩
        . refine ⟨hfresh.aligned, hfresh.ne_zero, ?_, hfresh.apart⟩
          intro i hi
          have hfree := hfresh.free i hi
          have hapart := hslob p hp
          have hnot : ¬Block.Has ⟨p, pageUnits⟩ (pages + i) := by
            simp only [Block.Has, Block.stop]
            omega
          rw [hpages]
          simp only [Block.cover_cons, hnot, if_false] at hfree ⊢
          omega
      have hheap' := hheap.getFreePages hfresh'
      refine .inr ⟨b, pages, _, fs', rfl, rfl, ⟨?_, ?_, ?_⟩, by simp [Slob.getFreePages, hbigs]⟩
      . have hperm : (⟨pages, pageUnits * 2 ^ findOrder size⟩ :: ⟨b, slobUnits sizeofBigblock⟩ ::
            s.used).Perm (used { s with heap := { heap.getFreePages pages (findOrder size) with
              bigblocks := { addr := b, order := findOrder size, pages } :: heap.bigblocks } }) := by
          simp only [used, hbigs, List.map_cons, BigBlock.descriptor, BigBlock.block]
          rw [List.cons_append]
          refine (List.Perm.swap ..).trans ?_
          refine List.Perm.trans (List.Perm.cons _ ?_) List.perm_middle.symm
          rw [← List.append_assoc, ← List.append_assoc]
          exact List.perm_middle.symm
        have := hheap'.perm hperm
        exact ⟨⟨this.free.ring, this.free.slobfree, this.free.spaced, this.free.pos⟩, this.arenaFree,
          this.covers, this.once, this.apart, this.usedPos⟩
      . intro c hc
        have := hframe c (List.mem_append_left _ hc)
        simp only [Slob.getFreePages, this]
        exact h.headers c hc
      . intro bb hbb
        rcases List.mem_cons.mp hbb with rfl | hbb
        . exact ⟨hfresh.aligned, List.mem_cons_self⟩
        . obtain ⟨haligned, hmem⟩ := hbigsOk bb hbb
          exact ⟨haligned, List.mem_cons_of_mem _ hmem⟩

theorem cover_two {f : BigBlock → Block} {l : List BigBlock} {a b : BigBlock} {x : Nat} (ha : a ∈ l)
    (hb : b ∈ l) (hne : a ≠ b) (hax : (f a).Has x) (hbx : (f b).Has x)
    : 2 ≤ Block.cover (l.map f) x := by
  have hmem : b ∈ l.erase a := (List.mem_erase_of_ne hne.symm).mpr hb
  have hpos := Block.cover_pos (List.mem_map_of_mem hmem) hbx
  have hperm := Block.cover_perm ((List.perm_cons_erase ha).map f) (x := x)
  rw [hperm, List.map_cons, Block.cover_cons, if_pos hax]
  omega

theorem cover_used (x : Nat)
    : Block.cover s.used x = Block.cover s.live x +
        (Block.cover (s.heap.bigblocks.map BigBlock.descriptor) x +
          Block.cover (s.heap.bigblocks.map BigBlock.block) x) := by
  rw [used, Block.cover_append, Block.cover_append]

/--
No page of a big block lies in a small block.
-/
theorem Inv.live_big {b : Block} {bb : BigBlock} (h : s.Inv arena fs) (hb : b ∈ s.live)
    (hbb : bb ∈ s.heap.bigblocks)
    : ¬b.Has bb.pages := by
  intro hx
  have h₁ := Block.cover_pos hb hx
  have h₂ := Block.cover_pos (List.mem_map_of_mem hbb) (@Block.has_addr bb.block (pageUnits_pos _))
  have hle := h.heap.cover_le bb.pages
  rw [cover_used] at hle
  simp only [BigBlock.block] at h₂ hle
  omega

/--
A big block is known by its pages.
-/
theorem Inv.bigs_inj {bb bb' : BigBlock} (h : s.Inv arena fs) (hbb : bb ∈ s.heap.bigblocks)
    (hbb' : bb' ∈ s.heap.bigblocks) (hpages : bb'.pages = bb.pages)
    : bb' = bb := by
  by_contra hne
  have h₁ : bb.block.Has bb.pages := @Block.has_addr bb.block (pageUnits_pos _)
  have h₂ : bb'.block.Has bb.pages := hpages ▸ @Block.has_addr bb'.block (pageUnits_pos _)
  have htwo := cover_two hbb' hbb hne h₂ h₁
  have hle := h.heap.cover_le bb.pages
  rw [cover_used] at hle
  omega

/--
`kfree` does not take a small block for a big one.
-/
theorem Inv.find_small {b : Block} (h : s.Inv arena fs) (hb : b ∈ s.live)
    : (s.heap.bigblocks.find? fun bb => bb.pages = b.addr + 1) = none := by
  rw [List.find?_eq_none]
  intro bb hbb hpages
  have hpages : bb.pages = b.addr + 1 := by simpa using hpages
  apply h.live_big hb hbb
  have := (h.headers b hb).2
  rw [hpages]
  simp only [Block.Has, Block.stop]
  omega

theorem Inv.find_big {bb : BigBlock} (h : s.Inv arena fs) (hbb : bb ∈ s.heap.bigblocks)
    : (s.heap.bigblocks.find? fun bb' => bb'.pages = bb.pages) = some bb := by
  cases hfind : s.heap.bigblocks.find? fun bb' => bb'.pages = bb.pages with
  | none =>
    have := List.find?_eq_none.mp hfind bb hbb
    simp at this
  | some bb' =>
    have hpages : bb'.pages = bb.pages := by simpa using List.find?_some hfind
    rw [h.bigs_inj hbb (List.mem_of_find?_eq_some hfind) hpages]

theorem Inv.kfree_small {b : Block} (h : s.Inv arena fs) (hb : b ∈ s.live)
    : ∃ heap fs', s.heap.kfree (b.addr + 1) = some heap ∧
        Inv arena { heap, live := s.live.erase b } fs' ∧ heap.pages = s.heap.pages ∧
        heap.bigblocks = s.heap.bigblocks := by
  have hperm : s.used.Perm (b :: (s.live.erase b ++ (s.heap.bigblocks.map BigBlock.descriptor ++
      s.heap.bigblocks.map BigBlock.block))) := by
    rw [used, ← List.cons_append]
    exact (List.perm_cons_erase hb).append_right _
  obtain ⟨heap, fs', hfree, hheap, hpages, hbigs, hframe, -⟩ :=
    @Heap.slobFree arena s.heap _ fs b 0 (h.heap.perm hperm) (h.headers b hb).1
  refine ⟨heap, fs', ?_, ⟨?_, ?_, ?_⟩, hpages, hbigs⟩
  . rw [Slob.kfree, h.find_small hb, ite_self]
    exact hfree
  . have : used { heap, live := s.live.erase b } = s.live.erase b ++
        (s.heap.bigblocks.map BigBlock.descriptor ++ s.heap.bigblocks.map BigBlock.block) := by
      simp only [used, hbigs]
    rw [this]
    exact hheap
  . intro c hc
    rw [hframe c (List.mem_append_left _ hc)]
    exact h.headers c (List.mem_of_mem_erase hc)
  . intro bb hbb
    rw [hbigs] at hbb
    rw [hpages]
    exact h.bigs bb hbb

theorem Inv.kfree_big {bb : BigBlock} (h : s.Inv arena fs) (hbb : bb ∈ s.heap.bigblocks)
    : ∃ heap fs', s.heap.kfree bb.pages = some heap ∧ Inv arena { s with heap } fs' ∧
        heap.pages = s.heap.pages.erase bb.block ∧ heap.bigblocks = s.heap.bigblocks.erase bb := by
  obtain ⟨haligned, hmem⟩ := h.bigs bb hbb
  have hbigs := List.perm_cons_erase hbb
  have hperm : s.used.Perm (bb.block :: bb.descriptor :: (s.live ++
      ((s.heap.bigblocks.erase bb).map BigBlock.descriptor ++
        (s.heap.bigblocks.erase bb).map BigBlock.block))) := by
    rw [List.perm_iff_count]
    intro c
    have h₁ := (hbigs.map BigBlock.descriptor).count_eq c
    have h₂ := (hbigs.map BigBlock.block).count_eq c
    simp only [used, List.count_append, List.count_cons, List.map_cons] at h₁ h₂ ⊢
    omega
  have hfreed := (h.heap.perm hperm).freePages hmem
  have hfreed : Heap arena { s.heap with
      bigblocks := s.heap.bigblocks.erase bb, pages := s.heap.pages.erase bb.block } _ fs :=
    ⟨⟨hfreed.free.ring, hfreed.free.slobfree, hfreed.free.spaced, hfreed.free.pos⟩, hfreed.arenaFree,
      hfreed.covers, hfreed.once, hfreed.apart, hfreed.usedPos⟩
  obtain ⟨heap, fs', hfree, hheap, hpages', hbigs', hframe, -⟩ :=
    @Heap.slobFree arena _ _ fs bb.descriptor sizeofBigblock hfreed rfl
  refine ⟨heap, fs', ?_, ⟨?_, ?_, ?_⟩, hpages', hbigs'⟩
  . rw [Slob.kfree, h.find_big hbb, if_pos haligned]
    exact hfree
  . have : used { s with heap } = s.live ++ ((s.heap.bigblocks.erase bb).map BigBlock.descriptor ++
        (s.heap.bigblocks.erase bb).map BigBlock.block) := by
      simp only [used, hbigs']
    rw [this]
    exact hheap
  . intro c hc
    rw [hframe c (List.mem_append_left _ hc)]
    exact h.headers c hc
  . intro bb' hbb'
    rw [hbigs'] at hbb'
    obtain ⟨haligned', hmem'⟩ := h.bigs bb' (List.mem_of_mem_erase hbb')
    refine ⟨haligned', ?_⟩
    rw [hpages']
    apply (List.mem_erase_of_ne ?_).mpr hmem'
    intro heq
    -- the pages of bb are not among the blocks in use any more
    have hin : bb'.block ∈ bb.descriptor :: (s.live ++
        ((s.heap.bigblocks.erase bb).map BigBlock.descriptor ++
          (s.heap.bigblocks.erase bb).map BigBlock.block)) := by
      simp only [List.mem_cons, List.mem_append]
      exact .inr (.inr (.inr (List.mem_map_of_mem hbb')))
    have hhas := @Block.has_addr bb.block (pageUnits_pos _)
    exact (h.heap.perm hperm).used_disjoint hin hhas (heq ▸ hhas)

/--
Between the two bounds of `kmalloc` the assertion of `slob_alloc` fails.
-/
theorem kmalloc_gap {heap : Slob} (hlow : kmallocPageSize ≤ size + 2 * slobUnit)
    (hhigh : size < kmallocPageSize - slobUnit)
    : heap.kmalloc size ans = none := by
  rw [Slob.kmalloc, if_pos hhigh, Slob.slobAlloc, if_neg (by omega), Option.map_none]

theorem Inv.step_kmalloc (h : s.Inv arena fs) (hpos : 1 ≤ size) (hlegal : s.Legal arena size ans)
    (hstep : (s.heap.kmalloc size ans).map (s.recordKmalloc size) = some t)
    : ∃ fs', t.Inv arena fs' := by
  by_cases hsmall : size + 2 * slobUnit < kmallocPageSize
  . have hsize : size < kmallocPageSize - slobUnit := by
      simp only [slobUnit, kmallocPageSize] at *
      omega
    rcases h.kmalloc_small hpos hsmall hlegal with hnone | ⟨b, heap, fs', hsome, hinv, -⟩
    . rw [hnone, Option.map_some, Option.some_inj] at hstep
      exact ⟨fs, hstep ▸ h⟩
    . rw [hsome, Option.map_some, Option.some_inj] at hstep
      have hcell : (heap.mem b).units = slobUnits (size + slobUnit) :=
        (hinv.headers _ List.mem_cons_self).1
      simp only [recordKmalloc, hsize, if_true, Nat.add_sub_cancel, hcell] at hstep
      exact ⟨fs', hstep ▸ hinv⟩
  . by_cases hsize : size < kmallocPageSize - slobUnit
    . rw [kmalloc_gap (Nat.not_lt.mp hsmall) hsize] at hstep
      contradiction
    . rcases h.kmalloc_big (Nat.not_lt.mp hsize) hlegal with
        ⟨heap, fs', hnone, hinv, -⟩ | ⟨addr, pages, heap, fs', hsome, -, hinv, -⟩
      . rw [hnone, Option.map_some, Option.some_inj] at hstep
        exact ⟨fs', hstep ▸ hinv⟩
      . rw [hsome, Option.map_some, Option.some_inj] at hstep
        simp only [recordKmalloc, hsize, if_false] at hstep
        exact ⟨fs', hstep ▸ hinv⟩

theorem Inv.step_kfree (h : s.Inv arena fs) (howns : s.Owns block)
    : ∃ heap fs', s.heap.kfree block = some heap ∧
        Inv arena { heap, live := s.live.erase ⟨block - 1, (s.heap.mem (block - 1)).units⟩ } fs' := by
  rcases howns with ⟨b, hb, rfl⟩ | ⟨bb, hbb, rfl⟩
  . obtain ⟨heap, fs', hfree, hinv, -⟩ := h.kfree_small hb
    rw [Nat.add_sub_cancel, (h.headers b hb).1]
    exact ⟨heap, fs', hfree, hinv⟩
  . obtain ⟨heap, fs', hfree, hinv, -⟩ := h.kfree_big hbb
    refine ⟨heap, fs', hfree, ?_⟩
    rw [List.erase_of_not_mem]
    . exact hinv
    . -- a small block there would have the first page of the big one
      intro hmem
      apply h.live_big hmem hbb
      have := (h.headers _ hmem).2
      simp only [Block.Has, Block.stop] at *
      omega

theorem Inv.step {ev : KmallocEvent} (h : s.Inv arena fs) (hstep : step arena s ev = some t)
    : ∃ fs', t.Inv arena fs' := by
  cases ev with
  | kmalloc size ans =>
    rw [KmallocSys.step] at hstep
    split at hstep
    next hlegal => exact h.step_kmalloc hlegal.1 hlegal.2.2 hstep
    . contradiction
  | kfree block =>
    rw [KmallocSys.step] at hstep
    split at hstep
    next howns =>
      obtain ⟨heap, fs', hfree, hinv⟩ := h.step_kfree howns
      rw [hfree, Option.map_some, Option.some_inj] at hstep
      exact ⟨fs', hstep ▸ hinv⟩
    . contradiction

theorem Reachable.inv (h : Reachable arena s) : ∃ fs, s.Inv arena fs := by
  obtain ⟨mem, events, hexec⟩ := h
  have hkeep : ∀ s ev t, (∃ fs, Inv arena s fs) → step arena s ev = some t → ∃ fs, Inv arena t fs := by
    intro s ev t hinv hstep
    obtain ⟨fs, hinv⟩ := hinv
    exact hinv.step hstep
  exact Run.exec_invariant hkeep ⟨_, init_inv mem arena⟩ hexec

/--
In every run the free list is a sorted circle of blocks that do not touch, free blocks and blocks in
use cover `arena` and the pages exactly once, and every block in use can be freed.
-/
theorem kmalloc_heap_invariant (h : Reachable arena s)
    : ∃ fs, s.heap.FreeList fs ∧
        (∀ x, Block.cover fs x + Block.cover s.used x =
          Block.cover (arenaBlock arena :: s.heap.pages) x) ∧
        (∀ x, Block.cover (arenaBlock arena :: s.heap.pages) x ≤ 1) ∧
        (∀ b ∈ s.live, (s.heap.mem b.addr).units = b.units) ∧
        ∀ block, s.Owns block → s.heap.kfree block ≠ none := by
  obtain ⟨fs, hinv⟩ := h.inv
  refine ⟨fs, hinv.heap.free, hinv.heap.covers, hinv.heap.once, fun b hb => (hinv.headers b hb).1, ?_⟩
  intro block howns
  obtain ⟨heap, fs', hfree, -⟩ := hinv.step_kfree howns
  rw [hfree]
  exact Option.some_ne_none heap

/--
Two small blocks and one of two pages, freed in another order.
-/
def sampleRun : Option KmallocSys :=
  Run.exec (step 10) { heap := Slob.init (fun _ => ⟨0, 0⟩) 10, live := [] }
    [.kmalloc 100 ⟨some 512, none⟩, .kmalloc 1 ⟨none, none⟩, .kmalloc 8192 ⟨none, some 1024⟩, .kfree 513,
      .kfree 1024]

theorem kmalloc_heap_invariant_sample
    : ∃ s fs, sampleRun = some s ∧ s.heap.FreeList fs ∧
        (∀ x, Block.cover fs x + Block.cover s.used x =
          Block.cover (arenaBlock 10 :: s.heap.pages) x) ∧
        ∀ block, s.Owns block → s.heap.kfree block ≠ none := by
  obtain ⟨s, hs⟩ := Option.isSome_iff_exists.mp (show sampleRun.isSome by decide +kernel)
  obtain ⟨fs, hfl, hcovers, -, -, hfree⟩ := kmalloc_heap_invariant ⟨_, _, hs⟩
  exact ⟨s, fs, hs, hfl, hcovers, hfree⟩

/--
The bytes behind a pointer that `kmalloc` has returned: up to the end of its pages, or of its slob
block.
-/
def usable (heap : Slob) (block : Nat) : Block :=
  match if block % pageUnits = 0 then heap.bigblocks.find? fun bb => bb.pages = block else none with
  | some bb => bb.block
  | none => ⟨block, (heap.mem (block - 1)).units - 1⟩

/--
What a request is promised: no assertion fails, and a pointer has room and can be given back, which
frees what was not in use before.
-/
def Served (arena : Nat) (s : KmallocSys) (size : Nat) : Option (Option Nat × Slob) → Prop
  | none => False
  | some (none, _) => True
  | some (some block, heap) =>
    size ≤ slobUnit * (usable heap block).units ∧
      (∀ b ∈ s.used, ∀ x, b.Has x → ¬(usable heap block).Has x) ∧
      ∃ heap' fs, heap.kfree block = some heap' ∧ heap'.FreeList fs ∧
        (∀ x, Block.cover fs x + Block.cover s.used x =
          Block.cover (arenaBlock arena :: heap'.pages) x) ∧
        heap'.pages = if size < kmallocPageSize - slobUnit then heap.pages
          else heap.pages.erase (usable heap block)

theorem findOrderLoop_spec {fuel n : Nat} (h : n < 4097 * 2 ^ fuel)
    : n < 4097 * 2 ^ findOrderLoop fuel n ∧ ∀ k < findOrderLoop fuel n, 4097 * 2 ^ k ≤ n := by
  induction fuel generalizing n with
  | zero => exact ⟨h, by simp [findOrderLoop]⟩
  | succ fuel ih =>
    rw [findOrderLoop]
    split
    next hbig =>
      have hbig : 4096 < n := by exact_mod_cast hbig
      rw [show (n : Int) / 2 = ((n / 2 : Nat) : Int) by norm_cast]
      rw [Nat.pow_succ] at h
      obtain ⟨hlt, hmin⟩ := @ih (n / 2) (by omega)
      constructor
      . rw [Nat.pow_succ]
        omega
      . intro k hk
        cases k with
        | zero => omega
        | succ k =>
          have := hmin k (by omega)
          rw [Nat.pow_succ]
          omega
    next hsmall =>
      have hsmall : ¬(4096 < n) := by exact_mod_cast hsmall
      exact ⟨by omega, by simp⟩

theorem findOrder_of_lt (h : size < 2 ^ 31) : findOrder size = findOrderLoop 32 (size : Int) := by
  have hmod : size % 2 ^ 32 = size := Nat.mod_eq_of_lt (by omega)
  rw [findOrder, BitVec.toInt_eq_toNat_cond, BitVec.toNat_ofNat, hmod, if_pos (by omega)]

theorem findOrder_spec (h : size < 2 ^ 31)
    : size < 4097 * 2 ^ findOrder size ∧ ∀ k < findOrder size, 4097 * 2 ^ k ≤ size := by
  rw [findOrder_of_lt h]
  exact findOrderLoop_spec (by omega)

/--
`find_order` halves and forgets the remainder: the pages are too few for sizes that are a bit more than
`4096 * 2 ^ k`.
-/
theorem findOrder_fits (h : size < 2 ^ 31)
    : size ≤ 4096 * 2 ^ findOrder size ↔ ∀ k, ¬(4096 * 2 ^ k < size ∧ size < 4097 * 2 ^ k) := by
  obtain ⟨hlt, hmin⟩ := findOrder_spec h
  constructor
  . rintro hfits k ⟨hlow, hhigh⟩
    have hk : k < findOrder size := by
      apply (Nat.pow_lt_pow_iff_right Nat.one_lt_two).mp
      omega
    have := hmin k hk
    omega
  . intro hnot
    by_contra hfits
    exact hnot _ ⟨Nat.not_le.mp hfits, hlt⟩

/--
The argument of `find_order` is an `int`: for sizes from 2^31 on the pages are too few.
-/
theorem findOrder_large (h : 2 ^ 31 ≤ size) : 4096 * 2 ^ findOrder size < size := by
  rw [findOrder, BitVec.toInt_eq_toNat_cond, BitVec.toNat_ofNat]
  split
  next hcond =>
    -- at most 2^19 pages, and the size has a bit that the conversion drops
    generalize hn : size % 2 ^ 32 = n at hcond
    obtain ⟨hlt, hmin⟩ := @findOrderLoop_spec 32 n (by omega)
    have horder : findOrderLoop 32 n ≤ 19 := by
      by_contra hlarge
      have := hmin 19 (by omega)
      omega
    have hpow := Nat.pow_le_pow_right Nat.two_pos horder
    omega
  . have hneg : ¬(((size % 2 ^ 32 : Nat) : Int) - ((2 ^ 32 : Nat) : Int) > 4096) := by
      have := Nat.mod_lt size (Nat.two_pow_pos 32)
      omega
    rw [findOrderLoop, if_neg hneg]
    omega

theorem Inv.usable_big {bb : BigBlock} (h : s.Inv arena fs) (hbb : bb ∈ s.heap.bigblocks)
    : usable s.heap bb.pages = bb.block := by
  have haligned := (h.bigs bb hbb).1
  rw [usable, if_pos haligned, h.find_big hbb]

theorem Inv.served_small (h : s.Inv arena fs) (hpos : 1 ≤ size)
    (hsmall : size + 2 * slobUnit < kmallocPageSize) (hlegal : s.Legal arena size ans)
    : Served arena s size (s.heap.kmalloc size ans) := by
  have hsize : size < kmallocPageSize - slobUnit := by
    simp only [slobUnit, kmallocPageSize] at *
    omega
  rcases h.kmalloc_small hpos hsmall hlegal with hnone | ⟨b, heap, fs', hsome, hinv, hbigs⟩
  . rw [hnone]
    trivial
  . rw [hsome]
    have hmem : ⟨b, slobUnits (size + slobUnit)⟩ ∈
        (⟨b, slobUnits (size + slobUnit)⟩ :: s.live : List Block) := List.mem_cons_self
    have husable : usable heap (b + 1) = ⟨b + 1, slobUnits (size + slobUnit) - 1⟩ := by
      have hcell : (heap.mem b).units = slobUnits (size + slobUnit) := (hinv.headers _ hmem).1
      have hfind := hinv.find_small hmem
      simp only at hfind
      rw [usable, hfind, ite_self, Nat.add_sub_cancel, hcell]
    refine ⟨?_, ?_, ?_⟩
    . rw [husable]
      simp only [slobUnits, slobUnit]
      omega
    . intro c hc x hcx hx
      have hused : used { heap, live := ⟨b, slobUnits (size + slobUnit)⟩ :: s.live } =
          ⟨b, slobUnits (size + slobUnit)⟩ :: s.used := by
        simp only [used, hbigs, List.cons_append]
      have hheap := hinv.heap
      rw [hused] at hheap
      refine hheap.used_disjoint hc ?_ hcx
      rw [husable] at hx
      simp only [Block.Has, Block.stop] at hx ⊢
      omega
    . obtain ⟨heap', fs'', hfree, hinv', hpages, hbigs'⟩ := hinv.kfree_small hmem
      refine ⟨heap', fs'', hfree, hinv'.heap.free, ?_, by rw [if_pos hsize, hpages]⟩
      intro x
      rw [← hinv'.heap.covers, List.erase_cons_head]
      simp only [used, hbigs', hbigs]

theorem Inv.served_big (h : s.Inv arena fs) (hbig : kmallocPageSize - slobUnit ≤ size)
    (hfits : size ≤ 4096 * 2 ^ findOrder size) (hlegal : s.Legal arena size ans)
    : Served arena s size (s.heap.kmalloc size ans) := by
  rcases h.kmalloc_big hbig hlegal with
    ⟨heap, fs', hnone, -⟩ | ⟨addr, pages, heap, fs', hsome, -, hinv, hbigs⟩
  . rw [hnone]
    trivial
  . rw [hsome]
    have hmem : ⟨addr, findOrder size, pages⟩ ∈ heap.bigblocks := hbigs ▸ List.mem_cons_self
    have husable : usable heap pages = ⟨pages, pageUnits * 2 ^ findOrder size⟩ := hinv.usable_big hmem
    refine ⟨?_, ?_, ?_⟩
    . rw [husable]
      simp only [slobUnit, pageUnits, kmallocPageSize]
      omega
    . intro c hc x hcx hx
      have hpos := Block.cover_pos hc hcx
      have hle := hinv.heap.cover_le x
      rw [cover_used] at hpos hle
      rw [husable] at hx
      simp only [hbigs, List.map_cons, Block.cover_cons, BigBlock.block, hx, if_true] at hle
      omega
    . obtain ⟨heap', fs'', hfree, hinv', hpages, hbigs'⟩ := hinv.kfree_big hmem
      refine ⟨heap', fs'', hfree, hinv'.heap.free, ?_, ?_⟩
      . intro x
        rw [← hinv'.heap.covers]
        simp only [used, hbigs', hbigs, List.erase_cons_head]
      . rw [if_neg (Nat.not_lt.mpr hbig), hpages, husable]
        rfl

/--
There are always pages that nobody has.
-/
theorem exists_legal (s : KmallocSys) (arena size : Nat)
    : ∃ page pages, s.Legal arena size ⟨some page, some pages⟩ := by
  obtain ⟨n, hn⟩ := Block.exists_bound (arenaBlock arena :: s.heap.pages)
  have harena := hn _ List.mem_cons_self
  have hfresh : ∀ p order, n < p → p % pageUnits = 0 → FreshPages arena s.heap p order := by
    intro p order hp haligned
    refine ⟨haligned, by omega, ?_, ?_⟩
    . intro i hi
      rw [Block.cover, List.countP_eq_zero]
      intro b hb
      have hstop := hn b hb
      have hnot : ¬b.Has (p + i) := by
        simp only [Block.Has]
        omega
      simpa using hnot
    . simp only [arenaBlock, Block.stop] at harena
      omega
  have hpos : 0 < pageUnits := by decide
  have hle := Nat.le_mul_of_pos_left (n + 1) hpos
  have hnext : pageUnits * (n + 2) = pageUnits * (n + 1) + pageUnits := Nat.mul_succ ..
  refine ⟨pageUnits * (n + 1), pageUnits * (n + 2), ?_, ?_⟩
  . rintro p ⟨⟩
    exact hfresh _ _ hle (Nat.mul_mod_right ..)
  . rintro q ⟨⟩
    refine ⟨hfresh _ _ (by omega) (Nat.mul_mod_right ..), ?_⟩
    rintro p ⟨⟩
    omega

/--
Which sizes `kmalloc` serves: not those between its own bound and the one that `slob_alloc` asserts, not
those for which `find_order` gives too few pages, and none that does not fit an `int`.
-/
theorem kmalloc_served (h : Reachable arena s) (hpos : 1 ≤ size)
    : (∀ ans, s.Legal arena size ans → Served arena s size (s.heap.kmalloc size ans)) ↔
        (size + 2 * slobUnit < kmallocPageSize ∨ (kmallocPageSize - slobUnit ≤ size ∧ size < 2 ^ 31 ∧
          ∀ k, ¬(4096 * 2 ^ k < size ∧ size < 4097 * 2 ^ k))) := by
  obtain ⟨fs, hinv⟩ := h.inv
  constructor
  . intro hserved
    by_cases hsmall : size + 2 * slobUnit < kmallocPageSize
    . exact .inl hsmall
    . by_cases hsize : size < kmallocPageSize - slobUnit
      . have := hserved ⟨none, none⟩ ⟨by simp, by simp⟩
        rw [kmalloc_gap (Nat.not_lt.mp hsmall) hsize] at this
        contradiction
      . have hbig := Nat.not_lt.mp hsize
        obtain ⟨page, pages, hlegal⟩ := exists_legal s arena size
        have hfits : size ≤ 4096 * 2 ^ findOrder size := by
          have hok := hserved _ hlegal
          rcases hinv.kmalloc_big hbig hlegal with
            ⟨heap, fs', -, -, hnone⟩ | ⟨addr, pages, heap, fs', hsome, -, hinv', hbigs⟩
          . simp at hnone
          . have hmem : ⟨addr, findOrder size, pages⟩ ∈ heap.bigblocks := hbigs ▸ List.mem_cons_self
            have husable : usable heap pages = _ := hinv'.usable_big hmem
            rw [hsome] at hok
            have hroom := hok.1
            rw [husable] at hroom
            simp only [BigBlock.block, slobUnit, pageUnits, kmallocPageSize] at hroom
            omega
        have hint : size < 2 ^ 31 := by
          by_contra hlarge
          have := findOrder_large (Nat.not_lt.mp hlarge)
          omega
        exact .inr ⟨hbig, hint, (findOrder_fits hint).mp hfits⟩
  . rintro (hsmall | ⟨hbig, hint, hfits⟩) ans hlegal
    . exact hinv.served_small hpos hsmall hlegal
    . exact hinv.served_big hbig ((findOrder_fits hint).mpr hfits) hlegal

/--
The state behind the boot.
-/
def bootHeap : KmallocSys := { heap := Slob.init (fun _ => ⟨0, 0⟩) 10, live := [] }

theorem kmalloc_served_bootHeap
    : Served 10 bootHeap 4096 (bootHeap.heap.kmalloc 4096 ⟨some 512, some 1024⟩) := by
  have hreach : Reachable 10 bootHeap := ⟨_, [], rfl⟩
  have hfits : ∀ k, ¬(4096 * 2 ^ k < 4096 ∧ 4096 < 4097 * 2 ^ k) := by
    intro k
    have := Nat.two_pow_pos k
    omega
  have hlegal : bootHeap.Legal 10 4096 ⟨some 512, some 1024⟩ := by decide +kernel
  exact (kmalloc_served hreach (by decide)).mpr (.inr ⟨by decide, by decide, hfits⟩) _ hlegal

/--
4064 bytes are below the bound of `kmalloc`, but the assertion of `slob_alloc` fails for them.
-/
theorem kmalloc_served_gap
    : ¬(∀ arena s size ans, Reachable arena s → 1 ≤ size → size < 2 ^ 64 → s.Legal arena size ans →
        Served arena s size (s.heap.kmalloc size ans)) := by
  intro hserved
  have hreach : Reachable 10 bootHeap := ⟨_, [], rfl⟩
  have := hserved 10 bootHeap 4064 ⟨none, none⟩ hreach (by decide) (by decide) ⟨by simp, by simp⟩
  rw [kmalloc_gap (by decide) (by decide)] at this
  exact this

end KmallocSys
end Ucore

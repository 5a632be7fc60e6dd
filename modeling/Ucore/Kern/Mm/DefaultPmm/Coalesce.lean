import Ucore.Kern.Mm.DefaultPmm.FirstFit

/-!
This module contains what freeing leaves in the free list: blocks without neighbours, whose list is
determined by the pages in it.
-/

namespace Ucore

open CircularList

/--
The first page of the first block is the first page that the blocks cover.
-/
theorem Coalesced.fst_le {b : Nat × Nat} {bs : List (Nat × Nat)} (h : Coalesced (b :: bs)) {p : Nat}
    (hp : Covers (b :: bs) p)
    : b.1 ≤ p := by
  obtain ⟨hb, -⟩ := List.pairwise_cons.mp h
  rw [covers_cons] at hp
  rcases hp with hp | ⟨x, hx, hxp⟩
  . exact hp.1
  . have := hb x hx
    omega

/--
A page behind the first block starts no sooner than one page after its end.
-/
theorem Coalesced.covers_tail_iff {b : Nat × Nat} {bs : List (Nat × Nat)} (h : Coalesced (b :: bs))
    (p : Nat)
    : Covers bs p ↔ Covers (b :: bs) p ∧ b.1 + b.2 < p := by
  obtain ⟨hb, -⟩ := List.pairwise_cons.mp h
  rw [covers_cons]
  constructor
  . intro ⟨x, hx, hxp⟩
    have := hb x hx
    exact ⟨Or.inr ⟨x, hx, hxp⟩, by omega⟩
  . intro ⟨hp, hlt⟩
    cases hp with
    | inl hp => omega
    | inr hp => exact hp

theorem Coalesced.not_covers_end {b : Nat × Nat} {bs : List (Nat × Nat)} (h : Coalesced (b :: bs))
    : ¬Covers (b :: bs) (b.1 + b.2) := by
  obtain ⟨hb, -⟩ := List.pairwise_cons.mp h
  rw [covers_cons]
  intro hp
  rcases hp with hp | ⟨x, hx, hxp⟩
  . omega
  . have := hb x hx
    omega

/--
Blocks without neighbours are determined by the pages they cover.
-/
theorem Coalesced.ext {xs ys : List (Nat × Nat)} (hxs : Coalesced xs) (hys : Coalesced ys)
    (hxpos : ∀ b ∈ xs, 0 < b.2) (hypos : ∀ b ∈ ys, 0 < b.2)
    (h : ∀ p, Covers xs p ↔ Covers ys p)
    : xs = ys := by
  induction xs generalizing ys with
  | nil =>
    cases ys with
    | nil => rfl
    | cons y ys =>
      have := hypos y (by simp)
      have := (h y.1).mpr (by simp [this])
      simp at this
  | cons x xs ih =>
    cases ys with
    | nil =>
      have := hxpos x (by simp)
      have := (h x.1).mp (by simp [this])
      simp at this
    | cons y ys =>
      have hx := hxpos x (by simp)
      have hy := hypos y (by simp)
      have hfst : x.1 = y.1 := by
        have hle := hys.fst_le ((h x.1).mp (by simp [hx]))
        have hge := hxs.fst_le ((h y.1).mpr (by simp [hy]))
        omega
      have hsnd : x.2 = y.2 := by
        have hend := hxs.not_covers_end
        have hend' := hys.not_covers_end
        rw [h, covers_cons] at hend
        rw [← h, covers_cons] at hend'
        omega
      have heq : x = y := Prod.ext hfst hsnd
      subst heq
      congr 1
      apply ih (List.pairwise_cons.mp hxs).2 (List.pairwise_cons.mp hys).2
        (fun b hb => hxpos b (by simp [hb])) (fun b hb => hypos b (by simp [hb]))
      intro p
      rw [hxs.covers_tail_iff, hys.covers_tail_iff, h]

namespace Pmm

/--
The free list holds `blocks` in address order, and no two of them are neighbours.
-/
structure WellFormed (s : Pmm) (blocks : List (Nat × Nat)) : Prop where
  represents : s.Represents blocks
  coalesced : Coalesced blocks

/--
`[base, base + n)` is a block of pages that can be in use while `blocks` are free.
-/
structure Allocated (s : Pmm) (blocks : List (Nat × Nat)) (base n : Nat) : Prop where
  pos : 0 < n
  le : base + n ≤ s.npage
  notReserved : ∀ p, base ≤ p → p < base + n → (s.pages p).reserved = false
  apart : ∀ x ∈ blocks, x.1 + x.2 ≤ base ∨ base + n ≤ x.1

/--
`default_free_pages` ends in a well formed list of the pages that were free and those of the block.
-/
def FreesInto (s : Pmm) (blocks : List (Nat × Nat)) (base n : Nat) : Prop :=
  ∃ s' blocks', s.defaultFreePages base n = some s' ∧ s'.WellFormed blocks'
    ∧ ∀ p, Covers blocks' p ↔ Covers blocks p ∨ (base ≤ p ∧ p < base + n)

variable {s : Pmm} {blocks : List (Nat × Nat)} {base n : Nat}

theorem Allocated.clear (h : s.Allocated blocks base n) (hrep : s.Represents blocks)
    : ∀ p, base ≤ p → p < base + n →
        (s.pages p).reserved = false ∧ (s.pages p).isProperty = false := by
  intro p hp hlt
  refine ⟨h.notReserved p hp hlt, ?_⟩
  rw [Bool.eq_false_iff]
  intro hprop
  have hle := h.le
  obtain ⟨x, hx, hxp⟩ := hrep.marked.covers_of_isProperty (by omega) hprop
  have := h.apart x hx
  omega

theorem freesInto_iff (h : s.WellFormed blocks) (halloc : s.Allocated blocks base n)
    : s.FreesInto blocks base n ↔ s.BelowLast base := by
  have hclear := halloc.clear h.represents
  constructor
  . intro ⟨t, blocks', heq, hwell, _⟩
    by_contra hbelow
    obtain ⟨t', heq', hbroken⟩ := defaultFreePages_broken h.represents halloc.pos halloc.le hclear
      halloc.apart hbelow
    rw [heq, Option.some_inj] at heq'
    subst heq'
    exact hbroken blocks' hwell.represents
  . intro hbelow
    obtain ⟨-, t, blocks', -, heq, hrep, hcov, hgaps, -⟩ := defaultFreePages_spec h.represents
      halloc.pos halloc.le hclear halloc.apart hbelow
    refine ⟨t, blocks', heq, ⟨hrep, hgaps h.coalesced⟩, ?_⟩
    intro p
    rw [hcov, or_comm]

end Pmm

namespace PmmRun

/--
A call of `default_alloc_pages` or `default_free_pages`.
-/
def AllocsOrFrees (c : PmmRun) : PmmCall → Prop
  | .initMemmap _ _ => False
  | call => c.Legal call

/--
What a run of allocations and releases keeps: no free blocks that are neighbours, and the pages that
are either free or handed out.
-/
structure Keeps (pages : Nat → Prop) (c : PmmRun) (blocks : List (Nat × Nat)) : Prop where
  managed : c.Managed blocks
  coalesced : Coalesced blocks
  covers : ∀ p, Covers blocks p ∨ Covers c.live p ↔ pages p

theorem Keeps.step {pages : Nat → Prop} {c : PmmRun} {blocks : List (Nat × Nat)} {call : PmmCall}
    (h : c.Keeps pages blocks) (hlegal : c.AllocsOrFrees call) (hbelow : c.InsertsBelowLast call)
    : ∃ c', c.step call = some c' ∧ ∃ blocks', c'.Keeps pages blocks' := by
  have hkept : ∀ {c' blocks'}, c.step call = some c' → c'.Managed blocks' →
      c.Kept blocks c' blocks' → ∃ c', c.step call = some c' ∧ ∃ blocks', c'.Keeps pages blocks' := by
    intro c' blocks' hstep hmanaged hkept
    refine ⟨c', hstep, blocks', hmanaged, hkept.coalesced h.coalesced, ?_⟩
    intro p
    rw [hkept.covers, h.covers]
  cases call with
  | initMemmap base n => exact hlegal.elim
  | allocPages n =>
    obtain ⟨c', blocks', hstep, hmanaged, hk⟩ := h.managed.allocPages (n := n) hlegal
    exact hkept hstep hmanaged hk
  | freePages base n =>
    obtain ⟨c', blocks', hstep, hmanaged, hk⟩ := h.managed.freePages hlegal hbelow
    exact hkept hstep hmanaged hk

/--
The call is legal, it is no call of `default_init_memmap`, and it inserts nothing behind the last
block.
-/
def AllocsOrFreesBelowLast (c : PmmRun) (call : PmmCall) : Prop :=
  c.AllocsOrFrees call ∧ c.InsertsBelowLast call

/--
When all the blocks that a run took are free again, the free list is the one it started with.
-/
theorem Managed.exec_wellFormed {c : PmmRun} {blocks : List (Nat × Nat)} {calls : List PmmCall}
    (h : c.Managed blocks) (hgaps : Coalesced blocks)
    (hcalls : Run.Admits PmmRun.step AllocsOrFreesBelowLast c calls)
    : ∃ c', Run.exec PmmRun.step c calls = some c'
        ∧ (c'.live.Perm c.live → c'.pmm.WellFormed blocks) := by
  let pages := fun p => Covers blocks p ∨ Covers c.live p
  have hstart : c.Keeps pages blocks := ⟨h, hgaps, fun _ => Iff.rfl⟩
  obtain ⟨c', hexec, blocks', hkeeps⟩ := Run.exists_exec_of_admits
    (I := fun c => ∃ blocks, c.Keeps pages blocks) (fun c call ⟨_, hk⟩ hq => hk.step hq.1 hq.2)
    ⟨blocks, hstart⟩ hcalls
  refine ⟨c', hexec, ?_⟩
  intro hlive
  have heq : blocks' = blocks := by
    apply hkeeps.coalesced.ext hgaps hkeeps.managed.represents.marked.pos h.represents.marked.pos
    intro p
    have hcov := hkeeps.covers p
    have hold := h.disjoint p
    have hnew := hkeeps.managed.disjoint p
    rw [covers_iff_of_perm hlive] at hcov hnew
    simp only [pages] at hcov
    tauto
  subst heq
  exact ⟨hkeeps.managed.represents, hgaps⟩

/--
`default_free_pages` yields a well formed list without neighbours exactly when the free list is empty
or the block goes in front of the last one of the list, wherever it lies otherwise. When every
release of a run is of this kind and all blocks that the run took are free again, the free list is
the one it started with.
-/
theorem free_pages_coalesces_iff (blocks : List (Nat × Nat))
    : (∀ (s : Pmm) (base n : Nat), s.WellFormed blocks → s.Allocated blocks base n →
          (s.FreesInto blocks base n ↔ s.BelowLast base))
        ∧ ∀ (c : PmmRun) (calls : List PmmCall), c.Managed blocks → Coalesced blocks →
            Run.Admits PmmRun.step AllocsOrFreesBelowLast c calls →
            ∃ c', Run.exec PmmRun.step c calls = some c'
              ∧ (c'.live.Perm c.live → c'.pmm.WellFormed blocks) := by
  constructor
  . intro s base n hwell halloc
    exact Pmm.freesInto_iff hwell halloc
  . intro c calls hmanaged hgaps hcalls
    exact hmanaged.exec_wellFormed hgaps hcalls

end PmmRun

/--
A machine with eight pages, of which the `k` pages from `b` on are free.
-/
def Pmm.oneFree (b k : Nat) : Pmm where
  npage := 8
  npage_lt := by decide
  pages := fun p =>
    { ref := 0
      flags := if p = b then setBit pgProperty 0 else 0
      property := if p = b then k else 0 }
  links := { next := fun e => if e = .freeList then .pageLink b else .freeList
             prev := fun e => if e = .freeList then .pageLink b else .freeList }
  nrFree := k

theorem Pmm.oneFree_isProperty (b k p : Nat)
    : ((oneFree b k).pages p).isProperty = decide (p = b) := by
  by_cases hp : p = b
  . simp [oneFree, hp, Page.isProperty, testBit, setBit, pgProperty]
  . simp [oneFree, hp]

theorem Pmm.oneFree_reserved (b k p : Nat) : ((oneFree b k).pages p).reserved = false := by
  by_cases hp : p = b
  . simp [oneFree, hp, Page.reserved, testBit, setBit, pgProperty, pgReserved]
  . simp [oneFree, hp]

theorem Pmm.oneFree_wellFormed {b k : Nat} (hk : 0 < k) (hle : b + k ≤ 8)
    : (oneFree b k).WellFormed [(b, k)] := by
  refine ⟨⟨?_, ?_, by simp [oneFree]⟩, by simp [Coalesced]⟩
  . constructor
    . simp [entries]
    . simp [entries, List.isChain_cons_cons, Links.Adjacent, oneFree]
  . constructor
    . simp [oneFree]
    . simpa using hk
    . simp [Sorted]
    . intro p hp
      rw [oneFree_isProperty]
      simp
    . simpa [oneFree] using hle

namespace PmmRun

/--
The allocator of `Pmm.oneFree` with the pages in front of the free ones in use.
-/
def oneFree (b k : Nat) : PmmRun where
  pmm := Pmm.oneFree b k
  inited := [(0, 8)]
  live := [(0, b)]

theorem oneFree_managed {b k : Nat} (hb : 0 < b) (hk : 0 < k) (hle : b + k ≤ 8)
    : (oneFree b k).Managed [(b, k)] := by
  constructor
  . exact (Pmm.oneFree_wellFormed hk hle).represents
  . simp [oneFree]
  . intro p
    simp only [oneFree, covers_cons, covers_nil, or_false]
    omega
  . simpa [oneFree] using hb
  . intro p
    simp only [oneFree, covers_cons, covers_nil, or_false]
    omega
  . intro p hp
    simp only [oneFree, Pmm.oneFree_reserved, covers_cons, covers_nil, or_false]
    simpa [oneFree, Pmm.oneFree] using hp
  . intro p hp
    simpa [oneFree, Pmm.oneFree] using hp

instance (c : PmmRun) (call : PmmCall) : Decidable (c.AllocsOrFreesBelowLast call) :=
  match call with
  | .initMemmap _ _ => isFalse (fun h => h.1)
  | .allocPages n =>
    decidable_of_iff (1 ≤ n)
      (by simp [AllocsOrFreesBelowLast, AllocsOrFrees, Legal, InsertsBelowLast])
  | .freePages base n =>
    decidable_of_iff ((base, n) ∈ c.live ∧ c.pmm.BelowLast base)
      (by simp [AllocsOrFreesBelowLast, AllocsOrFrees, Legal, InsertsBelowLast])

theorem free_pages_coalesces_iff_oneFree
    : ((Pmm.oneFree 5 3).FreesInto [(5, 3)] 0 5 ↔ (Pmm.oneFree 5 3).BelowLast 0)
        ∧ ∃ c', Run.exec PmmRun.step (oneFree 5 3) [.allocPages 2, .freePages 5 2] = some c'
            ∧ (c'.live.Perm [(0, 5)] → c'.pmm.WellFormed [(5, 3)]) :=
  ⟨(free_pages_coalesces_iff [(5, 3)]).1 (Pmm.oneFree 5 3) 0 5
      (Pmm.oneFree_wellFormed (by decide) (by decide))
      ⟨by decide, by decide, fun p _ _ => Pmm.oneFree_reserved 5 3 p, by decide⟩,
    (free_pages_coalesces_iff [(5, 3)]).2 (oneFree 5 3) [.allocPages 2, .freePages 5 2]
      (oneFree_managed (by decide) (by decide) (by decide)) (by simp [Coalesced]) (by decide)⟩

/--
Three free pages in front of a block of five in use: the block is freed behind the last free one.
-/
theorem not_free_pages_coalesces
    : ¬∀ (s : Pmm) (blocks : List (Nat × Nat)) (base n : Nat), s.WellFormed blocks →
        s.Allocated blocks base n → s.FreesInto blocks base n := by
  intro h
  have hwell : (Pmm.oneFree 0 3).WellFormed [(0, 3)] := Pmm.oneFree_wellFormed (by decide) (by decide)
  have halloc : (Pmm.oneFree 0 3).Allocated [(0, 3)] 3 5 :=
    ⟨by decide, by decide, fun p _ _ => Pmm.oneFree_reserved 0 3 p, by decide⟩
  have hbelow := (Pmm.freesInto_iff hwell halloc).mp (h _ _ _ _ hwell halloc)
  revert hbelow
  decide

end PmmRun
end Ucore

import Ucore.Kern.Mm.DefaultPmm.Lemmas.AllocPages
import Ucore.Kern.Mm.DefaultPmm.Lemmas.FreePages

/-!
This module contains the invariant of the first fit allocator over whole runs: it holds throughout a
run exactly when no block is ever inserted behind the last block of the free list.
-/

namespace Ucore

open CircularList

theorem covers_iff_of_perm {xs ys : List (Nat × Nat)} (h : xs.Perm ys) (p : Nat)
    : Covers xs p ↔ Covers ys p := by
  simp [Covers, h.mem_iff]

theorem covers_remainder (b k n p : Nat)
    : Covers (Pmm.remainder b k n) p ↔ b + n ≤ p ∧ p < b + k := by
  unfold Pmm.remainder
  split
  . simp only [covers_cons, covers_nil, or_false]
    omega
  . simp only [covers_nil, false_iff]
    omega

/--
The rest of a block starts behind the block in front of it, too.
-/
theorem Pmm.coalesced_remainder {pre post : List (Nat × Nat)} {b k n : Nat} (hn : 0 < n)
    (h : Coalesced (pre ++ (b, k) :: post))
    : Coalesced (pre ++ (Pmm.remainder b k n ++ post)) := by
  obtain ⟨hgaps, hpre, hpost⟩ := coalesced_append_cons_iff.mp h
  unfold Pmm.remainder
  split
  . refine coalesced_append_cons_iff.mpr ⟨hgaps, ?_, ?_⟩
    . intro x hx
      have := hpre x hx
      simp only at *
      omega
    . intro x hx
      have := hpost x hx
      simp only at *
      omega
  . simpa using hgaps

namespace PmmRun

/--
The free list is a circular doubly linked list of blocks in address order without overlap, its
members are the pages with `PG_property`, their sizes add up to `nr_free`, and no page belongs to
two blocks that were handed out or to such a block and a free one.
-/
def Consistent (c : PmmRun) : Prop :=
  ∃ blocks, c.pmm.Represents blocks ∧ c.live.Pairwise Apart
    ∧ ∀ p, ¬(Covers blocks p ∧ Covers c.live p)

/--
The call does not insert a block behind the last block of the free list.
-/
def InsertsBelowLast (c : PmmRun) : PmmCall → Prop
  | .initMemmap base _ => c.pmm.BelowLast base
  | .allocPages _ => True
  | .freePages base _ => c.pmm.BelowLast base

/--
`Consistent` together with where the blocks come from: every page in a block lies in a range that
was initialised, and these ranges hold exactly the pages that are not reserved.
-/
structure Managed (c : PmmRun) (blocks : List (Nat × Nat)) : Prop where
  represents : c.pmm.Represents blocks
  liveApart : c.live.Pairwise Apart
  disjoint : ∀ p, ¬(Covers blocks p ∧ Covers c.live p)
  livePos : ∀ r ∈ c.live, 0 < r.2
  inited : ∀ p, Covers blocks p ∨ Covers c.live p → Covers c.inited p
  reserved_iff : ∀ p < c.pmm.npage, (c.pmm.pages p).reserved = true ↔ ¬Covers c.inited p
  inited_lt : ∀ p, Covers c.inited p → p < c.pmm.npage

theorem Managed.consistent {c : PmmRun} {blocks : List (Nat × Nat)} (h : c.Managed blocks)
    : c.Consistent :=
  ⟨blocks, h.represents, h.liveApart, h.disjoint⟩

theorem Initial.managed {c : PmmRun} (h : c.Initial) : c.Managed [] := by
  obtain ⟨s, hs⟩ := h.defaultInit
  have hnrFree : c.pmm.nrFree = 0 := by
    rw [hs, Pmm.defaultInit]
  have hring : IsRing c.pmm.links .freeList (Pmm.entries []) := by
    rw [hs, Pmm.defaultInit]
    exact listInit_isRing
  constructor
  . refine ⟨hring, ⟨by simp, by simp, by simp [Sorted], ?_, by simp⟩, by simpa using hnrFree⟩
    intro p hp
    simp [h.notProperty p hp]
  . simp [h.live]
  . simp
  . simp [h.live]
  . simp [h.live]
  . intro p hp
    simp [h.reserved p hp, h.inited]
  . simp [h.inited]

/--
A range whose pages are all outside a list of blocks lies in front of or behind each block.
-/
theorem apart_of_not_covers {blocks : List (Nat × Nat)} {base n : Nat} (hn : 0 < n)
    (hpos : ∀ b ∈ blocks, 0 < b.2)
    (h : ∀ p, base ≤ p → p < base + n → ¬Covers blocks p)
    : ∀ x ∈ blocks, x.1 + x.2 ≤ base ∨ base + n ≤ x.1 := by
  intro x hx
  have := hpos x hx
  by_cases hle : base ≤ x.1
  . by_cases hlt : x.1 < base + n
    . exact absurd ⟨x, hx, by omega, by omega⟩ (h x.1 hle hlt)
    . omega
  . by_cases hlt : base < x.1 + x.2
    . exact absurd ⟨x, hx, by omega, by omega⟩ (h base (by omega) (by omega))
    . omega

section Step

variable {c c' : PmmRun} {blocks : List (Nat × Nat)} {base n : Nat}

/--
What an allocation or a release keeps: blocks without neighbours, and the pages that the allocator has or has
handed out.
-/
structure Kept (c : PmmRun) (blocks : List (Nat × Nat)) (c' : PmmRun) (blocks' : List (Nat × Nat)) : Prop where
  coalesced : Coalesced blocks → Coalesced blocks'
  covers : ∀ p, Covers blocks' p ∨ Covers c'.live p ↔ Covers blocks p ∨ Covers c.live p

theorem Managed.allocPages (h : c.Managed blocks) (hn : 0 < n)
    : ∃ c' blocks', c.step (.allocPages n) = some c' ∧ c'.Managed blocks' ∧ c.Kept blocks c' blocks' := by
  rcases Pmm.defaultAllocPages_spec h.represents hn with halloc | ⟨pre, b, k, post, rfl, hle, halloc⟩
  . exact ⟨c, blocks, by simp [step, halloc], h, id, fun _ => Iff.rfl⟩
  . refine ⟨{ c with pmm := c.pmm.takePages b n, live := (b, n) :: c.live },
      pre ++ (Pmm.remainder b k n ++ post), by simp [step, halloc], ?_, ?_⟩
    have hsorted := sorted_append_cons_iff.mp h.represents.marked.sorted
    have hold : ∀ p, b ≤ p → p < b + n → Covers (pre ++ (b, k) :: post) p := by
      intro p hp hlt
      simp only [covers_append, covers_cons]
      right
      left
      omega
    have hrest : ∀ p, Covers (pre ++ (Pmm.remainder b k n ++ post)) p →
        Covers (pre ++ (b, k) :: post) p ∧ ¬(b ≤ p ∧ p < b + n) := by
      intro p hp
      simp only [covers_append, covers_remainder, covers_cons] at hp ⊢
      rcases hp with ⟨x, hx, hxp⟩ | hp | ⟨x, hx, hxp⟩
      . have := hsorted.2.1 x hx
        exact ⟨Or.inl ⟨x, hx, hxp⟩, by simp only at this; omega⟩
      . exact ⟨Or.inr (Or.inl (by omega)), by omega⟩
      . have := hsorted.2.2 x hx
        exact ⟨Or.inr (Or.inr ⟨x, hx, hxp⟩), by simp only at this; omega⟩
    rotate_left
    . refine ⟨Pmm.coalesced_remainder hn, ?_⟩
      intro p
      simp only [covers_append, covers_remainder, covers_cons]
      grind
    constructor
    . exact Pmm.takePages_represents h.represents hn hle
    . refine List.pairwise_cons.mpr ⟨?_, h.liveApart⟩
      intro r hr
      have := apart_of_not_covers hn h.livePos
        (fun p hp hlt hlive => h.disjoint p ⟨hold p hp hlt, hlive⟩) r hr
      simp only [Apart]
      omega
    . rintro p ⟨hfree, hlive⟩
      obtain ⟨hfree, hnot⟩ := hrest p hfree
      rw [covers_cons] at hlive
      cases hlive with
      | inl hin => exact hnot hin
      | inr hlive => exact h.disjoint p ⟨hfree, hlive⟩
    . intro r hr
      cases List.mem_cons.mp hr with
      | inl heq => rw [heq]; exact hn
      | inr hr => exact h.livePos r hr
    . intro p hp
      rw [covers_cons] at hp
      rcases hp with hfree | hin | hlive
      . exact h.inited p (Or.inl (hrest p hfree).1)
      . exact h.inited p (Or.inl (hold p hin.1 hin.2))
      . exact h.inited p (Or.inr hlive)
    . intro p hp
      simp only [Pmm.takePages_npage, Pmm.takePages_reserved] at hp ⊢
      exact h.reserved_iff p hp
    . intro p hp
      simp only [Pmm.takePages_npage]
      exact h.inited_lt p hp

theorem covers_inited_iff (hlegal : c.Legal (.initMemmap base n)) {p : Nat} (hp : base ≤ p)
    (hlt : p < base + n)
    : ¬Covers c.inited p := by
  obtain ⟨-, -, hapart⟩ := hlegal
  intro ⟨r, hr, hrp⟩
  have := hapart r hr
  simp only [Apart] at this
  omega

/--
What holds in front of a legal call of `default_init_memmap`.
-/
theorem Managed.legal_initMemmap (h : c.Managed blocks) (hlegal : c.Legal (.initMemmap base n))
    : (∀ p, base ≤ p → p < base + n →
        (c.pmm.pages p).reserved = true ∧ (c.pmm.pages p).isProperty = false)
      ∧ ∀ x ∈ blocks, x.1 + x.2 ≤ base ∨ base + n ≤ x.1 := by
  have hout : ∀ p, base ≤ p → p < base + n → ¬Covers blocks p := fun p hp hlt hcov =>
    covers_inited_iff hlegal hp hlt (h.inited p (Or.inl hcov))
  have ⟨hn, hle, _⟩ := hlegal
  refine ⟨?_, apart_of_not_covers hn h.represents.marked.pos hout⟩
  intro p hp hlt
  refine ⟨(h.reserved_iff p (by omega)).mpr (covers_inited_iff hlegal hp hlt), ?_⟩
  rw [Bool.eq_false_iff]
  intro hprop
  exact hout p hp hlt (h.represents.marked.covers_of_isProperty (by omega) hprop)

/--
What holds in front of a legal call of `default_free_pages`.
-/
theorem Managed.legal_freePages (h : c.Managed blocks) (hlegal : c.Legal (.freePages base n))
    : 0 < n ∧ base + n ≤ c.pmm.npage
      ∧ (∀ p, base ≤ p → p < base + n →
        (c.pmm.pages p).reserved = false ∧ (c.pmm.pages p).isProperty = false)
      ∧ ∀ x ∈ blocks, x.1 + x.2 ≤ base ∨ base + n ≤ x.1 := by
  have hlive : ∀ p, base ≤ p → p < base + n → Covers c.live p := fun p hp hlt =>
    ⟨(base, n), hlegal, hp, hlt⟩
  have hn := h.livePos _ hlegal
  simp only at hn
  have hinited : ∀ p, base ≤ p → p < base + n → Covers c.inited p := fun p hp hlt =>
    h.inited p (Or.inr (hlive p hp hlt))
  have hlt : ∀ p, base ≤ p → p < base + n → p < c.pmm.npage := fun p hp hlt =>
    h.inited_lt p (hinited p hp hlt)
  have hout : ∀ p, base ≤ p → p < base + n → ¬Covers blocks p := fun p hp hlt hcov =>
    h.disjoint p ⟨hcov, hlive p hp hlt⟩
  have hlast := hlt (base + n - 1) (by omega) (by omega)
  refine ⟨hn, by omega, ?_, apart_of_not_covers hn h.represents.marked.pos hout⟩
  intro p hp hlt'
  refine ⟨?_, ?_⟩
  . rw [Bool.eq_false_iff]
    intro hres
    exact (h.reserved_iff p (hlt p hp hlt')).mp hres (hinited p hp hlt')
  . rw [Bool.eq_false_iff]
    intro hprop
    exact hout p hp hlt' (h.represents.marked.covers_of_isProperty (hlt p hp hlt') hprop)

theorem Managed.initMemmap (h : c.Managed blocks) (hlegal : c.Legal (.initMemmap base n))
    (hbelow : c.pmm.BelowLast base)
    : ∃ c' blocks', c.step (.initMemmap base n) = some c' ∧ c'.Managed blocks' := by
  obtain ⟨hclear, hapart⟩ := h.legal_initMemmap hlegal
  have hout : ∀ p, base ≤ p → p < base + n → ¬Covers c.inited p := fun p hp hlt =>
    covers_inited_iff hlegal hp hlt
  obtain ⟨hn, hle, -⟩ := hlegal
  obtain ⟨s', hmarks, heq⟩ := Pmm.defaultInitMemmap_eq hn fun p hp hlt => (hclear p hp hlt).1
  obtain ⟨t, pre, post, hins, hnpage, hpages, hrep, rfl⟩ := hmarks.insertFree_represents
    h.represents hn hle hapart (fun p hp hlt => (hclear p hp hlt).2) hbelow
  refine ⟨{ c with pmm := t, inited := (base, n) :: c.inited }, pre ++ (base, n) :: post,
    by simp [step, heq, hins], ?_⟩
  constructor
  . exact hrep
  . exact h.liveApart
  . intro p ⟨hfree, hlive⟩
    simp only [covers_append, covers_cons] at hfree
    rcases hfree with hfree | hin | hfree
    . exact h.disjoint p ⟨by simp [hfree], hlive⟩
    . exact hout p hin.1 hin.2 (h.inited p (Or.inr hlive))
    . exact h.disjoint p ⟨by simp [hfree], hlive⟩
  . exact h.livePos
  . intro p hp
    have := h.inited p
    simp only [covers_append, covers_cons] at hp this ⊢
    grind
  . intro p hp
    simp only [hnpage, hpages, covers_cons] at hp ⊢
    by_cases hin : base ≤ p ∧ p < base + n
    . simp [hin, hmarks.reserved p hin.1 hin.2]
    . rw [hmarks.outside p hin, h.reserved_iff p hp]
      simp [hin]
  . intro p hp
    simp only [hnpage, covers_cons] at hp ⊢
    cases hp with
    | inl hin => omega
    | inr hp => exact h.inited_lt p hp

theorem Managed.freePages (h : c.Managed blocks) (hlegal : c.Legal (.freePages base n))
    (hbelow : c.pmm.BelowLast base)
    : ∃ c' blocks', c.step (.freePages base n) = some c' ∧ c'.Managed blocks' ∧ c.Kept blocks c' blocks' := by
  obtain ⟨hn, hle, hclear, hapart⟩ := h.legal_freePages hlegal
  have hinited : ∀ p, base ≤ p → p < base + n → Covers c.inited p := fun p hp hlt =>
    h.inited p (Or.inr ⟨(base, n), hlegal, hp, hlt⟩)
  obtain ⟨s', t, blocks', hmarks, heq, hrep, hcov, hgaps, hnpage, hreserved⟩ :=
    Pmm.defaultFreePages_spec h.represents hn hle hclear hapart hbelow
  have hperm := List.perm_cons_erase (l := c.live) hlegal
  have hapartLive := (hperm.pairwise_iff (by intro x y; simp only [Apart]; omega)).mp h.liveApart
  obtain ⟨hnew, hliveApart⟩ := List.pairwise_cons.mp hapartLive
  have hlive : ∀ p, Covers c.live p ↔ (base ≤ p ∧ p < base + n) ∨ Covers (c.live.erase (base, n)) p :=
    fun p => by rw [covers_iff_of_perm hperm, covers_cons]
  refine ⟨{ c with pmm := t, live := c.live.erase (base, n) }, blocks', by simp [step, heq], ?_, hgaps, ?_⟩
  rotate_left
  . intro p
    rw [hcov, hlive]
    tauto
  constructor
  . exact hrep
  . exact hliveApart
  . intro p ⟨hfree, hrest⟩
    rw [hcov] at hfree
    cases hfree with
    | inl hin =>
      obtain ⟨r, hr, hrp⟩ := hrest
      have := hnew r hr
      simp only [Apart] at this
      omega
    | inr hfree => exact h.disjoint p ⟨hfree, (hlive p).mpr (Or.inr hrest)⟩
  . exact fun r hr => h.livePos r (List.mem_of_mem_erase hr)
  . intro p hp
    rw [hcov] at hp
    rcases hp with (hin | hfree) | hrest
    . exact hinited p hin.1 hin.2
    . exact h.inited p (Or.inl hfree)
    . exact h.inited p (Or.inr ((hlive p).mpr (Or.inr hrest)))
  . intro p hp
    simp only [hnpage, hreserved] at hp ⊢
    by_cases hin : base ≤ p ∧ p < base + n
    . simp [hmarks.reserved p hin.1 hin.2, hinited p hin.1 hin.2]
    . rw [hmarks.outside p hin, h.reserved_iff p hp]
  . intro p hp
    simp only [hnpage]
    exact h.inited_lt p hp

theorem Managed.initMemmap_broken (h : c.Managed blocks) (hlegal : c.Legal (.initMemmap base n))
    (hbelow : ¬c.pmm.BelowLast base) (hstep : c.step (.initMemmap base n) = some c')
    : ¬c'.Consistent := by
  obtain ⟨hclear, hapart⟩ := h.legal_initMemmap hlegal
  obtain ⟨hn, hle, -⟩ := hlegal
  obtain ⟨s', hmarks, heq⟩ := Pmm.defaultInitMemmap_eq hn fun p hp hlt => (hclear p hp hlt).1
  obtain ⟨links, hins, hprev, hnext⟩ := hmarks.insertFree_broken h.represents hapart hn hbelow
  have hc' : c'.pmm = { s' with links } := by
    simp only [step, heq, hins, Option.bind_eq_bind, Option.bind_some, Option.pure_def,
      Option.some.injEq] at hstep
    rw [← hstep]
  have hmark := hmarks.isProperty base (by omega) (by omega)
  rintro ⟨blocks', hrep, _⟩
  rw [hc'] at hrep
  refine Pmm.not_represents_of_broken ?_ (by simpa using hmark) hprev hnext hrep
  rw [show ({ s' with links } : Pmm).npage = c.pmm.npage from hmarks.npage]
  omega

theorem Managed.freePages_broken (h : c.Managed blocks) (hlegal : c.Legal (.freePages base n))
    (hbelow : ¬c.pmm.BelowLast base) (hstep : c.step (.freePages base n) = some c')
    : ¬c'.Consistent := by
  obtain ⟨hn, hle, hclear, hapart⟩ := h.legal_freePages hlegal
  obtain ⟨t, heq, hbroken⟩ := Pmm.defaultFreePages_broken h.represents hn hle hclear hapart hbelow
  simp only [step, heq, Option.bind_eq_bind, Option.bind_some, Option.pure_def,
    Option.some.injEq] at hstep
  intro ⟨blocks', hrep, _⟩
  rw [← hstep] at hrep
  exact hbroken blocks' hrep

end Step

/--
The allocator's invariant holds throughout a run of legal calls exactly when each block that is
initialised or freed in the run finds the free list empty or goes in front of its last block.
-/
theorem always_consistent_iff {c : PmmRun} {calls : List PmmCall} (hinit : c.Initial)
    (hlegal : Run.Admits step Legal c calls)
    : Run.Always step Consistent c calls ↔ Run.Admits step InsertsBelowLast c calls := by
  apply Run.always_iff_admits (I := fun c => ∃ blocks, c.Managed blocks) (L := Legal)
  . intro c ⟨blocks, h⟩
    exact h.consistent
  . intro c call ⟨blocks, h⟩ hlegal hbelow
    cases call with
    | initMemmap base n =>
      obtain ⟨c', blocks', hstep, h'⟩ := h.initMemmap hlegal hbelow
      exact ⟨c', hstep, blocks', h'⟩
    | allocPages n =>
      obtain ⟨c', blocks', hstep, h', -⟩ := h.allocPages (n := n) hlegal
      exact ⟨c', hstep, blocks', h'⟩
    | freePages base n =>
      obtain ⟨c', blocks', hstep, h', -⟩ := h.freePages hlegal hbelow
      exact ⟨c', hstep, blocks', h'⟩
  . intro c call ⟨blocks, h⟩ hlegal hbelow c' hstep
    cases call with
    | initMemmap base n => exact h.initMemmap_broken hlegal hbelow hstep
    | allocPages n => exact absurd trivial hbelow
    | freePages base n => exact h.freePages_broken hlegal hbelow hstep
  . exact ⟨[], hinit.managed⟩
  . exact hlegal

/--
The allocator after `page_init` has reserved the pages of a machine with `npage` pages.
-/
def boot (npage : Nat) (h : npage < 2 ^ 32) : PmmRun where
  pmm := Pmm.defaultInit
    { npage
      npage_lt := h
      pages := fun _ => { ref := 0, flags := setBit pgReserved 0, property := 0 }
      links := { next := id, prev := id }
      nrFree := 0 }
  inited := []
  live := []

theorem boot_initial (npage : Nat) (h : npage < 2 ^ 32) : (boot npage h).Initial where
  reserved := fun _ _ => by
    simp [boot, Pmm.defaultInit, Page.reserved, testBit, setBit, pgReserved]
  notProperty := fun _ _ => by
    simp [boot, Pmm.defaultInit, Page.isProperty, testBit, setBit, pgProperty, pgReserved]
  defaultInit := ⟨_, rfl⟩
  inited := rfl
  live := rfl

theorem always_consistent_iff_boot
    : Run.Admits step Legal (boot 8 (by decide))
        [.initMemmap 0 8, .allocPages 3, .allocPages 2, .freePages 0 3]
      ∧ (Run.Always step Consistent (boot 8 (by decide))
            [.initMemmap 0 8, .allocPages 3, .allocPages 2, .freePages 0 3]
          ↔
        Run.Admits step InsertsBelowLast (boot 8 (by decide))
            [.initMemmap 0 8, .allocPages 3, .allocPages 2, .freePages 0 3]) :=
  have hlegal : Run.Admits step Legal (boot 8 (by decide))
      [.initMemmap 0 8, .allocPages 3, .allocPages 2, .freePages 0 3] := by decide
  ⟨hlegal, always_consistent_iff (boot_initial 8 (by decide)) hlegal⟩

/--
A block freed behind the last free block stays in the list when it is taken out again, and the next
request gets the same pages.
-/
theorem not_always_consistent
    : ¬∀ (c : PmmRun) (calls : List PmmCall), c.Initial → Run.Admits step Legal c calls →
        Run.Always step Consistent c calls := by
  intro h
  have hrun := h (boot 8 (by decide))
    [.initMemmap 0 8, .allocPages 3, .allocPages 5, .freePages 0 3, .freePages 3 5, .allocPages 4,
      .allocPages 4]
    (boot_initial 8 (by decide)) (by decide)
  obtain ⟨c', hexec, _, _, hapart, _⟩ := hrun.exec
  have hlive : (Run.exec step (boot 8 (by decide))
      [.initMemmap 0 8, .allocPages 3, .allocPages 5, .freePages 0 3, .freePages 3 5, .allocPages 4,
        .allocPages 4]).map PmmRun.live = some [(3, 4), (3, 4)] := by decide
  rw [hexec, Option.map_some, Option.some.injEq] at hlive
  rw [hlive] at hapart
  revert hapart
  decide

end PmmRun
end Ucore

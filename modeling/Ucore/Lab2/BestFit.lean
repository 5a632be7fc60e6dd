import Mathlib
import Ucore.Kern.Mm.DefaultPmm.Coalesce

/-!
This module contains `best_fit_alloc_pages` of lab2: kern/mm/best_fit_pmm.c. Its free list and the way it takes
the pages off a block are those of the first fit allocator.
-/

namespace Ucore
namespace Pmm

variable {s : Pmm} {blocks pre post : List (Nat × Nat)} {n : Nat}

/--
The value that `min_property` starts with.
-/
def minPropertyInit : Nat := 1145141919

/--
The loop of `best_fit_alloc_pages` over the whole list, which keeps the smallest block of at least `n` pages.
-/
def bestLoop (s : Pmm) (n : Nat) : Nat → Entry → Option Nat → Nat → Option (Option Nat)
  | 0, _, _, _ => none
  | fuel + 1, le, page, minProperty =>
    match listNext s.links le with
    | .freeList => some page
    | .pageLink p =>
      if n ≤ (s.pages p).property ∧ (s.pages p).property < minProperty then
        bestLoop s n fuel (.pageLink p) (some p) (s.pages p).property
      else
        bestLoop s n fuel (.pageLink p) page minProperty

def bestFitAllocPages (s : Pmm) (n : Nat) : Option (Option Nat × Pmm) :=
  if 0 < n then
    if s.nrFree < n then
      some (none, s)
    else do
      match ← s.bestLoop n s.fuel .freeList none minPropertyInit with
      | some page => return (some page, s.takePages page n)
      | none => return (none, s)
  else
    none

/--
What the scan has kept of the blocks it has seen: nothing if none of them is large enough, otherwise the first one
of those with the least sufficient size.
-/
inductive Best (n : Nat) (blocks : List (Nat × Nat)) : Option (Nat × Nat) → Prop where
  | absent (h : ∀ x ∈ blocks, x.2 < n) : Best n blocks none
  | first {pre post : List (Nat × Nat)} {b : Nat × Nat} (hsplit : blocks = pre ++ b :: post) (hle : n ≤ b.2)
      (hpre : ∀ x ∈ pre, n ≤ x.2 → b.2 < x.2) (hpost : ∀ x ∈ post, n ≤ x.2 → b.2 ≤ x.2)
      : Best n blocks (some b)

/--
The size that the next block has to be below.
-/
def minProperty (best : Option (Nat × Nat)) : Nat := (best.map Prod.snd).getD minPropertyInit

theorem Best.nil (n : Nat) : Best n [] none := .absent (by simp)

/--
One round of the scan that takes the block.
-/
theorem Best.take {best : Option (Nat × Nat)} {b : Nat × Nat} (h : Best n pre best) (hle : n ≤ b.2)
    (hlt : b.2 < minProperty best)
    : Best n (pre ++ [b]) (some b) := by
  refine @Best.first _ _ pre [] b rfl hle ?_ (by simp)
  intro x hx hn
  cases h with
  | absent hsmall =>
    have := hsmall x hx
    omega
  | @first front behind best hsplit hbest hfront hbehind =>
    have hlt : b.2 < best.2 := hlt
    rw [hsplit] at hx
    rcases List.mem_append.mp hx with hx | hx
    . have := hfront x hx hn
      omega
    . rcases List.mem_cons.mp hx with rfl | hx
      . exact hlt
      . have := hbehind x hx hn
        omega

/--
One round that goes past the block.
-/
theorem Best.skip {best : Option (Nat × Nat)} {b : Nat × Nat} (h : Best n pre best) (hb : b.2 < minPropertyInit)
    (hnot : ¬(n ≤ b.2 ∧ b.2 < minProperty best))
    : Best n (pre ++ [b]) best := by
  cases h with
  | absent hsmall =>
    refine .absent ?_
    intro x hx
    rcases List.mem_append.mp hx with hx | hx
    . exact hsmall x hx
    . rw [List.mem_singleton.mp hx]
      have hnot : ¬(n ≤ b.2 ∧ b.2 < minPropertyInit) := hnot
      omega
  | @first front behind best hsplit hbest hfront hbehind =>
    have hnot : ¬(n ≤ b.2 ∧ b.2 < best.2) := hnot
    refine .first (by rw [hsplit, List.append_assoc, List.cons_append]) hbest hfront ?_
    intro x hx hn
    rcases List.mem_append.mp hx with hx | hx
    . exact hbehind x hx hn
    . rw [List.mem_singleton.mp hx] at hn ⊢
      omega

theorem bestLoop_spec (h : s.Represents (pre ++ post)) (hsizes : ∀ x ∈ post, x.2 < minPropertyInit)
    {best : Option (Nat × Nat)} (hbest : Best n pre best) (fuel : Nat) (hfuel : post.length < fuel)
    : ∃ best', Best n (pre ++ post) best' ∧
        s.bestLoop n fuel ((entries pre).getLastD .freeList) (best.map Prod.fst) (minProperty best) =
          some (best'.map Prod.fst) := by
  induction post generalizing pre best fuel with
  | nil =>
    cases fuel with
    | zero => omega
    | succ fuel =>
      refine ⟨best, by simpa using hbest, ?_⟩
      rw [bestLoop, listNext, h.ring_split.next_getLastD]
      simp [entries]
  | cons b post ih =>
    cases fuel with
    | zero => omega
    | succ fuel =>
      have hprop := h.marked.property b (by simp)
      have h' : s.Represents ((pre ++ [b]) ++ post) := by simpa using h
      have hb := hsizes b List.mem_cons_self
      have hsizes' : ∀ x ∈ post, x.2 < minPropertyInit := fun x hx => hsizes x (List.mem_cons_of_mem b hx)
      have hlast : (entries (pre ++ [b])).getLastD .freeList = .pageLink b.1 := by simp [entries]
      have hassoc : pre ++ b :: post = (pre ++ [b]) ++ post := by simp
      rw [bestLoop, listNext, h.ring_split.next_getLastD]
      simp only [entries, List.map_cons, List.headD_cons, hprop]
      rw [hassoc, ← hlast]
      split
      next htake => exact ih h' hsizes' (hbest.take htake.1 htake.2) fuel (by simpa using hfuel)
      next hskip => exact ih h' hsizes' (hbest.skip hb hskip) fuel (by simpa using hfuel)

theorem size_le_sum {x : Nat × Nat} (hx : x ∈ blocks) : x.2 ≤ (blocks.map Prod.snd).sum :=
  List.single_le_sum (by simp) x.2 (List.mem_map_of_mem hx)

/--
The pages are taken off the block that the scan over the whole list ends with.
-/
theorem bestFitAllocPages_spec (h : s.Represents blocks) (hsizes : ∀ x ∈ blocks, x.2 < minPropertyInit)
    (hn : 0 < n)
    : ∃ best, Best n blocks best ∧ s.bestFitAllocPages n =
        some (best.elim (none, s) fun b => (some b.1, s.takePages b.1 n)) := by
  unfold bestFitAllocPages
  rw [if_pos hn]
  split
  next hfree =>
    refine ⟨none, .absent fun x hx => ?_, rfl⟩
    have := size_le_sum hx
    have := h.nrFree
    omega
  . have hlen := h.marked.length_le
    have hfuel : blocks.length < s.fuel := by
      simp only [fuel]
      omega
    obtain ⟨best, hbest, hloop⟩ := @bestLoop_spec s [] blocks n h hsizes none (.nil n) s.fuel hfuel
    have hloop : s.bestLoop n s.fuel .freeList none minPropertyInit = some (best.map Prod.fst) := hloop
    refine ⟨best, hbest, ?_⟩
    rw [hloop]
    cases best <;> rfl

/--
Without a block of at least `n` pages the result is `NULL` and nothing changes. Otherwise the result is the lowest
block of the least sufficient size, and its remainder stands in its place: `WellFormed` says that the links, the
flags, the sizes and `nr_free` are those of the new list.
-/
theorem best_fit_alloc_pages_best (h : s.WellFormed blocks)
    (htotal : (blocks.map Prod.snd).sum < 2 ^ 30) (hn : 1 ≤ n)
    : ∃ page s', s.bestFitAllocPages n = some (page, s') ∧ (page = none ↔ ∀ x ∈ blocks, x.2 < n) ∧
        (page = none → s' = s) ∧
        ∀ b, page = some b → ∃ pre k post, blocks = pre ++ (b, k) :: post ∧ n ≤ k ∧
          (∀ x ∈ blocks, n ≤ x.2 → k < x.2 ∨ k = x.2 ∧ b ≤ x.1) ∧
          s'.WellFormed (pre ++ (remainder b k n ++ post)) ∧ s'.npage = s.npage ∧
            ∀ p, (s'.pages p).reserved = (s.pages p).reserved := by
  have hsizes : ∀ x ∈ blocks, x.2 < minPropertyInit := by
    intro x hx
    have := size_le_sum hx
    simp only [minPropertyInit]
    omega
  obtain ⟨best, hbest, halloc⟩ := bestFitAllocPages_spec h.represents hsizes hn
  cases hbest with
  | absent hsmall => exact ⟨none, s, halloc, by simpa using hsmall, fun _ => rfl, nofun⟩
  | @first pre post b hsplit hle hpre hpost =>
    obtain ⟨b, k⟩ := b
    subst hsplit
    refine ⟨some b, s.takePages b n, halloc, ?_, nofun, ?_⟩
    . refine ⟨nofun, fun hsmall => ?_⟩
      have := hsmall (b, k) (by simp)
      omega
    rintro _ ⟨⟩
    refine ⟨pre, k, post, rfl, hle, ?_, ⟨takePages_represents h.represents hn hle, coalesced_remainder hn h.coalesced⟩,
      takePages_npage, takePages_reserved⟩
    obtain ⟨-, -, hbehind⟩ := sorted_append_cons_iff.mp h.represents.marked.sorted
    intro x hx hxn
    rcases List.mem_append.mp hx with hx | hx
    . exact .inl (hpre x hx hxn)
    rcases List.mem_cons.mp hx with rfl | hx
    . exact .inr ⟨rfl, le_refl _⟩
    . have := hpost x hx hxn
      have := hbehind x hx
      simp only at *
      omega

theorem best_fit_alloc_pages_best_oneFree
    : ∃ page s', (oneFree 5 3).bestFitAllocPages 2 = some (page, s') ∧ (page = none ↔ (3 < 2)) := by
  have hwell : (oneFree 5 3).WellFormed [(5, 3)] := oneFree_wellFormed (by decide) (by decide)
  obtain ⟨page, s', halloc, hnull, -⟩ := best_fit_alloc_pages_best hwell (by decide) (n := 2) (by decide)
  exact ⟨page, s', halloc, hnull.trans (by simp)⟩

end Pmm
end Ucore

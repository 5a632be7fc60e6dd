import Ucore.Kern.Mm.DefaultPmm.Lemmas.Basic

/-!
This module contains the specification of `default_alloc_pages`.
-/

namespace Ucore

open CircularList

namespace Pmm

variable {s : Pmm} {blocks pre post : List (Nat × Nat)} {b k n : Nat}

/--
The search goes through the blocks in front of the first one that is large enough.
-/
theorem findLoop_eq (n : Nat) (h : s.Represents (pre ++ post)) (fuel : Nat)
    (hfuel : post.length < fuel)
    : s.findLoop n fuel ((entries pre).getLastD .freeList)
        =
      some ((post.find? fun b => n ≤ b.2).map Prod.fst) := by
  induction post generalizing pre fuel with
  | nil =>
    cases fuel with
    | zero => omega
    | succ fuel =>
      rw [findLoop, listNext, h.ring_split.next_getLastD]
      simp [entries]
  | cons b post ih =>
    cases fuel with
    | zero => omega
    | succ fuel =>
      have hprop := h.marked.property b (by simp)
      rw [findLoop, listNext, h.ring_split.next_getLastD]
      simp only [entries, List.map_cons, List.headD_cons, hprop, List.find?_cons]
      by_cases hn : n ≤ b.2
      . simp [hn]
      . have h' : s.Represents ((pre ++ [b]) ++ post) := by simpa using h
        have := ih h' fuel (by simpa using hfuel)
        rw [entries_append] at this
        simp only [entries, List.map_cons, List.map_nil] at this
        simp only [hn, ↓reduceIte, decide_false]
        simpa using this

/--
What is left of a block of `k` pages at `b` after its first `n` pages are taken away.
-/
def remainder (b k n : Nat) : List (Nat × Nat) :=
  if n < k then [(b + n, k - n)] else []

theorem takePages_npage : (s.takePages b n).npage = s.npage := by
  simp only [takePages]
  split <;> rfl

theorem takePages_reserved (p : Nat)
    : ((s.takePages b n).pages p).reserved = (s.pages p).reserved := by
  simp only [takePages]
  split <;> simp only [setPage_pages] <;> grind [Page.clearProperty_reserved,
    Page.setProperty_reserved, Page.reserved_with_property]

theorem takePages_blocks (h : s.Represents (pre ++ (b, k) :: post)) (hn : 0 < n)
    : Blocks s.npage (s.takePages b n).pages (pre ++ (remainder b k n ++ post)) := by
  have hbk : (s.pages b).property = k := h.marked.property (b, k) (by simp)
  have hbound := h.marked.bound (b, k) (by simp)
  obtain ⟨-, hpre, hpost⟩ := sorted_append_cons_iff.mp h.marked.sorted
  have hcleared : Blocks s.npage (s.setPage b (s.pages b).clearProperty).pages (pre ++ post) := by
    apply h.marked.erase <;> grind [setPage_pages, Page.clearProperty_property,
      Page.clearProperty_isProperty]
  have hne : ∀ x ∈ pre ++ post, x.1 < b ∨ b + k ≤ x.1 := fun x hx => h.marked.fst_ne hx
  by_cases hlt : n < k
  . simp only [remainder, hlt, ↓reduceIte, List.cons_append, List.nil_append]
    apply hcleared.insert
    . omega
    . simp only at hbound
      omega
    . intro x hx
      have := hpre x hx
      simp only at this
      omega
    . intro x hx
      have := hpost x hx
      simp only at this
      omega
    . intro x hx
      have := hne x hx
      simp [takePages, hbk, hlt, setPage_pages, show x.1 ≠ b by omega, show x.1 ≠ b + n by omega]
    . intro p hp hpn
      simp only [takePages, hbk, hlt, ↓reduceIte, setPage_pages, hpn, show b ≠ b + n by omega]
    . simp [takePages, hbk, hlt, setPage_pages, show n ≠ 0 by omega]
    . simp [takePages, hbk, hlt, setPage_pages, show n ≠ 0 by omega]
  . simpa [remainder, takePages, hbk, hlt, setPage] using hcleared

theorem takePages_ring (h : s.Represents (pre ++ (b, k) :: post)) (hn : 0 < n)
    : IsRing (s.takePages b n).links .freeList (entries (pre ++ (remainder b k n ++ post))) := by
  have hbk : (s.pages b).property = k := h.marked.property (b, k) (by simp)
  have hring := h.ring_split
  rw [entries_cons] at hring
  have hprev := hring.prev_mid
  have hdel := listDel_isRing hring
  by_cases hlt : n < k
  . simp only [takePages, setPage_links, hbk, hlt, ↓reduceIte, listPrev, hprev, remainder,
      List.cons_append, List.nil_append, entries_append, entries_cons]
    apply listAdd_isRing hdel
    rw [← entries_append]
    apply notMem_entries
    intro x hx
    have := h.marked.fst_ne hx
    omega
  . simpa [takePages, hbk, hlt, remainder, entries_append] using hdel

theorem takePages_represents (h : s.Represents (pre ++ (b, k) :: post)) (hn : 0 < n) (hle : n ≤ k)
    : (s.takePages b n).Represents (pre ++ (remainder b k n ++ post)) := by
  refine ⟨takePages_ring h hn, ?_, ?_⟩
  . rw [takePages_npage]
    exact takePages_blocks h hn
  . have hbk : (s.pages b).property = k := h.marked.property (b, k) (by simp)
    have := h.nrFree
    simp only [List.map_append, List.map_cons, List.sum_append, List.sum_cons] at this
    by_cases hlt : n < k
    . simp only [takePages, hbk, hlt, ↓reduceIte, setPage_nrFree, remainder, List.map_append,
        List.map_cons, List.map_nil, List.sum_append, List.sum_cons, List.sum_nil]
      omega
    . simp only [takePages, hbk, hlt, ↓reduceIte, setPage_nrFree, remainder, List.map_append,
        List.map_nil, List.sum_append, List.sum_nil]
      omega

/--
`default_alloc_pages` fails and changes nothing, or it takes the `n` pages from the front of a free
block and leaves the rest of that block free.
-/
theorem defaultAllocPages_spec (h : s.Represents blocks) (hn : 0 < n)
    : s.defaultAllocPages n = some (none, s)
      ∨ ∃ pre b k post, blocks = pre ++ (b, k) :: post ∧ n ≤ k
        ∧ s.defaultAllocPages n = some (some b, s.takePages b n) := by
  unfold defaultAllocPages
  by_cases hfree : s.nrFree < n
  . simp [hn, hfree]
  . have hlen := h.marked.length_le
    have hfind := @findLoop_eq _ [] _ n h s.fuel (by simp only [fuel]; omega)
    simp only [entries, List.map_nil, List.getLastD_nil] at hfind
    cases hfind? : blocks.find? fun b => n ≤ b.2 with
    | none =>
      left
      simp [hn, hfree, hfind, hfind?]
    | some x =>
      right
      obtain ⟨hx, pre, post, hsplit, -⟩ := List.find?_eq_some_iff_append.mp hfind?
      refine ⟨pre, x.1, x.2, post, hsplit, by simpa using hx, ?_⟩
      simp [hn, hfree, hfind, hfind?]

end Pmm
end Ucore

import Mathlib
import Ucore.Kern.Mm.DefaultPmm.Impl

/-!
This module relates the list entries and page flags of the first fit allocator to the list of free
blocks that they stand for.
-/

namespace Ucore

open CircularList

/--
The page `p` lies in one of the blocks, each given by its first page and its length.
-/
def Covers (blocks : List (Nat × Nat)) (p : Nat) : Prop :=
  ∃ b ∈ blocks, b.1 ≤ p ∧ p < b.1 + b.2

@[simp]
theorem covers_nil (p : Nat) : ¬Covers [] p := by
  simp [Covers]

@[simp]
theorem covers_cons (b : Nat × Nat) (blocks : List (Nat × Nat)) (p : Nat)
    : Covers (b :: blocks) p ↔ (b.1 ≤ p ∧ p < b.1 + b.2) ∨ Covers blocks p := by
  simp [Covers]

@[simp]
theorem covers_append (xs ys : List (Nat × Nat)) (p : Nat)
    : Covers (xs ++ ys) p ↔ Covers xs p ∨ Covers ys p := by
  simp [Covers, or_and_right, exists_or]

/--
Blocks in address order without overlap.
-/
def Sorted (blocks : List (Nat × Nat)) : Prop :=
  blocks.Pairwise fun x y => x.1 + x.2 ≤ y.1

/--
Blocks in address order with a gap between any two of them.
-/
def Coalesced (blocks : List (Nat × Nat)) : Prop :=
  blocks.Pairwise fun x y => x.1 + x.2 < y.1

theorem coalesced_append_cons_iff {pre post : List (Nat × Nat)} {b : Nat × Nat}
    : Coalesced (pre ++ b :: post)
        ↔
      Coalesced (pre ++ post) ∧ (∀ x ∈ pre, x.1 + x.2 < b.1) ∧ (∀ x ∈ post, b.1 + b.2 < x.1) := by
  simp only [Coalesced, List.pairwise_append, List.pairwise_cons, List.mem_cons, forall_eq_or_imp]
  grind

theorem sum_le_of_sorted {blocks : List (Nat × Nat)} {lo hi : Nat} (hs : Sorted blocks)
    (hlo : ∀ b ∈ blocks, lo ≤ b.1) (hhi : ∀ b ∈ blocks, b.1 + b.2 ≤ hi) (hle : lo ≤ hi)
    : (blocks.map Prod.snd).sum ≤ hi - lo := by
  induction blocks generalizing lo with
  | nil => simp
  | cons b bs ih =>
    obtain ⟨hb, hbs⟩ := List.pairwise_cons.mp hs
    have hblo := hlo b (by simp)
    have hbhi := hhi b (by simp)
    have := @ih (b.1 + b.2) hbs hb (fun x hx => hhi x (by simp [hx])) hbhi
    simp only [List.map_cons, List.sum_cons]
    omega

theorem sorted_append_cons_iff {pre post : List (Nat × Nat)} {b : Nat × Nat}
    : Sorted (pre ++ b :: post)
        ↔
      Sorted (pre ++ post) ∧ (∀ x ∈ pre, x.1 + x.2 ≤ b.1) ∧ (∀ x ∈ post, b.1 + b.2 ≤ x.1) := by
  simp only [Sorted, List.pairwise_append, List.pairwise_cons, List.mem_cons, forall_eq_or_imp]
  grind

/--
The page descriptors mark exactly the free blocks `blocks`.
-/
structure Blocks (npage : Nat) (pages : Nat → Page) (blocks : List (Nat × Nat)) : Prop where
  property : ∀ b ∈ blocks, (pages b.1).property = b.2
  pos : ∀ b ∈ blocks, 0 < b.2
  sorted : Sorted blocks
  isProperty_iff : ∀ p < npage, (pages p).isProperty = true ↔ ∃ n, (p, n) ∈ blocks
  bound : ∀ b ∈ blocks, b.1 + b.2 ≤ npage

namespace Blocks

variable {npage : Nat} {pages pages' : Nat → Page} {pre post blocks : List (Nat × Nat)} {b k : Nat}

theorem sum_le (h : Blocks npage pages blocks) : (blocks.map Prod.snd).sum ≤ npage := by
  simpa using @sum_le_of_sorted _ 0 _ h.sorted (by simp) h.bound (by simp)

theorem length_le (h : Blocks npage pages blocks) : blocks.length ≤ npage := by
  have hone := List.length_le_sum_of_one_le (blocks.map Prod.snd) (by
    intro i hi
    obtain ⟨b, hb, rfl⟩ := List.mem_map.mp hi
    exact h.pos b hb)
  have := h.sum_le
  rw [List.length_map] at hone
  omega

theorem covers_of_isProperty (h : Blocks npage pages blocks) {p : Nat} (hp : p < npage)
    (hprop : (pages p).isProperty = true)
    : Covers blocks p := by
  obtain ⟨n, hn⟩ := (h.isProperty_iff p hp).mp hprop
  have := h.pos _ hn
  exact ⟨(p, n), hn, by simp, by simpa using this⟩

/--
No block starts inside the block at `b` or ends inside it.
-/
theorem fst_ne (h : Blocks npage pages (pre ++ (b, k) :: post)) {x : Nat × Nat}
    (hx : x ∈ pre ++ post)
    : x.1 < b ∨ b + k ≤ x.1 := by
  obtain ⟨-, hpre, hpost⟩ := sorted_append_cons_iff.mp h.sorted
  cases List.mem_append.mp hx with
  | inl hx =>
    have := hpre x hx
    have := h.pos x (by simp [hx])
    simp only at *
    omega
  | inr hx =>
    have := hpost x hx
    simp only at *
    omega

theorem erase (h : Blocks npage pages (pre ++ (b, k) :: post))
    (hprop : ∀ x ∈ pre ++ post, (pages' x.1).property = (pages x.1).property)
    (hsame : ∀ p < npage, p ≠ b → (pages' p).isProperty = (pages p).isProperty)
    (hb : (pages' b).isProperty = false)
    : Blocks npage pages' (pre ++ post) := by
  have hmem : ∀ x ∈ pre ++ post, x ∈ pre ++ (b, k) :: post := by
    grind
  have hk := h.pos (b, k) (by simp)
  constructor
  . intro x hx
    rw [hprop x hx]
    exact h.property x (hmem x hx)
  . exact fun x hx => h.pos x (hmem x hx)
  . exact (sorted_append_cons_iff.mp h.sorted).1
  . intro p hp
    by_cases hpb : p = b
    . subst hpb
      rw [hb]
      simp only [Bool.false_eq_true, false_iff, not_exists]
      intro n hn
      have := h.fst_ne hn
      simp only at *
      omega
    . rw [hsame p hp hpb, h.isProperty_iff p hp]
      simp [hpb]
  . exact fun x hx => h.bound x (hmem x hx)

theorem insert (h : Blocks npage pages (pre ++ post)) (hk : 0 < k) (hbk : b + k ≤ npage)
    (hpre : ∀ x ∈ pre, x.1 + x.2 ≤ b) (hpost : ∀ x ∈ post, b + k ≤ x.1)
    (hprop : ∀ x ∈ pre ++ post, (pages' x.1).property = (pages x.1).property)
    (hsame : ∀ p < npage, p ≠ b → (pages' p).isProperty = (pages p).isProperty)
    (hb : (pages' b).property = k) (hb' : (pages' b).isProperty = true)
    : Blocks npage pages' (pre ++ (b, k) :: post) := by
  have hcases : ∀ x ∈ pre ++ (b, k) :: post, x = (b, k) ∨ x ∈ pre ++ post := by
    grind
  constructor
  . intro x hx
    cases hcases x hx with
    | inl heq => rw [heq, hb]
    | inr hx => rw [hprop x hx, h.property x hx]
  . intro x hx
    cases hcases x hx with
    | inl heq => rw [heq]; exact hk
    | inr hx => exact h.pos x hx
  . exact sorted_append_cons_iff.mpr ⟨h.sorted, hpre, hpost⟩
  . intro p hp
    by_cases hpb : p = b
    . subst hpb
      simp only [hb', true_iff]
      exact ⟨k, by simp⟩
    . rw [hsame p hp hpb, h.isProperty_iff p hp]
      simp [hpb]
  . intro x hx
    cases hcases x hx with
    | inl heq => rw [heq]; exact hbk
    | inr hx => exact h.bound x hx

end Blocks

namespace Pmm

@[simp]
theorem setPage_links (s : Pmm) (p : Nat) (page : Page) : (s.setPage p page).links = s.links := rfl

@[simp]
theorem setPage_nrFree (s : Pmm) (p : Nat) (page : Page) : (s.setPage p page).nrFree = s.nrFree := rfl

@[simp]
theorem setPage_npage (s : Pmm) (p : Nat) (page : Page) : (s.setPage p page).npage = s.npage := rfl

theorem setPage_pages (s : Pmm) (p q : Nat) (page : Page)
    : (s.setPage p page).pages q = if q = p then page else s.pages q := by
  simp [setPage, Function.update_apply]

/--
The free list entries of a list of blocks.
-/
def entries (blocks : List (Nat × Nat)) : List Entry :=
  blocks.map fun b => .pageLink b.1

theorem entries_append (xs ys : List (Nat × Nat)) : entries (xs ++ ys) = entries xs ++ entries ys := by
  simp [entries]

theorem entries_cons (b : Nat × Nat) (xs : List (Nat × Nat))
    : entries (b :: xs) = .pageLink b.1 :: entries xs := rfl

theorem notMem_entries {blocks : List (Nat × Nat)} {p : Nat} (h : ∀ x ∈ blocks, x.1 ≠ p)
    : Entry.pageLink p ∉ Entry.freeList :: entries blocks := by
  simp only [entries, List.mem_cons, reduceCtorEq, List.mem_map, Entry.pageLink.injEq, false_or,
    not_exists, not_and]
  exact h

structure Represents (s : Pmm) (blocks : List (Nat × Nat)) : Prop where
  ring : IsRing s.links .freeList (entries blocks)
  marked : Blocks s.npage s.pages blocks
  nrFree : s.nrFree = (blocks.map Prod.snd).sum

namespace Represents

variable {s : Pmm} {blocks pre post : List (Nat × Nat)}

theorem ring_split (h : s.Represents (pre ++ post))
    : IsRing s.links .freeList (entries pre ++ entries post) := by
  have := h.ring
  rwa [entries_append] at this

theorem nrFree_le (h : s.Represents blocks) : s.nrFree ≤ s.npage := by
  rw [h.nrFree]
  exact h.marked.sum_le

end Represents

end Pmm
end Ucore

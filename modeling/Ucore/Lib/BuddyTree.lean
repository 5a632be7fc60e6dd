import Mathlib

/-!
This module contains the free blocks of a buddy allocator. The nodes of the complete binary tree are
numbered from one in breadth first order, so the node `d` levels above node `i` is `i / 2 ^ d`, and a
node of height `h` stands for a block of `2 ^ h` leaves.
-/

namespace BuddyTree

/--
The size of the largest free block at or below node `j` of height `h` when the blocks of the nodes
in `used` are taken, `0` if there is none. Two free buddies form one block.
-/
def capacity (used : Finset Nat) : Nat → Nat → Nat
  | 0, j => if j ∈ used then 0 else 1
  | h + 1, j =>
    if j ∈ used then
      0
    else
      let left := capacity used h (2 * j)
      let right := capacity used h (2 * j + 1)
      if left + right = 2 ^ (h + 1) then 2 ^ (h + 1) else max left right

/--
No block is taken at or below node `j` of height `h`.
-/
def Clear (used : Finset Nat) (h j : Nat) : Prop :=
  ∀ d ≤ h, ∀ i, i / 2 ^ d = j → i ∉ used

/--
The block of node `i` is free, and no block is taken on the way from it up to the node `d` levels
above it.
-/
structure FreeBelow (used : Finset Nat) (h d i : Nat) : Prop where
  clear : Clear used h i
  path : ∀ e ≤ d, i / 2 ^ e ∉ used

variable {used used' : Finset Nat} {h j i k d : Nat}

theorem div_succ (i d : Nat) : i / 2 ^ (d + 1) = i / 2 ^ d / 2 := by
  rw [Nat.pow_succ, Nat.div_div_eq_div_mul]

theorem div_succ_eq_iff : i / 2 ^ (d + 1) = j ↔ i / 2 ^ d = 2 * j ∨ i / 2 ^ d = 2 * j + 1 := by
  rw [div_succ]
  omega

theorem capacity_of_mem (hj : j ∈ used) : capacity used h j = 0 := by
  cases h with
  | zero => simp [capacity, hj]
  | succ h => simp [capacity, hj]

theorem capacity_succ (hj : j ∉ used)
    : capacity used (h + 1) j
        =
      if capacity used h (2 * j) + capacity used h (2 * j + 1) = 2 ^ (h + 1) then
        2 ^ (h + 1)
      else
        max (capacity used h (2 * j)) (capacity used h (2 * j + 1)) := by
  simp [capacity, hj]

theorem capacity_le : capacity used h j ≤ 2 ^ h := by
  induction h generalizing j with
  | zero =>
    unfold capacity
    split <;> simp
  | succ h ih =>
    have hleft := @ih (2 * j)
    have hright := @ih (2 * j + 1)
    unfold capacity
    rw [Nat.pow_succ]
    simp only
    split
    . omega
    . split <;> omega

theorem clear_zero_iff : Clear used 0 j ↔ j ∉ used := by
  simp [Clear]

theorem clear_succ_iff
    : Clear used (h + 1) j ↔ j ∉ used ∧ Clear used h (2 * j) ∧ Clear used h (2 * j + 1) := by
  constructor
  . intro hclear
    refine ⟨hclear 0 (by omega) j (by simp), ?_, ?_⟩
    . exact fun d hd i hi => hclear (d + 1) (by omega) i (div_succ_eq_iff.mpr (Or.inl hi))
    . exact fun d hd i hi => hclear (d + 1) (by omega) i (div_succ_eq_iff.mpr (Or.inr hi))
  . intro ⟨hj, hleft, hright⟩ d hd i hi
    cases d with
    | zero =>
      simp only [Nat.pow_zero, Nat.div_one] at hi
      exact hi ▸ hj
    | succ d =>
      cases div_succ_eq_iff.mp hi with
      | inl hi => exact hleft d (by omega) i hi
      | inr hi => exact hright d (by omega) i hi

/--
The capacity is the whole block exactly when nothing in it is taken.
-/
theorem capacity_eq_pow_iff : capacity used h j = 2 ^ h ↔ Clear used h j := by
  induction h generalizing j with
  | zero =>
    unfold capacity
    rw [clear_zero_iff]
    split <;> simp_all
  | succ h ih =>
    have hleft := @capacity_le used h (2 * j)
    have hright := @capacity_le used h (2 * j + 1)
    have hpos := Nat.two_pow_pos h
    rw [clear_succ_iff, ← ih, ← ih]
    by_cases hj : j ∈ used
    . simp only [capacity_of_mem hj, hj, not_true_eq_false, false_and, iff_false, Nat.pow_succ]
      omega
    . rw [capacity_succ hj, Nat.pow_succ]
      simp only [hj, not_false_eq_true, true_and]
      split <;> omega

theorem capacity_congr (hsame : ∀ d ≤ h, ∀ i, i / 2 ^ d = j → (i ∈ used ↔ i ∈ used'))
    : capacity used h j = capacity used' h j := by
  induction h generalizing j with
  | zero =>
    have := hsame 0 (by omega) j (by simp)
    simp [capacity, this]
  | succ h ih =>
    have hj := hsame 0 (by omega) j (by simp)
    have hleft := @ih (2 * j) fun d hd i hi =>
      hsame (d + 1) (by omega) i (div_succ_eq_iff.mpr (Or.inl hi))
    have hright := @ih (2 * j + 1) fun d hd i hi =>
      hsame (d + 1) (by omega) i (div_succ_eq_iff.mpr (Or.inr hi))
    simp only [capacity, hj, hleft, hright]

/--
A node with a taken block below it gets the larger capacity of its children.
-/
theorem capacity_succ_of_not_clear (hj : j ∉ used) (hclear : ¬Clear used (h + 1) j)
    : capacity used (h + 1) j = max (capacity used h (2 * j)) (capacity used h (2 * j + 1)) := by
  rw [capacity_succ hj, if_neg]
  intro hsum
  apply hclear
  rw [← capacity_eq_pow_iff, capacity_succ hj, if_pos hsum]

/--
A node that holds a smaller block has a child that holds it.
-/
theorem le_capacity_child (hk : k ≤ h) (hle : 2 ^ k ≤ capacity used (h + 1) j)
    : 2 ^ k ≤ capacity used h (2 * j) ∨ 2 ^ k ≤ capacity used h (2 * j + 1) := by
  have hpow : 2 ^ k ≤ 2 ^ h := Nat.pow_le_pow_right (by omega) hk
  have hpos := Nat.two_pow_pos k
  unfold capacity at hle
  simp only at hle
  split at hle
  . omega
  . split at hle
    next hsum =>
      rw [Nat.pow_succ] at hsum
      omega
    next => exact le_max_iff.mp hle

/--
The capacity of a node is at least the size of each free block at or below it.
-/
theorem le_capacity (hd : d ≤ h) (hi : i / 2 ^ d = j) (hfree : FreeBelow used (h - d) d i)
    : 2 ^ (h - d) ≤ capacity used h j := by
  induction d generalizing h j with
  | zero =>
    simp only [Nat.pow_zero, Nat.div_one] at hi
    subst hi
    exact (capacity_eq_pow_iff.mpr hfree.clear).ge
  | succ d ih =>
    obtain ⟨h, rfl⟩ := Nat.exists_eq_add_of_le' (Nat.one_le_of_lt hd)
    have hj : j ∉ used := hi ▸ hfree.path (d + 1) (by omega)
    have hfree' : FreeBelow used (h - d) d i := by
      rw [Nat.add_sub_add_right] at hfree
      exact ⟨hfree.clear, fun e he => hfree.path e (by omega)⟩
    have hleft := @capacity_le used h (2 * j)
    have hright := @capacity_le used h (2 * j + 1)
    rw [Nat.add_sub_add_right, capacity_succ hj]
    have hchild : 2 ^ (h - d) ≤ max (capacity used h (2 * j)) (capacity used h (2 * j + 1)) := by
      cases div_succ_eq_iff.mp hi with
      | inl hi => exact le_max_of_le_left (ih (by omega) hi hfree')
      | inr hi => exact le_max_of_le_right (ih (by omega) hi hfree')
    split
    next hsum =>
      rw [Nat.pow_succ]
      omega
    next => exact hchild

/--
A capacity that is not `0` is the size of a free block at or below the node.
-/
theorem exists_freeBelow (hne : capacity used h j ≠ 0)
    : ∃ d ≤ h, ∃ i, i / 2 ^ d = j ∧ FreeBelow used (h - d) d i ∧ capacity used h j = 2 ^ (h - d) := by
  have hj : j ∉ used := fun hj => hne (capacity_of_mem hj)
  by_cases hclear : Clear used h j
  . refine ⟨0, by omega, j, by simp, ⟨hclear, ?_⟩, capacity_eq_pow_iff.mpr hclear⟩
    intro e he
    rw [Nat.le_zero.mp he]
    simpa using hj
  . induction h generalizing j with
    | zero => exact absurd (clear_zero_iff.mpr hj) hclear
    | succ h ih =>
      have hmax := capacity_succ_of_not_clear hj hclear
      have hchild : ∀ c, c / 2 = j → capacity used h c ≠ 0 →
          ∃ d ≤ h, ∃ i, i / 2 ^ d = c ∧ FreeBelow used (h - d) d i
            ∧ capacity used h c = 2 ^ (h - d) := by
        intro c hc hcne
        have hcu : c ∉ used := fun hcu => hcne (capacity_of_mem hcu)
        by_cases hcc : Clear used h c
        . refine ⟨0, by omega, c, by simp, ⟨hcc, ?_⟩, capacity_eq_pow_iff.mpr hcc⟩
          intro e he
          rw [Nat.le_zero.mp he]
          simpa using hcu
        . exact ih hcne hcu hcc
      have hlift : ∀ c, c / 2 = j → capacity used (h + 1) j = capacity used h c →
          capacity used h c ≠ 0 → ∃ d ≤ h + 1, ∃ i, i / 2 ^ d = j
            ∧ FreeBelow used (h + 1 - d) d i ∧ capacity used (h + 1) j = 2 ^ (h + 1 - d) := by
        intro c hc heq hcne
        obtain ⟨d, hd, i, hi, hfree, hcap⟩ := hchild c hc hcne
        have hup : i / 2 ^ (d + 1) = j := by rw [div_succ, hi, hc]
        refine ⟨d + 1, by omega, i, hup, ?_, by rw [Nat.add_sub_add_right, heq, hcap]⟩
        rw [Nat.add_sub_add_right]
        refine ⟨hfree.clear, ?_⟩
        intro e he
        by_cases hed : e ≤ d
        . exact hfree.path e hed
        . rw [show e = d + 1 by omega, hup]
          exact hj
      by_cases hle : capacity used h (2 * j) ≤ capacity used h (2 * j + 1)
      . rw [max_eq_right hle] at hmax
        exact hlift (2 * j + 1) (by omega) hmax (hmax ▸ hne)
      . rw [max_eq_left (by omega)] at hmax
        exact hlift (2 * j) (by omega) hmax (hmax ▸ hne)

/--
No taken block lies in another one.
-/
def Antichain (used : Finset Nat) : Prop :=
  ∀ i ∈ used, ∀ j ∈ used, ∀ d, i / 2 ^ d = j → i = j

theorem div_pow_lt (hi : 0 < i) (hd : 0 < d) : i / 2 ^ d < i :=
  Nat.div_lt_self hi (Nat.one_lt_two_pow (by omega))

/--
The blocks inside a taken one count as free.
-/
theorem Antichain.clear_inside (h : Antichain used) (hi : i ∈ used) (hpos : 0 < i) (hd : 0 < d)
    (hj : j / 2 ^ d = i)
    : Clear used k j := by
  intro e _ x hx hmem
  have habove : x / 2 ^ (e + d) = i := by
    rw [Nat.pow_add, ← Nat.div_div_eq_div_mul, hx, hj]
  have hxi := h x hmem i hi (e + d) habove
  have := @div_pow_lt i (e + d) hpos (by omega)
  rw [hxi] at habove
  omega

theorem level_unique {l l' : Nat} (hle : 2 ^ l ≤ i) (hlt : i < 2 ^ (l + 1)) (hle' : 2 ^ l' ≤ i)
    (hlt' : i < 2 ^ (l' + 1))
    : l = l' := by
  have hup := (Nat.pow_lt_pow_iff_right (by omega)).mp (Nat.lt_of_le_of_lt hle hlt')
  have hdown := (Nat.pow_lt_pow_iff_right (by omega)).mp (Nat.lt_of_le_of_lt hle' hlt)
  omega

section Stored

/--
`cap` has the capacity of every node of a tree of height `m`, apart from the nodes above `a`.
-/
def StoredOff (m : Nat) (used : Finset Nat) (a : Nat) (cap : Nat → Nat) : Prop :=
  ∀ l h j, l + h = m → 2 ^ l ≤ j → j < 2 ^ (l + 1) → (∀ d, 0 < d → a / 2 ^ d ≠ j) →
    cap j = capacity used h j

/--
`cap` has the capacity of every node of a tree of height `m`.
-/
def Stored (m : Nat) (used : Finset Nat) (cap : Nat → Nat) : Prop :=
  ∀ l h j, l + h = m → 2 ^ l ≤ j → j < 2 ^ (l + 1) → cap j = capacity used h j

variable {m l a : Nat} {cap : Nat → Nat}

/--
Nothing is above the root.
-/
theorem StoredOff.stored (h : StoredOff m used 1 cap) : Stored m used cap := by
  intro l k j hlk hle hlt
  apply h l k j hlk hle hlt
  intro d hd heq
  have hone : 1 / 2 ^ d = 0 := Nat.div_eq_of_lt (Nat.one_lt_two_pow (by omega))
  have := Nat.two_pow_pos l
  omega

theorem Stored.insert (h : Stored m used cap)
    : StoredOff m (insert i used) i (Function.update cap i 0) := by
  intro l k j hlk hle hlt hoff
  by_cases hji : j = i
  . subst hji
    rw [Function.update_self, capacity_of_mem (Finset.mem_insert_self j used)]
  . rw [Function.update_of_ne hji, h l k j hlk hle hlt]
    apply capacity_congr
    intro d _ x hx
    have hxi : x ≠ i := by
      intro hxi
      subst hxi
      rcases Nat.eq_zero_or_pos d with rfl | hd
      . simp only [Nat.pow_zero, Nat.div_one] at hx
        exact hji hx.symm
      . exact hoff d hd hx
    rw [Finset.mem_insert, or_iff_right hxi]

theorem Stored.erase (h : Stored m used cap) (hanti : Antichain used) (hi : i ∈ used) (hpos : 0 < i)
    (hlk : l + k = m) (hle : 2 ^ l ≤ i) (hlt : i < 2 ^ (l + 1))
    : StoredOff m (used.erase i) i (Function.update cap i (2 ^ k)) := by
  intro l' k' j hlk' hle' hlt' hoff
  by_cases hji : j = i
  . subst hji
    have hll := level_unique hle' hlt' hle hlt
    obtain rfl : k' = k := by omega
    rw [Function.update_self, eq_comm, capacity_eq_pow_iff]
    intro d _ x hx hmem
    obtain ⟨hne, hmem⟩ := Finset.mem_erase.mp hmem
    exact hne (hanti x hmem j hi d hx)
  . rw [Function.update_of_ne hji, h l' k' j hlk' hle' hlt']
    apply capacity_congr
    intro d _ x hx
    have hxi : x ≠ i := by
      intro hxi
      subst hxi
      rcases Nat.eq_zero_or_pos d with rfl | hd
      . simp only [Nat.pow_zero, Nat.div_one] at hx
        exact hji hx.symm
      . exact hoff d hd hx
    rw [Finset.mem_erase, and_iff_right hxi]

/--
The two children of the node above `a` are not above `a`.
-/
theorem StoredOff.children (h : StoredOff m used a cap) (hlk : l + (k + 1) = m)
    (hle : 2 ^ (l + 1) ≤ a) (hlt : a < 2 ^ (l + 2))
    : cap (2 * (a / 2)) = capacity used k (2 * (a / 2))
        ∧ cap (2 * (a / 2) + 1) = capacity used k (2 * (a / 2) + 1) := by
  have hoff : ∀ c, 2 ^ (l + 1) ≤ c → ∀ d, 0 < d → a / 2 ^ d ≠ c := by
    intro c hc d hd heq
    obtain ⟨d, rfl⟩ := Nat.exists_eq_add_of_le' hd
    have hup : a / 2 ^ (d + 1) ≤ a / 2 := by
      rw [Nat.pow_succ, Nat.mul_comm, ← Nat.div_div_eq_div_mul]
      exact Nat.div_le_self _ _
    rw [heq] at hup
    rw [Nat.pow_succ] at hlt hc
    rw [Nat.pow_succ] at hlt
    omega
  rw [Nat.pow_succ, Nat.pow_succ] at hlt
  rw [Nat.pow_succ] at hle
  have hlevel : ∀ c, 2 * (a / 2) ≤ c → c ≤ 2 * (a / 2) + 1 → cap c = capacity used k c := by
    intro c hc hc'
    apply h (l + 1) k c (by omega) (by rw [Nat.pow_succ]; omega)
      (by rw [Nat.pow_succ, Nat.pow_succ]; omega)
    exact hoff c (by rw [Nat.pow_succ]; omega)
  exact ⟨hlevel _ (by omega) (by omega), hlevel _ (by omega) (by omega)⟩

/--
The climb from `a` to the node above it.
-/
theorem StoredOff.parent (h : StoredOff m used a cap) (hlk : l + k = m) (hle : 2 ^ l ≤ a / 2)
    (hlt : a / 2 < 2 ^ (l + 1))
    : StoredOff m used (a / 2) (Function.update cap (a / 2) (capacity used k (a / 2))) := by
  intro l' k' j hlk' hle' hlt' hoff
  by_cases hja : j = a / 2
  . subst hja
    have hll := level_unique hle' hlt' hle hlt
    obtain rfl : k' = k := by omega
    rw [Function.update_self]
  . rw [Function.update_of_ne hja]
    apply h l' k' j hlk' hle' hlt'
    intro d hd heq
    obtain ⟨d, rfl⟩ := Nat.exists_eq_add_of_le' hd
    rcases Nat.eq_zero_or_pos d with rfl | hd'
    . simp only [Nat.zero_add, Nat.pow_one] at heq
      exact hja heq.symm
    . apply hoff d hd'
      rw [← heq, Nat.pow_succ, Nat.mul_comm, Nat.div_div_eq_div_mul]

end Stored

section Blocks

/--
`x`, a first leaf and a number of leaves, is the block of node `j` of level `l` and height `h`.
-/
structure IsBlock (m : Nat) (x : Nat × Nat) (l h j : Nat) : Prop where
  height : l + h = m
  lower : 2 ^ l ≤ j
  upper : j < 2 ^ (l + 1)
  size : x.2 = 2 ^ h
  first : 2 ^ m + x.1 = j * 2 ^ h

def Within (x y : Nat × Nat) : Prop :=
  y.1 ≤ x.1 ∧ x.1 + x.2 ≤ y.1 + y.2

variable {m l l' h' j' : Nat} {x y : Nat × Nat}

theorem div_pow_eq_iff : i / 2 ^ d = j ↔ j * 2 ^ d ≤ i ∧ i < (j + 1) * 2 ^ d :=
  Nat.div_eq_iff (Nat.two_pow_pos d) |>.trans (by
    rw [Nat.add_mul, Nat.one_mul]
    have := Nat.two_pow_pos d
    omega)

/--
A node `d` levels below one of level `l` is of level `l + d`.
-/
theorem level_of_div (hdiv : i / 2 ^ d = j) (hle : 2 ^ l ≤ j) (hlt : j < 2 ^ (l + 1))
    : 2 ^ (l + d) ≤ i ∧ i < 2 ^ (l + d + 1) := by
  obtain ⟨hlow, hupp⟩ := div_pow_eq_iff.mp hdiv
  have hle := Nat.mul_le_mul_right (2 ^ d) hle
  have hlt := Nat.mul_le_mul_right (2 ^ d) (Nat.succ_le_of_lt hlt)
  rw [← Nat.pow_add] at hle hlt
  rw [show l + 1 + d = l + d + 1 by omega] at hlt
  exact ⟨by omega, Nat.lt_of_lt_of_le hupp hlt⟩

theorem IsBlock.within_iff (hx : IsBlock m x l h i) (hy : IsBlock m y l' h' j)
    : Within x y ↔ h ≤ h' ∧ i / 2 ^ (h' - h) = j := by
  have hfx := hx.first
  have hfy := hy.first
  have hpos := Nat.two_pow_pos h
  unfold Within
  rw [hx.size, hy.size]
  constructor
  . intro ⟨hle, hend⟩
    have hsize : 2 ^ h ≤ 2 ^ h' := by omega
    have hhh := (Nat.pow_le_pow_iff_right (by omega)).mp hsize
    refine ⟨hhh, ?_⟩
    obtain ⟨e, rfl⟩ := Nat.exists_eq_add_of_le' hhh
    rw [Nat.pow_add, ← Nat.mul_assoc] at hfy
    rw [Nat.pow_add] at hend
    rw [Nat.add_sub_cancel, div_pow_eq_iff]
    constructor
    . apply Nat.le_of_mul_le_mul_right _ hpos
      omega
    . apply Nat.lt_of_mul_lt_mul_right (a := 2 ^ h)
      rw [Nat.add_mul, Nat.one_mul, Nat.add_mul]
      omega
  . intro ⟨hhh, hdiv⟩
    obtain ⟨e, rfl⟩ := Nat.exists_eq_add_of_le' hhh
    rw [Nat.add_sub_cancel, div_pow_eq_iff] at hdiv
    obtain ⟨hle, hlt⟩ := hdiv
    have hle := Nat.mul_le_mul_right (2 ^ h) hle
    have hlt := Nat.mul_le_mul_right (2 ^ h) (Nat.succ_le_of_lt hlt)
    rw [Nat.succ_mul, Nat.add_mul, Nat.one_mul, Nat.add_mul] at hlt
    rw [Nat.pow_add] at hfy ⊢
    rw [← Nat.mul_assoc] at hfy
    omega

/--
Two blocks are apart or one is within the other.
-/
theorem IsBlock.apart_of_not_within (hx : IsBlock m x l h i) (hy : IsBlock m y l' h' j)
    (hhh : h ≤ h') (hnot : ¬Within x y)
    : x.1 + x.2 ≤ y.1 ∨ y.1 + y.2 ≤ x.1 := by
  have hfx := hx.first
  have hfy := hy.first
  rw [hx.within_iff hy, not_and] at hnot
  have hnot := hnot hhh
  obtain ⟨e, rfl⟩ := Nat.exists_eq_add_of_le' hhh
  rw [Nat.add_sub_cancel, div_pow_eq_iff, not_and_or] at hnot
  rw [hx.size, hy.size]
  rw [Nat.pow_add, ← Nat.mul_assoc] at hfy
  rw [Nat.pow_add]
  cases hnot with
  | inl hlt =>
    have hlt := Nat.mul_le_mul_right (2 ^ h) (Nat.succ_le_of_lt (Nat.lt_of_not_le hlt))
    rw [Nat.succ_mul] at hlt
    omega
  | inr hle =>
    have hle := Nat.mul_le_mul_right (2 ^ h) (Nat.le_of_not_lt hle)
    rw [Nat.add_mul, Nat.one_mul, Nat.add_mul] at hle
    omega

theorem IsBlock.apart_iff (hx : IsBlock m x l h i) (hy : IsBlock m y l' h' j)
    : x.1 + x.2 ≤ y.1 ∨ y.1 + y.2 ≤ x.1 ↔ ¬Within x y ∧ ¬Within y x := by
  have hxs := hx.size
  have hys := hy.size
  have := Nat.two_pow_pos h
  have := Nat.two_pow_pos h'
  constructor
  . intro hapart
    unfold Within
    omega
  . intro ⟨hxy, hyx⟩
    cases Nat.le_total h h' with
    | inl hhh => exact hx.apart_of_not_within hy hhh hxy
    | inr hhh => exact (hy.apart_of_not_within hx hhh hyx).symm

/--
A block given by its first leaf, which its size divides.
-/
theorem exists_isBlock (hh : h ≤ m) {o : Nat} (hdvd : 2 ^ h ∣ o) (hle : o + 2 ^ h ≤ 2 ^ m)
    : ∃ l j, IsBlock m (o, 2 ^ h) l h j := by
  obtain ⟨l, rfl⟩ := Nat.exists_eq_add_of_le' hh
  obtain ⟨q, rfl⟩ := hdvd
  have hq : q < 2 ^ l := by
    apply Nat.lt_of_mul_lt_mul_right (a := 2 ^ h)
    rw [← Nat.pow_add, Nat.mul_comm]
    have := Nat.two_pow_pos h
    omega
  refine ⟨l, 2 ^ l + q, rfl, by omega, by rw [Nat.pow_succ]; omega, rfl, ?_⟩
  rw [Nat.add_mul, ← Nat.pow_add, Nat.mul_comm q]

theorem IsBlock.le (hx : IsBlock m x l h i) : x.1 + x.2 ≤ 2 ^ m := by
  have hfirst := hx.first
  have hupper := Nat.mul_le_mul_right (2 ^ h) (Nat.succ_le_of_lt hx.upper)
  rw [Nat.succ_mul, ← Nat.pow_add, show l + 1 + h = m + 1 by have := hx.height; omega, Nat.pow_succ]
    at hupper
  rw [hx.size]
  omega

theorem IsBlock.dvd (hx : IsBlock m x l h i) : x.2 ∣ x.1 := by
  have hfirst := hx.first
  have hheight := hx.height
  have hx1 : x.1 = i * 2 ^ h - 2 ^ m := by omega
  rw [hx1, hx.size]
  apply Nat.dvd_sub (Nat.dvd_mul_left (2 ^ h) i)
  exact Nat.pow_dvd_pow 2 (by omega)

/--
The node of a block is determined by the block.
-/
theorem IsBlock.node_eq (hx : IsBlock m x l h i) : (2 ^ m + x.1) / x.2 = i := by
  rw [hx.first, hx.size]
  exact Nat.mul_div_cancel i (Nat.two_pow_pos h)

/--
Blocks that are apart from each other hold together no more leaves than there are.
-/
theorem sum_le_of_apart {blocks : List (Nat × Nat)} {k : Nat}
    (hapart : blocks.Pairwise fun x y => x.1 + x.2 ≤ y.1 ∨ y.1 + y.2 ≤ x.1)
    (hle : ∀ x ∈ blocks, x.1 + x.2 ≤ k)
    : (blocks.map Prod.snd).sum ≤ k := by
  have hcard : ∃ leaves : Finset Nat,
      (∀ p, p ∈ leaves ↔ ∃ x ∈ blocks, x.1 ≤ p ∧ p < x.1 + x.2)
        ∧ leaves.card = (blocks.map Prod.snd).sum := by
    clear hle
    induction blocks with
    | nil => exact ⟨∅, by simp, rfl⟩
    | cons b bs ih =>
      obtain ⟨hb, hbs⟩ := List.pairwise_cons.mp hapart
      obtain ⟨leaves, hmem, hcard⟩ := ih hbs
      have hdisjoint : Disjoint (Finset.Ico b.1 (b.1 + b.2)) leaves := by
        rw [Finset.disjoint_left]
        intro p hp hp'
        rw [Finset.mem_Ico] at hp
        obtain ⟨x, hx, hxp⟩ := (hmem p).mp hp'
        have := hb x hx
        omega
      refine ⟨Finset.Ico b.1 (b.1 + b.2) ∪ leaves, ?_, ?_⟩
      . intro p
        simp only [Finset.mem_union, Finset.mem_Ico, hmem, List.mem_cons, exists_eq_or_imp]
      . rw [Finset.card_union_of_disjoint hdisjoint, Nat.card_Ico, hcard, List.map_cons, List.sum_cons]
        omega
  obtain ⟨leaves, hmem, hcard⟩ := hcard
  have hsub : leaves ⊆ Finset.range k := by
    intro p hp
    obtain ⟨x, hx, hxp⟩ := (hmem p).mp hp
    have := hle x hx
    exact Finset.mem_range.mpr (by omega)
  have := Finset.card_le_card hsub
  rw [Finset.card_range] at this
  omega

end Blocks

end BuddyTree

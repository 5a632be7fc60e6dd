import Mathlib
import Ucore.Lab2.Buddy.Lemmas

/-!
This module contains the numbers of the nodes of the buddy allocator of lab2: how they relate to the depth of a node,
to the pages below it, and to the way up from a page.
-/

namespace Ucore
namespace Buddy

/--
The numbers of the nodes that are so far below the root.
-/
inductive AtDepth : Nat → Nat → Prop
  | root : AtDepth 0 0
  | left {index d : Nat} (h : AtDepth index d) : AtDepth (leftChild index) (d + 1)
  | right {index d : Nat} (h : AtDepth index d) : AtDepth (rightChild index) (d + 1)

/--
The offset that `buddy_alloc_pages` computes for a node.
-/
def nodeOffset (totalSize index : Nat) : Option Nat := do
  let nLayerPow := doubled (← layer index)
  return totalSize / nLayerPow * (index + 1 - nLayerPow)

variable {index offset d k n : Nat} {s s' : Buddy}

/--
The offset that a request gets is that of the node it leads to.
-/
theorem nodeOffset_of_buddyAllocPages (halloc : s.buddyAllocPages n = some (offset, s')) (hfit : n ≤ s.nodeCapacity 0)
    : ∃ index, descend s.nodeCapacity (convert2PowOf2 n) fuel s.totalSize 0 = some index ∧
        nodeOffset s.totalSize index = some offset := by
  have hroot : readNode s.nodeCapacity 0 = some (s.nodeCapacity 0) := if_pos (by decide)
  unfold buddyAllocPages at halloc
  split at halloc
  . simp only [hroot, Option.bind_eq_bind, Option.bind_some, if_neg (Nat.not_lt.mpr hfit)] at halloc
    obtain ⟨index, hdescend, halloc⟩ := Option.bind_eq_some_iff.mp halloc
    obtain ⟨caps, -, halloc⟩ := Option.bind_eq_some_iff.mp halloc
    obtain ⟨l, hlayer, halloc⟩ := Option.bind_eq_some_iff.mp halloc
    obtain ⟨caps', -, halloc⟩ := Option.bind_eq_some_iff.mp halloc
    refine ⟨index, hdescend, ?_⟩
    rw [nodeOffset, hlayer]
    exact congrArg (Option.map Prod.fst) halloc
  . exact nomatch halloc


theorem AtDepth.bounds (h : AtDepth index d) : 2 ^ d ≤ index + 1 ∧ index + 1 < 2 ^ (d + 1) := by
  induction h with
  | root => decide
  | left _ ih =>
    simp only [leftChild, Nat.pow_succ] at ih ⊢
    omega
  | right _ ih =>
    simp only [rightChild, Nat.pow_succ] at ih ⊢
    omega

theorem leftChild_iterate (index e : Nat) : leftChild^[e] index + 1 = (index + 1) * 2 ^ e := by
  induction e with
  | zero => simp
  | succ e ih =>
    rw [Function.iterate_succ_apply', leftChild, Nat.pow_succ, ← Nat.mul_assoc, ← ih]
    omega

/--
`e` steps up from a node whose number, counted from one, has at least `e` bits after the first.
-/
theorem parent_iterate {a e : Nat} (hlow : 2 ^ e ≤ a) (hlt : a < 2 ^ 32) : parent^[e] (a - 1) = a / 2 ^ e - 1 := by
  induction e with
  | zero => simp
  | succ e ih =>
    rw [Nat.pow_succ] at hlow
    have hpos := Nat.two_pow_pos e
    have hhalf : 2 ≤ a / 2 ^ e := (Nat.le_div_iff_mul_le hpos).mpr (by omega)
    have hle := Nat.div_le_self a (2 ^ e)
    rw [Function.iterate_succ_apply', ih (by omega), parent_eq hhalf (by omega), Nat.div_div_eq_div_mul, ← Nat.pow_succ]

theorem AtDepth.layer_eq (h : AtDepth index d) (hd : d ≤ 31) : layer index = some d :=
  Buddy.layer_eq h.bounds.1 h.bounds.2 hd

/--
The pages below a node are those of its number on its layer.
-/
theorem AtDepth.nodeOffset_eq (h : AtDepth index d) (hd : d ≤ k) (hk : k ≤ 31)
    : nodeOffset (2 ^ k) index = some ((index + 1) * 2 ^ (k - d) - 2 ^ k) := by
  have hsplit : 2 ^ k = 2 ^ (k - d) * 2 ^ d := by
    rw [← Nat.pow_add, Nat.sub_add_cancel hd]
  have hdiv : 2 ^ k / 2 ^ d = 2 ^ (k - d) := Nat.pow_div hd (by omega)
  simp only [nodeOffset, h.layer_eq (by omega), Option.bind_eq_bind, Option.bind_some, doubled_eq (by omega : d < 32)]
  rw [hdiv, Nat.mul_sub, ← hsplit, Nat.mul_comm]
  rfl

/--
The sizes to which requests are rounded.
-/
def PowerFor (n p : Nat) : Prop := (∃ j, p = 2 ^ j) ∧ n ≤ p

theorem convert2PowOf2_isLeast (hpos : 1 ≤ n) (hle : n ≤ 2 ^ 31)
    : IsLeast { p | PowerFor n p } (convert2PowOf2 n) := by
  obtain ⟨q, hq, hn, hlt⟩ := convert2PowOf2_spec hpos hle
  refine ⟨⟨⟨q, hq⟩, hq ▸ hn⟩, ?_⟩
  rintro p ⟨⟨j, rfl⟩, hj⟩
  have hqj : 2 ^ q < 2 ^ (j + 1) := by
    rw [Nat.pow_succ]
    omega
  have hqj := (Nat.pow_lt_pow_iff_right (by omega)).mp hqj
  rw [hq]
  exact Nat.pow_le_pow_right (by omega) (by omega)

theorem convert2PowOf2_eq_self_iff (hpos : 1 ≤ n) (hle : n ≤ 2 ^ 31) : convert2PowOf2 n = n ↔ ∃ j, n = 2 ^ j := by
  have hleast := convert2PowOf2_isLeast hpos hle
  constructor
  . intro heq
    rw [← heq]
    exact hleast.1.1
  . intro hpow
    exact Nat.le_antisymm (hleast.2 ⟨hpow, Nat.le_refl n⟩) hleast.1.2

/--
What the numbers of the nodes of a tree of `2 ^ k` pages have to do with each other: the layer of a node is its depth,
its offset is the number of the leftmost page below it, and `k - d` steps up from this page lead to it.
-/
structure NodeLaw (k index d : Nat) : Prop where
  layer : layer index = some d
  offset : ∃ offset, nodeOffset (2 ^ k) index = some offset ∧ offset < 2 ^ k ∧
    leftChild^[k - d] index = offset + 2 ^ k - 1 ∧ AtDepth (leftChild^[k - d] index) k ∧
    ∀ e ≤ k, parent^[e] ((offset + 2 ^ k + 2 ^ 32 - 1) % 2 ^ 32) = index ↔ e = k - d

theorem AtDepth.leftChild_iterate (h : AtDepth index d) (e : Nat) : AtDepth (leftChild^[e] index) (d + e) := by
  induction e with
  | zero => exact h
  | succ e ih =>
    rw [Function.iterate_succ_apply']
    exact ih.left

theorem AtDepth.nodeLaw (h : AtDepth index d) (hd : d ≤ k) (hk : k ≤ 31) : NodeLaw k index d := by
  obtain ⟨hlow, hhigh⟩ := h.bounds
  have hpos := Nat.two_pow_pos (k - d)
  have hsmall : 2 ^ k ≤ 2 ^ 31 := Nat.pow_le_pow_right (by omega) hk
  have hfirst : 2 ^ k ≤ (index + 1) * 2 ^ (k - d) := by
    calc
      2 ^ k = 2 ^ d * 2 ^ (k - d) := by rw [← Nat.pow_add, Nat.add_sub_cancel' hd]
      _ ≤ (index + 1) * 2 ^ (k - d) := Nat.mul_le_mul_right _ hlow
  have hlast : (index + 1) * 2 ^ (k - d) < 2 ^ k * 2 := by
    calc
      (index + 1) * 2 ^ (k - d) < 2 ^ (d + 1) * 2 ^ (k - d) := Nat.mul_lt_mul_of_pos_right hhigh hpos
      _ = 2 ^ k * 2 := by rw [← Nat.pow_add, ← Nat.pow_succ, show d + 1 + (k - d) = k + 1 by omega]
  refine ⟨h.layer_eq (by omega), _, h.nodeOffset_eq hd hk, by omega, ?_, ?_, ?_⟩
  . have hleft := Buddy.leftChild_iterate index (k - d)
    omega
  . have hdepth := h.leftChild_iterate (k - d)
    rwa [Nat.add_sub_cancel' hd] at hdepth
  . intro e he
    have hstart : ((index + 1) * 2 ^ (k - d) - 2 ^ k + 2 ^ k + 2 ^ 32 - 1) % 2 ^ 32 =
        (index + 1) * 2 ^ (k - d) - 1 := by
      omega
    have hpow : 2 ^ e ≤ 2 ^ k := Nat.pow_le_pow_right (by omega) he
    rw [hstart, parent_iterate (by omega) (by omega)]
    constructor
    . intro heq
      have hup : (index + 1) * 2 ^ (k - d) / 2 ^ e = index + 1 := by
        have : 0 < (index + 1) * 2 ^ (k - d) / 2 ^ e := Nat.div_pos (by omega) (Nat.two_pow_pos e)
        omega
      have hle := Nat.div_mul_le_self ((index + 1) * 2 ^ (k - d)) (2 ^ e)
      have hlt := Nat.lt_mul_div_succ ((index + 1) * 2 ^ (k - d)) (Nat.two_pow_pos e)
      rw [hup] at hle hlt
      have hek : 2 ^ e ≤ 2 ^ (k - d) := Nat.le_of_mul_le_mul_left hle (Nat.succ_pos index)
      have hke : 2 ^ (k - d) < 2 ^ (e + 1) := by
        have hdouble : 2 ^ e * (index + 1 + 1) ≤ (index + 1) * 2 ^ (e + 1) := by
          rw [Nat.pow_succ, Nat.mul_comm (2 ^ e), ← Nat.mul_assoc, Nat.mul_right_comm]
          exact Nat.mul_le_mul_right _ (by omega)
        exact Nat.lt_of_mul_lt_mul_left (Nat.lt_of_lt_of_le hlt hdouble)
      have hek := (Nat.pow_le_pow_iff_right (by omega)).mp hek
      have hke := (Nat.pow_lt_pow_iff_right (by omega)).mp hke
      omega
    . rintro rfl
      rw [Nat.mul_div_cancel _ hpos, Nat.add_sub_cancel]

/--
The arithmetic of the buddy allocator: sizes, numbers of nodes, and the offsets it hands out.
-/
theorem index_arithmetic
    : (∀ n, 1 ≤ n → n ≤ 2 ^ 31 →
        IsLeast { p | PowerFor n p } (convert2PowOf2 n) ∧ (convert2PowOf2 n = n ↔ ∃ j, n = 2 ^ j)) ∧
      (∀ k index d, k ≤ 31 → AtDepth index d → d ≤ k → NodeLaw k index d) ∧
      ∀ (s s' : Buddy) n offset, s.buddyAllocPages n = some (offset, s') → n ≤ s.nodeCapacity 0 →
        ∃ index, descend s.nodeCapacity (convert2PowOf2 n) fuel s.totalSize 0 = some index ∧
          nodeOffset s.totalSize index = some offset :=
  ⟨fun _ hpos hle => ⟨convert2PowOf2_isLeast hpos hle, convert2PowOf2_eq_self_iff hpos hle⟩,
    fun _ _ _ hk h hd => h.nodeLaw hd hk,
    fun _ _ _ _ => nodeOffset_of_buddyAllocPages⟩

theorem index_arithmetic_five
    : IsLeast { p | PowerFor 9 p } (convert2PowOf2 9) ∧ NodeLaw 3 5 2 :=
  ⟨(index_arithmetic.1 9 (by decide) (by decide)).1,
    index_arithmetic.2.1 3 5 2 (by decide) (AtDepth.left (AtDepth.right AtDepth.root)) (by decide)⟩

end Buddy
end Ucore

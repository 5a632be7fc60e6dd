import Ucore.Lab2.Buddy.Impl
import Ucore.Lib.BuddyTree

/-!
This module contains what each loop of the buddy allocator computes: the rounding of a request, the
layer of a node, the way down to a free node, and the ways up that restore the capacities.
-/

namespace Ucore
namespace Buddy

open BuddyTree

section Numbers

variable {size n index l : Nat}

theorem bitCount_spec (fuel : Nat) (hlt : size < 2 ^ fuel)
    : size < 2 ^ bitCount fuel size ∧ (0 < size → 2 ^ bitCount fuel size ≤ 2 * size) := by
  induction fuel generalizing size with
  | zero =>
    simp only [Nat.pow_zero] at hlt
    simp only [bitCount, Nat.pow_zero]
    omega
  | succ fuel ih =>
    unfold bitCount
    split
    next hzero => simp [hzero]
    next hne =>
      rw [Nat.pow_succ] at hlt ⊢
      obtain ⟨hupper, hlower⟩ := @ih (size / 2) (by omega)
      by_cases hhalf : 0 < size / 2
      . have := hlower hhalf
        omega
      . have hzero : bitCount fuel (size / 2) = 0 := by
          rw [show size / 2 = 0 by omega]
          cases fuel <;> rfl
        rw [hzero]
        omega

theorem doubled_eq (hn : n < 32) : doubled n = 2 ^ n := by
  induction n with
  | zero => rfl
  | succ n ih =>
    have hlt : 2 ^ (n + 1) < 2 ^ 32 := Nat.pow_lt_pow_right (by omega) hn
    rw [doubled, ih (by omega), ← Nat.pow_succ]
    exact Nat.mod_eq_of_lt hlt

/--
A size is rounded to the next power of two.
-/
theorem convert2PowOf2_spec (hpos : 0 < size) (hle : size ≤ 2 ^ 31)
    : ∃ k, convert2PowOf2 size = 2 ^ k ∧ size ≤ 2 ^ k ∧ 2 ^ k < 2 * size := by
  obtain ⟨hupper, hlower⟩ := bitCount_spec fuel (show size < 2 ^ fuel by unfold fuel; omega)
  have hlower := hlower hpos
  have hne : bitCount fuel size ≠ 0 := by
    intro hzero
    rw [hzero] at hupper
    omega
  obtain ⟨b, hb⟩ := Nat.exists_eq_succ_of_ne_zero hne
  rw [hb, Nat.succ_eq_add_one, Nat.pow_succ] at hupper hlower
  have hb31 : b ≤ 31 := by
    by_contra hb31
    have : 2 ^ 32 ≤ 2 ^ b := Nat.pow_le_pow_right (by omega) (by omega)
    omega
  have hdoubled : doubled ((bitCount fuel size + 2 ^ 32 - 1) % 2 ^ 32) = 2 ^ b := by
    rw [hb, show (b.succ + 2 ^ 32 - 1) % 2 ^ 32 = b by omega]
    exact doubled_eq (by omega)
  simp only [convert2PowOf2, hdoubled]
  split
  next hsize =>
    refine ⟨b + 1, ?_, by rw [Nat.pow_succ]; omega, by rw [Nat.pow_succ]; omega⟩
    rw [Nat.pow_succ]
    exact Nat.mod_eq_of_lt (by omega)
  next hsize => exact ⟨b, rfl, by omega, by omega⟩

theorem convert2PowOf2_eq {k : Nat} (hk : k ≤ 31) (hle : size ≤ 2 ^ k) (hlt : 2 ^ k < 2 * size)
    : convert2PowOf2 size = 2 ^ k := by
  have hpow : 2 ^ k ≤ 2 ^ 31 := Nat.pow_le_pow_right (by omega) hk
  obtain ⟨q, heq, hleq, hltq⟩ := @convert2PowOf2_spec size (by omega) (by omega)
  have hqk : 2 ^ q < 2 ^ (k + 1) := by
    rw [Nat.pow_succ]
    omega
  have hkq : 2 ^ k < 2 ^ (q + 1) := by
    rw [Nat.pow_succ]
    omega
  have hqk := (Nat.pow_lt_pow_iff_right (by omega)).mp hqk
  have hkq := (Nat.pow_lt_pow_iff_right (by omega)).mp hkq
  rw [heq, show q = k by omega]

/--
Behind the last power of two the loop sees `0`, the number before which is the largest one.
-/
theorem layerLoop_eq (hle : 2 ^ l ≤ index + 1) (hlt : index + 1 < 2 ^ (l + 1)) (hl : l ≤ 31)
    : ∀ (fuel t : Nat), t ≤ l + 1 → l + 1 - t < fuel → layerLoop fuel index (2 ^ t % 2 ^ 32) t = some l := by
  have hindex : index + 1 < 2 ^ 32 := Nat.lt_of_lt_of_le hlt (Nat.pow_le_pow_right (by omega) (by omega))
  intro fuel
  induction fuel with
  | zero => intro t ht hfuel; omega
  | succ fuel ih =>
    intro t ht hfuel
    unfold layerLoop
    by_cases hlast : t ≤ l
    . have hpow : 2 ^ t ≤ 2 ^ l := Nat.pow_le_pow_right (by omega) hlast
      have hpos := Nat.two_pow_pos t
      have hmod : 2 ^ t % 2 ^ 32 * 2 % 2 ^ 32 = 2 ^ (t + 1) % 2 ^ 32 := by
        have hdouble : 2 ^ (t + 1) = 2 ^ t * 2 := Nat.pow_succ 2 t
        omega
      rw [if_pos (by omega), hmod]
      exact ih (t + 1) (by omega) (by omega)
    . obtain rfl : t = l + 1 := by omega
      have hstop : index < (2 ^ (l + 1) % 2 ^ 32 + 2 ^ 32 - 1) % 2 ^ 32 := by
        by_cases htop : l = 31
        . subst htop
          omega
        . have hsmall : 2 ^ (l + 1) < 2 ^ 32 := Nat.pow_lt_pow_right (by omega) (by omega)
          omega
      rw [if_neg (Nat.not_le.mpr hstop), Nat.add_sub_cancel]

theorem layer_eq (hle : 2 ^ l ≤ index + 1) (hlt : index + 1 < 2 ^ (l + 1)) (hl : l ≤ 31)
    : layer index = some l :=
  layerLoop_eq hle hlt hl fuel 0 (by omega) (by unfold fuel; omega)

end Numbers

/--
The capacities by the number of the node, counted from one.
-/
def nodeAt (caps : Nat → Nat) (j : Nat) : Nat := caps (j - 1)

section Array

variable {caps : Nat → Nat} {used : Finset Nat} {m l h j a k v : Nat}

theorem leftChild_eq (hj : 0 < j) : leftChild (j - 1) = 2 * j - 1 := by
  unfold leftChild
  omega

theorem rightChild_eq (hj : 0 < j) : rightChild (j - 1) = 2 * j + 1 - 1 := by
  unfold rightChild
  omega

theorem parent_eq (ha : 2 ≤ a) (hlt : a < 2 ^ 32) : parent (a - 1) = a / 2 - 1 := by
  unfold parent
  omega

theorem storedOff_update (ha : 0 < a)
    (hstored : StoredOff m used k (Function.update (nodeAt caps) a v))
    : StoredOff m used k (nodeAt (Function.update caps (a - 1) v)) := by
  intro l h j hlh hle hlt hoff
  rw [← hstored l h j hlh hle hlt hoff]
  have := Nat.two_pow_pos l
  by_cases hja : j = a
  . simp [nodeAt, hja]
  . rw [Function.update_of_ne hja, nodeAt, Function.update_of_ne (by omega), nodeAt]

theorem lt_nodes (hm : 2 ^ (m + 1) ≤ nodes) (hl : l ≤ m) (hlt : j < 2 ^ (l + 1)) : j - 1 < nodes := by
  have hpow : 2 ^ (l + 1) ≤ 2 ^ (m + 1) := Nat.pow_le_pow_right (by omega) (by omega)
  omega

theorem nodes_of_le (hm : 2 * 2 ^ m - 1 ≤ nodes) : 2 ^ (m + 1) ≤ nodes := by
  unfold nodes at hm ⊢
  rw [Nat.pow_succ]
  omega

theorem height_lt (hm : 2 ^ (m + 1) ≤ nodes) : m < 10 := by
  have hlt : 2 ^ m < 2 ^ 10 := by
    unfold nodes at hm
    rw [Nat.pow_succ] at hm
    omega
  exact (Nat.pow_lt_pow_iff_right (by omega)).mp hlt

/--
From a node that holds `2 ^ k` free pages the loop gets to a free node of this size below it.
-/
theorem descend_spec (hm : 2 ^ (m + 1) ≤ nodes) (hstored : Stored m used (nodeAt caps))
    : ∀ (h l j fuel : Nat), l + h = m → 2 ^ l ≤ j → j < 2 ^ (l + 1) → k ≤ h →
        2 ^ k ≤ capacity used h j → h - k < fuel →
        ∃ i, descend caps (2 ^ k) fuel (2 ^ h) (j - 1) = some (i - 1) ∧ i / 2 ^ (h - k) = j
          ∧ FreeBelow used k (h - k) i := by
  intro h
  induction h with
  | zero =>
    intro l j fuel hlh hle hlt hk hcap hfuel
    obtain ⟨fuel, rfl⟩ := Nat.exists_eq_add_of_le' (Nat.one_le_of_lt hfuel)
    obtain rfl : k = 0 := by omega
    have hclear : Clear used 0 j := capacity_eq_pow_iff.mp (Nat.le_antisymm capacity_le hcap)
    refine ⟨j, by simp [descend], by simp, hclear, ?_⟩
    intro e he
    obtain rfl : e = 0 := by omega
    simpa using clear_zero_iff.mp hclear
  | succ h ih =>
    intro l j fuel hlh hle hlt hk hcap hfuel
    obtain ⟨fuel, rfl⟩ := Nat.exists_eq_add_of_le' (Nat.one_le_of_lt hfuel)
    have hpos := Nat.two_pow_pos l
    have hju : j ∉ used := by
      intro hju
      rw [capacity_of_mem hju] at hcap
      have := Nat.two_pow_pos k
      omega
    by_cases hkh : k = h + 1
    . subst hkh
      have hclear : Clear used (h + 1) j :=
        capacity_eq_pow_iff.mp (Nat.le_antisymm capacity_le hcap)
      refine ⟨j, by simp [descend], by simp, hclear, ?_⟩
      intro e he
      obtain rfl : e = 0 := by omega
      simpa using hju
    . have hne : 2 ^ (h + 1) ≠ 2 ^ k := by
        intro heq
        exact hkh (Nat.pow_right_injective (Nat.le_refl 2) heq).symm
      have hhalf : 2 ^ (h + 1) / 2 = 2 ^ h := by
        rw [Nat.pow_succ]
        omega
      have hlevel : 2 ^ (l + 1) = 2 * 2 ^ l := Nat.pow_succ'
      have hlevel' : 2 ^ (l + 1 + 1) = 2 * 2 ^ (l + 1) := Nat.pow_succ'
      have hleft : readNode caps (leftChild (j - 1)) = some (capacity used h (2 * j)) := by
        rw [leftChild_eq (by omega), readNode,
          if_pos (lt_nodes hm (l := l + 1) (by omega) (by omega)), Option.some_inj]
        exact hstored (l + 1) h (2 * j) (by omega) (by omega) (by omega)
      have hright : readNode caps (rightChild (j - 1)) = some (capacity used h (2 * j + 1)) := by
        rw [rightChild_eq (by omega), readNode,
          if_pos (lt_nodes hm (l := l + 1) (by omega) (by omega)), Option.some_inj]
        exact hstored (l + 1) h (2 * j + 1) (by omega) (by omega) (by omega)
      have hchild : ∀ c, c / 2 = j → 2 ^ k ≤ capacity used h c →
          ∃ i, descend caps (2 ^ k) fuel (2 ^ h) (c - 1) = some (i - 1) ∧ i / 2 ^ (h + 1 - k) = j
            ∧ FreeBelow used k (h + 1 - k) i := by
        intro c hc hcapc
        obtain ⟨i, heq, hi, hfree⟩ := ih (l + 1) c fuel (by omega) (by omega) (by omega) (by omega)
          hcapc (by omega)
        have hup : i / 2 ^ (h + 1 - k) = j := by
          rw [show h + 1 - k = h - k + 1 by omega, div_succ, hi, hc]
        refine ⟨i, heq, hup, hfree.clear, ?_⟩
        intro e he
        by_cases hek : e ≤ h - k
        . exact hfree.path e hek
        . rw [show e = h + 1 - k by omega, hup]
          exact hju
      have hsome := le_capacity_child (by omega) hcap
      have hdesc : descend caps (2 ^ k) (fuel + 1) (2 ^ (h + 1)) (j - 1)
          =
          descend caps (2 ^ k) fuel (2 ^ h)
            ((if 2 ^ k ≤ min (capacity used h (2 * j)) (capacity used h (2 * j + 1)) then
              if capacity used h (2 * j + 1) < capacity used h (2 * j) then 2 * j + 1 else 2 * j
            else
              if capacity used h (2 * j + 1) < capacity used h (2 * j) then 2 * j else 2 * j + 1)
            - 1) := by
        rw [descend, if_neg hne, hleft, hright, hhalf, leftChild_eq (by omega),
          rightChild_eq (by omega)]
        simp only [Option.bind_eq_bind, Option.bind_some]
        by_cases hlt' : capacity used h (2 * j + 1) < capacity used h (2 * j)
        . rw [min_eq_right (by omega)]
          simp only [hlt', if_true]
          split <;> rfl
        . rw [min_eq_left (by omega)]
          simp only [hlt', if_false]
          split <;> rfl
      rw [hdesc]
      by_cases hmin : 2 ^ k ≤ min (capacity used h (2 * j)) (capacity used h (2 * j + 1))
      . obtain ⟨hl, hr⟩ := le_min_iff.mp hmin
        rw [if_pos hmin]
        split
        . exact hchild (2 * j + 1) (by omega) hr
        . exact hchild (2 * j) (by omega) hl
      . rw [if_neg hmin]
        rw [le_min_iff, not_and_or] at hmin
        split
        . exact hchild (2 * j) (by omega) (by omega)
        . exact hchild (2 * j + 1) (by omega) (by omega)

/--
What a step up from node `a` reads: the capacities of the children of the node above it.
-/
theorem read_children (hm : 2 ^ (m + 1) ≤ nodes) (hoff : StoredOff m used a (nodeAt caps))
    (hlh : l + (h + 1) = m) (hle : 2 ^ (l + 1) ≤ a) (hlt : a < 2 ^ (l + 1 + 1))
    : parent (a - 1) = a / 2 - 1
        ∧ readNode caps (leftChild (parent (a - 1))) = some (capacity used h (2 * (a / 2)))
        ∧ readNode caps (rightChild (parent (a - 1))) = some (capacity used h (2 * (a / 2) + 1)) := by
  have hpos := Nat.two_pow_pos l
  have hlevel : 2 ^ (l + 1) = 2 * 2 ^ l := Nat.pow_succ'
  have hlevel' : 2 ^ (l + 1 + 1) = 2 * 2 ^ (l + 1) := Nat.pow_succ'
  have hsmall := lt_nodes hm (l := l + 1) (by omega) hlt
  unfold nodes at hsmall
  have hparent := parent_eq (a := a) (by omega) (by omega)
  obtain ⟨hleft, hright⟩ := hoff.children hlh hle hlt
  refine ⟨hparent, ?_, ?_⟩
  . rw [hparent, leftChild_eq (by omega), readNode,
      if_pos (lt_nodes hm (l := l + 1) (by omega) (by omega)), Option.some_inj]
    exact hleft
  . rw [hparent, rightChild_eq (by omega), readNode,
      if_pos (lt_nodes hm (l := l + 1) (by omega) (by omega)), Option.some_inj]
    exact hright

/--
What a step up from node `a` writes.
-/
theorem write_parent (hm : 2 ^ (m + 1) ≤ nodes) (hoff : StoredOff m used a (nodeAt caps))
    (hlh : l + h = m) (hle : 2 ^ (l + 1) ≤ a) (hlt : a < 2 ^ (l + 1 + 1))
    : ∃ caps', writeNode caps (a / 2 - 1) (capacity used h (a / 2)) = some caps'
        ∧ StoredOff m used (a / 2) (nodeAt caps') := by
  have hpos := Nat.two_pow_pos l
  have hlevel : 2 ^ (l + 1) = 2 * 2 ^ l := Nat.pow_succ'
  have hlevel' : 2 ^ (l + 1 + 1) = 2 * 2 ^ (l + 1) := Nat.pow_succ'
  refine ⟨_, if_pos (lt_nodes hm (l := l) (by omega) (by omega)), ?_⟩
  exact storedOff_update (by omega) (hoff.parent hlh (by omega) (by omega))

theorem max_eq_ite (x y : Nat) : (if y < x then x else y) = max x y := by
  split
  next h => exact (max_eq_left (by omega)).symm
  next h => exact (max_eq_right (by omega)).symm

theorem refreshUp_spec (hm : 2 ^ (m + 1) ≤ nodes)
    : ∀ (l a fuel : Nat) (caps : Nat → Nat), l ≤ m → 2 ^ l ≤ a → a < 2 ^ (l + 1) → l < fuel →
        StoredOff m used a (nodeAt caps) → (∀ d, 0 < d → d ≤ l → a / 2 ^ d ∉ used) →
        (∃ i ∈ used, ∃ d, d + l ≤ m ∧ i / 2 ^ d = a) →
        ∃ caps', refreshUp fuel caps (a - 1) = some caps' ∧ Stored m used (nodeAt caps') := by
  intro l
  induction l with
  | zero =>
    intro a fuel caps _ hle hlt hfuel hoff _ _
    obtain ⟨fuel, rfl⟩ := Nat.exists_eq_add_of_le' (Nat.one_le_of_lt hfuel)
    obtain rfl : a = 1 := by omega
    exact ⟨caps, by simp [refreshUp], hoff.stored⟩
  | succ l ih =>
    intro a fuel caps hl hle hlt hfuel hoff hpath ⟨i, hi, d, hd, hia⟩
    obtain ⟨fuel, rfl⟩ := Nat.exists_eq_add_of_le' (Nat.one_le_of_lt hfuel)
    obtain ⟨h, hlh⟩ := Nat.exists_eq_add_of_le' (show 1 ≤ m - l by omega)
    have hpos := Nat.two_pow_pos l
    have hlevel : 2 ^ (l + 1) = 2 * 2 ^ l := Nat.pow_succ'
    have hlevel' : 2 ^ (l + 1 + 1) = 2 * 2 ^ (l + 1) := Nat.pow_succ'
    obtain ⟨hparent, hleft, hright⟩ := read_children hm hoff (by omega : l + (h + 1) = m) hle hlt
    obtain ⟨caps', hwrite, hoff'⟩ := write_parent hm hoff (by omega : l + (h + 1) = m) hle hlt
    have hup : i / 2 ^ (d + 1) = a / 2 := by rw [div_succ, hia]
    have hnot : a / 2 ∉ used := by simpa using hpath 1 (by omega) (by omega)
    have hclear : ¬Clear used (h + 1) (a / 2) := fun hclear => hclear (d + 1) (by omega) i hup hi
    rw [capacity_succ_of_not_clear hnot hclear] at hwrite
    obtain ⟨t, heq, hstored⟩ := ih (a / 2) fuel caps' (by omega) (by omega) (by omega) (by omega) hoff'
      (by
        intro e he hel
        rw [Nat.div_div_eq_div_mul, Nat.mul_comm, ← Nat.pow_succ]
        exact hpath (e + 1) (by omega) (by omega))
      ⟨i, hi, d + 1, by omega, hup⟩
    refine ⟨t, ?_, hstored⟩
    rw [refreshUp, if_neg (by omega)]
    dsimp only
    rw [hleft, hright, hparent]
    simp only [Option.bind_eq_bind, Option.bind_some, max_eq_ite, hwrite]
    exact heq

theorem mergeUp_spec (hm : 2 ^ (m + 1) ≤ nodes)
    : ∀ (l h a fuel : Nat) (caps : Nat → Nat), l + h = m → 2 ^ l ≤ a → a < 2 ^ (l + 1) → l < fuel →
        StoredOff m used a (nodeAt caps) → (∀ d, 0 < d → d ≤ l → a / 2 ^ d ∉ used) →
        ∃ caps', mergeUp fuel caps (a - 1) (2 ^ h) = some caps' ∧ Stored m used (nodeAt caps') := by
  intro l
  induction l with
  | zero =>
    intro h a fuel caps _ hle hlt hfuel hoff _
    obtain ⟨fuel, rfl⟩ := Nat.exists_eq_add_of_le' (Nat.one_le_of_lt hfuel)
    obtain rfl : a = 1 := by omega
    exact ⟨caps, by simp [mergeUp], hoff.stored⟩
  | succ l ih =>
    intro h a fuel caps hlh hle hlt hfuel hoff hpath
    obtain ⟨fuel, rfl⟩ := Nat.exists_eq_add_of_le' (Nat.one_le_of_lt hfuel)
    have hpos := Nat.two_pow_pos l
    have hlevel : 2 ^ (l + 1) = 2 * 2 ^ l := Nat.pow_succ'
    have hlevel' : 2 ^ (l + 1 + 1) = 2 * 2 ^ (l + 1) := Nat.pow_succ'
    obtain ⟨hparent, hleft, hright⟩ := read_children hm hoff (by omega : l + (h + 1) = m) hle hlt
    obtain ⟨caps', hwrite, hoff'⟩ := write_parent hm hoff (by omega : l + (h + 1) = m) hle hlt
    have hnot : a / 2 ∉ used := by simpa using hpath 1 (by omega) (by omega)
    have hten := height_lt hm
    have hsmall : 2 ^ (h + 1) < 2 ^ 32 := Nat.pow_lt_pow_right (by omega) (by omega)
    have hdouble : 2 ^ h * 2 % 2 ^ 32 = 2 ^ (h + 1) := by
      rw [← Nat.pow_succ]
      exact Nat.mod_eq_of_lt hsmall
    have hsum : (capacity used h (2 * (a / 2)) + capacity used h (2 * (a / 2) + 1)) % 2 ^ 32
        =
        capacity used h (2 * (a / 2)) + capacity used h (2 * (a / 2) + 1) := by
      have hl := @capacity_le used h (2 * (a / 2))
      have hr := @capacity_le used h (2 * (a / 2) + 1)
      rw [Nat.pow_succ] at hsmall
      exact Nat.mod_eq_of_lt (by omega)
    rw [capacity_succ hnot] at hwrite
    obtain ⟨t, heq, hstored⟩ := ih (h + 1) (a / 2) fuel caps' (by omega) (by omega) (by omega)
      (by omega) hoff'
      (by
        intro e he hel
        rw [Nat.div_div_eq_div_mul, Nat.mul_comm, ← Nat.pow_succ]
        exact hpath (e + 1) (by omega) (by omega))
    refine ⟨t, ?_, hstored⟩
    rw [mergeUp, if_neg (by omega)]
    dsimp only
    rw [hleft, hright, hparent, hdouble]
    simp only [Option.bind_eq_bind, Option.bind_some, max_eq_ite, hsum, hwrite]
    exact heq

/--
From a node inside a taken block, the first one in the block's leftmost way down, the loop gets to
the block.
-/
theorem ascend_spec (hm : 2 ^ (m + 1) ≤ nodes) (hstored : Stored m used (nodeAt caps))
    (hanti : Antichain used) {i : Nat} (hi : i ∈ used) (hlk : l + k = m) (hle : 2 ^ l ≤ i)
    (hlt : i < 2 ^ (l + 1))
    : ∀ (d fuel : Nat), d ≤ k → d < fuel →
        ascend caps fuel (i * 2 ^ d - 1) (2 ^ (k - d)) = some (i - 1, 2 ^ k) := by
  intro d
  have hpos := Nat.two_pow_pos l
  have hten := height_lt hm
  have hlevel : ∀ d, 2 ^ (l + d) ≤ i * 2 ^ d ∧ i * 2 ^ d < 2 ^ (l + d + 1) := by
    intro d
    rw [Nat.pow_add, show l + d + 1 = l + 1 + d by omega, Nat.pow_add 2 (l + 1) d]
    exact ⟨Nat.mul_le_mul_right _ hle, Nat.mul_lt_mul_of_pos_right hlt (Nat.two_pow_pos d)⟩
  have hread : ∀ d ≤ k, readNode caps (i * 2 ^ d - 1) = some (capacity used (k - d) (i * 2 ^ d)) := by
    intro d hd
    obtain ⟨hdle, hdlt⟩ := hlevel d
    rw [readNode, if_pos (lt_nodes hm (l := l + d) (by omega) hdlt), Option.some_inj]
    exact hstored (l + d) (k - d) (i * 2 ^ d) (by omega) hdle hdlt
  induction d with
  | zero =>
    intro fuel _ hfuel
    obtain ⟨fuel, rfl⟩ := Nat.exists_eq_add_of_le' (Nat.one_le_of_lt hfuel)
    have hzero := hread 0 (by omega)
    simp only [Nat.pow_zero, Nat.mul_one, Nat.sub_zero] at hzero ⊢
    rw [capacity_of_mem hi] at hzero
    simp [ascend, hzero]
  | succ d ih =>
    intro fuel hd hfuel
    obtain ⟨fuel, rfl⟩ := Nat.exists_eq_add_of_le' (Nat.one_le_of_lt hfuel)
    obtain ⟨hdle, hdlt⟩ := hlevel (d + 1)
    have hself : i * 2 ^ (d + 1) / 2 ^ (d + 1) = i := Nat.mul_div_cancel i (Nat.two_pow_pos (d + 1))
    have hfull : capacity used (k - (d + 1)) (i * 2 ^ (d + 1)) = 2 ^ (k - (d + 1)) :=
      capacity_eq_pow_iff.mpr (hanti.clear_inside hi (by omega) (by omega) hself)
    have hcap := hread (d + 1) hd
    rw [hfull] at hcap
    have hne : 2 ^ (k - (d + 1)) ≠ 0 := (Nat.two_pow_pos _).ne'
    have hsmall := lt_nodes hm (l := l + (d + 1)) (by omega) hdlt
    unfold nodes at hsmall
    have htwo : 2 ≤ i * 2 ^ (d + 1) := by
      have : 0 < i * 2 ^ d := Nat.mul_pos (by omega) (Nat.two_pow_pos d)
      rw [Nat.pow_succ, ← Nat.mul_assoc]
      omega
    have hparent : parent (i * 2 ^ (d + 1) - 1) = i * 2 ^ d - 1 := by
      rw [parent_eq htwo (by omega), Nat.pow_succ, ← Nat.mul_assoc, Nat.mul_div_cancel _ (by omega)]
    have hdouble : 2 ^ (k - (d + 1)) * 2 % 2 ^ 32 = 2 ^ (k - d) := by
      rw [← Nat.pow_succ, show (k - (d + 1)).succ = k - d by omega]
      exact Nat.mod_eq_of_lt (Nat.pow_lt_pow_right (by omega) (by omega))
    have hrec := ih fuel (by omega) (by omega)
    rw [ascend, hcap]
    simp only [Option.bind_eq_bind, Option.bind_some, if_pos hne, hparent, hdouble]
    split
    next hroot =>
      have hone : i * 2 ^ d = 1 := by
        have : 0 < i * 2 ^ d := Nat.mul_pos (by omega) (Nat.two_pow_pos d)
        omega
      obtain rfl := Nat.eq_one_of_mul_eq_one_right hone
      rw [Nat.one_mul] at hone
      obtain rfl : d = 0 := by
        by_contra hd0
        have := Nat.one_lt_two_pow hd0
        omega
      simp
    next hroot => exact hrec

end Array

end Buddy
end Ucore

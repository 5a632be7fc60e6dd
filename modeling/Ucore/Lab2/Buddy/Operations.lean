import Ucore.Kern.Mm.DefaultPmm.Lemmas.FreePages
import Ucore.Lab2.Buddy.Lemmas

/-!
This module contains what `buddy_init_memmap`, `buddy_alloc_pages` and `buddy_free_pages` do to the
capacities of the tree.
-/

namespace Ucore
namespace Buddy

open BuddyTree

variable {s : Buddy} {used : Finset Nat} {m l k n : Nat}

/--
The loop over the nodes: the capacity of a node is what its parent has halved.
-/
theorem initNodes_spec (hm : 2 ^ (m + 1) ≤ nodes)
    : ∀ (k i p : Nat) (caps : Nat → Nat), i + k = 2 ^ (m + 1) → i ≤ 2 ^ p → 2 ^ p < 2 * i →
        ∃ caps', initNodes k i (2 ^ (m + 1 - p)) caps = some caps'
          ∧ (∀ index, index + 1 < i → caps' index = caps index)
          ∧ ∀ l j, 2 ^ l ≤ j → j < 2 ^ (l + 1) → i ≤ j → j < 2 ^ (m + 1) →
              caps' (j - 1) = 2 ^ (m - l) := by
  intro k
  induction k with
  | zero =>
    intro i p caps hik _ _
    refine ⟨caps, rfl, fun _ _ => rfl, ?_⟩
    intro l j _ _ hij hj
    omega
  | succ k ih =>
    intro i p caps hik hip hpi
    have hten := height_lt hm
    have hpm : 2 ^ p < 2 ^ (m + 1 + 1) := by
      rw [Nat.pow_succ]
      omega
    have hpm := (Nat.pow_lt_pow_iff_right (by omega)).mp hpm
    have hconvert : convert2PowOf2 i = 2 ^ p := convert2PowOf2_eq (by omega) hip hpi
    let p' := if i = 2 ^ p then p + 1 else p
    have hp' : i + 1 ≤ 2 ^ p' ∧ 2 ^ p' < 2 * (i + 1) := by
      simp only [p']
      split
      . rw [Nat.pow_succ]
        omega
      . omega
    have hnext : (if convert2PowOf2 i = i then 2 ^ (m + 1 - p) / 2 else 2 ^ (m + 1 - p))
        = 2 ^ (m + 1 - p') := by
      rw [hconvert]
      simp only [p']
      by_cases hi : i = 2 ^ p
      . have hlt : 2 ^ p < 2 ^ (m + 1) := by omega
        have hlt := (Nat.pow_lt_pow_iff_right (by omega)).mp hlt
        rw [if_pos hi.symm, if_pos hi, show m + 1 - p = (m + 1 - (p + 1)) + 1 by omega, Nat.pow_succ]
        omega
      . rw [if_neg (Ne.symm hi), if_neg hi]
    have hwrite : writeNode caps (i - 1) (2 ^ (m + 1 - p'))
        = some (Function.update caps (i - 1) (2 ^ (m + 1 - p'))) := if_pos (by omega)
    obtain ⟨caps', heq, hsame, hrest⟩ := ih (i + 1) p'
      (Function.update caps (i - 1) (2 ^ (m + 1 - p'))) (by omega) hp'.1 hp'.2
    refine ⟨caps', ?_, ?_, ?_⟩
    . rw [initNodes]
      simp only [hnext, hwrite, Option.bind_eq_bind, Option.bind_some]
      exact heq
    . intro index hindex
      rw [hsame index (by omega), Function.update_of_ne (by omega)]
    . intro l j hle hlt hij hj
      by_cases hji : j = i
      . subst hji
        have hlp : 2 ^ l < 2 ^ (p + 1) := by
          rw [Nat.pow_succ]
          omega
        have hpl : 2 ^ p < 2 ^ (l + 1 + 1) := by
          rw [Nat.pow_succ]
          omega
        have hlp := (Nat.pow_lt_pow_iff_right (by omega)).mp hlp
        have hpl := (Nat.pow_lt_pow_iff_right (by omega)).mp hpl
        have hp'l : p' = l + 1 := by
          simp only [p']
          split
          next hjp =>
            rw [hjp] at hlt
            have := (Nat.pow_lt_pow_iff_right (by omega)).mp hlt
            omega
          next hjp =>
            by_contra hne
            obtain rfl : p = l := by omega
            omega
        rw [hsame (j - 1) (by omega), Function.update_self, hp'l, Nat.add_sub_add_right]
      . exact hrest l j hle hlt (by omega) hj

/--
`buddy_init_memmap` builds the tree in which nothing is taken.
-/
theorem buddyInitMemmap_spec (hm : 2 ^ (m + 1) ≤ nodes) {base : Nat}
    (hres : ∀ p, base ≤ p → p < base + 2 ^ m → (s.pages p).reserved = true)
    : ∃ s', s.buddyInitMemmap base (2 ^ m) = some s' ∧ s'.totalSize = 2 ^ m
        ∧ Stored m ∅ (nodeAt s'.nodeCapacity) ∧ s'.nrFree = 2 ^ m := by
  have hten := height_lt hm
  have hpos := Nat.two_pow_pos m
  have hconvert : convert2PowOf2 (2 ^ m) = 2 ^ m :=
    convert2PowOf2_eq (by omega) (Nat.le_refl _) (by omega)
  have hsize : 2 * 2 ^ m % 2 ^ 32 = 2 ^ (m + 1) := by
    rw [Nat.mul_comm, ← Nat.pow_succ]
    exact Nat.mod_eq_of_lt (Nat.pow_lt_pow_right (by omega) (by omega))
  have htwo : 2 ^ (m + 1) = 2 * 2 ^ m := Nat.pow_succ'
  obtain ⟨caps, hinit, -, hcaps⟩ := initNodes_spec hm (2 ^ (m + 1) - 1) 1 0 s.nodeCapacity (by omega)
    (by simp) (by simp)
  rw [Nat.sub_zero] at hinit
  obtain ⟨pages, hpages⟩ : ∃ pages, Pmm.initPages s.pages base (2 ^ m) = some pages :=
    ⟨_, Pmm.initPages_eq _ _ _ hres⟩
  refine ⟨⟨2 ^ m, caps, 2 ^ m, base, pages⟩, ?_, rfl, ?_, rfl⟩
  . unfold buddyInitMemmap
    rw [if_neg (by omega), hsize]
    simp only [hinit, Option.bind_eq_bind, Option.bind_some, hpages]
    rfl
  . intro l h j hlh hle hlt
    have hlm : 2 ^ (l + 1) ≤ 2 ^ (m + 1) := Nat.pow_le_pow_right (by omega) (by omega)
    have hl := Nat.two_pow_pos l
    have hclear : Clear ∅ h j := fun d _ i _ => by simp
    rw [capacity_eq_pow_iff.mpr hclear, show h = m - l by omega]
    exact hcaps l j hle hlt (by omega) (by omega)

/--
A request that fits gets a free node of its rounded size.
-/
theorem buddyAllocPages_spec (hm : 2 ^ (m + 1) ≤ nodes) (htotal : s.totalSize = 2 ^ m)
    (hstored : Stored m used (nodeAt s.nodeCapacity)) (hn : 0 < n) (hroot : n ≤ s.nodeCapacity 0)
    : ∃ k l i s', l + k = m ∧ convert2PowOf2 n = 2 ^ k ∧ 2 ^ l ≤ i ∧ i < 2 ^ (l + 1)
        ∧ FreeBelow used k l i ∧ s.buddyAllocPages n = some (2 ^ k * (i - 2 ^ l), s')
        ∧ s'.totalSize = 2 ^ m ∧ Stored m (insert i used) (nodeAt s'.nodeCapacity)
        ∧ s'.nrFree = (s.nrFree + 2 ^ 32 - 2 ^ k) % 2 ^ 32 := by
  have hten := height_lt hm
  have hcap : s.nodeCapacity 0 = capacity used m 1 := hstored 0 m 1 (by omega) (by simp) (by simp)
  rw [hcap] at hroot
  obtain ⟨d, _, -, -, -, hpow⟩ := @exists_freeBelow used m 1 (by omega)
  have hfits : 2 ^ (m - d) ≤ 2 ^ 31 := Nat.pow_le_pow_right (by omega) (by omega)
  obtain ⟨k, hconvert, -, hkn⟩ := convert2PowOf2_spec hn (by omega)
  have hkd : 2 ^ k < 2 ^ (m - d + 1) := by
    rw [Nat.pow_succ]
    omega
  have hkd := (Nat.pow_lt_pow_iff_right (by omega)).mp hkd
  have hkm : k ≤ m := by omega
  have hcapk : 2 ^ k ≤ capacity used m 1 := by
    rw [hpow]
    exact Nat.pow_le_pow_right (by omega) (by omega)
  obtain ⟨l, rfl⟩ := Nat.exists_eq_add_of_le' hkm
  obtain ⟨i, hdescend, hi, hfree⟩ := descend_spec hm hstored (l + k) 0 1 fuel (by omega) (by simp)
    (by simp) hkm hcapk (by unfold fuel; omega)
  rw [Nat.add_sub_cancel] at hi hfree
  have hlow : 2 ^ l ≤ i ∧ i < 2 ^ (l + 1) := by
    have := Nat.div_add_mod i (2 ^ l)
    have := Nat.mod_lt i (Nat.two_pow_pos l)
    rw [hi] at *
    rw [Nat.pow_succ]
    omega
  have hpos := Nat.two_pow_pos l
  have hwrite : writeNode s.nodeCapacity (i - 1) 0
      = some (Function.update s.nodeCapacity (i - 1) 0) :=
    if_pos (lt_nodes hm (l := l) (by omega) hlow.2)
  have hoff : StoredOff (l + k) (insert i used) i
      (nodeAt (Function.update s.nodeCapacity (i - 1) 0)) :=
    storedOff_update (by omega) hstored.insert
  have hpath : ∀ d, 0 < d → d ≤ l → i / 2 ^ d ∉ insert i used := by
    intro d hd hdl hmem
    cases Finset.mem_insert.mp hmem with
    | inl heq =>
      have := @div_pow_lt i d (by omega) hd
      omega
    | inr hmem => exact hfree.path d hdl hmem
  obtain ⟨caps, hrefresh, hstored'⟩ := refreshUp_spec hm l i fuel _ (by omega) hlow.1 hlow.2
    (by unfold fuel; omega) hoff hpath ⟨i, Finset.mem_insert_self i used, 0, by omega, by simp⟩
  have hlayer : layer (i - 1) = some l := layer_eq (by omega) (by omega) (by omega)
  have hoffset : 2 ^ (l + k) / 2 ^ l * (i - 1 + 1 - 2 ^ l) = 2 ^ k * (i - 2 ^ l) := by
    rw [Nat.pow_add, Nat.mul_div_cancel_left _ hpos, Nat.sub_add_cancel (by omega)]
  refine ⟨k, l, i, { s with nodeCapacity := caps, nrFree := (s.nrFree + 2 ^ 32 - 2 ^ k) % 2 ^ 32 },
    rfl, hconvert, hlow.1, hlow.2, hfree, ?_, htotal, hstored', rfl⟩
  have hread : readNode s.nodeCapacity 0 = some (capacity used (l + k) 1) := by
    rw [readNode, if_pos (by unfold nodes; omega), hcap]
  unfold buddyAllocPages
  rw [if_pos hn, hread, hconvert, htotal]
  simp only [Option.bind_eq_bind, Option.bind_some, if_neg (show ¬capacity used (l + k) 1 < n by omega)]
  rw [show (0 : Nat) = 1 - 1 by rfl, hdescend]
  simp only [Option.bind_some, hwrite, hlayer, doubled_eq (show l < 32 by omega), hoffset, hrefresh]
  rfl

theorem buddyAllocPages_of_lt (hn : 0 < n) (hroot : s.nodeCapacity 0 < n)
    : s.buddyAllocPages n = some (0, s) := by
  unfold buddyAllocPages
  rw [if_pos hn, readNode, if_pos (by unfold nodes; omega)]
  simp [hroot]

/--
`buddy_free_pages` of a taken block, given by the offset of its first page.
-/
theorem buddyFreePages_spec (hm : 2 ^ (m + 1) ≤ nodes) (htotal : s.totalSize = 2 ^ m)
    (hstored : Stored m used (nodeAt s.nodeCapacity)) (hanti : Antichain used) {i offset : Nat}
    (hi : i ∈ used) (hlk : l + k = m) (hle : 2 ^ l ≤ i) (hlt : i < 2 ^ (l + 1))
    (hoffset : 2 ^ m + offset = i * 2 ^ k)
    : ∃ s', s.buddyFreePages offset = some s' ∧ s'.totalSize = 2 ^ m
        ∧ Stored m (used.erase i) (nodeAt s'.nodeCapacity)
        ∧ s'.nrFree = (s.nrFree + 2 ^ k) % 2 ^ 32 := by
  have hten := height_lt hm
  have hpos := Nat.two_pow_pos l
  have hascend := ascend_spec hm hstored hanti hi hlk hle hlt k fuel (Nat.le_refl k)
    (by unfold fuel; omega)
  have hstart : (offset + s.totalSize + 2 ^ 32 - 1) % 2 ^ 32 = i * 2 ^ k - 1 := by
    have hsmall : i * 2 ^ k < 2 ^ (m + 1) := by
      rw [show m + 1 = l + 1 + k by omega, Nat.pow_add 2 (l + 1) k]
      exact Nat.mul_lt_mul_of_pos_right hlt (Nat.two_pow_pos k)
    have := Nat.two_pow_pos m
    unfold nodes at hm
    rw [htotal]
    omega
  have hwrite : writeNode s.nodeCapacity (i - 1) (2 ^ k)
      = some (Function.update s.nodeCapacity (i - 1) (2 ^ k)) :=
    if_pos (lt_nodes hm (l := l) (by omega) hlt)
  have hoff : StoredOff m (used.erase i) i (nodeAt (Function.update s.nodeCapacity (i - 1) (2 ^ k))) :=
    storedOff_update (by omega) (hstored.erase hanti hi (by omega) hlk hle hlt)
  have hpath : ∀ d, 0 < d → d ≤ l → i / 2 ^ d ∉ used.erase i := by
    intro d hd _ hmem
    have hmem := Finset.mem_of_mem_erase hmem
    have heq := hanti i hi _ hmem d rfl
    have := @div_pow_lt i d (by omega) hd
    omega
  obtain ⟨caps, hmerge, hstored'⟩ := mergeUp_spec hm l k i fuel _ hlk hle hlt (by unfold fuel; omega)
    hoff hpath
  refine ⟨{ s with nodeCapacity := caps, nrFree := (s.nrFree + 2 ^ k) % 2 ^ 32 }, ?_, htotal, hstored',
    rfl⟩
  rw [Nat.sub_self, Nat.pow_zero] at hascend
  unfold buddyFreePages
  rw [hstart, hascend]
  simp only [Option.bind_eq_bind, Option.bind_some, hwrite, hmerge]
  rfl

end Buddy
end Ucore

import Mathlib
import Ucore.Lab2.Buddy.Operations

/-!
This module contains the invariant of the buddy allocator over whole runs: each capacity in the tree
is the size of the largest free block below its node.
-/

namespace Ucore

open BuddyTree

/--
The pages of a node: the first one and their number.
-/
def Buddy.range (s : Buddy) (index : Nat) : Nat × Nat :=
  let size := s.totalSize / 2 ^ Nat.log 2 (index + 1)
  (size * (index + 1 - 2 ^ Nat.log 2 (index + 1)), size)

namespace BuddyRun

/--
The pages that a live block takes: its offset and its rounded size.
-/
def block (b : Nat × Nat) : Nat × Nat := (b.1, Buddy.convert2PowOf2 b.2)

theorem block_fst (b : Nat × Nat) : (block b).1 = b.1 := by
  rw [block]

def Apart (x y : Nat × Nat) : Prop := x.1 + x.2 ≤ y.1 ∨ y.1 + y.2 ≤ x.1

/--
An aligned block of pages whose number is a power of two, none of them in a live block.
-/
structure FreeBlock (c : BuddyRun) (x : Nat × Nat) : Prop where
  pow : ∃ h, x.2 = 2 ^ h
  dvd : x.2 ∣ x.1
  apart : ∀ b ∈ c.live, Apart x (block b)

/--
`size` is the size of the largest free block within `r`, `0` if there is none.
-/
def LargestFree (c : BuddyRun) (r : Nat × Nat) (size : Nat) : Prop :=
  (∀ x, c.FreeBlock x → Within x r → x.2 ≤ size)
    ∧ (size ≠ 0 → ∃ x, c.FreeBlock x ∧ Within x r ∧ x.2 = size)

/--
What the nodes of the tree hold, where the live blocks lie, and what `nr_free` counts.
-/
structure Invariant (c : BuddyRun) : Prop where
  within : ∀ index < 2 * c.buddy.totalSize - 1, ∀ b ∈ c.live,
    Within (c.buddy.range index) (block b) →
      c.buddy.nodeCapacity index
        = if c.buddy.range index = block b then 0 else (c.buddy.range index).2
  outside : ∀ index < 2 * c.buddy.totalSize - 1,
    (∀ b ∈ c.live, ¬Within (c.buddy.range index) (block b)) →
      c.LargestFree (c.buddy.range index) (c.buddy.nodeCapacity index)
  apart : c.live.Pairwise fun b b' => Apart (block b) (block b')
  aligned : ∀ b ∈ c.live, (block b).2 ∣ (block b).1
  inside : ∀ b ∈ c.live, (block b).1 + (block b).2 ≤ c.buddy.totalSize
  rounded : ∀ b ∈ c.live, ∃ k, (block b).2 = 2 ^ k ∧ b.2 ≤ 2 ^ k ∧ 2 ^ k < 2 * b.2
  nrFree : c.buddy.nrFree + (c.live.map fun b => (block b).2).sum = c.buddy.totalSize

/--
The node of a block of pages.
-/
def nodeOf (m : Nat) (x : Nat × Nat) : Nat := (2 ^ m + x.1) / x.2

def used (m : Nat) (live : List (Nat × Nat)) : Finset Nat :=
  (live.map fun b => nodeOf m (block b)).toFinset

/--
The live blocks are blocks of the tree, none of them in another one.
-/
structure Placed (m : Nat) (live : List (Nat × Nat)) : Prop where
  isBlock : ∀ b ∈ live, ∃ l k, IsBlock m (block b) l k (nodeOf m (block b))
  rounded : ∀ b ∈ live, b.2 ≤ (block b).2 ∧ (block b).2 < 2 * b.2
  antichain : Antichain (used m live)
  nodup : (live.map fun b => nodeOf m (block b)).Nodup

/--
The tree holds the capacities that the live blocks determine.
-/
structure Managed (m : Nat) (c : BuddyRun) : Prop where
  total : c.buddy.totalSize = 2 ^ m
  placed : Placed m c.live
  stored : Stored m (used m c.live) (Buddy.nodeAt c.buddy.nodeCapacity)
  nrFree : c.buddy.nrFree + (c.live.map fun b => (block b).2).sum = 2 ^ m

variable {c c' : BuddyRun} {m : Nat} {live : List (Nat × Nat)}

theorem mem_used {i : Nat} : i ∈ used m live ↔ ∃ b ∈ live, nodeOf m (block b) = i := by
  simp [used]

theorem mem_used_of_mem {b : Nat × Nat} (hb : b ∈ live) : nodeOf m (block b) ∈ used m live :=
  mem_used.mpr ⟨b, hb, rfl⟩

/--
No two live blocks have a page in common.
-/
theorem Placed.apart (h : Placed m live) : live.Pairwise fun b b' => Apart (block b) (block b') := by
  refine (List.pairwise_map.mp h.nodup).imp_of_mem ?_
  intro b b' hb hb' hne
  obtain ⟨l, k, hblock⟩ := h.isBlock b hb
  obtain ⟨l', k', hblock'⟩ := h.isBlock b' hb'
  have hmem := mem_used_of_mem (m := m) hb
  have hmem' := mem_used_of_mem (m := m) hb'
  refine (hblock.apart_iff hblock').mpr ⟨?_, ?_⟩
  . intro hwithin
    exact hne (h.antichain _ hmem _ hmem' _ ((hblock.within_iff hblock').mp hwithin).2)
  . intro hwithin
    exact hne (h.antichain _ hmem' _ hmem _ ((hblock'.within_iff hblock).mp hwithin).2).symm

/--
The live blocks hold no more pages than there are.
-/
theorem Placed.sum_le (h : Placed m live) : (live.map fun b => (block b).2).sum ≤ 2 ^ m := by
  have hsum := @sum_le_of_apart (live.map block) (2 ^ m) (List.pairwise_map.mpr h.apart) (by
    intro x hx
    obtain ⟨b, hb, rfl⟩ := List.mem_map.mp hx
    obtain ⟨l, k, hblock⟩ := h.isBlock b hb
    exact hblock.le)
  rwa [List.map_map] at hsum

/--
Each index of the tree is a node, and `range` is its block.
-/
theorem exists_isBlock_range (htotal : c.buddy.totalSize = 2 ^ m) {index : Nat}
    (hindex : index < 2 * c.buddy.totalSize - 1)
    : ∃ l h, IsBlock m (c.buddy.range index) l h (index + 1) := by
  rw [htotal, Nat.mul_comm, ← Nat.pow_succ] at hindex
  have hle : 2 ^ Nat.log 2 (index + 1) ≤ index + 1 := Nat.pow_log_le_self 2 (by omega)
  have hlt : index + 1 < 2 ^ (Nat.log 2 (index + 1) + 1) := Nat.lt_pow_succ_log_self (by omega) _
  generalize hl : Nat.log 2 (index + 1) = l at hle hlt
  have hlm : 2 ^ l < 2 ^ (m + 1) := by omega
  have hlm := (Nat.pow_lt_pow_iff_right (by omega)).mp hlm
  obtain ⟨h, rfl⟩ := Nat.exists_eq_add_of_le (show l ≤ m by omega)
  have hsize : c.buddy.totalSize / 2 ^ l = 2 ^ h := by
    rw [htotal, Nat.pow_add, Nat.mul_div_cancel_left _ (Nat.two_pow_pos l)]
  refine ⟨l, h, rfl, hle, hlt, ?_, ?_⟩
  . simp only [Buddy.range, hl, hsize]
  . simp only [Buddy.range, hl, hsize]
    obtain ⟨q, hq⟩ := Nat.exists_eq_add_of_le hle
    rw [hq, Nat.add_sub_cancel_left, Nat.pow_add, Nat.add_mul, Nat.mul_comm q]

/--
A node within a live block other than the block itself keeps its full size.
-/
theorem Managed.within (h : c.Managed m) {index : Nat} (hindex : index < 2 * c.buddy.totalSize - 1)
    {b : Nat × Nat} (hb : b ∈ c.live) (hwithin : Within (c.buddy.range index) (block b))
    : c.buddy.nodeCapacity index
        = if c.buddy.range index = block b then 0 else (c.buddy.range index).2 := by
  obtain ⟨l, k, hr⟩ := exists_isBlock_range h.total hindex
  obtain ⟨l', k', hblock⟩ := h.placed.isBlock b hb
  have hcap : c.buddy.nodeCapacity index = capacity (used m c.live) k (index + 1) :=
    h.stored l k (index + 1) hr.height hr.lower hr.upper
  obtain ⟨hkk, hdiv⟩ := (hr.within_iff hblock).mp hwithin
  have hmem := mem_used_of_mem (m := m) hb
  rw [hcap]
  split
  next heq =>
    have hnode : nodeOf m (block b) = index + 1 := by
      rw [← heq]
      exact hr.node_eq
    exact capacity_of_mem (hnode ▸ hmem)
  next hne =>
    rw [hr.size, capacity_eq_pow_iff]
    have hlt : k < k' := by
      apply Nat.lt_of_le_of_ne hkk
      intro hk
      subst hk
      rw [Nat.sub_self, Nat.pow_zero, Nat.div_one] at hdiv
      apply hne
      have hr1 := hr.first
      have hb1 := hblock.first
      rw [hdiv] at hr1
      exact Prod.ext (by omega) (by rw [hr.size, hblock.size])
    have hpos := Nat.two_pow_pos l'
    have hlower := hblock.lower
    exact h.placed.antichain.clear_inside hmem (by omega) (by omega) hdiv

theorem FreeBlock.not_within {x : Nat × Nat} (hx : c.FreeBlock x) {l k i : Nat}
    (hblock : IsBlock m x l k i) (h : c.Managed m) {b : Nat × Nat} (hb : b ∈ c.live)
    : ¬Within x (block b) ∧ ¬Within (block b) x := by
  obtain ⟨l', k', hblock'⟩ := h.placed.isBlock b hb
  exact (hblock.apart_iff hblock').mp (hx.apart b hb)

/--
A node that is in no live block has the size of the largest free block in it.
-/
theorem Managed.outside (h : c.Managed m) {index : Nat} (hindex : index < 2 * c.buddy.totalSize - 1)
    (hnot : ∀ b ∈ c.live, ¬Within (c.buddy.range index) (block b))
    : c.LargestFree (c.buddy.range index) (c.buddy.nodeCapacity index) := by
  obtain ⟨l, k, hr⟩ := exists_isBlock_range h.total hindex
  have hcap : c.buddy.nodeCapacity index = capacity (used m c.live) k (index + 1) :=
    h.stored l k (index + 1) hr.height hr.lower hr.upper
  rw [hcap]
  constructor
  . intro x hx hwithin
    obtain ⟨q, hq⟩ := hx.pow
    have hle := hr.le
    have hsize : 2 ^ q ≤ 2 ^ m := by
      unfold Within at hwithin
      omega
    have hqm := (Nat.pow_le_pow_iff_right (by omega)).mp hsize
    obtain ⟨lx, i, hxb⟩ := exists_isBlock hqm (hq ▸ hx.dvd) (by unfold Within at hwithin; omega)
    rw [← hq] at hxb
    obtain ⟨hqk, hdiv⟩ := (hxb.within_iff hr).mp hwithin
    have hfree : FreeBelow (used m c.live) (k - (k - q)) (k - q) i := by
      rw [Nat.sub_sub_self hqk]
      constructor
      . intro d hd y hy hmem
        obtain ⟨b, hb, rfl⟩ := mem_used.mp hmem
        obtain ⟨lb, kb, hbb⟩ := h.placed.isBlock b hb
        obtain ⟨hlow, hupp⟩ := level_of_div hy hxb.lower hxb.upper
        have hlevel := level_unique hbb.lower hbb.upper hlow hupp
        have hheight := hbb.height
        have hheight' := hxb.height
        apply (hx.not_within hxb h hb).2
        rw [hbb.within_iff hxb]
        exact ⟨by omega, by rw [show q - kb = d by omega, hy]⟩
      . intro e he hmem
        obtain ⟨b, hb, heq⟩ := mem_used.mp hmem
        obtain ⟨lb, kb, hbb⟩ := h.placed.isBlock b hb
        obtain ⟨hlow, hupp⟩ := level_of_div heq.symm hbb.lower hbb.upper
        have hlevel := level_unique hxb.lower hxb.upper hlow hupp
        have hheight := hbb.height
        have hheight' := hxb.height
        apply (hx.not_within hxb h hb).1
        rw [hxb.within_iff hbb]
        exact ⟨by omega, by rw [show kb - q = e by omega, heq]⟩
    have hcapx := le_capacity (Nat.sub_le k q) hdiv hfree
    rw [Nat.sub_sub_self hqk] at hcapx
    rw [hq]
    exact hcapx
  . intro hne
    obtain ⟨d, hd, i, hi, hfree, heq⟩ := exists_freeBelow hne
    have hlevel := level_of_div hi hr.lower hr.upper
    have hheight := hr.height
    have hxb : IsBlock m (i * 2 ^ (k - d) - 2 ^ m, 2 ^ (k - d)) (l + d) (k - d) i := by
      refine ⟨by omega, hlevel.1, hlevel.2, rfl, ?_⟩
      have hlow := Nat.mul_le_mul_right (2 ^ (k - d)) hlevel.1
      rw [← Nat.pow_add, show l + d + (k - d) = m by omega] at hlow
      simp only
      omega
    refine ⟨(i * 2 ^ (k - d) - 2 ^ m, 2 ^ (k - d)), ⟨⟨k - d, rfl⟩, hxb.dvd, ?_⟩, ?_, heq.symm⟩
    . intro b hb
      obtain ⟨lb, kb, hbb⟩ := h.placed.isBlock b hb
      have hmem := mem_used_of_mem (m := m) hb
      refine (hxb.apart_iff hbb).mpr ⟨?_, ?_⟩
      . intro hwithin
        obtain ⟨hkb, hdiv⟩ := (hxb.within_iff hbb).mp hwithin
        by_cases hpath : kb - (k - d) ≤ d
        . exact hfree.path _ hpath (hdiv ▸ hmem)
        . apply hnot b hb
          rw [hr.within_iff hbb]
          refine ⟨by omega, ?_⟩
          rw [← hdiv, ← hi, Nat.div_div_eq_div_mul, ← Nat.pow_add]
          congr 2
          omega
      . intro hwithin
        obtain ⟨hkb, hdiv⟩ := (hbb.within_iff hxb).mp hwithin
        exact hfree.clear _ (Nat.sub_le _ _) _ hdiv hmem
    . rw [hxb.within_iff hr]
      exact ⟨by omega, by rw [Nat.sub_sub_self hd, hi]⟩

theorem Managed.invariant (h : c.Managed m) : c.Invariant := by
  constructor
  . exact fun index hindex b hb hwithin => h.within hindex hb hwithin
  . exact fun index hindex hnot => h.outside hindex hnot
  . exact h.placed.apart
  . intro b hb
    obtain ⟨l, k, hblock⟩ := h.placed.isBlock b hb
    exact hblock.dvd
  . intro b hb
    obtain ⟨l, k, hblock⟩ := h.placed.isBlock b hb
    rw [h.total]
    exact hblock.le
  . intro b hb
    obtain ⟨l, k, hblock⟩ := h.placed.isBlock b hb
    obtain ⟨hle, hlt⟩ := h.placed.rounded b hb
    exact ⟨k, hblock.size, hblock.size ▸ hle, hblock.size ▸ hlt⟩
  . rw [h.total]
    exact h.nrFree

section Steps

variable {n l k i : Nat}

/--
A new block takes a free node, so it is in no other block and no other block is in it.
-/
theorem Placed.antichain_insert (h : Placed m live) (hlk : l + k = m) (hle : 2 ^ l ≤ i)
    (hlt : i < 2 ^ (l + 1)) (hfree : FreeBelow (used m live) k l i)
    : Antichain (insert i (used m live)) := by
  have hlevel : ∀ y ∈ used m live, 0 < y ∧ y < 2 ^ (m + 1) := by
    intro y hy
    obtain ⟨b, hb, rfl⟩ := mem_used.mp hy
    obtain ⟨lb, kb, hbb⟩ := h.isBlock b hb
    have hheight := hbb.height
    have hlower := hbb.lower
    have hupper := hbb.upper
    have : 2 ^ (lb + 1) ≤ 2 ^ (m + 1) := Nat.pow_le_pow_right (by omega) (by omega)
    have := Nat.two_pow_pos lb
    omega
  intro x hx y hy d hdiv
  cases Finset.mem_insert.mp hx with
  | inl hxi =>
    subst hxi
    cases Finset.mem_insert.mp hy with
    | inl hyx => exact hyx.symm
    | inr hyu =>
      -- a taken node above the new one
      by_cases hd : d ≤ l
      . exact absurd hyu (hdiv ▸ hfree.path d hd)
      . have hzero : x / 2 ^ d = 0 := by
          apply Nat.div_eq_of_lt
          have : 2 ^ (l + 1) ≤ 2 ^ d := Nat.pow_le_pow_right (by omega) (by omega)
          omega
        have := hlevel y hyu
        omega
  | inr hxu =>
    cases Finset.mem_insert.mp hy with
    | inl hyi =>
      subst hyi
      -- a taken node below the new one
      have hlow := (level_of_div hdiv hle hlt).1
      have hlt' := Nat.lt_of_le_of_lt hlow (hlevel x hxu).2
      have hld := (Nat.pow_lt_pow_iff_right (by omega)).mp hlt'
      exact absurd hxu (hfree.clear d (by omega) x hdiv)
    | inr hyu => exact h.antichain x hxu y hyu d hdiv

theorem used_cons {b : Nat × Nat} (hnode : nodeOf m (block b) = i)
    : used m (b :: live) = insert i (used m live) := by
  simp only [used, List.map_cons, hnode, List.toFinset_cons]

theorem Placed.cons (h : Placed m live) {b : Nat × Nat} (hb : IsBlock m (block b) l k i)
    (hround : b.2 ≤ (block b).2 ∧ (block b).2 < 2 * b.2) (hfree : FreeBelow (used m live) k l i)
    : Placed m (b :: live) := by
  have hnode : nodeOf m (block b) = i := hb.node_eq
  have hnew : i ∉ used m live := by
    have := hfree.path 0 (by omega)
    simpa using this
  constructor
  . intro x hx
    cases List.mem_cons.mp hx with
    | inl hxb =>
      rw [hxb, hnode]
      exact ⟨l, k, hb⟩
    | inr hx => exact h.isBlock x hx
  . intro x hx
    cases List.mem_cons.mp hx with
    | inl hxb =>
      rw [hxb]
      exact hround
    | inr hx => exact h.rounded x hx
  . rw [used_cons hnode]
    exact h.antichain_insert hb.height hb.lower hb.upper hfree
  . rw [List.map_cons, hnode]
    refine List.nodup_cons.mpr ⟨?_, h.nodup⟩
    intro hmem
    exact hnew (by rw [used, List.mem_toFinset]; exact hmem)

theorem Placed.used_erase (h : Placed m live) {b : Nat × Nat} (hb : b ∈ live)
    : used m (live.erase b) = (used m live).erase (nodeOf m (block b)) := by
  have hperm := (List.perm_cons_erase hb).map fun b => nodeOf m (block b)
  have hnodup := hperm.nodup_iff.mp h.nodup
  rw [List.map_cons, List.nodup_cons] at hnodup
  ext x
  have hmem := hperm.mem_iff (a := x)
  simp only [used, List.mem_toFinset, Finset.mem_erase]
  rw [List.map_cons, List.mem_cons] at hmem
  rw [hmem]
  constructor
  . intro hx
    exact ⟨fun heq => hnodup.1 (heq ▸ hx), Or.inr hx⟩
  . intro ⟨hne, hx⟩
    exact hx.resolve_left hne

theorem Placed.erase (h : Placed m live) {b : Nat × Nat} (hb : b ∈ live)
    : Placed m (live.erase b) := by
  constructor
  . exact fun x hx => h.isBlock x (List.mem_of_mem_erase hx)
  . exact fun x hx => h.rounded x (List.mem_of_mem_erase hx)
  . rw [h.used_erase hb]
    intro x hx y hy
    exact h.antichain x (Finset.mem_of_mem_erase hx) y (Finset.mem_of_mem_erase hy)
  . exact (List.erase_sublist.map _).nodup h.nodup

variable (hm : 2 ^ (m + 1) ≤ Buddy.nodes)

include hm

omit hm in
theorem placed_nil : Placed m [] := by
  constructor
  . simp
  . simp
  . simp [used, Antichain]
  . simp

/--
What a request that fits does to the tree of the live blocks.
-/
theorem Placed.allocPages {s : Buddy} (h : Placed m live) (htotal : s.totalSize = 2 ^ m)
    (hstored : Stored m (used m live) (Buddy.nodeAt s.nodeCapacity)) (hn : 1 ≤ n) (hroot : n ≤ s.nodeCapacity 0)
    : ∃ offset k s', s.buddyAllocPages n = some (offset, s') ∧ s'.totalSize = 2 ^ m
        ∧ Placed m ((offset, n) :: live)
        ∧ Stored m (used m ((offset, n) :: live)) (Buddy.nodeAt s'.nodeCapacity)
        ∧ block (offset, n) = (offset, 2 ^ k) ∧ s'.nrFree = (s.nrFree + 2 ^ 32 - 2 ^ k) % 2 ^ 32 := by
  obtain ⟨k, l, i, s', hlk, hconvert, hle, hlt, hfree, halloc, htotal, hstored', hnrFree⟩ :=
    Buddy.buddyAllocPages_spec hm htotal hstored hn hroot
  have hten := Buddy.height_lt hm
  have hfirst : 2 ^ m + 2 ^ k * (i - 2 ^ l) = i * 2 ^ k := by
    obtain ⟨q, rfl⟩ := Nat.exists_eq_add_of_le hle
    rw [Nat.add_sub_cancel_left, ← hlk, Nat.pow_add, Nat.add_mul, Nat.mul_comm q]
  have hpow : block (2 ^ k * (i - 2 ^ l), n) = (2 ^ k * (i - 2 ^ l), 2 ^ k) := by
    rw [block, hconvert]
  have hblock : IsBlock m (block (2 ^ k * (i - 2 ^ l), n)) l k i := by
    rw [hpow]
    exact ⟨hlk, hle, hlt, rfl, hfirst⟩
  have hround : n ≤ 2 ^ k ∧ 2 ^ k < 2 * n := by
    have hcap : s.nodeCapacity 0 = capacity (used m live) m 1 := hstored 0 m 1 (by omega) (by simp) (by simp)
    have hle := @capacity_le (used m live) m 1
    have : 2 ^ m ≤ 2 ^ 31 := Nat.pow_le_pow_right (by omega) (by omega)
    obtain ⟨q, hq, hnq, hqn⟩ := Buddy.convert2PowOf2_spec hn (by omega)
    rw [← hconvert, hq]
    exact ⟨hnq, hqn⟩
  have hplaced := h.cons hblock (by rw [hblock.size]; exact hround) hfree
  refine ⟨2 ^ k * (i - 2 ^ l), k, s', halloc, htotal, hplaced, ?_, hpow, hnrFree⟩
  rw [used_cons hblock.node_eq]
  exact hstored'

theorem Managed.allocPages (h : c.Managed m) (hn : 1 ≤ n) (hroot : n ≤ c.buddy.nodeCapacity 0)
    : ∃ offset c', c.step (.allocPages n) = some c' ∧ c'.live = (offset, n) :: c.live
        ∧ c'.Managed m := by
  obtain ⟨offset, k, s', halloc, htotal, hplaced, hstored, hpow, hnrFree⟩ :=
    h.placed.allocPages hm h.total h.stored hn hroot
  have hten := Buddy.height_lt hm
  refine ⟨offset, ⟨s', (offset, n) :: c.live⟩, ?_, rfl, ?_⟩
  . simp only [step, halloc, Option.bind_eq_bind, Option.bind_some, if_neg (Nat.not_lt.mpr hroot)]
    rfl
  constructor
  . exact htotal
  . exact hplaced
  . exact hstored
  . have hsum := hplaced.sum_le
    have hold := h.nrFree
    have hpos := Nat.two_pow_pos k
    have : 2 ^ m < 2 ^ 32 := Nat.pow_lt_pow_right (by omega) (by omega)
    simp only [List.map_cons, List.sum_cons, hpow, hnrFree] at hsum ⊢
    omega

theorem Managed.freePages (h : c.Managed m) {b : Nat × Nat} (hb : b ∈ c.live)
    : ∃ c', c.step (.freePages b) = some c' ∧ c'.live = c.live.erase b ∧ c'.Managed m := by
  obtain ⟨l, k, hblock⟩ := h.placed.isBlock b hb
  have hten := Buddy.height_lt hm
  have hfirst := hblock.first
  rw [block_fst] at hfirst
  obtain ⟨s', hfree, htotal, hstored, hnrFree⟩ := Buddy.buddyFreePages_spec hm h.total h.stored
    h.placed.antichain (mem_used_of_mem hb) hblock.height hblock.lower hblock.upper hfirst
  refine ⟨⟨s', c.live.erase b⟩, ?_, rfl, ?_⟩
  . simp only [step, hfree, Option.bind_eq_bind, Option.bind_some]
    rfl
  constructor
  . exact htotal
  . exact h.placed.erase hb
  . simp only [h.placed.used_erase hb]
    exact hstored
  . have hperm := ((List.perm_cons_erase hb).map fun b => (block b).2).sum_eq
    have hold := h.nrFree
    have : 2 ^ m < 2 ^ 32 := Nat.pow_lt_pow_right (by omega) (by omega)
    rw [List.map_cons, List.sum_cons, hblock.size] at hperm
    simp only [hnrFree]
    have hpos := Nat.two_pow_pos k
    rw [Nat.mod_eq_of_lt (by omega)]
    omega

theorem Managed.step (h : c.Managed m) {call : BuddyCall} (hlegal : c.Legal call)
    : ∃ c', c.step call = some c' ∧ c'.Managed m := by
  cases call with
  | allocPages n =>
    by_cases hroot : n ≤ c.buddy.nodeCapacity 0
    . obtain ⟨_, c', hstep, -, h'⟩ := h.allocPages hm hlegal hroot
      exact ⟨c', hstep, h'⟩
    . have hlt := Nat.lt_of_not_le hroot
      refine ⟨c, ?_, h⟩
      simp only [BuddyRun.step, Buddy.buddyAllocPages_of_lt hlegal hlt, Option.bind_eq_bind,
        Option.bind_some, if_pos hlt]
      rfl
  | freePages b =>
    obtain ⟨c', hstep, -, h'⟩ := h.freePages hm hlegal
    exact ⟨c', hstep, h'⟩

end Steps

end BuddyRun
end Ucore

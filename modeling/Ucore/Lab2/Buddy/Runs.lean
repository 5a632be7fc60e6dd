import Ucore.Lab2.Buddy.Invariant
import Ucore.Lib.Run

/-!
This module contains the runs of the buddy allocator from the tree that `buddy_init_memmap` builds:
the invariant, and that the tree depends on the live blocks only.
-/

namespace Ucore

open BuddyTree

/--
Both have the same tree and count the same free pages.
-/
structure Buddy.SameTree (s t : Buddy) : Prop where
  total : s.totalSize = t.totalSize
  nrFree : s.nrFree = t.nrFree
  capacity : ∀ index < 2 * s.totalSize - 1, s.nodeCapacity index = t.nodeCapacity index

namespace BuddyRun

variable {s s' : Buddy} {c c' : BuddyRun} {m n base : Nat} {calls : List BuddyCall}

theorem managed_init (htotal : s.totalSize = 2 ^ m)
    (hstored : Stored m ∅ (Buddy.nodeAt s.nodeCapacity)) (hnrFree : s.nrFree = 2 ^ m)
    : Managed m ⟨s, []⟩ := by
  constructor
  . exact htotal
  . exact placed_nil
  . exact hstored
  . simpa using hnrFree

/--
In every run on a tree of a power of two pages that fits into the array, the invariant holds
throughout.
-/
theorem always_invariant (hm : 2 * 2 ^ m - 1 ≤ Buddy.nodes)
    (hres : ∀ p, base ≤ p → p < base + 2 ^ m → (s.pages p).reserved = true)
    : ∃ s', s.buddyInitMemmap base (2 ^ m) = some s'
        ∧ ∀ calls, Run.Admits step Legal ⟨s', []⟩ calls → Run.Always step Invariant ⟨s', []⟩ calls := by
  have hm := Buddy.nodes_of_le hm
  obtain ⟨s', hinit, htotal, hstored, hnrFree⟩ := Buddy.buddyInitMemmap_spec hm hres
  refine ⟨s', hinit, ?_⟩
  intro calls hlegal
  exact Run.always_of_admits (I := Managed m) (fun c h => h.invariant) (fun c call h => h.step hm)
    (managed_init htotal hstored hnrFree) hlegal

/--
A machine with all its pages reserved.
-/
def reservedPages : Buddy where
  totalSize := 0
  nodeCapacity := fun _ => 0
  nrFree := 0
  beginPage := 0
  pages := fun _ => { ref := 0, flags := setBit pgReserved 0, property := 0 }

theorem reservedPages_reserved (p : Nat) : (reservedPages.pages p).reserved = true := by
  simp [reservedPages, Page.reserved, testBit, setBit, pgReserved]

theorem always_invariant_reservedPages
    : ∃ s', reservedPages.buddyInitMemmap 0 (2 ^ 4) = some s'
        ∧ ∀ calls, Run.Admits step Legal ⟨s', []⟩ calls → Run.Always step Invariant ⟨s', []⟩ calls :=
  always_invariant (by decide)
    (fun p _ _ => reservedPages_reserved p)

/--
The live blocks determine the capacities and the number of free pages.
-/
theorem Managed.sameTree (h : c.Managed m) (h' : c'.Managed m)
    (hlive : ∀ x, x ∈ c.live.map block ↔ x ∈ c'.live.map block)
    : c.buddy.SameTree c'.buddy := by
  have hused : used m c.live = used m c'.live := by
    ext x
    have hmap : ∀ live, x ∈ used m live ↔ ∃ y ∈ live.map block, nodeOf m y = x := by
      intro live
      simp only [mem_used, List.mem_map, exists_exists_and_eq_and]
    simp only [hmap, hlive]
  have hperm : (c.live.map block).Perm (c'.live.map block) := by
    have hnodup : ∀ {live}, Placed m live → (live.map block).Nodup := by
      intro live hplaced
      have hnodes : ((live.map block).map (nodeOf m)).Nodup := by
        rw [List.map_map]
        exact hplaced.nodup
      exact hnodes.of_map
    exact (List.perm_ext_iff_of_nodup (hnodup h.placed) (hnodup h'.placed)).mpr hlive
  constructor
  . rw [h.total, h'.total]
  . have hsum := (hperm.map Prod.snd).sum_eq
    rw [List.map_map, List.map_map] at hsum
    have hfree := h.nrFree
    have hfree' := h'.nrFree
    rw [show (c.live.map fun b => (block b).2).sum = _ from hsum] at hfree
    exact Nat.add_right_cancel (hfree.trans hfree'.symm)
  . intro index hindex
    obtain ⟨l, k, hr⟩ := exists_isBlock_range h.total hindex
    have hcap := h.stored l k (index + 1) hr.height hr.lower hr.upper
    have hcap' := h'.stored l k (index + 1) hr.height hr.lower hr.upper
    rw [hused, ← hcap'] at hcap
    exact hcap

/--
Freeing all live blocks, in any order.
-/
theorem Managed.freeAll (hm : 2 ^ (m + 1) ≤ Buddy.nodes) {order : List (Nat × Nat)}
    (h : c.Managed m) (horder : order.Perm c.live)
    : ∃ c', Run.exec BuddyRun.step c (order.map .freePages) = some c' ∧ c'.live = [] ∧ c'.Managed m := by
  induction order generalizing c with
  | nil => exact ⟨c, rfl, List.nil_perm.mp horder, h⟩
  | cons b order ih =>
    have hb := horder.subset (List.mem_cons_self ..)
    obtain ⟨t, hstep, hlive, ht⟩ := h.freePages hm hb
    have hrest : order.Perm t.live := by
      rw [hlive]
      exact (List.cons_perm_iff_perm_erase.mp horder).2
    obtain ⟨c', hexec, hnil, h'⟩ := ih ht hrest
    exact ⟨c', Option.bind_eq_some_iff.mpr ⟨t, hstep, hexec⟩, hnil, h'⟩

/--
What the live blocks of `c` say about its tree, `s` being the tree at the start: every run to these
blocks ends in it, freeing all of them in any order leads back to the start, and freeing the block
that was just handed out leads back to `c`.
-/
structure TreeOfLive (s : Buddy) (c : BuddyRun) : Prop where
  sameTree : ∀ (calls : List BuddyCall) (c' : BuddyRun),
    Run.Admits BuddyRun.step Legal ⟨s, []⟩ calls → Run.exec BuddyRun.step ⟨s, []⟩ calls = some c' →
      (∀ x, x ∈ c.live.map block ↔ x ∈ c'.live.map block) → c.buddy.SameTree c'.buddy
  freeAll : ∀ order : List (Nat × Nat), order.Perm c.live →
    ∃ c', Run.exec BuddyRun.step c (order.map .freePages) = some c' ∧ c'.live = []
      ∧ c'.buddy.SameTree s ∧ c'.buddy.nrFree = s.totalSize
  freeLast : ∀ n, 1 ≤ n → n ≤ c.buddy.nodeCapacity 0 →
    ∃ offset c₁ c₂, c.step (.allocPages n) = some c₁ ∧ c₁.live = (offset, n) :: c.live
      ∧ c₁.step (.freePages (offset, n)) = some c₂ ∧ c₂.live = c.live ∧ c₂.buddy.SameTree c.buddy

/--
The tree depends on the live blocks only, not on the calls that led to them.
-/
theorem tree_of_live (hm : 2 * 2 ^ m - 1 ≤ Buddy.nodes)
    (hres : ∀ p, base ≤ p → p < base + 2 ^ m → (s.pages p).reserved = true)
    : ∃ s', s.buddyInitMemmap base (2 ^ m) = some s'
        ∧ ∀ (calls : List BuddyCall) (c : BuddyRun),
            Run.Admits BuddyRun.step Legal ⟨s', []⟩ calls →
            Run.exec BuddyRun.step ⟨s', []⟩ calls = some c → TreeOfLive s' c := by
  have hm := Buddy.nodes_of_le hm
  obtain ⟨s', hinit, htotal, hstored, hnrFree⟩ := Buddy.buddyInitMemmap_spec hm hres
  have hstart := managed_init htotal hstored hnrFree
  have hmanaged : ∀ {calls c}, Run.Admits BuddyRun.step Legal ⟨s', []⟩ calls →
      Run.exec BuddyRun.step ⟨s', []⟩ calls = some c → c.Managed m := by
    intro calls c hlegal hexec
    obtain ⟨c', hexec', h⟩ := Run.exists_exec_of_admits (I := Managed m)
      (fun c call h => h.step hm) hstart hlegal
    rw [hexec, Option.some_inj] at hexec'
    exact hexec' ▸ h
  refine ⟨s', hinit, ?_⟩
  intro calls c hlegal hexec
  have h := hmanaged hlegal hexec
  constructor
  . intro calls' c' hlegal' hexec' hlive
    exact h.sameTree (hmanaged hlegal' hexec') hlive
  . intro order horder
    obtain ⟨c', hexec', hnil, h'⟩ := h.freeAll hm horder
    have hsame := h'.sameTree hstart (by simp [hnil])
    exact ⟨c', hexec', hnil, hsame, by rw [hsame.nrFree, hnrFree, htotal]⟩
  . intro n hn hroot
    obtain ⟨offset, c₁, halloc, hlive₁, h₁⟩ := h.allocPages hm hn hroot
    obtain ⟨c₂, hfree, hlive₂, h₂⟩ := h₁.freePages hm (b := (offset, n)) (by simp [hlive₁])
    have hback : c₂.live = c.live := by
      rw [hlive₂, hlive₁, List.erase_cons_head]
    exact ⟨offset, c₁, c₂, halloc, hlive₁, hfree, hback, h₂.sameTree h (by simp [hback])⟩

theorem tree_of_live_reservedPages
    : ∃ s', reservedPages.buddyInitMemmap 0 (2 ^ 4) = some s'
        ∧ ∀ (calls : List BuddyCall) (c : BuddyRun),
            Run.Admits BuddyRun.step Legal ⟨s', []⟩ calls →
            Run.exec BuddyRun.step ⟨s', []⟩ calls = some c → TreeOfLive s' c :=
  tree_of_live (by decide)
    (fun p _ _ => reservedPages_reserved p)

/--
Four requests as in `buddy_basic_check`, and the offsets that they get.
-/
example : (reservedPages.buddyInitMemmap 0 16).bind (fun s =>
      (Run.exec step ⟨s, []⟩ [.allocPages 4, .allocPages 2, .allocPages 8, .freePages (8, 8),
        .allocPages 1]).map live)
    = some [(6, 1), (4, 2), (0, 4)] := by
  decide +kernel

end BuddyRun
end Ucore

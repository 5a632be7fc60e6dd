import Mathlib
import Ucore.Lab2.Slub.Lemmas

/-!
This module contains where the objects of a page lie, what a request does with a page, and that the blocks of
different caches lie apart.
-/

namespace Ucore

namespace Slub

variable {g : Globals}

/-! The caches and the places of the objects of a page. -/

section Slab

variable {n index : Nat}

theorem cacheIndex_eq (h2 : 2 ≤ index) (h7 : index ≤ 7) (hle : n ≤ 2 ^ (index + 3))
    (hlt : 2 ^ (index + 3) < 2 * n)
    : powSize n = 2 ^ (index + 3) ∧ cacheIndex n = index := by
  have hten : 2 ^ (index + 3) ≤ 2 ^ 10 := Nat.pow_le_pow_right (by omega) (by omega)
  have hpow : powSize n = 2 ^ (index + 3) := by
    rw [powSize, Nat.mod_eq_of_lt (by omega), Buddy.convert2PowOf2_eq (by omega) hle hlt]
    exact if_neg (by omega)
  refine ⟨hpow, ?_⟩
  rw [cacheIndex, hpow]
  interval_cases index <;> decide

theorem cacheIndex_spec (h17 : 17 ≤ n) (h1024 : n ≤ 1024)
    : 2 ≤ cacheIndex n ∧ cacheIndex n ≤ 7 ∧ powSize n = 2 ^ (cacheIndex n + 3)
        ∧ n ≤ 2 ^ (cacheIndex n + 3) := by
  obtain ⟨k, -, hle, hlt⟩ := Buddy.convert2PowOf2_spec (show 0 < n by omega) (by omega)
  have hlow : 2 ^ 4 < 2 ^ k := by omega
  have hhigh : 2 ^ k < 2 ^ 11 := by omega
  have hlow := (Nat.pow_lt_pow_iff_right (by omega)).mp hlow
  have hhigh := (Nat.pow_lt_pow_iff_right (by omega)).mp hhigh
  obtain ⟨index, rfl⟩ := Nat.exists_eq_add_of_le' (show 3 ≤ k by omega)
  obtain ⟨hpow, heq⟩ := cacheIndex_eq (by omega) (by omega) hle hlt
  rw [heq]
  exact ⟨by omega, by omega, hpow, hle⟩

/--
The branch that a request takes when no page is on the partial list.
-/
theorem slubAllocPages_eq {s : Slub} (h17 : 17 ≤ n) (h1024 : n ≤ 1024)
    (hhead : pgsize ≤ g.objectListHead (cacheIndex n)) (hpartials : s.getPartialStorage (cacheIndex n) = some 0)
    : s.slubAllocPages g n
      = if s.mem (blockNext (g.objectListHead (cacheIndex n))) ≠ 0 then
          allocSeller g s (cacheIndex n)
        else
          allocPage g s (cacheIndex n) (2 ^ (cacheIndex n + 3)) n := by
  obtain ⟨-, h7, hpow, -⟩ := cacheIndex_spec h17 h1024
  unfold slubAllocPages
  rw [← hpow]
  simp only [show kmallocCachesIndex (powSize n) = cacheIndex n from rfl, if_pos (show cacheIndex n < 9 by omega),
    load_eq (blockNext_ge hhead), hpartials, Option.bind_eq_bind, Option.bind_some, ne_eq, not_true_eq_false, if_false]

theorem getPartialStorage_eq {s : Slub} (hpartials : (s.kmemCacheList index).partialHeads = 0)
    : s.getPartialStorage index = some 0 := by
  rw [getPartialStorage]
  simp [hpartials]

theorem pageNum_eq (hpos : 0 < n) (hlt : n < pgsize) : pageNum n = 1 := by
  have hzero : n / pgsize = 0 := Nat.div_eq_of_lt hlt
  unfold pageNum
  rw [hzero]
  split
  . omega
  . omega

variable {slab : Slab} {a b : Nat}

theorem mem_objects
    : a ∈ slab.objects ↔ ∃ i, 1 ≤ i ∧ i < 1 + (pgsize / 2 ^ (slab.index + 3) - 2)
        ∧ slab.page + 2 ^ (slab.index + 3) * (i + 2) = a := by
  simp only [Slab.objects, List.mem_map, List.mem_range'_1, and_assoc]

theorem objects_far (ha : a ∈ slab.objects) (hb : b ∈ slab.objects) (hne : a ≠ b)
    : a + 2 ^ (slab.index + 3) ≤ b ∨ b + 2 ^ (slab.index + 3) ≤ a := by
  obtain ⟨i, -, -, rfl⟩ := mem_objects.mp ha
  obtain ⟨j, -, -, rfl⟩ := mem_objects.mp hb
  have hstep {i j : Nat} (hlt : i < j)
      : slab.page + 2 ^ (slab.index + 3) * (i + 2) + 2 ^ (slab.index + 3)
        ≤ slab.page + 2 ^ (slab.index + 3) * (j + 2) := by
    rw [Nat.add_assoc, ← Nat.mul_succ]
    exact Nat.add_le_add_left (Nat.mul_le_mul_left _ (by omega)) _
  rcases Nat.lt_trichotomy i j with hlt | rfl | hlt
  . exact .inl (hstep hlt)
  . exact absurd rfl hne
  . exact .inr (hstep hlt)

theorem objects_nodup (slab : Slab) : slab.objects.Nodup := by
  apply List.Nodup.map _ (List.nodup_range' ..)
  intro i j heq
  have heq := Nat.eq_of_mul_eq_mul_left (Nat.two_pow_pos _) (Nat.add_left_cancel heq)
  exact Nat.add_right_cancel heq

variable (h2 : 2 ≤ slab.index) (h7 : slab.index ≤ 7)

include h2 h7

theorem le_size : 32 ≤ 2 ^ (slab.index + 3) ∧ 2 ^ (slab.index + 3) ≤ 1024 := by
  constructor
  . show 2 ^ 5 ≤ 2 ^ (slab.index + 3)
    exact Nat.pow_le_pow_right (by omega) (by omega)
  . show 2 ^ (slab.index + 3) ≤ 2 ^ 10
    exact Nat.pow_le_pow_right (by omega) (by omega)

/--
A page is cut into parts, and the last object starts at its end.
-/
theorem size_mul : 2 ^ (slab.index + 3) * (pgsize / 2 ^ (slab.index + 3)) = pgsize := by
  apply Nat.mul_div_cancel'
  exact Nat.pow_dvd_pow 2 (show slab.index + 3 ≤ 12 by omega)

theorem four_le : 4 ≤ pgsize / 2 ^ (slab.index + 3) := by
  rw [Nat.le_div_iff_mul_le (Nat.two_pow_pos _)]
  have := (le_size h2 h7).2
  unfold pgsize
  omega

theorem objects_getLast? : slab.objects.getLast? = some (slab.page + pgsize) := by
  have hfour := four_le h2 h7
  rw [Slab.objects, List.getLast?_map, List.getLast?_range', if_neg (by omega), Option.map_some, Option.some_inj,
    show 1 + (pgsize / 2 ^ (slab.index + 3) - 2) - 1 + 2 = pgsize / 2 ^ (slab.index + 3) by omega, size_mul h2 h7]

theorem objects_bounds (ha : a ∈ slab.objects)
    : slab.page + 96 ≤ a ∧ (a = slab.page + pgsize ∨ a + 2 ^ (slab.index + 3) ≤ slab.page + pgsize) := by
  have hlast : slab.page + pgsize ∈ slab.objects := List.mem_of_getLast? (objects_getLast? h2 h7)
  have hsize := le_size h2 h7
  have hfour := four_le h2 h7
  constructor
  . obtain ⟨i, hpos, -, rfl⟩ := mem_objects.mp ha
    have := Nat.mul_le_mul hsize.1 (show 3 ≤ i + 2 by omega)
    omega
  . by_cases heq : a = slab.page + pgsize
    . exact .inl heq
    . obtain ⟨i, -, hlt, rfl⟩ := mem_objects.mp ha
      have hne : i + 2 ≠ pgsize / 2 ^ (slab.index + 3) := by
        intro hi
        rw [hi, size_mul h2 h7] at heq
        exact heq rfl
      have hstep := Nat.mul_le_mul_left (2 ^ (slab.index + 3))
        (show i + 2 + 1 ≤ pgsize / 2 ^ (slab.index + 3) by omega)
      rw [size_mul h2 h7, Nat.mul_succ] at hstep
      exact .inr (by omega)

/--
What `slub_alloc_pages` does with a page: the objects are linked behind the head, and the first one is
taken off again.
-/
theorem allocPage_eq {s : Slub} {buddy : Buddy} {offset : Nat}
    (halloc : s.buddy.buddyAllocPages (pageNum n) = some (offset, buddy))
    (hpage : getPage g s.mem offset = some slab.page) (hhead : pgsize ≤ g.objectListHead slab.index)
    (hbelow : g.objectListHead slab.index + 24 ≤ slab.page)
    : ∃ x y ys mem', slab.objects = x :: y :: ys
        ∧ allocPage g s slab.index (2 ^ (slab.index + 3)) n
          = some (x, ({ s with mem := blocks.join mem' (g.objectListHead slab.index) y, buddy } : Slub).setCache
              slab.index { s.kmemCacheList slab.index with base := slab.page })
        ∧ blocks.Chain mem' (g.objectListHead slab.index) slab.objects
        ∧ ∀ a, Off (g.objectListHead slab.index) a → (∀ x ∈ slab.objects, Off x a) → mem' a = s.mem a := by
  have hsize := le_size h2 h7
  have hfour := four_le h2 h7
  obtain ⟨head, hdef⟩ : ∃ head, head = g.objectListHead slab.index := ⟨_, rfl⟩
  rw [← hdef] at hhead hbelow ⊢
  obtain ⟨powN, hpow⟩ : ∃ powN, powN = 2 ^ (slab.index + 3) := ⟨_, rfl⟩
  rw [← hpow] at hsize hfour ⊢
  have hge : pgsize ≤ slab.page + powN := by omega
  let mem₁ := Function.update (Function.update s.mem (blockNext head) 0) (blockPrev head) 0
  let mem₂ := Function.update mem₁ head (mem₁ (slab.page + powN))
  let mem₃ := Function.update mem₂ (blockNext head) (mem₂ (blockNext (slab.page + powN)))
  let mem₄ := Function.update mem₃ (blockPrev head) (mem₃ (blockPrev (slab.page + powN)))
  have hsame (a : Nat) (ha : Off head a) : mem₄ a = s.mem a := by
    unfold Off at ha
    simp only [mem₄, mem₃, mem₂, mem₁, blockNext, blockPrev]
    repeat rw [Function.update_of_ne (by omega)]
  obtain ⟨mem', hlink, hchain, hframe⟩ := linkObjects_eq slab.index (show 24 ≤ powN by omega)
    (show pgsize ≤ slab.page by omega) (pgsize / powN - 2) 1 head mem₄ hhead (by omega) (by omega)
  have hobjects : slab.objects = (List.range' 1 (pgsize / powN - 2)).map fun i => slab.page + powN * (i + 2) := by
    rw [hpow]
    rfl
  rw [← hobjects] at hchain
  obtain ⟨k, hk⟩ := Nat.exists_eq_add_of_le' (show 2 ≤ pgsize / powN - 2 by omega)
  rw [hk, List.range'_succ, List.range'_succ, List.map_cons, List.map_cons] at hobjects
  refine ⟨_, _, _, mem', hobjects, ?_, hchain, ?_⟩
  . rw [hobjects] at hchain
    have hheadNext : mem' (blockNext head) = slab.page + powN * (1 + 2) := hchain.1
    have hnext : mem' (blockNext (slab.page + powN * (1 + 2))) = slab.page + powN * (1 + 1 + 2) := hchain.2.2.1
    have hx : pgsize ≤ slab.page + powN * (1 + 2) := by omega
    have hy : pgsize ≤ slab.page + powN * (1 + 1 + 2) := by omega
    have hne : slab.page + powN * (1 + 1 + 2) ≠ 0 := by
      unfold pgsize at hy
      omega
    simp only [allocPage, halloc, hpage, ← hdef, initializeBlockHead, Option.bind_eq_bind, Option.bind_some,
      store_eq hhead, store_eq (blockNext_ge hhead), store_eq (blockPrev_ge hhead), load_eq hge,
      load_eq (blockNext_ge hge), load_eq (blockPrev_ge hge)]
    rw [hlink]
    simp only [Option.bind_some, load_eq (blockNext_ge hhead), hheadNext, load_eq (blockNext_ge hx), hnext,
      if_pos hne, store_eq (blockPrev_ge hy)]
    rfl
  . intro a ha hoff
    rw [hframe a, hsame a ha]
    . unfold Off at ha
      unfold blockNext
      omega
    . intro j hj hlt
      apply hoff
      rw [hpow]
      exact mem_objects.mpr ⟨j, hj, by rwa [← hpow], rfl⟩

end Slab

end Slub

open Slub

namespace SlubSys

variable {g : Globals} {mem mem' : Nat → Nat} {m i j : Nat} {slabs : List Slab} {slab slab' : Slab}

/--
Each cache has at most one page, and no two caches have the same one.
-/
structure Pages (g : Globals) (m : Nat) (slabs : List Slab) : Prop where
  index : ∀ slab ∈ slabs, 2 ≤ slab.index ∧ slab.index ≤ 7
  page : ∀ slab ∈ slabs, ∃ k, 0 < k ∧ k < 2 ^ m ∧ slab.page = g.page k
  nodupPage : (slabs.map Slab.page).Nodup
  nodupIndex : (slabs.map Slab.index).Nodup

/--
The blocks that may be on the list of a seller: its head and the objects of its page.
-/
inductive Node (g : Globals) (slabs : List Slab) (i : Nat) : Nat → Prop where
  | head : Node g slabs i (g.objectListHead i)
  | object {slab : Slab} {a : Nat} (hslab : slab ∈ slabs) (hindex : slab.index = i) (ha : a ∈ slab.objects)
    : Node g slabs i a

theorem Pages.eq_of_index (h : Pages g m slabs) (hslab : slab ∈ slabs) (hslab' : slab' ∈ slabs)
    (heq : slab.index = slab'.index)
    : slab = slab' :=
  List.inj_on_of_nodup_map h.nodupIndex hslab hslab' heq

/--
Pages of different caches do not overlap.
-/
theorem Pages.far (h : Pages g m slabs) (hslab : slab ∈ slabs) (hslab' : slab' ∈ slabs)
    (hne : slab.index ≠ slab'.index)
    : slab.page + pgsize ≤ slab'.page ∨ slab'.page + pgsize ≤ slab.page := by
  obtain ⟨k, -, -, hk⟩ := h.page slab hslab
  obtain ⟨k', -, -, hk'⟩ := h.page slab' hslab'
  have hne : k ≠ k' := by
    rintro rfl
    have heq := List.inj_on_of_nodup_map h.nodupPage hslab hslab' (hk.trans hk'.symm)
    exact hne (congrArg Slab.index heq)
  rw [hk, hk']
  unfold Globals.page pgsize
  omega

theorem Pages.base_le (h : Pages g m slabs) (hslab : slab ∈ slabs) : g.base + pgsize ≤ slab.page := by
  obtain ⟨k, hpos, -, hk⟩ := h.page slab hslab
  rw [hk]
  unfold Globals.page pgsize
  omega

/--
Where the objects of a page lie.
-/
theorem Pages.object (h : Pages g m slabs) (hslab : slab ∈ slabs) {a : Nat} (ha : a ∈ slab.objects)
    : slab.page + 96 ≤ a ∧ (a = slab.page + pgsize ∨ a + 2 ^ (slab.index + 3) ≤ slab.page + pgsize)
        ∧ 32 ≤ 2 ^ (slab.index + 3) := by
  obtain ⟨h2, h7⟩ := h.index slab hslab
  obtain ⟨hlow, hhigh⟩ := objects_bounds h2 h7 ha
  exact ⟨hlow, hhigh, (le_size h2 h7).1⟩

theorem Pages.ge (h : Pages g m slabs) {x : Nat} (hx : Node g slabs i x) : pgsize ≤ x := by
  cases hx with
  | head =>
    have := g.kmemCacheList_ge
    unfold Globals.objectListHead
    omega
  | object hslab _ ha =>
    have := h.base_le hslab
    have := h.object hslab ha
    omega

/--
Blocks of different caches.
-/
theorem Pages.far_of_ne (h : Pages g m slabs) (hi : i < 9) (hj : j < 9) (hne : i ≠ j) {x y : Nat}
    (hx : Node g slabs i x) (hy : Node g slabs j y)
    : Far x y := by
  have hbelow := g.kmemCacheList_le
  unfold Far
  cases hx with
  | head =>
    cases hy with
    | head =>
      unfold Globals.objectListHead
      omega
    | object hslab _ hb =>
      have := h.base_le hslab
      have := h.object hslab hb
      unfold Globals.objectListHead
      omega
  | object hslab hindex ha =>
    have hbase := h.base_le hslab
    have hobject := h.object hslab ha
    cases hy with
    | head =>
      unfold Globals.objectListHead
      omega
    | object hslab' hindex' hb =>
      have := h.object hslab' hb
      have := h.far hslab hslab' (by rwa [hindex, hindex'])
      unfold pgsize at *
      omega

/--
Blocks of the same cache.
-/
theorem Pages.far_of_eq (h : Pages g m slabs) (hi : i < 9) {x y : Nat} (hx : Node g slabs i x)
    (hy : Node g slabs i y) (hne : x ≠ y)
    : Far x y := by
  have hbelow := g.kmemCacheList_le
  unfold Far
  cases hx with
  | head =>
    cases hy with
    | head => exact absurd rfl hne
    | object hslab _ hb =>
      have := h.base_le hslab
      have := h.object hslab hb
      unfold Globals.objectListHead
      omega
  | object hslab hindex ha =>
    have := h.object hslab ha
    cases hy with
    | head =>
      have := h.base_le hslab
      unfold Globals.objectListHead
      omega
    | object hslab' hindex' hb =>
      obtain rfl := h.eq_of_index hslab hslab' (hindex.trans hindex'.symm)
      have := objects_far ha hb hne
      omega

/--
An object belongs to one page.
-/
theorem Pages.eq_of_mem (h : Pages g m slabs) (hslab : slab ∈ slabs) (hslab' : slab' ∈ slabs) {a : Nat}
    (ha : a ∈ slab.objects) (ha' : a ∈ slab'.objects)
    : slab = slab' := by
  apply h.eq_of_index hslab hslab'
  by_contra hne
  have hindex := h.index slab hslab
  have hindex' := h.index slab' hslab'
  have hfar := h.far_of_ne (by omega) (by omega) hne (.object hslab rfl ha) (.object hslab' rfl ha')
  unfold Far at hfar
  omega

/--
The links of the pages lie outside of all blocks.
-/
theorem Pages.off_link (h : Pages g m slabs) (hi : i < 9) {x : Nat} (hx : Node g slabs i x) (k : Nat)
    : Off x (linkNext (linkOf g k)) := by
  have hbelow := g.kmemCacheList_le
  have hapart := g.apart
  have hfree := g.freeList_le
  unfold Off
  cases hx with
  | head =>
    cases k with
    | zero =>
      simp only [linkNext, linkOf, Globals.objectListHead]
      omega
    | succ k =>
      simp only [linkNext, linkOf, pageLink, Globals.page, Globals.objectListHead]
      omega
  | object hslab _ ha =>
    obtain ⟨k', hpos, -, hk'⟩ := h.page _ hslab
    have hobject := h.object hslab ha
    rw [hk'] at hobject
    cases k with
    | zero =>
      simp only [linkNext, linkOf, Globals.page, pgsize] at *
      omega
    | succ k =>
      simp only [linkNext, linkOf, pageLink, Globals.page, pgsize] at *
      omega

/--
`mem'` differs from `mem` in the headers of the blocks of one cache only.
-/
def SameOff (g : Globals) (slabs : List Slab) (i : Nat) (mem mem' : Nat → Nat) : Prop :=
  ∀ a, (∀ x, Node g slabs i x → Off x a) → mem' a = mem a

theorem Pages.linked (h : Pages g m slabs) (hi : i < 9) (hsame : SameOff g slabs i mem mem') {total : Nat}
    (hlinked : Linked g mem total)
    : Linked g mem' total := by
  intro k hk
  rw [hsame _ fun x hx => h.off_link hi hx k]
  exact hlinked k hk

theorem Pages.chain (h : Pages g m slabs) (hi : i < 9) (hj : j < 9) (hne : j ≠ i)
    (hsame : SameOff g slabs i mem mem') {xs : List Nat} (hchain : blocks.Chain mem (g.objectListHead j) xs)
    (hxs : ∀ x ∈ xs, Node g slabs j x)
    : blocks.Chain mem' (g.objectListHead j) xs := by
  apply chain_congr_of_off hchain
  intro x hx a ha
  have hnode : Node g slabs j x := by
    cases List.mem_cons.mp hx with
    | inl heq => exact heq ▸ .head
    | inr hmem => exact hxs x hmem
  apply hsame
  intro y hy
  have hfar := h.far_of_ne hj hi hne hnode hy
  unfold Far at hfar
  unfold Off at ha ⊢
  omega

theorem Pages.head_le (h : Pages g m slabs) (hslab : slab ∈ slabs) (hi : i < 9) {a : Nat} (ha : a ∈ slab.objects)
    : g.objectListHead i + 24 ≤ a := by
  have hbase := h.base_le hslab
  have hobject := h.object hslab ha
  have hbelow := g.kmemCacheList_le
  unfold Globals.objectListHead
  omega

/--
The first of at least two objects is taken off the list of a seller.
-/
theorem Pages.join (h : Pages g m slabs) (hslab : slab ∈ slabs) {x y : Nat} {ys : List Nat}
    (hobjects : ∀ z ∈ x :: y :: ys, z ∈ slab.objects) (hnodup : (x :: y :: ys).Nodup)
    (hchain : blocks.Chain mem (g.objectListHead slab.index) (x :: y :: ys))
    : blocks.Chain (blocks.join mem (g.objectListHead slab.index) y) (g.objectListHead slab.index) (y :: ys)
      ∧ SameOff g slabs slab.index mem (blocks.join mem (g.objectListHead slab.index) y) := by
  have hindex := h.index slab hslab
  have hi : slab.index < 9 := by omega
  have hnode : ∀ z ∈ g.objectListHead slab.index :: x :: y :: ys, Node g slabs slab.index z := by
    intro z hz
    cases List.mem_cons.mp hz with
    | inl heq => exact heq ▸ .head
    | inr hmem => exact .object hslab rfl (hobjects z hmem)
  have hsep : blocks.Separate (g.objectListHead slab.index :: x :: y :: ys) :=
    separate_of_far fun z hz z' hz' hne => h.far_of_eq hi (hnode z hz) (hnode z' hz') hne
  constructor
  . apply hchain.join hsep
    . intro z hz
      simp only [List.mem_cons] at hz ⊢
      tauto
    . rw [List.nodup_cons]
      refine ⟨?_, (List.nodup_cons.mp hnodup).2⟩
      intro hmem
      have := h.head_le hslab hi (hobjects _ (List.mem_cons_of_mem _ hmem))
      omega
  . intro a ha
    exact join_of_off (ha _ .head) (ha y (hnode y (by simp)))

end SlubSys
end Ucore

import Ucore.Lab2.Slub.Pages

/-!
This module contains the invariant of the slub allocator: what the lists of the sellers hold, which objects
clients hold, and that requests and frees keep both.
-/

namespace Ucore

open Slub

namespace SlubSys

variable {g : Globals} {mem' : Nat → Nat} {m i j : Nat} {slabs : List Slab} {slab slab' : Slab}

/--
The blocks that the buddy allocator has handed out: the page that is reserved and the given ones.
-/
def taken (offsets : List Nat) : List (Nat × Nat) := (offsets ++ [0]).map fun offset => (offset, 1)

/--
The list of the seller of a page: objects of the page, and at its end the one that starts at the end of
the page.
-/
structure Sells (slab : Slab) (xs : List Nat) : Prop where
  objects : ∀ x ∈ xs, x ∈ slab.objects
  last : xs.getLast? = some (slab.page + pgsize)
  nodup : xs.Nodup

/--
A client holds an object of a page, and the seller does not have it.
-/
structure Holds (slab : Slab) (xs : List Nat) (o : Nat × Nat) : Prop where
  index : slab.index = cacheIndex o.2
  object : o.1 ∈ slab.objects
  size : o.2 ≤ 2 ^ (slab.index + 3)
  notMem : o.1 ∉ xs

/--
The invariant of runs in which requests are of the kind `Served`: `seller` gives the list of each cache,
and the full lists and the partial lists stay empty.
-/
structure Inv (g : Globals) (m : Nat) (seller : Nat → List Nat) (c : SlubSys) : Prop where
  total : c.slub.buddy.totalSize = 2 ^ m
  tree : ∃ offsets : List Nat, c.slabs.map Slab.page = offsets.map g.page ∧ BuddyRun.Placed m (taken offsets)
    ∧ BuddyTree.Stored m (BuddyRun.used m (taken offsets)) (Buddy.nodeAt c.slub.buddy.nodeCapacity)
  pages : Pages g m c.slabs
  linked : Linked g c.slub.mem (2 ^ m)
  storage : ∀ i < 9, (c.slub.kmemCacheList i).partialHeads = 0 ∧ (c.slub.kmemCacheList i).partialNum = 0
    ∧ (c.slub.kmemCacheList i).fullHeads = 0 ∧ (c.slub.kmemCacheList i).fullNum = 0
  chain : ∀ i < 9, blocks.Chain c.slub.mem (g.objectListHead i) (seller i)
  idle : ∀ i < 9, (∀ slab ∈ c.slabs, slab.index ≠ i) → (c.slub.kmemCacheList i).base = 0 ∧ seller i = []
  slab : ∀ slab ∈ c.slabs, slab.pages = 1 ∧ (c.slub.kmemCacheList slab.index).base = slab.page
    ∧ Sells slab (seller slab.index)
  live : ∀ o ∈ c.live, ∃ slab ∈ c.slabs, Holds slab (seller slab.index) o
  nodup : (c.live.map Prod.fst).Nodup

/--
Each object of a page is on the list of the seller or with a client.
-/
def Complete (seller : Nat → List Nat) (c : SlubSys) : Prop :=
  ∀ slab ∈ c.slabs, ∀ a ∈ slab.objects, a ∈ seller slab.index ∨ a ∈ c.live.map Prod.fst

variable {c : SlubSys} {seller : Nat → List Nat} {o : Nat × Nat} {n : Nat}

theorem Inv.node (h : Inv g m seller c) (hi : i < 9) {x : Nat} (hx : x ∈ seller i) : Node g c.slabs i x := by
  by_cases hidle : ∀ slab ∈ c.slabs, slab.index ≠ i
  . rw [(h.idle i hi hidle).2] at hx
    cases hx
  . push Not at hidle
    obtain ⟨slab, hslab, rfl⟩ := hidle
    exact .object hslab rfl ((h.slab slab hslab).2.2.objects x hx)

theorem Inv.exists_slab (h : Inv g m seller c) (hi : i < 9) (hne : seller i ≠ [])
    : ∃ slab ∈ c.slabs, slab.index = i := by
  by_contra hidle
  push Not at hidle
  exact hne (h.idle i hi hidle).2

/--
An object that is held does not start at the end of its page.
-/
theorem Inv.held (h : Inv g m seller c) (hslab : slab ∈ c.slabs) (ho : Holds slab (seller slab.index) o)
    : slab.page + 96 ≤ o.1 ∧ o.1 + 2 ^ (slab.index + 3) ≤ slab.page + pgsize := by
  obtain ⟨hlow, hhigh, -⟩ := h.pages.object hslab ho.object
  refine ⟨hlow, hhigh.resolve_left ?_⟩
  intro heq
  apply ho.notMem
  rw [heq]
  exact List.mem_of_getLast? (h.slab slab hslab).2.2.last

/--
What changes only the memory, in the blocks of one cache, and the objects that clients hold.
-/
theorem Inv.change (h : Inv g m seller c) (hslab : slab ∈ c.slabs) (live : List (Nat × Nat)) {xs : List Nat}
    (hsame : SameOff g c.slabs slab.index c.slub.mem mem')
    (hchain : blocks.Chain mem' (g.objectListHead slab.index) xs)
    (hsells : Sells slab xs) (hlive : ∀ o ∈ live, o ∈ c.live ∨ Holds slab xs o)
    (hkeep : ∀ o ∈ live, o.1 ∈ xs → o.1 ∈ seller slab.index) (hnodup : (live.map Prod.fst).Nodup)
    : Inv g m (Function.update seller slab.index xs) { c with slub := { c.slub with mem := mem' }, live } := by
  have hindex := h.pages.index slab hslab
  have hi : slab.index < 9 := by omega
  constructor
  . exact h.total
  . exact h.tree
  . exact h.pages
  . exact h.pages.linked hi hsame h.linked
  . exact h.storage
  . intro j hj
    by_cases heq : j = slab.index
    . rw [heq, Function.update_self]
      exact hchain
    . rw [Function.update_of_ne heq]
      exact h.pages.chain hi hj heq hsame (h.chain j hj) fun x hx => h.node hj hx
  . intro j hj hidle
    rw [Function.update_of_ne (hidle slab hslab).symm]
    exact h.idle j hj hidle
  . intro slab' hslab'
    obtain ⟨hpages, hbase, hsells'⟩ := h.slab slab' hslab'
    refine ⟨hpages, hbase, ?_⟩
    by_cases heq : slab'.index = slab.index
    . obtain rfl := h.pages.eq_of_index hslab' hslab heq
      rwa [Function.update_self]
    . rwa [Function.update_of_ne heq]
  . intro o ho
    cases hlive o ho with
    | inl hold =>
      obtain ⟨slab', hslab', hholds⟩ := h.live o hold
      refine ⟨slab', hslab', hholds.index, hholds.object, hholds.size, ?_⟩
      by_cases heq : slab'.index = slab.index
      . obtain rfl := h.pages.eq_of_index hslab' hslab heq
        rw [Function.update_self]
        intro hmem
        exact hholds.notMem (hkeep o ho hmem)
      . rw [Function.update_of_ne heq]
        exact hholds.notMem
    | inr hnew =>
      refine ⟨slab, hslab, ?_⟩
      rwa [Function.update_self]
  . exact hnodup

/--
Objects that no client holds but a seller has.
-/
theorem Inv.not_live (h : Inv g m seller c) (hslab : slab ∈ c.slabs) {x : Nat} (hx : x ∈ seller slab.index)
    : x ∉ c.live.map Prod.fst := by
  intro hmem
  obtain ⟨o, ho, rfl⟩ := List.mem_map.mp hmem
  obtain ⟨slab', hslab', hholds⟩ := h.live o ho
  obtain rfl := h.pages.eq_of_mem hslab' hslab hholds.object ((h.slab slab hslab).2.2.objects _ hx)
  exact hholds.notMem hx

theorem Inv.getPartialStorage (h : Inv g m seller c) (hi : i < 9) : c.slub.getPartialStorage i = some 0 :=
  getPartialStorage_eq (h.storage i hi).1

/--
A request that the seller serves.
-/
theorem Inv.alloc_of_ne (h : Inv g m seller c) (hserved : Served g c.slub n)
    (hne : c.slub.mem (blockNext (g.objectListHead (cacheIndex n))) ≠ 0)
    : ∃ c' seller', step g c (.alloc n) = some c' ∧ Inv g m seller' c'
        ∧ (Complete seller c → Complete seller' c') := by
  obtain ⟨h17, h1024, hmore⟩ := hserved
  rw [if_neg hne] at hmore
  obtain ⟨h2, h7, -, hsize⟩ := cacheIndex_spec h17 h1024
  have hi : cacheIndex n < 9 := by omega
  have hchain := h.chain (cacheIndex n) hi
  cases hseller : seller (cacheIndex n) with
  | nil =>
    rw [hseller] at hchain
    exact absurd hchain hne
  | cons x rest =>
    obtain ⟨slab, hslab, hindex⟩ := h.exists_slab (i := cacheIndex n) (by omega) (by simp [hseller])
    rw [← hindex] at hseller hne hchain hmore
    rw [hseller] at hchain
    have hx : c.slub.mem (blockNext (g.objectListHead slab.index)) = x := hchain.1
    cases rest with
    | nil =>
      rw [hx] at hmore
      exact absurd hchain.2.2 hmore
    | cons y ys =>
      have hge (z : Nat) (hz : z ∈ x :: y :: ys) : pgsize ≤ z := h.pages.ge (h.node (by omega) (hseller ▸ hz))
      have halloc := allocSeller_cons (h.pages.ge .head) hge hchain
      obtain ⟨-, -, hsells⟩ := h.slab slab hslab
      have hxNot := h.not_live hslab (x := x) (by simp [hseller])
      rw [hseller] at hsells
      obtain ⟨hchain', hsame⟩ := h.pages.join hslab hsells.objects hsells.nodup hchain
      have hsells' : Sells slab (y :: ys) := by
        refine ⟨fun z hz => hsells.objects z (List.mem_cons_of_mem _ hz), ?_, (List.nodup_cons.mp hsells.nodup).2⟩
        rw [← hsells.last, List.getLast?_cons_cons]
      have hinv := h.change hslab ((x, n) :: c.live) hsame hchain' hsells' ?_ ?_ ?_
      . refine ⟨_, _, ?_, hinv, ?_⟩
        . have hgets : ¬GetsPage g c.slub n := by
            rintro ⟨hzero, -⟩
            rw [hindex] at hne
            exact hne hzero
          rw [hindex] at hne halloc
          rw [SlubSys.step, slubAllocPages_eq h17 h1024 (h.pages.ge .head) (h.getPartialStorage hi), if_pos hne,
            halloc]
          simp only [Option.bind_eq_bind, Option.bind_some, if_neg hgets, hindex]
          rfl
        . intro hcomplete slab' hslab' a ha
          have hold := hcomplete slab' hslab' a ha
          rw [List.map_cons, List.mem_cons]
          by_cases heq : slab'.index = slab.index
          . rw [heq, hseller, List.mem_cons] at hold
            rw [heq, Function.update_self]
            rcases hold with (rfl | hmem) | hmem
            . exact .inr (.inl rfl)
            . exact .inl hmem
            . exact .inr (.inr hmem)
          . rw [Function.update_of_ne heq]
            exact hold.imp_right .inr
      . intro o ho
        cases List.mem_cons.mp ho with
        | inl heq =>
          subst heq
          refine .inr ⟨hindex, hsells.objects x (List.mem_cons_self ..), hindex ▸ hsize, ?_⟩
          exact (List.nodup_cons.mp hsells.nodup).1
        | inr hold => exact .inl hold
      . intro o _ hmem
        rw [hseller]
        exact List.mem_cons_of_mem _ hmem
      . rw [List.map_cons, List.nodup_cons]
        exact ⟨hxNot, h.nodup⟩

/--
The pages that are taken are distinct pages of the tree.
-/
theorem placed_taken {offsets : List Nat} (h : BuddyRun.Placed m (taken offsets))
    : (offsets ++ [0]).Nodup ∧ ∀ offset ∈ offsets, offset < 2 ^ m := by
  have hblock (offset : Nat) : BuddyRun.block (offset, 1) = (offset, 1) := by
    rw [BuddyRun.block, Buddy.convert2PowOf2_one]
  constructor
  . have hapart := h.apart
    rw [taken, List.pairwise_map] at hapart
    apply hapart.imp
    intro k k' hk
    rw [hblock, hblock] at hk
    rintro rfl
    unfold BuddyRun.Apart at hk
    omega
  . intro offset hoffset
    have hmem : (offset, 1) ∈ taken offsets := List.mem_map.mpr ⟨offset, by simp [hoffset], rfl⟩
    obtain ⟨l, k, hnode⟩ := h.isBlock _ hmem
    have hle := hnode.le
    rw [hblock] at hle
    exact hle

theorem page_injective (g : Globals) : Function.Injective g.page := by
  intro k k' heq
  unfold Globals.page pgsize at heq
  omega

/--
A page that the buddy allocator hands out to a cache that has none.
-/
theorem Pages.cons (h : Pages g m slabs) (slab : Slab) {offsets : List Nat} {offset : Nat}
    (hmap : slabs.map Slab.page = offsets.map g.page) (hplaced : BuddyRun.Placed m (taken (offset :: offsets)))
    (hpage : slab.page = g.page offset) (hindex : 2 ≤ slab.index ∧ slab.index ≤ 7)
    (hnew : ∀ slab' ∈ slabs, slab'.index ≠ slab.index)
    : Pages g m (slab :: slabs) ∧ 0 < offset ∧ offset < 2 ^ m := by
  obtain ⟨hnodup, hlt⟩ := placed_taken hplaced
  rw [List.cons_append, List.nodup_cons, List.mem_append, List.mem_singleton, not_or] at hnodup
  obtain ⟨⟨hnotMem, hzero⟩, -⟩ := hnodup
  have hpos : 0 < offset := Nat.pos_of_ne_zero hzero
  have hlt := hlt offset (List.mem_cons_self ..)
  refine ⟨?_, hpos, hlt⟩
  constructor
  . intro slab' hslab'
    cases List.mem_cons.mp hslab' with
    | inl heq => exact heq ▸ hindex
    | inr hmem => exact h.index slab' hmem
  . intro slab' hslab'
    cases List.mem_cons.mp hslab' with
    | inl heq => exact ⟨offset, hpos, hlt, heq ▸ hpage⟩
    | inr hmem => exact h.page slab' hmem
  . rw [List.map_cons, List.nodup_cons]
    refine ⟨?_, h.nodupPage⟩
    rw [hmap, hpage, List.mem_map_of_injective (page_injective g)]
    exact hnotMem
  . rw [List.map_cons, List.nodup_cons]
    refine ⟨?_, h.nodupIndex⟩
    intro hmem
    obtain ⟨slab', hslab', heq⟩ := List.mem_map.mp hmem
    exact hnew slab' hslab' heq

/--
What gives a cache its page and a client the first object of it.
-/
theorem Inv.add (h : Inv g m seller c) {buddy : Buddy} {offsets : List Nat} {xs : List Nat}
    (htotal : buddy.totalSize = 2 ^ m) (hmap : (slab :: c.slabs).map Slab.page = offsets.map g.page)
    (hplaced : BuddyRun.Placed m (taken offsets))
    (hstored : BuddyTree.Stored m (BuddyRun.used m (taken offsets)) (Buddy.nodeAt buddy.nodeCapacity))
    (hpages : Pages g m (slab :: c.slabs)) (hone : slab.pages = 1)
    (hsame : SameOff g (slab :: c.slabs) slab.index c.slub.mem mem')
    (hchain : blocks.Chain mem' (g.objectListHead slab.index) xs) (hsells : Sells slab xs) (ho : Holds slab xs o)
    : Inv g m (Function.update seller slab.index xs)
        ⟨({ c.slub with mem := mem', buddy } : Slub).setCache slab.index
          { c.slub.kmemCacheList slab.index with base := slab.page }, o :: c.live, slab :: c.slabs⟩ := by
  have hslab : slab ∈ slab :: c.slabs := List.mem_cons_self ..
  have hindex := hpages.index slab hslab
  have hi : slab.index < 9 := by omega
  have hother : ∀ slab' ∈ c.slabs, slab'.index ≠ slab.index := by
    intro slab' hslab' heq
    have hnodup := hpages.nodupIndex
    rw [List.map_cons, List.nodup_cons] at hnodup
    exact hnodup.1 (heq ▸ List.mem_map_of_mem hslab')
  constructor
  . exact htotal
  . exact ⟨offsets, hmap, hplaced, hstored⟩
  . exact hpages
  . exact hpages.linked hi hsame h.linked
  . intro j hj
    by_cases heq : j = slab.index
    . simp only [setCache, heq, Function.update_self]
      exact h.storage slab.index hi
    . simp only [setCache, Function.update_of_ne heq]
      exact h.storage j hj
  . intro j hj
    by_cases heq : j = slab.index
    . rw [heq, Function.update_self]
      exact hchain
    . rw [Function.update_of_ne heq]
      apply hpages.chain hi hj heq hsame (h.chain j hj)
      intro x hx
      cases h.node hj hx with
      | head => exact .head
      | object hslab' hindex' hx => exact .object (List.mem_cons_of_mem _ hslab') hindex' hx
  . intro j hj hidle
    have hne := (hidle slab hslab).symm
    simp only [setCache, Function.update_of_ne hne]
    apply h.idle j hj
    intro slab' hslab'
    exact hidle slab' (List.mem_cons_of_mem _ hslab')
  . intro slab' hslab'
    cases List.mem_cons.mp hslab' with
    | inl heq =>
      subst heq
      simp only [setCache, Function.update_self]
      exact ⟨hone, trivial, hsells⟩
    | inr hmem =>
      simp only [setCache, Function.update_of_ne (hother slab' hmem)]
      exact h.slab slab' hmem
  . intro o' ho'
    cases List.mem_cons.mp ho' with
    | inl heq =>
      refine ⟨slab, hslab, ?_⟩
      rw [Function.update_self, heq]
      exact ho
    | inr hmem =>
      obtain ⟨slab', hslab', hholds⟩ := h.live o' hmem
      refine ⟨slab', List.mem_cons_of_mem _ hslab', ?_⟩
      rwa [Function.update_of_ne (hother slab' hslab')]
  . rw [List.map_cons, List.nodup_cons]
    refine ⟨?_, h.nodup⟩
    intro hmem
    obtain ⟨o', ho', heq⟩ := List.mem_map.mp hmem
    obtain ⟨slab', hslab', hholds⟩ := h.live o' ho'
    have hobject := hholds.object
    rw [heq] at hobject
    apply hother slab' hslab'
    rw [hpages.eq_of_mem (List.mem_cons_of_mem _ hslab') hslab hobject ho.object]

/--
A request that needs a page.
-/
theorem Inv.alloc_of_eq (hm : 2 ^ (m + 1) ≤ Buddy.nodes) (h : Inv g m seller c) (hserved : Served g c.slub n)
    (hzero : c.slub.mem (blockNext (g.objectListHead (cacheIndex n))) = 0)
    : ∃ c' seller', step g c (.alloc n) = some c' ∧ Inv g m seller' c'
        ∧ (Complete seller c → Complete seller' c') := by
  obtain ⟨h17, h1024, hroot⟩ := hserved
  rw [if_pos hzero] at hroot
  obtain ⟨h2, h7, -, hsize⟩ := cacheIndex_spec h17 h1024
  have hi : cacheIndex n < 9 := by omega
  have hnil : seller (cacheIndex n) = [] := by
    cases hseller : seller (cacheIndex n) with
    | nil => rfl
    | cons x xs =>
      have hchain := h.chain (cacheIndex n) hi
      rw [hseller] at hchain
      have hx := h.pages.ge (h.node (x := x) hi (by simp [hseller]))
      have heq : c.slub.mem (blockNext (g.objectListHead (cacheIndex n))) = x := hchain.1
      unfold pgsize at hx
      omega
  have hnew : ∀ slab' ∈ c.slabs, slab'.index ≠ cacheIndex n := by
    intro slab' hslab' heq
    have hlast := (h.slab slab' hslab').2.2.last
    rw [heq, hnil] at hlast
    cases hlast
  obtain ⟨offsets, hmap, hplaced, hstored⟩ := h.tree
  obtain ⟨offset, k, buddy, halloc, htotal, hplaced', hstored', -, -⟩ :=
    hplaced.allocPages hm h.total hstored (Nat.le_refl 1) hroot
  have htaken : (offset, 1) :: taken offsets = taken (offset :: offsets) := rfl
  rw [htaken] at hplaced' hstored'
  have hpageNum : pageNum n = 1 := pageNum_eq (by omega) (by unfold pgsize; omega)
  let slab : Slab := ⟨cacheIndex n, g.page offset, 1⟩
  obtain ⟨hpages, hpos, hlt⟩ := h.pages.cons slab hmap hplaced' rfl ⟨h2, h7⟩ hnew
  have hbase := hpages.base_le (List.mem_cons_self ..)
  have hbelow : g.objectListHead slab.index + 24 ≤ slab.page := by
    have := g.kmemCacheList_le
    unfold Globals.objectListHead
    simp only [slab] at hbase ⊢
    omega
  have hpage : getPage g c.slub.mem offset = some slab.page := getPage_eq h.linked hpos hlt
  have hslab : slab ∈ slab :: c.slabs := List.mem_cons_self ..
  obtain ⟨x, y, ys, mem', hobjects, heq, hchain, hframe⟩ := allocPage_eq (hpages.index slab hslab).1
    (hpages.index slab hslab).2 (hpageNum ▸ halloc) hpage (h.pages.ge .head) hbelow
  have hnodup := objects_nodup slab
  have hlast := objects_getLast? (hpages.index slab hslab).1 (hpages.index slab hslab).2
  have hmem : ∀ z ∈ x :: y :: ys, z ∈ slab.objects := by
    intro z hz
    exact hobjects ▸ hz
  rw [hobjects] at hnodup hlast hchain
  obtain ⟨hchain', hsame'⟩ := hpages.join hslab hmem hnodup hchain
  have hsame : SameOff g (slab :: c.slabs) slab.index c.slub.mem
      (blocks.join mem' (g.objectListHead slab.index) y) := by
    intro a ha
    rw [hsame' a ha]
    exact hframe a (ha _ .head) fun z hz => ha z (.object hslab rfl hz)
  have hsells : Sells slab (y :: ys) := by
    refine ⟨fun z hz => hmem z (List.mem_cons_of_mem _ hz), ?_, (List.nodup_cons.mp hnodup).2⟩
    rw [← hlast, List.getLast?_cons_cons]
  have hholds : Holds slab (y :: ys) (x, n) :=
    ⟨rfl, hmem x (List.mem_cons_self ..), hsize, (List.nodup_cons.mp hnodup).1⟩
  have hmap' : (slab :: c.slabs).map Slab.page = (offset :: offsets).map g.page := by
    rw [List.map_cons, List.map_cons, hmap]
  refine ⟨_, _, ?_, h.add htotal hmap' hplaced' hstored' hpages rfl hsame hchain' hsells hholds, ?_⟩
  . have hgets : GetsPage g c.slub n := ⟨hzero, h.getPartialStorage hi, hpageNum ▸ hroot⟩
    have hne : ¬c.slub.mem (blockNext (g.objectListHead (cacheIndex n))) ≠ 0 := not_not.mpr hzero
    rw [SlubSys.step, slubAllocPages_eq h17 h1024 (h.pages.ge .head) (h.getPartialStorage hi), if_neg hne]
    have heq : Slub.allocPage g c.slub (cacheIndex n) (2 ^ (cacheIndex n + 3)) n = _ := heq
    rw [heq]
    simp only [Option.bind_eq_bind, Option.bind_some, if_pos hgets, show slab.index = cacheIndex n from rfl, setCache,
      Function.update_self, hpageNum]
    rfl
  . intro hcomplete slab' hslab' a ha
    rw [List.map_cons, List.mem_cons]
    cases List.mem_cons.mp hslab' with
    | inl heq =>
      subst heq
      rw [Function.update_self]
      rw [hobjects] at ha
      cases List.mem_cons.mp ha with
      | inl heq => exact .inr (.inl heq)
      | inr hmem => exact .inl hmem
    | inr hold =>
      rw [Function.update_of_ne (hnew slab' hold)]
      exact (hcomplete slab' hold a ha).imp_right .inr

/--
A request of the kind `Served`.
-/
theorem Inv.alloc (hm : 2 ^ (m + 1) ≤ Buddy.nodes) (h : Inv g m seller c) (hserved : Served g c.slub n)
    : ∃ c' seller', step g c (.alloc n) = some c' ∧ Inv g m seller' c'
        ∧ (Complete seller c → Complete seller' c') := by
  by_cases hzero : c.slub.mem (blockNext (g.objectListHead (cacheIndex n))) = 0
  . exact h.alloc_of_eq hm hserved hzero
  . exact h.alloc_of_ne hserved hzero

theorem Inv.getStorage (h : Inv g m seller c) (hi : i < 9) (object : Nat)
    : c.slub.getStorageFull i object = some 0 ∧ c.slub.getStoragePartial i object = some 0 := by
  obtain ⟨-, hpartials, -, hfull⟩ := h.storage i hi
  rw [getStorageFull, getStoragePartial, hpartials, hfull]
  exact ⟨rfl, rfl⟩

theorem live_erase (hnodup : (c.live.map Prod.fst).Nodup) (ho : o ∈ c.live)
    : ((c.live.erase o).map Prod.fst).Nodup ∧ ∀ o' ∈ c.live.erase o, o' ∈ c.live ∧ o'.1 ≠ o.1 := by
  have hperm := (List.perm_cons_erase ho).map Prod.fst
  have hnodup' := hperm.nodup_iff.mp hnodup
  rw [List.map_cons, List.nodup_cons] at hnodup'
  refine ⟨hnodup'.2, ?_⟩
  intro o' ho'
  refine ⟨List.mem_of_mem_erase ho', ?_⟩
  intro heq
  exact hnodup'.1 (heq ▸ List.mem_map_of_mem ho')

/--
An object that is freed with the number of another cache in its field `size`: no list gets it.
-/
theorem Inv.free_of_ne (h : Inv g m seller c) (ho : o ∈ c.live) (hsize : loadSize c.slub.mem o.1 = some i)
    (hi : i < 9) (hne : i ≠ cacheIndex o.2)
    : ∃ c', step g c (.free o) = some c' ∧ Inv g m seller c' := by
  obtain ⟨hnodup, herase⟩ := live_erase h.nodup ho
  obtain ⟨slab, hslab, hholds⟩ := h.live o ho
  have hheld := h.held hslab hholds
  have hpos := Nat.two_pow_pos (slab.index + 3)
  have hnot : ¬((c.slub.kmemCacheList i).base ≤ o.1 ∧ o.1 < (c.slub.kmemCacheList i).base + pgsize) := by
    by_cases hidle : ∀ slab' ∈ c.slabs, slab'.index ≠ i
    . have := h.pages.base_le hslab
      rw [(h.idle i hi hidle).1]
      omega
    . push Not at hidle
      obtain ⟨slab', hslab', rfl⟩ := hidle
      have := h.pages.far hslab hslab' (by rw [hholds.index]; exact hne.symm)
      rw [(h.slab slab' hslab').2.1]
      omega
  obtain ⟨hfull, hpartials⟩ := h.getStorage hi o.1
  refine ⟨{ c with live := c.live.erase o }, ?_, ?_⟩
  . rw [SlubSys.step, slubFreePages, hsize]
    simp only [Option.bind_eq_bind, Option.bind_some, if_pos hi, hfull, hpartials, if_neg hnot, ne_eq,
      not_true_eq_false, if_false]
    rfl
  . constructor
    . exact h.total
    . exact h.tree
    . exact h.pages
    . exact h.linked
    . exact h.storage
    . exact h.chain
    . exact h.idle
    . exact h.slab
    . intro o' ho'
      exact h.live o' (herase o' ho').1
    . exact hnodup

/--
An object that is freed with the number of its cache in its field `size`.
-/
theorem Inv.free_of_eq (h : Inv g m seller c) (ho : o ∈ c.live)
    (hsize : loadSize c.slub.mem o.1 = some (cacheIndex o.2))
    : ∃ c' seller', step g c (.free o) = some c' ∧ Inv g m seller' c'
        ∧ (Complete seller c → Complete seller' c') := by
  obtain ⟨hnodup, herase⟩ := live_erase h.nodup ho
  obtain ⟨slab, hslab, hholds⟩ := h.live o ho
  obtain ⟨-, hbase, hsells⟩ := h.slab slab hslab
  have hindex := h.pages.index slab hslab
  have hi : slab.index < 9 := by omega
  have hheld := h.held hslab hholds
  have hpos := Nat.two_pow_pos (slab.index + 3)
  rw [← hholds.index] at hsize
  have hobjects : ∀ z ∈ o.1 :: seller slab.index, z ∈ slab.objects := by
    intro z hz
    cases List.mem_cons.mp hz with
    | inl heq => exact heq ▸ hholds.object
    | inr hmem => exact hsells.objects z hmem
  have hnode : ∀ z ∈ o.1 :: g.objectListHead slab.index :: seller slab.index, Node g c.slabs slab.index z := by
    intro z hz
    rcases List.mem_cons.mp hz with rfl | hz
    . exact .object hslab rfl hholds.object
    . cases List.mem_cons.mp hz with
      | inl heq => exact heq ▸ .head
      | inr hmem => exact .object hslab rfl (hsells.objects z hmem)
  have hhead : ∀ z ∈ o.1 :: seller slab.index, g.objectListHead slab.index < z := by
    intro z hz
    have := h.pages.head_le hslab hi (hobjects z hz)
    omega
  have hnodes : (o.1 :: g.objectListHead slab.index :: seller slab.index).Nodup := by
    rw [List.nodup_cons, List.nodup_cons, List.mem_cons, not_or]
    refine ⟨⟨?_, hholds.notMem⟩, ?_, hsells.nodup⟩
    . exact (Nat.ne_of_lt (hhead o.1 (List.mem_cons_self ..))).symm
    . intro hmem
      exact Nat.lt_irrefl _ (hhead _ (List.mem_cons_of_mem _ hmem))
  obtain ⟨xs, y, ys, hsplit, hinsert, hchain⟩ := insertObject_eq (h.chain slab.index hi) hsells.last (by omega)
    (hhead o.1 (List.mem_cons_self ..)) (fun z hz => h.pages.ge (hnode z hz))
    (fun z hz z' hz' hne => h.pages.far_of_eq hi (hnode z hz) (hnode z' hz') hne) hnodes
  have hperm : (xs ++ o.1 :: y :: ys).Perm (o.1 :: seller slab.index) := by
    rw [hsplit]
    exact List.perm_middle
  have hsells' : Sells slab (xs ++ o.1 :: y :: ys) := by
    refine ⟨fun z hz => hobjects z (hperm.mem_iff.mp hz), ?_, ?_⟩
    . rw [← hsells.last, hsplit]
      simp
    . exact hperm.nodup_iff.mpr (List.nodup_cons.mpr ⟨hholds.notMem, hsells.nodup⟩)
  have hsame : SameOff g c.slabs slab.index c.slub.mem
      (blocks.link c.slub.mem (xs.getLastD (g.objectListHead slab.index)) o.1 y) := by
    intro a ha
    have hy : y ∈ seller slab.index := by simp [hsplit]
    have hlast := FieldChain.getLastD_mem (g.objectListHead slab.index) xs
    apply link_of_off (ha _ (hnode _ ?_)) (ha _ (hnode _ (List.mem_cons_self ..))) (ha _ (hnode _ (by simp [hy])))
    rw [hsplit]
    simp only [List.mem_cons, List.mem_append] at hlast ⊢
    tauto
  have hinv := h.change hslab (c.live.erase o) hsame hchain hsells' (fun o' ho' => .inl (herase o' ho').1) ?_
    hnodup
  . obtain ⟨hfull, hpartials⟩ := h.getStorage hi o.1
    refine ⟨_, _, ?_, hinv, ?_⟩
    . rw [SlubSys.step, slubFreePages, hsize]
      have hwithin : slab.page ≤ o.1 ∧ o.1 < slab.page + pgsize := by omega
      simp only [Option.bind_eq_bind, Option.bind_some, if_pos hi, hfull, hpartials, hbase, if_pos hwithin, hinsert]
      rfl
    . intro hcomplete slab' hslab' a ha
      have hold := hcomplete slab' hslab' a ha
      by_cases heq : slab'.index = slab.index
      . rw [heq, Function.update_self, hperm.mem_iff, List.mem_cons]
        rw [heq] at hold
        rcases hold with hmem | hmem
        . exact .inl (.inr hmem)
        . obtain ⟨o', ho', rfl⟩ := List.mem_map.mp hmem
          by_cases hoo : o' = o
          . exact .inl (.inl (congrArg Prod.fst hoo))
          . exact .inr (List.mem_map_of_mem ((List.mem_erase_of_ne hoo).mpr ho'))
      . rw [Function.update_of_ne heq]
        refine hold.imp_right ?_
        intro hmem
        obtain ⟨o', ho', rfl⟩ := List.mem_map.mp hmem
        apply List.mem_map_of_mem
        refine (List.mem_erase_of_ne ?_).mpr ho'
        rintro rfl
        apply heq
        rw [h.pages.eq_of_mem hslab' hslab ha hholds.object]
  . intro o' ho' hmem
    cases List.mem_cons.mp (hperm.mem_iff.mp hmem) with
    | inl heq => exact absurd heq (herase o' ho').2
    | inr hmem => exact hmem

/--
What a client writes into its object.
-/
theorem Inv.write (h : Inv g m seller c) (ho : o ∈ c.live) {a : Nat} (hle : o.1 ≤ a) (hlt : a < o.1 + o.2)
    (v : Nat)
    : Inv g m seller { c with slub := { c.slub with mem := Function.update c.slub.mem a v } } := by
  obtain ⟨slab, hslab, hholds⟩ := h.live o ho
  have hheld := h.held hslab hholds
  have hsize := hholds.size
  have hbase := h.pages.base_le hslab
  obtain ⟨k, -, -, hk⟩ := h.pages.page slab hslab
  have hsame {b : Nat} (hne : b ≠ a) : Function.update c.slub.mem a v b = c.slub.mem b :=
    Function.update_of_ne hne ..
  constructor
  . exact h.total
  . exact h.tree
  . exact h.pages
  . intro k' hk'
    show Function.update c.slub.mem a v _ = _
    rw [hsame]
    . exact h.linked k' hk'
    . have hfree := g.freeList_le
      rw [hk] at hheld
      cases k' with
      | zero =>
        simp only [linkNext, linkOf, Globals.page] at *
        omega
      | succ k' =>
        simp only [linkNext, linkOf, pageLink, Globals.page, pgsize] at *
        omega
  . exact h.storage
  . intro i hi
    have hoff : ∀ x ∈ g.objectListHead i :: seller i, Off x a := by
      intro x hx
      have hglobals := g.kmemCacheList_le
      cases List.mem_cons.mp hx with
      | inl heq =>
        rw [heq]
        unfold Off Globals.objectListHead
        omega
      | inr hmem =>
        cases h.node hi hmem with
        | head =>
          unfold Off Globals.objectListHead
          omega
        | @object slab' _ hslab' hindex' hx' =>
          have hobject := h.pages.object hslab' hx'
          unfold Off
          by_cases heq : slab'.index = slab.index
          . obtain rfl := h.pages.eq_of_index hslab' hslab heq
            have hne : o.1 ≠ x := by
              rintro rfl
              exact hholds.notMem (hindex' ▸ hmem)
            have := objects_far hholds.object hx' hne
            omega
          . have := h.pages.far hslab' hslab heq
            unfold pgsize at *
            omega
    apply chain_congr_of_off (h.chain i hi)
    intro x hx b hb
    apply hsame
    rintro rfl
    exact hb (hoff x hx)
  . exact h.idle
  . exact h.slab
  . exact h.live
  . exact h.nodup

/--
What a request of the kind `Served` and a client's write do to the invariant, and a free whose object has
the number of a cache.
-/
theorem Inv.step (hm : 2 ^ (m + 1) ≤ Buddy.nodes) (h : Inv g m seller c) {call : SlubCall} (hlegal : c.Legal call)
    (hsized : Sized g c call)
    : ∃ c' seller', SlubSys.step g c call = some c' ∧ Inv g m seller' c' := by
  cases call with
  | alloc n =>
    obtain ⟨c', seller', hstep, h', -⟩ := h.alloc hm hsized
    exact ⟨c', seller', hstep, h'⟩
  | free o =>
    obtain ⟨i, hsize, hi⟩ := hsized
    by_cases heq : i = cacheIndex o.2
    . rw [heq] at hsize
      obtain ⟨c', seller', hstep, h', -⟩ := h.free_of_eq hlegal hsize
      exact ⟨c', seller', hstep, h'⟩
    . obtain ⟨c', hstep, h'⟩ := h.free_of_ne hlegal hsize hi heq
      exact ⟨c', seller, hstep, h'⟩
  | write o a v =>
    obtain ⟨ho, hle, hlt⟩ := hlegal
    exact ⟨_, seller, rfl, h.write ho hle hlt v⟩

/--
When each object that is freed has the number of its own cache, no object gets lost.
-/
theorem Inv.step_complete (hm : 2 ^ (m + 1) ≤ Buddy.nodes) (h : Inv g m seller c) (hcomplete : Complete seller c)
    {call : SlubCall} (hlegal : c.Legal call) (hkept : Kept g c call)
    : ∃ c' seller', SlubSys.step g c call = some c' ∧ Inv g m seller' c' ∧ Complete seller' c' := by
  cases call with
  | alloc n =>
    obtain ⟨c', seller', hstep, h', hcomplete'⟩ := h.alloc hm hkept
    exact ⟨c', seller', hstep, h', hcomplete' hcomplete⟩
  | free o =>
    obtain ⟨c', seller', hstep, h', hcomplete'⟩ := h.free_of_eq hlegal hkept
    exact ⟨c', seller', hstep, h', hcomplete' hcomplete⟩
  | write o a v =>
    obtain ⟨ho, hle, hlt⟩ := hlegal
    exact ⟨_, seller, rfl, h.write ho hle hlt v, hcomplete⟩

end SlubSys
end Ucore

import Ucore.Lab2.Buddy.Runs
import Ucore.Lab2.Slub.Invariant

/-!
This module contains the runs of the slub allocator and its clients from the state that
`slub_init_memmap` builds: which runs keep the objects real and disjoint, and which lose none of them.
-/

namespace Ucore

open Slub BuddyTree

namespace SlubSys

variable {g : Globals} {s : Slub} {c : SlubSys} {seller : Nat → List Nat} {m i n : Nat} {slab : Slab}

/-! The start. -/

theorem Pages.nil (g : Globals) (m : Nat) : Pages g m [] := by
  constructor <;> simp

theorem head_off {i j : Nat} (hne : i ≠ j) {a : Nat} (ha : ¬Off (g.objectListHead i) a)
    : Off (g.objectListHead j) a := by
  unfold Off Globals.objectListHead at *
  omega

theorem head_ge (g : Globals) (i : Nat) : pgsize ≤ g.objectListHead i := (Pages.nil g 0).ge .head

/--
The loop over the caches: their lists are empty, and nothing outside of their heads changes.
-/
theorem initCaches_eq
    : ∀ (n i size : Nat) (s : Slub), ∃ s', initCaches g n i size s = some s' ∧ s'.buddy = s.buddy
        ∧ (∀ j, i ≤ j → j < i + n → s'.mem (blockNext (g.objectListHead j)) = 0)
        ∧ (∀ a, (∀ j, i ≤ j → j < i + n → Off (g.objectListHead j) a) → s'.mem a = s.mem a)
        ∧ (∀ j, i ≤ j → j < i + n →
            (s'.kmemCacheList j).partialHeads = 0 ∧ (s'.kmemCacheList j).fullHeads = 0)
        ∧ ∀ j, (s'.kmemCacheList j).base = (s.kmemCacheList j).base
            ∧ (s'.kmemCacheList j).partialNum = (s.kmemCacheList j).partialNum
            ∧ (s'.kmemCacheList j).fullNum = (s.kmemCacheList j).fullNum
            ∧ (j < i → s'.kmemCacheList j = s.kmemCacheList j) := by
  intro n
  induction n with
  | zero =>
    intro i size s
    refine ⟨s, rfl, rfl, ?_, fun _ _ => rfl, ?_, fun j => ⟨rfl, rfl, rfl, fun _ => rfl⟩⟩
    . intro j hle hlt
      omega
    . intro j hle hlt
      omega
  | succ n ih =>
    intro i size s
    let mem := Function.update (Function.update s.mem (blockNext (g.objectListHead i)) 0)
      (blockPrev (g.objectListHead i)) 0
    let cache := { s.kmemCacheList i with objectSize := size, partialHeads := 0, fullHeads := 0 }
    obtain ⟨s', heq, hbuddy, hzero, hframe, hheads, hcaches⟩ := ih (i + 1) (size * 2)
      { s with mem, kmemCacheList := Function.update s.kmemCacheList i cache }
    have hhead := head_ge g i
    have hcache : (s'.kmemCacheList i) = cache := by
      rw [(hcaches i).2.2.2 (by omega)]
      exact Function.update_self ..
    refine ⟨s', ?_, hbuddy, ?_, ?_, ?_, ?_⟩
    . simp only [initCaches, initializeBlockHead, store_eq (blockNext_ge hhead), store_eq (blockPrev_ge hhead),
        Option.bind_eq_bind, Option.bind_some]
      exact heq
    . intro j hle hlt
      by_cases hji : j = i
      . subst hji
        rw [hframe]
        . simp only [mem, blockNext, blockPrev]
          rw [Function.update_of_ne (by omega), Function.update_self]
        . intro k hk _
          apply head_off (show j ≠ k by omega)
          unfold Off blockNext
          omega
      . exact hzero j (by omega) (by omega)
    . intro a ha
      have hoff := ha i (Nat.le_refl i) (by omega)
      rw [hframe a fun j hj hlt => ha j (by omega) (by omega)]
      unfold Off at hoff
      simp only [mem, blockNext, blockPrev]
      rw [Function.update_of_ne (by omega), Function.update_of_ne (by omega)]
    . intro j hle hlt
      by_cases hji : j = i
      . rw [hji, hcache]
        exact ⟨rfl, rfl⟩
      . exact hheads j (by omega) (by omega)
    . intro j
      by_cases hji : j = i
      . rw [hji, hcache]
        exact ⟨rfl, rfl, rfl, fun hlt => absurd hlt (Nat.lt_irrefl i)⟩
      . obtain ⟨hbase, hpartials, hfull, hsame⟩ := hcaches j
        rw [hbase, hpartials, hfull]
        simp only [Function.update_of_ne hji] at hsame ⊢
        exact ⟨trivial, trivial, trivial, fun hlt => hsame (by omega)⟩

/--
`slub_init_memmap` of a power of two pages, all of them reserved.
-/
theorem slubInitMemmap_inv (hm : 2 ^ (m + 1) ≤ Buddy.nodes) (hstatic : s.kmemCacheList = fun _ => KmemCache.zero)
    (hres : ∀ p < 2 ^ m, (s.buddy.pages p).reserved = true)
    : ∃ s', slubInitMemmap g s (2 ^ m) = some s' ∧ Inv g m (fun _ => []) ⟨s', [], []⟩ := by
  have hten := Buddy.height_lt hm
  have hpos := Nat.two_pow_pos m
  have hconvert : Buddy.convert2PowOf2 (2 ^ m) = 2 ^ m :=
    Buddy.convert2PowOf2_eq (by omega) (Nat.le_refl _) (by omega)
  obtain ⟨b, hinit, htotal, hstored, -⟩ := Buddy.buddyInitMemmap_spec (s := s.buddy) hm
    (fun p _ hlt => hres p (Nat.zero_add (2 ^ m) ▸ hlt))
  obtain ⟨offset, _, b', halloc, htotal', hplaced, hstored', -, -⟩ :=
    BuddyRun.placed_nil.allocPages hm htotal hstored (Nat.le_refl 1) (Buddy.root_first hstored ▸ hpos)
  obtain rfl : offset = 0 := Buddy.buddyAllocPages_first hm htotal hstored halloc
  have hfree := g.freeList_ge
  have hbase := g.freeList_le
  let mem := Function.update s.mem (linkPrev g.freeList) (s.mem (linkPrev (pageLink g.base)))
  let mem' := Function.update mem (linkNext g.freeList) (mem (linkNext (pageLink g.base)))
  obtain ⟨mem'', hlink, hlinked, -⟩ := linkPages_eq g (2 ^ m - 1) 0 mem'
  let s₁ : Slub := { s with mem := mem'', buddy := { b' with nrFree := (b'.nrFree + 2 ^ m) % 2 ^ 32 } }
  have hbuddy : buddyInitMemmap g s (2 ^ m) = some s₁ := by
    have hlink : linkPages g (2 ^ m - 1) 1 g.freeList mem' = some mem'' := hlink
    rw [buddyInitMemmap, if_neg (by omega), hinit]
    simp only [Option.bind_eq_bind, Option.bind_some, linkPrev, linkNext, pageLink,
      load_eq (show pgsize ≤ g.base + 24 by omega), store_eq hfree,
      load_eq (show pgsize ≤ g.base + 24 + 8 by omega), store_eq (show pgsize ≤ g.freeList + 8 by omega)]
    refine (congrArg (Option.bind · _) hlink).trans ?_
    simp only [Option.bind_some, halloc]
    rfl
  obtain ⟨s', hcaches, hsame, hzero, hframe, hheads, hstorage⟩ := initCaches_eq (g := g) 9 0 8 s₁
  refine ⟨s', ?_, ?_⟩
  . rw [slubInitMemmap, hbuddy]
    exact hcaches
  . constructor
    . show s'.buddy.totalSize = 2 ^ m
      rw [hsame]
      exact htotal'
    . refine ⟨[], rfl, hplaced, ?_⟩
      show Stored m _ (Buddy.nodeAt s'.buddy.nodeCapacity)
      rw [hsame]
      exact hstored'
    . exact Pages.nil g m
    . intro k hk
      show s'.mem _ = _
      rw [hframe]
      . exact hlinked k (Nat.zero_le k) (by omega)
      . intro j _ hj
        exact (Pages.nil g m).off_link (by omega) .head k
    . intro j hj
      obtain ⟨hpartials, hfull⟩ := hheads j (Nat.zero_le j) (by omega)
      obtain ⟨-, hpartialNum, hfullNum, -⟩ := hstorage j
      simp only [s₁, hstatic] at hpartialNum hfullNum
      exact ⟨hpartials, hpartialNum, hfull, hfullNum⟩
    . intro j hj
      exact hzero j (Nat.zero_le j) (by omega)
    . intro j hj _
      have hbase := (hstorage j).1
      simp only [s₁, hstatic] at hbase
      exact ⟨hbase, rfl⟩
    . intro slab hslab
      cases hslab
    . intro o ho
      cases ho
    . exact List.nodup_nil

/-! The objects that clients hold. -/

theorem Inv.realAndDisjoint (h : Inv g m seller c) : c.RealAndDisjoint := by
  constructor
  . intro o ho a hle hlt
    obtain ⟨slab, hslab, hholds⟩ := h.live o ho
    have hheld := h.held hslab hholds
    have hsize := hholds.size
    refine ⟨slab, hslab, by omega, ?_⟩
    rw [(h.slab slab hslab).1, Nat.one_mul]
    omega
  . apply List.Nodup.pairwise_of_forall_ne (List.Nodup.of_map _ h.nodup)
    intro o ho o' ho' hne
    obtain ⟨slab, hslab, hholds⟩ := h.live o ho
    obtain ⟨slab', hslab', hholds'⟩ := h.live o' ho'
    have hheld := h.held hslab hholds
    have hheld' := h.held hslab' hholds'
    have hsize := hholds.size
    have hsize' := hholds'.size
    by_cases heq : slab.index = slab'.index
    . obtain rfl := h.pages.eq_of_index hslab hslab' heq
      have hne' : o.1 ≠ o'.1 := fun heq => hne (List.inj_on_of_nodup_map h.nodup ho ho' heq)
      have := objects_far hholds.object hholds'.object hne'
      omega
    . have := h.pages.far hslab hslab' heq
      omega

theorem allocTimes_succ {s' : Slub} {x : Nat} (halloc : s.slubAllocPages g n = some (x, s')) (k : Nat)
    : allocTimes g n (k + 1) s = (allocTimes g n k s').map (x :: ·) := by
  simp only [allocTimes, halloc, Option.bind_eq_bind, Option.bind_some]
  cases allocTimes g n k s' <;> rfl

/--
Where the seller has at least one object for each request and no page is full, requests get the objects
in the order of the list.
-/
theorem allocTimes_eq (hpages : Pages g m c.slabs) (hslab : slab ∈ c.slabs) (h17 : 17 ≤ n) (h1024 : n ≤ 1024)
    (hindex : cacheIndex n = slab.index)
    : ∀ (xs : List Nat) (s : Slub), (s.kmemCacheList slab.index).partialHeads = 0 →
        (s.kmemCacheList slab.index).fullHeads = 0 → blocks.Chain s.mem (g.objectListHead slab.index) xs →
        (∀ x ∈ xs, x ∈ slab.objects) → xs.Nodup → allocTimes g n xs.length s = some xs := by
  have hhead : pgsize ≤ g.objectListHead slab.index := head_ge g _
  have hge {x : Nat} (hx : x ∈ slab.objects) : pgsize ≤ x := hpages.ge (.object hslab rfl hx)
  intro xs
  induction xs with
  | nil =>
    intro s _ _ _ _ _
    rfl
  | cons x xs ih =>
    intro s hpartials hfull hchain hobjects hnodup
    have hx := hge (hobjects x (List.mem_cons_self ..))
    have hxNext : s.mem (blockNext (g.objectListHead slab.index)) = x := hchain.1
    have hne : s.mem (blockNext (g.objectListHead slab.index)) ≠ 0 := by
      unfold pgsize at hx
      omega
    have hstorage : s.getPartialStorage (cacheIndex n) = some 0 := by
      rw [hindex]
      exact getPartialStorage_eq hpartials
    have halloc : s.slubAllocPages g n = allocSeller g s slab.index := by
      rw [slubAllocPages_eq h17 h1024 (head_ge g _) hstorage, hindex, if_pos hne]
    cases xs with
    | nil =>
      obtain ⟨s', hlast⟩ := allocSeller_last hhead hx hchain hfull
      rw [List.length_cons, allocTimes_succ (halloc.trans hlast)]
      rfl
    | cons y ys =>
      have hcons := allocSeller_cons hhead (fun z hz => hge (hobjects z hz)) hchain
      obtain ⟨hchain', -⟩ := hpages.join hslab hobjects hnodup hchain
      have hrest := ih { s with mem := blocks.join s.mem (g.objectListHead slab.index) y } hpartials hfull hchain'
        (fun z hz => hobjects z (List.mem_cons_of_mem _ hz)) (List.nodup_cons.mp hnodup).2
      rw [List.length_cons, allocTimes_succ (halloc.trans hcons), hrest, Option.map_some]

/--
An object that no client holds is on the list of its seller.
-/
theorem Complete.mem_seller (hcomplete : Complete seller c) (h : Inv g m seller c) (hslab : slab ∈ c.slabs)
    (hlive : ∀ o ∈ c.live, cacheIndex o.2 ≠ slab.index) {a : Nat} (ha : a ∈ slab.objects)
    : a ∈ seller slab.index := by
  refine (hcomplete slab hslab a ha).resolve_right ?_
  intro hmem
  obtain ⟨o, ho, rfl⟩ := List.mem_map.mp hmem
  obtain ⟨slab', hslab', hholds⟩ := h.live o ho
  obtain rfl := h.pages.eq_of_mem hslab' hslab hholds.object ha
  exact hlive o ho hholds.index.symm

theorem Inv.conserved (h : Inv g m seller c) (hcomplete : Complete seller c) : c.Conserved g := by
  constructor
  . intro i hi
    obtain ⟨hpartials, hpartialNum, hfull, hfullNum⟩ := h.storage i hi
    refine ⟨seller i, [], [], ?_⟩
    constructor
    . apply freeList_of_chain (h.chain i hi)
      intro x hx
      have := h.pages.ge (h.node hi hx)
      unfold pgsize at this
      omega
    . exact hfull
    . exact hfullNum
    . exact hpartials
    . exact hpartialNum
    . intro p hp
      cases hp
    . rintro slab hslab rfl a ha
      rw [List.map_nil, List.sum_nil, Nat.add_zero]
      have hsells := (h.slab slab hslab).2.2
      by_cases hmem : a ∈ seller slab.index
      . rw [List.count_eq_one_of_mem hsells.nodup hmem, List.count_eq_zero_of_not_mem (h.not_live hslab hmem)]
      . have hlive := (hcomplete slab hslab a ha).resolve_left hmem
        rw [List.count_eq_zero_of_not_mem hmem, List.count_eq_one_of_mem h.nodup hlive]
  . intro i hi hlive
    by_cases hidle : ∀ slab ∈ c.slabs, slab.index ≠ i
    . refine ⟨0, [], rfl, List.nodup_nil, ?_⟩
      intro slab hslab heq
      exact absurd heq (hidle slab hslab)
    . push Not at hidle
      obtain ⟨slab, hslab, rfl⟩ := hidle
      obtain ⟨hpartials, -, hfull, -⟩ := h.storage slab.index hi
      have hsells := (h.slab slab hslab).2.2
      obtain ⟨h2, h7⟩ := h.pages.index slab hslab
      have hsize := le_size h2 h7
      have hindex := (cacheIndex_eq (n := 2 ^ (slab.index + 3)) h2 h7 (Nat.le_refl _) (by omega)).2
      refine ⟨(seller slab.index).length, seller slab.index, ?_, hsells.nodup, ?_⟩
      . exact allocTimes_eq h.pages hslab (by omega) hsize.2 hindex _ _ hpartials hfull (h.chain _ hi) hsells.objects
          hsells.nodup
      . intro slab' hslab' heq a ha
        obtain rfl := h.pages.eq_of_index hslab' hslab heq
        exact hcomplete.mem_seller h hslab hlive ha

/--
In every run in which requests are of the kind `Served` and each object that is freed has the number of
a cache in its field `size`, the objects that clients hold are real and disjoint.
-/
theorem always_real_and_disjoint (g : Globals) (hm : 2 * 2 ^ m - 1 ≤ Buddy.nodes)
    (hstatic : s.kmemCacheList = fun _ => KmemCache.zero) (hres : ∀ p < 2 ^ m, (s.buddy.pages p).reserved = true)
    : ∃ s', slubInitMemmap g s (2 ^ m) = some s'
        ∧ ∀ calls, Run.Admits (step g) (fun c call => c.Legal call ∧ Sized g c call) ⟨s', [], []⟩ calls →
            Run.Always (step g) RealAndDisjoint ⟨s', [], []⟩ calls := by
  have hm := Buddy.nodes_of_le hm
  obtain ⟨s', hinit, hinv⟩ := slubInitMemmap_inv (g := g) hm hstatic hres
  refine ⟨s', hinit, ?_⟩
  intro calls hadmits
  apply Run.always_of_admits (I := fun c => ∃ seller, Inv g m seller c) _ _ ⟨_, hinv⟩ hadmits
  . rintro c ⟨seller, h⟩
    exact h.realAndDisjoint
  . rintro c call ⟨seller, h⟩ ⟨hlegal, hsized⟩
    obtain ⟨c', seller', hstep, h'⟩ := h.step hm hlegal hsized
    exact ⟨c', hstep, seller', h'⟩

/--
A machine whose memory is zero.
-/
def bootGlobals : Globals := ⟨4096, 8192, 12288, by decide, by decide, by decide, by decide, by decide⟩

def bootSlub : Slub := ⟨fun _ => 0, fun _ => KmemCache.zero, BuddyRun.reservedPages⟩

def booted : Slub := (slubInitMemmap bootGlobals bootSlub (2 ^ 4)).getD bootSlub

theorem booted_eq : slubInitMemmap bootGlobals bootSlub (2 ^ 4) = some booted := by
  have hsome : (slubInitMemmap bootGlobals bootSlub (2 ^ 4)).isSome = true := by decide +kernel
  obtain ⟨s', hinit⟩ := Option.isSome_iff_exists.mp hsome
  rw [booted, hinit, Option.getD_some]

/--
Two requests of one cache, a client that writes over the link of its object and frees it, and a request of
another cache.
-/
def mixedCalls : List SlubCall :=
  [.alloc 64, .alloc 40, .write (16576, 64) 16584 5, .free (16576, 64), .alloc 200]

theorem always_real_and_disjoint_mixedCalls
    : Run.Always (step bootGlobals) RealAndDisjoint ⟨booted, [], []⟩ mixedCalls := by
  obtain ⟨s', hinit, hruns⟩ := always_real_and_disjoint (s := bootSlub) (m := 4) bootGlobals (by decide) rfl
    (fun p _ => BuddyRun.reservedPages_reserved p)
  rw [booted_eq, Option.some_inj] at hinit
  subst hinit
  exact hruns mixedCalls (by decide +kernel)

/--
A page of the largest objects has two of them, and the second one starts at its end.
-/
theorem not_always_real_and_disjoint
    : ∃ s', slubInitMemmap bootGlobals bootSlub (2 ^ 4) = some s'
        ∧ ¬∀ calls, Run.Admits (step bootGlobals) Legal ⟨s', [], []⟩ calls →
            Run.Always (step bootGlobals) RealAndDisjoint ⟨s', [], []⟩ calls := by
  refine ⟨booted, booted_eq, ?_⟩
  intro hruns
  obtain ⟨c, hexec, hreal⟩ := (hruns [.alloc 1024, .alloc 1024] (by decide +kernel)).exec
  have hview : (Run.exec (step bootGlobals) ⟨booted, [], []⟩ [.alloc 1024, .alloc 1024]).map
      (fun c => (c.live, c.slabs.map fun slab => (slab.page, slab.pages)))
      = some ([(20480, 1024), (19456, 1024)], [(16384, 1)]) := by decide +kernel
  rw [hexec, Option.map_some, Option.some_inj, Prod.mk.injEq] at hview
  obtain ⟨hlive, hslabs⟩ := hview
  obtain ⟨slab, hslab, -, hlt⟩ := hreal.real (20480, 1024) (by simp [hlive]) 20480 (by decide) (by decide)
  have hmem := List.mem_map_of_mem (f := fun slab : Slab => (slab.page, slab.pages)) hslab
  rw [hslabs, List.mem_singleton, Prod.mk.injEq] at hmem
  rw [hmem.1, hmem.2] at hlt
  exact absurd hlt (by decide)

/--
In every run in which requests are of the kind `Served` and each object that is freed has the number of
its own cache in its field `size`, no object gets lost.
-/
theorem always_conserved (g : Globals) (hm : 2 * 2 ^ m - 1 ≤ Buddy.nodes)
    (hstatic : s.kmemCacheList = fun _ => KmemCache.zero) (hres : ∀ p < 2 ^ m, (s.buddy.pages p).reserved = true)
    : ∃ s', slubInitMemmap g s (2 ^ m) = some s'
        ∧ ∀ calls, Run.Admits (step g) (fun c call => c.Legal call ∧ Kept g c call) ⟨s', [], []⟩ calls →
            Run.Always (step g) (Conserved g) ⟨s', [], []⟩ calls := by
  have hm := Buddy.nodes_of_le hm
  obtain ⟨s', hinit, hinv⟩ := slubInitMemmap_inv (g := g) hm hstatic hres
  refine ⟨s', hinit, ?_⟩
  intro calls hadmits
  apply Run.always_of_admits (I := fun c => ∃ seller, Inv g m seller c ∧ Complete seller c) _ _ ⟨_, hinv, ?_⟩
    hadmits
  . rintro c ⟨seller, h, hcomplete⟩
    exact h.conserved hcomplete
  . rintro c call ⟨seller, h, hcomplete⟩ ⟨hlegal, hkept⟩
    obtain ⟨c', seller', hstep, h', hcomplete'⟩ := h.step_complete hm hcomplete hlegal hkept
    exact ⟨c', hstep, seller', h', hcomplete'⟩
  . intro slab hslab
    cases hslab

theorem always_conserved_mixedCalls
    : Run.Always (step bootGlobals) (Conserved bootGlobals) ⟨booted, [], []⟩ mixedCalls := by
  obtain ⟨s', hinit, hruns⟩ := always_conserved (s := bootSlub) (m := 4) bootGlobals (by decide) rfl
    (fun p _ => BuddyRun.reservedPages_reserved p)
  rw [booted_eq, Option.some_inj] at hinit
  subst hinit
  exact hruns mixedCalls (by decide +kernel)

/--
When the only page of the full list gets an object back, the head of the list becomes the page that the
buddy allocator has behind it.
-/
theorem not_always_conserved
    : ∃ s', slubInitMemmap bootGlobals bootSlub (2 ^ 4) = some s'
        ∧ ¬∀ calls, Run.Admits (step bootGlobals) Legal ⟨s', [], []⟩ calls →
            Run.Always (step bootGlobals) (Conserved bootGlobals) ⟨s', [], []⟩ calls := by
  refine ⟨booted, booted_eq, ?_⟩
  intro hruns
  obtain ⟨c, hexec, hconserved⟩ :=
    (hruns [.alloc 1024, .alloc 1024, .free (19456, 1024)] (by decide +kernel)).exec
  have hview : (Run.exec (step bootGlobals) ⟨booted, [], []⟩ [.alloc 1024, .alloc 1024, .free (19456, 1024)]).map
      (fun c => ((c.slub.kmemCacheList 7).fullNum, (c.slub.kmemCacheList 7).fullHeads)) = some (0, 20480) := by
    decide +kernel
  rw [hexec, Option.map_some, Option.some_inj, Prod.mk.injEq] at hview
  obtain ⟨hnum, hheads⟩ := hview
  obtain ⟨seller, fulls, partials, hplaces⟩ := hconserved.places 7 (by decide)
  have hlength := hplaces.fullNum
  rw [hnum] at hlength
  obtain rfl := List.eq_nil_of_length_eq_zero hlength.symm
  have hzero : (c.slub.kmemCacheList 7).fullHeads = 0 := hplaces.fullList
  rw [hheads] at hzero
  exact absurd hzero (by decide)

end SlubSys
end Ucore

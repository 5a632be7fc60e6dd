import Ucore.Lab2.Slub.Runs

/-!
This module contains the number of free pages that the slub allocator reports, and what a request gets for which the
buddy allocator has no pages.
-/

namespace Ucore

open Slub BuddyTree

namespace Slub

variable {g : Globals} {s s' : Slub} {n object : Nat}

/--
`buddy_nr_free_pages`.
-/
def buddyNrFreePages (s : Slub) : Nat := s.buddy.nrFree

/--
A request of `n` bytes needs pages that the buddy allocator does not have.
-/
def Short (g : Globals) (s : Slub) (n : Nat) : Prop :=
  s.mem (blockNext (g.objectListHead (cacheIndex n))) = 0 ∧ s.getPartialStorage (cacheIndex n) = some 0
    ∧ s.buddy.nodeCapacity 0 < pageNum n

/--
The request gets `NULL`, and nothing is changed.
-/
def ReportsFailure (g : Globals) (s : Slub) (n : Nat) : Prop :=
  s.slubAllocPages g n = some (0, s)

/-! What a request does to the buddy allocator. -/

theorem load_ne_zero {mem : Nat → Nat} {a v : Nat} (h : load mem (blockNext a) = some v) : a ≠ 0 := by
  rintro rfl
  have hlow : blockNext 0 < pgsize := by decide
  rw [load, if_pos hlow] at h
  exact nomatch h

theorem retirePage_buddy {index : Nat} (h : retirePage s index = some s') : s'.buddy = s.buddy := by
  unfold retirePage at h
  dsimp only at h
  split at h
  . simp only [Option.bind_eq_bind, Option.bind_eq_some_iff, Option.pure_def, Option.some_inj] at h
    obtain ⟨le, -, mem, -, v, -, mem', -, rfl⟩ := h
    rfl
  . simp only [Option.pure_def, Option.some_inj] at h
    exact h ▸ rfl

/--
The seller and a partial page sell an object without the buddy allocator.
-/
theorem allocSeller_buddy {index : Nat} (h : allocSeller g s index = some (object, s'))
    : object ≠ 0 ∧ s'.buddy = s.buddy := by
  simp only [allocSeller, Option.bind_eq_bind, Option.bind_eq_some_iff] at h
  obtain ⟨p, -, next, hnext, mem, -, h⟩ := h
  split at h
  . simp only [Option.bind_eq_some_iff, Option.pure_def, Option.some_inj, Prod.mk.injEq] at h
    obtain ⟨mem', -, rfl, rfl⟩ := h
    exact ⟨load_ne_zero hnext, rfl⟩
  . simp only [Option.bind_eq_some_iff, Option.pure_def, Option.some_inj, Prod.mk.injEq] at h
    obtain ⟨t, hretire, rfl, rfl⟩ := h
    exact ⟨load_ne_zero hnext, (retirePage_buddy hretire).trans rfl⟩

theorem allocPartial_buddy {index page : Nat} (h : s.allocPartial index page = some (object, s'))
    : object ≠ 0 ∧ s'.buddy = s.buddy := by
  simp only [allocPartial, Option.bind_eq_bind, Option.bind_eq_some_iff] at h
  obtain ⟨p, -, next, hnext, h⟩ := h
  split at h
  . simp only [Option.bind_eq_some_iff, Option.pure_def, Option.some_inj, Prod.mk.injEq] at h
    obtain ⟨mem, -, v, -, mem', -, rfl, rfl⟩ := h
    exact ⟨load_ne_zero hnext, rfl⟩
  . simp only [Option.bind_eq_some_iff, Option.pure_def, Option.some_inj, Prod.mk.injEq] at h
    obtain ⟨mem, -, mem', -, mem'', -, rfl, rfl⟩ := h
    exact ⟨load_ne_zero hnext, rfl⟩

theorem allocPage_buddy {index powN : Nat} (h : allocPage g s index powN n = some (object, s'))
    : object ≠ 0 ∧ ∃ offset, s.buddy.buddyAllocPages (pageNum n) = some (offset, s'.buddy) := by
  unfold allocPage at h
  obtain ⟨⟨offset, buddy⟩, halloc, h⟩ := Option.bind_eq_some_iff.mp h
  obtain ⟨page, -, h⟩ := Option.bind_eq_some_iff.mp h
  obtain ⟨mem, -, h⟩ := Option.bind_eq_some_iff.mp h
  obtain ⟨v, -, h⟩ := Option.bind_eq_some_iff.mp h
  obtain ⟨mem₁, -, h⟩ := Option.bind_eq_some_iff.mp h
  obtain ⟨v₁, -, h⟩ := Option.bind_eq_some_iff.mp h
  obtain ⟨mem₂, -, h⟩ := Option.bind_eq_some_iff.mp h
  obtain ⟨v₂, -, h⟩ := Option.bind_eq_some_iff.mp h
  obtain ⟨mem₃, -, h⟩ := Option.bind_eq_some_iff.mp h
  obtain ⟨mem₄, -, h⟩ := Option.bind_eq_some_iff.mp h
  obtain ⟨object', -, h⟩ := Option.bind_eq_some_iff.mp h
  obtain ⟨next, hnext, h⟩ := Option.bind_eq_some_iff.mp h
  obtain ⟨mem₅, -, h⟩ := Option.bind_eq_some_iff.mp h
  split at h
  . obtain ⟨mem₆, -, h⟩ := Option.bind_eq_some_iff.mp h
    obtain ⟨rfl, rfl⟩ := Prod.mk.inj (Option.some_inj.mp h)
    exact ⟨load_ne_zero hnext, offset, halloc⟩
  . obtain ⟨rfl, rfl⟩ := Prod.mk.inj (Option.some_inj.mp h)
    exact ⟨load_ne_zero hnext, offset, halloc⟩

/--
No request gets `NULL`. One for which no object is free takes pages of the buddy allocator.
-/
theorem slubAllocPages_buddy (h : s.slubAllocPages g n = some (object, s'))
    : object ≠ 0 ∧
        if s.mem (blockNext (g.objectListHead (cacheIndex n))) = 0 ∧ s.getPartialStorage (cacheIndex n) = some 0 then
          ∃ offset, s.buddy.buddyAllocPages (pageNum n) = some (offset, s'.buddy)
        else
          s'.buddy = s.buddy := by
  unfold slubAllocPages at h
  dsimp only at h
  split at h
  . simp only [Option.bind_eq_bind, Option.bind_eq_some_iff] at h
    obtain ⟨freeNode, hload, storage, hstorage, h⟩ := h
    change s.getPartialStorage (cacheIndex n) = some storage at hstorage
    obtain rfl : s.mem (blockNext (g.objectListHead (cacheIndex n))) = freeNode := by
      rw [load_eq (blockNext_ge (SlubSys.head_ge g _))] at hload
      exact Option.some_inj.mp hload
    split at h
    . rename_i hfree
      obtain ⟨hobject, hbuddy⟩ := allocSeller_buddy h
      refine ⟨hobject, ?_⟩
      rw [if_neg (fun hboth => hfree hboth.1)]
      exact hbuddy
    . rename_i hfree
      split at h
      . rename_i hpartial
        obtain ⟨hobject, hbuddy⟩ := allocPartial_buddy h
        refine ⟨hobject, ?_⟩
        rw [if_neg (fun hboth => hpartial (Option.some_inj.mp (hstorage.symm.trans hboth.2)))]
        exact hbuddy
      . rename_i hpartial
        obtain ⟨hobject, halloc⟩ := allocPage_buddy h
        refine ⟨hobject, ?_⟩
        rw [if_pos ⟨not_not.mp hfree, hstorage.trans (congrArg some (not_not.mp hpartial))⟩]
        exact halloc
  . contradiction

theorem freeFull_buddy {index page : Nat} (h : s.freeFull index page object = some s') : s'.buddy = s.buddy := by
  have hrest {mem : Nat → Nat} {partialHeads fullHeads : Nat}
      (h : ((store mem (storageHead page) object).bind fun mem => (initializeBlockHead mem object).bind fun mem =>
        some ({ s with mem }.setCache index { s.kmemCacheList index with
          fullHeads
          partialHeads
          fullNum := ((s.kmemCacheList index).fullNum + 2 ^ 32 - 1) % 2 ^ 32
          partialNum := ((s.kmemCacheList index).partialNum + 1) % 2 ^ 32 })) = some s') : s'.buddy = s.buddy := by
    simp only [Option.bind_eq_some_iff, Option.some_inj] at h
    obtain ⟨mem₁, -, mem₂, -, rfl⟩ := h
    rfl
  simp only [freeFull, Option.bind_eq_bind, Option.pure_def, Option.bind_some] at h
  split at h
  . obtain ⟨v, -, h⟩ := Option.bind_eq_some_iff.mp h
    obtain ⟨mem, -, h⟩ := Option.bind_eq_some_iff.mp h
    split at h
    . exact hrest h
    . obtain ⟨mem', -, h⟩ := Option.bind_eq_some_iff.mp h
      exact hrest h
  . obtain ⟨le, -, h⟩ := Option.bind_eq_some_iff.mp h
    obtain ⟨mem, -, h⟩ := Option.bind_eq_some_iff.mp h
    split at h
    . exact hrest h
    . obtain ⟨mem', -, h⟩ := Option.bind_eq_some_iff.mp h
      exact hrest h

theorem slubFreePages_buddy (h : s.slubFreePages g object = some s') : s'.buddy = s.buddy := by
  simp only [slubFreePages, Option.bind_eq_bind, Option.bind_eq_some_iff] at h
  obtain ⟨index, -, h⟩ := h
  split at h
  . simp only [Option.bind_eq_some_iff] at h
    obtain ⟨full, -, page, -, h⟩ := h
    split at h
    . simp only [Option.bind_eq_some_iff, Option.pure_def, Option.some_inj] at h
      obtain ⟨mem, -, rfl⟩ := h
      rfl
    . split at h
      . exact freeFull_buddy h
      . split at h
        . simp only [freePartial, Option.bind_eq_bind, Option.bind_eq_some_iff] at h
          obtain ⟨head, -, h⟩ := h
          split at h
          . simp only [Option.bind_eq_some_iff, Option.pure_def, Option.some_inj] at h
            obtain ⟨mem, -, v, -, mem₁, -, mem₂, -, mem₃, -, rfl⟩ := h
            rfl
          . simp only [Option.bind_eq_some_iff, Option.pure_def, Option.some_inj] at h
            obtain ⟨mem, -, rfl⟩ := h
            rfl
        . exact Option.some_inj.mp h ▸ rfl
  . contradiction

end Slub

namespace SlubSys

variable {g : Globals} {m : Nat} {s : Slub} {c c' : SlubSys}

/--
The pages that the tree of the buddy allocator has allocated: the reserved first page and the blocks with the pages of
objects.
-/
def allocated (c : SlubSys) : Nat :=
  Buddy.convert2PowOf2 1 + (c.slabs.map fun slab => Buddy.convert2PowOf2 slab.pages).sum

/--
The number of free pages, of `n` pages, is right, and requests for which there are no pages fail.
-/
structure FreePages (g : Globals) (n : Nat) (c : SlubSys) : Prop where
  count : c.slub.buddyNrFreePages = n - c.allocated
  reports : ∀ bytes, 1 ≤ bytes → Short g c.slub bytes → ReportsFailure g c.slub bytes

/--
The blocks of the tree are those of the pages of objects and the one of the first page, and the pages that are not
allocated count twice.
-/
structure Counted (m : Nat) (c : SlubSys) : Prop where
  total : c.slub.buddy.totalSize = 2 ^ m
  tree : ∃ live, live.map Prod.snd = c.slabs.map Slab.pages ++ [1] ∧ BuddyRun.Placed m live ∧
    Stored m (BuddyRun.used m live) (Buddy.nodeAt c.slub.buddy.nodeCapacity)
  nrFree : c.slub.buddy.nrFree + c.allocated = 2 ^ m + 2 ^ m

theorem allocated_eq {live : List (Nat × Nat)} (h : live.map Prod.snd = c.slabs.map Slab.pages ++ [1])
    : (live.map fun b => (BuddyRun.block b).2).sum = c.allocated := by
  have hmap : (live.map fun b => (BuddyRun.block b).2) = (live.map Prod.snd).map Buddy.convert2PowOf2 := by
    simp only [List.map_map, Function.comp_def, BuddyRun.block]
  rw [hmap, h, allocated, List.map_append, List.sum_append, List.map_map, Nat.add_comm]
  simp only [List.map_cons, List.map_nil, List.sum_cons, List.sum_nil, Nat.add_zero, Function.comp_def]

theorem Counted.allocated_le (h : Counted m c) : c.allocated ≤ 2 ^ m := by
  obtain ⟨live, hlive, hplaced, -⟩ := h.tree
  rw [← allocated_eq hlive]
  exact hplaced.sum_le

/--
The reserved page is taken from the free pages, and then all pages count as free once more.
-/
theorem counted_init (hm : 2 ^ (m + 1) ≤ Buddy.nodes) (hres : ∀ p < 2 ^ m, (s.buddy.pages p).reserved = true)
    {t : Slub} (hinit : slubInitMemmap g s (2 ^ m) = some t)
    : Counted m ⟨t, [], []⟩ := by
  have hten := Buddy.height_lt hm
  have hpos := Nat.two_pow_pos m
  have hsmall : 2 ^ m ≤ 2 ^ 9 := Nat.pow_le_pow_right (by omega) (by omega)
  have hconvert : Buddy.convert2PowOf2 (2 ^ m) = 2 ^ m :=
    Buddy.convert2PowOf2_eq (by omega) (Nat.le_refl _) (by omega)
  obtain ⟨b, hbuddy, htotal, hstored, hnrFree⟩ := Buddy.buddyInitMemmap_spec (s := s.buddy) hm
    (fun p _ hlt => hres p (Nat.zero_add (2 ^ m) ▸ hlt))
  obtain ⟨offset, k, b', halloc, htotal', hplaced, hstored', hpow, hnrFree'⟩ :=
    BuddyRun.placed_nil.allocPages hm htotal hstored (Nat.le_refl 1) (Buddy.root_first hstored ▸ hpos)
  rw [BuddyRun.block, Buddy.convert2PowOf2_one, Prod.mk.injEq] at hpow
  have hinit' : ∃ s₁, Slub.buddyInitMemmap g s (2 ^ m) = some s₁ ∧ initCaches g 9 0 8 s₁ = some t := by
    simpa only [slubInitMemmap, Option.bind_eq_bind, Option.bind_eq_some_iff] using hinit
  obtain ⟨s₁, hfirst, hcaches⟩ := hinit'
  obtain ⟨t', hcaches', hsame, -⟩ := initCaches_eq (g := g) 9 0 8 s₁
  obtain rfl : t' = t := Option.some_inj.mp (hcaches'.symm.trans hcaches)
  have hs₁ : s₁.buddy = { b' with nrFree := (b'.nrFree + 2 ^ m) % 2 ^ 32 } := by
    rw [Slub.buddyInitMemmap, if_neg (by omega), hbuddy] at hfirst
    simp only [Option.bind_eq_bind, Option.bind_eq_some_iff, Option.bind_some, halloc, Option.pure_def,
      Option.some_inj] at hfirst
    obtain ⟨v, -, mem, -, v', -, mem', -, mem'', -, rfl⟩ := hfirst
    rfl
  constructor
  . show t'.buddy.totalSize = 2 ^ m
    rw [hsame, hs₁]
    exact htotal'
  . refine ⟨[(offset, 1)], rfl, hplaced, ?_⟩
    show Stored m _ (Buddy.nodeAt t'.buddy.nodeCapacity)
    rw [hsame, hs₁]
    exact hstored'
  . show t'.buddy.nrFree + (Buddy.convert2PowOf2 1 + 0) = 2 ^ m + 2 ^ m
    rw [hsame, hs₁, hnrFree', hnrFree, ← hpow.2, Buddy.convert2PowOf2_one]
    show (_ + 2 ^ m) % 2 ^ 32 + _ = _
    omega

/--
Pages are taken exactly where the tree has them.
-/
theorem Counted.step (hm : 2 ^ (m + 1) ≤ Buddy.nodes) (h : Counted m c) {call : SlubCall}
    (hstep : SlubSys.step g c call = some c') : Counted m c' := by
  cases call with
  | alloc n =>
    simp only [SlubSys.step, Option.bind_eq_bind, Option.bind_eq_some_iff, Option.pure_def, Option.some_inj] at hstep
    obtain ⟨⟨object, t⟩, halloc, rfl⟩ := hstep
    obtain ⟨-, hbuddy⟩ := slubAllocPages_buddy halloc
    split at hbuddy
    . rename_i hneeds
      obtain ⟨offset, hbuddy⟩ := hbuddy
      have hn : 1 ≤ pageNum n := by
        by_contra hzero
        rw [Buddy.buddyAllocPages, if_neg (by omega)] at hbuddy
        exact absurd hbuddy.symm (Option.some_ne_none _)
      by_cases hroot : pageNum n ≤ c.slub.buddy.nodeCapacity 0
      . obtain ⟨live, hlive, hplaced, hstored⟩ := h.tree
        obtain ⟨offset', k, b', halloc', htotal, hplaced', hstored', hpow, hnrFree⟩ :=
          hplaced.allocPages hm h.total hstored hn hroot
        obtain ⟨rfl, rfl⟩ := Prod.mk.inj (Option.some_inj.mp (halloc'.symm.trans hbuddy))
        rw [if_pos (show GetsPage g c.slub n from ⟨hneeds.1, hneeds.2, hroot⟩)]
        have hmap : ((offset', pageNum n) :: live).map Prod.snd
            = (Slab.mk (cacheIndex n) (t.kmemCacheList (cacheIndex n)).base (pageNum n) :: c.slabs).map Slab.pages
              ++ [1] := by
          rw [List.map_cons, hlive]
          rfl
        refine ⟨htotal, ⟨_, hmap, hplaced', hstored'⟩, ?_⟩
        have hten := Buddy.height_lt hm
        have hsmall : 2 ^ m ≤ 2 ^ 9 := Nat.pow_le_pow_right (by omega) (by omega)
        have hsum := hplaced'.sum_le
        have hold := h.nrFree
        rw [List.map_cons, List.sum_cons, hpow, allocated_eq hlive] at hsum
        have hnew := @allocated_eq ⟨t, (object, n) :: c.live,
          ⟨cacheIndex n, (t.kmemCacheList (cacheIndex n)).base, pageNum n⟩ :: c.slabs⟩ _ hmap
        rw [List.map_cons, List.sum_cons, hpow, allocated_eq hlive] at hnew
        rw [← hnew]
        show t.buddy.nrFree + _ = _
        rw [hnrFree]
        show (c.slub.buddy.nrFree + 2 ^ 32 - 2 ^ k) % 2 ^ 32 + (2 ^ k + c.allocated) = _
        change 2 ^ k + c.allocated ≤ 2 ^ m at hsum
        omega
      . rw [Buddy.buddyAllocPages_of_lt hn (Nat.lt_of_not_le hroot)] at hbuddy
        obtain ⟨-, hsame⟩ := Prod.mk.inj (Option.some_inj.mp hbuddy)
        rw [if_neg (fun hgets : GetsPage g c.slub n => hroot hgets.2.2)]
        obtain ⟨htotal, htree, hnrFree⟩ := h
        rw [hsame] at htotal htree hnrFree
        exact ⟨htotal, htree, hnrFree⟩
    . rename_i hneeds
      rw [if_neg (fun hgets : GetsPage g c.slub n => hneeds ⟨hgets.1, hgets.2.1⟩)]
      obtain ⟨htotal, htree, hnrFree⟩ := h
      rw [← hbuddy] at htotal htree hnrFree
      exact ⟨htotal, htree, hnrFree⟩
  | free object =>
    simp only [SlubSys.step, Option.bind_eq_bind, Option.bind_eq_some_iff, Option.pure_def, Option.some_inj] at hstep
    obtain ⟨t, hfree, rfl⟩ := hstep
    obtain ⟨htotal, htree, hnrFree⟩ := h
    rw [← slubFreePages_buddy hfree] at htotal htree hnrFree
    exact ⟨htotal, htree, hnrFree⟩
  | write object a v =>
    simp only [SlubSys.step, Option.pure_def, Option.some_inj] at hstep
    obtain rfl := hstep
    exact ⟨h.total, h.tree, h.nrFree⟩

/--
The number of free pages is too large by all pages.
-/
theorem Counted.not_freePages (h : Counted m c) : ¬c.FreePages g (2 ^ m) := by
  intro hfree
  have hcount : c.slub.buddy.nrFree = 2 ^ m - c.allocated := hfree.count
  have hle := h.allocated_le
  have hnrFree := h.nrFree
  have hpos := Nat.two_pow_pos m
  omega

theorem not_reportsFailure {n : Nat} : ¬ReportsFailure g s n :=
  fun h => (slubAllocPages_buddy h).1 rfl

/--
In no state that calls of clients lead to is the number of free pages right, and in none does a request fail for which
there are no pages.
-/
theorem never_freePages (g : Globals) (hm : 2 * 2 ^ m - 1 ≤ Buddy.nodes)
    (hres : ∀ p < 2 ^ m, (s.buddy.pages p).reserved = true)
    : ∀ s', slubInitMemmap g s (2 ^ m) = some s' →
        ∀ calls c, Run.Admits (SlubSys.step g) Legal ⟨s', [], []⟩ calls →
          Run.exec (SlubSys.step g) ⟨s', [], []⟩ calls = some c →
            ¬c.FreePages g (2 ^ m) ∧ ∀ n, Short g c.slub n → ¬ReportsFailure g c.slub n := by
  intro s' hinit calls c _ hexec
  have hm := Buddy.nodes_of_le hm
  have h : Counted m c := Run.exec_invariant (fun _ _ _ h hstep => h.step hm hstep) (counted_init hm hres hinit) hexec
  exact ⟨h.not_freePages, fun n _ => not_reportsFailure⟩

theorem never_freePages_booted
    : ¬FreePages bootGlobals (2 ^ 4) ⟨booted, [], []⟩ ∧
        ∀ n, Short bootGlobals booted n → ¬ReportsFailure bootGlobals booted n :=
  @never_freePages 4 bootSlub bootGlobals (by decide) (fun p _ => BuddyRun.reservedPages_reserved p) booted booted_eq
    [] ⟨booted, [], []⟩ trivial rfl

/--
Of 16 pages, one of which is reserved, 31 are free.
-/
theorem not_always_freePages
    : ∃ s', slubInitMemmap bootGlobals bootSlub (2 ^ 4) = some s' ∧
        ¬∀ calls c, Run.Admits (SlubSys.step bootGlobals) Legal ⟨s', [], []⟩ calls →
          Run.exec (SlubSys.step bootGlobals) ⟨s', [], []⟩ calls = some c → c.FreePages bootGlobals (2 ^ 4) := by
  refine ⟨booted, booted_eq, ?_⟩
  intro hall
  have hcount := (hall [] ⟨booted, [], []⟩ trivial rfl).count
  have hfalse : booted.buddyNrFreePages ≠ 2 ^ 4 - allocated ⟨booted, [], []⟩ := by decide +kernel
  exact hfalse hcount

end SlubSys
end Ucore

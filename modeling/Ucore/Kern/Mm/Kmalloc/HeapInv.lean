import Ucore.Kern.Mm.Kmalloc.Lemmas

/-!
This module contains the invariant of the heap of kern/mm/kmalloc.c: free blocks and blocks in use
cover the pages that the heap has got, each unit once.
-/

namespace Ucore

namespace Slob

/--
The variable `arena` is a free block of one unit. No page is next to it: it lies inside the kernel
image.
-/
def arenaBlock (arena : Nat) : Block := ⟨arena, 1⟩

/--
`used` are the blocks in use with their headers, `fs` the blocks of the free list.
-/
structure Heap (arena : Nat) (h : Slob) (used fs : List Block) : Prop where
  free : h.FreeList fs
  arenaFree : arenaBlock arena ∈ fs
  covers : ∀ x, Block.cover fs x + Block.cover used x = Block.cover (arenaBlock arena :: h.pages) x
  once : ∀ x, Block.cover (arenaBlock arena :: h.pages) x ≤ 1
  apart : ∀ p ∈ h.pages, p.stop ≠ arena ∧ arena + 1 ≠ p.addr
  usedPos : ∀ b ∈ used, 0 < b.units

/--
What `alloc_pages` may answer with: pages that nobody has, and that are not next to `arena`.
-/
structure FreshPages (arena : Nat) (h : Slob) (page order : Nat) : Prop where
  aligned : page % pageUnits = 0
  ne_zero : page ≠ 0
  free : ∀ i < pageUnits * 2 ^ order, Block.cover (arenaBlock arena :: h.pages) (page + i) = 0
  apart : page + pageUnits * 2 ^ order ≠ arena ∧ arena + 1 ≠ page

instance (arena : Nat) (h : Slob) (page order : Nat) : Decidable (FreshPages arena h page order) :=
  decidable_of_iff (page % pageUnits = 0 ∧ page ≠ 0 ∧
      (∀ i < pageUnits * 2 ^ order, Block.cover (arenaBlock arena :: h.pages) (page + i) = 0) ∧
      (page + pageUnits * 2 ^ order ≠ arena ∧ arena + 1 ≠ page))
    ⟨fun ⟨h₁, h₂, h₃, h₄⟩ => ⟨h₁, h₂, h₃, h₄⟩, fun ⟨h₁, h₂, h₃, h₄⟩ => ⟨h₁, h₂, h₃, h₄⟩⟩

section Heap

variable {arena : Nat} {h h' : Slob} {used fs as cs : List Block} {b c d : Block} {x : Nat}

theorem pageUnits_pos (order : Nat) : 0 < pageUnits * 2 ^ order :=
  Nat.mul_pos (by decide) (Nat.two_pow_pos order)

theorem FreshPages.cover_eq_zero {page order : Nat} (hfresh : FreshPages arena h page order)
    (hx : Block.Has ⟨page, pageUnits * 2 ^ order⟩ x)
    : Block.cover (arenaBlock arena :: h.pages) x = 0 := by
  obtain ⟨i, rfl⟩ := Nat.exists_eq_add_of_le hx.1
  exact hfresh.free i (Nat.lt_of_add_lt_add_left hx.2)

theorem Heap.fuel (hheap : Heap arena h used fs) : fs.length ≤ h.slobFuel := by
  have hle : (fs.map Block.units).sum ≤ ((arenaBlock arena :: h.pages).map Block.units).sum := by
    apply Block.units_le_of_cover_le
    intro x
    rw [← hheap.covers]
    exact Nat.le_add_right ..
  have hlength := Block.length_le_units hheap.free.pos
  simp only [List.map_cons, List.sum_cons, arenaBlock] at hle
  have hunits : (h.pages.map (·.units)).sum = (h.pages.map Block.units).sum := rfl
  rw [slobFuel, hunits]
  omega

theorem Heap.cover_le (hheap : Heap arena h used fs) (x : Nat)
    : Block.cover fs x + Block.cover used x ≤ 1 := by
  rw [hheap.covers]
  exact hheap.once x

/--
A block in use shares nothing with a free one.
-/
theorem Heap.used_apart (hheap : Heap arena h used fs) (hb : b ∈ used) (hc : c ∈ fs)
    : c.stop ≤ b.addr ∨ b.stop ≤ c.addr := by
  apply Block.apart (hheap.free.pos c hc) (hheap.usedPos b hb)
  intro x hcx hbx
  have h₁ := Block.cover_pos hc hcx
  have h₂ := Block.cover_pos hb hbx
  have := hheap.cover_le x
  omega

theorem Heap.used_addr (hheap : Heap arena h used fs) (hb : b ∈ used) (hc : c ∈ fs)
    : b.addr ≠ c.addr := by
  intro heq
  have := hheap.used_apart hb hc
  have := hheap.usedPos b hb
  have := hheap.free.pos c hc
  simp only [Block.stop] at *
  omega

/--
No block of the heap touches `arena`.
-/
theorem Heap.arena_apart (hheap : Heap arena h used fs) (hb : b ∈ used)
    : b.stop ≠ arena ∧ arena + 1 ≠ b.addr := by
  have hpos := hheap.usedPos b hb
  have harena := hheap.used_apart hb hheap.arenaFree
  -- every unit of b lies in a page
  have hpage : ∀ x, b.Has x → ∃ p ∈ h.pages, p.Has x := by
    intro x hx
    have hcover := hheap.covers x
    have hused := Block.cover_pos hb hx
    have hnot : ¬(arenaBlock arena).Has x := by
      simp only [arenaBlock, Block.Has, Block.stop] at *
      omega
    rw [Block.cover_cons, if_neg hnot, Nat.zero_add] at hcover
    have : 0 < Block.cover h.pages x := by omega
    obtain ⟨p, hp, hpx⟩ := List.countP_pos_iff.mp this
    exact ⟨p, hp, by simpa using hpx⟩
  have hout : ∀ p ∈ h.pages, ¬p.Has arena := by
    intro p hp hpa
    have honce := hheap.once arena
    have := Block.cover_pos hp hpa
    have harenaHas : (arenaBlock arena).Has arena := Block.has_addr Nat.one_pos
    rw [Block.cover_cons, if_pos harenaHas] at honce
    omega
  constructor
  . intro heq
    obtain ⟨p, hp, hpx⟩ := hpage (b.stop - 1) (by simp only [Block.Has, Block.stop]; omega)
    have h₁ := hout p hp
    have h₂ := (hheap.apart p hp).1
    simp only [Block.Has, Block.stop] at *
    omega
  . intro heq
    obtain ⟨p, hp, hpx⟩ := hpage b.addr (Block.has_addr hpos)
    have h₁ := hout p hp
    have h₂ := (hheap.apart p hp).2
    simp only [Block.Has, Block.stop] at *
    omega

theorem Heap.perm {used' : List Block} (hheap : Heap arena h used fs) (hperm : used.Perm used')
    : Heap arena h used' fs :=
  ⟨hheap.free, hheap.arenaFree, fun x => by rw [← Block.cover_perm hperm]; exact hheap.covers x, hheap.once,
    hheap.apart, fun b hb => hheap.usedPos b (hperm.mem_iff.mpr hb)⟩

theorem spaced_stop_ne (hspaced : Block.Spaced fs) (hpos : ∀ b ∈ fs, 0 < b.units) (hb : b ∈ fs)
    (hc : c ∈ fs)
    : b.stop ≠ c.addr := by
  induction fs with
  | nil => contradiction
  | cons d fs ih =>
    obtain ⟨hd, hrest⟩ := List.pairwise_cons.mp hspaced
    have hposd := hpos d List.mem_cons_self
    rcases List.mem_cons.mp hb with heqb | hb' <;> rcases List.mem_cons.mp hc with heqc | hc'
    . rw [heqb, heqc, Block.stop]
      omega
    . have := hd c hc'
      rw [heqb]
      omega
    . have := hd b hb'
      have := hpos b hb
      rw [heqc]
      simp only [Block.stop] at *
      omega
    . exact ih hrest (fun e he => hpos e (List.mem_cons_of_mem _ he)) hb' hc'

theorem exists_insertMerge : ∃ d ∈ Block.insertMerge as b cs, b.units ≤ d.units := by
  have hmerge : ∃ d ∈ (Block.mergeInto b cs).head?, b.units ≤ d.units := by
    cases cs with
    | nil => exact ⟨b, rfl, Nat.le_refl _⟩
    | cons c cs =>
      rw [Block.mergeInto_cons]
      split
      . exact ⟨_, rfl, Nat.le_add_right ..⟩
      . exact ⟨b, rfl, Nat.le_refl _⟩
  obtain ⟨d, hd, hunits⟩ := hmerge
  rcases List.eq_nil_or_concat' as with rfl | ⟨as, a, rfl⟩
  . exact ⟨d, List.mem_of_mem_head? hd, hunits⟩
  . rw [Block.insertMerge_concat]
    cases hlist : Block.mergeInto b cs with
    | nil => exact absurd hlist Block.mergeInto_ne_nil
    | cons e es =>
      rw [hlist, List.head?_cons, Option.mem_def, Option.some_inj] at hd
      subst hd
      rw [Block.mergeInto_cons]
      split
      . exact ⟨_, List.mem_append_right _ List.mem_cons_self, Nat.le_trans hunits (Nat.le_add_left ..)⟩
      . exact ⟨e, List.mem_append_right _ (List.mem_cons_of_mem _ List.mem_cons_self), hunits⟩

/--
`slob_free` gives a block back: its units are free, everything else stays.
-/
theorem Heap.slobFree {size : Nat} (hheap : Heap arena h (b :: used) fs)
    (hunits : (if size ≠ 0 then slobUnits size else (h.mem b.addr).units) = b.units)
    : ∃ h' fs', h.slobFree b.addr size = some h' ∧ Heap arena h' used fs' ∧ h'.pages = h.pages ∧
        h'.bigblocks = h.bigblocks ∧ (∀ c ∈ used, h'.mem c.addr = h.mem c.addr) ∧
        (∀ x, Block.cover fs' x = Block.cover (b :: fs) x) ∧ ∃ d ∈ fs', b.units ≤ d.units := by
  have hb : b ∈ b :: used := List.mem_cons_self
  have hpos := hheap.usedPos b hb
  obtain ⟨hstop, haddr⟩ := hheap.arena_apart hb
  obtain ⟨h', as, cs, hfs, hbefore, hbehind, hfree, hfl, hpages, hbigs, hframe⟩ :=
    hheap.free.slobFree hpos hunits (fun c hc => hheap.used_apart hb hc) (by
      intro c hc
      have harena := hheap.arenaFree
      rw [hc, List.mem_singleton] at harena
      rw [← harena]
      exact hstop) hheap.fuel
  have hcover : ∀ x, Block.cover (Block.insertMerge as b cs) x = Block.cover (b :: fs) x := by
    intro x
    rw [Block.cover_insertMerge, hfs]
  refine ⟨h', _, hfree, ⟨hfl, ?_, ?_, ?_, ?_, ?_⟩, hpages, hbigs, ?_, hcover, exists_insertMerge⟩
  . apply @Block.mem_insertMerge b (arenaBlock arena) as cs (hfs ▸ hheap.arenaFree) hstop haddr
    intro a ha
    exact spaced_stop_ne hheap.free.spaced hheap.free.pos (by simp [hfs, ha]) hheap.arenaFree
  . intro x
    rw [hcover, hpages, ← hheap.covers, Block.cover_cons, Block.cover_cons]
    omega
  . rw [hpages]
    exact hheap.once
  . rw [hpages]
    exact hheap.apart
  . exact fun c hc => hheap.usedPos c (List.mem_cons_of_mem _ hc)
  . intro c hc
    apply hframe
    . intro hmem
      obtain ⟨d, hd, heq⟩ := List.mem_map.mp hmem
      exact hheap.used_addr (List.mem_cons_of_mem _ hc) hd heq.symm
    . intro heq
      -- c and b are both in use
      have hposc := hheap.usedPos c (List.mem_cons_of_mem _ hc)
      have h₁ := Block.cover_pos hc (Block.has_addr hposc)
      have hbhas : b.Has c.addr := heq ▸ Block.has_addr hpos
      have h₂ := hheap.cover_le c.addr
      rw [Block.cover_cons, if_pos hbhas] at h₂
      omega

/--
New pages count as in use.
-/
theorem Heap.getFreePages {page order : Nat} (hheap : Heap arena h used fs)
    (hfresh : FreshPages arena h page order)
    : Heap arena (h.getFreePages page order) (⟨page, pageUnits * 2 ^ order⟩ :: used) fs := by
  have hcover : ∀ x, Block.cover (arenaBlock arena :: (h.getFreePages page order).pages) x =
      (if Block.Has ⟨page, pageUnits * 2 ^ order⟩ x then 1 else 0) +
        Block.cover (arenaBlock arena :: h.pages) x := by
    intro x
    simp only [Slob.getFreePages, Block.cover_cons]
    omega
  refine ⟨⟨hheap.free.ring, hheap.free.slobfree, hheap.free.spaced, hheap.free.pos⟩, hheap.arenaFree, ?_,
    ?_, ?_, ?_⟩
  . intro x
    rw [hcover, ← hheap.covers, Block.cover_cons]
    omega
  . intro x
    rw [hcover]
    split
    next hx =>
      rw [hfresh.cover_eq_zero hx]
    . rw [Nat.zero_add]
      exact hheap.once x
  . intro p hp
    rcases List.mem_cons.mp hp with rfl | hp
    . exact hfresh.apart
    . exact hheap.apart p hp
  . intro c hc
    rcases List.mem_cons.mp hc with rfl | hc
    . exact pageUnits_pos order
    . exact hheap.usedPos c hc

/--
A block of the free list is cut into a block in use and what is left.
-/
theorem Heap.allocAt {p : Block} {units : Nat} (hheap : Heap arena h used fs) (hp : p ∈ fs)
    (hc : c ∈ fs) (hnext : (h.mem p.addr).next = c.addr) (hunits : units ≤ c.units) (htwo : 1 < units)
    : ∃ fs', Heap arena (h.allocAt units p.addr c.addr) (⟨c.addr, units⟩ :: used) fs' ∧
        ((h.allocAt units p.addr c.addr).mem c.addr).units = units ∧
        ∀ d ∈ used, (h.allocAt units p.addr c.addr).mem d.addr = h.mem d.addr := by
  have hcarena : c ≠ arenaBlock arena := by
    rintro rfl
    simp only [arenaBlock] at hunits
    omega
  have hne : p ≠ c := by
    rintro rfl
    have hfs := hheap.free.next_self hp hnext
    have harena := hheap.arenaFree
    rw [hfs, List.mem_singleton] at harena
    exact hcarena harena.symm
  obtain ⟨as, cs, rfl⟩ := List.append_of_mem hc
  obtain ⟨hfl, hcell, hframe⟩ := hheap.free.allocAt hp hne hnext hunits (Nat.zero_lt_of_lt htwo)
  have hsplit : ∀ x, (if c.Has x then 1 else 0) =
      (if Block.Has ⟨c.addr, units⟩ x then 1 else 0) + Block.cover (rest c units) x := by
    intro x
    by_cases hexact : c.units = units
    . simp only [rest, hexact, if_true, Block.cover_nil, Nat.add_zero]
      rw [← hexact]
    . simp only [rest, hexact, if_false]
      have hsum : units + (c.units - units) = c.units := Nat.add_sub_cancel' hunits
      have := @Block.has_split c x units (c.units - units)
      rw [hsum] at this
      rw [Block.cover_cons, Block.cover_nil, Nat.add_zero, ← this]
  have hpages : (h.allocAt units p.addr c.addr).pages = h.pages := by
    unfold Slob.allocAt
    simp only
    split <;> simp [setUnits, setNext]
  refine ⟨as ++ (rest c units ++ cs), ⟨hfl, ?_, ?_, hpages ▸ hheap.once, hpages ▸ hheap.apart, ?_⟩,
    hcell, ?_⟩
  . have harena := hheap.arenaFree
    simp only [List.mem_append, List.mem_cons] at harena ⊢
    rcases harena with harena | harena | harena
    . exact .inl harena
    . exact absurd harena.symm hcarena
    . exact .inr (.inr harena)
  . intro x
    have := hheap.covers x
    have hx := hsplit x
    rw [hpages, ← this]
    simp only [Block.cover_append, Block.cover_cons] at this ⊢
    omega
  . intro d hd
    rcases List.mem_cons.mp hd with rfl | hd
    . exact Nat.zero_lt_of_lt htwo
    . exact hheap.usedPos d hd
  . intro d hd
    apply hframe
    . exact hheap.used_addr hd hp
    . exact hheap.used_addr hd hc
    . intro hexact heq
      have := hheap.used_apart hd hc
      have := hheap.usedPos d hd
      simp only [Block.stop] at *
      omega

theorem slobUnits_lt {size : Nat} (hsize : size + slobUnit < kmallocPageSize)
    : slobUnits size < pageUnits := by
  simp only [slobUnit, kmallocPageSize, slobUnits, pageUnits] at *
  omega

theorem one_lt_slobUnits {size : Nat} (hsize : slobUnit < size) : 1 < slobUnits size := by
  simp only [slobUnit, slobUnits] at *
  omega

/--
`slob_alloc` comes to its end with a block in use, or it finds no room and gets no page.
-/
theorem Heap.slobAlloc {size : Nat} {page : Option Nat} (hheap : Heap arena h used fs)
    (hsize : size + slobUnit < kmallocPageSize) (hbig : slobUnit < size)
    (hpage : ∀ p ∈ page, FreshPages arena h p 0)
    : (h.slobAlloc size [page] = some (none, h) ∧ page = none ∧ ∀ b ∈ fs, b.units < slobUnits size) ∨
        ∃ b h' fs', h.slobAlloc size [page] = some (some b, h') ∧
          Heap arena h' (⟨b, slobUnits size⟩ :: used) fs' ∧ (h'.mem b).units = slobUnits size ∧
          h'.bigblocks = h.bigblocks ∧ (∀ c ∈ used, h'.mem c.addr = h.mem c.addr) ∧
          (h'.pages = h.pages ∨ ∃ p ∈ page, h'.pages = ⟨p, pageUnits⟩ :: h.pages) := by
  have htwo := one_lt_slobUnits hbig
  have hunits := slobUnits_lt hsize
  have hne : size ≠ kmallocPageSize := by
    simp only [slobUnit, kmallocPageSize] at *
    omega
  have hbigs : ∀ {h : Slob} {p c : Nat}, (h.allocAt (slobUnits size) p c).bigblocks = h.bigblocks ∧
      (h.allocAt (slobUnits size) p c).pages = h.pages := by
    intro h p c
    unfold Slob.allocAt
    simp only
    split <;> simp [setUnits, setNext]
  rw [Slob.slobAlloc, if_pos hsize, slobAllocLoop.eq_def]
  rcases @FreeList.allocFind h fs (slobUnits size) hheap.free hheap.fuel with
    ⟨p, hp, c, hc, hfind, hroom, hnext⟩ | ⟨hfind, hno⟩
  . obtain ⟨fs', hheap', hcell, hframe⟩ := hheap.allocAt hp hc hnext hroom htwo
    exact .inr ⟨c.addr, _, fs', by simp only [hfind], hheap', hcell, hbigs.1, hframe, .inl hbigs.2⟩
  . simp only [hfind, hne, if_false]
    cases page with
    | none => exact .inl ⟨rfl, rfl, hno⟩
    | some page =>
      -- the new page has room
      have hnew := hheap.getFreePages (hpage page rfl)
      have hpageUnits : pageUnits * 2 ^ 0 = pageUnits := Nat.mul_one _
      rw [hpageUnits] at hnew
      obtain ⟨h₁, fs₁, hfree, hheap₁, hpages₁, hbigs₁, hframe₁, -, d, hd, hdroom⟩ :=
        @Heap.slobFree arena _ used fs ⟨page, pageUnits⟩ kmallocPageSize hnew rfl
      simp only [hfree, Option.bind_some]
      rw [slobAllocLoop.eq_def]
      rcases @FreeList.allocFind h₁ fs₁ (slobUnits size) hheap₁.free hheap₁.fuel with
        ⟨p, hp, c, hc, hfind, hroom, hnext⟩ | ⟨-, hno⟩
      . obtain ⟨fs', hheap', hcell, hframe⟩ := hheap₁.allocAt hp hc hnext hroom htwo
        refine .inr ⟨c.addr, _, fs', by simp only [hfind], hheap', hcell, hbigs.1.trans hbigs₁, ?_, .inr
          ⟨page, rfl, ?_⟩⟩
        . intro e he
          exact (hframe e he).trans (hframe₁ e he)
        . rw [hbigs.2, hpages₁]
          simp [Slob.getFreePages, pageUnits]
      . have := hno d hd
        simp only at hdroom
        omega

/--
Pages are given back.
-/
theorem Heap.freePages {p : Block} (hheap : Heap arena h (p :: used) fs) (hp : p ∈ h.pages)
    : Heap arena { h with pages := h.pages.erase p } used fs := by
  have hcover : ∀ x, Block.cover (arenaBlock arena :: h.pages) x =
      (if p.Has x then 1 else 0) + Block.cover (arenaBlock arena :: h.pages.erase p) x := by
    intro x
    simp only [Block.cover_cons, Block.cover_perm (List.perm_cons_erase hp)]
    omega
  refine ⟨⟨hheap.free.ring, hheap.free.slobfree, hheap.free.spaced, hheap.free.pos⟩, hheap.arenaFree,
    ?_, ?_, ?_, ?_⟩
  . intro x
    show _ = Block.cover (arenaBlock arena :: h.pages.erase p) x
    have := hheap.covers x
    rw [hcover, Block.cover_cons] at this
    omega
  . intro x
    show Block.cover (arenaBlock arena :: h.pages.erase p) x ≤ 1
    have := hheap.once x
    rw [hcover] at this
    omega
  . exact fun q hq => hheap.apart q (List.mem_of_mem_erase hq)
  . exact fun b hb => hheap.usedPos b (List.mem_cons_of_mem _ hb)

/--
Two blocks in use do not meet.
-/
theorem Heap.used_disjoint (hheap : Heap arena h (b :: used) fs) (hc : c ∈ used) (hb : b.Has x)
    : ¬c.Has x := by
  intro hcx
  have hpos := Block.cover_pos hc hcx
  have := hheap.cover_le x
  rw [Block.cover_cons, if_pos hb] at this
  omega

end Heap

end Slob
end Ucore

import Ucore.Kern.Mm.DefaultPmm.Lemmas.AllocPages
import Ucore.Kern.Mm.Kmalloc.HeapInv
import Ucore.Kern.Mm.Pmm.Impl

/-!
This module contains `alloc_pages` of kern/mm/pmm.c with the swapping it falls back on, and its callers
`kmalloc`, `pgdir_alloc_page` and `setup_kstack`, each as it behaves when there are no pages left.

A function returns `none` where it follows a null pointer, an assertion fails or a loop does not come to its end.
-/

namespace Ucore

open Slob

/--
`praList` is the list of the swap manager, `checkMm` the address space that `check_mm_struct` points to.
-/
structure KernMem (ι : Type) where
  pmm : Pmm
  pgdirs : ι → Pgdir
  praList : List Nat
  praVaddr : Nat → Nat
  maxSwapOffset : Nat
  swapInitOk : Bool
  checkMm : Option ι
  slob : Slob

namespace KernMem

def kstackpage : Nat := 2

/--
`page2kva` in units of `SLOB_UNIT` bytes.
-/
def page2kva (page : Nat) : Nat := (page + 0xffffffffc0000) * pageUnits

variable {ι : Type} [DecidableEq ι]

def setPte (s : KernMem ι) (i : ι) (la : Nat) (pte : Pte) : KernMem ι :=
  { s with pgdirs := Function.update s.pgdirs i ((s.pgdirs i).setPte la pte) }

def setPageRef (s : KernMem ι) (page : Nat) (val : Int) : KernMem ι :=
  { s with pmm := s.pmm.setPage page { s.pmm.pages page with ref := val } }

omit [DecidableEq ι] in
def freePage (s : KernMem ι) (page : Nat) : Option (KernMem ι) :=
  (s.pmm.defaultFreePages page 1).map fun pmm => { s with pmm }

/--
One round of `swap_out`. `_fifo_swap_out_victim` takes the head of an empty list for a page.
-/
def swapOutRound (s : KernMem ι) (i : ι) : Option (KernMem ι) :=
  match s.praList with
  | [] => none
  | page :: praList =>
    let v := s.praVaddr page
    let offset := v / pgsize + 1
    match (s.pgdirs i).getPte v with
    | none => none
    | some pte =>
      -- the assertion of swap_out, and the check of swap_offset
      if pte.valid ∧ offset < s.maxSwapOffset then
        let entry := offset <<< 8
        ({ s with praList }.setPte i v ⟨entry >>> 10, BitVec.ofNat 10 entry⟩).freePage page
      else
        none

/--
`swap_out`, which reads `mm->sm_priv` first.
-/
def swapOut (s : KernMem ι) : Option ι → Nat → Option (KernMem ι)
  | _, 0 => some s
  | none, _ + 1 => none
  | some i, n + 1 => (s.swapOutRound i).bind fun s => swapOut s (some i) n

def allocPagesLoop (n : Nat) : Nat → KernMem ι → Option (Option Nat × KernMem ι)
  | 0, _ => none
  | fuel + 1, s =>
    (s.pmm.defaultAllocPages n).bind fun (page, pmm) =>
      let s := { s with pmm }
      if page ≠ none ∨ n > 1 ∨ s.swapInitOk = false then
        some (page, s)
      else
        (s.swapOut s.checkMm n).bind fun s => allocPagesLoop n fuel s

/--
Each round of the loop takes a page off the list.
-/
def allocPages (s : KernMem ι) (n : Nat) : Option (Option Nat × KernMem ι) :=
  allocPagesLoop n (s.praList.length + 2) s

/--
`setup_kstack` with the frames of the stack.
-/
def setupKstack (s : KernMem ι) : Option (Int × Option Nat × KernMem ι) :=
  (s.allocPages kstackpage).map fun
    | (some page, s) => (0, some page, s)
    | (none, s) => (-Errno.noMem.toInt, none, s)

/--
The first level of `get_pte` with `create`.
-/
def createPageDir (s : KernMem ι) (i : ι) (la : Nat) : Option (Bool × KernMem ι) :=
  match s.pgdirs i (pdx1 la) with
  | some _ => some (true, s)
  | none =>
    (s.allocPages 1).map fun
      | (none, s) => (false, s)
      | (some page, s) =>
        let s := s.setPageRef page 1
        let pgdir := Function.update (s.pgdirs i) (pdx1 la) (some ⟨page, fun _ => none⟩)
        (true, { s with pgdirs := Function.update s.pgdirs i pgdir })

/--
The second level.
-/
def createPageTable (s : KernMem ι) (i : ι) (la : Nat) : Option (Bool × KernMem ι) :=
  match s.pgdirs i (pdx1 la) with
  | none => some (false, s)
  | some pd =>
    match pd.tables (pdx0 la) with
    | some _ => some (true, s)
    | none =>
      (s.allocPages 1).map fun
        | (none, s) => (false, s)
        | (some page, s) =>
          let s := s.setPageRef page 1
          let pd := { pd with tables := Function.update pd.tables (pdx0 la) (some ⟨page, fun _ => Pte.zero⟩) }
          let pgdir := Function.update (s.pgdirs i) (pdx1 la) (some pd)
          (true, { s with pgdirs := Function.update s.pgdirs i pgdir })

/--
`get_pte` with `create`.
-/
def getPteCreate (s : KernMem ι) (i : ι) (la : Nat) : Option (Option Pte × KernMem ι) :=
  (s.createPageDir i la).bind fun
    | (false, s) => some (none, s)
    | (true, s) =>
      (s.createPageTable i la).map fun
        | (false, s) => (none, s)
        | (true, s) => ((s.pgdirs i).getPte la, s)

def pageRemovePte (s : KernMem ι) (i : ι) (la : Nat) (pte : Pte) : Option (KernMem ι) :=
  if pte.valid then
    let page := pte.ppn
    let s := s.setPageRef page ((s.pmm.pages page).ref - 1)
    (if (s.pmm.pages page).ref = 0 then s.freePage page else some s).map fun s => s.setPte i la Pte.zero
  else
    some s

def pageInsert (s : KernMem ι) (i : ι) (page la : Nat) (perm : BitVec 10) : Option (Int × KernMem ι) :=
  (s.getPteCreate i la).bind fun
    | (none, s) => some (-Errno.noMem.toInt, s)
    | (some pte, s) =>
      let s := s.setPageRef page ((s.pmm.pages page).ref + 1)
      (if pte.valid then
        if pte.ppn = page then
          some (s.setPageRef page ((s.pmm.pages page).ref - 1))
        else
          s.pageRemovePte i la pte
      else
        some s).map fun s => (0, s.setPte i la (Pte.pteCreate page (Pte.pteV ||| perm)))

/--
`pgdir_alloc_page`, which makes the page swappable only for `check_mm_struct`.
-/
def pgdirAllocPage (s : KernMem ι) (i : ι) (la : Nat) (perm : BitVec 10) : Option (Option Nat × KernMem ι) :=
  (s.allocPages 1).bind fun
    | (none, s) => some (none, s)
    | (some page, s) =>
      (s.pageInsert i page la perm).bind fun (ret, s) =>
        if ret ≠ 0 then
          (s.freePage page).map fun s => (none, s)
        else if s.swapInitOk ∧ s.checkMm ≠ none then
          if (s.pmm.pages page).ref = 1 then
            some (some page, { s with
              praList := s.praList ++ [page]
              praVaddr := Function.update s.praVaddr page la
            })
          else
            none
        else
          some (some page, s)

/--
`__slob_get_free_pages`.
-/
def slobGetFreePages (s : KernMem ι) (order : Nat) : Option (Option Nat × KernMem ι) :=
  (s.allocPages (2 ^ order)).map fun
    | (none, s) => (none, s)
    | (some page, s) => (some (page2kva page), { s with slob := s.slob.getFreePages (page2kva page) order })

/--
The loop of `slob_alloc`. It gets at most one page, whose block has room.
-/
def slobAllocLoop (size : Nat) : Nat → KernMem ι → Option (Option Nat × KernMem ι)
  | 0, _ => none
  | fuel + 1, s =>
    let h := s.slob
    let units := slobUnits size
    match h.allocFind units h.slobFuel h.slobfree (h.mem h.slobfree).next with
    | none => none
    | some (some (prev, cur)) => some (some cur, { s with slob := h.allocAt units prev cur })
    | some none =>
      if size = kmallocPageSize then
        some (none, s)
      else
        (s.slobGetFreePages 0).bind fun
          | (none, s) => some (none, s)
          | (some page, s) =>
            (s.slob.slobFree page kmallocPageSize).bind fun slob => slobAllocLoop size fuel { s with slob }

def slobAlloc (s : KernMem ι) (size : Nat) : Option (Option Nat × KernMem ι) :=
  if size + slobUnit < kmallocPageSize then slobAllocLoop size 2 s else none

def kmalloc (s : KernMem ι) (size : Nat) : Option (Option Nat × KernMem ι) :=
  if size < kmallocPageSize - slobUnit then
    (s.slobAlloc (size + slobUnit)).map fun r => (r.1.map (· + 1), r.2)
  else
    (s.slobAlloc sizeofBigblock).bind fun
      | (none, s) => some (none, s)
      | (some addr, s) =>
        let order := findOrder size
        (s.slobGetFreePages order).bind fun
          | (some pages, s) =>
            let slob := { s.slob with bigblocks := { addr, order, pages } :: s.slob.bigblocks }
            some (some pages, { s with slob })
          | (none, s) => (s.slob.slobFree addr sizeofBigblock).map fun slob => (none, { s with slob })

/--
The page manager finds no block of `n` pages or more.
-/
def NoBlock (s : KernMem ι) (n : Nat) : Prop := ∀ m ≥ n, s.pmm.defaultAllocPages m = some (none, s.pmm)

/--
`check_mm_struct` is only set during the checks at boot, and then the list may be empty.
-/
def NothingToSwap (s : KernMem ι) : Prop := s.checkMm = none ∨ s.praList = []

/--
The result is there, only the free list of `kmalloc` may have changed, and where the result is `NULL` the same
blocks are in use.
-/
def Reported (arena : Nat) (used : List Block) (s : KernMem ι) (result : Option (Option Nat × KernMem ι)) : Prop :=
  ∃ r slob, result = some (r, { s with slob }) ∧ (r = none → ∃ fs, Heap arena slob used fs)

variable {s : KernMem ι} {n : Nat}

omit [DecidableEq ι] in
/--
A well formed free list without a block of `n` pages.
-/
theorem noBlock_of_represents {blocks : List (Nat × Nat)} (h : s.pmm.Represents blocks) (hn : 0 < n)
    (hsmall : ∀ b ∈ blocks, b.2 < n)
    : s.NoBlock n := by
  intro m hm
  rcases Pmm.defaultAllocPages_spec h (Nat.lt_of_lt_of_le hn hm) with hnone | ⟨pre, b, k, post, rfl, hle, -⟩
  . exact hnone
  . have := hsmall (b, k) (by simp)
    simp only at this
    omega

theorem NothingToSwap.swapOut (h : s.NothingToSwap) : s.swapOut s.checkMm (n + 1) = none := by
  rcases h with hnull | hempty
  . rw [hnull]
    rfl
  . cases s.checkMm with
    | none => rfl
    | some i => rw [KernMem.swapOut, swapOutRound, hempty, Option.bind_none]

/--
A request for one page ends in `swap_out`.
-/
theorem allocPages_one (hswap : s.swapInitOk = true) (hnothing : s.NothingToSwap) (hfull : s.NoBlock 1)
    : s.allocPages 1 = none := by
  have hcontinue : ¬((none : Option Nat) ≠ none ∨ 1 > 1 ∨ s.swapInitOk = false) := by simp [hswap]
  have hout : s.swapOut s.checkMm 1 = none := hnothing.swapOut
  rw [allocPages, allocPagesLoop, hfull 1 (Nat.le_refl 1), Option.bind_some]
  exact (if_neg hcontinue).trans (by rw [hout, Option.bind_none])

theorem allocPages_many (hn : 1 < n) (hfull : s.NoBlock n) : s.allocPages n = some (none, s) := by
  rw [allocPages, allocPagesLoop, hfull n (Nat.le_refl n)]
  simp [hn]

section Kmalloc

variable {arena size : Nat} {used fs : List Block}

theorem slobAlloc_room (hheap : Heap arena s.slob used fs) (hsize : size + slobUnit < kmallocPageSize)
    (hbig : slobUnit < size) (hroom : ∃ b ∈ fs, slobUnits size ≤ b.units)
    : ∃ b slob fs', s.slobAlloc size = some (some b, { s with slob }) ∧
      Heap arena slob (⟨b, slobUnits size⟩ :: used) fs' := by
  obtain ⟨b, hb, hunits⟩ := hroom
  rw [slobAlloc, if_pos hsize, slobAllocLoop]
  rcases @FreeList.allocFind s.slob fs (slobUnits size) hheap.free hheap.fuel with
    ⟨p, hp, c, hc, hfind, hroom, hnext⟩ | ⟨-, hno⟩
  . obtain ⟨fs', hheap', -, -⟩ := hheap.allocAt hp hc hnext hroom (one_lt_slobUnits hbig)
    exact ⟨c.addr, _, fs', by simp only [hfind], hheap'⟩
  . have := hno b hb
    omega

/--
Without room `slob_alloc` asks for a page.
-/
theorem slobAlloc_noRoom (hswap : s.swapInitOk = true) (hnothing : s.NothingToSwap) (hfull : s.NoBlock 1)
    (hheap : Heap arena s.slob used fs) (hroom : ¬∃ b ∈ fs, slobUnits size ≤ b.units)
    : s.slobAlloc size = none := by
  rw [slobAlloc]
  split
  next hsize =>
    have hne : size ≠ kmallocPageSize := by
      simp only [slobUnit, kmallocPageSize] at *
      omega
    rcases @FreeList.allocFind s.slob fs (slobUnits size) hheap.free hheap.fuel with
      ⟨p, hp, c, hc, -, hunits, -⟩ | ⟨hfind, -⟩
    . exact absurd ⟨c, hc, hunits⟩ hroom
    . rw [slobAllocLoop]
      simp only [hfind, if_neg hne, slobGetFreePages, Nat.pow_zero, allocPages_one hswap hnothing hfull,
        Option.map_none, Option.bind_none]
  . rfl

theorem kmalloc_small (hswap : s.swapInitOk = true) (hnothing : s.NothingToSwap) (hfull : s.NoBlock 1)
    (hheap : Heap arena s.slob used fs) (hpos : 1 ≤ size) (hsize : size < kmallocPageSize - slobUnit)
    : s.Reported arena used (s.kmalloc size) ↔
      size + 2 * slobUnit < kmallocPageSize ∧ ∃ b ∈ fs, slobUnits (size + slobUnit) ≤ b.units := by
  rw [kmalloc, if_pos hsize]
  constructor
  . rintro ⟨r, slob, hresult, -⟩
    obtain ⟨⟨b, s'⟩, halloc, -⟩ := Option.map_eq_some_iff.mp hresult
    have hsmall : size + slobUnit + slobUnit < kmallocPageSize := by
      by_contra hlarge
      rw [slobAlloc, if_neg hlarge] at halloc
      contradiction
    refine ⟨by omega, ?_⟩
    by_contra hroom
    rw [slobAlloc_noRoom hswap hnothing hfull hheap hroom] at halloc
    contradiction
  . rintro ⟨hsmall, hroom⟩
    obtain ⟨b, slob, fs', halloc, -⟩ := slobAlloc_room hheap (by omega) (by omega) hroom
    rw [halloc]
    exact ⟨some (b + 1), slob, rfl, nofun⟩

/--
A big request needs a descriptor, and more than one page.
-/
theorem kmalloc_big (hswap : s.swapInitOk = true) (hnothing : s.NothingToSwap) (hfull : s.NoBlock 1)
    (hheap : Heap arena s.slob used fs) (hsize : ¬size < kmallocPageSize - slobUnit)
    : s.Reported arena used (s.kmalloc size) ↔
      (∃ b ∈ fs, slobUnits sizeofBigblock ≤ b.units) ∧ findOrder size ≠ 0 := by
  rw [kmalloc, if_neg hsize]
  by_cases hroom : ∃ b ∈ fs, slobUnits sizeofBigblock ≤ b.units
  . obtain ⟨b, slob, fs', halloc, hheap'⟩ := slobAlloc_room hheap (by decide) (by decide) hroom
    simp only [halloc, Option.bind_some, slobGetFreePages]
    by_cases horder : findOrder size = 0
    . have hnone : allocPages { s with slob } (2 ^ findOrder size) = none := by
        rw [horder]
        exact allocPages_one hswap hnothing hfull
      refine iff_of_false ?_ fun h => h.2 horder
      rintro ⟨r, slob', hresult, -⟩
      rw [hnone, Option.map_none, Option.bind_none] at hresult
      contradiction
    . have hmany : allocPages { s with slob } (2 ^ findOrder size) = some (none, { s with slob }) := by
        have hpow : 1 < 2 ^ findOrder size := Nat.one_lt_two_pow horder
        exact allocPages_many hpow fun m hm => hfull m (Nat.le_trans (Nat.le_of_lt hpow) hm)
      obtain ⟨slob', fs'', hfree, hheap'', -⟩ :=
        @Heap.slobFree arena slob used fs' ⟨b, slobUnits sizeofBigblock⟩ sizeofBigblock hheap' rfl
      simp only [hmany, Option.map_some, Option.bind_some, hfree]
      exact iff_of_true ⟨none, slob', rfl, fun _ => ⟨fs'', hheap''⟩⟩ ⟨hroom, horder⟩
  . simp only [slobAlloc_noRoom hswap hnothing hfull hheap hroom, Option.bind_none, hroom, false_and, iff_false]
    rintro ⟨r, slob', hresult, -⟩
    contradiction

end Kmalloc

/--
With the swapping initialised and nothing to swap out, a failing request is reported, with everything as it was,
if it is for more than one page. So `setup_kstack` reports it, `pgdir_alloc_page` never does, and `kmalloc` does
where it needs no single page.
-/
theorem out_of_memory_reported_iff (s : KernMem ι) (hswap : s.swapInitOk = true) (hnothing : s.NothingToSwap)
    : (∀ n ≥ 1, s.NoBlock n → (s.allocPages n = some (none, s) ↔ n > 1)) ∧
      (s.NoBlock kstackpage → s.setupKstack = some (-Errno.noMem.toInt, none, s)) ∧
      (s.NoBlock 1 → ∀ i la perm, s.pgdirAllocPage i la perm = none) ∧
      (s.NoBlock 1 → ∀ arena used fs size, Heap arena s.slob used fs → 1 ≤ size →
        (s.Reported arena used (s.kmalloc size) ↔
          (size + 2 * slobUnit < kmallocPageSize ∧ ∃ b ∈ fs, slobUnits (size + slobUnit) ≤ b.units) ∨
            (kmallocPageSize - slobUnit ≤ size ∧ (∃ b ∈ fs, slobUnits sizeofBigblock ≤ b.units) ∧
              findOrder size ≠ 0))) := by
  refine ⟨?_, ?_, ?_, ?_⟩
  . intro n hn hfull
    constructor
    . intro hreported
      by_contra hone
      obtain rfl : n = 1 := by omega
      rw [allocPages_one hswap hnothing hfull] at hreported
      contradiction
    . intro hmany
      exact allocPages_many hmany hfull
  . intro hfull
    rw [setupKstack, allocPages_many (by decide) hfull]
    rfl
  . intro hfull i la perm
    rw [pgdirAllocPage, allocPages_one hswap hnothing hfull, Option.bind_none]
  . intro hfull arena used fs size hheap hpos
    by_cases hsize : size < kmallocPageSize - slobUnit
    . rw [kmalloc_small hswap hnothing hfull hheap hpos hsize]
      exact ⟨.inl, fun h => h.resolve_right fun hbig => absurd hsize (Nat.not_lt.mpr hbig.1)⟩
    . rw [kmalloc_big hswap hnothing hfull hheap hsize]
      have hlarge : ¬size + 2 * slobUnit < kmallocPageSize := by
        simp only [slobUnit, kmallocPageSize] at *
        omega
      exact ⟨fun h => .inr ⟨Nat.not_lt.mp hsize, h⟩, fun h => (h.resolve_left fun hsmall => hlarge hsmall.1).2⟩

/--
All pages are handed out.
-/
def fullMem : KernMem Unit where
  pmm := ⟨16, by decide, fun _ => ⟨1, 0, 0⟩, ⟨fun _ => .freeList, fun _ => .freeList⟩, 0⟩
  pgdirs := fun _ _ => none
  praList := []
  praVaddr := fun _ => 0
  maxSwapOffset := 7
  swapInitOk := true
  checkMm := none
  slob := Slob.init (fun _ => ⟨0, 0⟩) 10

theorem fullMem_noBlock {n : Nat} (hn : 0 < n) : fullMem.NoBlock n := by
  intro m hm
  have hpos : 0 < m := Nat.lt_of_lt_of_le hn hm
  have hfree : fullMem.pmm.nrFree < m := hpos
  rw [Pmm.defaultAllocPages, if_pos hpos, if_pos hfree]

theorem out_of_memory_reported_kstack : fullMem.setupKstack = some (-Errno.noMem.toInt, none, fullMem) :=
  (out_of_memory_reported_iff fullMem rfl (.inl rfl)).2.1 (fullMem_noBlock (by decide))

theorem not_out_of_memory_reported : ¬∀ (s : KernMem Unit) (n : Nat), s.swapInitOk = true → s.NothingToSwap → 1 ≤ n →
    s.NoBlock n → s.allocPages n = some (none, s) := by
  intro hclaim
  have hfull : fullMem.NoBlock 1 := fullMem_noBlock (by decide)
  have hreported := hclaim fullMem 1 rfl (.inl rfl) (Nat.le_refl 1) hfull
  -- swap_out follows check_mm_struct, which is NULL
  rw [allocPages_one rfl (.inl rfl) hfull] at hreported
  contradiction

end KernMem
end Ucore

import Mathlib
import Ucore.Kern.Mm.Pmm.Impl
import Ucore.Lab2.Buddy.Impl

/-!
This module contains the slub allocator of lab2: `slub_init_memmap`, `slub_alloc_pages` and
`slub_free_pages` of kern/mm/default_pmm.c and the structures of kern/mm/memlayout.h that they use.

The memory is one of words, each at the address of its first byte. The functions return `none` where
an address in page zero is accessed, where an access lies outside of an array, and where a loop does not
end.
-/

namespace Ucore

/--
`struct kmem_cache` without its `object_list_head`, which is part of the memory: the objects point to it.
-/
structure KmemCache where
  objectSize : Nat
  base : Nat
  partialHeads : Nat
  fullHeads : Nat
  partialNum : Nat
  fullNum : Nat

/--
The caches are static.
-/
def KmemCache.zero : KmemCache := ⟨0, 0, 0, 0, 0, 0⟩

structure Slub where
  mem : Nat → Nat
  kmemCacheList : Nat → KmemCache
  buddy : Buddy

namespace Slub

/--
The addresses of `kmem_cache_list`, of `free_list` and of the first page. The globals of the kernel lie
below the pages.
-/
structure Globals where
  kmemCacheList : Nat
  freeList : Nat
  base : Nat
  kmemCacheList_ge : pgsize ≤ kmemCacheList
  freeList_ge : pgsize ≤ freeList
  kmemCacheList_le : kmemCacheList + 9 * 64 ≤ base
  freeList_le : freeList + 16 ≤ base
  apart : kmemCacheList + 9 * 64 ≤ freeList ∨ freeList + 16 ≤ kmemCacheList

/--
The address of page `k`, in the way `buddy_init_memmap` links the pages.
-/
def Globals.page (g : Globals) (k : Nat) : Nat := g.base + k * pgsize

/--
`&kmem_cache_list[index].object_seller.object_list_head`.
-/
def Globals.objectListHead (g : Globals) (index : Nat) : Nat := g.kmemCacheList + 64 * index + 40

def load (mem : Nat → Nat) (a : Nat) : Option Nat :=
  if a < pgsize then none else some (mem a)

def store (mem : Nat → Nat) (a v : Nat) : Option (Nat → Nat) :=
  if a < pgsize then none else some (Function.update mem a v)

/-! The fields of a `struct block_head`, whose `size` is the first half word. -/

def blockNext (p : Nat) : Nat := p + 8

def blockPrev (p : Nat) : Nat := p + 16

def storeSize (mem : Nat → Nat) (p index : Nat) : Option (Nat → Nat) := do
  let w ← load mem p
  store mem p (w - w % 2 ^ 16 + index % 2 ^ 16)

/--
The field `size`, a `short`, as an unsigned number.
-/
def loadSize (mem : Nat → Nat) (p : Nat) : Option Nat := do
  let w ← load mem p
  let size := w % 2 ^ 16
  return if size < 2 ^ 15 then size else size + 2 ^ 32 - 2 ^ 16

/-! The fields of a `struct Page` and of its `page_link`. -/

def pageLink (p : Nat) : Nat := p + 24

def storageHead (p : Nat) : Nat := p + 40

def le2page (le : Nat) : Nat := le - 24

def linkPrev (le : Nat) : Nat := le

def linkNext (le : Nat) : Nat := le + 8

def listAdd (mem : Nat → Nat) (listelm elm : Nat) : Option (Nat → Nat) := do
  let next ← load mem (linkNext listelm)
  let mem ← store mem (linkPrev next) elm
  let mem ← store mem (linkNext listelm) elm
  let mem ← store mem (linkNext elm) next
  store mem (linkPrev elm) listelm

def listDel (mem : Nat → Nat) (listelm : Nat) : Option (Nat → Nat) := do
  let prev ← load mem (linkPrev listelm)
  let next ← load mem (linkNext listelm)
  let mem ← store mem (linkNext prev) next
  store mem (linkPrev next) prev

/--
A loop that takes so many times `le = list_next(le)`.
-/
def walk (mem : Nat → Nat) : Nat → Nat → Option Nat
  | 0, le => some le
  | n + 1, le => do walk mem n (← load mem (linkNext le))

def initializeBlockHead (mem : Nat → Nat) (block : Nat) : Option (Nat → Nat) := do
  let mem ← store mem (blockNext block) 0
  store mem (blockPrev block) 0

/--
The loop of `buddy_init_memmap` that links the pages from page `i` on, `le` being the link of the page
before.
-/
def linkPages (g : Globals) : Nat → Nat → Nat → (Nat → Nat) → Option (Nat → Nat)
  | 0, _, _, mem => some mem
  | n + 1, i, le, mem => do
    let p := g.page i
    let mem ← store mem (linkNext le) (pageLink p)
    let mem ← store mem (linkPrev (pageLink p)) le
    linkPages g n (i + 1) (pageLink p) mem

/--
The first page is reserved. The pages count as free twice.
-/
def buddyInitMemmap (g : Globals) (s : Slub) (n : Nat) : Option Slub :=
  if n < 1 ∨ Buddy.convert2PowOf2 n ≠ n then
    some s
  else do
    let buddy ← s.buddy.buddyInitMemmap 0 n
    -- `free_list = base->page_link`
    let mem ← store s.mem (linkPrev g.freeList) (← load s.mem (linkPrev (pageLink g.base)))
    let mem ← store mem (linkNext g.freeList) (← load mem (linkNext (pageLink g.base)))
    let mem ← linkPages g (n - 1) 1 g.freeList mem
    let (_, buddy) ← buddy.buddyAllocPages 1
    return { s with mem, buddy := { buddy with nrFree := (buddy.nrFree + n) % 2 ^ 32 } }

/--
The loop of `slub_init_memmap` over the caches from `i` on.
-/
def initCaches (g : Globals) : Nat → Nat → Nat → Slub → Option Slub
  | 0, _, _, s => some s
  | n + 1, i, size, s => do
    let mem ← initializeBlockHead s.mem (g.objectListHead i)
    let cache := { s.kmemCacheList i with objectSize := size, partialHeads := 0, fullHeads := 0 }
    initCaches g n (i + 1) (size * 2) { s with mem, kmemCacheList := Function.update s.kmemCacheList i cache }

def slubInitMemmap (g : Globals) (s : Slub) (n : Nat) : Option Slub := do
  let s ← buddyInitMemmap g s n
  initCaches g 9 0 8 s

def getPage (g : Globals) (mem : Nat → Nat) (offset : Nat) : Option Nat := do
  return le2page (← walk mem offset g.freeList)

def kmallocCachesIndex (n : Nat) : Nat := (Buddy.bitCount Buddy.fuel n + 2 ^ 32 - 4) % 2 ^ 32

/--
The size that `slub_alloc_pages` gives a request of `n` bytes. The number of objects that it computes
for a larger request is not used.
-/
def powSize (n : Nat) : Nat :=
  let powN := Buddy.convert2PowOf2 (n % 2 ^ 32)
  if 2048 < powN then 2048 else powN

/--
The pages that `slub_alloc_pages` asks for.
-/
def pageNum (n : Nat) : Nat :=
  (if n / pgsize * pgsize = n then n / pgsize else n / pgsize + 1) % 2 ^ 32

def setCache (s : Slub) (index : Nat) (cache : KmemCache) : Slub :=
  { s with kmemCacheList := Function.update s.kmemCacheList index cache }

/--
The page at the head of the partial list if it has a free object, else `NULL`.
-/
def getPartialStorage (s : Slub) (index : Nat) : Option Nat := do
  let p := (s.kmemCacheList index).partialHeads
  if p ≠ 0 then
    return if (← load s.mem (storageHead p)) ≠ 0 then p else 0
  else
    return 0

/--
Puts the page of the seller at the end of the full list.
-/
def retirePage (s : Slub) (index : Nat) : Option Slub := do
  let cache := s.kmemCacheList index
  let fullNum := (cache.fullNum + 1) % 2 ^ 32
  if cache.fullHeads ≠ 0 then
    let le ← walk s.mem (cache.fullNum - 1) (pageLink cache.fullHeads)
    let mem ← store s.mem (linkNext le) (pageLink cache.base)
    let mem ← store mem (linkPrev (pageLink cache.base)) (← load mem (linkNext le))
    return { s with mem }.setCache index { cache with base := 0, fullNum }
  else
    return s.setCache index { cache with base := 0, fullHeads := cache.base, fullNum }

/--
`slub_alloc_pages` when the seller has a free object.
-/
def allocSeller (g : Globals) (s : Slub) (index : Nat) : Option (Nat × Slub) := do
  let head := g.objectListHead index
  let p ← load s.mem (blockNext head)
  let next ← load s.mem (blockNext p)
  let mem ← store s.mem (blockNext head) next
  if next ≠ 0 then
    let mem ← store mem (blockPrev next) head
    return (p, { s with mem })
  else
    return (p, ← retirePage { s with mem } index)

/--
`slub_alloc_pages` when the first partial page has a free object.
-/
def allocPartial (s : Slub) (index page : Nat) : Option (Nat × Slub) := do
  let object ← load s.mem (storageHead page)
  let next ← load s.mem (blockNext object)
  if next ≠ 0 then
    let mem ← store s.mem (blockPrev next) 0
    let mem ← store mem (storageHead page) (← load mem (blockNext object))
    return (object, { s with mem })
  else
    let cache := s.kmemCacheList index
    let mem ← store s.mem (storageHead page) 0
    let mem ← listDel mem (pageLink page)
    let mem ← listAdd mem (pageLink cache.fullHeads) (pageLink page)
    return (object, { s with mem }.setCache index { cache with
      fullNum := (cache.fullNum + 1) % 2 ^ 32
      partialNum := (cache.partialNum + 2 ^ 32 - 1) % 2 ^ 32 })

/--
The loop of `slub_alloc_pages` that makes objects of a page from object `i` on, `p` being the block
before.
-/
def linkObjects (basePage powN index : Nat) : Nat → Nat → Nat → (Nat → Nat) → Option (Nat → Nat)
  | 0, _, _, mem => some mem
  | n + 1, i, p, mem => do
    let temp := basePage + powN * (i + 2)
    let mem ← initializeBlockHead mem temp
    let mem ← storeSize mem temp index
    let mem ← store mem (blockNext p) temp
    let mem ← store mem (blockPrev temp) p
    linkObjects basePage powN index n (i + 1) temp mem

/--
`slub_alloc_pages` when no object is free. That `buddy_alloc_pages` may fail is not considered.
-/
def allocPage (g : Globals) (s : Slub) (index powN n : Nat) : Option (Nat × Slub) := do
  let (offset, buddy) ← s.buddy.buddyAllocPages (pageNum n)
  let basePage ← getPage g s.mem offset
  let head := g.objectListHead index
  let mem ← initializeBlockHead s.mem head
  -- `object_list_head` takes over the word at `basePage + powN` and its successors
  let mem ← store mem head (← load mem (basePage + powN))
  let mem ← store mem (blockNext head) (← load mem (blockNext (basePage + powN)))
  let mem ← store mem (blockPrev head) (← load mem (blockPrev (basePage + powN)))
  let mem ← linkObjects basePage powN index (pgsize / powN - 2) 1 head mem
  let object ← load mem (blockNext head)
  let next ← load mem (blockNext object)
  let mem ← store mem (blockNext head) next
  let mem ← if next ≠ 0 then store mem (blockPrev next) head else some mem
  return (object, { s with mem, buddy }.setCache index { s.kmemCacheList index with base := basePage })

/--
Returns the address of the object.
-/
def slubAllocPages (g : Globals) (s : Slub) (n : Nat) : Option (Nat × Slub) :=
  let powN := powSize n
  let index := kmallocCachesIndex powN
  if index < 9 then do
    let freeNode ← load s.mem (blockNext (g.objectListHead index))
    let partialStorage ← s.getPartialStorage index
    if freeNode ≠ 0 then
      allocSeller g s index
    else if partialStorage ≠ 0 then
      allocPartial s index partialStorage
    else
      allocPage g s index powN n
  else
    none

/--
The loop of `get_storage_full` and `get_storage_partial`: looks for the page of an object, `le` being
the link it has reached.
-/
def getStorage (mem : Nat → Nat) (object : Nat) : Nat → Nat → Option Nat
  | 0, _ => some 0
  | n + 1, le => do
    let p := le2page le
    if p < object ∧ object < p + pgsize then
      return p
    else
      getStorage mem object n (← load mem (linkNext le))

def getStorageFull (s : Slub) (index object : Nat) : Option Nat :=
  getStorage s.mem object (s.kmemCacheList index).fullNum (pageLink (s.kmemCacheList index).fullHeads)

def getStoragePartial (s : Slub) (index object : Nat) : Option Nat :=
  getStorage s.mem object (s.kmemCacheList index).partialNum (pageLink (s.kmemCacheList index).partialHeads)

/--
The loop of `slub_free_pages` that looks for the place of an object in a list of blocks, `p` being the
block it has reached. Behind the last block the field `next` of the object is not set.
-/
def insertLoop (object : Nat) : Nat → Nat → (Nat → Nat) → Option (Nat → Nat)
  | 0, _, _ => none
  | fuel + 1, p, mem =>
    if p < object then do
      let next ← load mem (blockNext p)
      if next = 0 then
        let mem ← store mem (blockNext p) object
        store mem (blockPrev object) p
      else
        insertLoop object fuel next mem
    else do
      let mem ← store mem (blockNext (← load mem (blockPrev p))) object
      let mem ← store mem (blockPrev object) (← load mem (blockPrev p))
      let mem ← store mem (blockNext object) p
      store mem (blockPrev p) object

/--
A loop that takes more steps than there are addresses below the object does not end.
-/
def insertObject (mem : Nat → Nat) (p object : Nat) : Option (Nat → Nat) :=
  insertLoop object (object + 1) p mem

/--
The loop of `slub_free_pages` that goes along the full list up to `page`, `le` being the link it has
reached.
-/
def findFull (mem : Nat → Nat) (page : Nat) : Nat → Nat → Option Nat
  | 0, _ => none
  | fuel + 1, le => do
    if le2page le = page then
      return le
    else
      findFull mem page fuel (← load mem (linkNext le))

/--
`slub_free_pages` of an object whose page is on the full list.
-/
def freeFull (s : Slub) (index page object : Nat) : Option Slub := do
  let cache := s.kmemCacheList index
  let (mem, fullHeads) ← if cache.fullHeads = page then do
      let fullTestHead := le2page (← load s.mem (linkNext (pageLink cache.fullHeads)))
      let mem ← store s.mem (linkPrev (pageLink fullTestHead)) 0
      some (mem, fullTestHead)
    else do
      let le ← findFull s.mem page (cache.fullNum + 1) (pageLink cache.fullHeads)
      let mem ← listDel s.mem le
      some (mem, cache.fullHeads)
  let (mem, partialHeads) ← if cache.partialHeads = 0 then
      some (mem, page)
    else do
      let mem ← listAdd mem (pageLink cache.partialHeads) (pageLink page)
      some (mem, cache.partialHeads)
  let mem ← store mem (storageHead page) object
  let mem ← initializeBlockHead mem object
  return { s with mem }.setCache index { cache with
    fullHeads
    partialHeads
    fullNum := (cache.fullNum + 2 ^ 32 - 1) % 2 ^ 32
    partialNum := (cache.partialNum + 1) % 2 ^ 32 }

/--
`slub_free_pages` of an object whose page is on the partial list.
-/
def freePartial (s : Slub) (page object : Nat) : Option Slub := do
  let head ← load s.mem (storageHead page)
  if object < head then
    let mem ← store s.mem (blockPrev head) object
    let mem ← store mem (blockNext object) (← load mem (storageHead page))
    let mem ← store mem (storageHead page) object
    let mem ← store mem (blockPrev object) 0
    return { s with mem }
  else
    let mem ← insertObject s.mem head object
    return { s with mem }

/--
An object that is in no page of its cache is not put anywhere.
-/
def slubFreePages (g : Globals) (s : Slub) (object : Nat) : Option Slub := do
  let index ← loadSize s.mem object
  if index < 9 then
    let storageFull ← s.getStorageFull index object
    let storagePartial ← s.getStoragePartial index object
    let base := (s.kmemCacheList index).base
    if base ≤ object ∧ object < base + pgsize then
      let mem ← insertObject s.mem (g.objectListHead index) object
      return { s with mem }
    else if storageFull ≠ 0 then
      s.freeFull index storageFull object
    else if storagePartial ≠ 0 then
      s.freePartial storagePartial object
    else
      return s
  else
    none

end Slub
end Ucore

import Ucore.Lab2.Slub.Impl
import Ucore.Lib.Run

/-!
This module contains the slub allocator together with its clients: the objects that they hold, the pages
that the buddy allocator handed out for objects, and what is to hold of both.
-/

namespace Ucore
namespace Slub

/--
The cache that serves a request of `n` bytes.
-/
def cacheIndex (n : Nat) : Nat := kmallocCachesIndex (powSize n)

/--
No object is free, and the buddy allocator has the pages.
-/
def GetsPage (g : Globals) (s : Slub) (n : Nat) : Prop :=
  s.mem (blockNext (g.objectListHead (cacheIndex n))) = 0 ∧ s.getPartialStorage (cacheIndex n) = some 0
    ∧ pageNum n ≤ s.buddy.nodeCapacity 0

instance (g : Globals) (s : Slub) (n : Nat) : Decidable (GetsPage g s n) :=
  inferInstanceAs (Decidable (_ ∧ _ ∧ _))

/--
What so many requests of `n` bytes in a row get.
-/
def allocTimes (g : Globals) (n : Nat) : Nat → Slub → Option (List Nat)
  | 0, _ => some []
  | k + 1, s => do
    let (object, s) ← s.slubAllocPages g n
    return object :: (← allocTimes g n k s)

/--
The blocks on a list from `p` on.
-/
def FreeList (mem : Nat → Nat) : Nat → List Nat → Prop
  | p, [] => p = 0
  | p, x :: xs => p = x ∧ x ≠ 0 ∧ FreeList mem (mem (blockNext x)) xs

/--
The pages that follow page `p` on a list whose length is known.
-/
def Following (mem : Nat → Nat) : Nat → List Nat → Prop
  | _, [] => True
  | p, q :: qs => mem (linkNext (pageLink p)) = pageLink q ∧ Following mem q qs

/--
The pages on a list with the given head.
-/
def PageList (mem : Nat → Nat) (head : Nat) : List Nat → Prop
  | [] => head = 0
  | p :: ps => head = p ∧ p ≠ 0 ∧ Following mem p ps

end Slub

open Slub

/--
Pages that the buddy allocator handed out, cut into objects.
-/
structure Slab where
  index : Nat
  page : Nat
  pages : Nat

/--
The addresses that `slub_alloc_pages` makes objects of.
-/
def Slab.objects (slab : Slab) : List Nat :=
  (List.range' 1 (pgsize / 2 ^ (slab.index + 3) - 2)).map fun i => slab.page + 2 ^ (slab.index + 3) * (i + 2)

/--
The allocator, the objects that clients hold with the sizes that they asked for, and the pages.
-/
structure SlubSys where
  slub : Slub
  live : List (Nat × Nat)
  slabs : List Slab

inductive SlubCall where
  | alloc (n : Nat)
  | free (object : Nat × Nat)
  /-- A client writes the word `v` to the address `a` in its object. -/
  | write (object : Nat × Nat) (a v : Nat)

namespace SlubSys

def step (g : Globals) (c : SlubSys) : SlubCall → Option SlubSys
  | .alloc n => do
    let (object, slub) ← c.slub.slubAllocPages g n
    let slab := ⟨cacheIndex n, (slub.kmemCacheList (cacheIndex n)).base, pageNum n⟩
    return { slub
             live := (object, n) :: c.live
             slabs := if GetsPage g c.slub n then slab :: c.slabs else c.slabs }
  | .free object => do
    let slub ← c.slub.slubFreePages g object.1
    return { c with slub, live := c.live.erase object }
  | .write _ a v => return { c with slub := { c.slub with mem := Function.update c.slub.mem a v } }

/--
A request is for at least one byte and at most the memory managed, and clients free and write objects
that they hold.
-/
def Legal (c : SlubSys) : SlubCall → Prop
  | .alloc n => 1 ≤ n ∧ n ≤ c.slub.buddy.totalSize * pgsize
  | .free object => object ∈ c.live
  | .write object a _ => object ∈ c.live ∧ object.1 ≤ a ∧ a < object.1 + object.2

instance (c : SlubSys) (call : SlubCall) : Decidable (c.Legal call) :=
  match call with
  | .alloc _ => inferInstanceAs (Decidable (_ ∧ _))
  | .free _ => inferInstanceAs (Decidable (_ ∈ _))
  | .write .. => inferInstanceAs (Decidable (_ ∧ _ ∧ _))

/--
The objects that clients hold lie in pages that the buddy allocator handed out, and no two of them
overlap.
-/
structure RealAndDisjoint (c : SlubSys) : Prop where
  real : ∀ o ∈ c.live, ∀ a, o.1 ≤ a → a < o.1 + o.2 →
    ∃ slab ∈ c.slabs, slab.page ≤ a ∧ a < slab.page + slab.pages * pgsize
  disjoint : c.live.Pairwise fun o o' => o.1 + o.2 ≤ o'.1 ∨ o'.1 + o'.2 ≤ o.1

/--
Where the objects of one cache are: on the list of the seller, on the list of a page of the partial list,
or with a client.
-/
structure Places (g : Globals) (c : SlubSys) (index : Nat) (seller : List Nat) (fulls : List Nat)
    (partials : List (Nat × List Nat)) : Prop where
  sellerList : FreeList c.slub.mem (c.slub.mem (blockNext (g.objectListHead index))) seller
  fullList : PageList c.slub.mem (c.slub.kmemCacheList index).fullHeads fulls
  fullNum : (c.slub.kmemCacheList index).fullNum = fulls.length
  partialList : PageList c.slub.mem (c.slub.kmemCacheList index).partialHeads (partials.map Prod.fst)
  partialNum : (c.slub.kmemCacheList index).partialNum = partials.length
  storage : ∀ p ∈ partials, FreeList c.slub.mem (c.slub.mem (storageHead p.1)) p.2
  once : ∀ slab ∈ c.slabs, slab.index = index → ∀ a ∈ slab.objects,
    seller.count a + (partials.map fun p => p.2.count a).sum + (c.live.map Prod.fst).count a = 1

/--
No object gets lost, and when clients hold none of a cache, requests get all of them, each once.
-/
structure Conserved (g : Globals) (c : SlubSys) : Prop where
  places : ∀ index < 9, ∃ seller fulls partials, c.Places g index seller fulls partials
  again : ∀ index < 9, (∀ o ∈ c.live, cacheIndex o.2 ≠ index) →
    ∃ k objects, allocTimes g (2 ^ (index + 3)) k c.slub = some objects ∧ objects.Nodup
      ∧ ∀ slab ∈ c.slabs, slab.index = index → ∀ a ∈ slab.objects, a ∈ objects

/--
The requests that `slub_alloc_pages` is made for: an object is larger than a `struct block_head`, a page
has at least two of them, the one that starts at the end of the page stays on the list, and the buddy
allocator has a page when one is needed.
-/
def Served (g : Globals) (s : Slub) (n : Nat) : Prop :=
  17 ≤ n ∧ n ≤ 1024 ∧
    (if s.mem (blockNext (g.objectListHead (cacheIndex n))) = 0 then
      1 ≤ s.buddy.nodeCapacity 0
    else
      s.mem (blockNext (s.mem (blockNext (g.objectListHead (cacheIndex n))))) ≠ 0)

instance (g : Globals) (s : Slub) (n : Nat) : Decidable (Served g s n) :=
  inferInstanceAs (Decidable (_ ∧ _ ∧ ite ..))

/--
Requests are of the kind `Served`, and an object that is freed has the number of a cache in its field
`size`.
-/
def Sized (g : Globals) (c : SlubSys) : SlubCall → Prop
  | .alloc n => Served g c.slub n
  | .free object => ∃ index ∈ loadSize c.slub.mem object.1, index < 9
  | .write .. => True

instance (g : Globals) (c : SlubSys) (call : SlubCall) : Decidable (Sized g c call) :=
  match call with
  | .alloc n => inferInstanceAs (Decidable (Served g c.slub n))
  | .free _ => inferInstanceAs (Decidable (∃ _ ∈ _, _))
  | .write .. => isTrue trivial

/--
Requests are of the kind `Served`, and an object that is freed has the number of its own cache in its
field `size`.
-/
def Kept (g : Globals) (c : SlubSys) : SlubCall → Prop
  | .alloc n => Served g c.slub n
  | .free object => loadSize c.slub.mem object.1 = some (cacheIndex object.2)
  | .write .. => True

instance (g : Globals) (c : SlubSys) (call : SlubCall) : Decidable (Kept g c call) :=
  match call with
  | .alloc n => inferInstanceAs (Decidable (Served g c.slub n))
  | .free _ => inferInstanceAs (Decidable (_ = _))
  | .write .. => isTrue trivial

end SlubSys
end Ucore

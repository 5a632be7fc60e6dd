import Ucore.Kern.Mm.DefaultPmm.Impl

/-!
This module contains the buddy allocator of lab2: kern/mm/default_pmm.c of the buddy system and its
`struct buddy_system` of kern/mm/memlayout.h.

A page is its index in the array `pages`. The functions return `none` where an assertion fails, where
an access lies outside `node_capacity`, or where a loop does not end.
-/

namespace Ucore

/--
The free area of the buddy allocator. The numbers are unsigned ones of 32 bits.
-/
structure Buddy where
  totalSize : Nat
  nodeCapacity : Nat → Nat
  nrFree : Nat
  beginPage : Nat
  pages : Nat → Page

namespace Buddy

/--
The length of the array `node_capacity`.
-/
def nodes : Nat := 1024

def readNode (caps : Nat → Nat) (index : Nat) : Option Nat :=
  if index < nodes then some (caps index) else none

def writeNode (caps : Nat → Nat) (index value : Nat) : Option (Nat → Nat) :=
  if index < nodes then some (Function.update caps index value) else none

/--
The number of bits of an unsigned number bounds the steps of a loop that halves or doubles one.
-/
def fuel : Nat := 33

/--
The loop of `convert_2_pow_of_2` that counts the bits of `size`.
-/
def bitCount : Nat → Nat → Nat
  | 0, _ => 0
  | fuel + 1, size => if size = 0 then 0 else bitCount fuel (size / 2) + 1

/--
A loop that doubles an unsigned `1` so many times.
-/
def doubled : Nat → Nat
  | 0 => 1
  | n + 1 => doubled n * 2 % 2 ^ 32

def convert2PowOf2 (size : Nat) : Nat :=
  let temp := bitCount fuel size
  let convert2Pow := doubled ((temp + 2 ^ 32 - 1) % 2 ^ 32)
  if convert2Pow ≠ size then convert2Pow * 2 % 2 ^ 32 else convert2Pow

def leftChild (index : Nat) : Nat := index * 2 + 1

def rightChild (index : Nat) : Nat := index * 2 + 2

def parent (index : Nat) : Nat := (index + 2 ^ 32 - 1) % 2 ^ 32 / 2

/--
The loop of `buddy_init_memmap` over the nodes, `i` being the number of the node it has reached.
-/
def initNodes : Nat → Nat → Nat → (Nat → Nat) → Option (Nat → Nat)
  | 0, _, _, caps => some caps
  | k + 1, i, nodeSize, caps => do
    let nodeSize := if convert2PowOf2 i = i then nodeSize / 2 else nodeSize
    let caps ← writeNode caps (i - 1) nodeSize
    initNodes k (i + 1) nodeSize caps

def buddyInitMemmap (s : Buddy) (base n : Nat) : Option Buddy :=
  let powN := convert2PowOf2 n
  if n < 1 ∨ powN ≠ n then
    some s
  else do
    let nodeSize := 2 * n % 2 ^ 32
    let nodeCapacity ← initNodes (nodeSize - 1) 1 nodeSize s.nodeCapacity
    let pages ← Pmm.initPages s.pages base n
    return { totalSize := n, nodeCapacity, nrFree := n, beginPage := base, pages }

def layerLoop : Nat → Nat → Nat → Nat → Option Nat
  | 0, _, _, _ => none
  | fuel + 1, index, temp, layer =>
    if (temp + 2 ^ 32 - 1) % 2 ^ 32 ≤ index then
      layerLoop fuel index (temp * 2 % 2 ^ 32) (layer + 1)
    else
      some (layer - 1)

def layer (index : Nat) : Option Nat :=
  layerLoop fuel index 1 0

/--
The loop of `buddy_alloc_pages` that goes down to a node of `pow2N` pages: into the child with the
smaller capacity if that is enough, else into the other one.
-/
def descend (caps : Nat → Nat) (pow2N : Nat) : Nat → Nat → Nat → Option Nat
  | 0, _, _ => none
  | fuel + 1, i, index =>
    if i = pow2N then
      some index
    else do
      let left ← readNode caps (leftChild index)
      let right ← readNode caps (rightChild index)
      let lor := right < left
      let min := if lor then right else left
      if pow2N ≤ min then
        descend caps pow2N fuel (i / 2) (if lor then rightChild index else leftChild index)
      else
        descend caps pow2N fuel (i / 2) (if lor then leftChild index else rightChild index)

/--
The loop of `buddy_alloc_pages` that gives each node on the way back to the root the larger capacity
of its children.
-/
def refreshUp : Nat → (Nat → Nat) → Nat → Option (Nat → Nat)
  | 0, _, _ => none
  | fuel + 1, caps, index =>
    if index = 0 then
      some caps
    else do
      let index := parent index
      let left ← readNode caps (leftChild index)
      let right ← readNode caps (rightChild index)
      let caps ← writeNode caps index (if right < left then left else right)
      refreshUp fuel caps index

/--
Returns the offset `0` also when the request does not fit.
-/
def buddyAllocPages (s : Buddy) (n : Nat) : Option (Nat × Buddy) :=
  if 0 < n then do
    let root ← readNode s.nodeCapacity 0
    if root < n then
      return (0, s)
    else
      let pow2N := convert2PowOf2 n
      let index ← descend s.nodeCapacity pow2N fuel s.totalSize 0
      let caps ← writeNode s.nodeCapacity index 0
      let nLayerPow := doubled (← layer index)
      let offset := s.totalSize / nLayerPow * (index + 1 - nLayerPow)
      let nodeCapacity ← refreshUp fuel caps index
      return (offset, { s with nodeCapacity, nrFree := (s.nrFree + 2 ^ 32 - pow2N) % 2 ^ 32 })
  else
    none

/--
The loop of `buddy_free_pages` that goes up from a leaf to the first node with capacity `0`. Returns
the node and its size.
-/
def ascend (caps : Nat → Nat) : Nat → Nat → Nat → Option (Nat × Nat)
  | 0, _, _ => none
  | fuel + 1, index, pow2N => do
    if (← readNode caps index) ≠ 0 then
      let index := parent index
      let pow2N := pow2N * 2 % 2 ^ 32
      if index = 0 then
        some (index, pow2N)
      else
        ascend caps fuel index pow2N
    else
      some (index, pow2N)

/--
The loop of `buddy_free_pages` back to the root: two free children make a free node.
-/
def mergeUp : Nat → (Nat → Nat) → Nat → Nat → Option (Nat → Nat)
  | 0, _, _, _ => none
  | fuel + 1, caps, index, pow2N =>
    if index = 0 then
      some caps
    else do
      let index := parent index
      let pow2N := pow2N * 2 % 2 ^ 32
      let left ← readNode caps (leftChild index)
      let right ← readNode caps (rightChild index)
      let caps ← writeNode caps index
        (if (left + right) % 2 ^ 32 = pow2N then pow2N else if right < left then left else right)
      mergeUp fuel caps index pow2N

def buddyFreePages (s : Buddy) (offset : Nat) : Option Buddy := do
  let (index, pow2N) ← ascend s.nodeCapacity fuel ((offset + s.totalSize + 2 ^ 32 - 1) % 2 ^ 32) 1
  let caps ← writeNode s.nodeCapacity index pow2N
  let nodeCapacity ← mergeUp fuel caps index pow2N
  return { s with nodeCapacity, nrFree := (s.nrFree + pow2N) % 2 ^ 32 }

end Buddy

/--
The allocator with the blocks that it handed out and that were not freed since: the offset of each
and the number of pages that were asked for.
-/
structure BuddyRun where
  buddy : Buddy
  live : List (Nat × Nat)

inductive BuddyCall where
  | allocPages (n : Nat)
  | freePages (block : Nat × Nat)

namespace BuddyRun

/--
A request that does not fit gets no block.
-/
def step (c : BuddyRun) : BuddyCall → Option BuddyRun
  | .allocPages n => do
    let (offset, buddy) ← c.buddy.buddyAllocPages n
    return { buddy, live := if c.buddy.nodeCapacity 0 < n then c.live else (offset, n) :: c.live }
  | .freePages block => do
    let buddy ← c.buddy.buddyFreePages block.1
    return { buddy, live := c.live.erase block }

def Legal (c : BuddyRun) : BuddyCall → Prop
  | .allocPages n => 1 ≤ n
  | .freePages block => block ∈ c.live

instance (c : BuddyRun) (call : BuddyCall) : Decidable (c.Legal call) :=
  match call with
  | .allocPages _ => inferInstanceAs (Decidable (_ ≤ _))
  | .freePages _ => inferInstanceAs (Decidable (_ ∈ _))

end BuddyRun
end Ucore

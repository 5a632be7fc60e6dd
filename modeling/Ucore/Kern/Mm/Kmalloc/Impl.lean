import Mathlib
import Ucore.Lib.Blocks

/-!
This module contains the allocator of kern/mm/kmalloc.c. Addresses count units of `SLOB_UNIT` bytes.

`slob_alloc` is only called with `align = 0`. `alloc_pages` is a parameter: a call is given what it
answers. A function returns `none` where an assertion fails or a loop does not come to its end.
-/

namespace Ucore

structure SlobBlock where
  units : Nat
  next : Nat

structure BigBlock where
  addr : Nat
  order : Nat
  pages : Nat
  deriving DecidableEq

def slobUnit : Nat := 16

def kmallocPageSize : Nat := 4096

def sizeofBigblock : Nat := 24

/--
`SLOB_UNITS`.
-/
def slobUnits (size : Nat) : Nat := (size + slobUnit - 1) / slobUnit

def pageUnits : Nat := kmallocPageSize / slobUnit

/--
`mem` is the memory read as `slob_t`, `bigblocks` the list of big blocks in list order. `pages` records
what `alloc_pages` has given and has not been given back.
-/
structure Slob where
  mem : Nat → SlobBlock
  slobfree : Nat
  bigblocks : List BigBlock
  pages : List Block

namespace Slob

def setUnits (h : Slob) (b : Nat) (units : Nat) : Slob :=
  { h with mem := Function.update h.mem b { h.mem b with units } }

def setNext (h : Slob) (b : Nat) (next : Nat) : Slob :=
  { h with mem := Function.update h.mem b { h.mem b with next } }

/--
A loop over the free list takes at most as many steps as there are units.
-/
def slobFuel (h : Slob) : Nat := (h.pages.map (·.units)).sum + 2

/--
The state behind the static initialisers, `arena` is the address of the variable of that name.
-/
def init (mem : Nat → SlobBlock) (arena : Nat) : Slob where
  mem := Function.update mem arena { units := 1, next := arena }
  slobfree := arena
  bigblocks := []
  pages := []

/--
The insertion point of `slob_free`.
-/
def freeFind (h : Slob) (b : Nat) : Nat → Nat → Option Nat
  | 0, _ => none
  | fuel + 1, cur =>
    let next := (h.mem cur).next
    if b > cur ∧ b < next then
      some cur
    else if cur ≥ next ∧ (b > cur ∨ b < next) then
      some cur
    else
      freeFind h b fuel next

/--
The pointer writes of `slob_free` behind `cur`.
-/
def freeAt (h : Slob) (b cur : Nat) : Slob :=
  let next := (h.mem cur).next
  let h :=
    if b + (h.mem b).units = next then
      (h.setUnits b ((h.mem b).units + (h.mem next).units)).setNext b (h.mem next).next
    else
      h.setNext b next
  let h :=
    if cur + (h.mem cur).units = b then
      (h.setUnits cur ((h.mem cur).units + (h.mem b).units)).setNext cur (h.mem b).next
    else
      h.setNext cur b
  { h with slobfree := cur }

def slobFree (h : Slob) (block size : Nat) : Option Slob := do
  let h := if size ≠ 0 then h.setUnits block (slobUnits size) else h
  let cur ← h.freeFind block h.slobFuel h.slobfree
  return h.freeAt block cur

/--
One round of the search of `slob_alloc`: the block that has room with the one in front of it.
-/
def allocFind (h : Slob) (units : Nat) : Nat → Nat → Nat → Option (Option (Nat × Nat))
  | 0, _, _ => none
  | fuel + 1, prev, cur =>
    if (h.mem cur).units ≥ units then
      some (some (prev, cur))
    else if cur = h.slobfree then
      some none
    else
      allocFind h units fuel cur (h.mem cur).next

/--
The pointer writes of `slob_alloc`.
-/
def allocAt (h : Slob) (units prev cur : Nat) : Slob :=
  let h :=
    if (h.mem cur).units = units then
      h.setNext prev (h.mem cur).next
    else
      let next := cur + units
      let h := h.setNext prev next
      let h := h.setUnits next ((h.mem cur).units - units)
      let h := h.setNext next (h.mem cur).next
      h.setUnits cur units
  { h with slobfree := prev }

/--
`__slob_get_free_pages` records the pages that it gets.
-/
def getFreePages (h : Slob) (page order : Nat) : Slob :=
  { h with pages := ⟨page, pageUnits * 2 ^ order⟩ :: h.pages }

/--
`slob_alloc` behind its assertion. The list holds what `alloc_pages` answers, call by call.
-/
def slobAllocLoop (h : Slob) (size : Nat) (answers : List (Option Nat)) : Option (Option Nat × Slob) :=
  let units := slobUnits size
  match h.allocFind units h.slobFuel h.slobfree (h.mem h.slobfree).next with
  | none => none
  | some (some (prev, cur)) => some (some cur, h.allocAt units prev cur)
  | some none =>
    if size = kmallocPageSize then
      some (none, h)
    else
      match answers with
      | [] => none
      | none :: _ => some (none, h)
      | some page :: answers =>
        ((h.getFreePages page 0).slobFree page kmallocPageSize).bind fun h =>
          slobAllocLoop h size answers

def slobAlloc (h : Slob) (size : Nat) (answers : List (Option Nat)) : Option (Option Nat × Slob) :=
  if size + slobUnit < kmallocPageSize then h.slobAllocLoop size answers else none

/--
`find_order`, whose argument is an `int`.
-/
def findOrderLoop : Nat → Int → Nat
  | 0, _ => 0
  | fuel + 1, size => if size > 4096 then findOrderLoop fuel (size / 2) + 1 else 0

def findOrder (size : Nat) : Nat := findOrderLoop 32 (BitVec.ofNat 32 size).toInt

/--
What `alloc_pages` answers during a `kmalloc`: for the free list, and for a big block.
-/
structure KmallocAnswers where
  slobPage : Option Nat
  bigPages : Option Nat

/--
The result is a pointer, `none` is the null pointer.
-/
def kmalloc (h : Slob) (size : Nat) (ans : KmallocAnswers) : Option (Option Nat × Slob) :=
  if size < kmallocPageSize - slobUnit then
    (h.slobAlloc (size + slobUnit) [ans.slobPage]).map fun r => (r.1.map (· + 1), r.2)
  else do
    let (bb, h) ← h.slobAlloc sizeofBigblock [ans.slobPage]
    match bb with
    | none => some (none, h)
    | some addr =>
      let order := findOrder size
      match ans.bigPages with
      | some pages =>
        let h := h.getFreePages pages order
        some (some pages, { h with bigblocks := { addr, order, pages } :: h.bigblocks })
      | none => (h.slobFree addr sizeofBigblock).map fun h => (none, h)

/--
`kfree` of a pointer that is not null.
-/
def kfree (h : Slob) (block : Nat) : Option Slob :=
  match if block % pageUnits = 0 then h.bigblocks.find? fun bb => bb.pages = block else none with
  | some bb =>
    let h := { h with bigblocks := h.bigblocks.erase bb }
    let h := { h with pages := h.pages.erase ⟨block, pageUnits * 2 ^ bb.order⟩ }
    h.slobFree bb.addr sizeofBigblock
  | none => h.slobFree (block - 1) 0

end Slob
end Ucore

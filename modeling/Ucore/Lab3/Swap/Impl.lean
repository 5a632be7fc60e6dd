import Ucore.Kern.Mm.Pmm.Impl

/-!
This module contains the swapping of lab3: kern/mm/swap.c, kern/fs/swapfs.c and the part of `do_pgfault` in
kern/mm/vmm.c that brings a page back. The functions return `none` where an assertion fails or the kernel
panics.

An entry of a page table is a number, and 0 where there is no page table. A `struct Page` is the number of its
frame. A virtual address is below `2 ^ 64`, so no shift of an entry loses a bit.
-/

namespace Ucore
namespace Lab3

def pteV : Nat := 0x001

def pteCreate (ppn type : Nat) : Nat := ppn <<< 10 ||| pteV ||| type

/--
`*ptep & PTE_V`.
-/
def valid (pte : Nat) : Bool := pte.testBit 0

def pte2page (pte : Nat) : Nat := pte >>> 10

/--
`κ` names the address spaces, `pte` their entries by page number. `disk` is the swap device in units of a page.
-/
structure SwapMem (κ : Type) where
  pte : κ → Nat → Nat
  praVaddr : Nat → Nat
  data : Nat → PageData
  disk : Nat → PageData
  maxSwapOffset : Nat

namespace SwapMem

variable {κ : Type} [DecidableEq κ]

def setPte (s : SwapMem κ) (i : κ) (vpn pte : Nat) : SwapMem κ :=
  { s with pte := Function.update s.pte i (Function.update (s.pte i) vpn pte) }

omit [DecidableEq κ] in
def swapOffset (s : SwapMem κ) (entry : Nat) : Option Nat :=
  let offset := entry >>> 8
  if 0 < offset ∧ offset < s.maxSwapOffset then some offset else none

def swapfsRead (s : SwapMem κ) (entry page : Nat) : Option (SwapMem κ) :=
  (s.swapOffset entry).map fun offset => { s with data := Function.update s.data page (s.disk offset) }

def swapfsWrite (s : SwapMem κ) (entry page : Nat) : Option (SwapMem κ) :=
  (s.swapOffset entry).map fun offset => { s with disk := Function.update s.disk offset (s.data page) }

/--
One round of `swap_out`, `page` is what `swap_out_victim` of the swap manager gives.
-/
def swapOutRound (s : SwapMem κ) (i : κ) (page : Nat) : Option (SwapMem κ) :=
  let v := s.praVaddr page
  if valid (s.pte i (v / pgsize)) then
    (s.swapfsWrite ((v / pgsize + 1) <<< 8) page).map fun s => s.setPte i (v / pgsize) ((v / pgsize + 1) <<< 8)
  else
    none

/--
`swap_in` into a page from `alloc_page`.
-/
def swapIn (s : SwapMem κ) (i : κ) (addr page : Nat) : Option (SwapMem κ) :=
  s.swapfsRead (s.pte i (addr / pgsize)) page

/--
What `page_insert` does to the entry. The counts of references are left out.
-/
def pageInsert (s : SwapMem κ) (i : κ) (page la perm : Nat) : SwapMem κ :=
  s.setPte i (la / pgsize) (pteCreate page (pteV ||| perm))

def setPraVaddr (s : SwapMem κ) (page addr : Nat) : SwapMem κ :=
  { s with praVaddr := Function.update s.praVaddr page addr }

/--
`do_pgfault` for an address in an area, with the page that `alloc_page` gives.
-/
def doPgfault (s : SwapMem κ) (i : κ) (addr page perm : Nat) : Option (SwapMem κ) :=
  let addr := addr / pgsize * pgsize
  if s.pte i (addr / pgsize) = 0 then
    some ((s.pageInsert i page addr perm).setPraVaddr page addr)
  else
    (s.swapIn i addr page).map fun s => (s.pageInsert i page addr perm).setPraVaddr page addr

/--
`page_remove`, which does nothing to an entry that is not valid.
-/
def pageRemove (s : SwapMem κ) (i : κ) (la : Nat) : SwapMem κ :=
  if valid (s.pte i (la / pgsize)) then s.setPte i (la / pgsize) 0 else s

end SwapMem
end Lab3
end Ucore

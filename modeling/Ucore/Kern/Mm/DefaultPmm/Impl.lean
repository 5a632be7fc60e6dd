import Mathlib
import Ucore.Kern.Mm.Memlayout
import Ucore.Lib.Run
import Ucore.Libs.List

/-!
This module contains the first fit page allocator of kern/mm/default_pmm.c.

A page is its index in the array `pages`, so the order of indices is the order of addresses. The
functions return `none` where an assertion fails or a loop over the list does not end.
-/

namespace Ucore

open CircularList

/--
The list entries the allocator links: the head `free_list` and the `page_link` field of each page.
-/
inductive Entry where
  | freeList
  | pageLink (page : Nat)
  deriving DecidableEq

/--
The array `pages` together with `free_area`.
-/
structure Pmm where
  npage : Nat
  npage_lt : npage < 2 ^ 32
  pages : Nat → Page
  links : Links Entry
  nrFree : Nat

namespace Pmm

def setPage (s : Pmm) (p : Nat) (page : Page) : Pmm :=
  { s with pages := Function.update s.pages p page }

/--
The number of list entries, which bounds the steps of any loop over a well formed list.
-/
def fuel (s : Pmm) : Nat := s.npage + 2

def defaultInit (s : Pmm) : Pmm :=
  { s with links := listInit s.links .freeList, nrFree := 0 }

/--
The loop over `[p, p + n)` at the start of `default_init_memmap`.
-/
def initPages (pages : Nat → Page) (p : Nat) : Nat → Option (Nat → Page)
  | 0 => some pages
  | n + 1 =>
    if (pages p).reserved then
      initPages (Function.update pages p { ref := 0, flags := 0, property := 0 }) (p + 1) n
    else
      none

/--
The loop over `[p, p + n)` at the start of `default_free_pages`. Unlike `initPages` it keeps the
`property` field.
-/
def resetPages (pages : Nat → Page) (p : Nat) : Nat → Option (Nat → Page)
  | 0 => some pages
  | n + 1 =>
    if !(pages p).reserved && !(pages p).isProperty then
      resetPages (Function.update pages p { pages p with ref := 0, flags := 0 }) (p + 1) n
    else
      none

/--
The loop that looks for the place of `base` in the list, `le` being the entry it has reached. There
is no `break` after the insertion behind the last entry.
-/
def insertLoop (base : Nat) : Nat → Links Entry → Entry → Option (Links Entry)
  | 0, _, _ => none
  | fuel + 1, links, le =>
    match listNext links le with
    | .freeList => some links
    | .pageLink page =>
      if base < page then
        some (listAddBefore links (.pageLink page) (.pageLink base))
      else if listNext links (.pageLink page) = .freeList then
        insertLoop base fuel (listAdd links (.pageLink page) (.pageLink base)) (.pageLink page)
      else
        insertLoop base fuel links (.pageLink page)

/--
The statements between the loop over the pages and the insertion, which `default_init_memmap` and
`default_free_pages` have in common: `base` becomes the head of a free block of `n` pages.
-/
def markFree (s : Pmm) (base n : Nat) : Pmm :=
  let s := s.setPage base ({ s.pages base with property := n % 2 ^ 32 } : Page).setProperty
  { s with nrFree := (s.nrFree + n) % 2 ^ 32 }

/--
The insertion of `base`, which `default_init_memmap` and `default_free_pages` have in common.
-/
def insertFree (s : Pmm) (base : Nat) : Option Pmm :=
  if listEmpty s.links .freeList then
    some { s with links := listAdd s.links .freeList (.pageLink base) }
  else do
    let links ← insertLoop base s.fuel s.links .freeList
    return { s with links }

def defaultInitMemmap (s : Pmm) (base n : Nat) : Option Pmm :=
  if 0 < n then do
    let pages ← initPages s.pages base n
    ({ s with pages }.markFree base n).insertFree base
  else
    none

/--
The loop of `default_alloc_pages` that looks for the first block of at least `n` pages.
-/
def findLoop (s : Pmm) (n : Nat) : Nat → Entry → Option (Option Nat)
  | 0, _ => none
  | fuel + 1, le =>
    match listNext s.links le with
    | .freeList => some none
    | .pageLink p =>
      if n ≤ (s.pages p).property then
        some (some p)
      else
        findLoop s n fuel (.pageLink p)

/--
The part of `default_alloc_pages` that takes `n` pages off the front of the block `page`.
-/
def takePages (s : Pmm) (page n : Nat) : Pmm :=
  let prev := listPrev s.links (.pageLink page)
  let s := { s with links := listDel s.links (.pageLink page) }
  let s :=
    if n < (s.pages page).property then
      let p := page + n
      let s := s.setPage p { s.pages p with property := (s.pages page).property - n }
      let s := s.setPage p (s.pages p).setProperty
      { s with links := listAdd s.links prev (.pageLink p) }
    else
      s
  -- `n` is at most `nr_free` here
  let s := { s with nrFree := s.nrFree - n }
  s.setPage page (s.pages page).clearProperty

def defaultAllocPages (s : Pmm) (n : Nat) : Option (Option Nat × Pmm) :=
  if 0 < n then
    if s.nrFree < n then
      some (none, s)
    else do
      match ← s.findLoop n s.fuel .freeList with
      | some page => return (some page, s.takePages page n)
      | none => return (none, s)
  else
    none

/--
The first `if` of `default_free_pages` after the insertion: merge `base` into the block before it.
Returns the block that `base` is now part of.
-/
def mergePrev (s : Pmm) (base : Nat) : Nat × Pmm :=
  match listPrev s.links (.pageLink base) with
  | .freeList => (base, s)
  | .pageLink p =>
    if p + (s.pages p).property = base then
      let s := s.setPage p
        { s.pages p with property := ((s.pages p).property + (s.pages base).property) % 2 ^ 32 }
      let s := s.setPage base (s.pages base).clearProperty
      (p, { s with links := listDel s.links (.pageLink base) })
    else
      (base, s)

/--
The second `if`: merge the block after `base` into `base`.
-/
def mergeNext (s : Pmm) (base : Nat) : Pmm :=
  match listNext s.links (.pageLink base) with
  | .freeList => s
  | .pageLink p =>
    if base + (s.pages base).property = p then
      let s := s.setPage base
        { s.pages base with property := ((s.pages base).property + (s.pages p).property) % 2 ^ 32 }
      let s := s.setPage p (s.pages p).clearProperty
      { s with links := listDel s.links (.pageLink p) }
    else
      s

def defaultFreePages (s : Pmm) (base n : Nat) : Option Pmm :=
  if 0 < n then do
    let pages ← resetPages s.pages base n
    let s ← ({ s with pages }.markFree base n).insertFree base
    let (base, s) := s.mergePrev base
    return s.mergeNext base
  else
    none

end Pmm

/--
The allocator with the history of a run: the ranges it was given and the blocks it handed out that
were not freed since.
-/
structure PmmRun where
  pmm : Pmm
  inited : List (Nat × Nat)
  live : List (Nat × Nat)

inductive PmmCall where
  | initMemmap (base n : Nat)
  | allocPages (n : Nat)
  | freePages (base n : Nat)

namespace PmmRun

/--
Two ranges of pages, given by first page and length, have no page in common.
-/
def Apart (r r' : Nat × Nat) : Prop := r.1 + r.2 ≤ r'.1 ∨ r'.1 + r'.2 ≤ r.1

instance : Decidable (Apart r r') := inferInstanceAs (Decidable (_ ∨ _))

def step (c : PmmRun) : PmmCall → Option PmmRun
  | .initMemmap base n => do
    let pmm ← c.pmm.defaultInitMemmap base n
    return { c with pmm, inited := (base, n) :: c.inited }
  | .allocPages n => do
    match ← c.pmm.defaultAllocPages n with
    | (some page, pmm) => return { c with pmm, live := (page, n) :: c.live }
    | (none, pmm) => return { c with pmm }
  | .freePages base n => do
    let pmm ← c.pmm.defaultFreePages base n
    return { c with pmm, live := c.live.erase (base, n) }

/--
What the callers promise: `default_init_memmap` gets a fresh range of pages of the array,
`default_alloc_pages` is asked for at least one page, `default_free_pages` gets a block that
was allocated and not freed since.
-/
def Legal (c : PmmRun) : PmmCall → Prop
  | .initMemmap base n => 0 < n ∧ base + n ≤ c.pmm.npage ∧ ∀ r ∈ c.inited, Apart (base, n) r
  | .allocPages n => 1 ≤ n
  | .freePages base n => (base, n) ∈ c.live

instance (c : PmmRun) (call : PmmCall) : Decidable (c.Legal call) :=
  match call with
  | .initMemmap _ _ => inferInstanceAs (Decidable (_ ∧ _))
  | .allocPages _ => inferInstanceAs (Decidable (_ ≤ _))
  | .freePages _ _ => inferInstanceAs (Decidable (_ ∈ _))

/--
The state after `default_init`: all pages are reserved, as `page_init` leaves them, and the list is
empty.
-/
structure Initial (c : PmmRun) : Prop where
  reserved : ∀ p < c.pmm.npage, (c.pmm.pages p).reserved = true
  notProperty : ∀ p < c.pmm.npage, (c.pmm.pages p).isProperty = false
  defaultInit : ∃ s : Pmm, c.pmm = s.defaultInit
  inited : c.inited = []
  live : c.live = []

end PmmRun
end Ucore

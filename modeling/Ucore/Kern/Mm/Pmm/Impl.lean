import Mathlib
import Ucore.Libs.Error

/-!
This module contains the page tables of kern/mm/pmm.c: lookup and creation of entries, mapping and
unmapping of pages, and the loops over address ranges.

A page directory is a tree: an entry of the upper two levels is `none` if it is not valid, else it holds
the page table that it points to. The gigapages of the kernel are not part of it. A `struct Page` is the
number of its frame.
-/

namespace Ucore

/--
A page table entry, the low ten bits are its flags.
-/
structure Pte where
  ppn : Nat
  flags : BitVec 10
  deriving DecidableEq

namespace Pte

def zero : Pte := ⟨0, 0⟩

def pteV : BitVec 10 := 0x001

def pteR : BitVec 10 := 0x002

def pteW : BitVec 10 := 0x004

def pteX : BitVec 10 := 0x008

def pteU : BitVec 10 := 0x010

def pteUser : BitVec 10 := pteR ||| pteW ||| pteX ||| pteU ||| pteV

/--
`READ_WRITE`.
-/
def readWrite : BitVec 10 := pteR ||| pteW ||| pteV

def pteCreate (ppn : Nat) (type : BitVec 10) : Pte := ⟨ppn, pteV ||| type⟩

/--
`*ptep & PTE_V`.
-/
def valid (pte : Pte) : Bool := pte.flags.getLsbD 0

end Pte

def pgsize : Nat := 4096

def ptsize : Nat := pgsize * 512

def userBase : Nat := 0x00200000

def userTop : Nat := 0x80000000

/--
`USER_ACCESS`.
-/
def userAccess (start stop : Nat) : Prop := userBase ≤ start ∧ start < stop ∧ stop ≤ userTop

instance (start stop : Nat) : Decidable (userAccess start stop) := inferInstanceAs (Decidable (_ ∧ _))

def pdx1 (la : Nat) : Fin 512 := Fin.ofNat 512 (la / 2 ^ 30)

def pdx0 (la : Nat) : Fin 512 := Fin.ofNat 512 (la / 2 ^ 21)

def ptx (la : Nat) : Fin 512 := Fin.ofNat 512 (la / 2 ^ 12)

structure PageTable where
  frame : Nat
  entries : Fin 512 → Pte

structure PageDir where
  frame : Nat
  tables : Fin 512 → Option PageTable

abbrev Pgdir := Fin 512 → Option PageDir

/--
`get_pte` without `create`, with the entry that it points to.
-/
def Pgdir.getPte (pgdir : Pgdir) (la : Nat) : Option Pte :=
  (pgdir (pdx1 la)).bind fun pd => (pd.tables (pdx0 la)).map fun pt => pt.entries (ptx la)

/--
The write to `*ptep`.
-/
def Pgdir.setPte (pgdir : Pgdir) (la : Nat) (pte : Pte) : Pgdir :=
  match pgdir (pdx1 la) with
  | none => pgdir
  | some pd =>
    match pd.tables (pdx0 la) with
    | none => pgdir
    | some pt =>
      let pt := { pt with entries := Function.update pt.entries (ptx la) pte }
      Function.update pgdir (pdx1 la) (some { pd with tables := Function.update pd.tables (pdx0 la) (some pt) })

abbrev PageData := Fin pgsize → BitVec 8

/--
`alloc_page` of the installed page manager: which of the free frames it gives.
-/
structure PmmManager where
  allocPage : Finset Nat → Option Nat
  mem : ∀ {free : Finset Nat} {page : Nat}, allocPage free = some page → page ∈ free

/--
As long as there is a free frame `alloc_page` finds one.
-/
def PmmManager.Complete (pmm : PmmManager) : Prop :=
  ∀ free : Finset Nat, free.Nonempty → pmm.allocPage free ≠ none

/--
`ι` names the page directories, `free` are the frames that the page manager has.
-/
structure Paging (ι : Type) where
  pgdirs : ι → Pgdir
  ref : Nat → Int
  data : Nat → PageData
  free : Finset Nat

namespace Paging

variable {ι : Type} [DecidableEq ι]

def allocPage (pmm : PmmManager) (s : Paging ι) : Option (Nat × Paging ι) :=
  (pmm.allocPage s.free).map fun page => (page, { s with free := s.free.erase page })

/--
`default_free_pages` resets the reference count.
-/
def freePage (s : Paging ι) (page : Nat) : Paging ι :=
  { s with free := insert page s.free, ref := Function.update s.ref page 0 }

def setPageRef (s : Paging ι) (page : Nat) (val : Int) : Paging ι :=
  { s with ref := Function.update s.ref page val }

def pageRefInc (s : Paging ι) (page : Nat) : Paging ι := s.setPageRef page (s.ref page + 1)

def pageRefDec (s : Paging ι) (page : Nat) : Paging ι := s.setPageRef page (s.ref page - 1)

def setPgdir (s : Paging ι) (i : ι) (pgdir : Pgdir) : Paging ι :=
  { s with pgdirs := Function.update s.pgdirs i pgdir }

def getPte (s : Paging ι) (i : ι) (la : Nat) : Option Pte := (s.pgdirs i).getPte la

def setPte (s : Paging ι) (i : ι) (la : Nat) (pte : Pte) : Paging ι :=
  s.setPgdir i ((s.pgdirs i).setPte la pte)

/--
The first level of `get_pte` with `create`, `false` if there is no page.
-/
def createPageDir (pmm : PmmManager) (s : Paging ι) (i : ι) (la : Nat) : Bool × Paging ι :=
  match s.pgdirs i (pdx1 la) with
  | some _ => (true, s)
  | none =>
    match s.allocPage pmm with
    | none => (false, s)
    | some (page, s) =>
      let s := s.setPageRef page 1
      (true, s.setPgdir i (Function.update (s.pgdirs i) (pdx1 la) (some ⟨page, fun _ => none⟩)))

/--
The second level.
-/
def createPageTable (pmm : PmmManager) (s : Paging ι) (i : ι) (la : Nat) : Bool × Paging ι :=
  match s.pgdirs i (pdx1 la) with
  | none => (false, s)
  | some pd =>
    match pd.tables (pdx0 la) with
    | some _ => (true, s)
    | none =>
      match s.allocPage pmm with
      | none => (false, s)
      | some (page, s) =>
        let s := s.setPageRef page 1
        let pd := { pd with tables := Function.update pd.tables (pdx0 la) (some ⟨page, fun _ => Pte.zero⟩) }
        (true, s.setPgdir i (Function.update (s.pgdirs i) (pdx1 la) (some pd)))

/--
`get_pte` with `create`.
-/
def getPteCreate (pmm : PmmManager) (s : Paging ι) (i : ι) (la : Nat) : Option Pte × Paging ι :=
  match s.createPageDir pmm i la with
  | (false, s) => (none, s)
  | (true, s) =>
    match s.createPageTable pmm i la with
    | (false, s) => (none, s)
    | (true, s) => (s.getPte i la, s)

def pageRemovePte (s : Paging ι) (i : ι) (la : Nat) (pte : Pte) : Paging ι :=
  if pte.valid then
    let page := pte.ppn
    let s := s.pageRefDec page
    let s := if s.ref page = 0 then s.freePage page else s
    s.setPte i la Pte.zero
  else
    s

def pageRemove (s : Paging ι) (i : ι) (la : Nat) : Paging ι :=
  match s.getPte i la with
  | some pte => s.pageRemovePte i la pte
  | none => s

def pageInsert (pmm : PmmManager) (s : Paging ι) (i : ι) (page la : Nat) (perm : BitVec 10)
    : Int × Paging ι :=
  match s.getPteCreate pmm i la with
  | (none, s) => (-Errno.noMem.toInt, s)
  | (some pte, s) =>
    let s := s.pageRefInc page
    let s :=
      if pte.valid then
        if pte.ppn = page then s.pageRefDec page else s.pageRemovePte i la pte
      else
        s
    (0, s.setPte i la (Pte.pteCreate page (Pte.pteV ||| perm)))

def pgdirAllocPage (pmm : PmmManager) (s : Paging ι) (i : ι) (la : Nat) (perm : BitVec 10)
    : Option Nat × Paging ι :=
  match s.allocPage pmm with
  | none => (none, s)
  | some (page, s) =>
    let (ret, s) := s.pageInsert pmm i page la perm
    if ret ≠ 0 then (none, s.freePage page) else (some page, s)

/--
Where the loops over a range go on: behind the page, or behind the missing page table.
-/
def nextAddr (s : Paging ι) (i : ι) (start : Nat) : Nat :=
  match s.getPte i start with
  | some _ => start + pgsize
  | none => (start + ptsize) / ptsize * ptsize

omit [DecidableEq ι] in
theorem lt_nextAddr (s : Paging ι) (i : ι) (start : Nat) : start < s.nextAddr i start := by
  unfold nextAddr
  split
  . exact Nat.lt_add_of_pos_right (by decide)
  . have := Nat.div_add_mod (start + ptsize) ptsize
    have := Nat.mod_lt (start + ptsize) (show 0 < ptsize by decide)
    rw [Nat.mul_comm]
    omega

/--
One round of the loop of `unmap_range`.
-/
def unmapRound (s : Paging ι) (i : ι) (start : Nat) : Paging ι :=
  match s.getPte i start with
  | none => s
  | some pte => if pte ≠ Pte.zero then s.pageRemovePte i start pte else s

/--
The states behind the rounds of `unmap_range`.
-/
def unmapLoop (s : Paging ι) (i : ι) (stop start : Nat) : List (Paging ι) :=
  let t := s.unmapRound i start
  let next := s.nextAddr i start
  if next ≠ 0 ∧ next < stop then t :: t.unmapLoop i stop next else [t]
termination_by stop - start
decreasing_by
  have := s.lt_nextAddr i start
  omega

def unmapRange (s : Paging ι) (i : ι) (start stop : Nat) : Option (List (Paging ι)) :=
  if start % pgsize = 0 ∧ stop % pgsize = 0 ∧ userAccess start stop then
    some (s.unmapLoop i stop start)
  else
    none

/--
One round of the loop of `copy_range`, `none` if one of its assertions fails.
-/
def copyRound (pmm : PmmManager) (s : Paging ι) (dst src : ι) (start : Nat) : Option (Int × Paging ι) :=
  match s.getPte src start with
  | none => some (0, s)
  | some pte =>
    if pte.valid then
      match s.getPteCreate pmm dst start with
      | (none, s) => some (-Errno.noMem.toInt, s)
      | (some _, s) =>
        match s.allocPage pmm with
        | none => none
        | some (npage, s) =>
          let s := { s with data := Function.update s.data npage (s.data pte.ppn) }
          let (ret, s) := s.pageInsert pmm dst npage start (pte.flags &&& Pte.pteUser)
          if ret = 0 then some (0, s) else none
    else
      some (0, s)

/--
The result and the states behind the rounds of `copy_range`.
-/
def copyLoop (pmm : PmmManager) (s : Paging ι) (dst src : ι) (stop start : Nat)
    : Option (Int × List (Paging ι)) :=
  match s.copyRound pmm dst src start with
  | none => none
  | some (ret, t) =>
    let next := s.nextAddr src start
    if ret ≠ 0 then
      some (ret, [t])
    else if next ≠ 0 ∧ next < stop then
      (t.copyLoop pmm dst src stop next).map fun r => (r.1, t :: r.2)
    else
      some (0, [t])
termination_by stop - start
decreasing_by
  have := s.lt_nextAddr src start
  omega

def copyRange (pmm : PmmManager) (s : Paging ι) (dst src : ι) (start stop : Nat)
    : Option (Int × List (Paging ι)) :=
  if start % pgsize = 0 ∧ stop % pgsize = 0 ∧ userAccess start stop then
    s.copyLoop pmm dst src stop start
  else
    none

end Paging
end Ucore

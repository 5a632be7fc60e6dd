import Ucore.Kern.Mm.Pmm.Impl

/-!
This module contains the address spaces of kern/mm/vmm.c: the list of areas, its copy by `dup_mmap`, and
what a process reads at an address.
-/

namespace Ucore

/--
`ROUNDUP(a, PGSIZE)`.
-/
def roundUp (a : Nat) : Nat := (a + pgsize - 1) % 2 ^ 64 / pgsize * pgsize

/--
`struct vma_struct`, an area of an address space.
-/
structure Vma where
  vmStart : Nat
  vmEnd : Nat
  vmFlags : BitVec 32
  deriving DecidableEq

namespace Vma

def Has (vma : Vma) (la : Nat) : Prop := vma.vmStart ≤ la ∧ la < vma.vmEnd

instance (vma : Vma) (la : Nat) : Decidable (vma.Has la) := inferInstanceAs (Decidable (_ ∧ _))

def vmRead : BitVec 32 := 0x00000001

def vmWrite : BitVec 32 := 0x00000002

def vmExec : BitVec 32 := 0x00000004

def vmStack : BitVec 32 := 0x00000008

/--
The assertions of `check_vma_overlap`.
-/
def checkVmaOverlap (prev next : Vma) : Prop :=
  prev.vmStart < prev.vmEnd ∧ prev.vmEnd ≤ next.vmStart ∧ next.vmStart < next.vmEnd

instance (prev next : Vma) : Decidable (checkVmaOverlap prev next) := inferInstanceAs (Decidable (_ ∧ _))

/--
`insert_vma_struct`, `none` if one of its assertions fails.
-/
def insertVmaStruct (vmas : List Vma) (vma : Vma) : Option (List Vma) :=
  let before := vmas.takeWhile fun prev => prev.vmStart ≤ vma.vmStart
  let behind := vmas.dropWhile fun prev => prev.vmStart ≤ vma.vmStart
  if vma.vmStart < vma.vmEnd ∧ (∀ prev ∈ before.getLast?, checkVmaOverlap prev vma) ∧
      ∀ next ∈ behind.head?, checkVmaOverlap vma next then
    some (before ++ vma :: behind)
  else
    none

end Vma

namespace Paging

variable {ι : Type} [DecidableEq ι]

/--
The loop of `dup_mmap`, which goes through the areas from the last one to the first. `created` tells for
which areas `vma_create` gets memory. The result is `none` if an assertion fails.
-/
def dupMmapLoop (pmm : PmmManager) (created : Vma → Bool) (dst src : ι)
    : List Vma → List Vma → Paging ι → Option (Int × List Vma × Paging ι)
  | [], to_, s => some (0, to_, s)
  | vma :: vmas, to_, s =>
    if created vma then
      match Vma.insertVmaStruct to_ vma with
      | none => none
      | some to_ =>
        match s.copyRange pmm dst src vma.vmStart vma.vmEnd with
        | none => none
        | some (ret, states) =>
          let s := states.getLastD s
          if ret ≠ 0 then some (-Errno.noMem.toInt, to_, s) else dupMmapLoop pmm created dst src vmas to_ s
    else
      some (-Errno.noMem.toInt, to_, s)

/--
`dup_mmap` into an address space without areas.
-/
def dupMmap (pmm : PmmManager) (created : Vma → Bool) (s : Paging ι) (dst src : ι) (vmas : List Vma)
    : Option (Int × List Vma × Paging ι) :=
  dupMmapLoop pmm created dst src vmas.reverse [] s

/--
`do_pgfault`. `swap` is what `swapfs_read` finds for an entry, `none` if it is not the entry of a page on
the swap disk. The result is `none` if an assertion fails.
-/
def doPgfault (pmm : PmmManager) (swap : Pte → Option PageData) (vmas : List Vma) (s : Paging ι) (i : ι)
    (addr : Nat) : Option (Int × Paging ι) :=
  match vmas.find? fun vma => vma.Has addr with
  | none => some (-Errno.inval.toInt, s)
  | some vma =>
    let perm := if vma.vmFlags &&& Vma.vmWrite ≠ 0 then Pte.pteU ||| Pte.readWrite else Pte.pteU
    let addr := addr / pgsize * pgsize
    match s.getPteCreate pmm i addr with
    | (none, s) => some (-Errno.noMem.toInt, s)
    | (some pte, s) =>
      if pte = Pte.zero then
        match s.pgdirAllocPage pmm i addr perm with
        | (none, s) => some (-Errno.noMem.toInt, s)
        | (some _, s) => some (0, s)
      else
        match s.allocPage pmm with
        | none => none
        | some (page, s) =>
          match swap pte with
          | none => none
          | some content =>
            let s := { s with data := Function.update s.data page content }
            let (ret, s) := s.pageInsert pmm i page addr perm
            if ret ≠ 0 then some (-Errno.noMem.toInt, s) else some (0, s)

/--
What a process reads in the page of an address: the frame behind a valid entry, or what `do_pgfault` gets
back from the swap disk. A page that was not touched has no contents yet.
-/
def pageRead (s : Paging ι) (swap : Pte → Option PageData) (i : ι) (la : Nat) : Option PageData :=
  match s.getPte i la with
  | none => none
  | some pte =>
    if pte.valid then some (s.data pte.ppn) else if pte = Pte.zero then none else swap pte

/--
A process writes a byte. Without a valid writable entry nothing is written: the page fault comes first.
-/
def writeByte (s : Paging ι) (i : ι) (la : Nat) (off : Fin pgsize) (byte : BitVec 8) : Paging ι :=
  match s.getPte i la with
  | none => s
  | some pte =>
    if pte.valid ∧ pte.flags &&& Pte.pteW ≠ 0 then
      { s with data := Function.update s.data pte.ppn (Function.update (s.data pte.ppn) off byte) }
    else
      s

end Paging
end Ucore

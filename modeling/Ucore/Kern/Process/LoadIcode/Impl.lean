import Ucore.Kern.Fs.Sfs.Sfs
import Ucore.Kern.Mm.Vmm.Impl
import Ucore.Lib.ByteFile
import Ucore.Lib.Prog

/-!
This module contains `load_icode` of kern/process/proc.c with the ELF headers of libs/elf.h and `mm_map`
of kern/mm/vmm.c.

The file is an array of bytes. What the kernel allocates for itself (the `mm_struct`, its areas and the
buffer of `sysfile_read`) is not part of the frames, the environment says when it gets memory.
-/

namespace Ucore

/--
The fields of `struct elfhdr` that are looked at.
-/
structure ElfHdr where
  eMagic : Nat
  eEntry : Nat
  ePhoff : Nat
  ePhnum : Nat

def elfMagic : Nat := 0x464C457F

namespace ElfHdr

/--
`sizeof(struct elfhdr)`.
-/
def size : Nat := 64

def ofBytes (b : Bytes) : ElfHdr where
  eMagic := b.toNat 4
  eEntry := (b.drop 24).toNat 8
  ePhoff := (b.drop 32).toNat 8
  ePhnum := (b.drop 56).toNat 2

end ElfHdr

structure ProgHdr where
  pType : Nat
  pFlags : BitVec 32
  pOffset : Nat
  pVa : Nat
  pFilesz : Nat
  pMemsz : Nat
  deriving DecidableEq

def elfPtLoad : Nat := 1

def elfPfX : BitVec 32 := 1

def elfPfW : BitVec 32 := 2

def elfPfR : BitVec 32 := 4

namespace ProgHdr

/--
`sizeof(struct proghdr)`.
-/
def size : Nat := 56

def ofBytes (b : Bytes) : ProgHdr where
  pType := b.toNat 4
  pFlags := BitVec.ofNat 32 ((b.drop 4).toNat 4)
  pOffset := (b.drop 8).toNat 8
  pVa := (b.drop 16).toNat 8
  pFilesz := (b.drop 32).toNat 8
  pMemsz := (b.drop 40).toNat 8

def vmFlags (ph : ProgHdr) : BitVec 32 :=
  (if ph.pFlags &&& elfPfX ≠ 0 then Vma.vmExec else 0) |||
    (if ph.pFlags &&& elfPfW ≠ 0 then Vma.vmWrite else 0) |||
      (if ph.pFlags &&& elfPfR ≠ 0 then Vma.vmRead else 0)

def perm (ph : ProgHdr) : BitVec 10 :=
  Pte.pteU ||| Pte.pteV ||| (if ph.vmFlags &&& Vma.vmRead ≠ 0 then Pte.pteR else 0) |||
    (if ph.vmFlags &&& Vma.vmWrite ≠ 0 then Pte.pteW ||| Pte.pteR else 0) |||
      (if ph.vmFlags &&& Vma.vmExec ≠ 0 then Pte.pteX else 0)

end ProgHdr

def ustacktop : Nat := userTop

def ustacksize : Nat := 256 * pgsize

def execMaxArgLen : Nat := 4095

/--
One of the strings in `kargv`, without the null byte at its end.
-/
structure KArg where
  bytes : List (BitVec 8)
  length_le : bytes.length ≤ execMaxArgLen

/--
The offset of an address in its page.
-/
def pageOff (addr : Nat) : Fin pgsize := ⟨addr % pgsize, Nat.mod_lt addr (by decide)⟩

/--
The `memcpy` or `memset` of `size` bytes from `off` on in a page.
-/
def PageData.write (data : PageData) (off : Nat) (src : Nat → BitVec 8) (size : Nat) : PageData := fun n =>
  if off ≤ n ∧ n < off + size then src (n - off) else data n

/--
What the rest of the kernel decides: the page manager, whether `mm_create` and `vma_create` get memory, up
to which size the file can grow, which reads do not fail, and what is on the swap disk.
-/
structure LoadEnv where
  pmm : PmmManager
  mmCreated : Bool
  created : Vma → Bool
  grows : Nat → Bool
  reads : Nat → Nat → Bool
  swap : Pte → Option PageData

/--
The panics and failed assertions. `memset` stands for a `memset` that runs over the memory of the kernel.
-/
inductive LoadPanic where
  | argNum
  | vmaOverlap
  | memset
  | bss
  | stackPage
  | pgfault
  deriving DecidableEq

/--
The page tables, `mmap_list` of the new `mm_struct` and the file.
-/
structure Loading (ι : Type) where
  paging : Paging ι
  mmapList : List Vma
  file : ByteFile

/--
What `load_icode` leaves in the trap frame.
-/
structure UserFrame where
  sp : Nat
  epc : Nat
  deriving DecidableEq

/--
The local variables of the page loops.
-/
structure Cursor where
  page : Option Nat
  la : Nat
  start : Nat
  offset : Nat

/--
The programs that `load_icode` consists of. An error is a result other than zero.
-/
abbrev LoadM (ι α : Type) := Prog Int LoadPanic (Loading ι) α

namespace LoadM

variable {ι : Type} [DecidableEq ι]

/--
`sfs_tryseek`. An offset from 2 ^ 63 on is a negative `off_t`.
-/
def tryseek (env : LoadEnv) (pos : Nat) : LoadM ι Unit := do
  let s ← Prog.get
  if pos ≥ sfsMaxFileSize then
    Prog.throw (-Errno.inval.toInt)
  else if pos > s.file.size then
    if env.grows pos then
      Prog.modify fun s => { s with file := s.file.overwrite pos Bytes.zero 0 }
    else
      Prog.throw (-Errno.noMem.toInt)
  else
    pure ()

/--
`load_icode_read`, for at most one page.
-/
def loadIcodeRead (env : LoadEnv) (len offset : Nat) : LoadM ι Bytes := do
  tryseek env offset
  let s ← Prog.get
  if env.reads offset len then
    if s.file.count offset len ≠ len then
      Prog.throw (-1)
    else
      return s.file.byte.drop offset
  else
    Prog.throw (-Errno.noMem.toInt)

def mmMap (env : LoadEnv) (addr len : Nat) (vmFlags : BitVec 32) : LoadM ι Unit := do
  let vma : Vma := ⟨addr / pgsize * pgsize, roundUp ((addr + len) % 2 ^ 64), vmFlags⟩
  if userAccess vma.vmStart vma.vmEnd then
    let s ← Prog.get
    if (s.mmapList.find? fun old => old.Has vma.vmStart).any fun old => vma.vmEnd > old.vmStart then
      Prog.throw (-Errno.inval.toInt)
    else if env.created vma then
      match Vma.insertVmaStruct s.mmapList vma with
      | some mmapList => Prog.modify fun s => { s with mmapList }
      | none => Prog.panic .vmaOverlap
    else
      Prog.throw (-Errno.noMem.toInt)
  else
    Prog.throw (-Errno.inval.toInt)

/--
`mm_create` and `setup_pgdir`.
-/
def setupPgdir (env : LoadEnv) (i : ι) : LoadM ι Unit := do
  let s ← Prog.get
  if env.mmCreated then
    match s.paging.allocPage env.pmm with
    | some (_, paging) =>
      Prog.modify fun s => { s with paging := paging.setPgdir i fun _ => none, mmapList := [] }
    | none => Prog.throw (-Errno.noMem.toInt)
  else
    Prog.throw (-Errno.noMem.toInt)

def pgdirAllocPage (env : LoadEnv) (i : ι) (la : Nat) (perm : BitVec 10) : LoadM ι Nat := do
  let s ← Prog.get
  match s.paging.pgdirAllocPage env.pmm i la perm with
  | (some page, paging) =>
    Prog.modify fun s => { s with paging }
    return page
  | (none, paging) =>
    Prog.modify fun s => { s with paging }
    Prog.throw (-Errno.noMem.toInt)

/--
`memcpy` or `memset` to `page2kva(page) + off`.
-/
def writePage (page off : Nat) (src : Nat → BitVec 8) (size : Nat) : LoadM ι Unit :=
  Prog.modify fun s => { s with
    paging := { s.paging with
      data := Function.update s.paging.data page ((s.paging.data page).write off src size) } }

/--
The loop of (3.6.1). A round takes at least one byte, so there are at most as many rounds as bytes.
-/
def loadFile (env : LoadEnv) (i : ι) (perm : BitVec 10) (stop : Nat) : Nat → Cursor → LoadM ι Cursor
  | 0, c => pure c
  | n + 1, c => do
    if c.start < stop then
      let page ← pgdirAllocPage env i c.la perm
      let off := c.start - c.la
      let la := c.la + pgsize
      let size := if stop < la then pgsize - off - (la - stop) else pgsize - off
      let b ← loadIcodeRead env size c.offset
      writePage page off (fun n => (b n).toBitVec) size
      loadFile env i perm stop n ⟨some page, la, c.start + size, c.offset + size⟩
    else
      pure c

/--
The rest of the last page of the file in (3.6.2).
-/
def clearTail (stop : Nat) (c : Cursor) : LoadM ι Cursor :=
  if c.start < c.la then
    -- with `continue` the loop behind it has no round either
    if c.start = stop then
      pure c
    else do
      let off := c.start + pgsize - c.la
      -- `stop` is below `start` if the memory size is so large that the sum has wrapped around
      let size := if stop < c.la then (pgsize - off + 2 ^ 64 - (c.la - stop)) % 2 ^ 64 else pgsize - off
      Prog.assert (off + size ≤ pgsize) .memset
      Prog.forSome c.page fun page => writePage page off (fun _ => 0) size
      let start := c.start + size
      Prog.assert (stop < c.la ∧ start = stop ∨ stop ≥ c.la ∧ start = c.la) .bss
      return { c with start }
  else
    pure c

/--
The loop of (3.6.2).
-/
def clearPages (env : LoadEnv) (i : ι) (perm : BitVec 10) (stop : Nat) : Nat → Cursor → LoadM ι Cursor
  | 0, c => pure c
  | n + 1, c => do
    if c.start < stop then
      let page ← pgdirAllocPage env i c.la perm
      let off := c.start - c.la
      let la := c.la + pgsize
      let size := if stop < la then pgsize - off - (la - stop) else pgsize - off
      writePage page off (fun _ => 0) size
      clearPages env i perm stop n { c with page := some page, la, start := c.start + size }
    else
      pure c

/--
The body of the loop over the program headers behind the read.
-/
def loadProghdr (env : LoadEnv) (i : ι) (ph : ProgHdr) : LoadM ι Unit :=
  if ph.pType ≠ elfPtLoad then
    pure ()
  else if ph.pFilesz > ph.pMemsz then
    Prog.throw (-Errno.invalElf.toInt)
  else if ph.pFilesz = 0 then
    pure ()
  else do
    mmMap env ph.pVa ph.pMemsz ph.vmFlags
    let stop := (ph.pVa + ph.pFilesz) % 2 ^ 64
    let c ← loadFile env i ph.perm stop (stop - ph.pVa) ⟨none, ph.pVa / pgsize * pgsize, ph.pVa, ph.pOffset⟩
    let stop := (ph.pVa + ph.pMemsz) % 2 ^ 64
    let c ← clearTail stop c
    let _ ← clearPages env i ph.perm stop (stop - c.start) c
    pure ()

def phoff (elf : ElfHdr) (phnum : Nat) : Nat := (elf.ePhoff + ProgHdr.size * phnum) % 2 ^ 64

def loadProghdrs (env : LoadEnv) (i : ι) (elf : ElfHdr) : List Nat → LoadM ι Unit
  | [] => pure ()
  | phnum :: rest => do
    let b ← loadIcodeRead env ProgHdr.size (phoff elf phnum)
    loadProghdr env i (ProgHdr.ofBytes b)
    loadProghdrs env i elf rest

/--
`assert(pgdir_alloc_page(mm->pgdir, la, PTE_USER) != NULL)`.
-/
def stackPage (env : LoadEnv) (i : ι) (la : Nat) : LoadM ι Unit := do
  let s ← Prog.get
  match s.paging.pgdirAllocPage env.pmm i la Pte.pteUser with
  | (some _, paging) => Prog.modify fun s => { s with paging }
  | (none, _) => Prog.panic .stackPage

def buildStack (env : LoadEnv) (i : ι) : LoadM ι Unit := do
  mmMap env (ustacktop - ustacksize) ustacksize (Vma.vmRead ||| Vma.vmWrite ||| Vma.vmStack)
  stackPage env i (ustacktop - pgsize)
  stackPage env i (ustacktop - 2 * pgsize)
  stackPage env i (ustacktop - 3 * pgsize)
  stackPage env i (ustacktop - 4 * pgsize)

/--
A store of the kernel to an address of the new process. Where it has a page fault it is done again behind
`do_pgfault`.
-/
def storeByte (env : LoadEnv) (i : ι) (addr : Nat) (byte : BitVec 8) : LoadM ι Unit := do
  let s ← Prog.get
  let off := pageOff addr
  if (s.paging.getPte i addr).any fun pte => pte.valid ∧ pte.flags &&& Pte.pteW ≠ 0 then
    Prog.modify fun s => { s with paging := s.paging.writeByte i addr off byte }
  else
    match s.paging.doPgfault env.pmm env.swap s.mmapList i addr with
    | some (ret, paging) =>
      if ret = 0 then
        Prog.modify fun s => { s with paging := paging.writeByte i addr off byte }
      else
        Prog.panic .pgfault
    | none => Prog.panic .pgfault

def storeBytes (env : LoadEnv) (i : ι) : List (Nat × BitVec 8) → LoadM ι Unit
  | [] => pure ()
  | (addr, byte) :: rest => do
    storeByte env i addr byte
    storeBytes env i rest

/--
The stores of bytes from `addr` on.
-/
def bytesAt (addr : Nat) : List (BitVec 8) → List (Nat × BitVec 8)
  | [] => []
  | byte :: rest => (addr, byte) :: bytesAt (addr + 1) rest

/--
The bytes of an integer, the lowest byte first.
-/
def intBytes (n w : Nat) : List (BitVec 8) := (List.range w).map fun k => BitVec.ofNat 8 (n / 256 ^ k)

/--
`argv_size` behind its loop.
-/
def argvSize (args : List KArg) : Nat := (args.map fun arg => arg.bytes.length + 1).sum

/--
The stores of the loop that fills `uargv`: each string with its null byte, then its address.
-/
def argvStores (stacktop : Nat) : List KArg → Nat → Nat → List (Nat × BitVec 8)
  | [], _, _ => []
  | arg :: rest, uargv, size =>
    bytesAt (stacktop + size) (arg.bytes ++ [0]) ++ bytesAt uargv (intBytes (stacktop + size) 8) ++
      argvStores stacktop rest (uargv + 8) (size + (arg.bytes.length + 1))

def stacktop (args : List KArg) : Nat := ustacktop - (argvSize args / 8 + 1) * 8

def uargv (args : List KArg) : Nat := stacktop args - args.length * 8

/--
`tf->gpr.sp`, the address of `argc`.
-/
def userSp (args : List KArg) : Nat := uargv args - 4

def execMaxArgNum : Nat := 32

def loadIcode (env : LoadEnv) (args : List KArg) (i : ι) : LoadM ι UserFrame := do
  Prog.assert (args.length ≤ execMaxArgNum) .argNum
  setupPgdir env i
  let b ← loadIcodeRead env ElfHdr.size 0
  let elf := ElfHdr.ofBytes b
  if elf.eMagic ≠ elfMagic then
    Prog.throw (-Errno.invalElf.toInt)
  else
    loadProghdrs env i elf (List.range elf.ePhnum)
    buildStack env i
    storeBytes env i (argvStores (stacktop args) args (uargv args) 0)
    storeBytes env i (bytesAt (userSp args) (intBytes args.length 4))
    return ⟨userSp args, elf.eEntry⟩

end LoadM
end Ucore

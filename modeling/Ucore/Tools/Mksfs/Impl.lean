import Ucore.Kern.Fs.Sfs.Sfs
import Ucore.Lib.Prog
import Ucore.Libs.Hash

/-!
This module contains tools/mksfs.c, which builds the image of a file system from a directory of the
host. What the host answers with an error ends the builder and is left out.
-/

namespace Ucore

/--
A directory of the host in the order of `readdir`: each entry is a regular file, a symbolic link, a
directory or something else. `real` is the inode number on the host.
-/
inductive HostDir where
  | nil
  | reg (name : List UInt8) (real : Nat) (rest : HostDir)
  | lnk (name : List UInt8) (real : Nat) (rest : HostDir)
  | dir (name : List UInt8) (real : Nat) (entries rest : HostDir)
  | other (name : List UInt8) (rest : HostDir)

/--
The contents of the regular files and of the links, by inode number.
-/
structure Host where
  size : Nat → Nat
  data : Nat → Bytes

abbrev sfsMaxNblks : Nat := 1024 * 512

abbrev sfsL1Nblks : Nat := sfsBlkNentry + sfsNdirect
abbrev sfsL2Nblks : Nat := sfsBlkNentry * sfsBlkNentry + sfsL1Nblks
abbrev sfsLnNblks : Nat := sfsMaxFileSize / sfsBlksize

/--
The inode on disk as the builder writes it.
-/
structure MkInode where
  size : Nat
  type : Nat
  nlinks : Nat
  blocks : Nat
  direct : Nat → Nat
  indirect : Nat
  dbIndirect : Nat

namespace MkInode

def toBytes (inode : MkInode) : Bytes := fun i =>
  if i < 4 then
    Bytes.ofNat inode.size i
  else if i < 6 then
    Bytes.ofNat inode.type (i - 4)
  else if i < 8 then
    Bytes.ofNat inode.nlinks (i - 6)
  else if i < 12 then
    Bytes.ofNat inode.blocks (i - 8)
  else if i < 60 then
    Bytes.ofNat (inode.direct ((i - 12) / 4)) ((i - 12) % 4)
  else if i < 64 then
    Bytes.ofNat inode.indirect (i - 60)
  else
    Bytes.ofNat inode.dbIndirect (i - 64)

abbrev byteSize : Nat := 68

end MkInode

/--
A `struct cache_inode`. The pointers `l1` and `l2` to cache blocks are their block numbers.
-/
structure CacheInode where
  inode : MkInode
  real : Nat
  ino : Nat
  nblks : Nat
  l1 : Option Nat
  l2 : Option Nat

structure MkSuper where
  blocks : Nat
  unusedBlocks : Nat
  info : Bytes

namespace MkSuper

def toBytes (super : MkSuper) : Bytes := fun i =>
  if i < 4 then
    Bytes.ofNat sfsMagic i
  else if i < 8 then
    Bytes.ofNat super.blocks (i - 4)
  else if i < 12 then
    Bytes.ofNat super.unusedBlocks (i - 8)
  else
    super.info (i - 12)

abbrev byteSize : Nat := 44

end MkSuper

/--
A `struct sfs_fs`. Cache inodes and cache blocks are on the heap at their block numbers, `inodes` and
`blocks` are the hash lists of them, and `cache` has the entries of a cache block. `entry` is the
static buffer of `add_entry`, `img` the contents of the blocks of the image.
-/
structure Mksfs where
  super : MkSuper
  ninos : Nat
  nextIno : Nat
  inode : Nat → CacheInode
  inodes : Nat → List Nat
  cache : Nat → Nat → Nat
  blocks : Nat → List Nat
  entry : Bytes
  img : Nat → Bytes

/--
The calls of `bug`.
-/
inductive MkError where
  | outOfDiskSpace
  | imgTooSmall
  | fileTooBig
  | nameTooLong
  | readLink
  deriving DecidableEq

inductive MkPanic where
  | writeBlock
  | updateCache
  | appendBlock
  | addEntry
  | addDir
  | openFile
  deriving DecidableEq

abbrev MkProg (α : Type) := Prog MkError MkPanic Mksfs α

namespace Mksfs

abbrev hashShift : Nat := 10
abbrev hashListSize : Nat := 2 ^ hashShift

def hash32 (ino : Nat) : Nat := (Ucore.hash32 (BitVec.ofNat 32 ino) hashShift).toNat

def hash64 (real : Nat) : Nat := (Ucore.hash32 (BitVec.ofNat 32 real) hashShift).toNat

def setInode (s : Mksfs) (p : Nat) (f : CacheInode → CacheInode) : Mksfs :=
  { s with inode := Function.update s.inode p (f (s.inode p)) }

def setCache (s : Mksfs) (cb i ino : Nat) : Mksfs :=
  { s with cache := Function.update s.cache cb (Function.update (s.cache cb) i ino) }

/--
The decrement of a `uint32_t`.
-/
def dec32 (n : Nat) : Nat := if n = 0 then 2 ^ 32 - 1 else n - 1

def sfsAllocIno : MkProg Nat := do
  let s ← Prog.get
  if s.nextIno < s.ninos then
    Prog.modify fun s =>
      { s with
        super := { s.super with unusedBlocks := dec32 s.super.unusedBlocks }
        nextIno := s.nextIno + 1 }
    return s.nextIno
  else
    Prog.throw .outOfDiskSpace

/--
The new block goes to the hash list of the argument, not to the one of its number.
-/
def allocCacheBlock (ino : Nat) : MkProg Nat := do
  let cb ← if ino ≠ 0 then pure ino else sfsAllocIno
  Prog.modify fun s =>
    { s with
      cache := Function.update s.cache cb fun _ => 0
      blocks := Function.update s.blocks (hash32 ino) (cb :: s.blocks (hash32 ino)) }
  return cb

def searchCacheBlock (s : Mksfs) (ino : Nat) : Option Nat :=
  (s.blocks (hash32 ino)).find? fun cb => cb = ino

/--
The part of `alloc_cache_inode` behind the allocation of the block.
-/
def newCacheInode (s : Mksfs) (real ino type : Nat) : Mksfs :=
  { s with
    inode := Function.update s.inode ino
      { inode :=
          { size := 0, type, nlinks := 0, blocks := 0, direct := fun _ => 0, indirect := 0,
            dbIndirect := 0 }
        real, ino, nblks := 0, l1 := none, l2 := none }
    inodes := Function.update s.inodes (hash64 real) (ino :: s.inodes (hash64 real)) }

def allocCacheInode (real ino type : Nat) : MkProg Nat := do
  let ci ← if ino ≠ 0 then pure ino else sfsAllocIno
  Prog.modify fun s => s.newCacheInode real ci type
  return ci

def searchCacheInode (s : Mksfs) (real : Nat) : Option Nat :=
  (s.inodes (hash64 real)).find? fun ci => (s.inode ci).real = real

def simpleFileSystem : List UInt8 :=
  [115, 105, 109, 112, 108, 101, 32, 102, 105, 108, 101, 32, 115, 121, 115, 116, 101, 109]

/--
`st_size` and `img` are of the image file, `heap` is what `malloc` leaves in the superblock.
-/
def createSfs (stSize : Nat) (img : Nat → Bytes) (heap : Bytes) : Except MkError Mksfs :=
  let ninos := min (stSize / sfsBlksize % 2 ^ 32) sfsMaxNblks
  let nextIno := sfsBlknFreemap + (ninos + sfsBlkbits - 1) / sfsBlkbits
  if nextIno ≥ ninos then
    .error .imgTooSmall
  else
    let s : Mksfs :=
      { super :=
          { blocks := ninos
            unusedBlocks := ninos - nextIno
            info := heap.copy 0 (Bytes.ofList simpleFileSystem) (simpleFileSystem.length + 1) }
        ninos
        nextIno
        inode := fun _ => ⟨⟨0, 0, 0, 0, fun _ => 0, 0, 0⟩, 0, 0, 0, none, none⟩
        inodes := fun _ => []
        cache := fun _ _ => 0
        blocks := fun _ => []
        entry := Bytes.zero
        img }
    .ok (s.newCacheInode 0 sfsBlknRoot sfsTypeDir)

def writeBlock (data : Bytes) (len ino : Nat) : MkProg Unit := do
  let s ← Prog.get
  Prog.assert (len ≤ sfsBlksize ∧ ino < s.ninos) .writeBlock
  Prog.modify fun s => { s with img := Function.update s.img ino (Bytes.zero.copy 0 data len) }

/--
`*cbp` and `*inop` are the result afterwards.
-/
def updateCache (cb : Option Nat) (ino : Nat) : MkProg Nat := do
  if ino = 0 then
    allocCacheBlock 0
  else if cb = some ino then
    return ino
  else
    let s ← Prog.get
    Prog.assert (s.searchCacheBlock ino = some ino) .updateCache
    return ino

/--
`file->l1->cache` with the block of `inode->indirect`.
-/
def indirectCache (file : Nat) : MkProg Nat := do
  let s ← Prog.get
  let cb ← updateCache (s.inode file).l1 (s.inode file).inode.indirect
  Prog.modify fun s => s.setInode file fun ci =>
    { ci with l1 := some cb, inode := { ci.inode with indirect := cb } }
  return cb

/--
`file->l2->cache` with the block of `inode->db_indirect`.
-/
def dbIndirectCache (file : Nat) : MkProg Nat := do
  let s ← Prog.get
  let cb ← updateCache (s.inode file).l2 (s.inode file).inode.dbIndirect
  Prog.modify fun s => s.setInode file fun ci =>
    { ci with l2 := some cb, inode := { ci.inode with dbIndirect := cb } }
  return cb

/--
`file->l1->cache` with the block of entry `j` of the block `cb2`.
-/
def entryCache (file cb2 j : Nat) : MkProg Nat := do
  let s ← Prog.get
  let cb ← updateCache (s.inode file).l1 (s.cache cb2 j)
  Prog.modify fun s => (s.setInode file fun ci => { ci with l1 := some cb }).setCache cb2 j cb
  return cb

/--
The part of `append_block` that enters the block at its place.
-/
def appendPointer (file nblks ino : Nat) : MkProg Unit := do
  if nblks < sfsNdirect then
    Prog.modify fun s => s.setInode file fun ci =>
      { ci with inode := { ci.inode with direct := Function.update ci.inode.direct nblks ino } }
  else if nblks < sfsL1Nblks then
    let cb ← indirectCache file
    Prog.modify fun s => s.setCache cb (nblks - sfsNdirect) ino
  else
    Prog.when (nblks < sfsL2Nblks) do
      let cb2 ← dbIndirectCache file
      let cb ← entryCache file cb2 ((nblks - sfsL1Nblks) / sfsBlkNentry)
      Prog.modify fun s => s.setCache cb ((nblks - sfsL1Nblks) % sfsBlkNentry) ino

def appendBlock (file size ino : Nat) : MkProg Unit := do
  Prog.assert (size ≤ sfsBlksize) .appendBlock
  let s ← Prog.get
  if (s.inode file).nblks ≥ sfsLnNblks then
    Prog.throw .fileTooBig
  else
    appendPointer file (s.inode file).nblks ino
    Prog.modify fun s => s.setInode file fun ci =>
      { ci with
        nblks := ci.nblks + 1
        inode :=
          { ci.inode with
            size := (ci.inode.size + size) % 2 ^ 32
            blocks := (ci.inode.blocks + 1) % 2 ^ 32 } }

/--
A `struct sfs_entry` behind an assignment and a `strcpy`.
-/
def fillEntry (entry : Bytes) (ino : Nat) (name : List UInt8) : Bytes :=
  (entry.copy 0 (Bytes.ofNat ino) 4).copy 4 (Bytes.ofList name) (name.length + 1)

/--
Only `sizeof(entry->name)` bytes of the entry are written.
-/
def addEntry (current file : Nat) (name : List UInt8) : MkProg Unit := do
  let s ← Prog.get
  Prog.assert ((s.inode current).inode.type = sfsTypeDir ∧ name.length ≤ sfsMaxFnameLen) .addEntry
  Prog.modify fun s => { s with entry := fillEntry s.entry (s.inode file).ino name }
  let entryIno ← sfsAllocIno
  let s ← Prog.get
  writeBlock s.entry (sfsMaxFnameLen + 1) entryIno
  appendBlock current (sfsMaxFnameLen + 1) entryIno
  Prog.modify fun s => s.setInode file fun ci =>
    { ci with inode := { ci.inode with nlinks := (ci.inode.nlinks + 1) % 2 ^ 16 } }

/--
The loop of `open_file` from byte `off` on, for `n` reads.
-/
def readLoop (file : Nat) (data : Bytes) (size off last : Nat) : Nat → MkProg Unit
  | 0 => pure ()
  | n + 1 => do
    let ret := min sfsBlksize (size - off)
    Prog.assert (last = sfsBlksize) .openFile
    let ino ← sfsAllocIno
    writeBlock (data.drop off) ret ino
    appendBlock file ret ino
    readLoop file data size (off + ret) ret n

/--
A regular file is read in whole blocks up to the last one.
-/
def openFile (host : Host) (file real : Nat) : MkProg Unit :=
  readLoop file (host.data real) (host.size real) 0 sfsBlksize
    ((host.size real + (sfsBlksize - 1)) / sfsBlksize)

def openLink (host : Host) (file real : Nat) : MkProg Unit := do
  let ino ← sfsAllocIno
  let ret := min sfsBlksize (host.size real)
  if ret = sfsBlksize then
    Prog.throw .readLink
  else
    writeBlock (host.data real) ret ino
    appendBlock file ret ino

def addFile (host : Host) (current : Nat) (name : List UInt8) (real : Nat) : MkProg Unit := do
  let s ← Prog.get
  match s.searchCacheInode real with
  | some file => addEntry current file name
  | none =>
    let file ← allocCacheInode real 0 sfsTypeFile
    openFile host file real
    addEntry current file name

def addLink (host : Host) (current : Nat) (name : List UInt8) (real : Nat) : MkProg Unit := do
  let file ← allocCacheInode real 0 sfsTypeLink
  openLink host file real
  addEntry current file name

def dot : List UInt8 := [46]

def dotdot : List UInt8 := [46, 46]

/--
The tests in the loop of `open_dir`: a name that starts with a dot is skipped.
-/
def readEntry (name : List UInt8) (add : MkProg Unit) : MkProg Unit := do
  if name.head? = some 46 then
    pure ()
  else if name.length > sfsMaxFnameLen then
    Prog.throw .nameTooLong
  else
    add

/--
`loop` is the loop of this function.
-/
def openDir (current parent : Nat) (loop : MkProg Unit) : MkProg Unit := do
  addEntry current current dot
  addEntry current parent dotdot
  loop

def addDir (parent : Nat) (name : List UInt8) (real : Nat) (loop : Nat → MkProg Unit)
    : MkProg Unit := do
  let s ← Prog.get
  Prog.assert (s.searchCacheInode real = none) .addDir
  let current ← allocCacheInode real 0 sfsTypeDir
  openDir current parent (loop current)
  addEntry parent current name

/--
The loop of `open_dir`.
-/
def readDir (host : Host) (current : Nat) : HostDir → MkProg Unit
  | .nil => pure ()
  | .reg name real rest => do
    readEntry name (addFile host current name real)
    readDir host current rest
  | .lnk name real rest => do
    readEntry name (addLink host current name real)
    readDir host current rest
  | .dir name real entries rest => do
    readEntry name (addDir current name real fun child => readDir host child entries)
    readDir host current rest
  | .other name rest => do
    readEntry name (pure ())
    readDir host current rest

/--
The bits from `start` to `stop` in the words of a block of the freemap.
-/
def setBits (start stop : Nat) : Nat → BitVec 32 :=
  (List.range' start (stop - start)).foldl
    (fun data j => Function.update data (j / wordBits)
      (data (j / wordBits) ||| Bitmap.mask (j % wordBits)))
    fun _ => 0

/--
The block of the freemap with the bits from `i` on.
-/
def freemapBlock (ninos nextIno i : Nat) : Nat → BitVec 32 :=
  if i + sfsBlkbits > nextIno then
    setBits (if i < nextIno then nextIno - i else 0)
      (if i + sfsBlkbits > ninos then ninos - i else sfsBlkbits)
  else
    fun _ => 0

def writeBlocks : List (Nat × Bytes × Nat) → MkProg Unit
  | [] => pure ()
  | (ino, data, len) :: rest => do
    writeBlock data len ino
    writeBlocks rest

def freemapWrites (s : Mksfs) : List (Nat × Bytes × Nat) :=
  (List.range ((s.ninos + sfsBlkbits - 1) / sfsBlkbits)).map fun k =>
    (sfsBlknFreemap + k,
      Bytes.ofWords fun w => (freemapBlock s.ninos s.nextIno (k * sfsBlkbits) w).toNat, sfsBlksize)

def flushCacheBlock (s : Mksfs) (cb : Nat) : Nat × Bytes × Nat :=
  (cb, Bytes.ofWords (s.cache cb), sfsBlksize)

def flushCacheInode (s : Mksfs) (ci : Nat) : Nat × Bytes × Nat :=
  ((s.inode ci).ino, (s.inode ci).inode.toBytes, MkInode.byteSize)

def closeWrites (s : Mksfs) : List (Nat × Bytes × Nat) :=
  s.freemapWrites ++ (0, s.super.toBytes, MkSuper.byteSize) ::
    (List.range hashListSize).flatMap fun i =>
      (s.blocks i).map s.flushCacheBlock ++ (s.inodes i).map s.flushCacheInode

/--
Nothing that is written is read from the image, so the list of writes is known beforehand.
-/
def closeSfs : MkProg Unit := do
  let s ← Prog.get
  writeBlocks s.closeWrites

/--
The builder at its end, `none` if it has not come there.
-/
def createImg (stSize : Nat) (img : Nat → Bytes) (heap : Bytes) (host : Host) (home : HostDir)
    : Option Mksfs :=
  match createSfs stSize img heap with
  | .error _ => none
  | .ok s =>
    match (do
      openDir sfsBlknRoot sfsBlknRoot (readDir host sfsBlknRoot home)
      closeSfs : MkProg Unit) s with
    | .ok _ s => some s
    | _ => none

end Mksfs
end Ucore

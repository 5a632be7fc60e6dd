import Mathlib
import Ucore.Kern.Fs.Panic
import Ucore.Kern.Fs.Sfs.Bitmap.Impl
import Ucore.Lib.Bytes
import Ucore.Lib.Faults

/-!
This module contains the data of a mounted simple file system (kern/fs/sfs/sfs.h): the inode on disk
with its encoding in a block, the inode in memory, the device and the file system itself.
-/

namespace Ucore

abbrev sfsBlksize : Nat := 4096
abbrev sfsNdirect : Nat := 12
abbrev sfsMaxFnameLen : Nat := 255
abbrev sfsMaxFileSize : Nat := 1024 * 1024 * 128
abbrev sfsBlkNentry : Nat := sfsBlksize / 4
abbrev sfsBlkbits : Nat := sfsBlksize * 8
abbrev sfsMagic : Nat := 0x2f8dbe2a
abbrev sfsMaxInfoLen : Nat := 31

abbrev sfsBlknSuper : Nat := 0
abbrev sfsBlknRoot : Nat := 1
abbrev sfsBlknFreemap : Nat := 2

abbrev sfsTypeFile : Nat := 1
abbrev sfsTypeDir : Nat := 2
abbrev sfsTypeLink : Nat := 3

/--
The superblock. A file system that is not read from a disk has the right number and no text.
-/
structure SfsSuper where
  magic : Nat := sfsMagic
  blocks : Nat
  unusedBlocks : Nat
  info : Bytes := Bytes.zero

namespace SfsSuper

def toBytes (super : SfsSuper) : Bytes := fun i =>
  if i < 4 then
    Bytes.ofNat super.magic i
  else if i < 8 then
    Bytes.ofNat super.blocks (i - 4)
  else if i < 12 then
    Bytes.ofNat super.unusedBlocks (i - 8)
  else
    super.info (i - 12)

abbrev byteSize : Nat := 44

def ofBytes (b : Bytes) : SfsSuper where
  magic := b.word 0
  blocks := b.word 1
  unusedBlocks := b.word 2
  info := b.drop 12

end SfsSuper

/--
The inode on disk. The bounds are those of the widths of its fields.
-/
structure SfsDiskInode where
  size : Nat
  type : Nat
  nlinks : Nat
  blocks : Nat
  direct : Fin sfsNdirect → Nat
  indirect : Nat
  size_lt : size < 2 ^ 32
  type_lt : type < 2 ^ 16
  nlinks_lt : nlinks < 2 ^ 16
  blocks_lt : blocks < 2 ^ 32
  direct_lt : ∀ i, direct i < 2 ^ 32
  indirect_lt : indirect < 2 ^ 32

namespace SfsDiskInode

def setSize (din : SfsDiskInode) (size : Nat) : SfsDiskInode :=
  { din with size := size % 2 ^ 32, size_lt := Nat.mod_lt _ (by decide) }

def setBlocks (din : SfsDiskInode) (blocks : Nat) : SfsDiskInode :=
  { din with blocks := blocks % 2 ^ 32, blocks_lt := Nat.mod_lt _ (by decide) }

def setDirect (din : SfsDiskInode) (i : Fin sfsNdirect) (ino : Nat) : SfsDiskInode :=
  { din with
    direct := Function.update din.direct i (ino % 2 ^ 32)
    direct_lt := by
      intro j
      by_cases h : j = i
      . subst h
        simpa using Nat.mod_lt ino (by decide)
      . simpa [h] using din.direct_lt j }

def setIndirect (din : SfsDiskInode) (ino : Nat) : SfsDiskInode :=
  { din with indirect := ino % 2 ^ 32, indirect_lt := Nat.mod_lt _ (by decide) }

/--
The `sizeof(struct sfs_disk_inode)` bytes at the start of the block of the inode.
-/
def toBytes (din : SfsDiskInode) : Bytes := fun i =>
  if i < 4 then
    Bytes.ofNat din.size i
  else if i < 6 then
    Bytes.ofNat din.type (i - 4)
  else if i < 8 then
    Bytes.ofNat din.nlinks (i - 6)
  else if i < 12 then
    Bytes.ofNat din.blocks (i - 8)
  else if h : (i - 12) / 4 < sfsNdirect then
    Bytes.ofNat (din.direct ⟨(i - 12) / 4, h⟩) ((i - 12) % 4)
  else
    Bytes.ofNat din.indirect (i - 60)

abbrev byteSize : Nat := 64

def ofBytes (b : Bytes) : SfsDiskInode where
  size := b.toNat 4
  type := (b.drop 4).toNat 2
  nlinks := (b.drop 6).toNat 2
  blocks := (b.drop 8).toNat 4
  direct i := (b.drop (12 + 4 * i)).toNat 4
  indirect := (b.drop 60).toNat 4
  size_lt := b.toNat_lt 4
  type_lt := (b.drop 4).toNat_lt 2
  nlinks_lt := (b.drop 6).toNat_lt 2
  blocks_lt := (b.drop 8).toNat_lt 4
  direct_lt i := (b.drop (12 + 4 * i)).toNat_lt 4
  indirect_lt := (b.drop 60).toNat_lt 4

end SfsDiskInode

/--
The inode in memory.
-/
structure SfsInode where
  din : SfsDiskInode
  ino : Nat
  dirty : Bool
  reclaimCount : Int

/--
The block device disk0: its size in blocks and the contents of each block.
-/
structure Device where
  dBlocks : Nat
  data : Nat → Bytes

/--
What a request of the file system to its environment is for: the write of `sfs_clear_block`, access
to an entry of an indirect block, to the content of a file, to the block of an inode or to a
directory entry, to the superblock or to the freemap, and the allocation of memory.
-/
inductive Request where
  | clear
  | entry
  | data
  | inode
  | dirent
  | super
  | freemap
  | kmalloc
  deriving DecidableEq

/--
The mounted file system. `env` says which of the coming requests fail.
-/
structure SfsFs where
  super : SfsSuper
  dev : Device
  freemap : Bitmap
  superDirty : Bool
  env : Faults Request Errno

end Ucore

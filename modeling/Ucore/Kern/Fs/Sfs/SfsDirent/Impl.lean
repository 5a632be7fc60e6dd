import Ucore.Kern.Fs.Iobuf
import Ucore.Kern.Fs.Sfs.SfsInode.Impl

/-!
This module contains the entries of a directory (kern/fs/sfs/sfs_inode.c), each of which has a block of the directory to
itself. The locks of the source are left out: each function runs on its own.
-/

namespace Ucore

/--
`sizeof` the name of an entry.
-/
def sfsDentrySize : Nat := sfsMaxFnameLen + 1

/--
`struct sfs_disk_entry`. An entry with the number 0 is empty.
-/
structure SfsDiskEntry where
  ino : Nat
  name : List UInt8
  deriving DecidableEq

namespace SfsDiskEntry

/--
The entry in the bytes of a block, with the zero that `sfs_dirent_read_nolock` puts behind its name.
-/
def ofBytes (b : Bytes) : SfsDiskEntry where
  ino := b.toNat 4
  name := ((List.range sfsMaxFnameLen).map fun i => b (4 + i)) ++ [0]

/--
`sizeof(struct sfs_disk_entry)`
-/
def byteSize : Nat := 4 + sfsDentrySize

end SfsDiskEntry

/--
`kmalloc`, which the environment answers or not.
-/
def SfsFs.kmalloc : Prog Errno Panic SfsFs Unit := fun sfs =>
  match sfs.env .kmalloc 0 with
  | none => .ok () (sfs.requested (Faults.cost .kmalloc 1))
  | some _ => .error .noMem (sfs.requested (Faults.cost .kmalloc 1))

namespace SfsCtx

def sfsDirentReadNolock (slot : Nat) : Prog Errno Panic SfsCtx SfsDiskEntry := do
  let s ← Prog.get
  Prog.assert (s.sin.din.type = sfsTypeDir ∧ slot < s.sin.din.blocks) .sfsDirentRead
  let ino ← sfsBmapLoadNolock slot
  onSfs (SfsFs.assertInuse ino .sfsDirentReadInuse)
  let b ← onSfs (SfsFs.sfsRbuf .dirent SfsDiskEntry.byteSize ino 0)
  return SfsDiskEntry.ofBytes b

/--
The number of blocks as the `int nslots` of the source.
-/
def nslots (din : SfsDiskInode) : Nat := (BitVec.ofNat 32 din.blocks).toInt.toNat

/--
The loop of `sfs_getdirentry_sub_nolock` over the `n` slots from slot `i` on.
-/
def getdirentrySub : Nat → Nat → BitVec 32 → Prog Errno Panic SfsCtx SfsDiskEntry
  | 0, _, _ => Prog.throw .noent
  | n + 1, i, slot => do
    let entry ← sfsDirentReadNolock i
    if entry.ino ≠ 0 then
      if slot = 0 then
        return entry
      else
        getdirentrySub n (i + 1) (slot - 1)
    else
      getdirentrySub n (i + 1) slot

def sfsGetdirentrySubNolock (slot : BitVec 32) : Prog Errno Panic SfsCtx SfsDiskEntry := do
  let s ← Prog.get
  getdirentrySub (nslots s.sin.din) 0 slot

/--
The buffer goes back to the caller with the return value of `iobuf_move`.
-/
def sfsGetdirentry (iob : Iobuf) : Prog Errno Panic SfsCtx (Option Errno × Iobuf) := do
  onSfs SfsFs.kmalloc
  let s ← Prog.get
  if iob.offset < 0 ∨ iob.offset % sfsDentrySize ≠ 0 then
    Prog.throw .inval
  else
    let slot := BitVec.ofInt 32 (iob.offset / sfsDentrySize)
    if slot.toNat > s.sin.din.blocks then
      Prog.throw .noent
    else
      let entry ← sfsGetdirentrySubNolock slot
      iob.iobufMove (Bytes.ofList entry.name) sfsDentrySize

end SfsCtx
end Ucore

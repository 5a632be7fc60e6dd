import Ucore.Kern.Fs.Sfs.SfsIo.Impl

/-!
This module contains the block map, the content and the reclaiming of an inode
(kern/fs/sfs/sfs_inode.c). The locks of the source are left out: each function runs on its own.
-/

namespace Ucore

/--
The file system together with the inode a function works on.
-/
structure SfsCtx where
  sfs : SfsFs
  sin : SfsInode

namespace SfsFs

def onFreemap {α : Type} (m : Prog Errno Panic Bitmap α) : Prog Errno Panic SfsFs α :=
  Prog.zoom (fun sfs => sfs.freemap) (fun sfs freemap => { sfs with freemap }) m

def sfsBlockInuse (ino : Nat) : Prog Errno Panic SfsFs Bool := do
  let sfs ← Prog.get
  if ino ≠ 0 ∧ ino < sfs.super.blocks then
    let test ← onFreemap (Bitmap.bitmapTest ino)
    return !test
  else
    Prog.panic .sfsBlockInuse

def assertInuse (ino : Nat) (p : Panic) : Prog Errno Panic SfsFs Unit := do
  let inuse ← sfsBlockInuse ino
  Prog.assert inuse p

def setUnusedBlocks (sfs : SfsFs) (n : Nat) : SfsFs :=
  { sfs with super := { sfs.super with unusedBlocks := n % 2 ^ 32 }, superDirty := true }

def sfsBlockAlloc : Prog Errno Panic SfsFs Nat := do
  let ino ← onFreemap Bitmap.bitmapAlloc
  let sfs ← Prog.get
  Prog.assert (sfs.super.unusedBlocks > 0) .sfsBlockAllocUnused
  Prog.modify fun sfs => sfs.setUnusedBlocks (sfs.super.unusedBlocks - 1)
  assertInuse ino .sfsBlockAllocInuse
  sfsClearBlock ino
  return ino

def sfsBlockFree (ino : Nat) : Prog Errno Panic SfsFs Unit := do
  assertInuse ino .sfsBlockFree
  onFreemap (Bitmap.bitmapFree ino)
  Prog.modify fun sfs => sfs.setUnusedBlocks (sfs.super.unusedBlocks + 1)

/--
The part of `sfs_bmap_get_sub_nolock` that allocates a block and enters it at byte `offset` of the
block `ent`, which is itself new if it differs from `entp`.
-/
def allocEntry (entp ent offset : Nat) : Prog Errno Panic SfsFs (Nat × Nat) :=
  Prog.onError
    (do
      let ino ← sfsBlockAlloc
      Prog.onError (sfsWbuf .entry (Bytes.ofNat ino) 4 ent offset) (sfsBlockFree ino)
      return (ent, ino))
    (Prog.when (ent ≠ entp) (sfsBlockFree ent))

/--
Returns the new value of `*entp` together with the block.
-/
def sfsBmapGetSubNolock (entp index : Nat) (create : Bool)
    : Prog Errno Panic SfsFs (Nat × Nat) := do
  Prog.assert (index < sfsBlkNentry) .sfsBmapGetSub
  let offset := index * 4
  if entp ≠ 0 then
    let ino ← sfsRbuf .entry 4 entp offset
    if ino.toNat 4 ≠ 0 ∨ !create then
      return (entp, ino.toNat 4)
    else
      allocEntry entp entp offset
  else if !create then
    return (entp, 0)
  else
    let ent ← sfsBlockAlloc
    allocEntry entp ent offset

def sfsBmapFreeSubNolock (ent index : Nat) : Prog Errno Panic SfsFs Unit := do
  assertInuse ent .sfsBmapFreeSub
  Prog.assert (index < sfsBlkNentry) .sfsBmapFreeSub
  let offset := index * 4
  let ino ← sfsRbuf .entry 4 ent offset
  Prog.when (ino.toNat 4 ≠ 0) do
    sfsWbuf .entry (Bytes.ofNat 0) 4 ent offset
    sfsBlockFree (ino.toNat 4)

end SfsFs

namespace SfsCtx

def onSfs {α : Type} (m : Prog Errno Panic SfsFs α) : Prog Errno Panic SfsCtx α :=
  Prog.zoom (fun s => s.sfs) (fun s sfs => { s with sfs }) m

def setDin (s : SfsCtx) (din : SfsDiskInode) : SfsCtx :=
  { s with sin := { s.sin with din } }

def setDirty (s : SfsCtx) (dirty : Bool) : SfsCtx :=
  { s with sin := { s.sin with dirty } }

/--
The assertion at the end of `sfs_bmap_get_nolock`.
-/
def checkBlock (ino : Nat) : Prog Errno Panic SfsCtx Unit :=
  Prog.when (ino ≠ 0) (onSfs (SfsFs.assertInuse ino .sfsBmapGetInuse))

def sfsBmapGetNolock (index : Nat) (create : Bool) : Prog Errno Panic SfsCtx Nat := do
  let s ← Prog.get
  let din := s.sin.din
  if h : index < sfsNdirect then
    if din.direct ⟨index, h⟩ = 0 ∧ create then
      let ino ← onSfs SfsFs.sfsBlockAlloc
      Prog.modify fun s => (s.setDin (s.sin.din.setDirect ⟨index, h⟩ ino)).setDirty true
      checkBlock ino
      return ino
    else
      checkBlock (din.direct ⟨index, h⟩)
      return din.direct ⟨index, h⟩
  else if index - sfsNdirect < sfsBlkNentry then
    let (ent, ino) ← onSfs (SfsFs.sfsBmapGetSubNolock din.indirect (index - sfsNdirect) create)
    Prog.when (ent ≠ din.indirect) do
      Prog.assert (din.indirect = 0) .sfsBmapGetIndirect
      Prog.modify fun s => (s.setDin (s.sin.din.setIndirect ent)).setDirty true
    checkBlock ino
    return ino
  else
    Prog.panic .sfsBmapGetOutOfRange

def sfsBmapFreeNolock (index : Nat) : Prog Errno Panic SfsCtx Unit := do
  let s ← Prog.get
  let din := s.sin.din
  if h : index < sfsNdirect then
    Prog.when (din.direct ⟨index, h⟩ ≠ 0) do
      onSfs (SfsFs.sfsBlockFree (din.direct ⟨index, h⟩))
      Prog.modify fun s => (s.setDin (s.sin.din.setDirect ⟨index, h⟩ 0)).setDirty true
  else
    Prog.when (index - sfsNdirect < sfsBlkNentry ∧ din.indirect ≠ 0)
      (onSfs (SfsFs.sfsBmapFreeSubNolock din.indirect (index - sfsNdirect)))

def sfsBmapLoadNolock (index : Nat) : Prog Errno Panic SfsCtx Nat := do
  let s ← Prog.get
  Prog.assert (index ≤ s.sin.din.blocks) .sfsBmapLoadIndex
  let create := decide (index = s.sin.din.blocks)
  let ino ← sfsBmapGetNolock index create
  onSfs (SfsFs.assertInuse ino .sfsBmapLoadInuse)
  Prog.when create (Prog.modify fun s => s.setDin (s.sin.din.setBlocks (s.sin.din.blocks + 1)))
  return ino

def sfsBmapTruncateNolock : Prog Errno Panic SfsCtx Unit := do
  let s ← Prog.get
  Prog.assert (s.sin.din.blocks ≠ 0) .sfsBmapTruncate
  sfsBmapFreeNolock (s.sin.din.blocks - 1)
  Prog.modify fun s => (s.setDin (s.sin.din.setBlocks (s.sin.din.blocks - 1))).setDirty true

end SfsCtx

/--
What `sfs_io_nolock` works on: the file system, the inode, the buffer, and the length `alen`
transferred so far, which is also how far the pointer `buf` has moved.
-/
structure SfsIo where
  sfs : SfsFs
  sin : SfsInode
  buf : Bytes
  alen : Nat

namespace SfsIo

def onCtx {α : Type} (m : Prog Errno Panic SfsCtx α) : Prog Errno Panic SfsIo α :=
  Prog.zoom (fun s => ⟨s.sfs, s.sin⟩) (fun s t => { s with sfs := t.sfs, sin := t.sin }) m

def onTransfer {α : Type} (m : Prog Errno Panic Transfer α) : Prog Errno Panic SfsIo α :=
  Prog.zoom (fun s => ⟨s.sfs, s.buf⟩) (fun s t => { s with sfs := t.sfs, buf := t.buf }) m

/--
`sfs_buf_op` at the pointer `buf`.
-/
def sfsBufOp (write : Bool) (size ino blkoff : Nat) : Prog Errno Panic SfsIo Unit := do
  let s ← Prog.get
  if write then
    onCtx (SfsCtx.onSfs (SfsFs.sfsWbuf .data (s.buf.drop s.alen) size ino blkoff))
  else
    let b ← onCtx (SfsCtx.onSfs (SfsFs.sfsRbuf .data size ino blkoff))
    Prog.modify fun s => { s with buf := s.buf.copy s.alen b size }

/--
The first and the last phase of `sfs_io_nolock`: `size` bytes inside block `blkno` of the file.
-/
def partialBlock (write : Bool) (blkno size blkoff : Nat) : Prog Errno Panic SfsIo Unit := do
  let ino ← onCtx (SfsCtx.sfsBmapLoadNolock blkno)
  sfsBufOp write size ino blkoff
  Prog.modify fun s => { s with alen := s.alen + size }

/--
The second phase: `nblks` whole blocks, of which only the first is looked up in the block map.
-/
def wholeBlocks (write : Bool) (blkno nblks : Nat) : Prog Errno Panic SfsIo Unit := do
  let ino ← onCtx (SfsCtx.sfsBmapLoadNolock blkno)
  let s ← Prog.get
  onTransfer (Transfer.sfsRwblock .data write s.alen ino nblks)
  Prog.modify fun s => { s with alen := s.alen + nblks * sfsBlksize }

/--
The second and the third phase.
-/
def alignedPart (write : Bool) (endpos blkno nblks : Nat) : Prog Errno Panic SfsIo Unit := do
  Prog.when (nblks > 0) (wholeBlocks write blkno nblks)
  Prog.when (endpos % sfsBlksize ≠ 0)
    (partialBlock write (blkno + nblks) (endpos % sfsBlksize) 0)

/--
The three phases of `sfs_io_nolock`.
-/
def phases (write : Bool) (offset endpos : Nat) : Prog Errno Panic SfsIo Unit :=
  let blkno := offset / sfsBlksize
  let nblks := endpos / sfsBlksize - blkno
  let blkoff := offset % sfsBlksize
  if blkoff ≠ 0 then do
    partialBlock write blkno (if nblks ≠ 0 then sfsBlksize - blkoff else endpos - offset) blkoff
    Prog.when (nblks ≠ 0) (alignedPart write endpos (blkno + 1) (nblks - 1))
  else
    alignedPart write endpos blkno nblks

end SfsIo

/--
What `sfs_io_nolock` hands back besides the file system and the inode: the return value, `*alenp` and
the buffer.
-/
structure IoResult where
  ret : Option Errno
  alen : Nat
  buf : Bytes

namespace SfsCtx

/--
The sum of an `off_t` and a `size_t`, stored in an `off_t`.
-/
def ioEndpos (offset : Int) (len : Nat) : Int := (offset + len).bmod (2 ^ 64)

/--
The statements of `sfs_io_nolock` behind `out`.
-/
def ioFinish (offset : Nat) (s : SfsIo) (ret : Option Errno) : Outcome Errno Panic SfsCtx IoResult :=
  let result := { ret, alen := s.alen, buf := s.buf }
  let s' : SfsCtx := ⟨s.sfs, s.sin⟩
  if offset + s.alen > s.sin.din.size then
    .ok result ((s'.setDin (s.sin.din.setSize (offset + s.alen))).setDirty true)
  else
    .ok result s'

/--
The part of `sfs_io_nolock` behind the checks of its arguments.
-/
def ioTransfer (write : Bool) (buf : Bytes) (offset endpos : Nat)
    : Prog Errno Panic SfsCtx IoResult := fun s =>
  match SfsIo.phases write offset endpos { sfs := s.sfs, sin := s.sin, buf := buf, alen := 0 } with
  | .ok _ s' => ioFinish offset s' none
  | .error e s' => ioFinish offset s' (some e)
  | .panic p => .panic p

def sfsIoNolock (buf : Bytes) (offset : Int) (len : Nat) (write : Bool)
    : Prog Errno Panic SfsCtx IoResult := do
  let s ← Prog.get
  let din := s.sin.din
  Prog.assert (din.type ≠ sfsTypeDir) .sfsIoType
  let endpos := ioEndpos offset len
  if offset < 0 ∨ offset ≥ sfsMaxFileSize ∨ offset > endpos then
    return { ret := some .inval, alen := 0, buf := buf }
  else if offset = endpos then
    return { ret := none, alen := 0, buf := buf }
  else
    let endpos := min endpos sfsMaxFileSize
    if write then
      ioTransfer write buf offset.toNat endpos.toNat
    else if offset ≥ din.size then
      return { ret := none, alen := 0, buf := buf }
    else
      ioTransfer write buf offset.toNat (min endpos din.size).toNat

def sfsFsync : Prog Errno Panic SfsCtx Unit := do
  let s ← Prog.get
  Prog.when s.sin.dirty do
    Prog.modify fun s => s.setDirty false
    Prog.onError
      (onSfs (SfsFs.sfsWbuf .inode s.sin.din.toBytes SfsDiskInode.byteSize s.sin.ino 0))
      (Prog.modify fun s => s.setDirty true)

/--
The loop of `sfs_truncfile` that adds `n` blocks.
-/
def growLoop (nblks : Nat) : Nat → Prog Errno Panic SfsCtx Unit
  | 0 => pure ()
  | n + 1 => do
    let _ ← sfsBmapLoadNolock nblks
    growLoop (nblks + 1) n

/--
The loop of `sfs_truncfile` that removes `n` blocks.
-/
def shrinkLoop : Nat → Prog Errno Panic SfsCtx Unit
  | 0 => pure ()
  | n + 1 => do
    sfsBmapTruncateNolock
    shrinkLoop n

/--
The number of blocks of a file of `len` bytes.
-/
def nblksOf (len : Nat) : Nat := (len + (sfsBlksize - 1)) / sfsBlksize

def sfsTruncfile (len : Int) : Prog Errno Panic SfsCtx Unit := do
  let s ← Prog.get
  if len < 0 ∨ len > sfsMaxFileSize then
    Prog.throw .inval
  else
    let tblks := nblksOf len.toNat
    if s.sin.din.size = len then
      Prog.assert (tblks = s.sin.din.blocks) .sfsTruncfileSame
    else
      let nblks := s.sin.din.blocks
      if nblks < tblks then
        growLoop nblks (tblks - nblks)
      else
        shrinkLoop (nblks - tblks)
      let s ← Prog.get
      Prog.assert (s.sin.din.blocks = tblks) .sfsTruncfileBlocks
      Prog.modify fun s => (s.setDin (s.sin.din.setSize len.toNat)).setDirty true

def sfsTryseek (pos : Int) : Prog Errno Panic SfsCtx Unit := do
  let s ← Prog.get
  if pos < 0 ∨ pos ≥ sfsMaxFileSize then
    Prog.throw .inval
  else
    Prog.when (pos > s.sin.din.size) (sfsTruncfile pos)

end SfsCtx

end Ucore

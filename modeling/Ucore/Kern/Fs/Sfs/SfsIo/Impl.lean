import Ucore.Kern.Fs.Sfs.Sfs

/-!
This module contains the transfer of blocks between memory and the device (kern/fs/sfs/sfs_io.c and
`disk0_io` of kern/fs/devs/dev_disk0.c).

Each transfer is a request to the environment and carries the kind of that request. A request that
fails leaves the device as it is.
-/

namespace Ucore

/--
A file system together with the buffer of a transfer.
-/
structure Transfer where
  sfs : SfsFs
  buf : Bytes

namespace SfsFs

/--
The file system after `c k` requests of each kind `k`.
-/
def requested (sfs : SfsFs) (c : Request → Nat) : SfsFs :=
  { sfs with env := sfs.env.drop c }

def setBlock (sfs : SfsFs) (blkno : Nat) (b : Bytes) : SfsFs :=
  { sfs with dev := { sfs.dev with data := Function.update sfs.dev.data blkno b } }

def request (req : Request) : Prog Errno Panic SfsFs Unit := fun sfs =>
  match sfs.env req 0 with
  | none => .ok () (sfs.requested (Faults.cost req 1))
  | some e => .error e (sfs.requested (Faults.cost req 1))

/--
The block in which the transfer of block `blkno` starts: its byte offset is a `uint32_t`.
-/
def diskBlkno (blkno : Nat) : Nat := blkno * sfsBlksize % 2 ^ 32 / sfsBlksize

/--
`disk0_io` for one block that is read.
-/
def disk0Read (req : Request) (blkno : Nat) : Prog Errno Panic SfsFs Bytes := do
  SfsFs.request req
  let sfs ← Prog.get
  if diskBlkno blkno + 1 > sfs.dev.dBlocks then
    Prog.throw .inval
  else
    return sfs.dev.data (diskBlkno blkno)

/--
`disk0_io` for one block that is written.
-/
def disk0Write (req : Request) (blkno : Nat) (b : Bytes) : Prog Errno Panic SfsFs Unit := do
  SfsFs.request req
  let sfs ← Prog.get
  if diskBlkno blkno + 1 > sfs.dev.dBlocks then
    Prog.throw .inval
  else
    Prog.modify fun sfs =>
      sfs.setBlock (diskBlkno blkno) ((sfs.dev.data (diskBlkno blkno)).copy 0 b sfsBlksize)

/--
`sfs_rwblock_nolock` that reads, with `check` set.
-/
def sfsRblockNolock (req : Request) (blkno : Nat) : Prog Errno Panic SfsFs Bytes := do
  let sfs ← Prog.get
  Prog.assert (blkno ≠ 0 ∧ blkno < sfs.super.blocks) .sfsRwblock
  disk0Read req blkno

/--
`sfs_rwblock_nolock` that writes, with `check` set.
-/
def sfsWblockNolock (req : Request) (blkno : Nat) (b : Bytes) : Prog Errno Panic SfsFs Unit := do
  let sfs ← Prog.get
  Prog.assert (blkno ≠ 0 ∧ blkno < sfs.super.blocks) .sfsRwblock
  disk0Write req blkno b

/--
The first `len` bytes of the result are those that `sfs_rbuf` copies to its buffer.
-/
def sfsRbuf (req : Request) (len blkno offset : Nat) : Prog Errno Panic SfsFs Bytes := do
  Prog.assert (offset < sfsBlksize ∧ offset + len ≤ sfsBlksize) .sfsRbuf
  let b ← sfsRblockNolock req blkno
  return b.drop offset

def sfsWbuf (req : Request) (buf : Bytes) (len blkno offset : Nat)
    : Prog Errno Panic SfsFs Unit := do
  Prog.assert (offset < sfsBlksize ∧ offset + len ≤ sfsBlksize) .sfsWbuf
  let b ← sfsRblockNolock req blkno
  sfsWblockNolock req blkno (b.copy offset buf len)

/--
`sfs_clear_block` for one block, the only number its caller passes.
-/
def sfsClearBlock (blkno : Nat) : Prog Errno Panic SfsFs Unit :=
  sfsWblockNolock .clear blkno Bytes.zero

end SfsFs

namespace Transfer

def onSfs {α : Type} (m : Prog Errno Panic SfsFs α) : Prog Errno Panic Transfer α :=
  Prog.zoom (fun t => t.sfs) (fun t sfs => { t with sfs }) m

/--
Transfer the blocks from `blkno` on to or from the address `pos` of the buffer.
-/
def sfsRwblock (req : Request) (write : Bool) (pos blkno : Nat)
    : Nat → Prog Errno Panic Transfer Unit
  | 0 => pure ()
  | nblks + 1 => do
    if write then
      let t ← Prog.get
      onSfs (SfsFs.sfsWblockNolock req blkno (t.buf.drop pos))
    else
      let b ← onSfs (SfsFs.sfsRblockNolock req blkno)
      Prog.modify fun t => { t with buf := t.buf.copy pos b sfsBlksize }
    sfsRwblock req write (pos + sfsBlksize) (blkno + 1) nblks

end Transfer

end Ucore

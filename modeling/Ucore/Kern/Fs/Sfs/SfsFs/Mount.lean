import Ucore.Kern.Fs.Sfs.Bitmap.Create
import Ucore.Kern.Fs.Sfs.SfsFs.Sync
import Ucore.Lib.Run

/-!
This module contains `sfs_do_mount` of kern/fs/sfs/sfs_fs.c and the calls of the allocator of a mounted file system.
-/

namespace Ucore

open Faults (cost)

def SfsSuper.freemapBits (super : SfsSuper) : Nat :=
  (super.blocks + (sfsBlkbits - 1)) / sfsBlkbits * sfsBlkbits % 2 ^ 32

/--
The bitmap with other contents of its memory.
-/
def Bitmap.setData (bitmap : Bitmap) (data : Bytes) : Bitmap :=
  { bitmap with map := fun ix => BitVec.ofNat 32 (data.word ix) }

/--
What a mount works with: the memory, which of the coming requests to the device fail, and what `*fs_store` is.
-/
structure Mounting where
  mem : Kmem
  env : Faults Request Errno
  fsStore : Option SfsFs

namespace Mounting

def onMem {α : Type} (m : Prog Errno Panic Kmem α) : Prog Errno Panic Mounting α :=
  Prog.zoom (fun s => s.mem) (fun s mem => { s with mem }) m

/--
What follows an allocation. An error frees the memory, behind the label `failed_cleanup` of the chunk.
-/
def withChunk (c : Chunk) (m : Prog Errno Panic Mounting Unit) : Prog Errno Panic Mounting Unit := do
  if ← onMem (Kmem.kmalloc c) then
    Prog.onError m (onMem (Kmem.kfree c))
  else
    Prog.throw .noMem

/--
`dop_io` of one block that is read.
-/
def sfsInitRead (dev : Device) (req : Request) (blkno : Nat) : Prog Errno Panic Mounting Bytes := fun s =>
  let t := { s with env := s.env.drop (cost req 1) }
  match s.env req 0 with
  | some e => .error e t
  | none =>
    if SfsFs.diskBlkno blkno + 1 > dev.dBlocks then
      .error .inval t
    else
      .ok (dev.data (SfsFs.diskBlkno blkno)) t

/--
The loop of `sfs_init_freemap` that reads to the address `pos` of `data`.
-/
def readFreemap (dev : Device) : Nat → Nat → Nat → Bytes → Prog Errno Panic Mounting Bytes
  | 0, _, _, data => return data
  | nblks + 1, blkno, pos, data => do
    let b ← sfsInitRead dev .freemap blkno
    readFreemap dev nblks (blkno + 1) (pos + sfsBlksize) (data.copy pos b sfsBlksize)

def sfsInitFreemap (dev : Device) (freemap : Bitmap) (blkno nblks : Nat) : Prog Errno Panic Mounting Bitmap := do
  Prog.assert (4 * freemap.nwords = nblks * sfsBlksize % 2 ^ 32) .sfsInitFreemap
  let data ← readFreemap dev nblks blkno 0 freemap.bitmapGetdata
  return freemap.setData data

/--
The loop over the bits of the freemap from bit `i` on.
-/
def countUnused (freemap : Bitmap) : Nat → Nat → Nat → Prog Errno Panic Mounting Nat
  | 0, _, unusedBlocks => return unusedBlocks
  | n + 1, i, unusedBlocks => do
    let test ← Prog.zoom (fun _ => freemap) (fun s _ => s) (Bitmap.bitmapTest i)
    countUnused freemap n (i + 1) (if test then unusedBlocks + 1 else unusedBlocks)

/--
The part of `sfs_do_mount` behind the allocation of the hash list, with `freemap_size_nbits` and `freemap_size_nblks`.
-/
def mountFreemap (dev : Device) (super : SfsSuper) (nbits nblks : Nat) : Prog Errno Panic Mounting Unit := do
  match ← onMem (Bitmap.bitmapCreate nbits) with
  | none => Prog.throw .noMem
  | some freemap =>
    let freemap ← Prog.onError (sfsInitFreemap dev freemap sfsBlknFreemap nblks) (onMem Bitmap.bitmapDestroy)
    let unusedBlocks ← countUnused freemap nbits 0 0
    Prog.assert (unusedBlocks = super.unusedBlocks) .sfsDoMount
    Prog.modify fun s => { s with fsStore := some { super, dev, freemap, superDirty := false, env := s.env } }

/--
The part of `sfs_do_mount` behind the allocation of the buffer. The text of the superblock gets its `NUL`.
-/
def mountSuper (dev : Device) : Prog Errno Panic Mounting Unit := do
  let b ← sfsInitRead dev .super sfsBlknSuper
  let super := SfsSuper.ofBytes b
  if super.magic ≠ sfsMagic then
    Prog.throw .inval
  else if super.blocks > dev.dBlocks then
    Prog.throw .inval
  else
    let super := { super with info := Function.update super.info sfsMaxInfoLen 0 }
    withChunk .hashList (mountFreemap dev super super.freemapBits super.freemapBlocks)

def sfsDoMount (dBlocksize : Nat) (dev : Device) : Prog Errno Panic Mounting Unit := do
  if dBlocksize ≠ sfsBlksize then
    Prog.throw .naDev
  else
    withChunk .fs (withChunk .sfsBuffer (mountSuper dev))

end Mounting

/--
A block that is neither the superblock nor the root directory nor a block of the freemap.
-/
def SfsSuper.DataBlock (super : SfsSuper) (b : Nat) : Prop :=
  sfsBlknFreemap + super.freemapBlocks ≤ b ∧ b < super.blocks

/--
A mounted file system and the blocks that are handed out.
-/
structure AllocRun where
  sfs : SfsFs
  allocated : List Nat

inductive AllocCall where
  | sfsBlockAlloc
  | sfsBlockFree (ino : Nat)

namespace AllocRun

def step (r : AllocRun) : AllocCall → Option AllocRun
  | .sfsBlockAlloc =>
    match SfsFs.sfsBlockAlloc r.sfs with
    | .ok ino sfs => some ⟨sfs, ino :: r.allocated⟩
    | .error _ sfs => some ⟨sfs, r.allocated⟩
    | .panic _ => none
  | .sfsBlockFree ino => (SfsFs.sfsBlockFree ino r.sfs).state.map fun sfs => ⟨sfs, r.allocated.erase ino⟩

/--
Only what is handed out is freed.
-/
def Legal (r : AllocRun) : AllocCall → Prop
  | .sfsBlockAlloc => True
  | .sfsBlockFree ino => ino ∈ r.allocated

end AllocRun

/--
No call of the allocator panics, and it hands out data blocks only, whatever requests to the device fail.
-/
def SfsFs.AllocatorSafe (sfs : SfsFs) : Prop :=
  ∀ env calls, Run.Admits AllocRun.step AllocRun.Legal ⟨{ sfs with env }, []⟩ calls →
    ∃ r, Run.exec AllocRun.step ⟨{ sfs with env }, []⟩ calls = some r ∧
      ∀ b ∈ r.allocated, sfs.super.DataBlock b

namespace Mounting

variable (dBlocksize : Nat) (dev : Device) (s : Mounting)

/--
A mount either gives a file system whose count and allocator are right, or nothing stays behind.
-/
def Mounts : Prop :=
  (sfsDoMount dBlocksize dev s).Sat
    (fun _ t => ∃ sfs, t.fsStore = some sfs ∧
      sfs.super.unusedBlocks = ((List.range sfs.super.blocks).filter sfs.freemap.bit).length ∧ sfs.AllocatorSafe)
    (fun _ t => t.mem.live = s.mem.live ∧ t.fsStore = s.fsStore)
    (fun _ => False)

def diskSuper : SfsSuper := SfsSuper.ofBytes (dev.data sfsBlknSuper)

/--
The freemap on the disk.
-/
def diskFreemap : Bitmap where
  nbits := (diskSuper dev).freemapBits
  nwords := (diskSuper dev).freemapBits / wordBits
  map := fun ix =>
    BitVec.ofNat 32 (Bytes.word (fun i => dev.data (sfsBlknFreemap + i / sfsBlksize) (i % sfsBlksize)) ix)

/--
The mount gets as far as the freemap.
-/
structure FindsSuper : Prop where
  blocksize : dBlocksize = sfsBlksize
  mem : s.mem.refuses 0 = false ∧ s.mem.refuses 1 = false ∧ s.mem.refuses 2 = false
  read : s.env .super 0 = none ∧ 0 < dev.dBlocks
  magic : (diskSuper dev).magic = sfsMagic
  blocks_le : (diskSuper dev).blocks ≤ dev.dBlocks

/--
The mount reads the freemap.
-/
structure FindsFreemap : Prop extends FindsSuper dBlocksize dev s where
  memFreemap : s.mem.refuses 3 = false ∧ s.mem.refuses 4 = false
  readFreemap : ∀ i < (diskSuper dev).freemapBlocks, s.env .freemap i = none ∧ sfsBlknFreemap + i < dev.dBlocks

/--
The number of blocks is one that the freemap can have.
-/
def Countable (super : SfsSuper) : Prop := 0 < super.blocks ∧ super.blocks ≤ 2 ^ 32 - sfsBlkbits

/--
The freemap on the disk has as many free blocks as the superblock says, and they are data blocks.
-/
def Consistent : Prop :=
  (diskFreemap dev).free.length = (diskSuper dev).unusedBlocks ∧
    ∀ b ∈ (diskFreemap dev).free, (diskSuper dev).DataBlock b

end Mounting
end Ucore

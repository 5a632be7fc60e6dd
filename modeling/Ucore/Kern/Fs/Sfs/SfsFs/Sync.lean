import Ucore.Kern.Fs.Sfs.SfsIo.Lemmas
import Ucore.Kern.Fs.Sfs.SfsNamefile.Impl
import Ucore.Kern.Fs.Vfs.Impl

/-!
This module contains `sfs_sync` and `sfs_unmount` of kern/fs/sfs/sfs_fs.c with the writes of the superblock and the
freemap, and `vfs_unmount` of kern/fs/vfs/vfsdev.c. They run on their own: the locks of the source are left out.
-/

namespace Ucore

namespace Bitmap

/--
The memory of the bitmap.
-/
def bitmapGetdata (bitmap : Bitmap) : Bytes := Bytes.ofWords fun ix => (bitmap.map ix).toNat

end Bitmap

def SfsSuper.freemapBlocks (super : SfsSuper) : Nat := (super.blocks + (sfsBlkbits - 1)) / sfsBlkbits

namespace SfsFs

/--
The only `sfs_rwblock_nolock` with `check` not set.
-/
def sfsSyncSuper : Prog Errno Panic SfsFs Unit := do
  let sfs ← Prog.get
  Prog.assert (sfsBlknSuper < sfs.super.blocks) .sfsRwblock
  disk0Write .super sfsBlknSuper (Bytes.zero.copy 0 sfs.super.toBytes SfsSuper.byteSize)

def sfsSyncFreemap : Prog Errno Panic SfsFs Unit := do
  let sfs ← Prog.get
  Prog.zoom (fun sfs => ⟨sfs, sfs.freemap.bitmapGetdata⟩) (fun _ t => t.sfs)
    (Transfer.sfsRwblock .freemap true 0 sfsBlknFreemap sfs.super.freemapBlocks)

end SfsFs

namespace SfsMount

def setSuperDirty (s : SfsMount) (superDirty : Bool) : SfsMount := { s with sfs := { s.sfs with superDirty } }

/--
The loop of `sfs_sync` over `inode_list`, which does not look at the results of `vop_fsync`.
-/
def syncInodes : List Nat → Prog Errno Panic SfsMount Unit
  | [] => pure ()
  | node :: list => do
    let _ ← Prog.attempt (onNode node SfsCtx.sfsFsync)
    syncInodes list

/--
The part of `sfs_sync` behind the loop.
-/
def syncSuper : Prog Errno Panic SfsMount Unit := do
  let s ← Prog.get
  Prog.when s.sfs.superDirty do
    Prog.modify fun s => s.setSuperDirty false
    Prog.onError (onSfs SfsFs.sfsSyncSuper) (Prog.modify fun s => s.setSuperDirty true)
    Prog.onError (onSfs SfsFs.sfsSyncFreemap) (Prog.modify fun s => s.setSuperDirty true)

def sfsSync (list : List Nat) : Prog Errno Panic SfsMount Unit := do
  syncInodes list
  syncSuper

/--
The memory of the file system is freed at the end.
-/
def sfsUnmount (list : List Nat) : Prog Errno Panic SfsMount Unit := do
  if list ≠ [] then
    Prog.throw .busy
  else
    let s ← Prog.get
    Prog.assert (s.sfs.superDirty = false) .sfsUnmount

def findMount (devs : List VfsDev) (devname : List Char) : Option VfsDev :=
  devs.find? fun vdev => vdev.mountable ∧ vdev.devname = devname

/--
`vfs_unmount` with the entry of the device as it is afterwards.
-/
def vfsUnmount (devs : List VfsDev) (devname : List Char) (list : List Nat) : Prog Errno Panic SfsMount VfsDev := do
  match findMount devs devname with
  | none => Prog.throw .noDev
  | some vdev =>
    if vdev.fs = none then
      Prog.throw .inval
    else
      sfsSync list
      sfsUnmount list
      return { vdev with fs := none }

/--
The inode is on the disk.
-/
def InodeSaved (s : SfsMount) (sin : SfsInode) : Prop :=
  ∀ i < SfsDiskInode.byteSize, s.sfs.dev.data sin.ino i = sin.din.toBytes i

def SuperSaved (s : SfsMount) : Prop :=
  ∀ i < SfsSuper.byteSize, s.sfs.dev.data sfsBlknSuper i = s.sfs.super.toBytes i

def FreemapSaved (s : SfsMount) : Prop :=
  ∀ k < s.sfs.super.freemapBlocks, ∀ i < sfsBlksize,
    s.sfs.dev.data (sfsBlknFreemap + k) i = s.sfs.freemap.bitmapGetdata (k * sfsBlksize + i)

/--
Everything in memory is on the disk.
-/
structure Saved (s : SfsMount) : Prop where
  super : s.SuperSaved
  freemap : s.FreemapSaved
  inode : ∀ node n, s.inodes node = some n → s.InodeSaved n.sin

/--
What is not marked as dirty is on the disk.
-/
structure Flagged (s : SfsMount) : Prop where
  super : s.sfs.superDirty = false → s.SuperSaved ∧ s.FreemapSaved
  inode : ∀ node n, s.inodes node = some n → n.sin.dirty = false → s.InodeSaved n.sin

/--
The values in memory are the same.
-/
structure SameMemory (s t : SfsMount) : Prop where
  super : t.sfs.super = s.sfs.super
  freemap : t.sfs.freemap = s.sfs.freemap
  inode : ∀ node, (t.inodes node).map (fun n => n.sin.din) = (s.inodes node).map fun n => n.sin.din

def dirtyInode (s : SfsMount) (node : Nat) : Bool := (s.inodes node).any fun n => n.sin.dirty

/--
The flag of an inode behind its `sfs_fsync`, and the requests to come. An inode is read and then written.
-/
def fsyncFlag (dirty : Bool) (env : Nat → Option Errno) : Bool × (Nat → Option Errno) :=
  if dirty then
    if env 0 ≠ none then
      (true, fun i => env (1 + i))
    else
      (env 1 ≠ none, fun i => env (2 + i))
  else
    (false, env)

/--
The inodes whose write fails.
-/
def failedInodes (dirty : Nat → Bool) : (Nat → Option Errno) → List Nat → List Nat
  | _, [] => []
  | env, node :: list =>
    let r := fsyncFlag (dirty node) env
    if r.1 then node :: failedInodes dirty r.2 list else failedInodes dirty r.2 list

/--
The inodes of the list whose write fails.
-/
def lost (list : List Nat) (s : SfsMount) : List Nat := failedInodes s.dirtyInode (s.sfs.env .inode) list

/--
The write of the superblock or of the freemap fails.
-/
def SuperFails (s : SfsMount) : Prop :=
  s.sfs.superDirty = true ∧
    ¬s.sfs.env.Answers (Faults.cost .super 1 + Faults.cost .freemap s.sfs.super.freemapBlocks)

/--
`sfs_sync` returns 0 only when everything is on the disk and no write has failed. When it returns an error, everything
that is not on the disk is marked as dirty, and whatever could not be written.
-/
def Truthful (list : List Nat) (s : SfsMount) : Prop :=
  (sfsSync list s).Sat
    (fun _ t => s.SameMemory t ∧ t.Saved ∧ s.lost list = [] ∧ ¬s.SuperFails)
    (fun _ t => s.SameMemory t ∧ t.Flagged ∧ (∀ node ∈ s.lost list, t.dirtyInode node = true) ∧
      (s.SuperFails → t.sfs.superDirty = true))
    (fun _ => False)

/--
`vfs_unmount` frees the memory only when everything is on the disk.
-/
def UnmountSafe (devs : List VfsDev) (devname : List Char) (list : List Nat) (s : SfsMount) : Prop :=
  (vfsUnmount devs devname list s).Sat
    (fun _ t => s.SameMemory t ∧ t.Saved)
    (fun _ t => s.SameMemory t ∧ t.Flagged)
    (fun _ => False)

/--
The list of a mounted file system has the inodes in memory, whose blocks are those of the volume behind the superblock
and outside the freemap.
-/
structure Listed (list : List Nat) (s : SfsMount) : Prop where
  ok : s.sfs.Ok
  freemap_le : sfsBlknFreemap + s.sfs.super.freemapBlocks ≤ s.sfs.super.blocks
  nodup : list.Nodup
  mem : ∀ node, node ∈ list ↔ (s.inodes node).isSome = true
  ino : ∀ node n, s.inodes node = some n → n.sin.ino = node
  valid : ∀ node ∈ list, s.sfs.vol.Valid node
  outside : ∀ node ∈ list, node < sfsBlknFreemap ∨ sfsBlknFreemap + s.sfs.super.freemapBlocks ≤ node

end SfsMount
end Ucore

import Ucore.Lib.LockProg

/-!
This module contains what the functions of the file system do to its locks (kern/fs/sfs/sfs_inode.c,
kern/fs/sfs/sfs_fs.c, kern/fs/sfs/sfs_io.c and `disk0_io` of kern/fs/devs/dev_disk0.c). The conditions of the source
on data are answers from outside, so are the numbers of rounds of its loops. A result says whether `ret` is zero.
-/

namespace Ucore

/--
`sin node` is the semaphore of the inode at an address.
-/
inductive SfsLock where
  | fs
  | sin (node : Nat)
  | io
  | disk0
  deriving DecidableEq

namespace SfsLock

open LockProg

/--
The transfer between the two calls takes no lock.
-/
def disk0Io : LockProg SfsLock Bool := do
  let unaligned ← test
  let pastEnd ← test
  let nothing ← test
  if unaligned ∨ pastEnd then
    return false
  else if nothing then
    return true
  else
    lock disk0
    unlock disk0
    return true

def sfsRwblockNolock : LockProg SfsLock Bool := disk0Io

/--
The blocks up to the first one that fails.
-/
def sfsRwblock : LockProg SfsLock Bool := do
  lock io
  let nblks ← count
  let ok ← rounds sfsRwblockNolock nblks
  unlock io
  return ok

def sfsRbuf : LockProg SfsLock Bool := do
  lock io
  let ok ← sfsRwblockNolock
  unlock io
  return ok

def sfsWbuf : LockProg SfsLock Bool := do
  lock io
  let ok ← sfsRwblockNolock.andThen sfsRwblockNolock
  unlock io
  return ok

def sfsSyncSuper : LockProg SfsLock Bool := do
  lock io
  let ok ← sfsRwblockNolock
  unlock io
  return ok

def sfsSyncFreemap : LockProg SfsLock Bool := sfsRwblock

def sfsClearBlock : LockProg SfsLock Bool := do
  lock io
  let nblks ← count
  let ok ← rounds sfsRwblockNolock nblks
  unlock io
  return ok

def sfsBlockAlloc : LockProg SfsLock Bool := do
  let found ← test
  if found then sfsClearBlock else return false

/--
The part of `sfs_bmap_get_sub_nolock` from the allocation of the block on, `sfs_block_free` takes no lock.
-/
def allocEntry : LockProg SfsLock Bool := sfsBlockAlloc.andThen sfsWbuf

def sfsBmapGetSubNolock (create : Bool) : LockProg SfsLock Bool := do
  let entp ← test
  if entp then
    sfsRbuf.andThen do
      let ino ← test
      if ino ∨ !create then return true else allocEntry
  else if !create then
    return true
  else
    sfsBlockAlloc.andThen allocEntry

def sfsBmapGetNolock (create : Bool) : LockProg SfsLock Bool := do
  let direct ← test
  if direct then
    let ino ← test
    if !ino ∧ create then sfsBlockAlloc else return true
  else
    sfsBmapGetSubNolock create

def sfsBmapFreeSubNolock : LockProg SfsLock Bool :=
  sfsRbuf.andThen do
    let ino ← test
    if ino then sfsWbuf else return true

def sfsBmapFreeNolock : LockProg SfsLock Bool := do
  let indirect ← test
  if indirect then sfsBmapFreeSubNolock else return true

def sfsBmapLoadNolock : LockProg SfsLock Bool := do
  let create ← test
  sfsBmapGetNolock create

def sfsBmapTruncateNolock : LockProg SfsLock Bool := sfsBmapFreeNolock

def sfsDirentReadNolock : LockProg SfsLock Bool := sfsBmapLoadNolock.andThen sfsRbuf

/--
The loop of the functions that look for an entry of a directory.
-/
def direntLoop : Nat → LockProg SfsLock Bool
  | 0 => return false
  | nslots + 1 =>
    sfsDirentReadNolock.andThen do
      let found ← test
      if found then return true else direntLoop nslots

def sfsDirentSearchNolock : LockProg SfsLock Bool := do
  let noMem ← test
  let nslots ← count
  if noMem then return false else direntLoop nslots

def sfsGetdirentrySubNolock : LockProg SfsLock Bool := do
  let nslots ← count
  direntLoop nslots

def sfsLoadInode : LockProg SfsLock Bool := do
  lock fs
  let cached ← test
  let noMem ← test
  if cached then
    unlock fs
    return true
  else if noMem then
    unlock fs
    return false
  else
    let ok ← sfsRbuf
    let created ← test
    if !ok then
      unlock fs
      return false
    else if !created then
      unlock fs
      return false
    else
      unlock fs
      return true

def sfsLookupOnce (node : Nat) : LockProg SfsLock Bool := do
  lock (sin node)
  let ok ← sfsDirentSearchNolock
  unlock (sin node)
  if ok then sfsLoadInode else return false

/--
The first and the last part of the transfer in `sfs_io_nolock`.
-/
def partialBlock (write : Bool) : LockProg SfsLock Bool :=
  sfsBmapLoadNolock.andThen (if write then sfsWbuf else sfsRbuf)

def wholeBlocks : LockProg SfsLock Bool := sfsBmapLoadNolock.andThen sfsRwblock

def alignedPart (write : Bool) : LockProg SfsLock Bool := do
  let nblks ← test
  let size ← test
  (if nblks then wholeBlocks else pure true).andThen (if size then partialBlock write else pure true)

def sfsIoNolock (write : Bool) : LockProg SfsLock Bool := do
  let inval ← test
  let nothing ← test
  let pastSize ← test
  let blkoff ← test
  let nblks ← test
  if inval then
    return false
  else if nothing ∨ !write ∧ pastSize then
    return true
  else if blkoff then
    (partialBlock write).andThen (if nblks then alignedPart write else pure true)
  else
    alignedPart write

def sfsIo (node : Nat) (write : Bool) : LockProg SfsLock Bool := do
  lock (sin node)
  let ok ← sfsIoNolock write
  unlock (sin node)
  return ok

def sfsFsync (node : Nat) : LockProg SfsLock Bool := do
  let dirty ← test
  if dirty then
    lock (sin node)
    let dirty ← test
    let ok ← (if dirty then sfsWbuf else pure true)
    unlock (sin node)
    return ok
  else
    return true

def sfsTruncfile (node : Nat) : LockProg SfsLock Bool := do
  let inval ← test
  let same ← test
  if inval then
    return false
  else if same then
    return true
  else
    lock (sin node)
    let grows ← test
    let n ← count
    let ok ← rounds (if grows then sfsBmapLoadNolock else sfsBmapTruncateNolock) n
    unlock (sin node)
    return ok

def sfsGetdirentry (node : Nat) : LockProg SfsLock Bool := do
  let noMem ← test
  let inval ← test
  let noent ← test
  if noMem ∨ inval ∨ noent then
    return false
  else
    lock (sin node)
    let ok ← sfsGetdirentrySubNolock
    let moved ← test
    if !ok then
      unlock (sin node)
      return false
    else
      unlock (sin node)
      return moved

def sfsReclaim (node : Nat) : LockProg SfsLock Bool := do
  lock fs
  let busy ← test
  let nlinks ← test
  if busy then
    unlock fs
    return false
  else
    let ok ← (if nlinks then pure true else sfsTruncfile node)
    if !ok then
      unlock fs
      return false
    else
      let dirty ← test
      let ok ← (if dirty then sfsFsync node else pure true)
      if !ok then
        unlock fs
        return false
      else
        unlock fs
        return true

/--
The loop of `sfs_sync` over the list of inodes, it goes on behind an error.
-/
def syncLoop : Nat → LockProg SfsLock Unit
  | 0 => return ()
  | n + 1 => do
    let node ← count
    let _ ← sfsFsync node
    syncLoop n

def sfsSync : LockProg SfsLock Bool := do
  lock fs
  let n ← count
  syncLoop n
  unlock fs
  let superDirty ← test
  if superDirty then sfsSyncSuper.andThen sfsSyncFreemap else return true

end SfsLock

/--
The calls of the threads.
-/
inductive SfsCall where
  | io (node : Nat) (write : Bool)
  | truncfile (node : Nat)
  | fsync (node : Nat)
  | lookupOnce (node : Nat)
  | getdirentry (node : Nat)
  | loadInode
  | reclaim (node : Nat)
  | sync
  deriving DecidableEq

def SfsCall.prog : SfsCall → LockProg SfsLock Bool
  | io node write => SfsLock.sfsIo node write
  | truncfile node => SfsLock.sfsTruncfile node
  | fsync node => SfsLock.sfsFsync node
  | lookupOnce node => SfsLock.sfsLookupOnce node
  | getdirentry node => SfsLock.sfsGetdirentry node
  | loadInode => SfsLock.sfsLoadInode
  | reclaim node => SfsLock.sfsReclaim node
  | sync => SfsLock.sfsSync

end Ucore

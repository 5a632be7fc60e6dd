import Mathlib
import Ucore.Libs.Error
import Ucore.Libs.Hash

/-!
This module contains the inodes that kern/fs/sfs/sfs_inode.c keeps in memory and the functions that
make, find and free them, with the counts of kern/fs/vfs/inode.c. A thread runs up to the point at
which it may have to wait for the lock of the file system or for the disk, `wake` is what it does from
there on.

The functions return `none` where an assertion fails or memory is used that has been freed.
-/

namespace Ucore

/--
A `struct inode` with its `struct sfs_inode`, `nlinks` is the one of its `din`.
-/
structure SfsNode where
  ino : BitVec 32
  nlinks : BitVec 16
  dirty : Bool
  reclaimCount : Int
  refCount : Int
  openCount : Int

/--
The inodes in memory by their addresses, the hash lists of the file system and its lock `fs_sem`.

The other fields record what has happened: the references to the inode at an address that are in
somebody's hands, whether the last reclaim of the inode could not write it back and it has not been
looked up since, and how often an inode has been made and freed at an address.
-/
structure InodeCache where
  nodes : Nat → Option SfsNode
  hashList : Nat → List Nat
  locked : Bool
  refs : Nat → Nat
  failed : Nat → Bool
  made : Nat → Nat
  freed : Nat → Nat

/--
Where a thread is: behind its last call, with the result of that call and the inode handed back by
`sfs_load_inode`, or within `sfs_load_inode` or within the `sfs_reclaim` of an `inode_ref_dec`, where it
waits for the lock or, with the lock, for the disk.
-/
inductive CacheControl where
  | returned (ret : Int) (nodeStore : Option Nat)
  | loadLock (ino : BitVec 32)
  | loadRead (ino : BitVec 32)
  | reclaimLock (node : Nat)
  | reclaimTruncate (node : Nat)
  | reclaimFsync (node : Nat)
  deriving DecidableEq

/--
What a thread is told when it goes on: whether there is memory for a `din`, whether the block of the
inode is in use, the result of the disk, the links of the inode read, the address `kmalloc` has found for
it, and whether a truncation has made the inode dirty.
-/
structure CacheAnswer where
  din : Bool
  inuse : Bool
  ret : Int
  nlinks : BitVec 16
  node : Option Nat
  dirty : Bool

def sfsHlistShift : Nat := 10

def sinHashfn (ino : BitVec 32) : Nat := (hash32 ino sfsHlistShift).toNat

namespace InodeCache

def modify (s : InodeCache) (node : Nat) (f : SfsNode → SfsNode) : InodeCache :=
  { s with nodes := Function.update s.nodes node ((s.nodes node).map f) }

def inodeRefInc (s : InodeCache) (node : Nat) : Option (Int × InodeCache) :=
  match s.nodes node with
  | none => none
  | some sin =>
    some (sin.refCount + 1,
      { s.modify node fun sin => { sin with refCount := sin.refCount + 1 } with
        refs := Function.update s.refs node (s.refs node + 1) })

/--
A count of zero makes the thread call `sfs_reclaim`.
-/
def inodeRefDec (s : InodeCache) (node : Nat) : Option (InodeCache × CacheControl) :=
  match s.nodes node with
  | none => none
  | some sin =>
    if 0 < sin.refCount then
      let t := { s.modify node fun sin => { sin with refCount := sin.refCount - 1 } with
        refs := Function.update s.refs node (s.refs node - 1) }
      if sin.refCount - 1 = 0 then
        some (t, .reclaimLock node)
      else
        some (t, .returned (sin.refCount - 1) none)
    else
      none

def inodeOpenInc (s : InodeCache) (node : Nat) : Option (Int × InodeCache) :=
  match s.nodes node with
  | none => none
  | some sin =>
    some (sin.openCount + 1, s.modify node fun sin => { sin with openCount := sin.openCount + 1 })

def inodeOpenDec (s : InodeCache) (node : Nat) : Option (Int × InodeCache) :=
  match s.nodes node with
  | none => none
  | some sin =>
    if 0 < sin.openCount then
      some (sin.openCount - 1, s.modify node fun sin => { sin with openCount := sin.openCount - 1 })
    else
      none

/--
The count of an inode without references is one again, as is the number of reclaims that it needs.
-/
def lookupSfsNolock (s : InodeCache) (ino : BitVec 32) : Option Nat × InodeCache :=
  match (s.hashList (sinHashfn ino)).find? fun node => (s.nodes node).any (·.ino = ino) with
  | none => (none, s)
  | some node =>
    (some node,
      { s.modify node fun sin =>
          { sin with
            refCount := sin.refCount + 1
            reclaimCount := if sin.refCount + 1 = 1 then sin.reclaimCount + 1 else sin.reclaimCount } with
        refs := Function.update s.refs node (s.refs node + 1)
        failed := Function.update s.failed node false })

def sfsSetLinks (s : InodeCache) (node : Nat) (ino : BitVec 32) : InodeCache :=
  { s with
    hashList := Function.update s.hashList (sinHashfn ino) (node :: s.hashList (sinHashfn ino)) }

def sfsRemoveLinks (s : InodeCache) (node : Nat) (ino : BitVec 32) : InodeCache :=
  { s with
    hashList := Function.update s.hashList (sinHashfn ino) ((s.hashList (sinHashfn ino)).erase node) }

/--
`sfs_create_inode` with the `vop_init` that makes the first reference.
-/
def sfsCreateInode (s : InodeCache) (node : Nat) (nlinks : BitVec 16) (ino : BitVec 32) : InodeCache :=
  { s with
    nodes := Function.update s.nodes node
      (some { ino, nlinks, dirty := false, reclaimCount := 1, refCount := 1, openCount := 0 })
    refs := Function.update s.refs node 1
    failed := Function.update s.failed node false
    made := Function.update s.made node (s.made node + 1) }

def inodeKill (s : InodeCache) (node : Nat) : Option InodeCache :=
  match s.nodes node with
  | none => none
  | some sin =>
    if sin.refCount = 0 ∧ sin.openCount = 0 then
      some { s with
        nodes := Function.update s.nodes node none
        freed := Function.update s.freed node (s.freed node + 1) }
    else
      none

/--
The label `failed_unlock` of `sfs_reclaim` behind a truncation or a write that has failed.
-/
def reclaimFailed (s : InodeCache) (node : Nat) : Option (InodeCache × CacheControl) :=
  some ({ s with locked := false, failed := Function.update s.failed node true }, .returned 0 none)

/--
The end of `sfs_reclaim`. The blocks of an inode without links are not part of the cache.
-/
def reclaimKill (s : InodeCache) (node : Nat) : Option (InodeCache × CacheControl) :=
  match s.nodes node with
  | none => none
  | some sin =>
    ({ s.sfsRemoveLinks node sin.ino with locked := false }.inodeKill node).map
      fun s => (s, .returned 0 none)

def reclaimDirty (s : InodeCache) (node : Nat) : Option (InodeCache × CacheControl) :=
  match s.nodes node with
  | none => none
  | some sin =>
    if sin.dirty then
      some ({ s with locked := true }, .reclaimFsync node)
    else
      s.reclaimKill node

/--
`sfs_reclaim` behind `lock_sfs_fs`. `inode_ref_dec` returns the count whatever comes of the reclaim.
-/
def sfsReclaim (s : InodeCache) (node : Nat) : Option (InodeCache × CacheControl) :=
  match s.nodes node with
  | none => none
  | some sin =>
    if 0 < sin.reclaimCount then
      let s := s.modify node fun sin => { sin with reclaimCount := sin.reclaimCount - 1 }
      if sin.reclaimCount - 1 ≠ 0 ∨ sin.refCount ≠ 0 then
        some (s, .returned 0 none)
      else if sin.nlinks = 0 then
        some ({ s with locked := true }, .reclaimTruncate node)
      else
        s.reclaimDirty node
    else
      none

/--
`sfs_load_inode` behind `lock_sfs_fs`.
-/
def sfsLoadInode (s : InodeCache) (ino : BitVec 32) (ans : CacheAnswer)
    : Option (InodeCache × CacheControl) :=
  match s.lookupSfsNolock ino with
  | (some node, s) => some (s, .returned 0 (some node))
  | (none, s) =>
    if ans.din then
      if ans.inuse then
        some ({ s with locked := true }, .loadRead ino)
      else
        none
    else
      some (s, .returned (-Errno.noMem.toInt) none)

/--
`sfs_load_inode` behind `sfs_rbuf`.
-/
def loadedInode (s : InodeCache) (ino : BitVec 32) (ans : CacheAnswer)
    : Option (InodeCache × CacheControl) :=
  if ans.ret ≠ 0 then
    some ({ s with locked := false }, .returned ans.ret none)
  else if ans.nlinks = 0 then
    none
  else
    match ans.node with
    | none => some ({ s with locked := false }, .returned (-Errno.noMem.toInt) none)
    | some node =>
      some ({ (s.sfsCreateInode node ans.nlinks ino).sfsSetLinks node ino with locked := false },
        .returned 0 (some node))

/--
How a thread goes on. It keeps waiting for a lock that is held.
-/
def wake (s : InodeCache) (c : CacheControl) (ans : CacheAnswer)
    : Option (InodeCache × CacheControl) :=
  match c with
  | .returned .. => some (s, c)
  | .loadLock ino => if s.locked then some (s, c) else s.sfsLoadInode ino ans
  | .loadRead ino => s.loadedInode ino ans
  | .reclaimLock node => if s.locked then some (s, c) else s.sfsReclaim node
  | .reclaimTruncate node =>
    if ans.ret ≠ 0 then
      s.reclaimFailed node
    else
      (s.modify node fun sin => { sin with dirty := sin.dirty || ans.dirty }).reclaimDirty node
  | .reclaimFsync node =>
    if ans.ret ≠ 0 then
      s.reclaimFailed node
    else
      (s.modify node fun sin => { sin with dirty := false }).reclaimKill node

end InodeCache
end Ucore

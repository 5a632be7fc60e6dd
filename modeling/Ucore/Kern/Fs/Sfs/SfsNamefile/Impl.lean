import Ucore.Kern.Fs.Sfs.SfsDirent.Impl

/-!
This module contains `sfs_namefile` with the inodes in memory that it goes through (kern/fs/sfs/sfs_inode.c and
kern/fs/vfs/inode.c). It runs on its own: the locks of the source are left out.

A pointer to an inode is its number, since `lookup_sfs_nolock` finds the inode that is in memory before another one with
its number is made.
-/

namespace Ucore

/--
An inode in memory.
-/
structure SfsMemInode where
  sin : SfsInode
  refCount : Int
  openCount : Int

/--
A mounted file system with its inodes in memory.
-/
structure SfsMount where
  sfs : SfsFs
  inodes : Nat → Option SfsMemInode

namespace SfsDiskEntry

/--
The name up to its first zero.
-/
def cname (entry : SfsDiskEntry) : List UInt8 := entry.name.takeWhile (· ≠ 0)

end SfsDiskEntry

namespace SfsCtx

/--
The loop that `sfs_dirent_search_nolock` and `sfs_dirent_findino_nolock` share: the first of the `n` slots from slot `i`
on with the right entry, and its number.
-/
def direntLoop (p : SfsDiskEntry → Bool) : Nat → Nat → Prog Errno Panic SfsCtx (SfsDiskEntry × Nat)
  | 0, _ => Prog.throw .noent
  | n + 1, i => do
    let entry ← sfsDirentReadNolock i
    if p entry then
      return (entry, i)
    else
      direntLoop p n (i + 1)

/--
Returns `*ino_store` and `*slot`. No caller of `sfs_lookup_once` asks for an empty slot.
-/
def sfsDirentSearchNolock (name : List UInt8) : Prog Errno Panic SfsCtx (Nat × Nat) := do
  Prog.assert (name.length ≤ sfsMaxFnameLen) .sfsDirentSearch
  onSfs SfsFs.kmalloc
  let s ← Prog.get
  let (entry, slot) ← direntLoop (fun entry => entry.ino ≠ 0 ∧ name = entry.cname) (nslots s.sin.din) 0
  return (entry.ino, slot)

def sfsDirentFindinoNolock (ino : Nat) : Prog Errno Panic SfsCtx SfsDiskEntry := do
  let s ← Prog.get
  let (entry, _) ← direntLoop (fun entry => entry.ino = ino) (nslots s.sin.din) 0
  return entry

end SfsCtx

namespace SfsMount

def onSfs {α : Type} (m : Prog Errno Panic SfsFs α) : Prog Errno Panic SfsMount α :=
  Prog.zoom (fun s => s.sfs) (fun s sfs => { s with sfs }) m

def setInode (s : SfsMount) (node : Nat) (n : SfsMemInode) : SfsMount :=
  { s with inodes := Function.update s.inodes node (some n) }

/--
What a pointer to an inode points to.
-/
def deref (node : Nat) : Prog Errno Panic SfsMount SfsMemInode := fun s =>
  match s.inodes node with
  | some n => .ok n s
  | none => .panic .inodeFreed

/--
Run a program on the file system and an inode.
-/
def onNode {α : Type} (node : Nat) (m : Prog Errno Panic SfsCtx α) : Prog Errno Panic SfsMount α := do
  let n ← deref node
  Prog.zoom (fun s => ⟨s.sfs, n.sin⟩) (fun s t => { s with sfs := t.sfs }.setInode node { n with sin := t.sin }) m

def inodeRefInc (node : Nat) : Prog Errno Panic SfsMount Int := do
  let n ← deref node
  Prog.modify fun s => s.setInode node { n with refCount := n.refCount + 1 }
  return n.refCount + 1

/--
Only a file has a `vop_truncate`.
-/
def vopTruncate (node : Nat) (len : Int) : Prog Errno Panic SfsMount Unit := do
  let n ← deref node
  if n.sin.din.type = sfsTypeFile then
    onNode node (SfsCtx.sfsTruncfile len)
  else
    Prog.panic .vopTruncate

def inodeKill (node : Nat) : Prog Errno Panic SfsMount Unit := do
  let n ← deref node
  Prog.assert (n.refCount = 0 ∧ n.openCount = 0) .inodeKill
  Prog.modify fun s => { s with inodes := Function.update s.inodes node none }

/--
The part of `sfs_reclaim` behind the check of the counts.
-/
def reclaimUnused (node : Nat) : Prog Errno Panic SfsMount Unit := do
  let n ← deref node
  Prog.when (n.sin.din.nlinks = 0) (vopTruncate node 0)
  let n ← deref node
  Prog.when n.sin.dirty (onNode node SfsCtx.sfsFsync)
  let n ← deref node
  Prog.when (n.sin.din.nlinks = 0) do
    onSfs (SfsFs.sfsBlockFree n.sin.ino)
    Prog.when (n.sin.din.indirect ≠ 0) (onSfs (SfsFs.sfsBlockFree n.sin.din.indirect))
  inodeKill node

def sfsReclaim (node : Nat) : Prog Errno Panic SfsMount Unit := do
  let n ← deref node
  Prog.assert (n.sin.reclaimCount > 0) .sfsReclaim
  Prog.modify fun s => s.setInode node { n with sin := { n.sin with reclaimCount := n.sin.reclaimCount - 1 } }
  if n.sin.reclaimCount - 1 ≠ 0 ∨ n.refCount ≠ 0 then
    Prog.throw .busy
  else
    reclaimUnused node

/--
The warning of a reclaim that fails is not part of the model.
-/
def inodeRefDec (node : Nat) : Prog Errno Panic SfsMount Unit := do
  let n ← deref node
  Prog.assert (n.refCount > 0) .inodeRefDec
  Prog.modify fun s => s.setInode node { n with refCount := n.refCount - 1 }
  Prog.when (n.refCount - 1 = 0) do
    let _ ← Prog.attempt (sfsReclaim node)

/--
`lookup_sfs_nolock` of an inode that is in memory.
-/
def lookupSfsNolock (ino : Nat) : Prog Errno Panic SfsMount Unit := do
  let refCount ← inodeRefInc ino
  let n ← deref ino
  Prog.when (refCount = 1) do
    Prog.modify fun s => s.setInode ino { n with sin := { n.sin with reclaimCount := n.sin.reclaimCount + 1 } }

/--
`sfs_create_inode` and `sfs_set_links`.
-/
def sfsCreateInode (din : SfsDiskInode) (ino : Nat) : Prog Errno Panic SfsMount Unit := do
  onSfs SfsFs.kmalloc
  Prog.assert (din.type = sfsTypeDir ∨ din.type = sfsTypeFile) .sfsGetOps
  Prog.modify fun s => s.setInode ino
    { sin := { din, ino, dirty := false, reclaimCount := 1 }, refCount := 1, openCount := 0 }

def sfsLoadInode (ino : Nat) : Prog Errno Panic SfsMount Nat := do
  let s ← Prog.get
  if (s.inodes ino).isSome then
    lookupSfsNolock ino
    return ino
  else
    onSfs SfsFs.kmalloc
    onSfs (SfsFs.assertInuse ino .sfsLoadInodeInuse)
    let b ← onSfs (SfsFs.sfsRbuf .inode SfsDiskInode.byteSize ino 0)
    let din := SfsDiskInode.ofBytes b
    Prog.assert (din.nlinks ≠ 0) .sfsLoadInodeNlinks
    sfsCreateInode din ino
    return ino

def sfsLookupOnce (node : Nat) (name : List UInt8) : Prog Errno Panic SfsMount (Nat × Nat) := do
  let (ino, slot) ← onNode node (SfsCtx.sfsDirentSearchNolock name)
  let node ← sfsLoadInode ino
  return (node, slot)

/--
The buffer of `sfs_namefile` with its variables `ptr`, as an offset in the buffer, and `resid`.
-/
structure NameBuf where
  buf : Bytes
  ptr : Nat
  resid : Nat

def dotdot : List UInt8 := [0x2E, 0x2E]

def slash : UInt8 := 0x2F

/--
A name with the slash behind it, in front of what is in the buffer.
-/
def NameBuf.push (b : NameBuf) (name : List UInt8) : NameBuf where
  buf := b.buf.copy (b.ptr - (name.length + 1)) (Bytes.ofList (name ++ [slash])) (name.length + 1)
  ptr := b.ptr - (name.length + 1)
  resid := b.resid - (name.length + 1)

/--
The loop of `sfs_namefile`. It returns `ret`, none behind the `break`, and the buffer. Each round that goes on makes
`resid` smaller.
-/
def namefileLoop : Nat → Nat → NameBuf → Prog Errno Panic SfsMount (Option Errno × NameBuf)
  | 0, _, _ => Prog.panic .sfsNamefile
  | fuel + 1, node, b => do
    match ← Prog.attempt (sfsLookupOnce node dotdot) with
    | .error e =>
      inodeRefDec node
      return (some e, b)
    | .ok (parent, _) =>
      let child ← deref node
      let ino := child.sin.ino
      inodeRefDec node
      if node = parent then
        inodeRefDec node
        return (none, b)
      else
        let n ← deref parent
        Prog.assert (ino ≠ n.sin.ino ∧ n.sin.din.type = sfsTypeDir) .sfsNamefile
        match ← Prog.attempt (onNode parent (SfsCtx.sfsDirentFindinoNolock ino)) with
        | .error e =>
          inodeRefDec parent
          return (some e, b)
        | .ok entry =>
          if entry.cname.length + 1 > b.resid then
            inodeRefDec parent
            return (some .noMem, b)
          else
            namefileLoop fuel parent (b.push entry.cname)

/--
The statements of `sfs_namefile` behind its loop.
-/
def namefileMove (iob : Iobuf) (b : NameBuf) : Prog Errno Panic SfsMount (Option Errno × Iobuf) := do
  let alen := iob.resid - b.resid - 2
  let base := iob.iobufUsed
  let buf := b.buf.copy (base + 1) (b.buf.drop b.ptr) alen
  let buf := Function.update (Function.update buf base slash) (base + 1 + alen) 0
  let iob ← { iob with buf }.iobufSkip alen
  return (none, iob)

def sfsNamefile (node : Nat) (iob : Iobuf) : Prog Errno Panic SfsMount (Option Errno × Iobuf) := do
  if iob.resid ≤ 2 then
    return (some .noMem, iob)
  else
    match ← Prog.attempt (onSfs SfsFs.kmalloc) with
    | .error e => return (some e, iob)
    | .ok _ =>
      let _ ← inodeRefInc node
      let (ret, b) ← namefileLoop iob.resid node ⟨iob.buf, iob.iobufUsed + iob.resid, iob.resid - 2⟩
      match ret with
      | some e => return (some e, { iob with buf := b.buf })
      | none => namefileMove iob b

end SfsMount
end Ucore

import Mathlib
import Ucore.Kern.Fs.File.Impl
import Ucore.Lib.Prog

/-!
This module contains the counts of the inodes and the functions of kern/fs/vfs that take and give back
references to them. Each function runs on its own.
-/

namespace Ucore

/--
An entry of `vdev_list`, `fs` is the file system mounted on the device.
-/
structure VfsDev where
  devname : List Char
  fs : Option Nat
  mountable : Bool

/--
What does not change while processes run: the devices, and for the inodes on the disks whether they are
directories, their file systems and the root directories.

The inodes are numbered, those of the devices come first.
-/
structure VfsEnv where
  devs : List VfsDev
  isDir : Nat → Bool
  fsOf : Nat → Nat
  root : Nat → Nat

namespace VfsEnv

def IsDevice (env : VfsEnv) (node : Nat) : Prop := node < env.devs.length

instance (env : VfsEnv) (node : Nat) : Decidable (env.IsDevice node) :=
  inferInstanceAs (Decidable (_ < _))

/--
The inode with number `k` on a disk.
-/
def sfs (env : VfsEnv) (k : Nat) : Nat := env.devs.length + k

def IsDirectory (env : VfsEnv) (node : Nat) : Prop :=
  ¬env.IsDevice node ∧ env.isDir (node - env.devs.length) = true

instance (env : VfsEnv) (node : Nat) : Decidable (env.IsDirectory node) :=
  inferInstanceAs (Decidable (_ ∧ _))

/--
`in_fs`, devices have none.
-/
def inFs (env : VfsEnv) (node : Nat) : Option Nat :=
  if env.IsDevice node then none else some (env.fsOf (node - env.devs.length))

end VfsEnv

/--
What the file systems and the devices answer during a call: whether the root directory can be loaded,
what a search in a directory finds, and the results of `dop_open`, `vop_truncate` and `vop_fstat`.
-/
structure VfsAnswer where
  root : Bool
  lookup : Except Errno Nat
  dopOpen : Except Errno Unit
  truncate : Except Errno Unit
  fstat : Except Errno (BitVec 64)

/--
The assertions and panics. The first five are no matter of the counts: an operation that the inode does
not have, a root directory that cannot be loaded, a bad path, the exit of `initproc`.
-/
inductive VfsPanic where
  | vopLookup
  | vopCreate
  | vopTruncate
  | sfsGetRoot
  | initprocExit
  | sfsLookup
  | inFs
  | vopReclaim
  | inodeRefDec
  | inodeOpenDec
  | inodeKill
  | fdArray
  | dupFiles
  | filesDestroy
  | filesCloseall
  deriving DecidableEq

structure FilesStruct where
  pwd : Option Nat
  filesCount : Int
  table : FileTable

/--
What a process has to do with its files. `put` is set when it has called `put_files`.
-/
structure VfsProc where
  filesp : Nat
  mm : Bool
  exited : Bool
  put : Bool

/--
`live` are the addresses at which there is a `files_struct`. The first process is `initproc`.
-/
structure Vfs where
  refCount : Nat → Int
  openCount : Nat → Int
  bootfsNode : Option Nat
  live : Finset Nat
  files : Nat → FilesStruct
  procs : List VfsProc

abbrev VfsProg (α : Type) := Prog Errno VfsPanic Vfs α

namespace Vfs

variable (env : VfsEnv)

def inodeRefInc (node : Nat) : VfsProg Unit :=
  Prog.modify fun s => { s with refCount := Function.update s.refCount node (s.refCount node + 1) }

/--
Devices have no `vop_reclaim`. A reclaim ends with `inode_kill` unless the inode cannot be written back.
-/
def vopReclaim (node : Nat) : VfsProg Unit := do
  if env.IsDevice node then
    Prog.panic .vopReclaim
  else
    let s ← Prog.get
    Prog.assert (s.refCount node = 0 ∧ s.openCount node = 0) .inodeKill

def inodeRefDec (node : Nat) : VfsProg Unit := do
  let s ← Prog.get
  Prog.assert (0 < s.refCount node) .inodeRefDec
  Prog.modify fun s => { s with refCount := Function.update s.refCount node (s.refCount node - 1) }
  Prog.when (s.refCount node - 1 = 0) (vopReclaim env node)

def inodeOpenInc (node : Nat) : VfsProg Unit :=
  Prog.modify fun s => { s with openCount := Function.update s.openCount node (s.openCount node + 1) }

/--
An error of the `vop_close` behind the last close is only printed.
-/
def inodeOpenDec (node : Nat) : VfsProg Unit := do
  let s ← Prog.get
  Prog.assert (0 < s.openCount node) .inodeOpenDec
  Prog.modify fun s => { s with openCount := Function.update s.openCount node (s.openCount node - 1) }

def vfsClose (node : Nat) : VfsProg Unit := do
  inodeOpenDec node
  inodeRefDec env node

/--
`sfs_get_root`, which panics if it cannot load the root directory.
-/
def fsopGetRoot (fs : Nat) (ans : VfsAnswer) : VfsProg Nat := do
  if ans.root then
    inodeRefInc (env.sfs (env.root fs))
    return env.sfs (env.root fs)
  else
    Prog.panic .sfsGetRoot

def vfsGetRoot (devname : List Char) (ans : VfsAnswer) : VfsProg Nat := do
  match env.devs.zipIdx.find? fun d => d.1.devname = devname with
  | none => Prog.throw .noDev
  | some (dev, node) =>
    match dev.fs with
    | some fs => fsopGetRoot env fs ans
    | none =>
      if dev.mountable then
        Prog.throw .naDev
      else
        inodeRefInc node
        return node

/--
`vfs_get_curdir` of a process with the `files_struct` at `filesp`.
-/
def vfsGetCurdir (filesp : Nat) : VfsProg Nat := do
  let s ← Prog.get
  match (s.files filesp).pwd with
  | some node =>
    inodeRefInc node
    return node
  | none => Prog.throw .noent

def vfsGetBootfs : VfsProg Nat := do
  let s ← Prog.get
  match s.bootfsNode with
  | some node =>
    inodeRefInc node
    return node
  | none => Prog.throw .noent

/--
The root of the file system of the current directory, for a path with a leading colon.
-/
def getCurfs (filesp : Nat) (ans : VfsAnswer) : VfsProg Nat := do
  let node ← vfsGetCurdir filesp
  match env.inFs node with
  | none => Prog.panic .inFs
  | some fs =>
    let root ← fsopGetRoot env fs ans
    inodeRefDec env node
    return root

/--
The inode a path starts from and the rest of the path. The name of a device ends with the first colon,
if no slash is before it.
-/
def getDevice (filesp : Nat) (path : List Char) (ans : VfsAnswer) : VfsProg (List Char × Nat) := do
  let name := path.takeWhile fun c => c ≠ ':' ∧ c ≠ '/'
  let rest := path.dropWhile fun c => c ≠ ':' ∧ c ≠ '/'
  if rest.head? ≠ some ':' ∧ ¬(rest.head? = some '/' ∧ name = []) then
    let node ← vfsGetCurdir filesp
    return (path, node)
  else if name ≠ [] then
    let node ← vfsGetRoot env name ans
    return (rest.tail.dropWhile (· = '/'), node)
  else
    let node ← if rest.head? = some '/' then vfsGetBootfs else getCurfs env filesp ans
    return (rest.tail.dropWhile (· = '/'), node)

/--
The path that `get_device` leaves in the buffer: it writes a `NUL` over the colon behind the name of a device.
-/
def leftPath (path : List Char) : List Char :=
  let name := path.takeWhile fun c => c ≠ ':' ∧ c ≠ '/'
  let rest := path.dropWhile fun c => c ≠ ':' ∧ c ≠ '/'
  if rest.head? = some ':' ∧ name ≠ [] then name else path

def devLookup (node : Nat) (path : List Char) : VfsProg Nat := do
  if path ≠ [] then
    Prog.throw .noent
  else
    inodeRefInc node
    return node

def sfsLookup (node : Nat) (path : List Char) (ans : VfsAnswer) : VfsProg Nat := do
  Prog.assert (path ≠ [] ∧ path.head? ≠ some '/') .sfsLookup
  inodeRefInc node
  match ans.lookup with
  | .error e =>
    inodeRefDec env node
    Prog.throw e
  | .ok k =>
    inodeRefInc (env.sfs k)
    inodeRefDec env node
    return env.sfs k

/--
Files have no `vop_lookup`.
-/
def vopLookup (node : Nat) (path : List Char) (ans : VfsAnswer) : VfsProg Nat := do
  if env.IsDevice node then
    devLookup node path
  else if env.IsDirectory node then
    sfsLookup env node path ans
  else
    Prog.panic .vopLookup

def vfsLookup (filesp : Nat) (path : List Char) (ans : VfsAnswer) : VfsProg Nat := do
  let start ← getDevice env filesp path ans
  if start.1 = [] then
    return start.2
  else
    let r ← Prog.attempt (vopLookup env start.2 start.1 ans)
    inodeRefDec env start.2
    match r with
    | .ok node => return node
    | .error e => Prog.throw e

def oCreat : BitVec 32 := 0x00000004

def oExcl : BitVec 32 := 0x00000008

def oTrunc : BitVec 32 := 0x00000010

def devOpen (openFlags : BitVec 32) (ans : VfsAnswer) : VfsProg Unit := do
  if openFlags &&& (oCreat ||| oTrunc ||| oExcl ||| FileTable.oAppend) ≠ 0 then
    Prog.throw .inval
  else
    match ans.dopOpen with
    | .ok () => pure ()
    | .error e => Prog.throw e

def sfsOpendir (openFlags : BitVec 32) : VfsProg Unit := do
  if openFlags &&& FileTable.oAccmode = FileTable.oRdonly ∧ openFlags &&& FileTable.oAppend = 0 then
    pure ()
  else
    Prog.throw .isdir

def vopOpen (node : Nat) (openFlags : BitVec 32) (ans : VfsAnswer) : VfsProg Unit := do
  if env.IsDevice node then
    devOpen openFlags ans
  else if env.IsDirectory node then
    sfsOpendir openFlags
  else
    pure ()

/--
Only files have a `vop_truncate`.
-/
def vopTruncate (node : Nat) (ans : VfsAnswer) : VfsProg Unit := do
  if env.IsDevice node ∨ env.IsDirectory node then
    Prog.panic .vopTruncate
  else
    match ans.truncate with
    | .ok () => pure ()
    | .error e => Prog.throw e

/--
The part of `vfs_open` that finds the inode. `vfs_lookup_parent` gets the buffer that `vfs_lookup` has left. No inode
has a `vop_create`.
-/
def vfsOpenNode (filesp : Nat) (path : List Char) (excl create : Bool) (ans : VfsAnswer)
    : VfsProg Nat := do
  let r ← Prog.attempt (vfsLookup env filesp path ans)
  match r with
  | .ok node =>
    if excl ∧ create then
      Prog.throw .exists
    else
      return node
  | .error e =>
    if e = .noent ∧ create then
      let _ ← getDevice env filesp (leftPath path) ans
      Prog.panic .vopCreate
    else
      Prog.throw e

def vfsOpen (filesp : Nat) (path : List Char) (openFlags : BitVec 32) (ans : VfsAnswer)
    : VfsProg Nat := do
  match FileTable.accessMode openFlags with
  | none => Prog.throw .inval
  | some (_, canWrite) =>
    if openFlags &&& oTrunc ≠ 0 ∧ ¬canWrite then
      Prog.throw .inval
    else
      let node ← vfsOpenNode env filesp path (openFlags &&& oExcl ≠ 0) (openFlags &&& oCreat ≠ 0) ans
      Prog.onError (vopOpen env node openFlags ans) (inodeRefDec env node)
      inodeOpenInc node
      Prog.when (openFlags &&& oTrunc ≠ 0 ∨ openFlags &&& oCreat ≠ 0)
        (Prog.onError (vopTruncate env node ans) (vfsClose env node))
      return node

def setCwd (filesp : Nat) (pwd : Option Nat) : VfsProg Unit :=
  Prog.modify fun s =>
    { s with files := Function.update s.files filesp { s.files filesp with pwd } }

def vfsSetCurdir (filesp : Nat) (dir : Option Nat) : VfsProg Unit := do
  let s ← Prog.get
  let oldDir := (s.files filesp).pwd
  if oldDir ≠ dir then
    match dir with
    | some node =>
      if env.IsDirectory node then
        inodeRefInc node
      else
        Prog.throw .notdir
    | none => pure ()
    setCwd filesp dir
    Prog.forSome oldDir (inodeRefDec env)
  else
    pure ()

def vfsChdir (filesp : Nat) (path : List Char) (ans : VfsAnswer) : VfsProg Unit := do
  let node ← vfsLookup env filesp path ans
  let r ← Prog.attempt (vfsSetCurdir env filesp (some node))
  inodeRefDec env node
  match r with
  | .ok () => pure ()
  | .error e => Prog.throw e

def changeBootfs (node : Option Nat) : VfsProg Unit := do
  let s ← Prog.get
  Prog.modify fun s => { s with bootfsNode := node }
  Prog.forSome s.bootfsNode (inodeRefDec env)

def vfsSetBootfs (filesp : Nat) (fsname : Option (List Char)) (ans : VfsAnswer) : VfsProg Unit := do
  match fsname with
  | some fsname =>
    if fsname.dropWhile (· ≠ ':') ≠ [':'] then
      Prog.throw .inval
    else
      vfsChdir env filesp fsname ans
      let node ← vfsGetCurdir filesp
      changeBootfs env (some node)
  | none => changeBootfs env none

end Vfs
end Ucore

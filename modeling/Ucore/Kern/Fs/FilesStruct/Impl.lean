import Ucore.Kern.Fs.Vfs.Impl

/-!
This module contains the functions of kern/fs/file.c that open, close and duplicate a file together with
the counts of the inodes, the `files_struct`s of kern/fs/fs.c, and what the functions of
kern/process/proc.c do with them.
-/

namespace Ucore
namespace Vfs

variable (env : VfsEnv)

def setTable (s : Vfs) (filesp : Nat) (table : FileTable) : Vfs :=
  { s with files := Function.update s.files filesp { s.files filesp with table } }

/--
Run a function of file.c on the table of a `files_struct`.
-/
def onTable {α : Type} (filesp : Nat) (f : FileTable → Option (α × FileTable)) : VfsProg α := fun s =>
  match f (s.files filesp).table with
  | some (a, table) => .ok a (s.setTable filesp table)
  | none => .panic .fdArray

/--
The `vfs_close` in `fd_array_free` and the end of that function, if a call has come to it.
-/
def endFree (filesp : Nat) : Control → VfsProg Unit
  | .fdArrayFree file _ _ => do
    let s ← Prog.get
    Prog.forSome ((s.files filesp).table.slots file).node (vfsClose env)
    onTable filesp fun t => some ((), t.setNone file)
  | _ => pure ()

def fdArrayAlloc (filesp : Nat) (fd : Int) : VfsProg Fd := do
  match ← onTable filesp (·.fdArrayAlloc fd) with
  | .ok file => return file
  | .error e => Prog.throw e

def fdArrayFree (filesp : Nat) (file : Fd) : VfsProg Unit := do
  endFree env filesp (← onTable filesp (·.fdArrayFree file 0 0))

def fdArrayClose (filesp : Nat) (file : Fd) : VfsProg Unit := do
  endFree env filesp (← onTable filesp (·.fdArrayClose file 0 0))

def fd2file (filesp : Nat) (fd : Int) : VfsProg Fd := do
  let s ← Prog.get
  match (s.files filesp).table.fd2file fd with
  | .ok file => return file
  | .error e => Prog.throw e

/--
The position of a file that is opened with these flags.
-/
def filePos (openFlags : BitVec 32) (ans : VfsAnswer) : VfsProg (BitVec 64) := do
  if openFlags &&& FileTable.oAppend ≠ 0 then
    match ans.fstat with
    | .ok stSize => return stSize
    | .error e => Prog.throw e
  else
    return 0

def fileOpen (filesp : Nat) (path : List Char) (openFlags : BitVec 32) (ans : VfsAnswer)
    : VfsProg Int := do
  match FileTable.accessMode openFlags with
  | none => Prog.throw .inval
  | some (readable, writable) =>
    let file ← fdArrayAlloc filesp noFd
    let node ← Prog.onError (vfsOpen env filesp path openFlags ans) (fdArrayFree env filesp file)
    let pos ← Prog.onError (filePos openFlags ans)
      (do
        vfsClose env node
        fdArrayFree env filesp file)
    onTable filesp fun t =>
      ((t.modify file fun f => { f with pos, node := some node, readable, writable }).fdArrayOpen
        file).map fun t => ((t.slots file).fd, t)

def fileClose (filesp : Nat) (fd : Int) : VfsProg Unit := do
  let file ← fd2file filesp fd
  fdArrayClose env filesp file

/--
`fd_array_dup` with the counts of the inode.
-/
def fdArrayDup (filesp : Nat) (dst : Fd) (src : File) : VfsProg Unit := do
  onTable filesp fun t => (t.fdArrayDupFrom dst src).map fun t => ((), t)
  Prog.forSome src.node fun node => do
    inodeRefInc node
    inodeOpenInc node

def fileDup (filesp : Nat) (fd1 fd2 : Int) : VfsProg Int := do
  let file1 ← fd2file filesp fd1
  let file2 ← fdArrayAlloc filesp fd2
  let s ← Prog.get
  fdArrayDup filesp file2 ((s.files filesp).table.slots file1)
  return ((s.files filesp).table.slots file2).fd

/--
An address from `kmalloc` with what was left there.
-/
def filesCreate (filesp : Nat) : VfsProg Unit :=
  Prog.modify fun s =>
    { s with
      live := insert filesp s.live
      files := Function.update s.files filesp
        { pwd := none
          filesCount := 0
          table := FileTable.fdArrayInit (s.files filesp).table.slots } }

/--
What `files_destroy` and `files_closeall` do with a slot.
-/
def closeIfOpened (filesp : Nat) (file : Fd) : VfsProg Unit := do
  let s ← Prog.get
  Prog.when (((s.files filesp).table.slots file).status = .fdOpened) (fdArrayClose env filesp file)

def destroySlots (filesp : Nat) : List Fd → VfsProg Unit
  | [] => pure ()
  | file :: fds => do
    closeIfOpened env filesp file
    let s ← Prog.get
    Prog.assert (((s.files filesp).table.slots file).status = .fdNone) .filesDestroy
    destroySlots filesp fds

def closeSlots (filesp : Nat) : List Fd → VfsProg Unit
  | [] => pure ()
  | file :: fds => do
    closeIfOpened env filesp file
    closeSlots filesp fds

/--
The slots of stdin and stdout are skipped.
-/
def filesCloseall (filesp : Nat) : VfsProg Unit := do
  let s ← Prog.get
  Prog.assert (0 < (s.files filesp).filesCount) .filesCloseall
  closeSlots env filesp ((List.finRange filesStructNentry).drop 2)

def filesDestroy (filesp : Nat) : VfsProg Unit := do
  let s ← Prog.get
  Prog.assert ((s.files filesp).filesCount = 0) .filesDestroy
  Prog.forSome (s.files filesp).pwd (inodeRefDec env)
  destroySlots env filesp (List.finRange filesStructNentry)
  Prog.modify fun s => { s with live := s.live.erase filesp }

def dupSlots (dst source : Nat) : List Fd → VfsProg Unit
  | [] => pure ()
  | file :: fds => do
    let s ← Prog.get
    let src := (s.files source).table.slots file
    Prog.when (src.status = .fdOpened) do
      onTable dst fun t =>
        some ((), (t.modify file fun f => { f with status := .fdInit }).record file .setInit)
      fdArrayDup dst file src
    dupSlots dst source fds

def dupFiles (dst source : Nat) : VfsProg Unit := do
  let s ← Prog.get
  Prog.assert ((s.files dst).filesCount = 0 ∧ 0 < (s.files source).filesCount) .dupFiles
  setCwd dst (s.files source).pwd
  Prog.forSome (s.files source).pwd inodeRefInc
  dupSlots dst source (List.finRange filesStructNentry)

def setFilesCount (filesp : Nat) (n : Int) : VfsProg Unit :=
  Prog.modify fun s =>
    { s with files := Function.update s.files filesp { s.files filesp with filesCount := n } }

def filesCountInc (filesp : Nat) : VfsProg Unit := do
  let s ← Prog.get
  setFilesCount filesp ((s.files filesp).filesCount + 1)

/--
The `files_struct` of the new process, `fresh` is the address of a new one.
-/
def copyFiles (cloneFs : Bool) (source : Nat) (fresh : Option Nat) : VfsProg Nat := do
  if cloneFs then
    filesCountInc source
    return source
  else
    match fresh with
    | none => Prog.throw .noMem
    | some filesp =>
      filesCreate filesp
      dupFiles filesp source
      filesCountInc filesp
      return filesp

def putFiles (filesp : Nat) : VfsProg Unit := do
  let s ← Prog.get
  setFilesCount filesp ((s.files filesp).filesCount - 1)
  Prog.when ((s.files filesp).filesCount - 1 = 0) (filesDestroy env filesp)

/--
The part of `do_fork` that makes the files of the child, the rest of it succeeds.
-/
def doFork (proc : VfsProc) (cloneFs : Bool) (fresh : Option Nat) : VfsProg Unit := do
  let filesp ← copyFiles cloneFs proc.filesp fresh
  Prog.modify fun s =>
    { s with procs := s.procs ++ [{ filesp, mm := proc.mm, exited := false, put := false }] }

/--
The exit of process `i`. Only a process with an `mm` gives its files back.
-/
def doExit (i : Nat) (proc : VfsProc) : VfsProg Unit := do
  if i = 0 then
    Prog.panic .initprocExit
  else
    Prog.when proc.mm (putFiles env proc.filesp)
    Prog.modify fun s =>
      { s with procs := s.procs.set i { proc with mm := false, exited := true, put := proc.mm } }

/--
What `do_execve` does with the files of process `i`. Behind it the process has an `mm`.
-/
def doExecve (i : Nat) (proc : VfsProc) : VfsProg Unit := do
  filesCloseall env proc.filesp
  Prog.modify fun s => { s with procs := s.procs.set i { proc with mm := true } }

end Vfs
end Ucore

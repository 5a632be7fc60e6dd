import Mathlib
import Ucore.Libs.Error

/-!
This module contains the table of open files of kern/fs/file.c. A function of file.c runs up to the
call into vfs in which its thread may have to wait, `wake` is the rest of it.

The functions return `none` where an assertion fails or a null pointer is followed.
-/

namespace Ucore

inductive FdStatus where
  | fdNone
  | fdInit
  | fdOpened
  | fdClosed
  deriving DecidableEq

/--
`FILES_STRUCT_NENTRY`, the number of `struct file` in the page of a `files_struct`.
-/
def filesStructNentry : Nat := (4096 - 48) / 56

def noFd : Int := -0x9527

def testfd (fd : Int) : Prop := 0 ≤ fd ∧ fd < filesStructNentry

instance (fd : Int) : Decidable (testfd fd) :=
  inferInstanceAs (Decidable (_ ∧ _))

/--
A pointer to a `struct file` of a table.
-/
abbrev Fd := Fin filesStructNentry

/--
A `struct file`, an inode is its address.
-/
structure File where
  status : FdStatus
  readable : Bool
  writable : Bool
  fd : Int
  pos : BitVec 64
  node : Option Nat
  openCount : Int

/--
What file.c does with a slot: the statuses it assigns, the calls it makes on `file->node` with their
returns, and the `vfs_close` of `fd_array_free`.
-/
inductive SlotAct where
  | setNone
  | setInit
  | setOpened (node : Nat)
  | setClosed
  | call (node : Nat)
  | ret (node : Nat)
  | vfsClose (node : Nat)
  deriving DecidableEq

/--
The `fd_array` of a `files_struct`. The `log` of a slot records all that has been done with it.
-/
structure FileTable where
  slots : Fd → File
  log : Fd → List SlotAct

/--
Where a thread is: behind a call of file.c, with the return value and the `*copied_store` of that call,
or within a function that waits for vfs.
-/
inductive Control where
  | returned (ret : Int) (copied : BitVec 64)
  | fileOpenVfsOpen (file : Fd) (readable writable append : Bool)
  | fileOpenFstat (file : Fd) (node : Nat) (readable writable : Bool)
  | fileOpenVfsClose (file : Fd) (ret : Int)
  | fileRw (file : Fd) (node : Nat)
  | fileSeekFstat (file : Fd) (node : Nat) (pos : BitVec 64)
  | fileSeekTryseek (file : Fd) (node : Nat) (pos : BitVec 64)
  | fileVop (file : Fd) (node : Nat)
  | fdArrayFree (file : Fd) (ret : Int) (copied : BitVec 64)

/--
What a call into vfs gives back, through its return value and its pointers.
-/
structure Answer where
  ret : Int
  node : Nat
  stSize : BitVec 64
  used : BitVec 64

namespace FileTable

def modify (t : FileTable) (file : Fd) (f : File → File) : FileTable :=
  { t with slots := Function.update t.slots file (f (t.slots file)) }

def record (t : FileTable) (file : Fd) (act : SlotAct) : FileTable :=
  { t with log := Function.update t.log file (t.log file ++ [act]) }

def fdArrayInit (slots : Fd → File) : FileTable where
  slots := fun fd => { slots fd with openCount := 0, status := .fdNone, fd }
  log := fun _ => []

/--
The first slot with the status `FD_NONE`, for `NO_FD`.
-/
def firstNone (t : FileTable) : Option Fd :=
  (List.finRange filesStructNentry).find? fun file => (t.slots file).status = .fdNone

/--
The part of `fd_array_alloc` from the label `found` on.
-/
def found (t : FileTable) (file : Fd) : Option (Except Errno Fd × FileTable) :=
  if (t.slots file).openCount = 0 then
    some (.ok file,
      (t.modify file fun f => { f with status := .fdInit, node := none }).record file .setInit)
  else
    none

def fdArrayAlloc (t : FileTable) (fd : Int) : Option (Except Errno Fd × FileTable) :=
  if fd = noFd then
    match t.firstNone with
    | some file => t.found file
    | none => some (.error .maxOpen, t)
  else if h : testfd fd then
    let file : Fd := ⟨fd.toNat, by have := h.1; have := h.2; omega⟩
    if (t.slots file).status = .fdNone then
      t.found file
    else
      some (.error .busy, t)
  else
    some (.error .inval, t)

def setNone (t : FileTable) (file : Fd) : FileTable :=
  (t.modify file fun f => { f with status := .fdNone }).record file .setNone

/--
The thread is to return `ret` and `copied` afterwards.
-/
def fdArrayFree (t : FileTable) (file : Fd) (ret : Int) (copied : BitVec 64)
    : Option (Control × FileTable) :=
  let f := t.slots file
  if (f.status = .fdInit ∨ f.status = .fdClosed) ∧ f.openCount = 0 then
    if f.status = .fdClosed then
      match f.node with
      | some node => some (.fdArrayFree file ret copied, t.record file (.vfsClose node))
      | none => none
    else
      some (.returned ret copied, t.setNone file)
  else
    none

def fdArrayAcquire (t : FileTable) (file : Fd) : Option FileTable :=
  if (t.slots file).status = .fdOpened then
    some (t.modify file fun f => { f with openCount := f.openCount + 1 })
  else
    none

/--
`fopen_count_dec` and what `fd_array_release` and `fd_array_close` do with its result.
-/
def fopenCountDec (t : FileTable) (file : Fd) (ret : Int) (copied : BitVec 64)
    : Option (Control × FileTable) :=
  let t := t.modify file fun f => { f with openCount := f.openCount - 1 }
  if (t.slots file).openCount = 0 then
    t.fdArrayFree file ret copied
  else
    some (.returned ret copied, t)

def fdArrayRelease (t : FileTable) (file : Fd) (ret : Int) (copied : BitVec 64)
    : Option (Control × FileTable) :=
  let f := t.slots file
  if (f.status = .fdOpened ∨ f.status = .fdClosed) ∧ 0 < f.openCount then
    t.fopenCountDec file ret copied
  else
    none

def fdArrayOpen (t : FileTable) (file : Fd) : Option FileTable :=
  match (t.slots file).node with
  | some node =>
    if (t.slots file).status = .fdInit then
      some <| (t.modify file fun f =>
        { f with status := .fdOpened, openCount := f.openCount + 1 }).record file (.setOpened node)
    else
      none
  | none => none

def fdArrayClose (t : FileTable) (file : Fd) (ret : Int) (copied : BitVec 64)
    : Option (Control × FileTable) :=
  let f := t.slots file
  if f.status = .fdOpened ∧ 0 < f.openCount then
    ((t.modify file fun f => { f with status := .fdClosed }).record file .setClosed).fopenCountDec
      file ret copied
  else
    none

/--
`fd_array_dup` onto the slot `dst` from a `struct file`, which may be one of another table. The counts of
the inode are not part of the table.
-/
def fdArrayDupFrom (t : FileTable) (dst : Fd) (src : File) : Option FileTable :=
  if (t.slots dst).status = .fdInit ∧ src.status = .fdOpened then
    match src.node with
    | some node =>
      (t.modify dst fun f =>
        { f with
          pos := src.pos
          readable := src.readable
          writable := src.writable
          node := some node }).fdArrayOpen dst
    | none => none
  else
    none

def fdArrayDup (t : FileTable) (dst source : Fd) : Option FileTable :=
  t.fdArrayDupFrom dst (t.slots source)

def fd2file (t : FileTable) (fd : Int) : Except Errno Fd :=
  if h : testfd fd then
    let file : Fd := ⟨fd.toNat, by have := h.1; have := h.2; omega⟩
    if (t.slots file).status = .fdOpened ∧ (t.slots file).fd = fd then
      .ok file
    else
      .error .inval
  else
    .error .inval

def oRdonly : BitVec 32 := 0

def oWronly : BitVec 32 := 1

def oRdwr : BitVec 32 := 2

def oAccmode : BitVec 32 := 3

def oAppend : BitVec 32 := 0x00000020

/--
The values of `readable` and `writable` for an access mode, `none` if there is no such mode.
-/
def accessMode (openFlags : BitVec 32) : Option (Bool × Bool) :=
  if openFlags &&& oAccmode = oRdonly then
    some (true, false)
  else if openFlags &&& oAccmode = oWronly then
    some (false, true)
  else if openFlags &&& oAccmode = oRdwr then
    some (true, true)
  else
    none

def fileOpen (t : FileTable) (openFlags : BitVec 32) : Option (Control × FileTable) :=
  match accessMode openFlags with
  | none => some (.returned (-Errno.inval.toInt) 0, t)
  | some (readable, writable) =>
    match t.fdArrayAlloc noFd with
    | none => none
    | some (.error e, t) => some (.returned (-e.toInt) 0, t)
    | some (.ok file, t) =>
      some (.fileOpenVfsOpen file readable writable (openFlags &&& oAppend ≠ 0), t)

/--
The end of `file_open`, behind the assignment of `file->pos`.
-/
def fileOpened (t : FileTable) (file : Fd) (node : Nat) (readable writable : Bool)
    : Option (Control × FileTable) :=
  ((t.modify file fun f => { f with node := some node, readable, writable }).fdArrayOpen file).map
    fun t => (.returned (t.slots file).fd 0, t)

def fileClose (t : FileTable) (fd : Int) : Option (Control × FileTable) :=
  match t.fd2file fd with
  | .error e => some (.returned (-e.toInt) 0, t)
  | .ok file => t.fdArrayClose file 0 0

/--
A call of `vop` on the node of an acquired slot.
-/
def callVop (t : FileTable) (file : Fd) (wait : Nat → Control) : Option (Control × FileTable) :=
  match (t.slots file).node with
  | some node => some (wait node, t.record file (.call node))
  | none => none

/--
The common part of `file_read` and `file_write`, which differ in the permission they ask for.
-/
def fileRw (t : FileTable) (fd : Int) (permission : File → Bool) : Option (Control × FileTable) :=
  match t.fd2file fd with
  | .error e => some (.returned (-e.toInt) 0, t)
  | .ok file =>
    if permission (t.slots file) then
      (t.fdArrayAcquire file).bind fun t => t.callVop file (.fileRw file)
    else
      some (.returned (-Errno.inval.toInt) 0, t)

def fileRead (t : FileTable) (fd : Int) : Option (Control × FileTable) :=
  t.fileRw fd (·.readable)

def fileWrite (t : FileTable) (fd : Int) : Option (Control × FileTable) :=
  t.fileRw fd (·.writable)

def lseekSet : Int := 0

def lseekCur : Int := 1

def lseekEnd : Int := 2

def fileSeek (t : FileTable) (fd : Int) (pos : BitVec 64) (whence : Int)
    : Option (Control × FileTable) :=
  match t.fd2file fd with
  | .error e => some (.returned (-e.toInt) 0, t)
  | .ok file =>
    (t.fdArrayAcquire file).bind fun t =>
      if whence = lseekSet then
        t.callVop file (.fileSeekTryseek file · pos)
      else if whence = lseekCur then
        t.callVop file (.fileSeekTryseek file · (pos + (t.slots file).pos))
      else if whence = lseekEnd then
        t.callVop file (.fileSeekFstat file · pos)
      else
        t.fdArrayRelease file (-Errno.inval.toInt) 0

/--
The common part of `file_fstat`, `file_fsync` and `file_getdirentry`.
-/
def fileVop (t : FileTable) (fd : Int) : Option (Control × FileTable) :=
  match t.fd2file fd with
  | .error e => some (.returned (-e.toInt) 0, t)
  | .ok file => (t.fdArrayAcquire file).bind fun t => t.callVop file (.fileVop file)

def fileFstat (t : FileTable) (fd : Int) : Option (Control × FileTable) :=
  t.fileVop fd

def fileFsync (t : FileTable) (fd : Int) : Option (Control × FileTable) :=
  t.fileVop fd

def fileGetdirentry (t : FileTable) (fd : Int) : Option (Control × FileTable) :=
  t.fileVop fd

def fileDup (t : FileTable) (fd1 fd2 : Int) : Option (Control × FileTable) :=
  match t.fd2file fd1 with
  | .error e => some (.returned (-e.toInt) 0, t)
  | .ok file1 =>
    match t.fdArrayAlloc fd2 with
    | none => none
    | some (.error e, t) => some (.returned (-e.toInt) 0, t)
    | some (.ok file2, t) =>
      (t.fdArrayDup file2 file1).map fun t => (.returned (t.slots file2).fd 0, t)

/--
How a thread goes on when its call into vfs has come back with `ans`.
-/
def wake (t : FileTable) (c : Control) (ans : Answer) : Option (Control × FileTable) :=
  match c with
  | .returned .. => some (c, t)
  | .fileOpenVfsOpen file readable writable append =>
    if ans.ret ≠ 0 then
      t.fdArrayFree file ans.ret 0
    else
      let t := t.modify file fun f => { f with pos := 0 }
      if append then
        some (.fileOpenFstat file ans.node readable writable, t)
      else
        t.fileOpened file ans.node readable writable
  | .fileOpenFstat file node readable writable =>
    if ans.ret ≠ 0 then
      -- The node is not in the slot yet, this `vfs_close` gives back what `vfs_open` has taken.
      some (.fileOpenVfsClose file ans.ret, t)
    else
      (t.modify file fun f => { f with pos := ans.stSize }).fileOpened file node readable writable
  | .fileOpenVfsClose file ret => t.fdArrayFree file ret 0
  | .fileRw file node =>
    let t := t.record file (.ret node)
    let t :=
      if (t.slots file).status = .fdOpened then
        t.modify file fun f => { f with pos := f.pos + ans.used }
      else
        t
    t.fdArrayRelease file ans.ret ans.used
  | .fileSeekFstat file node pos =>
    let t := t.record file (.ret node)
    if ans.ret = 0 then
      t.callVop file (.fileSeekTryseek file · (pos + ans.stSize))
    else
      t.fdArrayRelease file ans.ret 0
  | .fileSeekTryseek file node pos =>
    let t := t.record file (.ret node)
    let t := if ans.ret = 0 then t.modify file fun f => { f with pos } else t
    t.fdArrayRelease file ans.ret 0
  | .fileVop file node => (t.record file (.ret node)).fdArrayRelease file ans.ret 0
  | .fdArrayFree file ret copied => some (.returned ret copied, t.setNone file)

end FileTable
end Ucore

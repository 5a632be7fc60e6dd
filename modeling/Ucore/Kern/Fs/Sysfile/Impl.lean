import Ucore.Kern.Fs.File.Impl
import Ucore.Kern.Fs.Iobuf
import Ucore.Kern.Mm.Vmm.UserMemCheck

/-!
This module contains `sysfile_read` and `sysfile_getdirentry` of kern/fs/sysfile.c with `file_testfd`, `file_read` and
`file_getdirentry` of kern/fs/file.c and `copy_to_user` and `copy_from_user` of kern/mm/vmm.c. They run on their own: no
other thread closes the descriptor in the meantime.

The functions return `none` where an assertion fails.
-/

namespace Ucore

/--
`IOBUF_SIZE`
-/
def iobufSize : Nat := 4096

/--
What `vop_read` does with a request of `len` bytes: its return value, the bytes that it moves into the buffer, and what
becomes of the inode and of all that is behind it. `iobuf_skip` asserts that there is room for them.
-/
structure VopRead (σ : Type) (len : Nat) where
  state : σ
  ret : Option Errno
  data : List UInt8
  le : data.length ≤ len

/--
The open files of a process, the inodes, the address space, and the memory at each address.
-/
structure ReadSys (σ : Type) where
  table : FileTable
  fs : σ
  mm : Option MmStruct
  mem : Nat → UInt8

/--
The number that a function returns for an error.
-/
def retOf : Option Errno → Int
  | none => 0
  | some e => -e.toInt

def FileTable.fileTestfd (t : FileTable) (fd : Int) (readable writable : Bool) : Bool :=
  match t.fd2file fd with
  | .error _ => false
  | .ok file => !(readable && !(t.slots file).readable) && !(writable && !(t.slots file).writable)

/--
`len` bytes at `dst` replaced.
-/
def memcpyUser (mem : Nat → UInt8) (dst : Nat) (src : List UInt8) : Nat → UInt8 :=
  fun a => if dst ≤ a ∧ a < dst + src.length then src.getD (a - dst) 0 else mem a

namespace ReadSys

variable {σ : Type}

def copyToUser (s : ReadSys σ) (dst : Nat) (src : List UInt8) : Bool × ReadSys σ :=
  let (ok, mm) := MmStruct.userMemCheck s.mm dst src.length true
  if ok then
    (true, { s with mm, mem := memcpyUser s.mem dst src })
  else
    (false, { s with mm })

variable (vopRead : σ → Nat → BitVec 64 → (len : Nat) → VopRead σ len)

/--
Returns the bytes that the buffer got, as many as `*copied_store`, with the return value.
-/
def fileRead (s : ReadSys σ) (fd : Int) (len : Nat) : Option (Int × List UInt8 × ReadSys σ) := do
  match ← s.table.fileRead fd with
  | (.returned ret _, table) => return (ret, [], { s with table })
  | (.fileRw file node, table) =>
    let ans := vopRead s.fs node (table.slots file).pos len
    match ← table.wake (.fileRw file node) ⟨retOf ans.ret, node, 0, ans.data.length⟩ with
    | (.returned ret _, table) => return (ret, ans.data, { s with table, fs := ans.state })
    | _ => none
  | _ => none

/--
The loop of `sysfile_read`: returns `ret` and `copied`. Each round that goes on makes `len` smaller.
-/
def readLoop (fd : Int) : Nat → ReadSys σ → Nat → Nat → Nat → Int → Option (Int × Nat × ReadSys σ)
  | 0, _, _, _, _, _ => none
  | fuel + 1, s, base, len, copied, ret =>
    if len ≠ 0 then do
      let alen := if iobufSize > len then len else iobufSize
      let (ret, buffer, s) ← s.fileRead vopRead fd alen
      let alen := buffer.length
      if alen ≠ 0 then
        match s.copyToUser base buffer with
        | (true, s) =>
          if alen ≤ len then
            if ret ≠ 0 then
              return (ret, copied + alen, s)
            else
              readLoop fd fuel s (base + alen) (len - alen) (copied + alen) ret
          else
            none
        | (false, s) => return (if ret = 0 then -Errno.inval.toInt else ret, copied, s)
      else
        return (ret, copied, s)
    else
      return (ret, copied, s)

/--
`kmalloc` tells whether there is memory for the buffer.
-/
def sysfileRead (kmalloc : Bool) (s : ReadSys σ) (fd : Int) (base len : Nat) : Option (Int × ReadSys σ) :=
  if len = 0 then
    some (0, s)
  else if !s.table.fileTestfd fd true false then
    some (-Errno.inval.toInt, s)
  else if !kmalloc then
    some (-Errno.noMem.toInt, s)
  else do
    let (ret, copied, s) ← readLoop vopRead fd (len + 1) s base len 0 0
    if copied ≠ 0 then
      return ((BitVec.ofNat 32 copied).toInt, s)
    else
      return (ret, s)

end ReadSys

/--
`sizeof` the name of a `struct dirent`.
-/
def direntNameSize : Nat := 256

/--
`struct dirent`
-/
structure Dirent where
  offset : Int
  name : Bytes

namespace Dirent

/--
`sizeof` the offset.
-/
def offsetSize : Nat := 8

def byteSize : Nat := offsetSize + direntNameSize

/--
The offset in the bytes at the start of an entry.
-/
def offsetOf (b : Bytes) : Int := (BitVec.ofNat 64 (b.toNat offsetSize)).toInt

def toList (direntp : Dirent) : List UInt8 :=
  (List.range offsetSize).map (Bytes.ofNat (BitVec.ofInt 64 direntp.offset).toNat) ++
    (List.range direntNameSize).map direntp.name

end Dirent

namespace ReadSys

variable {σ : Type} (vopGetdirentry : σ → Nat → Iobuf → Option (Int × Iobuf × σ))

def copyFromUser (s : ReadSys σ) (src len : Nat) (writable : Bool) : Option Bytes × ReadSys σ :=
  let (ok, mm) := MmStruct.userMemCheck s.mm src len writable
  (if ok then some (Bytes.drop s.mem src) else none, { s with mm })

def fileGetdirentry (s : ReadSys σ) (fd : Int) (direntp : Dirent) : Option (Int × Dirent × ReadSys σ) := do
  match ← s.table.fileGetdirentry fd with
  | (.returned ret _, table) => return (ret, direntp, { s with table })
  | (.fileVop file node, table) =>
    let (ret, iob, fs) ← vopGetdirentry s.fs node (Iobuf.iobufInit direntp.name direntNameSize direntp.offset)
    match ← table.wake (.fileVop file node) ⟨ret, node, 0, 0⟩ with
    | (.returned ret _, table) =>
      let offset := if ret = 0 then direntp.offset + iob.iobufUsed else direntp.offset
      return (ret, { offset, name := iob.buf }, { s with table, fs })
    | _ => none
  | _ => none

/--
`kmalloc` is the memory that there is for the entry.
-/
def sysfileGetdirentry (kmalloc : Option Bytes) (s : ReadSys σ) (fd : Int) (base : Nat) : Option (Int × ReadSys σ) :=
  match kmalloc with
  | none => some (-Errno.noMem.toInt, s)
  | some buf =>
    match s.copyFromUser base Dirent.offsetSize true with
    | (none, s) => some (-Errno.inval.toInt, s)
    | (some b, s) => do
      let (ret, direntp, s) ←
        s.fileGetdirentry vopGetdirentry fd { offset := Dirent.offsetOf b, name := buf.drop Dirent.offsetSize }
      if ret ≠ 0 then
        return (ret, s)
      else
        match s.copyToUser base direntp.toList with
        | (true, s) => return (0, s)
        | (false, s) => return (-Errno.inval.toInt, s)

end ReadSys
end Ucore

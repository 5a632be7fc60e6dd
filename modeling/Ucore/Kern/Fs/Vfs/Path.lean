import Ucore.Kern.Fs.Vfs.Lemmas
import Ucore.Lib.CString

/-!
This module contains `get_device` of kern/fs/vfs/vfslookup.c over the buffer of a path.
-/

namespace Ucore

/--
The buffer of a path of `n` characters, with the `NUL` behind them.
-/
structure PathBuf where
  n : Nat
  chars : Nat → Char

namespace PathBuf

def nul : Char := Char.ofNat 0

def ofPath (path : List Char) : PathBuf where
  n := path.length
  chars := fun i => path.getD i nul

/--
There is no result outside the buffer.
-/
def read (b : PathBuf) (i : Nat) : Option Char := if i ≤ b.n then some (b.chars i) else none

def write (b : PathBuf) (i : Nat) (c : Char) : Option PathBuf :=
  if i ≤ b.n then some { b with chars := Function.update b.chars i c } else none

/--
The loop that looks for `colon` and `slash`, which are `none` for `-1`.
-/
def findSeparator : Nat → PathBuf → Nat → Option (Option Nat × Option Nat)
  | 0, _, _ => none
  | fuel + 1, b, i => do
    let c ← b.read i
    if c = nul then
      return (none, none)
    else if c = ':' then
      return (some i, none)
    else if c = '/' then
      return (none, some i)
    else
      findSeparator fuel b (i + 1)

/--
The loops over the slashes from position `i` on.
-/
def skipSlashes : Nat → PathBuf → Nat → Option Nat
  | 0, _, _ => none
  | fuel + 1, b, i => do
    let c ← b.read i
    if c = '/' then
      skipSlashes fuel b (i + 1)
    else
      return i

/--
The string at position `i`, which `strcmp` reads.
-/
def string : Nat → PathBuf → Nat → Option (List Char)
  | 0, _, _ => none
  | fuel + 1, b, i => do
    let c ← b.read i
    if c = nul then
      return []
    else
      let text ← string fuel b (i + 1)
      return c :: text

/--
The buffer afterwards, and what hands out the inode and the position of the rest. There is no result when a loop leaves
the buffer or the assertion fails. The slashes are skipped before the inode is looked for in every case, which does not
read the buffer.
-/
def getDevice (env : VfsEnv) (filesp : Nat) (b : PathBuf) (ans : VfsAnswer)
    : Option (PathBuf × VfsProg (Nat × Nat)) := do
  let (colon, slash) ← findSeparator (b.n + 1) b 0
  if colon = none ∧ slash ≠ some 0 then
    return (b, do
      let node ← Vfs.vfsGetCurdir filesp
      return (0, node))
  else
    match colon with
    | some (colon + 1) =>
      let b ← b.write (colon + 1) nul
      let subpath ← skipSlashes (b.n + 1) b (colon + 2)
      let devname ← string (b.n + 1) b 0
      return (b, do
        let node ← Vfs.vfsGetRoot env devname ans
        return (subpath, node))
    | _ =>
      let c ← b.read 0
      let subpath ← skipSlashes (b.n + 1) b 1
      if c = '/' then
        return (b, do
          let node ← Vfs.vfsGetBootfs
          return (subpath, node))
      else if c = ':' then
        return (b, do
          let node ← Vfs.getCurfs env filesp ans
          return (subpath, node))
      else
        none

/--
What the lookup of a path starts from.
-/
inductive Start where
  | curdir
  | device (devname : List Char)
  | bootfs
  | curfs
  deriving DecidableEq

/--
A path with what it starts from and the rest of it. A colon counts if no slash is before it.
-/
inductive Split : List Char → Start → List Char → Prop
  | relative (path : List Char) (hcolon : ∀ name rest, path = name ++ ':' :: rest → '/' ∈ name)
      (hslash : path.head? ≠ some '/')
      : Split path .curdir path
  | device (name : List Char) (k : Nat) (rest : List Char) (hne : name ≠ []) (hname : ':' ∉ name ∧ '/' ∉ name)
      (hrest : rest.head? ≠ some '/')
      : Split (name ++ ':' :: (List.replicate k '/' ++ rest)) (.device name) rest
  | bootfs (k : Nat) (rest : List Char) (hrest : rest.head? ≠ some '/')
      : Split ('/' :: (List.replicate k '/' ++ rest)) .bootfs rest
  | curfs (k : Nat) (rest : List Char) (hrest : rest.head? ≠ some '/')
      : Split (':' :: (List.replicate k '/' ++ rest)) .curfs rest

section Start

variable (env : VfsEnv) (s : Vfs) (filesp : Nat) (ans : VfsAnswer)

/--
The root directory of a file system, `none` if it cannot be loaded.
-/
def rootNode (fs : Nat) : Option (Except Errno Nat) :=
  if ans.root then some (.ok (env.sfs (env.root fs))) else none

/--
The inode or the error for a start. There is none without the root directory of a file system, and none for the file
system of a device.
-/
def startNode : Start → Option (Except Errno Nat)
  | .curdir => some ((s.files filesp).pwd.elim (.error .noent) .ok)
  | .bootfs => some (s.bootfsNode.elim (.error .noent) .ok)
  | .device devname =>
    match env.devs.zipIdx.find? fun d => d.1.devname = devname with
    | none => some (.error .noDev)
    | some (dev, node) =>
      match dev.fs with
      | some fs => rootNode env ans fs
      | none => some (if dev.mountable then .error .naDev else .ok node)
  | .curfs =>
    match (s.files filesp).pwd with
    | some node => (env.inFs node).bind (rootNode env ans)
    | none => some (.error .noent)

/--
A resolution hands out the inode of the start with one reference and where the rest is, or an error and no reference.
-/
def Resolves (b b' : PathBuf) (start : Start) (rest : List Char) : Prop :=
  ∃ m, getDevice env filesp b ans = some (b', m) ∧
    (m s).Sat
      (fun r t => startNode env s filesp ans start = some (.ok r.2) ∧ t = s.hold r.2 ∧
        CString.At nul b'.chars r.1 rest)
      (fun e t => startNode env s filesp ans start = some (.error e) ∧ t = s)
      (fun _ => False)

/--
The path is resolved as it is split, and a second time from the same buffer just the same.
-/
def ResolvesTwice (path : List Char) : Prop :=
  ∃ start rest b' b'', Split path start rest ∧ Resolves env s filesp ans (ofPath path) b' start rest ∧
    Resolves env s filesp ans b' b'' start rest

/--
A second resolution cannot tell the path from the first one: it has no device name, or the rest of it is again the name
of its device, and the current directory is what the device hands out.
-/
def Repeatable (path : List Char) : Prop :=
  (∀ name rest, path = name ++ ':' :: rest → name = [] ∨ ':' ∈ name ∨ '/' ∈ name) ∨
    ∃ name k, path = name ++ ':' :: (List.replicate k '/' ++ name) ∧ name ≠ [] ∧ ':' ∉ name ∧ '/' ∉ name ∧
      startNode env s filesp ans (.device name) = startNode env s filesp ans .curdir

end Start

end PathBuf
end Ucore

import Mathlib
import Ucore.Kern.Mm.Vmm.CopyString
import Ucore.Kern.Process.LoadIcode.Impl

/-!
This module contains `do_execve` of kern/process/proc.c with `copy_kargv` and `put_kargv`.

The files are of any type, and `kmalloc`, `files_closeall`, `sysfile_open` and `load_icode` are parameters. `do_exit`
does not come back, so a run ends there.
-/

namespace Ucore

/--
What `load_icode` leaves behind, where it does not panic. The address space is the new one, with its memory.
-/
structure ExecLoaded (φ : Type) where
  ret : Int
  mm : MmStruct
  mem : Nat → BitVec 8
  files : φ

/--
`kmalloc` is given the blocks that are in use.
-/
structure ExecEnv (φ : Type) where
  kmalloc : Finset Nat → Option Nat
  kmalloc_fresh : ∀ live block, kmalloc live = some block → block ∉ live
  filesCloseall : φ → φ
  sysfileOpen : φ → Nat → Int × φ
  loadIcode : φ → Int → List (Nat → BitVec 8) → Option (ExecLoaded φ)

/--
The process that calls `do_execve`. `mem` is the memory that it sees, and `locked` tells whether it holds `mm_sem`.
`gaveUp` records that its files have been closed or its address space dropped, and `loaded` the copies of the
arguments that `load_icode` has been given.
-/
structure ExecState (φ : Type) where
  mm : Option MmStruct
  mmCount : Nat
  locked : Bool
  mem : Nat → BitVec 8
  files : φ
  name : Nat → BitVec 8
  pid : Nat
  live : Finset Nat
  block : Nat → Nat → BitVec 8
  gaveUp : Bool
  loaded : Option (List (Nat → BitVec 8))

/--
How a run ends in front of the last `return`.
-/
inductive ExecEnd where
  | ret (error : Int)
  | exit (error : Int)

inductive ExecPanic where
  | doubleFree
  | loadIcode

abbrev ExecM (φ α : Type) := Prog ExecEnd ExecPanic (ExecState φ) α

def procNameLen : Nat := 15

/--
`snprintf(local_name, sizeof(local_name), "<null> %d", current->pid)`.
-/
def nullName (pid : Nat) : Nat → BitVec 8 :=
  let chars := ("<null> ".toList ++ Nat.toDigits 10 pid).take procNameLen
  fun k => (chars.map fun c => BitVec.ofNat 8 c.toNat).getD k 0

/--
`argv[i]`.
-/
def argvAt (mem : Nat → BitVec 8) (argv i : Nat) : Nat := Bytes.toNat (fun k => ⟨mem (argv + 8 * i + k)⟩) 8

namespace ExecM

variable {φ : Type}

def kfree (block : Nat) : ExecM φ Unit := do
  let s ← Prog.get
  if block ∈ s.live then
    Prog.modify fun s => { s with live := s.live.erase block }
  else
    Prog.panic .doubleFree

def kfreeAll : List Nat → ExecM φ Unit
  | [] => pure ()
  | block :: rest => do
    kfree block
    kfreeAll rest

/--
`put_kargv`, which starts at the last argument.
-/
def putKargv (kargv : List Nat) : ExecM φ Unit := kfreeAll kargv.reverse

def userMemCheck (addr len : Nat) : ExecM φ Bool := do
  let s ← Prog.get
  let (ok, mm) := MmStruct.userMemCheck s.mm addr len false
  Prog.modify fun s => { s with mm }
  return ok

/--
`copy_string` to a buffer that holds `dst`. The value is what the buffer holds then.
-/
def copyString (dst : Nat → BitVec 8) (src maxn : Nat) : ExecM φ (Bool × (Nat → BitVec 8)) := do
  let s ← Prog.get
  let (ok, copy) := MmStruct.copyString s.mm s.mem dst src maxn
  Prog.modify fun s => { s with mm := copy.mm }
  return (ok, copy.dst)

/--
The loop of `copy_kargv`, which has done the arguments in `kargv`.
-/
def copyKargvLoop (env : ExecEnv φ) (argv : Nat) : Nat → List Nat → ExecM φ (List Nat)
  | 0, kargv => pure kargv
  | n + 1, kargv => do
    let s ← Prog.get
    match env.kmalloc s.live with
    | none =>
      putKargv kargv
      Prog.throw (.ret (-Errno.noMem.toInt))
    | some buffer =>
      Prog.modify fun s => { s with live := insert buffer s.live }
      let (ok, data) ← copyString (s.block buffer) (argvAt s.mem argv kargv.length) (execMaxArgLen + 1)
      Prog.modify fun s => { s with block := Function.update s.block buffer data }
      if ok then
        copyKargvLoop env argv n (kargv ++ [buffer])
      else
        kfree buffer
        putKargv kargv
        Prog.throw (.ret (-Errno.inval.toInt))

def copyKargv (env : ExecEnv φ) (argc argv : Nat) : ExecM φ (List Nat) := do
  let ok ← userMemCheck argv (8 * argc)
  if ok then
    copyKargvLoop env argv argc []
  else
    Prog.throw (.ret (-Errno.inval.toInt))

def lockMm : ExecM φ Unit := Prog.modify fun s => if s.mm.isSome then { s with locked := true } else s

def unlockMm : ExecM φ Unit := Prog.modify fun s => if s.mm.isSome then { s with locked := false } else s

/--
`local_name` of `do_execve`.
-/
def localName (name : Nat) : ExecM φ (Nat → BitVec 8) := do
  let s ← Prog.get
  if name = 0 then
    return nullName s.pid
  else
    let (ok, data) ← copyString (fun _ => 0) name (procNameLen + 1)
    if ok then
      return data
    else
      Prog.throw (.ret (-Errno.inval.toInt))

/--
`files_closeall` and `sysfile_open`.
-/
def reopen (env : ExecEnv φ) (path : Nat) : ExecM φ Int := do
  Prog.modify fun s => { s with files := env.filesCloseall s.files, gaveUp := true }
  let s ← Prog.get
  let (fd, files) := env.sysfileOpen s.files path
  Prog.modify fun s => { s with files }
  return fd

/--
What happens to the pages of the old address space when nobody else uses it is not part of the state.
-/
def dropMm : ExecM φ Unit := Prog.modify fun s =>
  if s.mm.isSome then { s with mm := none, mmCount := s.mmCount - 1, gaveUp := true } else s

def loadIcode (env : ExecEnv φ) (fd : Int) (kargv : List Nat) : ExecM φ Int := do
  let s ← Prog.get
  let copies := kargv.map s.block
  match env.loadIcode s.files fd copies with
  | none => Prog.panic .loadIcode
  | some new =>
    Prog.modify fun s => { s with files := new.files, loaded := some copies }
    Prog.when (new.ret = 0) <|
      Prog.modify fun s => { s with mm := some new.mm, mmCount := 1, mem := new.mem }
    return new.ret

/--
The label `execve_exit`.
-/
def execveExit (kargv : List Nat) (ret : Int) : ExecM φ Int := do
  putKargv kargv
  Prog.throw (.exit ret)

def setProcName (name : Nat → BitVec 8) : ExecM φ Unit :=
  Prog.modify fun s => { s with name := fun k => if k < procNameLen then name k else 0 }

def doExecve (env : ExecEnv φ) (name : Nat) (argc : Int) (argv : Nat) : ExecM φ Int := do
  if argc ≥ 1 ∧ argc ≤ LoadM.execMaxArgNum then
    lockMm
    let localName ← Prog.onError (localName name) unlockMm
    let kargv ← Prog.onError (copyKargv env argc.toNat argv) unlockMm
    let s ← Prog.get
    let path := argvAt s.mem argv 0
    unlockMm
    let fd ← reopen env path
    if fd < 0 then
      execveExit kargv fd
    else
      dropMm
      let ret ← loadIcode env fd kargv
      if ret ≠ 0 then
        execveExit kargv ret
      else
        putKargv kargv
        setProcName localName
        return 0
  else
    Prog.throw (.ret (-Errno.inval.toInt))

end ExecM
end Ucore

import Mathlib
import Ucore.Libs.Error
import Ucore.Libs.Hash

/-!
This module contains the process table of kern/process/proc.c and the functions that change it.

A `proc_struct` is its address, a pointer to one is an `Option` of it. `proc_list` and the hash
buckets are the lists of their members in list order. The functions return `none` where an
assertion fails, the kernel panics, a null pointer is followed or a loop does not end.
-/

namespace Ucore

inductive ProcState where
  | uninit
  | sleeping
  | runnable
  | zombie
  deriving DecidableEq

structure ProcStruct where
  state : ProcState
  pid : Int
  parent : Option Nat
  flags : BitVec 32
  exitCode : Int
  waitState : BitVec 32
  cptr : Option Nat
  yptr : Option Nat
  optr : Option Nat

def maxProcess : Int := 4096

def maxPid : Int := maxProcess * 2

def pfExiting : BitVec 32 := 0x00000001

def wtInterrupted : BitVec 32 := 0x80000000

def wtChild : BitVec 32 := 0x00000001 ||| wtInterrupted

def wtKsem : BitVec 32 := 0x00000100

def wtTimer : BitVec 32 := 0x00000002 ||| wtInterrupted

def wtKbd : BitVec 32 := 0x00000004 ||| wtInterrupted

def hashShift : Nat := 10

def pidHashfn (pid : Int) : Nat := (hash32 (BitVec.ofInt 32 pid) hashShift).toNat

/--
The global variables of the process manager together with the memory of all `proc_struct`s.
`allocated` says which addresses hold one, the other addresses hold whatever was left there.
-/
structure ProcTable where
  procs : Nat → ProcStruct
  allocated : Nat → Bool
  procList : List Nat
  hashList : Nat → List Nat
  nrProcess : Int
  lastPid : Int
  nextSafe : Int
  current : Nat
  idleproc : Nat
  initproc : Nat

namespace ProcTable

def modify (s : ProcTable) (proc : Nat) (f : ProcStruct → ProcStruct) : ProcTable :=
  { s with procs := Function.update s.procs proc (f (s.procs proc)) }

def setParent (s : ProcTable) (proc : Nat) (parent : Option Nat) : ProcTable :=
  s.modify proc fun p => { p with parent }

def setCptr (s : ProcTable) (proc : Nat) (cptr : Option Nat) : ProcTable :=
  s.modify proc fun p => { p with cptr }

def setYptr (s : ProcTable) (proc : Nat) (yptr : Option Nat) : ProcTable :=
  s.modify proc fun p => { p with yptr }

def setOptr (s : ProcTable) (proc : Nat) (optr : Option Nat) : ProcTable :=
  s.modify proc fun p => { p with optr }

/--
`kmalloc` answers with an address that is not in use. `alloc_proc` leaves `exit_code` as it is.
-/
def allocProc (s : ProcTable) (proc : Nat) : ProcTable :=
  let s := s.modify proc fun p =>
    { p with
      state := .uninit
      pid := -1
      parent := none
      flags := 0
      waitState := 0
      cptr := none
      yptr := none
      optr := none }
  { s with allocated := Function.update s.allocated proc true }

def kfree (s : ProcTable) (proc : Nat) : ProcTable :=
  { s with allocated := Function.update s.allocated proc false }

def setLinks (s : ProcTable) (proc : Nat) : Option ProcTable := do
  let s := { s with procList := proc :: s.procList }
  let s := s.setYptr proc none
  let parent ← (s.procs proc).parent
  let optr := (s.procs parent).cptr
  let s := s.setOptr proc optr
  let s :=
    match optr with
    | some optr => s.setYptr optr (some proc)
    | none => s
  let s := s.setCptr parent (some proc)
  return { s with nrProcess := s.nrProcess + 1 }

def removeLinks (s : ProcTable) (proc : Nat) : Option ProcTable := do
  let s := { s with procList := s.procList.erase proc }
  let s :=
    match (s.procs proc).optr with
    | some optr => s.setYptr optr (s.procs proc).yptr
    | none => s
  let s ←
    match (s.procs proc).yptr with
    | some yptr => some (s.setOptr yptr (s.procs proc).optr)
    | none => do
      let parent ← (s.procs proc).parent
      some (s.setCptr parent (s.procs proc).optr)
  return { s with nrProcess := s.nrProcess - 1 }

/--
How one pass of `get_pid` over `proc_list` ends: with `goto repeat` or at the end of the list.
-/
inductive PidPass where
  | again (lastPid : Int)
  | done (lastPid nextSafe : Int)

def getPidPass : List Int → Int → Int → PidPass
  | [], lastPid, nextSafe => .done lastPid nextSafe
  | pid :: pids, lastPid, nextSafe =>
    if pid = lastPid then
      if lastPid + 1 ≥ nextSafe then
        .again (if lastPid + 1 ≥ maxPid then 1 else lastPid + 1)
      else
        getPidPass pids (lastPid + 1) nextSafe
    else if pid > lastPid ∧ nextSafe > pid then
      getPidPass pids lastPid pid
    else
      getPidPass pids lastPid nextSafe

def getPidRepeat (pids : List Int) : Nat → Int → Option (Int × Int)
  | 0, _ => none
  | fuel + 1, lastPid =>
    match getPidPass pids lastPid maxPid with
    | .again lastPid => getPidRepeat pids fuel lastPid
    | .done lastPid nextSafe => some (lastPid, nextSafe)

/--
The number of passes one call of `get_pid` may take.
-/
def pidFuel : Nat := maxPid.toNat

def pids (s : ProcTable) : List Int := s.procList.map fun proc => (s.procs proc).pid

def getPid (s : ProcTable) : Option (Int × ProcTable) :=
  let lastPid := s.lastPid + 1
  let inside (lastPid : Int) := do
    let (lastPid, nextSafe) ← getPidRepeat s.pids pidFuel lastPid
    some (lastPid, { s with lastPid, nextSafe })
  if lastPid ≥ maxPid then
    inside 1
  else if lastPid ≥ s.nextSafe then
    inside lastPid
  else
    some (lastPid, { s with lastPid })

def hashProc (s : ProcTable) (proc : Nat) : ProcTable :=
  let i := pidHashfn (s.procs proc).pid
  { s with hashList := Function.update s.hashList i (proc :: s.hashList i) }

/--
`list_del` takes the node out of the list it is in, whichever that is.
-/
def unhashProc (s : ProcTable) (proc : Nat) : ProcTable :=
  { s with hashList := fun i => (s.hashList i).erase proc }

def findProc (s : ProcTable) (pid : Int) : Option Nat :=
  if 0 < pid ∧ pid < maxPid then
    (s.hashList (pidHashfn pid)).find? fun proc => (s.procs proc).pid = pid
  else
    none

def wakeupProc (s : ProcTable) (proc : Nat) : Option ProcTable :=
  if (s.procs proc).state = .zombie then
    none
  else if (s.procs proc).state ≠ .runnable then
    some (s.modify proc fun p => { p with state := .runnable, waitState := 0 })
  else
    some s

/--
What the calls that can fail for lack of memory answer during a `do_fork`: `kmalloc` with the address
of the new `proc_struct`, `setup_kstack`, `copy_mm` and `copy_files` with success or failure.
-/
structure ForkAnswers where
  proc : Option Nat
  kstack : Bool
  mm : Bool
  files : Bool

/--
The result is the return value: a pid, or an error code with its sign.
-/
def doFork (s : ProcTable) (ans : ForkAnswers) : Option (Except Errno Int × ProcTable) :=
  if s.nrProcess ≥ maxProcess then
    some (.error .noFreeProc, s)
  else
    match ans.proc with
    | none => some (.error .noMem, s)
    | some proc => do
      let s := s.allocProc proc
      let s := s.setParent proc (some s.current)
      if (s.procs s.current).waitState ≠ 0 then
        none
      else if !(ans.kstack && ans.mm && ans.files) then
        -- each of the three failures frees the proc_struct again
        some (.error .noMem, s.kfree proc)
      else
        let (pid, s) ← s.getPid
        let s := s.modify proc fun p => { p with pid }
        let s := s.hashProc proc
        let s ← s.setLinks proc
        let s ← s.wakeupProc proc
        return (.ok pid, s)

/--
The number of `proc_struct`s on `proc_list` bounds the steps of a loop over siblings.
-/
def siblingFuel (s : ProcTable) : Nat := s.procList.length + 1

/--
The pointer writes in the `while` loop of `do_exit`, which move `proc` to `initproc`.
-/
def moveToInit (s : ProcTable) (proc : Nat) : ProcTable :=
  let s := s.setCptr s.current (s.procs proc).optr
  let s := s.setYptr proc none
  let optr := (s.procs s.initproc).cptr
  let s := s.setOptr proc optr
  let s :=
    match optr with
    | some optr => s.setYptr optr (some proc)
    | none => s
  let s := s.setParent proc (some s.initproc)
  s.setCptr s.initproc (some proc)

/--
The `while` loop of `do_exit`.
-/
def reparent : Nat → ProcTable → Option ProcTable
  | 0, _ => none
  | fuel + 1, s =>
    match (s.procs s.current).cptr with
    | none => some s
    | some proc => do
      let s := s.moveToInit proc
      if (s.procs proc).state = .zombie ∧ (s.procs s.initproc).waitState = wtChild then
        reparent fuel (← s.wakeupProc s.initproc)
      else
        reparent fuel s

/--
`do_exit` up to its call of `schedule`, which does not come back.
-/
def doExit (s : ProcTable) (errorCode : Int) : Option ProcTable :=
  if s.current = s.idleproc ∨ s.current = s.initproc then
    none
  else do
    let s := s.modify s.current fun p => { p with state := .zombie, exitCode := errorCode }
    let proc ← (s.procs s.current).parent
    if (s.procs proc).waitState = wtChild then
      let s ← s.wakeupProc proc
      reparent s.siblingFuel s
    else
      reparent s.siblingFuel s

/--
The loop over the children in `do_wait`: `haskid` and the child it stops at.
-/
def findZombie (s : ProcTable) : Nat → Option Nat → Bool → Option (Bool × Option Nat)
  | 0, _, _ => none
  | _ + 1, none, haskid => some (haskid, none)
  | fuel + 1, some proc, _ =>
    if (s.procs proc).state = .zombie then
      some (true, some proc)
    else
      findZombie s fuel (s.procs proc).optr true

/--
The part of `do_wait` between `repeat` and the test of `haskid`.
-/
def waitScan (s : ProcTable) (pid : Int) : Option (Bool × Option Nat) :=
  if pid ≠ 0 then
    match s.findProc pid with
    | some proc =>
      if (s.procs proc).parent = some s.current then
        some (true, if (s.procs proc).state = .zombie then some proc else none)
      else
        some (false, none)
    | none => some (false, none)
  else
    s.findZombie s.siblingFuel (s.procs s.current).cptr false

/--
The part of `do_wait` behind `found`. It frees the `proc_struct`, the result is the exit code of the
child.
-/
def reap (s : ProcTable) (proc : Nat) : Option (Int × ProcTable) :=
  if proc = s.idleproc ∨ proc = s.initproc then
    none
  else do
    let exitCode := (s.procs proc).exitCode
    let s ← (s.unhashProc proc).removeLinks proc
    return (exitCode, s.kfree proc)

/--
How a call of `do_wait` goes on: it goes to sleep in front of `schedule`, it returns an error, or it
has freed `proc` and returns its exit code.
-/
inductive WaitResult where
  | asleep
  | error (e : Errno)
  | found (proc : Nat) (exitCode : Int)
  deriving DecidableEq

/--
`do_wait` from `repeat` on.
-/
def waitRepeat (s : ProcTable) (pid : Int) : Option (WaitResult × ProcTable) := do
  let (haskid, found) ← s.waitScan pid
  match found with
  | some proc =>
    let (exitCode, s) ← s.reap proc
    return (.found proc exitCode, s)
  | none =>
    if haskid then
      return (.asleep, s.modify s.current fun p => { p with state := .sleeping, waitState := wtChild })
    else
      return (.error .badProc, s)

/--
`codeStore` is `none` for a null pointer, otherwise it says what `user_mem_check` answers.
-/
def doWait (s : ProcTable) (pid : Int) (codeStore : Option Bool)
    : Option (WaitResult × ProcTable) :=
  if codeStore = some false then
    some (.error .inval, s)
  else
    s.waitRepeat pid

def doKill (s : ProcTable) (pid : Int) : Option (Except Errno Unit × ProcTable) :=
  match s.findProc pid with
  | some proc =>
    if (s.procs proc).flags &&& pfExiting = 0 then do
      let s := s.modify proc fun p => { p with flags := p.flags ||| pfExiting }
      if (s.procs proc).waitState &&& wtInterrupted ≠ 0 then
        return (.ok (), ← s.wakeupProc proc)
      else
        return (.ok (), s)
    else
      some (.error .killed, s)
  | none => some (.error .inval, s)

/--
The part of `proc_init` that makes `idleproc`: `procs` is what memory holds before, `idle` is the
address that `kmalloc` answers with.
-/
def idleTable (procs : Nat → ProcStruct) (idle : Nat) : ProcTable :=
  let s : ProcTable :=
    { procs
      allocated := fun _ => false
      procList := []
      hashList := fun _ => []
      nrProcess := 0
      lastPid := maxPid
      nextSafe := maxPid
      current := idle
      idleproc := idle
      initproc := 0 }
  let s := s.allocProc idle
  let s := s.modify idle fun p => { p with pid := 0, state := .runnable }
  { s with nrProcess := s.nrProcess + 1 }

/--
`proc_init`. Its call of `kernel_thread` is a `do_fork` in which `kmalloc` answers with `init`.
-/
def procInit (procs : Nat → ProcStruct) (idle init : Nat) : Option ProcTable := do
  let r ← (idleTable procs idle).doFork { proc := some init, kstack := true, mm := true, files := true }
  match r with
  | (.error _, _) => none
  | (.ok pid, s) =>
    if pid ≤ 0 then
      none
    else
      let initproc ← s.findProc pid
      let s := { s with initproc }
      if (s.procs s.idleproc).pid = 0 ∧ (s.procs s.initproc).pid = 1 then some s else none

end ProcTable
end Ucore

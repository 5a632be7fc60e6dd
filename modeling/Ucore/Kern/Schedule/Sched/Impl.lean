import Mathlib
import Ucore.Lib.SkewHeap
import Ucore.Kern.Process.Proc.Impl

/-!
This module contains the run queue of kern/schedule/sched.c and the stride scheduler of
kern/schedule/default_sched_stride.c. The nodes of the run pool are the processes, the comparison of two
nodes reads their strides. The functions return `none` where an assertion fails.
-/

namespace Ucore

/--
The fields of `struct proc_struct` that the scheduler reads and writes. `rq` says that the pointer to the run
queue is set.
-/
structure SchedProc where
  state : ProcState
  waitState : BitVec 32
  runs : Nat
  needResched : Bool
  rq : Bool
  timeSlice : BitVec 32
  lab6Stride : BitVec 32
  lab6Priority : BitVec 32
  deriving DecidableEq

def bigStride : Nat := 2 ^ 30

def maxTimeSlice : BitVec 32 := 5

/--
What `stride_pick_next` adds to the stride.
-/
def SchedProc.pace (p : SchedProc) : BitVec 32 :=
  if p.lab6Priority ≠ 0 then BitVec.ofNat 32 bigStride / p.lab6Priority else BitVec.ofNat 32 bigStride

structure Sched where
  procs : Nat → SchedProc
  lab6RunPool : SkewHeap Nat
  procNum : Nat
  current : Nat
  idleproc : Nat

namespace Sched

def modify (s : Sched) (proc : Nat) (f : SchedProc → SchedProc) : Sched :=
  { s with procs := Function.update s.procs proc (f (s.procs proc)) }

def procStrideCompF (s : Sched) (p q : Nat) : Int :=
  let c := (s.procs p).lab6Stride - (s.procs q).lab6Stride
  if c.toInt > 0 then 1 else if c.toInt = 0 then 0 else -1

/--
The test of `skew_heap_merge`.
-/
def before (s : Sched) (p q : Nat) : Bool := s.procStrideCompF p q = -1

def strideEnqueue (s : Sched) (proc : Nat) : Sched :=
  let s := { s with lab6RunPool := s.lab6RunPool.insert s.before proc }
  let s := s.modify proc fun p =>
    { p with
      timeSlice := if p.timeSlice = 0 ∨ p.timeSlice.toInt > maxTimeSlice.toInt then maxTimeSlice else p.timeSlice
      rq := true }
  { s with procNum := s.procNum + 1 }

def strideDequeue (s : Sched) (proc : Nat) : Option Sched :=
  if (s.procs proc).rq ∧ s.procNum > 0 then
    some { s with lab6RunPool := s.lab6RunPool.remove s.before proc, procNum := s.procNum - 1 }
  else
    none

def stridePickNext (s : Sched) : Option Nat × Sched :=
  match s.lab6RunPool.root? with
  | none => (none, s)
  | some proc => (some proc, s.modify proc fun p => { p with lab6Stride := p.lab6Stride + p.pace })

/--
A `time_slice` is an `int`, a negative one stays as it is.
-/
def strideProcTick (s : Sched) (proc : Nat) : Sched :=
  let s := s.modify proc fun p => if p.timeSlice.toInt > 0 then { p with timeSlice := p.timeSlice - 1 } else p
  s.modify proc fun p => if p.timeSlice = 0 then { p with needResched := true } else p

def schedClassEnqueue (s : Sched) (proc : Nat) : Sched := if proc ≠ s.idleproc then s.strideEnqueue proc else s

def schedClassProcTick (s : Sched) (proc : Nat) : Sched :=
  if proc ≠ s.idleproc then s.strideProcTick proc else s.modify proc fun p => { p with needResched := true }

def wakeupProc (s : Sched) (proc : Nat) : Option Sched :=
  if (s.procs proc).state = .zombie then
    none
  else if (s.procs proc).state ≠ .runnable then
    let s := s.modify proc fun p => { p with state := .runnable, waitState := 0 }
    some (if proc ≠ s.current then s.schedClassEnqueue proc else s)
  else
    some s

/--
`schedule` up to the choice of the next process.
-/
def putBack (s : Sched) : Sched :=
  let s := s.modify s.current fun p => { p with needResched := false }
  if (s.procs s.current).state = .runnable then s.schedClassEnqueue s.current else s

/--
The rest of `schedule`, `proc_run` makes the next process the current one.
-/
def runNext (s : Sched) : Option Sched :=
  let dequeued :=
    match s.stridePickNext with
    | (none, s) => some (s.idleproc, s)
    | (some next, s) => (s.strideDequeue next).map fun s => (next, s)
  dequeued.map fun r => { r.2.modify r.1 fun p => { p with runs := p.runs + 1 } with current := r.1 }

def schedule (s : Sched) : Option Sched := s.putBack.runNext

def lab6SetPriority (s : Sched) (priority : BitVec 32) : Sched :=
  s.modify s.current fun p => { p with lab6Priority := if priority = 0 then 1 else priority }

end Sched
end Ucore

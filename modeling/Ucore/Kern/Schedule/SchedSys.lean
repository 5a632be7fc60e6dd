import Ucore.Lib.Run
import Ucore.Kern.Schedule.Timer
import Ucore.Kern.Schedule.Sched.Impl

/-!
This module contains the processes of the kernel as the scheduler sees them: they are made by `do_fork`, wait
for a child, a timer or a semaphore, are woken up, and exit. A step is what a process or an interrupt does
between two points at which something else can happen; going to sleep and the call of `schedule` behind it are
two steps.

A step has no result where an assertion fails.
-/

namespace Ucore

/--
Where a process is: `running` is everything outside the functions that wait, `free` is an address without a
`proc_struct`.
-/
inductive SchedPlace where
  | free
  | running
  | doWait
  | doSleep
  | semWait
  | exited
  deriving DecidableEq

/--
The scheduler, the timer list and the wait queues of the semaphores and of the keyboard.
-/
structure SchedSys where
  sched : Sched
  place : Nat → SchedPlace
  timers : List Timer
  queue : List Nat

/--
`exit` has the processes that `do_exit` tests: the parent, and `initproc` for every child that is a zombie.
The memory of `do_fork` and the processes that `do_kill` finds are up to the event.
-/
inductive SchedEvent where
  | fork (child : Nat) (fails : Bool)
  | exit (wakes : List Nat)
  | wait
  | reap (child : Nat)
  | sleep (time : BitVec 32)
  | block (waitState : BitVec 32)
  | schedule
  | resume
  | wakeupWait (proc : Nat)
  | kill (proc : Nat)
  | tick
  | setPriority (priority : BitVec 32)
  deriving DecidableEq

namespace Sched

/--
The other fields keep what the memory holds.
-/
def allocProc (s : Sched) (proc : Nat) : Sched :=
  s.modify proc fun p => { p with state := .uninit, waitState := 0, runs := 0, needResched := false }

def setSleeping (s : Sched) (waitState : BitVec 32) : Sched :=
  s.modify s.current fun p => { p with state := .sleeping, waitState }

/--
The tests of `do_exit` on the processes that may wait for a child.
-/
def wakeParents : List Nat → Sched → Option Sched
  | [], s => some s
  | proc :: procs, s =>
    if (s.procs proc).waitState = wtChild then (s.wakeupProc proc).bind (wakeParents procs) else wakeParents procs s

def runTimers : List Timer → Sched → Option (List Timer × Sched)
  | [], s => some ([], s)
  | timer :: rest, s =>
    if timer.expires = 0 then
      let waitState := (s.procs timer.proc).waitState
      if waitState ≠ 0 ∧ waitState &&& wtInterrupted = 0 then
        none
      else
        (s.wakeupProc timer.proc).bind (runTimers rest)
    else
      some (timer :: rest, s)

def runTimerList (timers : List Timer) (s : Sched) : Option (List Timer × Sched) :=
  let expired :=
    match timers with
    | [] => some ([], s)
    | timer :: rest =>
      if timer.expires = 0 then none else runTimers ({ timer with expires := timer.expires - 1 } :: rest) s
  expired.map fun r => (r.1, r.2.schedClassProcTick r.2.current)

end Sched

namespace SchedSys

/--
`proc_init` has made `idleproc`.
-/
def boot (procs : Nat → SchedProc) (idle : Nat) : SchedSys where
  sched :=
    { procs := Function.update procs idle
        { procs idle with state := .runnable, waitState := 0, runs := 0, needResched := true }
      lab6RunPool := .nil
      procNum := 0
      current := idle
      idleproc := idle }
  place := Function.update (fun _ => .free) idle .running
  timers := []
  queue := []

def setPlace (s : SchedSys) (proc : Nat) (c : SchedPlace) : SchedSys :=
  { s with place := Function.update s.place proc c }

/--
The events that can happen in a state.
-/
def Legal (s : SchedSys) : SchedEvent → Prop
  | .fork child _ => s.place s.sched.current = .running ∧ s.place child = .free
  | .exit wakes =>
    s.place s.sched.current = .running ∧ s.sched.current ≠ s.sched.idleproc ∧ ∀ proc ∈ wakes, s.place proc ≠ .free
  | .wait => s.place s.sched.current = .running ∧ s.sched.current ≠ s.sched.idleproc
  | .reap child => s.place s.sched.current = .running ∧ s.place child = .exited
  | .sleep _ => s.place s.sched.current = .running ∧ s.sched.current ≠ s.sched.idleproc
  | .block waitState =>
    s.place s.sched.current = .running ∧ s.sched.current ≠ s.sched.idleproc ∧ waitState ∈ [wtKsem, wtKbd]
  | .schedule => True
  | .resume =>
    s.place s.sched.current ∈ [.doWait, .doSleep, .semWait] ∧ (s.sched.procs s.sched.current).state = .runnable
  | .wakeupWait proc => proc ∈ s.queue
  | .kill proc => s.place proc ≠ .free
  | .tick => True
  | .setPriority _ => s.place s.sched.current = .running

instance (s : SchedSys) : (ev : SchedEvent) → Decidable (s.Legal ev)
  | .fork _ _ | .wait | .reap _ | .sleep _ | .resume => inferInstanceAs (Decidable (_ ∧ _))
  | .exit _ | .block _ => inferInstanceAs (Decidable (_ ∧ _ ∧ _))
  | .schedule | .tick => inferInstanceAs (Decidable True)
  | .wakeupWait _ => inferInstanceAs (Decidable (_ ∈ _))
  | .kill _ => inferInstanceAs (Decidable (_ ≠ _))
  | .setPriority _ => inferInstanceAs (Decidable (_ = _))

def step (s : SchedSys) : SchedEvent → Option SchedSys
  | .fork child fails =>
    let sched := s.sched.allocProc child
    if (sched.procs sched.current).waitState ≠ 0 then
      none
    else if fails then
      some { s with sched }
    else
      (sched.wakeupProc child).map fun sched => { s with sched }.setPlace child .running
  | .exit wakes =>
    let sched := s.sched.modify s.sched.current fun p => { p with state := .zombie }
    (sched.wakeParents wakes).map fun sched => { s with sched }.setPlace s.sched.current .exited
  | .wait => some ({ s with sched := s.sched.setSleeping wtChild }.setPlace s.sched.current .doWait)
  | .reap child => some (s.setPlace child .free)
  | .sleep time =>
    if time = 0 then
      some s
    else
      let timers := Timer.addTimer s.timers { expires := time.toNat, proc := s.sched.current }
      some ({ s with sched := s.sched.setSleeping wtTimer, timers }.setPlace s.sched.current .doSleep)
  | .block waitState =>
    let queue := s.queue ++ [s.sched.current]
    some ({ s with sched := s.sched.setSleeping waitState, queue }.setPlace s.sched.current .semWait)
  | .schedule => s.sched.schedule.map fun sched => { s with sched }
  | .resume =>
    let timers := if s.place s.sched.current = .doSleep then Timer.delTimer s.sched.current s.timers else s.timers
    some ({ s with timers, queue := s.queue.erase s.sched.current }.setPlace s.sched.current .running)
  | .wakeupWait proc =>
    (s.sched.wakeupProc proc).map fun sched => { s with sched, queue := s.queue.erase proc }
  | .kill proc =>
    if (s.sched.procs proc).waitState &&& wtInterrupted ≠ 0 then
      (s.sched.wakeupProc proc).map fun sched => { s with sched }
    else
      some s
  | .tick => (s.sched.runTimerList s.timers).map fun r => { s with timers := r.1, sched := r.2 }
  | .setPriority priority => some { s with sched := s.sched.lab6SetPriority priority }

end SchedSys
end Ucore

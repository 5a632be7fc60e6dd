import Ucore.Kern.Schedule.SchedSys
import Ucore.Kern.Sync.Sem

/-!
This module contains a semaphore of the kernel among everything else that happens to the processes. A `down` that
has to wait is two steps: the process goes into the wait queue, and it comes back behind the call of `schedule`.

A step has no result where an assertion fails.
-/

namespace Ucore

/--
The processes whose `down` waits or has not come back are in `inDown`, with the `wakeup_flags` of their entries.
What has happened so far: the calls of `up` and `down` that have come back, and the processes in the order in which
they have started to wait and in which they have got the semaphore.
-/
structure SemSys where
  sys : SchedSys
  sem : Semaphore Nat
  wakeupFlags : Nat → BitVec 32
  inDown : List Nat
  ups : Nat
  downs : Nat
  started : List Nat
  granted : List Nat

/--
`other` is a step that does not concern the semaphore.
-/
inductive SemEvent where
  | down
  | finish
  | up
  | other (ev : SchedEvent)
  deriving DecidableEq

namespace SemSys

/--
`sem_init`.
-/
def init (sys : SchedSys) (value : BitVec 32) : SemSys where
  sys := sys
  sem := Semaphore.semInit value
  wakeupFlags := fun _ => 0
  inDown := []
  ups := 0
  downs := 0
  started := []
  granted := []

/--
The events that can happen in a state. `idleproc` only takes a semaphore that is free, and the other steps wake up
from other wait queues.
-/
def Legal (s : SemSys) : SemEvent → Prop
  | .down =>
    s.sys.place s.sys.sched.current = .running ∧
      (s.sys.sched.current = s.sys.sched.idleproc → s.sem.value.toInt > 0)
  | .finish => s.sys.sched.current ∈ s.inDown ∧ s.sys.Legal .resume
  | .up => True
  | .other ev =>
    s.sys.Legal ev ∧ (ev = .resume → s.sys.sched.current ∉ s.inDown) ∧
      ∀ proc ∈ s.sem.waitQueue, ev ≠ .wakeupWait proc

instance (s : SemSys) : (ev : SemEvent) → Decidable (s.Legal ev)
  | .down | .finish => inferInstanceAs (Decidable (_ ∧ _))
  | .up => inferInstanceAs (Decidable True)
  | .other _ => inferInstanceAs (Decidable (_ ∧ _ ∧ _))

def step (s : SemSys) : SemEvent → Option SemSys
  | .down =>
    let proc := s.sys.sched.current
    match s.sem.down proc with
    | (false, sem) => some { s with sem, downs := s.downs + 1 }
    | (true, sem) =>
      (s.sys.step (.block wtKsem)).map fun sys =>
        { s with
          sys, sem
          wakeupFlags := Function.update s.wakeupFlags proc wtInterrupted
          inDown := s.inDown ++ [proc]
          started := s.started ++ [proc] }
  | .finish =>
    let proc := s.sys.sched.current
    if Semaphore.downFlags (s.wakeupFlags proc) wtKsem = 0 then
      (s.sys.step .resume).map fun sys =>
        { s with sys, sem := s.sem.waitCurrentDel proc, inDown := s.inDown.erase proc, downs := s.downs + 1 }
    else
      none
  | .up =>
    match s.sem.up with
    | (none, sem) => some { s with sem, ups := s.ups + 1 }
    | (some proc, sem) =>
      if (s.sys.sched.procs proc).waitState = wtKsem then
        (s.sys.step (.wakeupWait proc)).map fun sys =>
          { s with
            sys, sem
            wakeupFlags := Function.update s.wakeupFlags proc wtKsem
            ups := s.ups + 1
            granted := s.granted ++ [proc] }
      else
        none
  | .other ev => (s.sys.step ev).map fun sys => { s with sys }

/--
The processes that have got the semaphore from an `up` and have not come back with it.
-/
def handedOver (s : SemSys) : List Nat := s.inDown.filter fun proc => proc ∉ s.sem.waitQueue

/--
What the order of the processes is about: a `down` that does not wait overtakes nobody, a process that waits
sleeps until its turn comes, and the turns come in the order of the queue.
-/
structure Ordered (s : SemSys) : Prop where
  queue : s.sem.value.toInt > 0 → s.sem.waitQueue = []
  order : s.started = s.granted ++ s.sem.waitQueue
  waiting : ∀ proc ∈ s.sem.waitQueue, proc ∈ s.inDown ∧ (s.sys.sched.procs proc).state = .sleeping
  handedOver : ∀ proc ∈ s.handedOver, proc ∈ s.granted ∧ (s.sys.sched.procs proc).state = .runnable

/--
The units of the semaphore are in its value, with the processes that are through, or on the way to a process.
-/
structure Conserved (value : BitVec 32) (s : SemSys) : Prop where
  nonneg : 0 ≤ s.sem.value.toInt
  total : value.toInt + s.ups = s.sem.value.toInt + s.downs + s.handedOver.length

/--
No `up` adds to the largest `int`.
-/
def NoOverflow (s : SemSys) (ev : SemEvent) : Prop :=
  ev = .up → s.sem.waitQueue = [] → s.sem.value.toInt + 1 < 2 ^ 31

instance (s : SemSys) (ev : SemEvent) : Decidable (s.NoOverflow ev) :=
  inferInstanceAs (Decidable (_ → _ → _))

end SemSys
end Ucore

import Ucore.Kern.Process.Proc.Impl
import Ucore.Lib.Run

/-!
This module contains the processes of the kernel as a system in which one process runs at a time. A
process runs from one call of `schedule` to the next, a call of kern/process/proc.c is one step.
-/

namespace Ucore

open ProcTable (ForkAnswers WaitResult)

/--
The process table together with where the processes are that are not running: `waiting p` is the
argument of the `do_wait` in which `p` is about to go on behind `schedule`.

The other fields record what has happened: how often the `proc_struct` at an address has become a
zombie, how often it has been freed, and the process that has made it, with the number of exits at the
address of that process up to then.
-/
structure ProcSys where
  tab : ProcTable
  waiting : Nat → Option Int
  exited : Nat → Nat
  freed : Nat → Nat
  origin : Nat → Nat × Nat

inductive ProcEvent where
  | fork (ans : ForkAnswers)
  | exit (errorCode : Int)
  | wait (pid : Int) (codeStore : Option Bool)
  | resume
  | kill (pid : Int)
  | block (waitState : BitVec 32)
  | wakeup (proc : Nat)
  | schedule (next : Nat)

namespace ProcSys

def boot (tab : ProcTable) : ProcSys where
  tab
  waiting := fun _ => none
  exited := fun _ => 0
  freed := fun _ => 0
  origin := fun _ => (tab.idleproc, 0)

/--
The current process can make a call. `idleproc` makes none, it runs `cpu_idle`.
-/
def Running (s : ProcSys) : Prop :=
  s.tab.current ≠ s.tab.idleproc ∧ (s.tab.procs s.tab.current).state = .runnable ∧
    s.waiting s.tab.current = none

instance (s : ProcSys) : Decidable s.Running :=
  inferInstanceAs (Decidable (_ ∧ _ ∧ _))

def recordFork (s : ProcSys) (ans : ForkAnswers) : Except Errno Int × ProcTable → ProcSys
  | (.ok _, tab) =>
    match ans.proc with
    | some proc =>
      { s with
        tab
        origin := Function.update s.origin proc (s.tab.current, s.exited s.tab.current) }
    | none => { s with tab }
  | (.error _, tab) => { s with tab }

def exit (s : ProcSys) (errorCode : Int) : Option ProcSys := do
  let tab ← s.tab.doExit errorCode
  return { s with
    tab
    waiting := Function.update s.waiting s.tab.current none
    exited := Function.update s.exited s.tab.current (s.exited s.tab.current + 1) }

def recordWait (s : ProcSys) (pid : Int) : WaitResult × ProcTable → ProcSys
  | (.asleep, tab) =>
    { s with tab, waiting := Function.update s.waiting s.tab.current (some pid) }
  | (.error _, tab) =>
    { s with tab, waiting := Function.update s.waiting s.tab.current none }
  | (.found proc _, tab) =>
    { s with
      tab
      waiting := Function.update s.waiting s.tab.current none
      freed := Function.update s.freed proc (s.freed proc + 1) }

/--
`schedule` takes any process that is runnable, and `idleproc` if there is none.
-/
def MaySchedule (tab : ProcTable) (next : Nat) : Prop :=
  (next ∈ tab.procList ∧ (tab.procs next).state = .runnable) ∨
    (next = tab.idleproc ∧ ∀ proc ∈ tab.procList, (tab.procs proc).state ≠ .runnable)

instance (tab : ProcTable) (next : Nat) : Decidable (MaySchedule tab next) :=
  inferInstanceAs (Decidable (_ ∨ _))

/--
`block` stands for the waits of a process on a semaphore, a timer or the keyboard, `wakeup` for their
ends. A killed process goes on in `do_wait` with a `do_exit`.
-/
def step (s : ProcSys) : ProcEvent → Option ProcSys
  | .fork ans =>
    if s.Running ∧ ∀ proc ∈ ans.proc, s.tab.allocated proc = false then
      (s.tab.doFork ans).map (s.recordFork ans)
    else
      none
  | .exit errorCode => if s.Running then s.exit errorCode else none
  | .wait pid codeStore =>
    if s.Running then
      (s.tab.doWait pid codeStore).map (s.recordWait pid)
    else
      none
  | .resume =>
    match s.waiting s.tab.current with
    | none => none
    | some pid =>
      if s.tab.current ≠ s.tab.idleproc ∧ (s.tab.procs s.tab.current).state = .runnable then
        if (s.tab.procs s.tab.current).flags &&& pfExiting ≠ 0 then
          s.exit (-9)
        else
          (s.tab.waitRepeat pid).map (s.recordWait pid)
      else
        none
  | .kill pid =>
    if s.Running then
      (s.tab.doKill pid).map fun r => { s with tab := r.2 }
    else
      none
  | .block waitState =>
    if s.Running ∧ waitState ∈ [wtKsem, wtTimer, wtKbd] then
      some { s with
        tab := s.tab.modify s.tab.current fun p => { p with state := .sleeping, waitState } }
    else
      none
  | .wakeup proc =>
    if proc ∈ s.tab.procList then
      (s.tab.wakeupProc proc).map fun tab => { s with tab }
    else
      none
  | .schedule next =>
    if MaySchedule s.tab next then
      some { s with tab := { s.tab with current := next } }
    else
      none

/--
The states of all runs from the end of `proc_init`, which has got memory for two processes.
-/
def Reachable (s : ProcSys) : Prop :=
  ∃ procs idle init tab events, init ≠ idle ∧ ProcTable.procInit procs idle init = some tab ∧
    Run.exec step (boot tab) events = some s

end ProcSys
end Ucore

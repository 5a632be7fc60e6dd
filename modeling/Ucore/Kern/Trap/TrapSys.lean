import Ucore.Kern.Fs.Devs.DevStdin
import Ucore.Kern.Fs.Sysfile.Impl
import Ucore.Kern.Process.ProcSys
import Ucore.Kern.Schedule.Timer

/-!
This module contains the traps of user processes over the processes of `ProcSys`: system calls from
`trap` to its end, clock interrupts with the timers and the keyboard, and the two kernel threads
`init_main` and `user_main`. A step runs from one scheduling point to the next.

A step has no result where an assertion fails or the kernel panics.
-/

namespace Ucore

open ProcTable (ForkAnswers)

/--
Where a process is. A process that is not in user mode is inside `schedule` or has not run yet.

`ebreak` says that the trap is a breakpoint with `a7 = 10`, which `exception_handler` leaves through
`kernel_execve_ret`. For `dev_stdin_read`, `key` says that the wait has been ended by a key and `left`
counts the characters that it still wants.
-/
inductive Place where
  | user
  | preempted
  | forkret
  | initMain
  | initWait
  | initSchedule
  | userMain
  | wait (ebreak : Bool)
  | sleep (ebreak : Bool)
  | kbd (ebreak key : Bool) (left : Nat)
  | ksem (ebreak : Bool)
  | dead
  deriving DecidableEq

namespace Place

/--
Interrupts are on in user mode, in `cpu_idle` and in the kernel threads.
-/
def Interruptible (c : Place) : Prop :=
  c ∈ [.user, .initMain, .initWait, .initSchedule, .userMain]

instance (c : Place) : Decidable c.Interruptible := inferInstanceAs (Decidable (_ ∈ _))

def AtSemaphore : Place → Prop
  | .ksem _ => True
  | _ => False

instance : (c : Place) → Decidable c.AtSemaphore
  | .ksem _ => isTrue trivial
  | .user | .preempted | .forkret | .initMain | .initWait | .initSchedule | .userMain | .wait _
  | .sleep _ | .kbd .. | .dead => isFalse not_false

end Place

/--
How the parts of `do_execve` end that this model leaves out: `copy_string` or `copy_kargv` fails,
`sysfile_open` fails, `load_icode` fails behind its assertions, or the program is loaded.
-/
inductive ExecAnswer where
  | badArgs
  | notOpened
  | notLoaded
  | loaded
  deriving DecidableEq

/--
`other` stands for every system call and every fault that only works on the process itself, such as
`sys_yield` and `sys_lab6_set_priority`. `sem` is one that has to wait for a semaphore.
-/
inductive Syscall where
  | exit (errorCode : Int)
  | fork (ans : ForkAnswers)
  | wait (pid : Int) (codeStore : Option Bool)
  | exec (argc : Int) (ans : ExecAnswer)
  | yield
  | kill (pid : Int)
  | sleep (time : BitVec 32)
  | stdinRead (len : Nat)
  | sem
  | other

/--
`resched` is the `need_resched` that the trap finds at its end.
-/
inductive TrapEvent where
  | syscall (ebreak : Bool) (call : Syscall) (resched : Bool)
  | goOn (resched : Bool)
  | initMain (ans : ForkAnswers)
  | userMain (ans : ExecAnswer)
  | semTaken (again resched : Bool)
  | semUp (proc : Nat)
  | tick (key resched : Bool)
  | schedule (next : Nat)

def execMaxArgNum : Int := 32

/--
`stdin` is `p_wpos - p_rpos`, `mm p` says that the process has an `mm`.
-/
structure TrapSys where
  sys : ProcSys
  place : Nat → Place
  timers : List Timer
  stdin : Nat
  mm : Nat → Bool

namespace TrapSys

def boot (tab : ProcTable) : TrapSys where
  sys := .boot tab
  place := fun _ => .initMain
  timers := []
  stdin := 0
  mm := fun _ => false

def tab (s : TrapSys) : ProcTable := s.sys.tab

def current (s : TrapSys) : Nat := s.sys.tab.current

def Flagged (s : TrapSys) (proc : Nat) : Prop := (s.tab.procs proc).flags &&& pfExiting ≠ 0

instance (s : TrapSys) (proc : Nat) : Decidable (s.Flagged proc) :=
  inferInstanceAs (Decidable (_ ≠ _))

def setPlace (s : TrapSys) (proc : Nat) (c : Place) : TrapSys :=
  { s with place := Function.update s.place proc c }

def base (s : TrapSys) (ev : ProcEvent) : Option TrapSys :=
  (s.sys.step ev).map fun sys => { s with sys }

/--
`ev` is a `do_exit` of the current process.
-/
def exitBy (s : TrapSys) (ev : ProcEvent) : Option TrapSys :=
  (s.base ev).map fun s =>
    { s.setPlace s.current .dead with mm := Function.update s.mm s.current false }

def block (s : TrapSys) (waitState : BitVec 32) (c : Place) : Option TrapSys :=
  (s.base (.block waitState)).map fun s => s.setPlace s.current c

/--
A `do_fork` and whether it makes a process, which starts at `c`.
-/
def fork (s : TrapSys) (ans : ForkAnswers) (c : Place) : Option (Bool × TrapSys) :=
  match s.tab.doFork ans, ans.proc with
  | some (.ok _, _), some proc =>
    (s.base (.fork ans)).map fun s =>
      (true, { s.setPlace proc c with mm := Function.update s.mm proc (s.mm s.current) })
  | _, _ => (s.base (.fork ans)).map fun s => (false, s)

/--
What `trap` does behind `trap_dispatch`. A breakpoint with `a7 = 10` does not come there.
-/
def trapEnd (s : TrapSys) (ebreak resched : Bool) : Option TrapSys :=
  if ebreak then
    some (s.setPlace s.current .user)
  else if s.Flagged s.current then
    s.exitBy (.exit (-9))
  else
    some (s.setPlace s.current (if resched then .preempted else .user))

/--
`do_wait` has come back to its caller or is in front of `schedule`.
-/
def waitEnd (s : TrapSys) (ebreak resched : Bool) : Option TrapSys :=
  if s.sys.waiting s.current = none then
    s.trapEnd ebreak resched
  else
    some (s.setPlace s.current (.wait ebreak))

/--
The `while` loop of `init_main`, `ev` is its call of `do_wait` or goes on with it. Behind the loop
`init_main` returns and its thread calls `do_exit`.
-/
def initLoop (s : TrapSys) (ev : ProcEvent) : Option TrapSys :=
  match s.tab.waitRepeat 0 with
  | none => none
  | some (.asleep, _) => (s.base ev).map fun s => s.setPlace s.current .initWait
  | some (.error _, _) => (s.base ev).bind (·.exitBy (.exit 0))
  | some (.found .., _) => (s.base ev).map fun s => s.setPlace s.current .initSchedule

/--
The assertions of `load_icode`, behind them a program is loaded or an error comes back.
-/
def loadIcode (s : TrapSys) (argc : Int) (ans : ExecAnswer) : Option (Bool × TrapSys) :=
  if ¬(argc ≥ 0 ∧ argc ≤ execMaxArgNum) then
    none
  else if s.mm s.current then
    none
  else if ans = .loaded then
    some (true, { s with mm := Function.update s.mm s.current true })
  else
    some (false, s)

def doExecve (s : TrapSys) (argc : Int) (ans : ExecAnswer) (ebreak resched : Bool)
    : Option TrapSys :=
  if ¬(argc ≥ 1 ∧ argc ≤ execMaxArgNum) then
    s.trapEnd ebreak resched
  else
    match ans with
    | .badArgs => s.trapEnd ebreak resched
    | .notOpened => s.exitBy (.exit (-1))
    | ans => do
      let s := { s with mm := Function.update s.mm s.current false }
      let (loaded, s) ← s.loadIcode argc ans
      if loaded then
        s.trapEnd ebreak resched
      else
        s.exitBy (.exit (-1))

def addTimer (s : TrapSys) (timer : Timer) : Option TrapSys :=
  if timer.expires = 0 then none else some { s with timers := Timer.addTimer s.timers timer }

def doSleep (s : TrapSys) (time : BitVec 32) (ebreak resched : Bool) : Option TrapSys :=
  if time = 0 then
    s.trapEnd ebreak resched
  else do
    let s ← s.block wtTimer (.sleep ebreak)
    s.addTimer { expires := time.toNat, proc := s.current }

/--
The loop of `dev_stdin_read` up to its next `schedule`.
-/
def stdinLoop (s : TrapSys) (left : Nat) (ebreak resched : Bool) : Option TrapSys :=
  if left ≤ s.stdin then
    { s with stdin := s.stdin - left }.trapEnd ebreak resched
  else
    { s with stdin := 0 }.block wtKbd (.kbd ebreak false (left - s.stdin))

def runTimers : List Timer → ProcSys → Option (List Timer × ProcSys)
  | [], sys => some ([], sys)
  | timer :: rest, sys =>
    if timer.expires = 0 then
      let waitState := (sys.tab.procs timer.proc).waitState
      if waitState ≠ 0 ∧ waitState &&& wtInterrupted = 0 then
        none
      else
        (sys.step (.wakeup timer.proc)).bind (runTimers rest)
    else
      some (timer :: rest, sys)

/--
`run_timer_list` up to its call of `sched_class_proc_tick`.
-/
def runTimerList (s : TrapSys) : Option TrapSys :=
  match s.timers with
  | [] => some s
  | timer :: rest =>
    if timer.expires = 0 then
      none
    else
      (runTimers ({ timer with expires := timer.expires - 1 } :: rest) s.sys).map fun r =>
        { s with timers := r.1, sys := r.2 }

/--
`wakeup_queue` takes every process out of the queue that is still in it.
-/
def wakeupKbd : List Nat → TrapSys → Option TrapSys
  | [], s => some s
  | proc :: procs, s =>
    match s.place proc with
    | .kbd ebreak false left =>
      ((s.setPlace proc (.kbd ebreak true left)).base (.wakeup proc)).bind (wakeupKbd procs)
    | _ => wakeupKbd procs s

def devStdinWrite (s : TrapSys) : Option TrapSys :=
  let s := { s with stdin := if s.stdin < stdinBufsize then s.stdin + 1 else s.stdin }
  wakeupKbd s.tab.procList s

/--
`cons_getc` answers with a character or with none.
-/
def consIntr (s : TrapSys) (key : Bool) : Option TrapSys := if key then s.devStdinWrite else some s

def syscall (s : TrapSys) (ebreak : Bool) (call : Syscall) (resched : Bool) : Option TrapSys :=
  match call with
  | .exit errorCode => s.exitBy (.exit errorCode)
  | .fork ans => (s.fork ans .forkret).bind fun r => r.2.trapEnd ebreak resched
  | .wait pid codeStore => (s.base (.wait pid codeStore)).bind (·.waitEnd ebreak resched)
  | .exec argc ans => s.doExecve argc ans ebreak resched
  | .yield => s.trapEnd ebreak true
  | .kill pid => (s.base (.kill pid)).bind (·.trapEnd ebreak resched)
  | .sleep time => s.doSleep time ebreak resched
  | .stdinRead len => s.stdinLoop (min len iobufSize) ebreak resched
  | .sem => s.block wtKsem (.ksem ebreak)
  | .other => s.trapEnd ebreak resched

/--
The current process goes on behind `schedule`, or runs for the first time.
-/
def goOn (s : TrapSys) (resched : Bool) : Option TrapSys :=
  match s.place s.current with
  | .preempted => some (s.setPlace s.current .user)
  | .forkret => some (s.setPlace s.current .user)
  | .initWait => if s.Flagged s.current then s.exitBy .resume else s.initLoop .resume
  | .initSchedule => s.initLoop (.wait 0 none)
  | .wait ebreak =>
    if s.Flagged s.current then
      s.exitBy .resume
    else
      (s.base .resume).bind (·.waitEnd ebreak resched)
  | .sleep ebreak =>
    { s with timers := Timer.delTimer s.current s.timers }.trapEnd ebreak resched
  | .kbd ebreak key left =>
    if key then s.stdinLoop left ebreak resched else s.trapEnd ebreak resched
  | _ => some s

/--
`init_main` makes `user_main` and comes to its loop.
-/
def initMain (s : TrapSys) (ans : ForkAnswers) : Option TrapSys := do
  let (made, s) ← s.fork ans .userMain
  if made then s.initLoop (.wait 0 none) else none

def tick (s : TrapSys) (key resched : Bool) : Option TrapSys := do
  let s ← s.runTimerList
  let s ← s.consIntr key
  if s.current ≠ s.tab.idleproc ∧ s.place s.current = .user then
    s.trapEnd false resched
  else
    some s

def step (s : TrapSys) : TrapEvent → Option TrapSys
  | .syscall ebreak call resched => s.syscall ebreak call resched
  | .goOn resched => s.goOn resched
  | .initMain ans => s.initMain ans
  | .userMain ans => s.doExecve 1 ans true false
  | .semTaken again resched =>
    match s.place s.current with
    | .ksem ebreak =>
      if again then s.block wtKsem (.ksem ebreak) else s.trapEnd ebreak resched
    | _ => some s
  | .semUp proc => s.base (.wakeup proc)
  | .tick key resched => s.tick key resched
  | .schedule next => s.base (.schedule next)

/--
The current process runs and is no longer inside `schedule`.
-/
def GoesOn (s : TrapSys) : Prop :=
  s.current ≠ s.tab.idleproc ∧ (s.tab.procs s.current).state = .runnable

instance (s : TrapSys) : Decidable s.GoesOn := inferInstanceAs (Decidable (_ ∧ _))

/--
`kmalloc` answers with free memory.
-/
def FreshProc (s : TrapSys) (ans : ForkAnswers) : Prop :=
  ∀ proc ∈ ans.proc, s.tab.allocated proc = false

instance (s : TrapSys) (ans : ForkAnswers) : Decidable (s.FreshProc ans) :=
  inferInstanceAs (Decidable (∀ proc ∈ ans.proc, _))

/--
The events that can come in a state. There is memory for what the two kernel threads do.
-/
def Enabled (s : TrapSys) : TrapEvent → Prop
  | .syscall _ call _ =>
    s.GoesOn ∧ s.place s.current = .user ∧
      match call with
      | .fork ans => s.FreshProc ans
      | _ => True
  | .goOn _ =>
    s.GoesOn ∧ s.place s.current ∉ [.user, .initMain, .userMain] ∧
      ¬(s.place s.current).AtSemaphore
  | .initMain ans =>
    s.GoesOn ∧ s.place s.current = .initMain ∧ s.FreshProc ans ∧ ans.proc ≠ none ∧ ans.kstack ∧
      ans.mm ∧ ans.files
  | .userMain ans => s.GoesOn ∧ s.place s.current = .userMain ∧ ans ≠ .badArgs
  | .semTaken .. => s.GoesOn ∧ (s.place s.current).AtSemaphore
  | .semUp proc =>
    proc ∈ s.tab.procList ∧ (s.place proc).AtSemaphore ∧ (s.tab.procs proc).state = .sleeping
  | .tick .. => s.current = s.tab.idleproc ∨ (s.place s.current).Interruptible
  | .schedule next =>
    (s.current = s.tab.idleproc ∨ s.place s.current ≠ .user) ∧ ProcSys.MaySchedule s.tab next

instance (s : TrapSys) : (ev : TrapEvent) → Decidable (s.Enabled ev)
  | .syscall _ call _ => by
    cases call <;> exact inferInstanceAs (Decidable (_ ∧ _ ∧ _))
  | .goOn _ | .initMain _ | .userMain _ | .semTaken .. | .semUp _ | .schedule _ =>
    inferInstanceAs (Decidable (_ ∧ _))
  | .tick .. => inferInstanceAs (Decidable (_ ∨ _))

def next (s : TrapSys) (ev : TrapEvent) : Option TrapSys := if s.Enabled ev then s.step ev else none

end TrapSys
end Ucore

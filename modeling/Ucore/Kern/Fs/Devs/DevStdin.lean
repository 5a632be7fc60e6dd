import Ucore.Kern.Process.Proc.Impl

/-!
This module contains the console input of kern/fs/devs/dev_stdin.c. A step is what an interrupt or a
reader does while interrupts are off: a reader runs until it has its characters or has to wait.
-/

namespace Ucore

def stdinBufsize : Nat := 4096

/--
A reader inside `schedule`, with the local variables of `dev_stdin_read` and the flags of its `wait_t`.
-/
structure StdinReader where
  ret : BitVec 32
  len : BitVec 64
  wakeupFlags : BitVec 32
  asleep : Bool

/--
The buffer with its two positions and the wait queue, the processes inside `dev_stdin_read`, and the
history: the characters that found room, and those copied out with the reader that got them.
-/
structure Stdin where
  buffer : Nat → BitVec 8
  rpos : Nat
  wpos : Nat
  waitQueue : List Nat
  reader : Nat → Option StdinReader
  exiting : Nat → Bool
  accepted : List (BitVec 8)
  delivered : List (Nat × BitVec 8)

/--
`kill` is `do_kill`, which sets `PF_EXITING`; `resume` is a reader that runs again behind `schedule`.
-/
inductive StdinEvent where
  | write (c : BitVec 8)
  | read (proc : Nat) (len : BitVec 64)
  | resume (proc : Nat)
  | kill (proc : Nat)

namespace Stdin

def init : Stdin where
  buffer := fun _ => 0
  rpos := 0
  wpos := 0
  waitQueue := []
  reader := fun _ => none
  exiting := fun _ => false
  accepted := []
  delivered := []

/--
`wakeup_queue`, which takes all waits out of the queue.
-/
def wakeupQueue : List Nat → (Nat → Option StdinReader) → Nat → Option StdinReader
  | [], reader => reader
  | proc :: procs, reader =>
    wakeupQueue procs (Function.update reader proc
      ((reader proc).map fun w => { w with wakeupFlags := wtKbd, asleep := false }))

/--
The character is stored before the test for a full buffer.
-/
def devStdinWrite (s : Stdin) (c : BitVec 8) : Stdin :=
  if c ≠ 0 then
    let s := { s with buffer := Function.update s.buffer (s.wpos % stdinBufsize) c }
    let s :=
      if s.wpos - s.rpos < stdinBufsize then
        { s with wpos := s.wpos + 1, accepted := s.accepted ++ [c] }
      else
        s
    { s with reader := wakeupQueue s.waitQueue s.reader, waitQueue := [] }
  else
    s

/--
The loop of `dev_stdin_read`. The comparison of `ret` and `len` is one of `size_t`.
-/
def readLoop (proc : Nat) (len : BitVec 64) : Nat → Stdin → BitVec 32 → Option Stdin
  | 0, _, _ => none
  | fuel + 1, s, ret =>
    if ret.signExtend 64 < len then
      if s.rpos < s.wpos then
        let c := s.buffer (s.rpos % stdinBufsize)
        readLoop proc len fuel
          { s with rpos := s.rpos + 1, delivered := s.delivered ++ [(proc, c)] } (ret + 1)
      else
        let w := { ret, len, wakeupFlags := wtInterrupted, asleep := true }
        some { s with waitQueue := s.waitQueue ++ [proc], reader := Function.update s.reader proc (some w) }
    else
      some { s with reader := Function.update s.reader proc none }

/--
The unread characters bound the steps of the loop.
-/
def runLoop (s : Stdin) (proc : Nat) (len : BitVec 64) (ret : BitVec 32) : Option Stdin :=
  readLoop proc len (s.wpos - s.rpos + 1) s ret

def devStdinRead (s : Stdin) (proc : Nat) (len : BitVec 64) : Option Stdin :=
  s.runLoop proc len 0

/--
The rest of `dev_stdin_read` behind `schedule`.
-/
def afterSchedule (s : Stdin) (proc : Nat) (w : StdinReader) : Option Stdin :=
  let s := { s with waitQueue := s.waitQueue.erase proc }
  if w.wakeupFlags = wtKbd then
    s.runLoop proc w.len w.ret
  else
    some { s with reader := Function.update s.reader proc none }

/--
`WT_KBD` is an interruptible wait, so a sleeping reader is woken up.
-/
def doKill (s : Stdin) (proc : Nat) : Stdin :=
  if s.exiting proc then
    s
  else
    { s with
      exiting := Function.update s.exiting proc true
      reader := Function.update s.reader proc ((s.reader proc).map fun w => { w with asleep := false }) }

def step (s : Stdin) : StdinEvent → Option Stdin
  | .write c => some (s.devStdinWrite c)
  | .read proc len => s.devStdinRead proc len
  | .resume proc => (s.reader proc).bind (s.afterSchedule proc)
  | .kill proc => some (s.doKill proc)

/--
A process reads when it is not in `dev_stdin_read` already, and runs again when it is not asleep.
-/
def Legal (s : Stdin) : StdinEvent → Prop
  | .write _ => True
  | .read proc _ => s.reader proc = none
  | .resume proc => ∃ w, s.reader proc = some w ∧ w.asleep = false
  | .kill _ => True

instance (s : Stdin) : (event : StdinEvent) → Decidable (s.Legal event)
  | .write _ => inferInstanceAs (Decidable True)
  | .read proc _ =>
    match h : s.reader proc with
    | none => isTrue h
    | some w => isFalse (by simp [Legal, h])
  | .resume proc =>
    match h : s.reader proc with
    | none => isFalse (by simp [Legal, h])
    | some w => decidable_of_iff (w.asleep = false) (by simp [Legal, h])
  | .kill _ => inferInstanceAs (Decidable True)

end Stdin
end Ucore

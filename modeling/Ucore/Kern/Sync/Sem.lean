import Mathlib
import Ucore.Kern.Process.Proc.Impl

/-!
This module contains the semaphores of kern/sync/sem.c. A process that waits stands in the wait queue, and `up`
gives the semaphore to the first one there instead of adding to the value.
-/

namespace Ucore

/--
`semaphore_t`. The value is an `int`.
-/
structure Semaphore (α : Type) where
  value : BitVec 32
  waitQueue : List α
  deriving DecidableEq

namespace Semaphore

variable {α : Type}

def semInit (value : BitVec 32) : Semaphore α := { value, waitQueue := [] }

/--
The result is the process that is woken up.
-/
def up (sem : Semaphore α) : Option α × Semaphore α :=
  match sem.waitQueue with
  | [] => (none, { sem with value := sem.value + 1 })
  | proc :: rest => (some proc, { sem with waitQueue := rest })

/--
`__down` up to the call of `schedule`, the result says whether there is one.
-/
def down (sem : Semaphore α) (proc : α) : Bool × Semaphore α :=
  if sem.value.toInt > 0 then
    (false, { sem with value := sem.value - 1 })
  else
    (true, { sem with waitQueue := sem.waitQueue ++ [proc] })

/--
`wait_current_del` behind the call of `schedule`.
-/
def waitCurrentDel [DecidableEq α] (sem : Semaphore α) (proc : α) : Semaphore α :=
  { sem with waitQueue := sem.waitQueue.erase proc }

/--
The result of `__down` for the flags with which a process has been woken up.
-/
def downFlags (wakeupFlags waitState : BitVec 32) : BitVec 32 := if wakeupFlags ≠ waitState then wakeupFlags else 0

variable {sem : Semaphore α} {proc : α} {rest : List α}

theorem up_nil (hqueue : sem.waitQueue = []) : sem.up = (none, { sem with value := sem.value + 1 }) := by
  simp [up, hqueue]

theorem up_cons (hqueue : sem.waitQueue = proc :: rest) : sem.up = (some proc, { sem with waitQueue := rest }) := by
  simp [up, hqueue]

end Semaphore
end Ucore

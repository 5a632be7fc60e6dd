import Ucore.Lib.LockProg
import Ucore.Kern.Sync.Mutex

/-!
This module contains threads that run programs with locks, where a lock is a semaphore that starts with one unit.
-/

namespace Ucore

/--
A thread with `waits = some l` is in the `down` of `l` behind the call of `schedule`. `held` are the locks with which
the thread has come back from `down` and for which it has not called `up`.
-/
structure LockThread (L α : Type) where
  prog : LockProg L α
  waits : Option L
  held : List L

structure LockSys (L α : Type) where
  sems : L → Semaphore Nat
  threads : Nat → LockThread L α

/--
`answer` is what the data says at an `ask`.
-/
inductive LockEvent (C : Type) where
  | start (thread : Nat) (call : C)
  | go (thread answer : Nat)
  deriving DecidableEq

namespace LockThread

variable {L α : Type}

/--
The thread is behind its last call.
-/
def Idle (th : LockThread L α) : Prop := th.waits = none ∧ ∃ a, th.prog = .done a

variable [DecidableEq L]

def place (th : LockThread L α) (l : L) : MutexPlace :=
  if th.waits = some l then .waits else if l ∈ th.held then .inside else .out

end LockThread

namespace LockSys

variable {L α C : Type}

def init (a : α) : LockSys L α where
  sems := fun _ => Semaphore.semInit 1
  threads := fun _ => { prog := .done a, waits := none, held := [] }

def setThread (s : LockSys L α) (t : Nat) (th : LockThread L α) : LockSys L α :=
  { s with threads := Function.update s.threads t th }

variable [DecidableEq L]

def setSem (s : LockSys L α) (l : L) (sem : Semaphore Nat) : LockSys L α :=
  { s with sems := Function.update s.sems l sem }

def go (s : LockSys L α) (t answer : Nat) : Option (LockSys L α) :=
  let th := s.threads t
  match th.waits with
  | some l =>
    if t ∈ (s.sems l).waitQueue then
      none
    else
      some (s.setThread t { th with waits := none, held := l :: th.held })
  | none =>
    match th.prog with
    | .done _ => none
    | .down l rest =>
      match (s.sems l).down t with
      | (false, sem) => some ((s.setSem l sem).setThread t { prog := rest, waits := none, held := l :: th.held })
      | (true, sem) => some ((s.setSem l sem).setThread t { prog := rest, waits := some l, held := th.held })
    | .up l rest =>
      some ((s.setSem l (s.sems l).up.2).setThread t { prog := rest, waits := none, held := th.held.erase l })
    | .ask rest => some (s.setThread t { th with prog := rest answer })

def step (prog : C → LockProg L α) (s : LockSys L α) : LockEvent C → Option (LockSys L α)
  | .start t call =>
    match (s.threads t).waits, (s.threads t).prog with
    | none, .done _ => some (s.setThread t { s.threads t with prog := prog call })
    | _, _ => none
  | .go t answer => s.go t answer

/--
A lock that has been given to a thread in `down` is held, too.
-/
def Holds (s : LockSys L α) (t : Nat) (l : L) : Prop := (s.sems l).Holds (fun u => (s.threads u).place l) t

/--
The first thread waits for a lock that the second one holds.
-/
def WaitsFor (s : LockSys L α) (t u : Nat) : Prop := ∃ l, t ∈ (s.sems l).waitQueue ∧ s.Holds u l

end LockSys
end Ucore

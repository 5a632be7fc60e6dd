import Ucore.Kern.Sync.Sem

/-!
This module contains the philosophers of kern/sync/check_sync.c who use semaphores. A step of a philosopher is one
access to what they share: a read or a write of the array, or a semaphore. A philosopher in the queue of a semaphore
cannot step.
-/

namespace Ucore

inductive PhiState where
  | thinking
  | hungry
  | eating
  deriving DecidableEq

/--
The calls of `phi_test_sema`: in `phi_take_forks_sema`, and the two in `phi_put_forks_sema`.
-/
inductive PhiCall where
  | take
  | putLeft
  | putRight
  deriving DecidableEq

/--
The statements of `phi_test_sema`, its condition has three reads.
-/
inductive PhiPoint where
  | self
  | left
  | right
  | eat
  | up
  deriving DecidableEq

/--
The next statement of a philosopher, `takeWait`, `waitS` and `putWait` are behind the call of `schedule` in a
`down`.
-/
inductive PhiPc where
  | thinking
  | takeDown
  | takeWait
  | setHungry
  | test (call : PhiCall) (point : PhiPoint)
  | takeUp
  | downS
  | waitS
  | eating
  | putDown
  | putWait
  | setThinking
  | putUp
  deriving DecidableEq

structure PhiSema (n : Nat) where
  stateSema : Fin n → PhiState
  mutex : Semaphore (Fin n)
  s : Fin n → Semaphore (Fin n)
  pc : Fin n → PhiPc

namespace PhiSema

variable {n : Nat}

/--
`(i-1+N)%N`
-/
def left (i : Fin n) : Fin n := ⟨(i + (n - 1)) % n, Nat.mod_lt _ i.pos⟩

/--
`(i+1)%N`
-/
def right (i : Fin n) : Fin n := ⟨(i + 1) % n, Nat.mod_lt _ i.pos⟩

def init : PhiSema n where
  stateSema := fun _ => .thinking
  mutex := Semaphore.semInit 1
  s := fun _ => Semaphore.semInit 0
  pc := fun _ => .thinking

end PhiSema

namespace PhiCall

variable {n : Nat}

/--
The argument of the call.
-/
def phi (call : PhiCall) (i : Fin n) : Fin n :=
  match call with
  | take => i
  | putLeft => PhiSema.left i
  | putRight => PhiSema.right i

/--
The statement behind the call.
-/
def next : PhiCall → PhiPc
  | take => .takeUp
  | putLeft => .test .putRight .self
  | putRight => .putUp

end PhiCall

namespace PhiSema

variable {n : Nat}

def goto (s : PhiSema n) (i : Fin n) (pc : PhiPc) : PhiSema n := { s with pc := Function.update s.pc i pc }

def downMutex (s : PhiSema n) (i : Fin n) (inside waits : PhiPc) : PhiSema n :=
  let r := s.mutex.down i
  { s with mutex := r.2 }.goto i (if r.1 then waits else inside)

def phiTestSema (s : PhiSema n) (i : Fin n) (call : PhiCall) : PhiPoint → PhiSema n
  | .self => s.goto i (if s.stateSema (call.phi i) = .hungry then .test call .left else call.next)
  | .left => s.goto i (if s.stateSema (left (call.phi i)) ≠ .eating then .test call .right else call.next)
  | .right => s.goto i (if s.stateSema (right (call.phi i)) ≠ .eating then .test call .eat else call.next)
  | .eat => { s with stateSema := Function.update s.stateSema (call.phi i) .eating }.goto i (.test call .up)
  | .up => { s with s := Function.update s.s (call.phi i) (s.s (call.phi i)).up.2 }.goto i call.next

def step (s : PhiSema n) (i : Fin n) : Option (PhiSema n) :=
  match s.pc i with
  | .thinking => some (s.goto i .takeDown)
  | .takeDown => some (s.downMutex i .setHungry .takeWait)
  | .takeWait => if i ∈ s.mutex.waitQueue then none else some (s.goto i .setHungry)
  | .setHungry =>
    some ({ s with stateSema := Function.update s.stateSema i .hungry }.goto i (.test .take .self))
  | .test call point => some (s.phiTestSema i call point)
  | .takeUp => some ({ s with mutex := s.mutex.up.2 }.goto i .downS)
  | .downS =>
    let r := (s.s i).down i
    some ({ s with s := Function.update s.s i r.2 }.goto i (if r.1 then .waitS else .eating))
  | .waitS => if i ∈ (s.s i).waitQueue then none else some (s.goto i .eating)
  | .eating => some (s.goto i .putDown)
  | .putDown => some (s.downMutex i .setThinking .putWait)
  | .putWait => if i ∈ s.mutex.waitQueue then none else some (s.goto i .setThinking)
  | .setThinking =>
    some ({ s with stateSema := Function.update s.stateSema i .thinking }.goto i (.test .putLeft .self))
  | .putUp => some ({ s with mutex := s.mutex.up.2 }.goto i .thinking)

/--
Some philosopher has begun to take forks and has not put them back, and none of these can go on. Those who think may
have left the table.
-/
def Deadlock (s : PhiSema n) : Prop :=
  (∃ i, s.pc i ≠ .thinking) ∧ ∀ i, s.pc i ≠ .thinking → s.step i = none

/--
The philosopher could eat.
-/
def Ready (s : PhiSema n) (i : Fin n) : Prop :=
  s.stateSema i = .hungry ∧ s.stateSema (left i) ≠ .eating ∧ s.stateSema (right i) ≠ .eating

end PhiSema
end Ucore

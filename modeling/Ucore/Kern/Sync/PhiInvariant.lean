import Mathlib
import Ucore.Lib.Run
import Ucore.Kern.Sync.Mutex
import Ucore.Kern.Sync.PhiSema

/-!
This module contains the invariant of the philosophers: who is in the critical section, what the semaphore of a
philosopher says about the state of the philosopher, and which tests are still to be made.
-/

namespace Ucore

/--
A philosopher has no wish for forks, wants them, or has them.
-/
inductive PhiPhase where
  | idle
  | wants
  | fed
  deriving DecidableEq

def PhiCall.phase : PhiCall → PhiPhase
  | take => .wants
  | putLeft | putRight => .idle

namespace PhiPc

def place : PhiPc → MutexPlace
  | takeWait | putWait => .waits
  | setHungry | test _ _ | takeUp | setThinking | putUp => .inside
  | thinking | takeDown | downS | waitS | eating | putDown => .out

def phase : PhiPc → PhiPhase
  | thinking | takeDown | takeWait | setHungry | putUp => .idle
  | test call _ => call.phase
  | takeUp | downS | waitS => .wants
  | eating | putDown | putWait | setThinking => .fed

end PhiPc

namespace PhiSema

variable {n : Nat} {s s' : PhiSema n} {i j : Fin n} {pc pc' : PhiPc} {call call' : PhiCall} {point : PhiPoint}

theorem right_left (i : Fin n) : right (left i) = i := by
  have hi := i.isLt
  apply Fin.ext
  simp only [right, left, Nat.mod_add_mod]
  rw [show i.val + (n - 1) + 1 = i.val + n by omega, Nat.add_mod_right, Nat.mod_eq_of_lt hi]

theorem left_right (i : Fin n) : left (right i) = i := by
  have hi := i.isLt
  apply Fin.ext
  simp only [right, left, Nat.mod_add_mod]
  rw [show i.val + 1 + (n - 1) = i.val + n by omega, Nat.add_mod_right, Nat.mod_eq_of_lt hi]

theorem right_ne (hn : 2 ≤ n) (i : Fin n) : right i ≠ i := by
  have hi := i.isLt
  intro heq
  have hval := congrArg Fin.val heq
  simp only [right] at hval
  by_cases hlast : i.val + 1 = n
  . rw [hlast, Nat.mod_self] at hval
    omega
  . rw [Nat.mod_eq_of_lt (by omega)] at hval
    omega

theorem eq_left_iff : i = left j ↔ right i = j := by
  constructor
  . rintro rfl
    exact right_left j
  . rintro rfl
    exact (left_right i).symm

theorem eq_right_iff : i = right j ↔ left i = j := by
  constructor
  . rintro rfl
    exact left_right j
  . rintro rfl
    exact (right_left i).symm

/--
Some philosopher is about to give this one the semaphore.
-/
def PendingUp (s : PhiSema n) (i : Fin n) : Prop := ∃ h call, s.pc h = .test call .up ∧ call.phi h = i

/--
The semaphore of a philosopher who has not been allowed to eat.
-/
def notGranted (i : Fin n) (pc : PhiPc) : Semaphore (Fin n) := ⟨0, if pc = .waitS then [i] else []⟩

def granted (pc : PhiPc) : Semaphore (Fin n) := ⟨if pc = .waitS then 0 else 1, []⟩

/--
What belongs together: where a philosopher is, the state in the array, the semaphore, and whether somebody is
about to do an `up`.
-/
inductive SemaOk (i : Fin n) (pc : PhiPc) (state : PhiState) (sem : Semaphore (Fin n)) (pending : Prop) : Prop where
  | idle (hphase : pc.phase = .idle) (hstate : state = .thinking) (hsem : sem = ⟨0, []⟩) (hup : ¬pending)
  | hungry (hphase : pc.phase = .wants) (hstate : state = .hungry) (hsem : sem = notGranted i pc) (hup : ¬pending)
  | granting (hphase : pc.phase = .wants) (hstate : state = .eating) (hsem : sem = notGranted i pc) (hup : pending)
  | granted (hphase : pc.phase = .wants) (hstate : state = .eating) (hsem : sem = PhiSema.granted pc) (hup : ¬pending)
  | fed (hphase : pc.phase = .fed) (hstate : state = .eating) (hsem : sem = ⟨0, []⟩) (hup : ¬pending)

/--
What a philosopher knows who is in the middle of `phi_test_sema`.
-/
def PointOk (s : PhiSema n) (i : Fin n) : PhiPoint → Prop
  | .self | .up => True
  | .left => s.stateSema i = .hungry
  | .right => s.stateSema i = .hungry ∧ s.stateSema (left i) ≠ .eating
  | .eat => s.Ready i

/--
The philosophers whose test a philosopher is going to make.
-/
def tests (pc : PhiPc) (h i : Fin n) : Prop :=
  match pc with
  | .test .take _ => i = h
  | .test .putLeft _ => i = left h ∨ i = right h
  | .test .putRight _ => i = right h
  | _ => False

structure Inv (s : PhiSema n) : Prop where
  mutex : s.mutex.MutexOk fun i => (s.pc i).place
  sema : ∀ i, SemaOk i (s.pc i) (s.stateSema i) (s.s i) (s.PendingUp i)
  point : ∀ i call point, s.pc i = .test call point → s.PointOk (call.phi i) point
  exclusion : ∀ i, s.stateSema i = .eating → s.stateSema (right i) ≠ .eating
  ready : ∀ i, s.Ready i → ∃ h, tests (s.pc h) h i

theorem init_inv : (init : PhiSema n).Inv where
  mutex := Semaphore.mutexOk_semInit fun _ => rfl
  sema _ := .idle rfl rfl rfl (by simp [PendingUp, init])
  point := by simp [init]
  exclusion := by simp [init]
  ready := by simp [init, Ready]

/--
The phase is all that the semaphore of a philosopher knows who is not in its queue.
-/
theorem SemaOk.samePhase {state : PhiState} {sem : Semaphore (Fin n)} {pending : Prop}
    (h : SemaOk i pc state sem pending) (hphase : pc'.phase = pc.phase) (hwait : pc' = .waitS ↔ pc = .waitS)
    : SemaOk i pc' state sem pending := by
  have hnot : notGranted i pc' = notGranted i pc := by simp only [notGranted, hwait]
  have hgranted : (PhiSema.granted pc' : Semaphore (Fin n)) = PhiSema.granted pc := by
    simp only [PhiSema.granted, hwait]
  cases h with
  | idle hold hstate hsem hup => exact .idle (hphase.trans hold) hstate hsem hup
  | hungry hold hstate hsem hup => exact .hungry (hphase.trans hold) hstate (hsem.trans hnot.symm) hup
  | granting hold hstate hsem hup => exact .granting (hphase.trans hold) hstate (hsem.trans hnot.symm) hup
  | granted hold hstate hsem hup => exact .granted (hphase.trans hold) hstate (hsem.trans hgranted.symm) hup
  | fed hold hstate hsem hup => exact .fed (hphase.trans hold) hstate hsem hup

theorem place_update (s : PhiSema n) (i : Fin n) (pc : PhiPc)
    : (fun j => (Function.update s.pc i pc j).place) = Function.update (fun j => (s.pc j).place) i pc.place := by
  funext j
  by_cases hj : j = i
  . simp [hj]
  . simp [hj]

/--
A step that neither comes to an `up` of `phi_test_sema` nor goes on from there.
-/
theorem pendingUp_goto (hold : ∀ call, s.pc i ≠ .test call .up) (hnew : ∀ call, pc ≠ .test call .up) (j : Fin n)
    : (s.goto i pc).PendingUp j ↔ s.PendingUp j := by
  constructor <;> rintro ⟨h, call, hpc, hphi⟩ <;> refine ⟨h, call, ?_, hphi⟩
  . by_cases hh : h = i
    . simp only [goto, hh, Function.update_self] at hpc
      exact absurd hpc (hnew call)
    . simpa [goto, hh] using hpc
  . have hh : h ≠ i := by
      rintro rfl
      exact hold call hpc
    simpa [goto, hh] using hpc

/--
A step that leaves the array of states.
-/
theorem Inv.move (h : s.Inv) {mutex sem : Semaphore (Fin n)}
    (hmutex : mutex.MutexOk (Function.update (fun j => (s.pc j).place) i pc.place))
    (hold : ∀ call, s.pc i ≠ .test call .up) (hnew : ∀ call, pc ≠ .test call .up)
    (hsema : SemaOk i pc (s.stateSema i) sem (s.PendingUp i))
    (hpoint : ∀ call point, pc = .test call point → s.PointOk (call.phi i) point)
    (htests : ∀ j, s.Ready j → tests (s.pc i) i j → tests pc i j)
    : ({ s with mutex, s := Function.update s.s i sem }.goto i pc).Inv where
  mutex := by
    rw [← place_update] at hmutex
    exact hmutex
  sema j := by
    have hpending : ({ s with mutex, s := Function.update s.s i sem }.goto i pc).PendingUp j ↔ s.PendingUp j :=
      pendingUp_goto (s := s) hold hnew j
    rw [hpending]
    by_cases hj : j = i
    . subst hj
      simpa [goto] using hsema
    . simpa [goto, hj] using h.sema j
  point j call point hpc := by
    by_cases hj : j = i
    . subst hj
      exact hpoint call point (by simpa [goto] using hpc)
    . exact h.point j call point (by simpa [goto, hj] using hpc)
  exclusion := h.exclusion
  ready j hready := by
    obtain ⟨k, hk⟩ := h.ready j hready
    refine ⟨k, ?_⟩
    by_cases hki : k = i
    . subst hki
      simpa [goto] using htests j hready hk
    . simpa [goto, hki] using hk

theorem test_of_tests (h : tests pc i j) : ∃ call point, pc = .test call point := by
  cases pc with
  | test call point => exact ⟨call, point, rfl⟩
  | _ => exact h.elim

/--
A step outside `phi_test_sema`.
-/
theorem Inv.moveOutside (h : s.Inv) {mutex sem : Semaphore (Fin n)} (hold : ∀ call point, s.pc i ≠ .test call point)
    (hnew : ∀ call point, pc ≠ .test call point)
    (hmutex : mutex.MutexOk (Function.update (fun j => (s.pc j).place) i pc.place))
    (hsema : SemaOk i pc (s.stateSema i) sem (s.PendingUp i))
    : ({ s with mutex, s := Function.update s.s i sem }.goto i pc).Inv := by
  apply h.move hmutex (fun call => hold call .up) (fun call => hnew call .up) hsema
  . intro call point hpc
    exact absurd hpc (hnew call point)
  . intro j _ htests
    obtain ⟨call, point, hpc⟩ := test_of_tests htests
    exact absurd hpc (hold call point)

/--
A step outside `phi_test_sema` that touches nothing but the mutex.
-/
theorem Inv.moveMutex (h : s.Inv) {mutex : Semaphore (Fin n)} (hold : ∀ call point, s.pc i ≠ .test call point)
    (hnew : ∀ call point, pc ≠ .test call point)
    (hmutex : mutex.MutexOk (Function.update (fun j => (s.pc j).place) i pc.place))
    (hphase : pc.phase = (s.pc i).phase) (hwait : pc = .waitS ↔ s.pc i = .waitS)
    : ({ s with mutex }.goto i pc).Inv := by
  have hmove := h.moveOutside hold hnew hmutex ((h.sema i).samePhase hphase hwait)
  rwa [Function.update_eq_self] at hmove

theorem Inv.mutex_same (h : s.Inv) (pc : PhiPc) (hplace : pc.place = (s.pc i).place)
    : s.mutex.MutexOk (Function.update (fun j => (s.pc j).place) i pc.place) := by
  rw [hplace, Function.update_eq_self]
  exact h.mutex

/--
A philosopher takes the mutex or goes into its queue.
-/
theorem Inv.downMutex (h : s.Inv) {inside waits : PhiPc} (hold : ∀ call point, s.pc i ≠ .test call point)
    (hinside : ∀ call point, inside ≠ .test call point) (hwaits : ∀ call point, waits ≠ .test call point)
    (hout : (s.pc i).place = .out) (hplaceIn : inside.place = .inside) (hplaceWaits : waits.place = .waits)
    (hphaseIn : inside.phase = (s.pc i).phase) (hphaseWaits : waits.phase = (s.pc i).phase) (hne : s.pc i ≠ .waitS)
    : (s.downMutex i inside waits).Inv := by
  have hneIn : inside = .waitS ↔ s.pc i = .waitS := by
    refine iff_of_false ?_ hne
    rintro rfl
    contradiction
  have hneWaits : waits = .waitS ↔ s.pc i = .waitS := by
    refine iff_of_false ?_ hne
    rintro rfl
    contradiction
  unfold PhiSema.downMutex
  rcases hdown : s.mutex.down i with ⟨hasToWait, mutex⟩
  cases hasToWait with
  | false =>
    apply h.moveMutex hold hinside ?_ hphaseIn hneIn
    rw [hplaceIn]
    exact h.mutex.down_free hout hdown
  | true =>
    apply h.moveMutex hold hwaits ?_ hphaseWaits hneWaits
    rw [hplaceWaits]
    exact h.mutex.down_wait hout hdown

/--
The next statement of `phi_test_sema`.
-/
theorem Inv.gotoPoint (h : s.Inv) {point' : PhiPoint} (hpc : s.pc i = .test call point) (hold : point ≠ .up)
    (hnew : point' ≠ .up) (hpoint : s.PointOk (call.phi i) point')
    : (s.goto i (.test call point')).Inv := by
  have hsema : SemaOk i (.test call point') (s.stateSema i) (s.s i) (s.PendingUp i) :=
    (h.sema i).samePhase (by simp [hpc, PhiPc.phase]) (by simp [hpc])
  have hmove := h.move (h.mutex_same (.test call point') (by simp [hpc, PhiPc.place])) (by simp [hpc, hold])
    (by simp [hnew]) hsema ?_ ?_
  . rwa [Function.update_eq_self] at hmove
  . rintro call' point'' heq
    obtain ⟨rfl, rfl⟩ := PhiPc.test.inj heq
    exact hpoint
  . intro j _ htests
    rw [hpc] at htests
    cases call <;> exact htests

theorem PhiCall.place_next (call : PhiCall) : call.next.place = .inside := by cases call <;> rfl

theorem PhiCall.phase_next (call : PhiCall) : call.next.phase = call.phase := by cases call <;> rfl

theorem PhiCall.next_ne_waitS (call : PhiCall) : call.next ≠ .waitS := by cases call <;> simp [PhiCall.next]

theorem PhiCall.next_ne_up (call call' : PhiCall) : call.next ≠ .test call' .up := by cases call <;> simp [PhiCall.next]

theorem pointOk_next (heq : call.next = .test call' point) : s.PointOk (call'.phi i) point := by
  cases call with
  | putLeft =>
    obtain ⟨rfl, rfl⟩ := PhiPc.test.inj heq
    trivial
  | take | putRight => exact absurd heq (by simp [PhiCall.next])

theorem tests_next (h : tests (.test call point) i j) (hne : j ≠ call.phi i) : tests call.next i j := by
  cases call with
  | take => exact absurd h hne
  | putLeft => exact h.resolve_left hne
  | putRight => exact absurd h hne

/--
The end of `phi_test_sema` when the condition does not hold.
-/
theorem Inv.gotoNext (h : s.Inv) (hpc : s.pc i = .test call point) (hold : point ≠ .up)
    (hready : ¬s.Ready (call.phi i))
    : (s.goto i call.next).Inv := by
  have hsema : SemaOk i call.next (s.stateSema i) (s.s i) (s.PendingUp i) :=
    (h.sema i).samePhase (by rw [PhiCall.phase_next, hpc]; rfl) (by simp [hpc, PhiCall.next_ne_waitS])
  have hmove := h.move (h.mutex_same call.next (by rw [PhiCall.place_next, hpc]; rfl))
    (by simp [hpc, hold]) (fun call' => PhiCall.next_ne_up call call') hsema ?_ ?_
  . rwa [Function.update_eq_self] at hmove
  . intro call' point' heq
    exact pointOk_next heq
  . intro j hj htests
    rw [hpc] at htests
    refine tests_next htests ?_
    rintro rfl
    exact hready hj

end PhiSema
end Ucore

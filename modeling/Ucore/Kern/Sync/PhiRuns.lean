import Ucore.Kern.Sync.PhiInvariant

/-!
This module contains what holds of the philosophers in every run: the steps that write the array of states or come
to the semaphore of a philosopher keep the invariant, and some philosopher can always go on.
-/

namespace Ucore
namespace PhiSema

variable {n : Nat} {s s' : PhiSema n} {i j : Fin n} {pc pc' : PhiPc} {call call' : PhiCall} {point : PhiPoint}

/--
Nobody else is in the critical section.
-/
theorem Inv.eq_of_inside (h : s.Inv) (hi : (s.pc i).place = .inside) (hj : (s.pc j).place = .inside) : j = i :=
  h.mutex.unique_inside hj hi

theorem Inv.eq_of_test (h : s.Inv) (hi : (s.pc i).place = .inside) (hj : s.pc j = .test call point) : j = i :=
  h.eq_of_inside hi (by rw [hj]; rfl)

theorem Inv.not_pendingUp (h : s.Inv) (hi : (s.pc i).place = .inside) (hpc : ∀ call, s.pc i ≠ .test call .up)
    (j : Fin n)
    : ¬s.PendingUp j := by
  rintro ⟨k, call, hk, -⟩
  obtain rfl := h.eq_of_test hi hk
  exact hpc call hk

theorem Inv.pendingUp_iff (h : s.Inv) (hpc : s.pc i = .test call .up) (j : Fin n) : s.PendingUp j ↔ j = call.phi i := by
  constructor
  . rintro ⟨k, call', hk, rfl⟩
    obtain rfl := h.eq_of_test (i := i) (by rw [hpc]; rfl) hk
    rw [hpc] at hk
    obtain ⟨rfl, -⟩ := PhiPc.test.inj hk
    rfl
  . rintro rfl
    exact ⟨i, call, hpc, rfl⟩

/--
The philosopher in the critical section is the only one with a test to make.
-/
theorem Inv.tests_of_inside (h : s.Inv) (hi : (s.pc i).place = .inside) (hready : s.Ready j) : tests (s.pc i) i j := by
  obtain ⟨k, hk⟩ := h.ready j hready
  obtain ⟨call, point, hpc⟩ := test_of_tests hk
  obtain rfl := h.eq_of_test hi hpc
  exact hk

/--
The next statement of a philosopher who stays in the critical section.
-/
theorem Inv.mutex_inside (h : s.Inv) (hi : (s.pc i).place = .inside) (hpc : pc.place = .inside)
    : s.mutex.MutexOk fun j => (Function.update s.pc i pc j).place := by
  rw [place_update]
  exact h.mutex_same pc (hpc.trans hi.symm)

/--
A step in the critical section.
-/
theorem Inv.of_inside {t : PhiSema n} (h : s.Inv) (hi : (s.pc i).place = .inside) (hpcs : ∀ j ≠ i, t.pc j = s.pc j)
    (hmutex : t.mutex.MutexOk fun j => (t.pc j).place)
    (hsema : ∀ j, SemaOk j (t.pc j) (t.stateSema j) (t.s j) (t.PendingUp j))
    (hpoint : ∀ call point, t.pc i = .test call point → t.PointOk (call.phi i) point)
    (hexclusion : ∀ j, t.stateSema j = .eating → t.stateSema (right j) ≠ .eating)
    (hready : ∀ j, t.Ready j → tests (t.pc i) i j)
    : t.Inv := by
  refine ⟨hmutex, hsema, ?_, hexclusion, fun j hj => ⟨i, hready j hj⟩⟩
  intro j call point hpc
  by_cases hj : j = i
  . subst hj
    exact hpoint call point hpc
  . rw [hpcs j hj] at hpc
    exact absurd (h.eq_of_test hi hpc) hj

theorem SemaOk.of_idle {state : PhiState} {sem : Semaphore (Fin n)} {pending : Prop}
    (h : SemaOk i pc state sem pending) (hphase : pc.phase = .idle)
    : state = .thinking ∧ sem = ⟨0, []⟩ := by
  cases h with
  | idle _ hstate hsem _ => exact ⟨hstate, hsem⟩
  | hungry hother _ _ _ | granting hother _ _ _ | granted hother _ _ _ | fed hother _ _ _ =>
    rw [hphase] at hother
    contradiction

theorem SemaOk.of_fed {state : PhiState} {sem : Semaphore (Fin n)} {pending : Prop}
    (h : SemaOk i pc state sem pending) (hphase : pc.phase = .fed)
    : state = .eating ∧ sem = ⟨0, []⟩ := by
  cases h with
  | fed _ hstate hsem _ => exact ⟨hstate, hsem⟩
  | hungry hother _ _ _ | granting hother _ _ _ | granted hother _ _ _ | idle hother _ _ _ =>
    rw [hphase] at hother
    contradiction

theorem SemaOk.of_hungry {sem : Semaphore (Fin n)} {pending : Prop} (h : SemaOk i pc .hungry sem pending)
    : pc.phase = .wants ∧ sem = notGranted i pc := by
  cases h with
  | hungry hphase _ hsem _ => exact ⟨hphase, hsem⟩
  | idle _ hstate _ _ | granting _ hstate _ _ | granted _ hstate _ _ | fed _ hstate _ _ => contradiction

theorem SemaOk.of_pending {state : PhiState} {sem : Semaphore (Fin n)} {pending : Prop}
    (h : SemaOk i pc state sem pending) (hpending : pending)
    : pc.phase = .wants ∧ state = .eating ∧ sem = notGranted i pc := by
  cases h with
  | granting hphase hstate hsem _ => exact ⟨hphase, hstate, hsem⟩
  | idle _ _ _ hup | hungry _ _ _ hup | granted _ _ _ hup | fed _ _ _ hup => exact absurd hpending hup

/--
A philosopher who becomes hungry keeps nobody from eating.
-/
theorem Inv.setHungry (h : s.Inv) (hpc : s.pc i = .setHungry)
    : ({ s with stateSema := Function.update s.stateSema i .hungry }.goto i (.test .take .self)).Inv := by
  have hinside : (s.pc i).place = .inside := by rw [hpc]; rfl
  obtain ⟨hthinking, hsem⟩ := (h.sema i).of_idle (by rw [hpc]; rfl)
  have hpending (j : Fin n) : ({ s with stateSema := Function.update s.stateSema i .hungry }.goto i
      (.test .take .self)).PendingUp j ↔ s.PendingUp j := pendingUp_goto (s := s) (by simp [hpc]) (by simp) j
  have hnone := h.not_pendingUp hinside (by simp [hpc])
  have heating (j : Fin n) : Function.update s.stateSema i .hungry j = .eating ↔ s.stateSema j = .eating := by
    by_cases hj : j = i
    . simp [hj, hthinking]
    . simp [hj]
  refine h.of_inside hinside (fun j hj => by simp [goto, hj]) (h.mutex_inside hinside rfl) ?_ ?_ ?_ ?_
  . intro j
    rw [hpending j]
    by_cases hj : j = i
    . subst hj
      apply SemaOk.hungry ?_ ?_ ?_ (hnone j)
      . simp [goto, PhiPc.phase, PhiCall.phase]
      . simp [goto]
      . simp [goto, notGranted, hsem]
    . simpa [goto, hj] using h.sema j
  . intro call point hpoint
    simp only [goto, Function.update_self] at hpoint
    obtain ⟨rfl, rfl⟩ := PhiPc.test.inj hpoint
    trivial
  . intro j
    simp only [goto]
    rw [heating, ne_eq, heating]
    exact h.exclusion j
  . rintro j ⟨hhungry, hleft, hright⟩
    simp only [goto, Function.update_self, ne_eq, heating] at hhungry hleft hright ⊢
    by_cases hj : j = i
    . exact hj
    . rw [Function.update_of_ne hj] at hhungry
      have htests := h.tests_of_inside hinside ⟨hhungry, hleft, hright⟩
      rw [hpc] at htests
      exact htests.elim

/--
Only the neighbours of a philosopher who stops eating can be ready for the first time.
-/
theorem Inv.setThinking (h : s.Inv) (hpc : s.pc i = .setThinking)
    : ({ s with stateSema := Function.update s.stateSema i .thinking }.goto i (.test .putLeft .self)).Inv := by
  have hinside : (s.pc i).place = .inside := by rw [hpc]; rfl
  obtain ⟨-, hsem⟩ := (h.sema i).of_fed (by rw [hpc]; rfl)
  have hpending (j : Fin n) : ({ s with stateSema := Function.update s.stateSema i .thinking }.goto i
      (.test .putLeft .self)).PendingUp j ↔ s.PendingUp j := pendingUp_goto (s := s) (by simp [hpc]) (by simp) j
  have hnone := h.not_pendingUp hinside (by simp [hpc])
  have heating {j : Fin n} (hj : Function.update s.stateSema i .thinking j = .eating) : s.stateSema j = .eating := by
    by_cases hji : j = i
    . simp [hji] at hj
    . simpa [hji] using hj
  refine h.of_inside hinside (fun j hj => by simp [goto, hj]) (h.mutex_inside hinside rfl) ?_ ?_ ?_ ?_
  . intro j
    rw [hpending j]
    by_cases hj : j = i
    . subst hj
      apply SemaOk.idle ?_ ?_ hsem (hnone j)
      . simp [goto, PhiPc.phase, PhiCall.phase]
      . simp [goto]
    . simpa [goto, hj] using h.sema j
  . intro call point hpoint
    simp only [goto, Function.update_self] at hpoint
    obtain ⟨rfl, rfl⟩ := PhiPc.test.inj hpoint
    trivial
  . intro j hj hright
    exact h.exclusion j (heating hj) (heating hright)
  . rintro j ⟨hhungry, hleft, hright⟩
    simp only [goto, Function.update_self] at hhungry hleft hright ⊢
    have hj : j ≠ i := by
      rintro rfl
      simp at hhungry
    rw [Function.update_of_ne hj] at hhungry
    by_cases hl : left j = i
    . exact .inr (eq_right_iff.mpr hl)
    . by_cases hr : right j = i
      . exact .inl (eq_left_iff.mpr hr)
      . rw [Function.update_of_ne hl] at hleft
        rw [Function.update_of_ne hr] at hright
        have htests := h.tests_of_inside hinside ⟨hhungry, hleft, hright⟩
        rw [hpc] at htests
        exact htests.elim

/--
A philosopher who is ready may eat.
-/
theorem Inv.eat (h : s.Inv) (hn : 2 ≤ n) (hpc : s.pc i = .test call .eat)
    : ({ s with stateSema := Function.update s.stateSema (call.phi i) .eating }.goto i (.test call .up)).Inv := by
  have hinside : (s.pc i).place = .inside := by rw [hpc]; rfl
  obtain ⟨hhungry, hleft, hright⟩ := h.point i call .eat hpc
  have hnone := h.not_pendingUp hinside (by simp [hpc])
  have hpending (j : Fin n) : ({ s with stateSema := Function.update s.stateSema (call.phi i) .eating }.goto i
      (.test call .up)).PendingUp j ↔ j = call.phi i := by
    constructor
    . rintro ⟨k, call', hk, rfl⟩
      by_cases hki : k = i
      . subst hki
        simp only [goto, Function.update_self] at hk
        obtain ⟨rfl, -⟩ := PhiPc.test.inj hk
        rfl
      . simp only [goto, Function.update_of_ne hki] at hk
        exact absurd (h.eq_of_test hinside hk) hki
    . rintro rfl
      exact ⟨i, call, by simp [goto], rfl⟩
  have hphase (j : Fin n) : (Function.update s.pc i (.test call .up) j).phase = (s.pc j).phase := by
    by_cases hj : j = i
    . simp [hj, hpc, PhiPc.phase]
    . simp [hj]
  have hwait (j : Fin n) : Function.update s.pc i (.test call .up) j = .waitS ↔ s.pc j = .waitS := by
    by_cases hj : j = i
    . simp [hj, hpc]
    . simp [hj]
  refine h.of_inside hinside (fun j hj => by simp [goto, hj]) (h.mutex_inside hinside rfl) ?_ ?_ ?_ ?_
  . intro j
    rw [hpending j]
    apply SemaOk.samePhase ?_ (hphase j) (hwait j)
    by_cases hj : j = call.phi i
    . subst hj
      have hsema := h.sema (call.phi i)
      rw [hhungry] at hsema
      obtain ⟨hwants, hsem⟩ := hsema.of_hungry
      exact .granting hwants (by simp [goto]) hsem rfl
    . have hsema := h.sema j
      rw [eq_false (hnone j)] at hsema
      simpa [goto, hj] using hsema
  . intro call' point hpoint
    simp only [goto, Function.update_self] at hpoint
    obtain ⟨rfl, rfl⟩ := PhiPc.test.inj hpoint
    trivial
  . intro j hj hright'
    simp only [goto] at hj hright'
    by_cases hphi : j = call.phi i
    . subst hphi
      rw [Function.update_of_ne (right_ne hn _)] at hright'
      exact hright hright'
    . rw [Function.update_of_ne hphi] at hj
      by_cases hphi' : right j = call.phi i
      . rw [← hphi', left_right] at hleft
        exact hleft hj
      . rw [Function.update_of_ne hphi'] at hright'
        exact h.exclusion j hj hright'
  . rintro j ⟨hhungry', hleft', hright'⟩
    simp only [goto, Function.update_self] at hhungry' hleft' hright' ⊢
    have heating {k : Fin n} (hk : Function.update s.stateSema (call.phi i) .eating k ≠ .eating)
        : s.stateSema k ≠ .eating := by
      by_cases hphi : k = call.phi i
      . simp [hphi] at hk
      . simpa [hphi] using hk
    have hphi : j ≠ call.phi i := by
      rintro rfl
      simp at hhungry'
    rw [Function.update_of_ne hphi] at hhungry'
    have htests := h.tests_of_inside hinside ⟨hhungry', heating hleft', heating hright'⟩
    rw [hpc] at htests
    cases call <;> exact htests

/--
The semaphore goes to a philosopher in its queue, or waits for one who comes.
-/
theorem Inv.up (h : s.Inv) (hpc : s.pc i = .test call .up)
    : ({ s with s := Function.update s.s (call.phi i) (s.s (call.phi i)).up.2 }.goto i call.next).Inv := by
  have hinside : (s.pc i).place = .inside := by rw [hpc]; rfl
  have hpending := h.pendingUp_iff hpc
  obtain ⟨hwants, heating, hsem⟩ := (h.sema (call.phi i)).of_pending ((hpending _).mpr rfl)
  have hnone (j : Fin n)
      : ¬({ s with s := Function.update s.s (call.phi i) (s.s (call.phi i)).up.2 }.goto i call.next).PendingUp j := by
    rintro ⟨k, call', hk, -⟩
    by_cases hki : k = i
    . simp only [goto, hki, Function.update_self] at hk
      exact PhiCall.next_ne_up call call' hk
    . simp only [goto, Function.update_of_ne hki] at hk
      exact hki (h.eq_of_test hinside hk)
  have hphase (j : Fin n) : (Function.update s.pc i call.next j).phase = (s.pc j).phase := by
    by_cases hj : j = i
    . simp only [hj, Function.update_self, PhiCall.phase_next, hpc]
      rfl
    . simp [hj]
  have hwait (j : Fin n) : Function.update s.pc i call.next j = .waitS ↔ s.pc j = .waitS := by
    by_cases hj : j = i
    . simp [hj, hpc, PhiCall.next_ne_waitS]
    . simp [hj]
  refine h.of_inside hinside (fun j hj => by simp [goto, hj]) (h.mutex_inside hinside (PhiCall.place_next call))
    ?_ ?_ h.exclusion ?_
  . intro j
    rw [eq_false (hnone j)]
    apply SemaOk.samePhase ?_ (hphase j) (hwait j)
    by_cases hj : j = call.phi i
    . subst hj
      refine .granted hwants heating ?_ not_false
      simp only [goto, Function.update_self, hsem, notGranted, PhiSema.granted]
      split <;> rfl
    . have hsema := h.sema j
      rw [eq_false (fun hup => hj ((hpending j).mp hup))] at hsema
      simpa [goto, hj] using hsema
  . intro call' point heq
    simp only [goto, Function.update_self] at heq
    exact pointOk_next heq
  . intro j hready
    simp only [goto, Function.update_self]
    have htests := h.tests_of_inside hinside hready
    rw [hpc] at htests
    refine tests_next htests ?_
    rintro rfl
    have hhungry : s.stateSema (call.phi i) = .hungry := hready.1
    rw [heating] at hhungry
    contradiction

/--
The philosopher takes its own semaphore or waits for it.
-/
theorem Inv.downS (h : s.Inv) (hpc : s.pc i = .downS)
    : ({ s with s := Function.update s.s i ((s.s i).down i).2 }.goto i
        (if ((s.s i).down i).1 then .waitS else .eating)).Inv := by
  have hout (pc : PhiPc) (hpc' : pc.place = .out)
      : s.mutex.MutexOk (Function.update (fun j => (s.pc j).place) i pc.place) :=
    h.mutex_same pc (by rw [hpc, hpc']; rfl)
  cases h.sema i with
  | hungry _ hstate hsem hup | granting _ hstate hsem hup =>
    have hdown : (s.s i).down i = (true, ⟨0, [i]⟩) := by simp [hsem, notGranted, hpc, Semaphore.down]
    rw [hdown]
    apply h.moveOutside (by simp [hpc]) (by simp) (hout .waitS rfl)
    first
      | exact .hungry rfl hstate rfl hup
      | exact .granting rfl hstate rfl hup
  | granted _ hstate hsem hup =>
    have hdown : (s.s i).down i = (false, ⟨0, []⟩) := by simp [hsem, granted, hpc, Semaphore.down]
    rw [hdown]
    apply h.moveOutside (by simp [hpc]) (by simp) (hout .eating rfl)
    exact .fed rfl hstate rfl hup
  | idle hphase _ _ _ | fed hphase _ _ _ =>
    rw [hpc] at hphase
    contradiction

theorem Inv.waitS (h : s.Inv) (hpc : s.pc i = .waitS) (hmem : i ∉ (s.s i).waitQueue) : (s.goto i .eating).Inv := by
  have hsema : SemaOk i .eating (s.stateSema i) (s.s i) (s.PendingUp i) := by
    cases h.sema i with
    | hungry _ hstate hsem hup | granting _ hstate hsem hup => simp [hsem, notGranted, hpc] at hmem
    | granted _ hstate hsem hup => exact .fed rfl hstate (by simpa [granted, hpc] using hsem) hup
    | idle hphase _ _ _ | fed hphase _ _ _ =>
      rw [hpc] at hphase
      contradiction
  have hmove := h.moveOutside (by simp [hpc]) (by simp) (h.mutex_same .eating (by rw [hpc]; rfl)) hsema
  rwa [Function.update_eq_self] at hmove

theorem Inv.phiTestSema (h : s.Inv) (hn : 2 ≤ n) (hpc : s.pc i = .test call point)
    : (s.phiTestSema i call point).Inv := by
  cases point with
  | self =>
    simp only [PhiSema.phiTestSema]
    split
    next hhungry => exact h.gotoPoint hpc (by simp) (by simp) hhungry
    next hhungry => exact h.gotoNext hpc (by simp) fun hready => hhungry hready.1
  | left =>
    simp only [PhiSema.phiTestSema]
    split
    next hleft => exact h.gotoPoint hpc (by simp) (by simp) ⟨h.point i call .left hpc, hleft⟩
    next hleft => exact h.gotoNext hpc (by simp) fun hready => hleft hready.2.1
  | right =>
    simp only [PhiSema.phiTestSema]
    obtain ⟨hhungry, hleft⟩ := h.point i call .right hpc
    split
    next hright => exact h.gotoPoint hpc (by simp) (by simp) ⟨hhungry, hleft, hright⟩
    next hright => exact h.gotoNext hpc (by simp) fun hready => hright hready.2.2
  | eat => exact h.eat hn hpc
  | up => exact h.up hpc

theorem Inv.step (h : s.Inv) (hn : 2 ≤ n) (hstep : s.step i = some s') : s'.Inv := by
  have hresume (pc : PhiPc) (hwaits : (s.pc i).place = .waits) (hmem : i ∉ s.mutex.waitQueue)
      (hinside : pc.place = .inside)
      : s.mutex.MutexOk (Function.update (fun j => (s.pc j).place) i pc.place) := by
    rw [hinside]
    exact h.mutex.resume hwaits hmem
  have hup (pc : PhiPc) (hinside : (s.pc i).place = .inside) (hout : pc.place = .out)
      : s.mutex.up.2.MutexOk (Function.update (fun j => (s.pc j).place) i pc.place) := by
    rw [hout]
    exact h.mutex.up hinside
  cases hpc : s.pc i with
  | thinking =>
    simp only [PhiSema.step, hpc, Option.some_inj] at hstep
    subst hstep
    exact h.moveMutex (by simp [hpc]) (by simp) (h.mutex_same _ (by rw [hpc]; rfl)) (by rw [hpc]; rfl) (by simp [hpc])
  | takeDown =>
    simp only [PhiSema.step, hpc, Option.some_inj] at hstep
    subst hstep
    exact h.downMutex (by simp [hpc]) (by simp) (by simp) (by rw [hpc]; rfl) rfl rfl (by rw [hpc]; rfl)
      (by rw [hpc]; rfl)
      (by simp [hpc])
  | takeWait =>
    simp only [PhiSema.step, hpc] at hstep
    split at hstep
    . contradiction
    next hmem =>
      obtain rfl := Option.some_inj.mp hstep
      exact h.moveMutex (by simp [hpc]) (by simp) (hresume _ (by rw [hpc]; rfl) hmem rfl) (by rw [hpc]; rfl)
        (by simp [hpc])
  | setHungry =>
    simp only [PhiSema.step, hpc, Option.some_inj] at hstep
    subst hstep
    exact h.setHungry hpc
  | test call point =>
    simp only [PhiSema.step, hpc, Option.some_inj] at hstep
    subst hstep
    exact h.phiTestSema hn hpc
  | takeUp =>
    simp only [PhiSema.step, hpc, Option.some_inj] at hstep
    subst hstep
    exact h.moveMutex (by simp [hpc]) (by simp) (hup _ (by rw [hpc]; rfl) rfl) (by rw [hpc]; rfl) (by simp [hpc])
  | downS =>
    simp only [PhiSema.step, hpc, Option.some_inj] at hstep
    subst hstep
    exact h.downS hpc
  | waitS =>
    simp only [PhiSema.step, hpc] at hstep
    split at hstep
    . contradiction
    next hmem =>
      obtain rfl := Option.some_inj.mp hstep
      exact h.waitS hpc hmem
  | eating =>
    simp only [PhiSema.step, hpc, Option.some_inj] at hstep
    subst hstep
    exact h.moveMutex (by simp [hpc]) (by simp) (h.mutex_same _ (by rw [hpc]; rfl)) (by rw [hpc]; rfl) (by simp [hpc])
  | putDown =>
    simp only [PhiSema.step, hpc, Option.some_inj] at hstep
    subst hstep
    exact h.downMutex (by simp [hpc]) (by simp) (by simp) (by rw [hpc]; rfl) rfl rfl (by rw [hpc]; rfl)
      (by rw [hpc]; rfl)
      (by simp [hpc])
  | putWait =>
    simp only [PhiSema.step, hpc] at hstep
    split at hstep
    . contradiction
    next hmem =>
      obtain rfl := Option.some_inj.mp hstep
      exact h.moveMutex (by simp [hpc]) (by simp) (hresume _ (by rw [hpc]; rfl) hmem rfl) (by rw [hpc]; rfl)
        (by simp [hpc])
  | setThinking =>
    simp only [PhiSema.step, hpc, Option.some_inj] at hstep
    subst hstep
    exact h.setThinking hpc
  | putUp =>
    simp only [PhiSema.step, hpc, Option.some_inj] at hstep
    subst hstep
    exact h.moveMutex (by simp [hpc]) (by simp) (hup _ (by rw [hpc]; rfl) rfl) (by rw [hpc]; rfl) (by simp [hpc])

theorem cases_of_step_none (hstep : s.step i = none)
    : (s.pc i).place = .waits ∧ i ∈ s.mutex.waitQueue ∨ s.pc i = .waitS ∧ i ∈ (s.s i).waitQueue := by
  cases hpc : s.pc i <;> simp only [PhiSema.step, hpc, ite_eq_left_iff, reduceCtorEq, imp_false, not_not] at hstep
  case takeWait => exact .inl ⟨rfl, hstep⟩
  case putWait => exact .inl ⟨rfl, hstep⟩
  case waitS => exact .inr ⟨rfl, hstep⟩

/--
A philosopher who has the mutex can go on.
-/
theorem holder_goes_on (hholds : s.mutex.Holds (fun k => (s.pc k).place) i) : s.pc i ≠ .thinking ∧ s.step i ≠ none := by
  simp only [Semaphore.Holds] at hholds
  constructor
  . intro hpc
    rw [hpc] at hholds
    simp [PhiPc.place] at hholds
  . intro hstep
    rcases cases_of_step_none hstep with ⟨hwaits, hmem⟩ | ⟨hpc, -⟩
    . simp [hwaits, hmem] at hholds
    . rw [hpc] at hholds
      simp [PhiPc.place] at hholds

/--
With a free mutex every philosopher who is ready has been seen.
-/
theorem Inv.not_ready (h : s.Inv) (hfree : ∀ j, ¬s.mutex.Holds (fun k => (s.pc k).place) j) : ¬s.Ready i := by
  intro hready
  obtain ⟨k, hk⟩ := h.ready i hready
  obtain ⟨call, point, hpc⟩ := test_of_tests hk
  apply hfree k (.inl ?_)
  dsimp only
  rw [hpc]
  rfl

theorem not_pendingUp_of_free (hfree : ∀ j, ¬s.mutex.Holds (fun k => (s.pc k).place) j)
    : ¬s.PendingUp i := by
  rintro ⟨k, call, hpc, -⟩
  apply hfree k (.inl ?_)
  dsimp only
  rw [hpc]
  rfl

/--
With a free mutex a philosopher who eats can go on.
-/
theorem Inv.eating_goes_on (h : s.Inv) (hfree : ∀ j, ¬s.mutex.Holds (fun k => (s.pc k).place) j)
    (hqueue : s.mutex.waitQueue = []) (heating : s.stateSema i = .eating)
    : s.pc i ≠ .thinking ∧ s.step i ≠ none := by
  have hblocked (hstep : s.step i = none) : s.pc i = .waitS ∧ i ∈ (s.s i).waitQueue := by
    rcases cases_of_step_none hstep with ⟨-, hmem⟩ | hwait
    . rw [hqueue] at hmem
      contradiction
    . exact hwait
  cases h.sema i with
  | idle _ hstate _ _ | hungry _ hstate _ _ =>
    rw [heating] at hstate
    contradiction
  | granting _ _ _ hup => exact absurd hup (not_pendingUp_of_free hfree)
  | granted hphase _ hsem _ =>
    constructor
    . intro hpc
      rw [hpc] at hphase
      contradiction
    . intro hstep
      have hmem := (hblocked hstep).2
      rw [hsem] at hmem
      contradiction
  | fed hphase _ _ _ =>
    constructor
    . intro hpc
      rw [hpc] at hphase
      contradiction
    . intro hstep
      rw [(hblocked hstep).1] at hphase
      contradiction

theorem Inv.not_deadlock (h : s.Inv) : ¬s.Deadlock := by
  rintro ⟨⟨i, hi⟩, hblocked⟩
  rcases h.mutex.held with ⟨-, hqueue, hfree⟩ | ⟨-, holder, hheld⟩
  . -- everybody waits for the own semaphore, and somebody next to one who waits eats
    have hwait : s.pc i = .waitS ∧ i ∈ (s.s i).waitQueue := by
      rcases cases_of_step_none (hblocked i hi) with ⟨-, hmem⟩ | hwait
      . rw [hqueue] at hmem
        contradiction
      . exact hwait
    have hhungry : s.stateSema i = .hungry := by
      cases h.sema i with
      | hungry _ hstate _ _ => exact hstate
      | granting _ _ _ hup => exact absurd hup (not_pendingUp_of_free hfree)
      | idle hphase _ _ _ | fed hphase _ _ _ =>
        rw [hwait.1] at hphase
        contradiction
      | granted _ _ hsem _ =>
        have hmem := hwait.2
        rw [hsem] at hmem
        contradiction
    have heats (j : Fin n) : s.stateSema j ≠ .eating := by
      intro heating
      obtain ⟨hj, hgoes⟩ := h.eating_goes_on hfree hqueue heating
      exact hgoes (hblocked j hj)
    exact h.not_ready hfree ⟨hhungry, heats _, heats _⟩
  . obtain ⟨hne, hgoes⟩ := holder_goes_on ((hheld holder).mpr rfl)
    exact hgoes (hblocked holder hne)

/--
The states of all interleavings.
-/
def Reachable (s : PhiSema n) : Prop := ∃ is, Run.exec step init is = some s

theorem Reachable.inv (h : s.Reachable) (hn : 2 ≤ n) : s.Inv := by
  obtain ⟨is, hexec⟩ := h
  exact Run.exec_invariant (fun s i s' hinv hstep => Inv.step hinv hn hstep) init_inv hexec

/--
Neighbours do not eat at the same time, no semaphore of a philosopher leaves 0 and 1, nobody who could eat is
forgotten when the mutex is free, and there is no deadlock.
-/
theorem philosophers_safe (hn : 2 ≤ n) (h : s.Reachable)
    : (∀ i, s.stateSema i = .eating → s.stateSema (left i) ≠ .eating ∧ s.stateSema (right i) ≠ .eating) ∧
        (∀ i, (s.s i).value = 0 ∨ (s.s i).value = 1) ∧
        (s.mutex.value.toInt > 0 → ∀ i, ¬s.Ready i) ∧
        ¬s.Deadlock := by
  have hinv := h.inv hn
  refine ⟨?_, ?_, ?_, hinv.not_deadlock⟩
  . intro i heating
    refine ⟨?_, hinv.exclusion i heating⟩
    intro hleft
    apply hinv.exclusion (left i) hleft
    rwa [right_left]
  . intro i
    cases hinv.sema i with
    | idle _ _ hsem _ | hungry _ _ hsem _ | granting _ _ hsem _ | fed _ _ hsem _ =>
      exact .inl (congrArg Semaphore.value hsem)
    | granted _ _ hsem _ =>
      rw [hsem, PhiSema.granted]
      split
      . exact .inl rfl
      . exact .inr rfl
  . intro hpos i
    rcases hinv.mutex.held with ⟨-, -, hfree⟩ | ⟨hzero, -⟩
    . exact hinv.not_ready hfree
    . rw [hzero] at hpos
      contradiction

/--
Two neighbours become hungry, the first one eats and gives way.
-/
def neighboursRun : List (Fin 5) := List.replicate 10 0 ++ List.replicate 6 1 ++ List.replicate 14 0 ++ [1]

def endOf (is : List (Fin n)) : PhiSema n := (Run.exec step init is).getD init

theorem philosophers_safe_neighboursRun
    : (endOf neighboursRun).stateSema 1 = .eating ∧ (endOf neighboursRun).stateSema 0 ≠ .eating := by
  have heating : (endOf neighboursRun).stateSema 1 = .eating := by decide +kernel
  have hreachable : (endOf neighboursRun).Reachable := by
    have hsome : (Run.exec step init neighboursRun).isSome := by decide +kernel
    obtain ⟨s, hs⟩ := Option.isSome_iff_exists.mp hsome
    exact ⟨neighboursRun, by rw [endOf, hs, Option.getD_some]⟩
  exact ⟨heating, ((philosophers_safe (by decide) hreachable).1 1 heating).1⟩

end PhiSema
end Ucore

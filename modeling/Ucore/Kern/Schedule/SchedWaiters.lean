import Ucore.Kern.Schedule.SchedInvariant

/-!
This module contains what the steps of the other processes do to a process that waits for a semaphore: it
stays asleep in its wait queue until it is taken out of there.
-/

namespace Ucore
namespace Sched

variable {s t u : Sched} {p q : Nat} {f : SchedProc → SchedProc}

/--
What says whether a process waits.
-/
def SameStateOf (s t : Sched) (q : Nat) : Prop :=
  (t.procs q).state = (s.procs q).state ∧ (t.procs q).waitState = (s.procs q).waitState

theorem SameStateOf.refl (s : Sched) (q : Nat) : s.SameStateOf s q := ⟨rfl, rfl⟩

theorem SameStateOf.trans (h : s.SameStateOf t q) (h' : t.SameStateOf u q) : s.SameStateOf u q :=
  ⟨h'.1.trans h.1, h'.2.trans h.2⟩

theorem sameStateOf_modify (hq : q ≠ p) : s.SameStateOf (s.modify p f) q := by
  simp [SameStateOf, Sched.modify, hq]

theorem sameStateOf_setSleeping (hq : q ≠ s.current) (waitState : BitVec 32)
    : s.SameStateOf (s.setSleeping waitState) q :=
  sameStateOf_modify hq

theorem sameStateOf_lab6SetPriority (priority : BitVec 32) : s.SameStateOf (s.lab6SetPriority priority) q := by
  by_cases hq : q = s.current
  . subst hq
    simp [SameStateOf, lab6SetPriority, Sched.modify]
  . exact sameStateOf_modify hq

theorem sameStateOf_schedClassProcTick : s.SameStateOf (s.schedClassProcTick p) q := by
  rw [schedClassProcTick]
  split
  . rw [strideProcTick_eq]
    by_cases hq : q = p
    . subst hq
      have hticked := (s.procs q).ticked_same
      have hspent := (s.procs q).ticked.spent_same
      simp [SameStateOf, Sched.modify, hticked, hspent]
    . exact (sameStateOf_modify hq).trans (sameStateOf_modify hq)
  . by_cases hq : q = p
    . subst hq
      simp [SameStateOf, Sched.modify]
    . exact sameStateOf_modify hq

theorem sameStateOf_wakeupProc (hq : q ≠ p) (hwakeup : s.wakeupProc p = some t) : s.SameStateOf t q := by
  by_cases hzombie : (s.procs p).state = .zombie
  . simp [Sched.wakeupProc, hzombie] at hwakeup
  . by_cases hrunnable : (s.procs p).state = .runnable
    . have hs : s = t := by simpa [Sched.wakeupProc, hrunnable] using hwakeup
      exact hs ▸ SameStateOf.refl s q
    . rw [wakeupProc_eq hzombie hrunnable, Option.some_inj] at hwakeup
      rw [← hwakeup]
      split
      . simp [SameStateOf, strideEnqueue_procs, Sched.modify, hq]
      . exact sameStateOf_modify hq

theorem wakeupProc_self (hsleeping : (s.procs p).state = .sleeping) (hwakeup : s.wakeupProc p = some t)
    : (t.procs p).state = .runnable ∧ (t.procs p).waitState = 0 := by
  rw [wakeupProc_eq (by simp [hsleeping]) (by simp [hsleeping]), Option.some_inj] at hwakeup
  rw [← hwakeup]
  split <;> simp [strideEnqueue_procs, Sched.modify, SchedProc.enqueued, SchedProc.woken]

/--
`do_exit` only wakes up what waits for a child.
-/
theorem sameStateOf_wakeParents {wakes : List Nat} (hq : (s.procs q).waitState ≠ wtChild)
    (hwake : s.wakeParents wakes = some t)
    : s.SameStateOf t q := by
  induction wakes generalizing s with
  | nil => exact Option.some_inj.mp hwake ▸ SameStateOf.refl s q
  | cons proc wakes ih =>
    rw [Sched.wakeParents] at hwake
    split at hwake
    next hwait =>
      obtain ⟨u, hu, hwake⟩ := Option.bind_eq_some_iff.mp hwake
      have hne : q ≠ proc := by
        rintro rfl
        exact hq hwait
      have hsame := sameStateOf_wakeupProc hne hu
      exact hsame.trans (ih (by rw [hsame.2]; exact hq) hwake)
    . exact ih hq hwake

theorem sameStateOf_runTimers {timers rest : List Timer} (hq : ∀ timer ∈ timers, timer.proc ≠ q)
    (hrun : s.runTimers timers = some (rest, t))
    : s.SameStateOf t q := by
  induction timers generalizing s with
  | nil => exact (Prod.mk.inj (Option.some_inj.mp hrun)).2 ▸ SameStateOf.refl s q
  | cons timer timers ih =>
    obtain ⟨hne, hq⟩ := List.forall_mem_cons.mp hq
    rw [Sched.runTimers] at hrun
    split at hrun
    . dsimp only at hrun
      split at hrun
      . contradiction
      . obtain ⟨u, hu, hrun⟩ := Option.bind_eq_some_iff.mp hrun
        exact (sameStateOf_wakeupProc hne.symm hu).trans (ih hq hrun)
    . exact (Prod.mk.inj (Option.some_inj.mp hrun)).2 ▸ SameStateOf.refl s q

theorem sameStateOf_runTimerList {timers rest : List Timer} (hq : ∀ timer ∈ timers, timer.proc ≠ q)
    (hlist : s.runTimerList timers = some (rest, t))
    : s.SameStateOf t q := by
  unfold Sched.runTimerList at hlist
  obtain ⟨⟨rest', u⟩, hexpired, hr⟩ := Option.map_eq_some_iff.mp hlist
  obtain ⟨-, rfl⟩ := Prod.mk.inj hr
  apply SameStateOf.trans ?_ sameStateOf_schedClassProcTick
  cases timers with
  | nil => exact (Prod.mk.inj (Option.some_inj.mp hexpired)).2 ▸ SameStateOf.refl s q
  | cons timer timers =>
    dsimp only at hexpired
    split at hexpired
    . contradiction
    . refine sameStateOf_runTimers ?_ hexpired
      exact List.forall_mem_cons.mpr (List.forall_mem_cons.mp hq)

end Sched

namespace SchedSys

variable {s s' : SchedSys} {q : Nat} {ev : SchedEvent}

/--
The process waits for a semaphore, or it has been woken up there and goes on.
-/
structure AtSem (s : SchedSys) (q : Nat) : Prop where
  place : s.place q = .semWait
  waitState : (s.sched.procs q).waitState = 0 ∨ (s.sched.procs q).waitState = wtKsem

/--
Nothing has changed for the process.
-/
structure Still (s s' : SchedSys) (q : Nat) : Prop where
  place : s'.place q = s.place q
  same : s.sched.SameStateOf s'.sched q
  queue : q ∈ s'.queue ↔ q ∈ s.queue

/--
It stands in the wait queue.
-/
def Asleep (s : SchedSys) (q : Nat) : Prop := q ∈ s.queue ∧ (s.sched.procs q).state = .sleeping

/--
It has been taken out of the wait queue.
-/
def Awake (s : SchedSys) (q : Nat) : Prop := q ∉ s.queue ∧ (s.sched.procs q).state = .runnable

theorem Asleep.still (h : s.Asleep q) (hstill : s.Still s' q) : s'.Asleep q :=
  ⟨hstill.queue.mpr h.1, hstill.same.1.trans h.2⟩

theorem Awake.still (h : s.Awake q) (hstill : s.Still s' q) : s'.Awake q :=
  ⟨fun hq => h.1 (hstill.queue.mp hq), hstill.same.1.trans h.2⟩

theorem AtSem.still (h : s.AtSem q) (hstill : s.Still s' q) : s'.AtSem q :=
  ⟨hstill.place.trans h.place, by rw [hstill.same.2]; exact h.waitState⟩

theorem AtSem.waitState_of_asleep (h : s.AtSem q) (hinv : s.Inv) (hasleep : s.Asleep q)
    : (s.sched.procs q).waitState = wtKsem := by
  have hfits := hinv.fits q
  rw [h.place] at hfits
  rcases h.waitState with hwait | hwait
  . simp only [SchedPlace.Fits, SchedPlace.waits, hwait, hasleep.2] at hfits
    exact absurd hfits (by decide)
  . exact hwait

theorem AtSem.not_interrupted (h : s.AtSem q) : (s.sched.procs q).waitState &&& wtInterrupted = 0 := by
  rcases h.waitState with hwait | hwait <;> rw [hwait] <;> decide

theorem AtSem.ne_child (h : s.AtSem q) : (s.sched.procs q).waitState ≠ wtChild := by
  rcases h.waitState with hwait | hwait <;> rw [hwait] <;> decide

/--
Only the wait queue and the process itself move a process that waits for a semaphore.
-/
theorem AtSem.step (h : s.AtSem q) (hinv : s.Inv) (hlegal : s.Legal ev) (hresume : ev = .resume → q ≠ s.sched.current)
    (hwakeup : ev ≠ .wakeupWait q) (hstep : s.step ev = some s')
    : s.Still s' q := by
  have hplace := h.place
  have hrunning (hcurrent : s.place s.sched.current = .running) : q ≠ s.sched.current :=
    ne_of_apply_ne s.place (by simp [hplace, hcurrent])
  cases ev with
  | fork child fails =>
    have hchild : q ≠ child := ne_of_apply_ne s.place (by simp [hplace, hlegal.2])
    have halloc : s.sched.SameStateOf (s.sched.allocProc child) q := Sched.sameStateOf_modify hchild
    simp only [SchedSys.step] at hstep
    split at hstep
    . contradiction
    . split at hstep
      . obtain rfl := Option.some_inj.mp hstep
        exact ⟨rfl, halloc, Iff.rfl⟩
      . obtain ⟨sched, hwoken, rfl⟩ := Option.map_eq_some_iff.mp hstep
        exact ⟨by simp [setPlace, hchild], halloc.trans (Sched.sameStateOf_wakeupProc hchild hwoken), Iff.rfl⟩
  | exit wakes =>
    have hne := hrunning hlegal.1
    obtain ⟨sched, hwake, rfl⟩ := Option.map_eq_some_iff.mp hstep
    have hzombie := Sched.sameStateOf_modify (s := s.sched) (f := fun p => { p with state := .zombie }) hne
    refine ⟨by simp [setPlace, hne], hzombie.trans (Sched.sameStateOf_wakeParents ?_ hwake), Iff.rfl⟩
    rw [hzombie.2]
    exact h.ne_child
  | wait =>
    have hne := hrunning hlegal.1
    obtain rfl := Option.some_inj.mp hstep
    exact ⟨by simp [setPlace, hne], Sched.sameStateOf_setSleeping hne _, Iff.rfl⟩
  | reap child =>
    have hne : q ≠ child := ne_of_apply_ne s.place (by simp [hplace, hlegal.2])
    obtain rfl := Option.some_inj.mp hstep
    exact ⟨by simp [setPlace, hne], Sched.SameStateOf.refl _ _, Iff.rfl⟩
  | sleep time =>
    have hne := hrunning hlegal.1
    simp only [SchedSys.step] at hstep
    split at hstep <;> obtain rfl := Option.some_inj.mp hstep
    . exact ⟨rfl, Sched.SameStateOf.refl _ _, Iff.rfl⟩
    . exact ⟨by simp [setPlace, hne], Sched.sameStateOf_setSleeping hne _, Iff.rfl⟩
  | block waitState =>
    have hne := hrunning hlegal.1
    obtain rfl := Option.some_inj.mp hstep
    exact ⟨by simp [setPlace, hne], Sched.sameStateOf_setSleeping hne _, by simp [setPlace, hne]⟩
  | schedule =>
    obtain ⟨sched, hschedule, rfl⟩ := Option.map_eq_some_iff.mp hstep
    obtain ⟨t, ht, -, -, hsame, -⟩ := Sched.schedule_spec hinv.pool hinv.current_notMem
    rw [hschedule] at ht
    obtain rfl := Option.some_inj.mp ht
    exact ⟨rfl, hsame q, Iff.rfl⟩
  | resume =>
    have hne := hresume rfl
    obtain rfl := Option.some_inj.mp hstep
    exact ⟨by simp [setPlace, hne], Sched.SameStateOf.refl _ _, List.mem_erase_of_ne hne⟩
  | wakeupWait proc =>
    have hne : q ≠ proc := fun hq => hwakeup (hq ▸ rfl)
    obtain ⟨sched, hwoken, rfl⟩ := Option.map_eq_some_iff.mp hstep
    exact ⟨rfl, Sched.sameStateOf_wakeupProc hne hwoken, List.mem_erase_of_ne hne⟩
  | kill proc =>
    simp only [SchedSys.step] at hstep
    split at hstep
    next hinterrupted =>
      have hne : q ≠ proc := by
        rintro rfl
        exact hinterrupted h.not_interrupted
      obtain ⟨sched, hwoken, rfl⟩ := Option.map_eq_some_iff.mp hstep
      exact ⟨rfl, Sched.sameStateOf_wakeupProc hne hwoken, Iff.rfl⟩
    . obtain rfl := Option.some_inj.mp hstep
      exact ⟨rfl, Sched.SameStateOf.refl _ _, Iff.rfl⟩
  | tick =>
    obtain ⟨⟨rest, sched⟩, hlist, rfl⟩ := Option.map_eq_some_iff.mp hstep
    have hne := hinv.timers_ne (p := q) (by simp [hplace])
    exact ⟨rfl, Sched.sameStateOf_runTimerList hne hlist, Iff.rfl⟩
  | setPriority priority =>
    obtain rfl := Option.some_inj.mp hstep
    exact ⟨rfl, Sched.sameStateOf_lab6SetPriority priority, Iff.rfl⟩

/--
The entry of a process that wakes up is gone.
-/
theorem AtSem.wakeupWait (h : s.AtSem q) (hinv : s.Inv) (hasleep : s.Asleep q)
    (hstep : s.step (.wakeupWait q) = some s')
    : s'.AtSem q ∧ s'.Awake q := by
  obtain ⟨sched, hwoken, rfl⟩ := Option.map_eq_some_iff.mp hstep
  obtain ⟨hrunnable, hwait⟩ := Sched.wakeupProc_self hasleep.2 hwoken
  exact ⟨⟨h.place, .inl hwait⟩, hinv.queueNodup.not_mem_erase, hrunnable⟩

/--
The current process goes to sleep in a wait queue.
-/
theorem block_asleep (hstep : s.step (.block wtKsem) = some s')
    : s'.AtSem s.sched.current ∧ s'.Asleep s.sched.current := by
  obtain rfl := Option.some_inj.mp hstep
  constructor
  . constructor <;> simp [setPlace, Sched.setSleeping, Sched.modify]
  . constructor <;> simp [setPlace, Sched.setSleeping, Sched.modify]

end SchedSys
end Ucore

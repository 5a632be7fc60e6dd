import Ucore.Kern.Schedule.SchedSys
import Ucore.Kern.Schedule.Sched.Lemmas

/-!
This module contains the invariant of the scheduler over all runs: what the state of a process says about
where it is, and which processes are in the run pool.
-/

namespace Ucore

namespace SchedPlace

/--
The wait states with which a process is asleep.
-/
def waits : SchedPlace → List (BitVec 32)
  | doWait => [wtChild]
  | doSleep => [wtTimer]
  | semWait => [wtKsem, wtKbd]
  | _ => []

def Fits (c : SchedPlace) (p : SchedProc) : Prop :=
  match c with
  | free => True
  | exited => p.state = .zombie ∧ p.waitState = 0
  | c => p.state = .runnable ∧ p.waitState = 0 ∨ p.state = .sleeping ∧ p.waitState ∈ c.waits

end SchedPlace

namespace SchedSys

variable {s s' : SchedSys} {p q proc : Nat} {ev : SchedEvent}

/--
A process that is to get a turn is in the pool.
-/
def Queued (s : SchedSys) (p : Nat) : Prop :=
  s.place p ≠ .free ∧ (s.sched.procs p).state = .runnable ∧ p ≠ s.sched.current ∧ p ≠ s.sched.idleproc

structure Inv (s : SchedSys) : Prop where
  pool : s.sched.PoolOk
  queued : ∀ p, p ∈ s.sched.lab6RunPool.elements ↔ s.Queued p
  fits : ∀ p, (s.place p).Fits (s.sched.procs p)
  idle : s.place s.sched.idleproc = .running
  current : s.place s.sched.current ≠ .free
  timers : ∀ timer ∈ s.timers, s.place timer.proc = .doSleep
  timersOk : Timer.Ok s.timers
  timersNodup : (s.timers.map (·.proc)).Nodup
  queue : ∀ p ∈ s.queue, s.place p = .semWait
  queueNodup : s.queue.Nodup

theorem boot_inv (procs : Nat → SchedProc) (idle : Nat) : (boot procs idle).Inv where
  pool := ⟨List.nodup_nil, by simp [boot, SkewHeap.elements], rfl⟩
  queued p := by
    by_cases hp : p = idle <;> simp [boot, SkewHeap.elements, Queued, hp]
  fits p := by
    by_cases hp : p = idle
    . simp [boot, hp, SchedPlace.Fits]
    . simp [boot, hp, SchedPlace.Fits]
  idle := by simp [boot]
  current := by simp [boot]
  timers := by simp [boot]
  timersOk := ⟨by simp [boot], by simp [boot, Timer.total]⟩
  timersNodup := List.nodup_nil
  queue := by simp [boot]
  queueNodup := List.nodup_nil

theorem Inv.current_notMem (h : s.Inv) : s.sched.current ∉ s.sched.lab6RunPool.elements :=
  fun hmem => ((h.queued _).mp hmem).2.2.1 rfl

/--
A process that is woken up is either ready to run or asleep.
-/
theorem Inv.ready_or_asleep (h : s.Inv) (hfree : s.place p ≠ .free) (hexited : s.place p ≠ .exited)
    : (s.sched.procs p).state = .runnable ∧ (s.sched.procs p).waitState = 0 ∨
        (s.sched.procs p).state = .sleeping ∧ (s.sched.procs p).waitState ∈ (s.place p).waits := by
  have hfits := h.fits p
  cases hplace : s.place p <;> simp only [hplace, SchedPlace.Fits] at hfits ⊢
  case free => contradiction
  case exited => contradiction
  all_goals exact hfits

theorem Inv.wakeup (h : s.Inv) (hfree : s.place p ≠ .free) (hexited : s.place p ≠ .exited)
    : ∃ sched, s.sched.wakeupProc p = some sched ∧ Inv { s with sched } ∧ sched.current = s.sched.current ∧
        sched.idleproc = s.sched.idleproc := by
  rcases h.ready_or_asleep hfree hexited with ⟨hrunnable, -⟩ | ⟨hsleeping, -⟩
  . refine ⟨s.sched, ?_, h, rfl, rfl⟩
    rw [Sched.wakeupProc, if_neg (by simp [hrunnable]), if_neg (not_not_intro hrunnable)]
  . have hp : p ∉ s.sched.lab6RunPool.elements := by
      intro hmem
      have := ((h.queued p).mp hmem).2.1
      rw [hsleeping] at this
      contradiction
    obtain ⟨t, hwakeup, hpool, hcurrent, hidle, hstate, hwait, hothers, hmem⟩ :=
      Sched.wakeupProc_spec h.pool hp (by simp [hsleeping]) (by simp [hsleeping])
    refine ⟨t, hwakeup, ⟨hpool, ?_, ?_, ?_, ?_, h.timers, h.timersOk, h.timersNodup, h.queue, h.queueNodup⟩,
      hcurrent, hidle⟩
    . intro q
      rw [hmem, h.queued]
      by_cases hqp : q = p
      . subst hqp
        simp [Queued, hstate, hcurrent, hidle, hfree, hsleeping]
      . simp [Queued, hothers q hqp, hcurrent, hidle, hqp]
    . intro q
      by_cases hqp : q = p
      . subst hqp
        cases hplace : s.place q <;> simp_all [SchedPlace.Fits]
      . rw [hothers q hqp]
        exact h.fits q
    . rw [hidle]
      exact h.idle
    . rw [hcurrent]
      exact h.current

/--
A change of fields that say nothing about where a process is.
-/
theorem Inv.modify (h : s.Inv) (p : Nat) {f : SchedProc → SchedProc} (hrq : ∀ proc, (f proc).rq = proc.rq)
    (hstate : ∀ proc, (f proc).state = proc.state) (hwait : ∀ proc, (f proc).waitState = proc.waitState)
    : Inv { s with sched := s.sched.modify p f } := by
  have hsame (q : Nat) : ((s.sched.modify p f).procs q).state = (s.sched.procs q).state ∧
      ((s.sched.modify p f).procs q).waitState = (s.sched.procs q).waitState := by
    by_cases hq : q = p <;> simp [Sched.modify, hq, hstate, hwait]
  refine ⟨h.pool.modify hrq, ?_, ?_, h.idle, h.current, h.timers, h.timersOk, h.timersNodup, h.queue, h.queueNodup⟩
  . intro q
    rw [Queued, (hsame q).1]
    exact h.queued q
  . intro q
    have hfits := h.fits q
    simp only [SchedPlace.Fits, (hsame q).1, (hsame q).2] at hfits ⊢
    exact hfits

/--
The current process gets to another place.
-/
theorem Inv.moveCurrent (h : s.Inv) {f : SchedProc → SchedProc} {c : SchedPlace} {timers : List Timer}
    {queue : List Nat} (hidle : s.sched.current ≠ s.sched.idleproc) (hrq : ∀ proc, (f proc).rq = proc.rq)
    (hc : c ≠ .free) (hfits : c.Fits (f (s.sched.procs s.sched.current)))
    (htimers : ∀ timer ∈ timers, Function.update s.place s.sched.current c timer.proc = .doSleep)
    (hok : Timer.Ok timers) (hnodup : (timers.map (·.proc)).Nodup)
    (hqueue : ∀ p ∈ queue, Function.update s.place s.sched.current c p = .semWait) (hqueueNodup : queue.Nodup)
    : Inv ⟨s.sched.modify s.sched.current f, Function.update s.place s.sched.current c, timers, queue⟩ := by
  refine ⟨h.pool.modify hrq, ?_, ?_, ?_, ?_, htimers, hok, hnodup, hqueue, hqueueNodup⟩
  . intro q
    refine (h.queued q).trans ?_
    by_cases hq : q = s.sched.current
    . simp [Queued, Sched.modify, hq]
    . simp [Queued, Sched.modify, hq]
  . intro q
    by_cases hq : q = s.sched.current
    . simpa [Sched.modify, hq] using hfits
    . simpa [Sched.modify, hq] using h.fits q
  . simpa [Sched.modify, hidle.symm] using h.idle
  . simpa [Sched.modify] using hc

theorem Inv.timers_ne (h : s.Inv) (hplace : s.place p ≠ .doSleep) : ∀ timer ∈ s.timers, timer.proc ≠ p := by
  rintro timer htimer rfl
  exact hplace (h.timers timer htimer)

theorem Inv.timers_update (h : s.Inv) (hplace : s.place p ≠ .doSleep) (c : SchedPlace)
    : ∀ timer ∈ s.timers, Function.update s.place p c timer.proc = .doSleep := by
  intro timer htimer
  rw [Function.update_of_ne (h.timers_ne hplace timer htimer)]
  exact h.timers timer htimer

theorem Inv.queue_update (h : s.Inv) (hplace : s.place p ≠ .semWait) (c : SchedPlace)
    : ∀ q ∈ s.queue, Function.update s.place p c q = .semWait := by
  intro q hq
  have hne : q ≠ p := by
    rintro rfl
    exact hplace (h.queue q hq)
  rw [Function.update_of_ne hne]
  exact h.queue q hq

theorem Inv.wakeParents (h : s.Inv) (wakes : List Nat) (hfree : ∀ p ∈ wakes, s.place p ≠ .free)
    : ∃ sched, s.sched.wakeParents wakes = some sched ∧ Inv { s with sched } := by
  induction wakes generalizing s with
  | nil => exact ⟨s.sched, rfl, h⟩
  | cons proc wakes ih =>
    obtain ⟨hfreeProc, hfree⟩ := List.forall_mem_cons.mp hfree
    rw [Sched.wakeParents]
    split
    next hwait =>
      -- a zombie waits for nothing
      have hexited : s.place proc ≠ .exited := by
        intro hplace
        have hfits := h.fits proc
        rw [hplace] at hfits
        rw [hfits.2] at hwait
        exact absurd hwait (by decide)
      obtain ⟨sched, hwakeup, hinv, -, -⟩ := h.wakeup hfreeProc hexited
      rw [hwakeup, Option.bind_some]
      exact ih hinv hfree
    . exact ih h hfree

theorem Inv.fork (h : s.Inv) {child : Nat} {fails : Bool} (hlegal : s.Legal (.fork child fails))
    : ∃ s', s.step (.fork child fails) = some s' ∧ s'.Inv := by
  obtain ⟨hrunning, hchild⟩ := hlegal
  have hne : s.sched.current ≠ child := ne_of_apply_ne s.place (by simp [hrunning, hchild])
  have hneIdle : s.sched.idleproc ≠ child := ne_of_apply_ne s.place (by simp [h.idle, hchild])
  have hfits := h.fits s.sched.current
  rw [hrunning] at hfits
  have hready : (s.sched.procs s.sched.current).state = .runnable ∧
      (s.sched.procs s.sched.current).waitState = 0 := by
    simpa [SchedPlace.Fits, SchedPlace.waits] using hfits
  have hnotMem : child ∉ s.sched.lab6RunPool.elements := fun hmem => ((h.queued child).mp hmem).1 hchild
  have hallocPool : (s.sched.allocProc child).PoolOk := h.pool.modify fun _ => rfl
  have halloc : Inv { s with sched := s.sched.allocProc child } := by
    refine ⟨hallocPool, ?_, ?_, h.idle, h.current, h.timers, h.timersOk, h.timersNodup, h.queue,
      h.queueNodup⟩
    . intro q
      refine (h.queued q).trans ?_
      by_cases hq : q = child
      . simp [Queued, hq, hchild]
      . simp [Queued, Sched.allocProc, Sched.modify, hq]
    . intro q
      by_cases hq : q = child
      . simp [hq, hchild, SchedPlace.Fits]
      . simpa [Sched.allocProc, Sched.modify, hq] using h.fits q
  have hwait' : ((s.sched.allocProc child).procs (s.sched.allocProc child).current).waitState = 0 := by
    simpa [Sched.allocProc, Sched.modify, hne] using hready.2
  simp only [step]
  rw [if_neg (not_not_intro hwait')]
  split
  . exact ⟨_, rfl, halloc⟩
  . have hstate : ((s.sched.allocProc child).procs child).state = .uninit := by
      simp [Sched.allocProc, Sched.modify]
    obtain ⟨t, hwakeup, hpool, hcurrent, hidle, hrunnable, hzero, hothers, hmem⟩ :=
      Sched.wakeupProc_spec halloc.pool hnotMem (by simp [hstate]) (by simp [hstate])
    refine ⟨_, Option.map_eq_some_iff.mpr ⟨t, hwakeup, rfl⟩,
      ⟨hpool, ?_, ?_, ?_, ?_, ?_, h.timersOk, h.timersNodup, ?_, h.queueNodup⟩⟩
    . intro q
      refine (hmem q).trans ?_
      rw [halloc.queued]
      by_cases hq : q = child
      . subst hq
        simp only [Queued, setPlace, Function.update_self, hcurrent, hidle, hrunnable]
        simp [hstate]
      . simp [Queued, setPlace, hq, hothers q hq, hcurrent, hidle]
    . intro q
      by_cases hq : q = child
      . subst hq
        simp [setPlace, SchedPlace.Fits, hrunnable, hzero]
      . simpa [setPlace, hq, hothers q hq] using halloc.fits q
    . simpa [setPlace, hidle, Sched.allocProc, Sched.modify, hneIdle] using h.idle
    . simpa [setPlace, hcurrent, Sched.allocProc, Sched.modify, hne] using h.current
    . exact h.timers_update (by simp [hchild]) _
    . exact h.queue_update (by simp [hchild]) _

/--
The state in which `do_exit` tests the parents.
-/
theorem Inv.exiting (h : s.Inv) {wakes : List Nat} (hlegal : s.Legal (.exit wakes))
    : Inv ⟨s.sched.modify s.sched.current fun p => { p with state := .zombie },
        Function.update s.place s.sched.current .exited, s.timers, s.queue⟩ := by
  obtain ⟨hrunning, hidle, -⟩ := hlegal
  have hready := h.ready_or_asleep (p := s.sched.current) (by simp [hrunning]) (by simp [hrunning])
  simp only [hrunning, SchedPlace.waits, List.not_mem_nil, and_false, or_false] at hready
  exact h.moveCurrent (f := fun p => { p with state := .zombie }) (c := .exited) hidle (fun _ => rfl) (by simp)
    ⟨rfl, hready.2⟩ (h.timers_update (by simp [hrunning]) _) h.timersOk h.timersNodup
    (h.queue_update (by simp [hrunning]) _) h.queueNodup

theorem alive_exiting {wakes : List Nat} (hlegal : s.Legal (.exit wakes))
    : ∀ p ∈ wakes, Function.update s.place s.sched.current .exited p ≠ .free := by
  intro p hp
  by_cases hcurrent : p = s.sched.current
  . simp [hcurrent]
  . simpa [hcurrent] using hlegal.2.2 p hp

theorem Inv.exit (h : s.Inv) {wakes : List Nat} (hlegal : s.Legal (.exit wakes))
    : ∃ s', s.step (.exit wakes) = some s' ∧ s'.Inv := by
  obtain ⟨sched, hwakes, hinv⟩ := (h.exiting hlegal).wakeParents wakes (alive_exiting hlegal)
  exact ⟨_, Option.map_eq_some_iff.mpr ⟨sched, hwakes, rfl⟩, hinv⟩

/--
The current process goes to sleep. It has not been in a timer or in a wait queue before.
-/
theorem Inv.sleeps (h : s.Inv) {waitState : BitVec 32} {c : SchedPlace}
    (hidle : s.sched.current ≠ s.sched.idleproc) (hwaits : waitState ∈ c.waits) {timers : List Timer}
    {queue : List Nat} (hok : Timer.Ok timers)
    (htimers : ∀ timer ∈ timers, Function.update s.place s.sched.current c timer.proc = .doSleep)
    (hnodup : (timers.map (·.proc)).Nodup)
    (hqueue : ∀ p ∈ queue, Function.update s.place s.sched.current c p = .semWait) (hqueueNodup : queue.Nodup)
    : Inv ⟨s.sched.setSleeping waitState, Function.update s.place s.sched.current c, timers, queue⟩ := by
  refine h.moveCurrent (f := fun p => { p with state := .sleeping, waitState }) hidle (fun _ => rfl) ?_ ?_ htimers hok
    hnodup hqueue hqueueNodup
  . rintro rfl
    simp [SchedPlace.waits] at hwaits
  . cases c <;> simp_all [SchedPlace.Fits, SchedPlace.waits]

theorem Inv.wait (h : s.Inv) (hlegal : s.Legal .wait) : ∃ s', s.step .wait = some s' ∧ s'.Inv := by
  obtain ⟨hrunning, hidle⟩ := hlegal
  exact ⟨_, rfl, h.sleeps hidle (by simp [SchedPlace.waits]) h.timersOk
    (h.timers_update (by simp [hrunning]) _) h.timersNodup (h.queue_update (by simp [hrunning]) _) h.queueNodup⟩

theorem Inv.sleep (h : s.Inv) {time : BitVec 32} (hlegal : s.Legal (.sleep time))
    : ∃ s', s.step (.sleep time) = some s' ∧ s'.Inv := by
  obtain ⟨hrunning, hidle⟩ := hlegal
  simp only [step]
  split
  . exact ⟨s, rfl, h⟩
  next htime =>
    have hperm : ((Timer.addTimer s.timers { expires := time.toNat, proc := s.sched.current }).map (·.proc)).Perm
        (s.sched.current :: s.timers.map (·.proc)) :=
      Timer.procs_addTimer
    have hnew : s.sched.current ∉ s.timers.map (·.proc) := by
      intro hmem
      obtain ⟨timer, htimer, hproc⟩ := List.mem_map.mp hmem
      exact h.timers_ne (by simp [hrunning]) timer htimer hproc
    refine ⟨_, rfl, h.sleeps hidle (by simp [SchedPlace.waits]) ?_ ?_ ?_
      (h.queue_update (by simp [hrunning]) _) h.queueNodup⟩
    . exact Timer.ok_addTimer h.timersOk (fun hzero => htime (BitVec.eq_of_toNat_eq hzero)) time.isLt
    . intro timer htimer
      have hmem := hperm.mem_iff.mp (List.mem_map_of_mem htimer)
      rcases List.mem_cons.mp hmem with hproc | hmem
      . rw [hproc, Function.update_self]
      . obtain ⟨old, hold, hproc⟩ := List.mem_map.mp hmem
        rw [← hproc]
        exact h.timers_update (by simp [hrunning]) _ old hold
    . exact hperm.nodup_iff.mpr (List.nodup_cons.mpr ⟨hnew, h.timersNodup⟩)

theorem Inv.block (h : s.Inv) {waitState : BitVec 32} (hlegal : s.Legal (.block waitState))
    : ∃ s', s.step (.block waitState) = some s' ∧ s'.Inv := by
  obtain ⟨hrunning, hidle, hwait⟩ := hlegal
  have hnew : s.sched.current ∉ s.queue := by
    intro hmem
    have := h.queue _ hmem
    rw [hrunning] at this
    contradiction
  refine ⟨_, rfl, h.sleeps hidle hwait h.timersOk (h.timers_update (by simp [hrunning]) _) h.timersNodup
    ?_ ?_⟩
  . intro p hp
    rcases List.mem_append.mp hp with hp | hp
    . exact h.queue_update (by simp [hrunning]) _ p hp
    . rw [List.mem_singleton.mp hp, Function.update_self]
  . refine List.nodup_append.mpr ⟨h.queueNodup, List.nodup_singleton _, ?_⟩
    rintro p hp q hq rfl
    exact hnew (List.mem_singleton.mp hq ▸ hp)

theorem Inv.reap (h : s.Inv) {child : Nat} (hlegal : s.Legal (.reap child))
    : ∃ s', s.step (.reap child) = some s' ∧ s'.Inv := by
  obtain ⟨hrunning, hchild⟩ := hlegal
  have hzombie := h.fits child
  rw [hchild] at hzombie
  have hne : s.sched.current ≠ child := ne_of_apply_ne s.place (by simp [hrunning, hchild])
  have hneIdle : s.sched.idleproc ≠ child := ne_of_apply_ne s.place (by simp [h.idle, hchild])
  refine ⟨_, rfl, ⟨h.pool, ?_, ?_, ?_, ?_, h.timers_update (by simp [hchild]) _, h.timersOk, h.timersNodup,
    h.queue_update (by simp [hchild]) _, h.queueNodup⟩⟩
  . intro q
    refine (h.queued q).trans ?_
    by_cases hq : q = child
    . simp [Queued, setPlace, hq, hzombie.1]
    . simp [Queued, setPlace, hq]
  . intro q
    by_cases hq : q = child
    . simp [setPlace, hq, SchedPlace.Fits]
    . simpa [setPlace, hq] using h.fits q
  . simpa [setPlace, hneIdle] using h.idle
  . simpa [setPlace, hne] using h.current

/--
`schedule` chooses from all processes that can run.
-/
theorem Inv.mem_putBack (h : s.Inv) (q : Nat)
    : q ∈ s.sched.putBack.lab6RunPool.elements ↔
        s.place q ≠ .free ∧ (s.sched.procs q).state = .runnable ∧ q ≠ s.sched.idleproc := by
  rw [Sched.mem_putBack, h.queued, Queued]
  by_cases hq : q = s.sched.current
  . subst hq
    simp [h.current]
  . simp [hq]

theorem Inv.schedule (h : s.Inv) : ∃ sched, s.sched.schedule = some sched ∧ Inv { s with sched } := by
  obtain ⟨t, hschedule, hpool, hidle, hsame, hmem, hnext⟩ := Sched.schedule_spec h.pool h.current_notMem
  refine ⟨t, hschedule, ⟨hpool, ?_, ?_, ?_, ?_, h.timers, h.timersOk, h.timersNodup, h.queue, h.queueNodup⟩⟩
  . intro q
    rw [hmem, h.mem_putBack, Queued, (hsame q).1, hidle]
    tauto
  . intro q
    have hfits := h.fits q
    simp only [SchedPlace.Fits, (hsame q).1, (hsame q).2] at hfits ⊢
    exact hfits
  . rw [hidle]
    exact h.idle
  . rcases hnext with hnext | ⟨hnext, -⟩
    . exact ((h.mem_putBack _).mp hnext).1
    . rw [hnext, h.idle]
      simp

theorem Inv.resume (h : s.Inv) (hlegal : s.Legal .resume) : ∃ s', s.step .resume = some s' ∧ s'.Inv := by
  obtain ⟨hplace, hrunnable⟩ := hlegal
  have hidle : s.sched.current ≠ s.sched.idleproc := by
    intro hidle
    rw [hidle, h.idle] at hplace
    simp at hplace
  have hready := h.ready_or_asleep (p := s.sched.current)
    (by intro hfree; simp [hfree] at hplace) (by intro hexited; simp [hexited] at hplace)
  simp only [hrunnable, true_and, reduceCtorEq, false_and, or_false] at hready
  have hmodify : s.sched.modify s.sched.current id = s.sched := by simp [Sched.modify]
  have hinv := fun timers queue => @h.moveCurrent s id .running timers queue hidle (fun _ => rfl) (by simp)
    (by simp [SchedPlace.Fits, hrunnable, hready])
  rw [hmodify] at hinv
  refine ⟨_, rfl, hinv _ _ ?_ ?_ ?_ ?_ (h.queueNodup.erase _)⟩
  . split
    . -- the timers that stay belong to other processes
      intro timer htimer
      have hmem := List.mem_map_of_mem (f := (·.proc)) htimer
      rw [Timer.procs_delTimer, h.timersNodup.mem_erase_iff] at hmem
      obtain ⟨old, hold, hproc⟩ := List.mem_map.mp hmem.2
      rw [Function.update_of_ne hmem.1, ← hproc]
      exact h.timers old hold
    next hsleep => exact h.timers_update hsleep _
  . split
    . exact Timer.ok_delTimer h.timersOk
    . exact h.timersOk
  . split
    . rw [Timer.procs_delTimer]
      exact h.timersNodup.erase _
    . exact h.timersNodup
  . intro q hq
    obtain ⟨hne, hq⟩ := h.queueNodup.mem_erase_iff.mp hq
    rw [Function.update_of_ne hne]
    exact h.queue q hq

theorem Inv.wakeupWait (h : s.Inv) (hlegal : s.Legal (.wakeupWait proc))
    : ∃ s', s.step (.wakeupWait proc) = some s' ∧ s'.Inv := by
  have hplace := h.queue proc hlegal
  obtain ⟨sched, hwakeup, hinv, -, -⟩ := h.wakeup (p := proc) (by simp [hplace]) (by simp [hplace])
  refine ⟨_, Option.map_eq_some_iff.mpr ⟨sched, hwakeup, rfl⟩, ?_⟩
  exact { hinv with
    queue := fun q hq => h.queue q (List.mem_of_mem_erase hq)
    queueNodup := h.queueNodup.erase _ }

theorem Inv.kill (h : s.Inv) (hlegal : s.Legal (.kill proc)) : ∃ s', s.step (.kill proc) = some s' ∧ s'.Inv := by
  simp only [step]
  split
  next hwait =>
    have hexited : s.place proc ≠ .exited := by
      intro hplace
      have hfits := h.fits proc
      rw [hplace] at hfits
      simp [hfits.2] at hwait
    obtain ⟨sched, hwakeup, hinv, -, -⟩ := h.wakeup hlegal hexited
    exact ⟨_, Option.map_eq_some_iff.mpr ⟨sched, hwakeup, rfl⟩, hinv⟩
  . exact ⟨s, rfl, h⟩

/--
The timers that have come to zero belong to processes in `do_sleep`.
-/
theorem Inv.runTimers {timers : List Timer} (h : Inv { s with timers := [] })
    (hplace : ∀ timer ∈ timers, s.place timer.proc = .doSleep) (htotal : Timer.total timers < 2 ^ 32)
    (hnodup : (timers.map (·.proc)).Nodup)
    : ∃ rest sched, s.sched.runTimers timers = some (rest, sched) ∧ Inv { s with sched, timers := rest } := by
  induction timers generalizing s with
  | nil => exact ⟨[], s.sched, rfl, h⟩
  | cons timer timers ih =>
    obtain ⟨hplaceTimer, hplace'⟩ := List.forall_mem_cons.mp hplace
    rw [Sched.runTimers]
    split
    next hexpired =>
      have hready := h.ready_or_asleep (p := timer.proc) (by simp [hplaceTimer]) (by simp [hplaceTimer])
      have hwait : ¬((s.sched.procs timer.proc).waitState ≠ 0 ∧
          (s.sched.procs timer.proc).waitState &&& wtInterrupted = 0) := by
        intro ⟨hne, hzero⟩
        rcases hready with ⟨-, hnone⟩ | ⟨-, htimer⟩
        . exact hne hnone
        . simp only [hplaceTimer, SchedPlace.waits, List.mem_singleton] at htimer
          rw [htimer] at hzero
          exact absurd hzero (by decide)
      obtain ⟨sched, hwakeup, hinv, -, -⟩ := h.wakeup (p := timer.proc) (by simp [hplaceTimer]) (by simp [hplaceTimer])
      dsimp only at hwakeup ⊢
      rw [if_neg hwait, hwakeup, Option.bind_some]
      refine ih (s := { s with sched }) hinv hplace' ?_ (List.nodup_cons.mp hnodup).2
      rw [Timer.total_cons] at htotal
      omega
    next hexpired =>
      refine ⟨_, _, rfl, { h with timers := hplace, timersOk := ⟨?_, htotal⟩, timersNodup := hnodup }⟩
      rintro first hfirst
      obtain rfl := Option.some_inj.mp hfirst
      exact hexpired

theorem Inv.withoutTimers (h : s.Inv) : Inv { s with timers := [] } :=
  { h with
    timers := by simp
    timersOk := ⟨by simp, by simp [Timer.total]⟩
    timersNodup := List.nodup_nil }

theorem Inv.schedClassProcTick (h : s.Inv) (p : Nat) : Inv { s with sched := s.sched.schedClassProcTick p } := by
  rw [Sched.schedClassProcTick]
  split
  . have hticked := h.modify p (f := SchedProc.ticked) (fun proc => proc.ticked_same.1)
      (fun proc => proc.ticked_same.2.1) (fun proc => proc.ticked_same.2.2.1)
    exact hticked.modify p (f := SchedProc.spent) (fun proc => proc.spent_same.1)
      (fun proc => proc.spent_same.2.1) (fun proc => proc.spent_same.2.2.1)
  . exact h.modify p (fun _ => rfl) (fun _ => rfl) (fun _ => rfl)

theorem Inv.tick (h : s.Inv) : ∃ s', s.step .tick = some s' ∧ s'.Inv := by
  have hnone := h.withoutTimers
  have hexpired : ∃ rest sched,
      s.sched.runTimerList s.timers = some (rest, sched.schedClassProcTick sched.current) ∧
        Inv { s with sched, timers := rest } := by
    cases htimers : s.timers with
    | nil => exact ⟨[], s.sched, rfl, hnone⟩
    | cons timer rest =>
      have hplace := h.timers
      have htotal := h.timersOk.total_lt
      have hnodup := h.timersNodup
      rw [htimers] at hplace htotal hnodup
      have htotal' : Timer.total ({ timer with expires := timer.expires - 1 } :: rest) < 2 ^ 32 := by
        rw [Timer.total_cons] at htotal ⊢
        dsimp only
        omega
      have hplace' : ∀ x ∈ { timer with expires := timer.expires - 1 } :: rest, s.place x.proc = .doSleep :=
        List.forall_mem_cons.mpr (List.forall_mem_cons.mp hplace)
      obtain ⟨rest', sched, hrun, hinv⟩ := Inv.runTimers hnone hplace' htotal' hnodup
      refine ⟨rest', sched, ?_, hinv⟩
      simp only [Sched.runTimerList, if_neg (h.timersOk.first timer (by rw [htimers]; rfl)), hrun, Option.map_some]
  obtain ⟨rest, sched, hlist, hinv⟩ := hexpired
  exact ⟨_, Option.map_eq_some_iff.mpr ⟨_, hlist, rfl⟩, hinv.schedClassProcTick _⟩

theorem Inv.step (h : s.Inv) (hlegal : s.Legal ev) : ∃ s', s.step ev = some s' ∧ s'.Inv := by
  cases ev with
  | fork child fails => exact h.fork hlegal
  | exit wakes => exact h.exit hlegal
  | wait => exact h.wait hlegal
  | reap child => exact h.reap hlegal
  | sleep time => exact h.sleep hlegal
  | block waitState => exact h.block hlegal
  | schedule =>
    obtain ⟨sched, hschedule, hinv⟩ := h.schedule
    exact ⟨_, Option.map_eq_some_iff.mpr ⟨sched, hschedule, rfl⟩, hinv⟩
  | resume => exact h.resume hlegal
  | wakeupWait proc => exact h.wakeupWait hlegal
  | kill proc => exact h.kill hlegal
  | tick => exact h.tick
  | setPriority priority => exact ⟨_, rfl, h.modify _ (fun _ => rfl) (fun _ => rfl) (fun _ => rfl)⟩

/--
The states of all runs from the end of `sched_init`, with whatever the memory of the processes holds.
-/
def Reachable (s : SchedSys) : Prop :=
  ∃ procs idle events, Run.Admits SchedSys.step Legal (boot procs idle) events ∧
    Run.exec SchedSys.step (boot procs idle) events = some s

theorem Reachable.inv (h : s.Reachable) : s.Inv := by
  obtain ⟨procs, idle, events, hlegal, hexec⟩ := h
  refine Run.exec_invariant_of_admits (I := Inv) ?_ (boot_inv procs idle) hlegal hexec
  intro t ev t' hinv hev hstep
  obtain ⟨u, hstep', hu⟩ := hinv.step hev
  rw [hstep] at hstep'
  exact Option.some_inj.mp hstep' ▸ hu

/--
A process is in the run pool once if it is to get a turn, and not at all otherwise. `idleproc` gets a turn
when nobody else can, and whatever happens next fails no assertion.
-/
theorem run_pool_membership (h : s.Reachable)
    : (∀ p, s.place p ≠ .free →
        s.sched.lab6RunPool.elements.count p =
          if (s.sched.procs p).state = .runnable ∧ p ≠ s.sched.current ∧ p ≠ s.sched.idleproc then 1 else 0) ∧
        (∀ p ∈ s.sched.lab6RunPool.elements, s.place p ≠ .free ∧ (s.sched.procs p).state ≠ .zombie) ∧
        s.sched.procNum = s.sched.lab6RunPool.elements.length ∧
        (∀ t, s.sched.schedule = some t → t.current = t.idleproc → t.lab6RunPool = .nil) ∧
        ∀ ev, s.Legal ev → ∃ s', s.step ev = some s' := by
  have hinv := h.inv
  refine ⟨?_, ?_, hinv.pool.count, ?_, ?_⟩
  . intro p hp
    split
    next hqueued => exact List.count_eq_one_of_mem hinv.pool.nodup ((hinv.queued p).mpr ⟨hp, hqueued⟩)
    next hqueued =>
      refine List.count_eq_zero.mpr ?_
      intro hmem
      exact hqueued ((hinv.queued p).mp hmem).2
  . intro p hmem
    obtain ⟨hplace, hrunnable, -⟩ := (hinv.queued p).mp hmem
    exact ⟨hplace, by simp [hrunnable]⟩
  . intro t hschedule hidle
    obtain ⟨u, hschedule', -, hidle', -, -, hnext⟩ := Sched.schedule_spec hinv.pool hinv.current_notMem
    rw [hschedule] at hschedule'
    obtain rfl := Option.some_inj.mp hschedule'
    rcases hnext with hnext | ⟨-, hnil, -⟩
    . -- `idleproc` does not go to the pool
      rw [hidle, hidle', Sched.mem_putBack] at hnext
      rcases hnext with hmem | ⟨hcurrent, -, hne⟩
      . exact absurd rfl ((hinv.queued _).mp hmem).2.2.2
      . exact absurd hcurrent.symm hne
    . exact hnil
  . intro ev hlegal
    obtain ⟨s', hstep, -⟩ := hinv.step hlegal
    exact ⟨s', hstep⟩

/--
Memory in which all processes have the same fields.
-/
def sameProcs (lab6Stride lab6Priority timeSlice : BitVec 32) : Nat → SchedProc := fun _ =>
  { state := .uninit, waitState := 0, runs := 0, needResched := false, rq := false, timeSlice, lab6Stride,
    lab6Priority }

/--
`idleproc` makes a process, which makes another one and falls asleep; the other one exits.
-/
def sleeperRun : List SchedEvent :=
  [.fork 1 false, .schedule, .fork 2 false, .sleep 2, .tick, .schedule, .exit [1, 1], .tick, .schedule, .resume,
    .reap 2]

def endOf (procs : Nat → SchedProc) (events : List SchedEvent) : SchedSys :=
  (Run.exec step (boot procs 0) events).getD (boot procs 0)

theorem reachable_endOf {procs : Nat → SchedProc} {events : List SchedEvent}
    (hlegal : Run.Admits step Legal (boot procs 0) events) (hexec : (Run.exec step (boot procs 0) events).isSome)
    : (endOf procs events).Reachable := by
  obtain ⟨s, hs⟩ := Option.isSome_iff_exists.mp hexec
  refine ⟨procs, 0, events, hlegal, ?_⟩
  rw [endOf, hs]
  rfl

theorem run_pool_membership_sleeperRun
    : (endOf (sameProcs 0 1 0) sleeperRun).sched.procNum =
        (endOf (sameProcs 0 1 0) sleeperRun).sched.lab6RunPool.elements.length :=
  (run_pool_membership (reachable_endOf (by decide +kernel) (by decide +kernel))).2.2.1

/--
`idleproc` goes on for a while when a process comes into the pool.
-/
theorem not_idle_alone
    : ¬∀ s : SchedSys, s.Reachable → s.sched.current = s.sched.idleproc → s.sched.lab6RunPool = .nil := by
  intro hclaim
  have hreachable : (endOf (sameProcs 0 1 0) [.fork 1 false]).Reachable :=
    reachable_endOf (by decide +kernel) (by decide +kernel)
  exact absurd (hclaim _ hreachable rfl) (by decide +kernel)

end SchedSys
end Ucore

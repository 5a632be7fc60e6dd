import Ucore.Kern.Schedule.SchedInvariant

/-!
This module contains the time slices: a process whose slice is not negative is asked to leave the processor
after at most `MAX_TIME_SLICE` ticks.
-/

namespace Ucore

namespace SchedProc

def InSlice (p : SchedProc) : Prop := 0 ≤ p.timeSlice.toInt ∧ p.timeSlice.toInt ≤ maxTimeSlice.toInt

variable {p : SchedProc}

theorem toInt_maxTimeSlice : maxTimeSlice.toInt = 5 := by decide

/--
`stride_enqueue` only leaves a negative slice as it is.
-/
theorem inSlice_enqueued (h : 0 ≤ p.timeSlice.toInt) : p.enqueued.InSlice := by
  unfold InSlice enqueued
  dsimp only
  rw [toInt_maxTimeSlice]
  split
  . rw [toInt_maxTimeSlice]
    omega
  . omega

theorem toInt_sub_one {x : BitVec 32} (h : x.toInt > 0) : (x - 1).toInt = x.toInt - 1 := by
  have := x.isLt
  have hone : BitVec.toNat (1 : BitVec 32) = 1 := rfl
  simp only [BitVec.toInt_eq_toNat_cond] at h ⊢
  simp only [BitVec.toNat_sub, hone]
  split at h <;> split <;> omega

theorem InSlice.ticked (h : p.InSlice) : p.ticked.InSlice := by
  unfold SchedProc.ticked
  split
  next hpos =>
    have := toInt_sub_one hpos
    obtain ⟨hlo, hhi⟩ := h
    constructor <;> dsimp only <;> omega
  . exact h

theorem timeSlice_spent : p.spent.timeSlice = p.timeSlice := by
  unfold spent
  split <;> rfl

theorem spent_ticked (h : p.needResched = true ∨ 0 ≤ p.timeSlice.toInt)
    : p.ticked.spent.needResched = true ∨
        0 < p.ticked.spent.timeSlice.toInt ∧ p.ticked.spent.timeSlice.toInt = p.timeSlice.toInt - 1 := by
  rw [timeSlice_spent, SchedProc.spent]
  split
  . exact .inl rfl
  next hne =>
    rcases h with h | h
    . left
      unfold SchedProc.ticked
      split <;> exact h
    . by_cases hpos : p.timeSlice.toInt > 0
      . right
        have hticked : p.ticked = { p with timeSlice := p.timeSlice - 1 } := if_pos hpos
        rw [hticked] at hne ⊢
        dsimp only at hne ⊢
        rw [toInt_sub_one hpos]
        have hzero : (p.timeSlice - 1).toInt ≠ 0 := fun hzero => hne (BitVec.eq_of_toInt_eq hzero)
        rw [toInt_sub_one hpos] at hzero
        omega
      . have hticked : p.ticked = p := if_neg hpos
        rw [hticked] at hne
        have hzero : p.timeSlice.toInt = 0 := by omega
        exact absurd (BitVec.eq_of_toInt_eq hzero) hne

end SchedProc

namespace Sched

/--
The current process goes on with its slice, and no slice gets out of its bounds.
-/
structure Undisturbed (s t : Sched) : Prop where
  current : t.current = s.current
  idleproc : t.idleproc = s.idleproc
  slices : ∀ q, (s.procs q).InSlice → (t.procs q).InSlice
  timeSlice : (t.procs s.current).timeSlice = (s.procs s.current).timeSlice
  needResched : (t.procs s.current).needResched = (s.procs s.current).needResched

variable {s t u : Sched} {p : Nat} {f : SchedProc → SchedProc}

theorem Undisturbed.refl (s : Sched) : s.Undisturbed s := ⟨rfl, rfl, fun _ => id, rfl, rfl⟩

theorem Undisturbed.trans (h : s.Undisturbed t) (h' : t.Undisturbed u) : s.Undisturbed u := by
  have htime := h'.timeSlice
  have hresched := h'.needResched
  rw [h.current] at htime hresched
  exact ⟨h'.current.trans h.current, h'.idleproc.trans h.idleproc, fun q hq => h'.slices q (h.slices q hq),
    htime.trans h.timeSlice, hresched.trans h.needResched⟩

theorem undisturbed_modify (htime : ∀ proc, (f proc).timeSlice = proc.timeSlice)
    (hresched : p = s.current → ∀ proc, (f proc).needResched = proc.needResched)
    : s.Undisturbed (s.modify p f) := by
  refine ⟨rfl, rfl, ?_, ?_, ?_⟩
  . intro q hq
    by_cases hqp : q = p
    . simpa [Sched.modify, hqp, SchedProc.InSlice, htime] using hqp ▸ hq
    . simpa [Sched.modify, hqp] using hq
  . by_cases hcurrent : s.current = p
    . simp [Sched.modify, hcurrent, htime]
    . simp [Sched.modify, hcurrent]
  . by_cases hcurrent : s.current = p
    . simp [Sched.modify, hcurrent, hresched hcurrent.symm]
    . simp [Sched.modify, hcurrent]

theorem undisturbed_setSleeping (waitState : BitVec 32) : s.Undisturbed (s.setSleeping waitState) :=
  undisturbed_modify (f := fun p => { p with state := .sleeping, waitState }) (fun _ => rfl) fun _ _ => rfl

theorem undisturbed_lab6SetPriority (priority : BitVec 32) : s.Undisturbed (s.lab6SetPriority priority) :=
  undisturbed_modify (f := fun p => { p with lab6Priority := if priority = 0 then 1 else priority }) (fun _ => rfl)
    fun _ _ => rfl

theorem slices_strideEnqueue (q : Nat) (h : (s.procs q).InSlice) : ((s.strideEnqueue p).procs q).InSlice := by
  rw [strideEnqueue_procs]
  by_cases hqp : q = p
  . rw [← hqp, Function.update_self]
    exact SchedProc.inSlice_enqueued h.1
  . rw [Function.update_of_ne hqp]
    exact h

theorem undisturbed_strideEnqueue (hp : p ≠ s.current) : s.Undisturbed (s.strideEnqueue p) := by
  refine ⟨rfl, rfl, slices_strideEnqueue, ?_, ?_⟩ <;> rw [strideEnqueue_procs, Function.update_of_ne hp.symm]

theorem undisturbed_wakeupProc (hwakeup : s.wakeupProc p = some t) : s.Undisturbed t := by
  by_cases hzombie : (s.procs p).state = .zombie
  . simp [Sched.wakeupProc, hzombie] at hwakeup
  . by_cases hrunnable : (s.procs p).state = .runnable
    . have hs : s = t := by simpa [Sched.wakeupProc, hrunnable] using hwakeup
      exact hs ▸ Undisturbed.refl s
    . have hwoken : s.Undisturbed (s.modify p SchedProc.woken) := undisturbed_modify (fun _ => rfl) fun _ _ => rfl
      rw [wakeupProc_eq hzombie hrunnable, Option.some_inj] at hwakeup
      rw [← hwakeup]
      split
      next hp => exact hwoken.trans (undisturbed_strideEnqueue hp.1)
      . exact hwoken

theorem undisturbed_wakeParents {wakes : List Nat} (hwake : s.wakeParents wakes = some t) : s.Undisturbed t := by
  induction wakes generalizing s with
  | nil => exact Option.some_inj.mp hwake ▸ Undisturbed.refl s
  | cons proc wakes ih =>
    rw [Sched.wakeParents] at hwake
    split at hwake
    . obtain ⟨u, hu, hwake⟩ := Option.bind_eq_some_iff.mp hwake
      exact (undisturbed_wakeupProc hu).trans (ih hwake)
    . exact ih hwake

theorem undisturbed_runTimers {timers rest : List Timer} (hrun : s.runTimers timers = some (rest, t))
    : s.Undisturbed t := by
  induction timers generalizing s with
  | nil => exact (Prod.mk.inj (Option.some_inj.mp hrun)).2 ▸ Undisturbed.refl s
  | cons timer timers ih =>
    rw [Sched.runTimers] at hrun
    split at hrun
    . dsimp only at hrun
      split at hrun
      . contradiction
      . obtain ⟨u, hu, hrun⟩ := Option.bind_eq_some_iff.mp hrun
        exact (undisturbed_wakeupProc hu).trans (ih hrun)
    . exact (Prod.mk.inj (Option.some_inj.mp hrun)).2 ▸ Undisturbed.refl s

/--
A tick leaves everything as it is but the slice of the current process.
-/
theorem runTimerList_spec {timers rest : List Timer} (hlist : s.runTimerList timers = some (rest, t))
    : ∃ u, s.Undisturbed u ∧ t = u.schedClassProcTick u.current := by
  unfold Sched.runTimerList at hlist
  obtain ⟨⟨rest', u⟩, hexpired, hr⟩ := Option.map_eq_some_iff.mp hlist
  obtain ⟨-, rfl⟩ := Prod.mk.inj hr
  refine ⟨u, ?_, rfl⟩
  cases timers with
  | nil => exact (Prod.mk.inj (Option.some_inj.mp hexpired)).2 ▸ Undisturbed.refl s
  | cons timer timers =>
    dsimp only at hexpired
    split at hexpired
    . contradiction
    . exact undisturbed_runTimers hexpired

theorem strideProcTick_procs : ((s.strideProcTick p).procs p) = (s.procs p).ticked.spent := by
  simp [strideProcTick_eq, Sched.modify]

theorem slices_schedClassProcTick (q : Nat) (h : (s.procs q).InSlice)
    : ((s.schedClassProcTick p).procs q).InSlice := by
  unfold schedClassProcTick
  split
  . by_cases hqp : q = p
    . rw [hqp, strideProcTick_procs, SchedProc.InSlice, SchedProc.timeSlice_spent]
      exact (hqp ▸ h).ticked
    . simpa [strideProcTick_eq, Sched.modify, hqp] using h
  . by_cases hqp : q = p
    . simpa [Sched.modify, hqp, SchedProc.InSlice] using hqp ▸ h
    . simpa [Sched.modify, hqp] using h

theorem slices_schedule (h : s.PoolOk) (hcurrent : s.current ∉ s.lab6RunPool.elements)
    (hschedule : s.schedule = some t) (q : Nat) (hq : (s.procs q).InSlice)
    : (t.procs q).InSlice := by
  have hputBack : (s.putBack.procs q).InSlice := by
    have hmodify : ((s.modify s.current fun p => { p with needResched := false }).procs q).InSlice := by
      by_cases hqc : q = s.current
      . simpa [Sched.modify, hqc, SchedProc.InSlice] using hqc ▸ hq
      . simpa [Sched.modify, hqc] using hq
    rcases putBack_cases s with ⟨-, -, hs⟩ | ⟨-, hs⟩ <;> rw [hs]
    . exact slices_strideEnqueue q hmodify
    . exact hmodify
  cases hpool : s.putBack.lab6RunPool with
  | nil =>
    rw [Sched.schedule, runNext_nil hpool, Option.some_inj] at hschedule
    rw [← hschedule]
    by_cases hqi : q = s.putBack.idleproc
    . simpa [Sched.modify, hqi, SchedProc.InSlice] using hqi ▸ hputBack
    . simpa [Sched.modify, hqi] using hputBack
  | node left next right =>
    rw [Sched.schedule, runNext_node (h.putBack hcurrent) hpool, Option.some_inj] at hschedule
    rw [← hschedule]
    by_cases hqn : q = next
    . simpa [hqn, SchedProc.picked, SchedProc.InSlice] using hqn ▸ hputBack
    . simpa [hqn] using hputBack

end Sched

namespace SchedSys

variable {s s' : SchedSys} {p : Nat} {ev : SchedEvent} {events : List SchedEvent}

/--
No process has a negative slice. `idleproc` has none.
-/
def Sliced (s : SchedSys) : Prop :=
  ∀ p, s.place p ≠ .free → p ≠ s.sched.idleproc → (s.sched.procs p).InSlice

/--
A step other than `schedule` and a tick leaves the slice of the current process.
-/
theorem step_undisturbed (hlegal : s.Legal ev) (hschedule : ev ≠ .schedule) (htick : ev ≠ .tick)
    (hstep : s.step ev = some s')
    : s.sched.Undisturbed s'.sched := by
  cases ev with
  | fork child fails =>
    have hne : child ≠ s.sched.current := ne_of_apply_ne s.place (by simp [hlegal.1, hlegal.2])
    have halloc : s.sched.Undisturbed (s.sched.allocProc child) :=
      Sched.undisturbed_modify (fun _ => rfl) fun hcurrent => absurd hcurrent hne
    simp only [step] at hstep
    split at hstep
    . contradiction
    . split at hstep
      . exact Option.some_inj.mp hstep ▸ halloc
      . obtain ⟨sched, hwakeup, rfl⟩ := Option.map_eq_some_iff.mp hstep
        exact halloc.trans (Sched.undisturbed_wakeupProc hwakeup)
  | exit wakes =>
    obtain ⟨sched, hwake, rfl⟩ := Option.map_eq_some_iff.mp hstep
    have hzombie := Sched.undisturbed_modify (s := s.sched) (p := s.sched.current)
      (f := fun p => { p with state := .zombie }) (fun _ => rfl) fun _ _ => rfl
    exact hzombie.trans (Sched.undisturbed_wakeParents hwake)
  | wait =>
    obtain rfl := Option.some_inj.mp hstep
    exact Sched.undisturbed_setSleeping _
  | reap child =>
    obtain rfl := Option.some_inj.mp hstep
    exact Sched.Undisturbed.refl _
  | sleep time =>
    simp only [step] at hstep
    split at hstep <;> obtain rfl := Option.some_inj.mp hstep
    . exact Sched.Undisturbed.refl _
    . exact Sched.undisturbed_setSleeping _
  | block waitState =>
    obtain rfl := Option.some_inj.mp hstep
    exact Sched.undisturbed_setSleeping _
  | schedule => contradiction
  | resume =>
    obtain rfl := Option.some_inj.mp hstep
    exact Sched.Undisturbed.refl _
  | wakeupWait proc =>
    obtain ⟨sched, hwakeup, rfl⟩ := Option.map_eq_some_iff.mp hstep
    exact Sched.undisturbed_wakeupProc hwakeup
  | kill proc =>
    simp only [step] at hstep
    split at hstep
    . obtain ⟨sched, hwakeup, rfl⟩ := Option.map_eq_some_iff.mp hstep
      exact Sched.undisturbed_wakeupProc hwakeup
    . obtain rfl := Option.some_inj.mp hstep
      exact Sched.Undisturbed.refl _
  | tick => contradiction
  | setPriority priority =>
    obtain rfl := Option.some_inj.mp hstep
    exact Sched.undisturbed_lab6SetPriority priority

/--
A process only comes up with a `do_fork`.
-/
theorem step_alive (hlegal : s.Legal ev) (hinv : s.Inv) (hstep : s.step ev = some s') (q : Nat)
    (hq : s'.place q ≠ .free)
    : s.place q ≠ .free ∨ ev = .fork q false := by
  have hupdate {p : Nat} {c : SchedPlace} (hp : s.place p ≠ .free)
      (hq : Function.update s.place p c q ≠ .free) : s.place q ≠ .free := by
    by_cases hqp : q = p
    . exact hqp ▸ hp
    . rwa [Function.update_of_ne hqp] at hq
  cases ev with
  | fork child fails =>
    simp only [step] at hstep
    split at hstep
    . contradiction
    . split at hstep
      . obtain rfl := Option.some_inj.mp hstep
        exact .inl hq
      next hfails =>
        obtain ⟨sched, -, rfl⟩ := Option.map_eq_some_iff.mp hstep
        by_cases hqc : q = child
        . right
          rw [hqc, show fails = false by simpa using hfails]
        . left
          simpa [setPlace, hqc] using hq
  | exit wakes =>
    obtain ⟨sched, -, rfl⟩ := Option.map_eq_some_iff.mp hstep
    exact .inl (hupdate hinv.current hq)
  | sleep time =>
    simp only [step] at hstep
    split at hstep <;> obtain rfl := Option.some_inj.mp hstep
    . exact .inl hq
    . exact .inl (hupdate hinv.current hq)
  | reap child =>
    obtain rfl := Option.some_inj.mp hstep
    exact .inl (hupdate (by simp [hlegal.2]) hq)
  | kill proc =>
    simp only [step] at hstep
    split at hstep
    . obtain ⟨sched, -, rfl⟩ := Option.map_eq_some_iff.mp hstep
      exact .inl hq
    . exact .inl (Option.some_inj.mp hstep ▸ hq)
  | wait | block _ | resume =>
    obtain rfl := Option.some_inj.mp hstep
    exact .inl (hupdate hinv.current hq)
  | setPriority priority =>
    obtain rfl := Option.some_inj.mp hstep
    exact .inl hq
  | schedule | wakeupWait proc | tick =>
    obtain ⟨sched, -, rfl⟩ := Option.map_eq_some_iff.mp hstep
    exact .inl hq

/--
The time slice of a new process comes from memory.
-/
def CleanSlice (s : SchedSys) (ev : SchedEvent) : Prop :=
  ∀ child, ev = .fork child false → 0 ≤ (s.sched.procs child).timeSlice.toInt

theorem slices_step (hinv : s.Inv) (hlegal : s.Legal ev) (hstep : s.step ev = some s')
    : s'.sched.idleproc = s.sched.idleproc ∧ ∀ q, (s.sched.procs q).InSlice → (s'.sched.procs q).InSlice := by
  by_cases hschedule : ev = .schedule
  . subst hschedule
    obtain ⟨sched, hsched, rfl⟩ := Option.map_eq_some_iff.mp hstep
    obtain ⟨t, ht, -, hidle, -⟩ := Sched.schedule_spec hinv.pool hinv.current_notMem
    rw [hsched] at ht
    obtain rfl := Option.some_inj.mp ht
    exact ⟨hidle, Sched.slices_schedule hinv.pool hinv.current_notMem hsched⟩
  . by_cases htick : ev = .tick
    . subst htick
      obtain ⟨⟨rest, sched⟩, hlist, rfl⟩ := Option.map_eq_some_iff.mp hstep
      obtain ⟨u, hu, rfl⟩ := Sched.runTimerList_spec hlist
      refine ⟨?_, fun q hq => Sched.slices_schedClassProcTick q (hu.slices q hq)⟩
      rw [← hu.idleproc]
      simp only [Sched.schedClassProcTick]
      split <;> rfl
    . have h := step_undisturbed hlegal hschedule htick hstep
      exact ⟨h.idleproc, h.slices⟩

theorem Sliced.step (h : s.Sliced) (hinv : s.Inv) (hlegal : s.Legal ev) (hclean : s.CleanSlice ev)
    (hstep : s.step ev = some s')
    : s'.Sliced := by
  obtain ⟨hidle, hslices⟩ := slices_step hinv hlegal hstep
  intro q hq hqi
  rcases step_alive hlegal hinv hstep q hq with hq | rfl
  . exact hslices q (h q hq (hidle ▸ hqi))
  . have hne : q ≠ s.sched.current := ne_of_apply_ne s.place (by simp [hlegal.1, hlegal.2])
    have hstate : ((s.sched.allocProc q).procs q).state = .uninit := by simp [Sched.allocProc, Sched.modify]
    have hnew : (s.sched.allocProc q).wakeupProc q =
        some (((s.sched.allocProc q).modify q SchedProc.woken).strideEnqueue q) := by
      rw [Sched.wakeupProc_eq (by simp [hstate]) (by simp [hstate])]
      exact congrArg some (if_pos ⟨hne, hidle ▸ hqi⟩)
    simp only [SchedSys.step, hnew] at hstep
    split at hstep
    . contradiction
    . obtain rfl := Option.some_inj.mp hstep
      have hgarbage := hclean q rfl
      simp only [setPlace, Sched.strideEnqueue_procs, Sched.allocProc, Sched.modify, Function.update_self]
      exact SchedProc.inSlice_enqueued hgarbage

/--
After `ticks` ticks of its turn the current process is to be preempted, or the ticks have gone off its slice.
-/
def Spent (s : SchedSys) (ticks : Nat) : Prop :=
  (s.sched.procs s.sched.current).needResched = true ∨
    0 ≤ (s.sched.procs s.sched.current).timeSlice.toInt ∧
      (s.sched.procs s.sched.current).timeSlice.toInt + ticks ≤ maxTimeSlice.toInt ∧
      (0 < ticks → 0 < (s.sched.procs s.sched.current).timeSlice.toInt)

/--
Without a call of `schedule` a step keeps the current process, and a tick goes off its slice.
-/
theorem Spent.step {ticks : Nat} (h : s.Spent ticks) (hlegal : s.Legal ev) (hschedule : ev ≠ .schedule)
    (hidle : s.sched.current ≠ s.sched.idleproc) (hstep : s.step ev = some s')
    : s'.Spent (ticks + if ev = .tick then 1 else 0) ∧ s'.sched.current = s.sched.current ∧
        s'.sched.idleproc = s.sched.idleproc := by
  by_cases htick : ev = .tick
  . subst htick
    obtain ⟨⟨rest, sched⟩, hlist, rfl⟩ := Option.map_eq_some_iff.mp hstep
    obtain ⟨u, hu, rfl⟩ := Sched.runTimerList_spec hlist
    have hne : u.current ≠ u.idleproc := by
      rw [hu.current, hu.idleproc]
      exact hidle
    have htime := hu.timeSlice
    have hresched := hu.needResched
    rw [← hu.current] at htime hresched
    unfold Spent at h ⊢
    rw [← hu.current, ← htime, ← hresched] at h
    simp only [Sched.schedClassProcTick, if_pos hne]
    refine ⟨?_, hu.current, hu.idleproc⟩
    rw [show (u.strideProcTick u.current).current = u.current from rfl, Sched.strideProcTick_procs]
    rcases SchedProc.spent_ticked (h.imp_right And.left) with hneed | ⟨hpos, heq⟩
    . exact .inl hneed
    . rcases h with h | ⟨-, hle, -⟩
      . left
        rw [SchedProc.spent]
        split
        . rfl
        . rw [SchedProc.ticked]
          split <;> exact h
      . right
        rw [if_pos trivial]
        omega
  . have hu := step_undisturbed hlegal hschedule htick hstep
    rw [if_neg htick, Nat.add_zero, Spent, hu.current, hu.timeSlice, hu.needResched]
    exact ⟨h, rfl, hu.idleproc⟩

theorem Spent.run {ticks : Nat} (h : s.Spent ticks) (hinv : s.Inv) (hlegal : Run.Admits SchedSys.step Legal s events)
    (hschedule : .schedule ∉ events) (hidle : s.sched.current ≠ s.sched.idleproc)
    (hexec : Run.exec SchedSys.step s events = some s')
    : s'.Spent (ticks + events.count .tick) := by
  induction events generalizing s ticks with
  | nil =>
    obtain rfl := Option.some_inj.mp hexec
    exact h
  | cons ev events ih =>
    obtain ⟨t, hstep, hrest⟩ := Option.bind_eq_some_iff.mp hexec
    obtain ⟨hne, hschedule⟩ := List.ne_and_not_mem_of_not_mem_cons hschedule
    obtain ⟨ht, hcurrent, hidle'⟩ := h.step hlegal.1 hne.symm hidle hstep
    obtain ⟨t', hstep', hinv'⟩ := hinv.step hlegal.1
    rw [hstep] at hstep'
    obtain rfl := Option.some_inj.mp hstep'
    have := ih ht hinv' (hlegal.2 t hstep) hschedule (by rw [hcurrent, hidle']; exact hidle) hrest
    rw [List.count_cons, Nat.add_comm (events.count _), ← Nat.add_assoc]
    simpa using this

/--
`MAX_TIME_SLICE` ticks without a call of `schedule` are enough.
-/
theorem Sliced.preempted (h : s.Sliced) (hinv : s.Inv) (hlegal : Run.Admits SchedSys.step Legal s events)
    (hschedule : .schedule ∉ events) (hidle : s.sched.current ≠ s.sched.idleproc)
    (hticks : maxTimeSlice.toNat ≤ events.count .tick) (hexec : Run.exec SchedSys.step s events = some s')
    : (s'.sched.procs s'.sched.current).needResched = true := by
  have hslice := h s.sched.current hinv.current hidle
  have hstart : s.Spent 0 := .inr ⟨hslice.1, by simpa using hslice.2, fun hlt => absurd hlt (Nat.lt_irrefl 0)⟩
  have hmax : maxTimeSlice.toNat = 5 := rfl
  have hmax' := SchedProc.toInt_maxTimeSlice
  rcases hstart.run hinv hlegal hschedule hidle hexec with hneed | ⟨-, hle, hpos⟩
  . exact hneed
  . have := hpos (by omega)
    omega

end SchedSys
end Ucore

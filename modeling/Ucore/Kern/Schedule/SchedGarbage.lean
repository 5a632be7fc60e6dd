import Ucore.Kern.Schedule.SchedTicks

/-!
This module contains what the scheduler sees of free memory: `alloc_proc` leaves the stride, the priority and
the time slice of a new process as it finds them.
-/

namespace Ucore

namespace SchedProc

/--
The scheduler does the same with both processes. A priority only counts by what it adds to the stride.
-/
structure Agree (x y : SchedProc) : Prop where
  state : x.state = y.state
  waitState : x.waitState = y.waitState
  needResched : x.needResched = y.needResched
  rq : x.rq = y.rq
  timeSlice : x.timeSlice = y.timeSlice
  lab6Stride : x.lab6Stride = y.lab6Stride
  pace : x.pace = y.pace

/--
What two memories hold for a new process comes to the same once it is in the run pool.
-/
structure SameGarbage (x y : SchedProc) : Prop where
  lab6Stride : x.lab6Stride = y.lab6Stride
  pace : x.pace = y.pace
  timeSlice : x.enqueued.timeSlice = y.enqueued.timeSlice

variable {x y : SchedProc}

theorem Agree.refl (x : SchedProc) : Agree x x := ⟨rfl, rfl, rfl, rfl, rfl, rfl, rfl⟩

theorem Agree.enqueued (h : Agree x y) : Agree x.enqueued y.enqueued :=
  ⟨h.state, h.waitState, h.needResched, rfl, by simp only [SchedProc.enqueued, h.timeSlice], h.lab6Stride, h.pace⟩

theorem Agree.woken (h : Agree x y) : Agree x.woken y.woken :=
  ⟨rfl, rfl, h.needResched, h.rq, h.timeSlice, h.lab6Stride, h.pace⟩

theorem Agree.picked (h : Agree x y) : Agree x.picked y.picked :=
  ⟨h.state, h.waitState, h.needResched, h.rq, h.timeSlice, by simp only [SchedProc.picked, h.lab6Stride, h.pace],
    h.pace⟩

theorem Agree.ticked (h : Agree x y) : Agree x.ticked y.ticked := by
  unfold SchedProc.ticked
  rw [h.timeSlice]
  split
  . exact ⟨h.state, h.waitState, h.needResched, h.rq, rfl, h.lab6Stride, h.pace⟩
  . exact h

theorem Agree.spent (h : Agree x y) : Agree x.spent y.spent := by
  unfold SchedProc.spent
  rw [h.timeSlice]
  split
  . exact ⟨h.state, h.waitState, rfl, h.rq, rfl, h.lab6Stride, h.pace⟩
  . exact h

end SchedProc

namespace Sched

/--
The schedulers agree on the processes of `A`.
-/
structure AlikeOn (A : Nat → Prop) (s t : Sched) : Prop where
  pool : s.lab6RunPool = t.lab6RunPool
  procNum : s.procNum = t.procNum
  current : s.current = t.current
  idleproc : s.idleproc = t.idleproc
  procs : ∀ p, A p → (s.procs p).Agree (t.procs p)

variable {A B : Nat → Prop} {s t s' : Sched} {p : Nat} {f : SchedProc → SchedProc}

theorem AlikeOn.mono (h : AlikeOn A s t) (hB : ∀ p, B p → A p) : AlikeOn B s t :=
  { h with procs := fun p hp => h.procs p (hB p hp) }

theorem AlikeOn.modify (h : AlikeOn A s t) (p : Nat) (hf : ∀ x y, x.Agree y → (f x).Agree (f y))
    : AlikeOn A (s.modify p f) (t.modify p f) := by
  refine { h with procs := ?_ }
  intro q hq
  by_cases hqp : q = p
  . simpa [Sched.modify, hqp] using hf _ _ (h.procs p (hqp ▸ hq))
  . simpa [Sched.modify, hqp] using h.procs q hq

theorem AlikeOn.modify_outside (h : AlikeOn A s t) (hp : ¬A p) : AlikeOn A (s.modify p f) (t.modify p f) := by
  refine { h with procs := ?_ }
  intro q hq
  have hqp : q ≠ p := by
    rintro rfl
    exact hp hq
  simpa [Sched.modify, hqp] using h.procs q hq

theorem AlikeOn.before (h : AlikeOn A s t) {a b : Nat} (ha : A a) (hb : A b) : s.before a b = t.before a b :=
  before_congr (h.procs a ha).lab6Stride (h.procs b hb).lab6Stride

/--
A process that comes into the pool with the same stride.
-/
theorem AlikeOn.strideEnqueue (h : AlikeOn A s t) (hpool : ∀ q ∈ s.lab6RunPool.elements, A q)
    (hstride : (s.procs p).lab6Stride = (t.procs p).lab6Stride)
    (hp : (s.procs p).enqueued.Agree (t.procs p).enqueued)
    : AlikeOn (fun q => A q ∨ q = p) (s.strideEnqueue p) (t.strideEnqueue p) := by
  have hstrides : ∀ q, A q ∨ q = p → (s.procs q).lab6Stride = (t.procs q).lab6Stride := by
    rintro q (hq | rfl)
    . exact (h.procs q hq).lab6Stride
    . exact hstride
  have hinsert : SkewHeap.insert s.before s.lab6RunPool p = SkewHeap.insert t.before t.lab6RunPool p := by
    rw [← h.pool]
    apply SkewHeap.merge_congr (S := fun q => A q ∨ q = p)
    . exact fun q hq => .inl (hpool q hq)
    . simp [SkewHeap.elements]
    . exact fun a b ha hb => before_congr (hstrides a ha) (hstrides b hb)
  refine ⟨hinsert, congrArg (· + 1) h.procNum, h.current, h.idleproc, ?_⟩
  rintro q hq
  rw [strideEnqueue_procs, strideEnqueue_procs]
  by_cases hqp : q = p
  . rw [hqp, Function.update_self, Function.update_self]
    exact hp
  . rw [Function.update_of_ne hqp, Function.update_of_ne hqp]
    exact h.procs q (hq.resolve_right hqp)

theorem AlikeOn.strideEnqueue_self (h : AlikeOn A s t) (hpool : ∀ q ∈ s.lab6RunPool.elements, A q) (hp : A p)
    : AlikeOn A (s.strideEnqueue p) (t.strideEnqueue p) :=
  (h.strideEnqueue hpool (h.procs p hp).lab6Stride (h.procs p hp).enqueued).mono fun _ => .inl

theorem AlikeOn.wakeupProc (h : AlikeOn A s t) (hpool : ∀ q ∈ s.lab6RunPool.elements, A q) (hp : A p)
    (hwakeup : s.wakeupProc p = some s')
    : ∃ t', t.wakeupProc p = some t' ∧ AlikeOn A s' t' := by
  have hstate := (h.procs p hp).state
  have hwoken : AlikeOn A (s.modify p SchedProc.woken) (t.modify p SchedProc.woken) :=
    h.modify p fun _ _ => SchedProc.Agree.woken
  by_cases hzombie : (s.procs p).state = .zombie
  . simp [Sched.wakeupProc, hzombie] at hwakeup
  . by_cases hrunnable : (s.procs p).state = .runnable
    . have hs : s = s' := by simpa [Sched.wakeupProc, hrunnable] using hwakeup
      refine ⟨t, ?_, hs ▸ h⟩
      simp [Sched.wakeupProc, ← hstate, hrunnable]
    . rw [wakeupProc_eq hzombie hrunnable, Option.some_inj] at hwakeup
      refine ⟨_, wakeupProc_eq (hstate ▸ hzombie) (hstate ▸ hrunnable), ?_⟩
      rw [← hwakeup, ← h.current, ← h.idleproc]
      split
      . exact hwoken.strideEnqueue_self hpool hp
      . exact hwoken

theorem AlikeOn.poolOk (h : AlikeOn A s t) (hpool : ∀ q ∈ s.lab6RunPool.elements, A q) (hok : s.PoolOk)
    : t.PoolOk := by
  refine ⟨h.pool ▸ hok.nodup, ?_, ?_⟩
  . intro p hp
    rw [← h.pool] at hp
    rw [← (h.procs p (hpool p hp)).rq]
    exact hok.rq p hp
  . rw [← h.procNum, ← h.pool]
    exact hok.count

theorem AlikeOn.putBack (h : AlikeOn A s t) (hpool : ∀ q ∈ s.lab6RunPool.elements, A q) (hcurrent : A s.current)
    : AlikeOn A s.putBack t.putBack := by
  have hmodify : AlikeOn A (s.modify s.current fun p => { p with needResched := false })
      (t.modify s.current fun p => { p with needResched := false }) :=
    h.modify s.current fun _ _ hxy => { hxy with needResched := rfl }
  have hstate := (h.procs s.current hcurrent).state
  rcases putBack_cases s with ⟨hrunnable, hidle, hs⟩ | ⟨hnot, hs⟩ <;>
    rcases putBack_cases t with ⟨hrunnable', hidle', ht⟩ | ⟨hnot', ht⟩
  . rw [hs, ht, ← h.current]
    exact hmodify.strideEnqueue_self hpool hcurrent
  . rw [← h.current, ← h.idleproc, ← hstate] at hnot'
    exact absurd ⟨hrunnable, hidle⟩ hnot'
  . rw [← h.current, ← hstate] at hrunnable'
    rw [← h.current, ← h.idleproc] at hidle'
    exact absurd ⟨hrunnable', hidle'⟩ hnot
  . rw [hs, ht, ← h.current]
    exact hmodify

theorem AlikeOn.runNext (h : AlikeOn A s t) (hpool : ∀ q ∈ s.lab6RunPool.elements, A q) (hok : s.PoolOk)
    (hrun : s.runNext = some s')
    : ∃ t', t.runNext = some t' ∧ AlikeOn A s' t' := by
  cases hs : s.lab6RunPool with
  | nil =>
    rw [runNext_nil hs, Option.some_inj] at hrun
    refine ⟨_, runNext_nil (h.pool ▸ hs), ?_⟩
    rw [← hrun, ← h.idleproc]
    exact { h.modify s.idleproc (f := fun p => { p with runs := p.runs + 1 }) (fun _ _ hxy => { hxy with }) with
      current := rfl }
  | node left next right =>
    have hpool' := hpool
    rw [hs, SkewHeap.elements, List.forall_mem_cons, List.forall_mem_append] at hpool'
    rw [runNext_node hok hs, Option.some_inj] at hrun
    refine ⟨_, runNext_node (h.poolOk hpool hok) (h.pool ▸ hs), ?_⟩
    rw [← hrun]
    refine ⟨?_, ?_, rfl, h.idleproc, ?_⟩
    . exact SkewHeap.merge_congr hpool'.2.1 hpool'.2.2 fun a b => h.before
    . exact congrArg (· - 1) h.procNum
    . intro q hq
      by_cases hqn : q = next
      . simpa [hqn] using (h.procs next hpool'.1).picked
      . simpa [hqn] using h.procs q hq

theorem AlikeOn.schedClassProcTick (h : AlikeOn A s t) (p : Nat)
    : AlikeOn A (s.schedClassProcTick p) (t.schedClassProcTick p) := by
  unfold Sched.schedClassProcTick
  rw [← h.idleproc]
  split
  . rw [strideProcTick_eq, strideProcTick_eq]
    exact (h.modify p fun _ _ => SchedProc.Agree.ticked).modify p fun _ _ => SchedProc.Agree.spent
  . exact h.modify p fun _ _ hxy => { hxy with needResched := rfl }

end Sched

namespace SchedSys

variable {s t s' : SchedSys} {p proc : Nat} {ev : SchedEvent} {events : List SchedEvent}

/--
The processes that exist.
-/
def Alive (s : SchedSys) (p : Nat) : Prop := s.place p ≠ .free

/--
The two kernels can only be told apart by the memory of processes that do not exist.
-/
structure Alike (s t : SchedSys) : Prop where
  place : s.place = t.place
  timers : s.timers = t.timers
  queue : s.queue = t.queue
  sched : s.sched.AlikeOn s.Alive t.sched

theorem Inv.pool_alive (h : s.Inv) : ∀ q ∈ s.sched.lab6RunPool.elements, s.Alive q :=
  fun q hq => ((h.queued q).mp hq).1

theorem Alike.withSched (h : s.Alike t) {sched sched' : Sched} (hsched : sched.AlikeOn s.Alive sched')
    : Alike { s with sched } { t with sched := sched' } :=
  ⟨h.place, h.timers, h.queue, hsched⟩

theorem Alike.withLists (h : s.Alike t) {timers timers' : List Timer} {queue queue' : List Nat}
    (htimers : timers = timers') (hqueue : queue = queue')
    : Alike { s with timers, queue } { t with timers := timers', queue := queue' } :=
  ⟨h.place, htimers, hqueue, h.sched⟩

theorem Inv.of_alike (h : s.Inv) (halike : s.Alike t) : t.Inv := by
  have hcurrent := halike.sched.current
  have hidle := halike.sched.idleproc
  refine ⟨halike.sched.poolOk h.pool_alive h.pool, ?_, ?_, ?_, ?_, ?_, ?_, ?_, ?_, ?_⟩
  . intro q
    rw [← halike.sched.pool, h.queued, Queued, Queued, ← halike.place, ← hcurrent, ← hidle]
    constructor
    . rintro ⟨hq, hrest⟩
      exact ⟨hq, (halike.sched.procs q hq).state ▸ hrest⟩
    . rintro ⟨hq, hrest⟩
      exact ⟨hq, (halike.sched.procs q hq).state ▸ hrest⟩
  . intro q
    by_cases hq : s.place q = .free
    . rw [← halike.place, hq]
      trivial
    . have hagree := halike.sched.procs q hq
      have hfits := h.fits q
      rw [← halike.place]
      simp only [SchedPlace.Fits, hagree.state, hagree.waitState] at hfits ⊢
      exact hfits
  . rw [← halike.place, ← hidle]
    exact h.idle
  . rw [← halike.place, ← hcurrent]
    exact h.current
  . rw [← halike.timers, ← halike.place]
    exact h.timers
  . rw [← halike.timers]
    exact h.timersOk
  . rw [← halike.timers]
    exact h.timersNodup
  . rw [← halike.queue, ← halike.place]
    exact h.queue
  . rw [← halike.queue]
    exact h.queueNodup

theorem Alike.wakeup (h : s.Alike t) (hinv : s.Inv) (hp : s.Alive p) {sched : Sched}
    (hwakeup : s.sched.wakeupProc p = some sched)
    : ∃ sched', t.sched.wakeupProc p = some sched' ∧ sched.AlikeOn s.Alive sched' :=
  h.sched.wakeupProc hinv.pool_alive hp hwakeup

theorem Alike.wakeParents (h : s.Alike t) (hinv : s.Inv) (wakes : List Nat) (hwakes : ∀ p ∈ wakes, s.Alive p)
    {sched : Sched} (hwake : s.sched.wakeParents wakes = some sched)
    : ∃ sched', t.sched.wakeParents wakes = some sched' ∧ sched.AlikeOn s.Alive sched' := by
  induction wakes generalizing s t with
  | nil =>
    obtain rfl := Option.some_inj.mp hwake
    exact ⟨t.sched, rfl, h.sched⟩
  | cons proc wakes ih =>
    obtain ⟨hproc, hwakes⟩ := List.forall_mem_cons.mp hwakes
    rw [Sched.wakeParents] at hwake ⊢
    rw [← (h.sched.procs proc hproc).waitState]
    split at hwake
    next hwait =>
      obtain ⟨s₁, hs₁, hwake⟩ := Option.bind_eq_some_iff.mp hwake
      have hexited : s.place proc ≠ .exited := by
        intro hplace
        have hfits := hinv.fits proc
        rw [hplace] at hfits
        rw [hfits.2] at hwait
        exact absurd hwait (by decide)
      obtain ⟨s₂, hs₂, hinv₁, -, -⟩ := hinv.wakeup hproc hexited
      rw [hs₁] at hs₂
      obtain rfl := Option.some_inj.mp hs₂
      obtain ⟨t₁, ht₁, halike⟩ := h.wakeup hinv hproc hs₁
      rw [if_pos hwait, ht₁, Option.bind_some]
      exact ih (h.withSched halike) hinv₁ hwakes hwake
    next hwait =>
      rw [if_neg hwait]
      exact ih h hinv hwakes hwake

theorem Alike.runTimers {timers rest : List Timer} (h : s.Alike t) (hinv : Inv { s with timers := [] })
    (hplace : ∀ timer ∈ timers, s.place timer.proc = .doSleep) {sched : Sched}
    (hrun : s.sched.runTimers timers = some (rest, sched))
    : ∃ sched', t.sched.runTimers timers = some (rest, sched') ∧ sched.AlikeOn s.Alive sched' := by
  induction timers generalizing s t with
  | nil =>
    obtain ⟨rfl, rfl⟩ := Prod.mk.inj (Option.some_inj.mp hrun)
    exact ⟨t.sched, rfl, h.sched⟩
  | cons timer timers ih =>
    obtain ⟨hplaceTimer, hplace⟩ := List.forall_mem_cons.mp hplace
    have halive : s.Alive timer.proc := by simp [Alive, hplaceTimer]
    rw [Sched.runTimers] at hrun ⊢
    rw [← (h.sched.procs timer.proc halive).waitState]
    split at hrun
    next hexpired =>
      dsimp only at hrun ⊢
      split at hrun
      . contradiction
      next hwait =>
        obtain ⟨s₁, hs₁, hrun⟩ := Option.bind_eq_some_iff.mp hrun
        obtain ⟨s₂, hs₂, hinv₁, -, -⟩ := hinv.wakeup (p := timer.proc) halive (by simp [hplaceTimer])
        dsimp only at hs₂
        rw [hs₁] at hs₂
        obtain rfl := Option.some_inj.mp hs₂
        obtain ⟨t₁, ht₁, halike⟩ := h.sched.wakeupProc hinv.pool_alive halive hs₁
        rw [if_pos hexpired, if_neg hwait, ht₁, Option.bind_some]
        exact ih (h.withSched halike) hinv₁ hplace hrun
    next hexpired =>
      obtain ⟨rfl, rfl⟩ := Prod.mk.inj (Option.some_inj.mp hrun)
      rw [if_neg hexpired]
      exact ⟨t.sched, rfl, h.sched⟩

/--
A process that exists gets to another place.
-/
theorem Alike.setPlace (h : s.Alike t) (hp : s.Alive p) (c : SchedPlace) : (s.setPlace p c).Alike (t.setPlace p c) := by
  refine ⟨by simp only [SchedSys.setPlace, h.place], h.timers, h.queue, h.sched.mono ?_⟩
  intro q hq
  by_cases hqp : q = p
  . exact hqp ▸ hp
  . simpa [Alive, SchedSys.setPlace, hqp] using hq

theorem Alike.fork (h : s.Alike t) (hinv : s.Inv) {child : Nat} {fails : Bool} (hlegal : s.Legal (.fork child fails))
    (hgarbage : fails = false → (s.sched.procs child).SameGarbage (t.sched.procs child))
    (hstep : s.step (.fork child fails) = some s')
    : ∃ t', t.step (.fork child fails) = some t' ∧ s'.Alike t' := by
  obtain ⟨hrunning, hchild⟩ := hlegal
  have hne : child ≠ s.sched.current := ne_of_apply_ne s.place (by simp [hrunning, hchild])
  have hneIdle : child ≠ s.sched.idleproc := ne_of_apply_ne s.place (by simp [hinv.idle, hchild])
  have halloc : Sched.AlikeOn s.Alive (s.sched.allocProc child) (t.sched.allocProc child) :=
    h.sched.modify_outside (not_not_intro hchild)
  have hcurrent := (halloc.procs s.sched.current hinv.current).waitState
  simp only [step] at hstep ⊢
  rw [show (t.sched.allocProc child).current = (s.sched.allocProc child).current from h.sched.current.symm]
  rw [show ((t.sched.allocProc child).procs (s.sched.allocProc child).current).waitState =
    ((s.sched.allocProc child).procs (s.sched.allocProc child).current).waitState from hcurrent.symm]
  split at hstep
  . contradiction
  next hwait =>
    rw [if_neg hwait]
    split at hstep
    next hfails =>
      rw [if_pos hfails]
      exact ⟨_, rfl, Option.some_inj.mp hstep ▸ h.withSched halloc⟩
    next hfails =>
      rw [if_neg hfails]
      have hgarbage := hgarbage (by simpa using hfails)
      have hwakeup {r : Sched} (hr : child ≠ r.current ∧ child ≠ r.idleproc)
          : (r.allocProc child).wakeupProc child =
              some (((r.allocProc child).modify child SchedProc.woken).strideEnqueue child) := by
        have hstate : ((r.allocProc child).procs child).state = .uninit := by simp [Sched.allocProc, Sched.modify]
        rw [Sched.wakeupProc_eq (by simp [hstate]) (by simp [hstate])]
        exact congrArg some (if_pos hr)
      rw [hwakeup ⟨hne, hneIdle⟩, Option.map_some, Option.some_inj] at hstep
      rw [hwakeup ⟨h.sched.current ▸ hne, h.sched.idleproc ▸ hneIdle⟩, Option.map_some]
      refine ⟨_, rfl, hstep ▸ ⟨by simp only [SchedSys.setPlace, h.place], h.timers, h.queue, ?_⟩⟩
      have hwoken : Sched.AlikeOn s.Alive ((s.sched.allocProc child).modify child SchedProc.woken)
          ((t.sched.allocProc child).modify child SchedProc.woken) :=
        halloc.modify_outside (not_not_intro hchild)
      refine (hwoken.strideEnqueue (p := child) hinv.pool_alive ?_ ?_).mono ?_
      . simpa [Sched.allocProc, Sched.modify, SchedProc.woken] using hgarbage.lab6Stride
      . have htime := hgarbage.timeSlice
        have hpace := hgarbage.pace
        simp only [Sched.allocProc, Sched.modify, Function.update_self]
        exact ⟨rfl, rfl, rfl, rfl, htime, hgarbage.lab6Stride, hpace⟩
      . intro q hq
        by_cases hqc : q = child
        . exact .inr hqc
        . exact .inl (by simpa [Alive, SchedSys.setPlace, hqc] using hq)

theorem Alike.exit (h : s.Alike t) (hinv : s.Inv) {wakes : List Nat} (hlegal : s.Legal (.exit wakes))
    (hstep : s.step (.exit wakes) = some s')
    : ∃ t', t.step (.exit wakes) = some t' ∧ s'.Alike t' := by
  obtain ⟨sched, hwake, rfl⟩ := Option.map_eq_some_iff.mp hstep
  have hzombie := h.withSched (h.sched.modify s.sched.current (f := fun p => { p with state := .zombie })
    fun _ _ hxy => { hxy with state := rfl })
  have halike := hzombie.setPlace (p := s.sched.current) hinv.current .exited
  obtain ⟨sched', hwake', hsched⟩ := halike.wakeParents (hinv.exiting hlegal) wakes (alive_exiting hlegal) hwake
  simp only [step, ← h.sched.current]
  refine ⟨_, Option.map_eq_some_iff.mpr ⟨sched', hwake', rfl⟩, ?_⟩
  exact halike.withSched hsched

theorem Alike.sleeps (h : s.Alike t) (hinv : s.Inv) (waitState : BitVec 32) (c : SchedPlace)
    {timers timers' : List Timer} {queue queue' : List Nat} (htimers : timers = timers') (hqueue : queue = queue')
    : Alike ({ s with sched := s.sched.setSleeping waitState, timers, queue }.setPlace s.sched.current c)
        ({ t with sched := t.sched.setSleeping waitState, timers := timers', queue := queue' }.setPlace
          s.sched.current c) := by
  have hsleeping : Sched.AlikeOn s.Alive (s.sched.setSleeping waitState) (t.sched.setSleeping waitState) := by
    rw [Sched.setSleeping, Sched.setSleeping, ← h.sched.current]
    exact h.sched.modify s.sched.current fun _ _ hxy => { hxy with state := rfl, waitState := rfl }
  exact ((h.withSched hsleeping).withLists htimers hqueue).setPlace hinv.current c

theorem Alike.tick (h : s.Alike t) (hinv : s.Inv) (hstep : s.step .tick = some s')
    : ∃ t', t.step .tick = some t' ∧ s'.Alike t' := by
  obtain ⟨⟨rest, sched⟩, hlist, rfl⟩ := Option.map_eq_some_iff.mp hstep
  have hticked : ∃ sched', t.sched.runTimerList s.timers = some (rest, sched') ∧ sched.AlikeOn s.Alive sched' := by
    unfold Sched.runTimerList at hlist ⊢
    obtain ⟨⟨rest', sched₁⟩, hexpired, hr⟩ := Option.map_eq_some_iff.mp hlist
    obtain ⟨rfl, rfl⟩ := Prod.mk.inj hr
    cases htimers : s.timers with
    | nil =>
      rw [htimers] at hexpired
      obtain ⟨rfl, rfl⟩ := Prod.mk.inj (Option.some_inj.mp hexpired)
      refine ⟨_, rfl, ?_⟩
      dsimp only
      rw [← h.sched.current]
      exact h.sched.schedClassProcTick _
    | cons timer timers =>
      rw [htimers] at hexpired
      dsimp only at hexpired ⊢
      have hplace := hinv.timers
      rw [htimers] at hplace
      have hplace' : ∀ x ∈ { timer with expires := timer.expires - 1 } :: timers, s.place x.proc = .doSleep :=
        List.forall_mem_cons.mpr (List.forall_mem_cons.mp hplace)
      split at hexpired
      . contradiction
      next hne =>
        rw [if_neg hne]
        obtain ⟨sched₂, hexpired', halike⟩ := h.runTimers hinv.withoutTimers hplace' hexpired
        refine ⟨_, Option.map_eq_some_iff.mpr ⟨(rest', sched₂), hexpired', rfl⟩, ?_⟩
        dsimp only
        rw [← halike.current]
        exact halike.schedClassProcTick _
  obtain ⟨sched', hlist', halike⟩ := hticked
  simp only [step, ← h.timers]
  exact ⟨_, Option.map_eq_some_iff.mpr ⟨_, hlist', rfl⟩, h.place, rfl, h.queue, halike⟩

theorem Alike.step (h : s.Alike t) (hinv : s.Inv) (hlegal : s.Legal ev)
    (hgarbage : ∀ child, ev = .fork child false → (s.sched.procs child).SameGarbage (t.sched.procs child))
    (hstep : s.step ev = some s')
    : ∃ t', t.step ev = some t' ∧ s'.Alike t' := by
  have hcurrent := h.sched.current
  cases ev with
  | fork child fails => exact h.fork hinv hlegal (fun hfails => hgarbage child (by rw [hfails])) hstep
  | exit wakes => exact h.exit hinv hlegal hstep
  | wait =>
    obtain rfl := Option.some_inj.mp hstep
    simp only [SchedSys.step, ← hcurrent]
    exact ⟨_, rfl, h.sleeps hinv wtChild .doWait h.timers h.queue⟩
  | reap child =>
    obtain rfl := Option.some_inj.mp hstep
    exact ⟨_, rfl, h.setPlace (by rw [Alive, hlegal.2]; simp) .free⟩
  | sleep time =>
    simp only [SchedSys.step] at hstep ⊢
    split at hstep
    next htime =>
      obtain rfl := Option.some_inj.mp hstep
      rw [if_pos htime]
      exact ⟨t, rfl, h⟩
    next htime =>
      obtain rfl := Option.some_inj.mp hstep
      rw [if_neg htime, ← hcurrent]
      exact ⟨_, rfl, h.sleeps hinv wtTimer .doSleep (by rw [h.timers]) h.queue⟩
  | block waitState =>
    obtain rfl := Option.some_inj.mp hstep
    simp only [SchedSys.step, ← hcurrent]
    exact ⟨_, rfl, h.sleeps hinv waitState .semWait h.timers (by rw [h.queue])⟩
  | schedule =>
    obtain ⟨sched, hschedule, rfl⟩ := Option.map_eq_some_iff.mp hstep
    have hpool : ∀ q ∈ s.sched.putBack.lab6RunPool.elements, s.Alive q := by
      intro q hq
      rcases (Sched.mem_putBack s.sched q).mp hq with hq | ⟨rfl, -⟩
      . exact hinv.pool_alive q hq
      . exact hinv.current
    obtain ⟨sched', hschedule', halike⟩ := (h.sched.putBack hinv.pool_alive hinv.current).runNext hpool
      (hinv.pool.putBack hinv.current_notMem) hschedule
    exact ⟨_, Option.map_eq_some_iff.mpr ⟨sched', hschedule', rfl⟩, h.withSched halike⟩
  | resume =>
    obtain rfl := Option.some_inj.mp hstep
    simp only [SchedSys.step, ← hcurrent]
    have hlists := h.withLists
      (show (if s.place s.sched.current = .doSleep then Timer.delTimer s.sched.current s.timers else s.timers) =
        if t.place s.sched.current = .doSleep then Timer.delTimer s.sched.current t.timers else t.timers by
          rw [h.place, h.timers])
      (congrArg (fun queue => queue.erase s.sched.current) h.queue)
    exact ⟨_, rfl, hlists.setPlace hinv.current .running⟩
  | wakeupWait proc =>
    obtain ⟨sched, hwakeup, rfl⟩ := Option.map_eq_some_iff.mp hstep
    obtain ⟨sched', hwakeup', halike⟩ := h.wakeup hinv (by rw [Alive, hinv.queue proc hlegal]; simp) hwakeup
    refine ⟨_, Option.map_eq_some_iff.mpr ⟨sched', hwakeup', rfl⟩, h.place, h.timers, ?_, halike⟩
    simp only [h.queue]
  | kill proc =>
    simp only [SchedSys.step] at hstep ⊢
    rw [← (h.sched.procs proc hlegal).waitState]
    split at hstep
    next hwait =>
      obtain ⟨sched, hwakeup, rfl⟩ := Option.map_eq_some_iff.mp hstep
      obtain ⟨sched', hwakeup', halike⟩ := h.wakeup hinv hlegal hwakeup
      rw [if_pos hwait]
      exact ⟨_, Option.map_eq_some_iff.mpr ⟨sched', hwakeup', rfl⟩, h.withSched halike⟩
    next hwait =>
      obtain rfl := Option.some_inj.mp hstep
      rw [if_neg hwait]
      exact ⟨t, rfl, h⟩
  | tick => exact h.tick hinv hstep
  | setPriority priority =>
    obtain rfl := Option.some_inj.mp hstep
    simp only [SchedSys.step, Sched.lab6SetPriority, ← hcurrent]
    refine ⟨_, rfl, h.withSched (h.sched.modify _ fun _ _ hxy => { hxy with pace := ?_ })⟩
    simp [SchedProc.pace]

/--
The two kernels differ only in free memory.
-/
structure DiffersInFree (s t : SchedSys) : Prop where
  place : s.place = t.place
  timers : s.timers = t.timers
  queue : s.queue = t.queue
  pool : s.sched.lab6RunPool = t.sched.lab6RunPool
  procNum : s.sched.procNum = t.sched.procNum
  current : s.sched.current = t.sched.current
  idleproc : s.sched.idleproc = t.sched.idleproc
  procs : ∀ p, s.Alive p → s.sched.procs p = t.sched.procs p

theorem DiffersInFree.alike (h : s.DiffersInFree t) : s.Alike t :=
  ⟨h.place, h.timers, h.queue, h.pool, h.procNum, h.current, h.idleproc, fun p hp =>
    h.procs p hp ▸ SchedProc.Agree.refl _⟩

/--
The current process behind every step, and whether it is to be preempted.
-/
def trace (s : SchedSys) : List SchedEvent → List (Option (Nat × Bool))
  | [] => []
  | ev :: events =>
    match s.step ev with
    | none => [none]
    | some s' => some (s'.sched.current, (s'.sched.procs s'.sched.current).needResched) :: trace s' events

/--
What the run finds in the memory of new processes comes to the same, and no time slice there is negative.
-/
def CleanForks (s t : SchedSys) : List SchedEvent → Prop
  | [] => True
  | ev :: events =>
    (∀ child, ev = .fork child false →
      (s.sched.procs child).SameGarbage (t.sched.procs child) ∧ 0 ≤ (s.sched.procs child).timeSlice.toInt) ∧
      ∀ s' t', s.step ev = some s' → t.step ev = some t' → CleanForks s' t' events

theorem Alike.trace (h : s.Alike t) (hinv : s.Inv) (hlegal : Run.Admits SchedSys.step Legal s events)
    (hclean : CleanForks s t events)
    : s.trace events = t.trace events := by
  induction events generalizing s t with
  | nil => rfl
  | cons ev events ih =>
    obtain ⟨s', hs', hinv'⟩ := hinv.step hlegal.1
    obtain ⟨t', ht', halike⟩ := h.step hinv hlegal.1 (fun child hev => (hclean.1 child hev).1) hs'
    have hagree := halike.sched.procs s'.sched.current hinv'.current
    rw [SchedSys.trace, SchedSys.trace, hs', ht']
    dsimp only
    rw [ih halike hinv' (hlegal.2 s' hs') (hclean.2 s' t' hs' ht'), ← halike.sched.current, hagree.needResched]

/--
The memory of new processes leads to no negative time slice.
-/
theorem Sliced.run (h : s.Sliced) (hinv : s.Inv) (hlegal : Run.Admits SchedSys.step Legal s events)
    (halike : s.Alike t) (hclean : CleanForks s t events) (hexec : Run.exec SchedSys.step s events = some s')
    : s'.Sliced ∧ s'.Inv := by
  induction events generalizing s t with
  | nil =>
    obtain rfl := Option.some_inj.mp hexec
    exact ⟨h, hinv⟩
  | cons ev events ih =>
    obtain ⟨u, hu, hrest⟩ := Option.bind_eq_some_iff.mp hexec
    obtain ⟨u', hu', hinv'⟩ := hinv.step hlegal.1
    rw [hu] at hu'
    obtain rfl := Option.some_inj.mp hu'
    obtain ⟨t', ht', halike'⟩ := halike.step hinv hlegal.1 (fun child hev => (hclean.1 child hev).1) hu
    exact ih (h.step hinv hlegal.1 (fun child hev => (hclean.1 child hev).2) hu) hinv' (hlegal.2 u hu) halike'
      (hclean.2 u t' hu ht') hrest

/--
As long as the stride, the priority and the time slice that `alloc_proc` leaves come to the same and the time
slice is not negative, the rest of free memory changes nothing, and `MAX_TIME_SLICE` ticks are enough to ask
any process to leave the processor.
-/
theorem schedule_without_garbage (hs : s.Reachable) (hdiffers : s.DiffersInFree t)
    (hlegal : Run.Admits step Legal s events) (hclean : CleanForks s t events)
    : s.trace events = t.trace events ∧
        (s.Sliced → ∀ s' turn s'', Run.exec step s events = some s' → Run.Admits step Legal s' turn →
          .schedule ∉ turn → s'.sched.current ≠ s'.sched.idleproc → maxTimeSlice.toNat ≤ turn.count .tick →
          Run.exec step s' turn = some s'' → (s''.sched.procs s''.sched.current).needResched = true) := by
  refine ⟨hdiffers.alike.trace hs.inv hlegal hclean, ?_⟩
  intro hsliced s' turn s'' hexec hturn hschedule hidle hticks hexec'
  obtain ⟨hsliced', hinv'⟩ := hsliced.run hs.inv hlegal hdiffers.alike hclean hexec
  exact hsliced'.preempted hinv' hturn hschedule hidle hticks hexec'

/--
Memory that differs from `sameProcs` at one address.
-/
def oneProc (lab6Stride lab6Priority timeSlice : BitVec 32) : Nat → SchedProc :=
  Function.update (sameProcs 0 1 0) 2 (sameProcs lab6Stride lab6Priority timeSlice 2)

def twoForks : List SchedEvent := [.fork 1 false, .schedule, .fork 2 false, .schedule]

theorem boot_differs (lab6Stride lab6Priority timeSlice : BitVec 32)
    : (boot (sameProcs 0 1 0) 0).DiffersInFree (boot (oneProc lab6Stride lab6Priority timeSlice) 0) := by
  refine ⟨rfl, rfl, rfl, rfl, rfl, rfl, rfl, ?_⟩
  intro p hp
  by_cases h : p = 0
  . subst h
    rfl
  . simp [Alive, boot, h] at hp

theorem schedule_without_garbage_oneFork
    : (boot (sameProcs 0 1 0) 0).trace [.fork 2 false, .schedule] =
        (boot (oneProc 0 0 9) 0).trace [.fork 2 false, .schedule] := by
  have hreachable : (boot (sameProcs 0 1 0) 0).Reachable := ⟨sameProcs 0 1 0, 0, [], trivial, rfl⟩
  have hgarbage : ((boot (sameProcs 0 1 0) 0).sched.procs 2).SameGarbage ((boot (oneProc 0 0 9) 0).sched.procs 2) :=
    ⟨by decide, by decide, by decide⟩
  have hclean : CleanForks (boot (sameProcs 0 1 0) 0) (boot (oneProc 0 0 9) 0) [.fork 2 false, .schedule] := by
    refine ⟨?_, fun _ _ _ _ => ⟨?_, fun _ _ _ _ => trivial⟩⟩
    . intro child hev
      obtain rfl : 2 = child := by simpa using hev
      exact ⟨hgarbage, by decide⟩
    . intro child hev
      contradiction
  exact (schedule_without_garbage hreachable (boot_differs 0 0 9) (by decide +kernel) hclean).1

/--
A stride that is left over from another process decides who runs.
-/
theorem not_schedule_ignores_garbage
    : ¬∀ (s t : SchedSys) (events : List SchedEvent), s.Reachable → s.DiffersInFree t →
        Run.Admits step Legal s events → s.trace events = t.trace events := by
  intro hclaim
  have hreachable : (boot (sameProcs 0 1 0) 0).Reachable := ⟨sameProcs 0 1 0, 0, [], trivial, rfl⟩
  have htrace := hclaim _ _ twoForks hreachable (boot_differs 0x70000000 1 0) (by decide +kernel)
  exact absurd htrace (by decide +kernel)

end SchedSys
end Ucore

import Mathlib
import Ucore.Kern.Schedule.SchedSys
import Ucore.Lib.Run

/-!
This module contains runs of `add_timer`, `del_timer` and `run_timer_list` on the timer list of
kern/schedule/sched.c, and when each timer fires. A timer is a number here, the process that waits
for it is up to the user of the list.
-/

namespace Ucore

namespace Timer

/--
The loop of `run_timer_list`: the timers that fire, in this order, and the rest of the list.
-/
def expire : List Timer → List Nat × List Timer
  | [] => ([], [])
  | timer :: rest =>
    if timer.expires = 0 then
      (timer.proc :: (expire rest).1, (expire rest).2)
    else
      ([], timer :: rest)

/--
`run_timer_list` on the list, `none` where its assertion on the first timer fails.
-/
def runTimerList : List Timer → Option (List Nat × List Timer)
  | [] => some ([], [])
  | timer :: rest =>
    if timer.expires = 0 then
      none
    else
      some (expire ({ timer with expires := timer.expires - 1 } :: rest))

/--
The timers with the processes that wait for them.
-/
def withProc (procOf : Nat → Nat) (timers : List Timer) : List Timer :=
  timers.map fun timer => { timer with proc := procOf timer.proc }

/--
The ticks until a timer fires: what it counts itself and all the timers in front of it.
-/
def remaining (t : Nat) : List Timer → Option Nat
  | [] => none
  | timer :: rest =>
    if timer.proc = t then some timer.expires else (remaining t rest).map (timer.expires + ·)

end Timer

namespace Sched

/--
What `run_timer_list` does to the process of each timer that fires.
-/
def wakeTimers : List Nat → Sched → Option Sched
  | [], s => some s
  | proc :: procs, s =>
    let waitState := (s.procs proc).waitState
    if waitState ≠ 0 ∧ waitState &&& wtInterrupted = 0 then
      none
    else
      (s.wakeupProc proc).bind (wakeTimers procs)

theorem runTimers_withProc (procOf : Nat → Nat) (timers : List Timer) (s : Sched)
    : s.runTimers (Timer.withProc procOf timers)
        =
      (s.wakeTimers ((Timer.expire timers).1.map procOf)).map fun t =>
        (Timer.withProc procOf (Timer.expire timers).2, t) := by
  induction timers generalizing s with
  | nil => rfl
  | cons timer rest ih =>
    by_cases hzero : timer.expires = 0
    . have hih := fun t => ih t
      simp only [Timer.withProc] at hih ⊢
      simp only [List.map_cons, runTimers, Timer.expire, hzero, if_true, wakeTimers]
      split
      . rfl
      . cases s.wakeupProc (procOf timer.proc) with
        | none => rfl
        | some t => exact hih t
    . simp [Timer.withProc, runTimers, Timer.expire, hzero, wakeTimers]

/--
`run_timer_list` of the scheduler wakes the processes of exactly the timers that fire.
-/
theorem runTimerList_withProc (procOf : Nat → Nat) (timers : List Timer) (s : Sched)
    : s.runTimerList (Timer.withProc procOf timers)
        =
      (Timer.runTimerList timers).bind fun r =>
        (s.wakeTimers (r.1.map procOf)).map fun t =>
          (Timer.withProc procOf r.2, t.schedClassProcTick t.current) := by
  cases timers with
  | nil => rfl
  | cons timer rest =>
    by_cases hzero : timer.expires = 0
    . simp [runTimerList, Timer.withProc, Timer.runTimerList, hzero]
    . have hloop := runTimers_withProc procOf ({ timer with expires := timer.expires - 1 } :: rest) s
      simp only [Timer.withProc, List.map_cons] at hloop
      simp only [runTimerList, Timer.withProc, List.map_cons, Timer.runTimerList, hzero, if_false,
        Option.bind_some, hloop, Option.map_map]
      rfl

end Sched

namespace Timer

variable {timers rest : List Timer} {t u e : Nat}

theorem remaining_eq_none_iff : remaining t timers = none ↔ t ∉ timers.map (·.proc) := by
  induction timers with
  | nil => simp [remaining]
  | cons timer rest ih =>
    unfold remaining
    split
    next heq => simp [heq]
    next hne =>
      rw [Option.map_eq_none_iff, ih, List.map_cons, List.mem_cons, not_or]
      simp [Ne.symm hne]

/--
A new timer gets its ticks, and no other timer moves.
-/
theorem remaining_addTimer (hnew : u ∉ timers.map (·.proc))
    : remaining t (addTimer timers ⟨e, u⟩) = if t = u then some e else remaining t timers := by
  induction timers generalizing e with
  | nil => simp [addTimer, remaining, eq_comm]
  | cons next rest ih =>
    rw [List.map_cons, List.mem_cons, not_or] at hnew
    obtain ⟨hne, hnew⟩ := hnew
    unfold addTimer
    split
    next hlt =>
      simp only at hlt
      simp only [remaining]
      by_cases htu : t = u
      . simp [htu]
      . simp only [Ne.symm htu, htu, if_false]
        split
        . rw [Option.map_some, Option.some_inj]
          omega
        . rw [Option.map_map]
          congr 1
          funext r
          simp only [Function.comp_apply]
          omega
    next hge =>
      simp only at hge
      simp only [remaining, ih hnew]
      by_cases htu : t = u
      . subst htu
        simp only [Ne.symm hne, if_false, if_true, Option.map_some, Option.some_inj]
        omega
      . simp [htu]

/--
Deleting a timer moves no other timer: the next one counts its ticks, too.
-/
theorem remaining_delTimer (hnodup : (timers.map (·.proc)).Nodup) (hlt : total timers < 2 ^ 32)
    : remaining t (delTimer u timers) = if t = u then none else remaining t timers := by
  induction timers with
  | nil => simp [delTimer, remaining]
  | cons timer rest ih =>
    rw [List.map_cons, List.nodup_cons] at hnodup
    obtain ⟨hnot, hnodup⟩ := hnodup
    rw [total_cons] at hlt
    unfold delTimer
    split
    next heq =>
      subst heq
      have hself := remaining_eq_none_iff.mpr hnot
      cases rest with
      | nil => simp [remaining, eq_comm]
      | cons next rest =>
        rw [total_cons] at hlt
        have hmod : (next.expires + timer.expires) % 2 ^ 32 = next.expires + timer.expires :=
          Nat.mod_eq_of_lt (by omega)
        have hfront : (if timer.expires ≠ 0 then
              { next with expires := (next.expires + timer.expires) % 2 ^ 32 } :: rest
            else
              next :: rest)
            = { next with expires := timer.expires + next.expires } :: rest := by
          split
          . rw [hmod, Nat.add_comm]
          next hzero =>
            rw [Decidable.not_not.mp hzero, Nat.zero_add]
        simp only [hfront]
        by_cases htu : t = timer.proc
        . subst htu
          rw [if_pos rfl, remaining_eq_none_iff]
          simpa using hnot
        . simp only [remaining, Ne.symm htu, htu, if_false]
          split
          . rfl
          . rw [Option.map_map]
            congr 1
            funext r
            simp only [Function.comp_apply]
            omega
    next hne =>
      simp only [remaining, ih hnodup (by omega)]
      by_cases htu : t = u
      . subst htu
        simp [hne]
      . simp [htu]

theorem mem_expire_iff : t ∈ (expire timers).1 ↔ remaining t timers = some 0 := by
  induction timers with
  | nil => simp [expire, remaining]
  | cons timer rest ih =>
    unfold expire remaining
    by_cases heq : timer.proc = t
    . by_cases hzero : timer.expires = 0
      . simp [heq, hzero]
      . simp [heq, hzero]
    . by_cases hzero : timer.expires = 0
      . simp [heq, Ne.symm heq, hzero, ih]
      . simp [heq, hzero]

theorem procs_expire (timers : List Timer)
    : timers.map (·.proc) = (expire timers).1 ++ (expire timers).2.map (·.proc) := by
  induction timers with
  | nil => rfl
  | cons timer rest ih =>
    unfold expire
    split
    . simp [ih]
    . rfl

theorem total_expire (timers : List Timer) : total (expire timers).2 = total timers := by
  induction timers with
  | nil => rfl
  | cons timer rest ih =>
    unfold expire
    split
    next hzero => rw [total_cons, hzero, Nat.zero_add, ih]
    next => rfl

theorem head_expire (timers : List Timer)
    : ∀ timer ∈ (expire timers).2.head?, timer.expires ≠ 0 := by
  induction timers with
  | nil => simp [expire]
  | cons timer rest ih =>
    unfold expire
    split
    . exact ih
    next hne => simpa using hne

theorem remaining_expire (hnot : t ∉ (expire timers).1)
    : remaining t (expire timers).2 = remaining t timers := by
  induction timers with
  | nil => rfl
  | cons timer rest ih =>
    unfold expire at hnot ⊢
    split
    next hzero =>
      simp only [hzero, if_true, List.mem_cons, not_or] at hnot
      simp only [remaining, ih hnot.2, Ne.symm hnot.1, if_false, hzero, Nat.zero_add, Option.map_id']
    next => rfl

theorem Ok.remaining_pos {r : Nat} (h : Ok timers) (hr : remaining t timers = some r) : 0 < r := by
  cases timers with
  | nil => cases hr
  | cons timer rest =>
    have := h.first timer rfl
    unfold remaining at hr
    split at hr
    . rw [Option.some_inj] at hr
      omega
    . obtain ⟨r', -, rfl⟩ := Option.map_eq_some_iff.mp hr
      omega

/--
A tick finds the first timer running, the timers with one tick left fire, and all others move one
tick closer.
-/
theorem Ok.runTimerList (h : Ok timers) (hnodup : (timers.map (·.proc)).Nodup)
    : ∃ fired rest, Timer.runTimerList timers = some (fired, rest) ∧ Ok rest ∧ fired.Nodup
        ∧ (rest.map (·.proc)).Nodup ∧ (∀ t, t ∈ fired ↔ remaining t timers = some 1)
        ∧ ∀ t r, remaining t rest = some r ↔ 0 < r ∧ remaining t timers = some (r + 1) := by
  cases timers with
  | nil => exact ⟨[], [], by simp [Timer.runTimerList, remaining, h]⟩
  | cons timer rest =>
    have hfirst := h.first timer rfl
    let ticked := { timer with expires := timer.expires - 1 } :: rest
    have hticked : ∀ t, remaining t ticked = (remaining t (timer :: rest)).map (· - 1) := by
      intro t
      simp only [ticked, remaining]
      split
      . rfl
      . rw [Option.map_map]
        congr 1
        funext r
        simp only [Function.comp_apply]
        omega
    have hfired : ∀ t, t ∈ (expire ticked).1 ↔ remaining t (timer :: rest) = some 1 := by
      intro t
      rw [mem_expire_iff, hticked, Option.map_eq_some_iff]
      constructor
      . intro ⟨r, hr, hzero⟩
        have := h.remaining_pos hr
        rw [hr, Option.some_inj]
        omega
      . intro hr
        exact ⟨1, hr, rfl⟩
    have hprocs := procs_expire ticked
    have hsplit : ((expire ticked).1 ++ (expire ticked).2.map (·.proc)).Nodup := by
      rw [← hprocs]
      exact hnodup
    obtain ⟨hnodup₁, hnodup₂, hdisjoint⟩ := List.nodup_append.mp hsplit
    refine ⟨(expire ticked).1, (expire ticked).2, by simp [Timer.runTimerList, hfirst, ticked], ?_,
      hnodup₁, hnodup₂, hfired, ?_⟩
    . refine ⟨head_expire ticked, ?_⟩
      have hlt := h.total_lt
      rw [total_expire]
      simp only [ticked, total_cons] at hlt ⊢
      omega
    . intro t r
      by_cases hmem : t ∈ (expire ticked).1
      . have hone := (hfired t).mp hmem
        have hnone : remaining t (expire ticked).2 = none := by
          rw [remaining_eq_none_iff]
          intro hrest
          exact hdisjoint t hmem t hrest rfl
        rw [hnone, hone]
        simp only [reduceCtorEq, Option.some_inj, false_iff, not_and]
        omega
      . rw [remaining_expire hmem, hticked, Option.map_eq_some_iff]
        rw [hfired] at hmem
        constructor
        . intro ⟨r', hr', hsub⟩
          have := h.remaining_pos hr'
          have hne : r' ≠ 1 := by
            intro hone
            exact hmem (hone ▸ hr')
          have hsucc : r + 1 = r' := by omega
          exact ⟨by omega, hsucc ▸ hr'⟩
        . intro ⟨_, hr⟩
          exact ⟨r + 1, hr, rfl⟩

end Timer

/--
The timer list, the number of ticks so far, and each timer that fired with the number of the tick.
-/
structure TimerSys where
  timers : List Timer
  ticks : Nat
  fired : List (Nat × Nat)

inductive TimerEvent where
  | add (t expires : Nat)
  | del (t : Nat)
  | tick
  deriving DecidableEq

namespace TimerSys

def init : TimerSys where
  timers := []
  ticks := 0
  fired := []

/--
`none` where an assertion fails: `expires > 0` and the empty link of `add_timer`, and that of
`run_timer_list`.
-/
def step (s : TimerSys) : TimerEvent → Option TimerSys
  | .add t expires =>
    if 0 < expires ∧ t ∉ s.timers.map (·.proc) then
      some { s with timers := Timer.addTimer s.timers ⟨expires, t⟩ }
    else
      none
  | .del t => some { s with timers := Timer.delTimer t s.timers }
  | .tick =>
    (Timer.runTimerList s.timers).map fun r =>
      { timers := r.2
        ticks := s.ticks + 1
        fired := s.fired ++ r.1.map fun t => (t, s.ticks + 1) }

/--
`add_timer` gets a timer that is not in the list, with a positive `unsigned int`.
-/
def Legal (s : TimerSys) : TimerEvent → Prop
  | .add t expires => 1 ≤ expires ∧ expires < 2 ^ 32 ∧ t ∉ s.timers.map (·.proc)
  | .del _ => True
  | .tick => True

instance (s : TimerSys) (event : TimerEvent) : Decidable (s.Legal event) :=
  match event with
  | .add _ _ => inferInstanceAs (Decidable (_ ∧ _))
  | .del _ => inferInstanceAs (Decidable True)
  | .tick => inferInstanceAs (Decidable True)

end TimerSys

namespace TimerEvent

/--
`t` was inserted, was not deleted since, and has `r` of its ticks left.
-/
def Awaits (events : List TimerEvent) (t r : Nat) : Prop :=
  ∃ before e since, events = before ++ .add t e :: since ∧ .del t ∉ since
    ∧ since.count .tick + r = e ∧ 0 < r

/--
Tick number `n` is the `e`-th behind an insertion of `t` with `expires = e`, and no `del_timer`
of `t` is between them.
-/
def Due (events : List TimerEvent) (t n : Nat) : Prop :=
  ∃ before e since rest, events = before ++ .add t e :: (since ++ .tick :: rest)
    ∧ .del t ∉ since ∧ since.count .tick + 1 = e ∧ n = before.count .tick + e

variable {events : List TimerEvent} {t u r n : Nat}

theorem append_singleton_eq_iff {α : Type} {xs before since : List α} {x y : α}
    : xs ++ [x] = before ++ y :: since
        ↔
      (since = [] ∧ xs = before ∧ x = y) ∨ ∃ mid, since = mid ++ [x] ∧ xs = before ++ y :: mid := by
  rcases List.eq_nil_or_concat since with rfl | ⟨mid, z, rfl⟩
  . simp
  . have hassoc : before ++ y :: mid.concat z = (before ++ y :: mid) ++ [z] := by simp
    rw [hassoc, List.append_singleton_inj]
    constructor
    . intro ⟨hxs, hxz⟩
      exact Or.inr ⟨mid, by simp [hxz], hxs⟩
    . rintro (⟨hnil, -⟩ | ⟨mid', hmid, hxs⟩)
      . simp at hnil
      . rw [List.concat_eq_append, List.append_singleton_inj] at hmid
        exact ⟨by rw [hxs, hmid.1], hmid.2.symm⟩

theorem awaits_add (hnew : ∀ r, ¬Awaits events u r) {e : Nat} (he : 0 < e)
    : Awaits (events ++ [.add u e]) t r ↔ if t = u then r = e else Awaits events t r := by
  constructor
  . intro ⟨before, e', since, heq, hdel, hcount, hpos⟩
    rcases append_singleton_eq_iff.mp heq with ⟨rfl, -, hadd⟩ | ⟨mid, rfl, rfl⟩
    . simp only [add.injEq] at hadd
      simp only [List.count_nil] at hcount
      simp only [hadd.1, if_true]
      omega
    . simp only [List.mem_append, not_or, List.count_append, List.count_singleton, beq_iff_eq,
        reduceCtorEq, if_false] at hdel hcount
      have hold : Awaits (before ++ .add t e' :: mid) t r := ⟨before, e', mid, rfl, hdel.1, hcount, hpos⟩
      have hne : t ≠ u := by
        intro htu
        exact hnew r (htu ▸ hold)
      rwa [if_neg hne]
  . intro h
    split at h
    next htu =>
      subst htu
      exact ⟨events, e, [], by simp, by simp, by simpa using h, by omega⟩
    next htu =>
      obtain ⟨before, e', since, rfl, hdel, hcount, hpos⟩ := h
      exact ⟨before, e', since ++ [.add u e], by simp, by simpa using hdel, by simpa using hcount, hpos⟩

theorem awaits_del : Awaits (events ++ [.del u]) t r ↔ t ≠ u ∧ Awaits events t r := by
  constructor
  . intro ⟨before, e, since, heq, hdel, hcount, hpos⟩
    rcases append_singleton_eq_iff.mp heq with ⟨-, -, hadd⟩ | ⟨mid, rfl, rfl⟩
    . cases hadd
    . simp only [List.mem_append, List.mem_singleton, del.injEq, not_or] at hdel
      exact ⟨hdel.2, before, e, mid, rfl, hdel.1, by simpa using hcount, hpos⟩
  . intro ⟨hne, before, e, since, heq, hdel, hcount, hpos⟩
    exact ⟨before, e, since ++ [.del u], by simp [heq], by simp [hdel, hne], by simpa using hcount, hpos⟩

theorem awaits_tick : Awaits (events ++ [.tick]) t r ↔ 0 < r ∧ Awaits events t (r + 1) := by
  constructor
  . intro ⟨before, e, since, heq, hdel, hcount, hpos⟩
    rcases append_singleton_eq_iff.mp heq with ⟨-, -, hadd⟩ | ⟨mid, rfl, rfl⟩
    . cases hadd
    . simp only [List.mem_append, not_or, List.count_append, List.count_singleton_self] at hdel hcount
      exact ⟨hpos, before, e, mid, rfl, hdel.1, by omega, by omega⟩
  . intro ⟨hpos, before, e, since, heq, hdel, hcount, _⟩
    refine ⟨before, e, since ++ [.tick], by simp [heq], by simpa using hdel, ?_, hpos⟩
    rw [List.count_append, List.count_singleton_self]
    omega

/--
A timer fires at the next event if that is a tick and the timer has one tick left.
-/
theorem due_append_singleton {event : TimerEvent}
    : Due (events ++ [event]) t n
        ↔
      Due events t n ∨ (event = .tick ∧ Awaits events t 1 ∧ n = events.count .tick + 1) := by
  constructor
  . intro ⟨before, e, since, rest, heq, hdel, hcount, hn⟩
    rw [← List.cons_append, ← List.append_assoc] at heq
    rcases append_singleton_eq_iff.mp heq with ⟨-, rfl, hevent⟩ | ⟨mid, rfl, rfl⟩
    . refine Or.inr ⟨hevent, ⟨before, e, since, rfl, hdel, hcount, Nat.one_pos⟩, ?_⟩
      rw [hn, List.count_append, List.count_cons_of_ne (by simp)]
      omega
    . exact Or.inl ⟨before, e, since, mid, by simp, hdel, hcount, hn⟩
  . rintro (⟨before, e, since, rest, rfl, hdel, hcount, hn⟩
      | ⟨rfl, ⟨before, e, since, rfl, hdel, hcount, _⟩, hn⟩)
    . exact ⟨before, e, since, rest ++ [event], by simp, hdel, hcount, hn⟩
    . refine ⟨before, e, since, [], by simp, hdel, hcount, ?_⟩
      rw [hn, List.count_append, List.count_cons_of_ne (by simp)]
      omega

theorem Due.le_count (h : Due events t n) : n ≤ events.count .tick := by
  obtain ⟨before, e, since, rest, rfl, -, hcount, hn⟩ := h
  rw [List.count_append, List.count_cons_of_ne (by simp), List.count_append, List.count_cons_self]
  omega

end TimerEvent

namespace TimerSys

open TimerEvent

/--
The timer list and the record of what fired agree with the events so far.
-/
structure Tracks (s : TimerSys) (past : List TimerEvent) : Prop where
  ok : Timer.Ok s.timers
  nodup : (s.timers.map (·.proc)).Nodup
  ticks : s.ticks = past.count .tick
  awaits : ∀ t r, Timer.remaining t s.timers = some r ↔ Awaits past t r
  due : ∀ t n, (t, n) ∈ s.fired ↔ Due past t n
  firedNodup : s.fired.Nodup

theorem tracks_init : init.Tracks [] := by
  constructor
  . exact ⟨by simp [init], by simp [init, Timer.total]⟩
  . simp [init]
  . rfl
  . simp [init, Timer.remaining, Awaits]
  . simp [init, Due]
  . simp [init]

variable {s : TimerSys} {past : List TimerEvent}

theorem Tracks.add (h : s.Tracks past) {t e : Nat} (hlegal : s.Legal (.add t e))
    : ∃ s', s.step (.add t e) = some s' ∧ s'.Tracks (past ++ [.add t e]) := by
  obtain ⟨hpos, hlt, hnew⟩ := hlegal
  refine ⟨{ s with timers := Timer.addTimer s.timers ⟨e, t⟩ }, by simp [step, hnew]; omega, ?_⟩
  constructor
  . exact Timer.ok_addTimer h.ok (by simp only; omega) hlt
  . rw [Timer.procs_addTimer.nodup_iff]
    exact List.nodup_cons.mpr ⟨hnew, h.nodup⟩
  . simpa using h.ticks
  . intro u r
    have hnone : ∀ r, ¬Awaits past t r := by
      intro r hr
      rw [← h.awaits, Timer.remaining_eq_none_iff.mpr hnew] at hr
      cases hr
    rw [Timer.remaining_addTimer hnew, awaits_add hnone (by omega)]
    split
    . rw [Option.some_inj, eq_comm]
    . exact h.awaits u r
  . intro u n
    simpa [due_append_singleton] using h.due u n
  . exact h.firedNodup

theorem Tracks.del (h : s.Tracks past) (t : Nat)
    : ∃ s', s.step (.del t) = some s' ∧ s'.Tracks (past ++ [.del t]) := by
  refine ⟨_, rfl, ?_⟩
  constructor
  . exact Timer.ok_delTimer h.ok
  . simp only [Timer.procs_delTimer]
    exact h.nodup.erase t
  . simpa using h.ticks
  . intro u r
    simp only [Timer.remaining_delTimer h.nodup h.ok.total_lt, awaits_del]
    split
    next heq => simp [heq]
    next hne => simp [hne, h.awaits]
  . intro u n
    simpa [due_append_singleton] using h.due u n
  . exact h.firedNodup

theorem Tracks.tick (h : s.Tracks past)
    : ∃ s', s.step .tick = some s' ∧ s'.Tracks (past ++ [.tick]) := by
  obtain ⟨fired, rest, heq, hok, hfiredNodup, hnodup, hfired, hrest⟩ := h.ok.runTimerList h.nodup
  refine ⟨_, by rw [step, heq, Option.map_some], ?_⟩
  have hnew : ∀ t n, (t, n) ∈ fired.map (fun t => (t, s.ticks + 1))
      ↔ Awaits past t 1 ∧ n = past.count .tick + 1 := by
    intro t n
    rw [List.mem_map, ← h.ticks, ← h.awaits, ← hfired]
    grind
  constructor
  . exact hok
  . exact hnodup
  . simp [h.ticks]
  . intro t r
    simp only [hrest, h.awaits, awaits_tick]
  . intro t n
    simp only [List.mem_append, h.due, hnew, due_append_singleton, true_and]
  . refine List.nodup_append.mpr ⟨h.firedNodup, hfiredNodup.map ?_, ?_⟩
    . intro t u htu
      exact (Prod.ext_iff.mp htu).1
    . intro x hx y hy hxy
      subst hxy
      have hle := ((h.due x.1 x.2).mp hx).le_count
      have := ((hnew x.1 x.2).mp hy).2
      omega

/--
In every run of legal calls no assertion fails, and a timer fires exactly when it is due: at the
tick with the number of `expires` behind its insertion unless it was deleted before, whatever other
timers were inserted, deleted or fired, and once.
-/
theorem fired_iff_due {events : List TimerEvent} (hlegal : Run.Admits step Legal init events)
    : ∃ s, Run.exec step init events = some s ∧ s.fired.Nodup
        ∧ ∀ t n, (t, n) ∈ s.fired ↔ Due events t n := by
  have hkeep : ∀ past s event, Tracks s past → s.Legal event →
      ∃ s', s.step event = some s' ∧ s'.Tracks (past ++ [event]) := by
    intro past s event h hlegal
    cases event with
    | add t e => exact h.add hlegal
    | del t => exact h.del t
    | tick => exact h.tick
  obtain ⟨s, hexec, h⟩ := Run.exists_exec_of_past (I := fun past s => s.Tracks past) hkeep tracks_init
    hlegal
  exact ⟨s, hexec, h.firedNodup, h.due⟩

/--
Two timers for the second tick, of which one is deleted while a third one is inserted.
-/
theorem fired_iff_due_threeTimers
    : ∃ s, Run.exec step init [.add 1 2, .add 2 2, .tick, .add 3 5, .del 1, .tick, .del 2] = some s
        ∧ s.fired.Nodup
        ∧ ∀ t n, (t, n) ∈ s.fired
          ↔ Due [.add 1 2, .add 2 2, .tick, .add 3 5, .del 1, .tick, .del 2] t n :=
  fired_iff_due (by decide)

end TimerSys
end Ucore

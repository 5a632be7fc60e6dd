import Mathlib
import Ucore.Kern.Schedule.Sched.Stride
import Ucore.Kern.Schedule.SchedTicks

/-!
This module contains the strides of processes that come and go. A process keeps its stride while it sleeps, and
a new one has the stride that its memory holds, so the strides of the run pool stay close together only if those
that come in are close to them.
-/

namespace Ucore

namespace Sched

/--
The strides of the processes of `A` stand for the numbers `pass`, which are less than `2 ^ 31` apart.
-/
def Passes (A : Nat → Prop) (s : Sched) (pass : Nat → Int) : Prop :=
  ∀ p q, A p → A q → ((s.procs p).lab6Stride - (s.procs q).lab6Stride).toInt = pass p - pass q

/--
The strides of the processes of `A` lie in the half of the 32 bit circle that begins at `base`.
-/
def InHalf (A : Nat → Prop) (s : Sched) (base : BitVec 32) : Prop :=
  ∀ p, A p → ((s.procs p).lab6Stride - base).toNat < 2 ^ 31

/--
From `s` to `t` only processes of `A` become runnable and come into the pool, and no stride changes.
-/
structure Enters (A : Nat → Prop) (s t : Sched) : Prop where
  idleproc : t.idleproc = s.idleproc
  stride : ∀ q, (t.procs q).lab6Stride = (s.procs q).lab6Stride
  priority : ∀ q, (t.procs q).lab6Priority = (s.procs q).lab6Priority
  runnable : ∀ q, (t.procs q).state = .runnable → (s.procs q).state = .runnable ∨ A q
  pool : ∀ pass : Nat → Int, s.Passes A pass → (∀ q ∈ s.lab6RunPool.elements, A q) → s.lab6RunPool.Ordered pass →
    t.lab6RunPool.Ordered pass ∧ ∀ q ∈ t.lab6RunPool.elements, A q

variable {s t u : Sched} {A : Nat → Prop} {pass : Nat → Int} {p q : Nat} {f : SchedProc → SchedProc}

theorem Passes.congr (h : s.Passes A pass) (hstride : ∀ q, (t.procs q).lab6Stride = (s.procs q).lab6Stride)
    : t.Passes A pass := by
  intro p q hp hq
  rw [hstride, hstride]
  exact h p q hp hq

theorem Passes.mono {B : Nat → Prop} (h : s.Passes A pass) (hB : ∀ q, B q → A q) : s.Passes B pass :=
  fun p q hp hq => h p q (hB p hp) (hB q hq)

theorem Passes.before (h : s.Passes A pass) (hp : A p) (hq : A q) : s.before p q = true ↔ pass p < pass q :=
  before_of_sub (h p q hp hq)

theorem Enters.refl (A : Nat → Prop) (s : Sched) : s.Enters A s :=
  ⟨rfl, fun _ => rfl, fun _ => rfl, fun _ => .inl, fun _ _ hpool hordered => ⟨hordered, hpool⟩⟩

theorem Enters.trans (h : s.Enters A t) (h' : t.Enters A u) : s.Enters A u := by
  refine ⟨h'.idleproc.trans h.idleproc, ?_, ?_, ?_, ?_⟩
  . intro q
    rw [h'.stride, h.stride]
  . intro q
    rw [h'.priority, h.priority]
  . intro q hq
    rcases h'.runnable q hq with hq | hq
    . exact h.runnable q hq
    . exact .inr hq
  . intro pass hpass hpool hordered
    obtain ⟨hordered', hpool'⟩ := h.pool pass hpass hpool hordered
    exact h'.pool pass (hpass.congr h.stride) hpool' hordered'

theorem enters_modify (hstride : ∀ proc, (f proc).lab6Stride = proc.lab6Stride)
    (hpriority : ∀ proc, (f proc).lab6Priority = proc.lab6Priority)
    (hrunnable : (f (s.procs p)).state = .runnable → (s.procs p).state = .runnable ∨ A p)
    : s.Enters A (s.modify p f) := by
  refine ⟨rfl, ?_, ?_, ?_, fun _ _ hpool hordered => ⟨hordered, hpool⟩⟩
  . intro q
    by_cases hqp : q = p <;> simp [Sched.modify, hqp, hstride]
  . intro q
    by_cases hqp : q = p <;> simp [Sched.modify, hqp, hpriority]
  . intro q hq
    by_cases hqp : q = p
    . subst hqp
      exact hrunnable (by simpa [Sched.modify] using hq)
    . exact .inl (by simpa [Sched.modify, hqp] using hq)

theorem enters_strideEnqueue (hp : A p) : s.Enters A (s.strideEnqueue p) := by
  refine ⟨rfl, ?_, ?_, ?_, ?_⟩
  . intro q
    rw [strideEnqueue_procs]
    by_cases hqp : q = p <;> simp [hqp, SchedProc.enqueued]
  . intro q
    rw [strideEnqueue_procs]
    by_cases hqp : q = p <;> simp [hqp, SchedProc.enqueued]
  . intro q hq
    rw [strideEnqueue_procs] at hq
    by_cases hqp : q = p
    . exact .inr (hqp ▸ hp)
    . exact .inl (by simpa [hqp] using hq)
  . intro pass hpass hpool hordered
    refine ⟨SkewHeap.Ordered.insert hordered hp hpool fun a b ha hb => hpass.before ha hb, ?_⟩
    intro q hq
    rcases List.mem_cons.mp (strideEnqueue_elements.mem_iff.mp hq) with rfl | hq
    . exact hp
    . exact hpool q hq

theorem enters_wakeupProc (hp : A p) (hwakeup : s.wakeupProc p = some t) : s.Enters A t := by
  by_cases hzombie : (s.procs p).state = .zombie
  . simp [Sched.wakeupProc, hzombie] at hwakeup
  . by_cases hrunnable : (s.procs p).state = .runnable
    . have hs : s = t := by simpa [Sched.wakeupProc, hrunnable] using hwakeup
      exact hs ▸ Enters.refl A s
    . have hwoken : s.Enters A (s.modify p SchedProc.woken) :=
        enters_modify (fun _ => rfl) (fun _ => rfl) fun _ => .inr hp
      rw [wakeupProc_eq hzombie hrunnable, Option.some_inj] at hwakeup
      rw [← hwakeup]
      split
      . exact hwoken.trans (enters_strideEnqueue hp)
      . exact hwoken

theorem wakeupProc_waiting (hwakeup : s.wakeupProc p = some t) (hwait : (t.procs q).waitState = wtChild)
    : (s.procs q).waitState = wtChild := by
  by_cases hzombie : (s.procs p).state = .zombie
  . simp [Sched.wakeupProc, hzombie] at hwakeup
  . by_cases hrunnable : (s.procs p).state = .runnable
    . have hs : s = t := by simpa [Sched.wakeupProc, hrunnable] using hwakeup
      exact hs ▸ hwait
    . rw [wakeupProc_eq hzombie hrunnable, Option.some_inj] at hwakeup
      rw [← hwakeup] at hwait
      by_cases hqp : q = p
      . split at hwait
        . simp [hqp, strideEnqueue_procs, Sched.modify, SchedProc.enqueued, SchedProc.woken, wtChild,
            wtInterrupted] at hwait
        . simp [hqp, Sched.modify, SchedProc.woken, wtChild, wtInterrupted] at hwait
      . split at hwait
        . simpa [strideEnqueue_procs, Sched.modify, hqp] using hwait
        . simpa [Sched.modify, hqp] using hwait

theorem enters_wakeParents {wakes : List Nat} (hwakes : ∀ p ∈ wakes, (s.procs p).waitState = wtChild → A p)
    (hwake : s.wakeParents wakes = some t)
    : s.Enters A t := by
  induction wakes generalizing s with
  | nil => exact Option.some_inj.mp hwake ▸ Enters.refl A s
  | cons proc wakes ih =>
    rw [Sched.wakeParents] at hwake
    split at hwake
    next hwait =>
      obtain ⟨u, hu, hwake⟩ := Option.bind_eq_some_iff.mp hwake
      have henters := enters_wakeupProc (hwakes proc List.mem_cons_self hwait) hu
      refine henters.trans (ih ?_ hwake)
      intro p hp hwaits
      exact hwakes p (List.mem_cons_of_mem _ hp) (wakeupProc_waiting hu hwaits)
    . exact ih (fun p hp => hwakes p (List.mem_cons_of_mem _ hp)) hwake

theorem enters_runTimers {timers rest : List Timer}
    (htimers : ∀ timer ∈ timers.takeWhile (·.expires = 0), A timer.proc) (hrun : s.runTimers timers = some (rest, t))
    : s.Enters A t := by
  induction timers generalizing s with
  | nil => exact (Prod.mk.inj (Option.some_inj.mp hrun)).2 ▸ Enters.refl A s
  | cons timer timers ih =>
    rw [Sched.runTimers] at hrun
    split at hrun
    next hexpires =>
      rw [List.takeWhile_cons_of_pos (by simpa using hexpires)] at htimers
      dsimp only at hrun
      split at hrun
      . contradiction
      . obtain ⟨u, hu, hrun⟩ := Option.bind_eq_some_iff.mp hrun
        have henters := enters_wakeupProc (htimers timer List.mem_cons_self) hu
        exact henters.trans (ih (fun timer' ht => htimers timer' (List.mem_cons_of_mem _ ht)) hrun)
    . exact (Prod.mk.inj (Option.some_inj.mp hrun)).2 ▸ Enters.refl A s

theorem enters_schedClassProcTick (p : Nat) : s.Enters A (s.schedClassProcTick p) := by
  unfold schedClassProcTick
  split
  . rw [strideProcTick_eq]
    refine Enters.trans (t := s.modify p SchedProc.ticked) ?_ ?_
    . have hsame := SchedProc.ticked_same
      exact enters_modify (fun proc => (hsame proc).2.2.2.1) (fun proc => (hsame proc).2.2.2.2)
        fun hstate => .inl (by rwa [(hsame _).2.1] at hstate)
    . have hsame := SchedProc.spent_same
      exact enters_modify (fun proc => (hsame proc).2.2.2.1) (fun proc => (hsame proc).2.2.2.2)
        fun hstate => .inl (by rwa [(hsame _).2.1] at hstate)
  . exact enters_modify (fun _ => rfl) (fun _ => rfl) .inl

theorem Passes.spread (h : s.Passes A pass) (hp : A p) (hq : A q) : |pass p - pass q| < 2 ^ 31 := by
  have hpq := h p q hp hq
  have hqp := h q p hq hp
  have hlt := BitVec.toInt_lt (x := (s.procs p).lab6Stride - (s.procs q).lab6Stride)
  have hlt' := BitVec.toInt_lt (x := (s.procs q).lab6Stride - (s.procs p).lab6Stride)
  rw [abs_lt]
  omega

theorem toInt_sub_of_half {x y base : BitVec 32} (hx : (x - base).toNat < 2 ^ 31) (hy : (y - base).toNat < 2 ^ 31)
    : (x - y).toInt = (x - base).toNat - (y - base).toNat := by
  simp only [BitVec.toInt_eq_toNat_cond, BitVec.toNat_sub] at *
  omega

theorem InHalf.passes {base : BitVec 32} (h : s.InHalf A base) (start : Int)
    : s.Passes A fun p => start + ((s.procs p).lab6Stride - base).toNat := by
  intro p q hp hq
  have hsub := toInt_sub_of_half (h p hp) (h q hq)
  dsimp only
  omega

/--
More processes in the same half get passes, and those that have passes keep them.
-/
theorem Passes.extend {B : Nat → Prop} {base : BitVec 32} (h : s.Passes A pass) (hhalf : s.InHalf B base)
    (hAB : ∀ q, A q → B q)
    : ∃ pass', s.Passes B pass' ∧ ∀ q, A q → pass' q = pass q := by
  by_cases hA : ∃ a, A a
  . obtain ⟨a, ha⟩ := hA
    refine ⟨_, hhalf.passes (pass a - ((s.procs a).lab6Stride - base).toNat), ?_⟩
    intro q hq
    have hsub := toInt_sub_of_half (hhalf q (hAB q hq)) (hhalf a (hAB a ha))
    rw [h q a hq ha] at hsub
    omega
  . exact ⟨_, hhalf.passes 0, fun q hq => absurd ⟨q, hq⟩ hA⟩

theorem toInt_add_sub {x y n : BitVec 32} (hle : (x - y).toInt ≤ 0) (hge : -(2 ^ 31) < (x - y).toInt)
    (hn : n.toNat ≤ bigStride)
    : (x + n - y).toInt = (x - y).toInt + n.toNat ∧ (y - (x + n)).toInt = -(x - y).toInt - n.toNat := by
  have hbig : bigStride = 2 ^ 30 := rfl
  simp only [hbig, BitVec.toInt_eq_toNat_cond, BitVec.toNat_sub, BitVec.toNat_add] at *
  omega

theorem pace_le (proc : SchedProc) : proc.pace.toNat ≤ bigStride := by
  have hbig : (BitVec.ofNat 32 bigStride).toNat = bigStride := rfl
  rw [SchedProc.pace]
  split
  . rw [BitVec.toNat_udiv, hbig]
    exact Nat.div_le_self _ _
  . exact Nat.le_of_eq hbig

/--
A priority of at most `maxPriority` takes long steps.
-/
theorem le_pace {proc : SchedProc} {maxPriority : Nat} (hpriority : proc.lab6Priority.toNat ≤ maxPriority)
    : bigStride / maxPriority ≤ proc.pace.toNat := by
  have hbig : (BitVec.ofNat 32 bigStride).toNat = bigStride := rfl
  rw [SchedProc.pace]
  split
  next hne =>
    have hpos : 0 < proc.lab6Priority.toNat := by
      refine Nat.pos_of_ne_zero fun hzero => hne ?_
      exact BitVec.eq_of_toNat_eq hzero
    rw [BitVec.toNat_udiv, hbig]
    exact Nat.div_le_div_left hpriority hpos
  . rw [hbig]
    exact Nat.div_le_self _ _

/--
`schedule` changes the stride of the process that it picks, the root of the pool.
-/
theorem schedule_strides (hok : s.PoolOk) (hcurrent : s.current ∉ s.lab6RunPool.elements)
    (hschedule : s.schedule = some t)
    : (∀ q, (t.procs q).lab6Priority = (s.procs q).lab6Priority) ∧
      (s.putBack.lab6RunPool = .nil ∧ t.lab6RunPool = .nil ∧ (∀ q, (t.procs q).lab6Stride = (s.procs q).lab6Stride) ∨
        ∃ left right, s.putBack.lab6RunPool = .node left t.current right ∧
          t.lab6RunPool = .merge s.putBack.before left right ∧
          (t.procs t.current).lab6Stride = (s.procs t.current).lab6Stride + (s.procs t.current).pace ∧
          ∀ q ≠ t.current, (t.procs q).lab6Stride = (s.procs q).lab6Stride) := by
  have hkept := putBack_procs s
  cases hpool : s.putBack.lab6RunPool with
  | nil =>
    rw [Sched.schedule, runNext_nil hpool, Option.some_inj] at hschedule
    subst hschedule
    refine ⟨?_, .inl ⟨rfl, hpool, ?_⟩⟩
    . intro q
      rw [← (hkept q).2.2.2]
      by_cases hq : q = s.putBack.idleproc <;> simp [Sched.modify, hq]
    . intro q
      rw [← (hkept q).2.2.1]
      by_cases hq : q = s.putBack.idleproc <;> simp [Sched.modify, hq]
  | node left c right =>
    rw [Sched.schedule, runNext_node (hok.putBack hcurrent) hpool, Option.some_inj] at hschedule
    subst hschedule
    refine ⟨?_, .inr ⟨left, right, rfl, rfl, ?_, ?_⟩⟩
    . intro q
      rw [← (hkept q).2.2.2]
      by_cases hq : q = c <;> simp [hq, SchedProc.picked]
    . have hpace : (s.putBack.procs c).pace = (s.procs c).pace := by
        rw [SchedProc.pace, SchedProc.pace, (hkept c).2.2.2]
      simp [SchedProc.picked, (hkept c).2.2.1, hpace]
    . intro q hq
      rw [← (hkept q).2.2.1]
      simp [show q ≠ c from hq]

/--
`schedule` picks a process of least pass, whose pass then grows.
-/
theorem Passes.schedule (h : s.Passes A pass) (hordered : s.lab6RunPool.Ordered pass) (hok : s.PoolOk)
    (hcurrent : s.current ∉ s.lab6RunPool.elements) (hA : ∀ q, q ∈ s.putBack.lab6RunPool.elements ↔ A q)
    (hschedule : s.schedule = some t)
    : (∃ pass', t.Passes A pass' ∧ t.lab6RunPool.Ordered pass' ∧ ∀ q, A q →
        pass' q = pass q + if q = t.current then ((s.procs q).pace.toNat : Int) else 0) ∧ ∀ q, A q →
      A t.current ∧ pass t.current ≤ pass q ∧
        (t.procs t.current).lab6Stride = (s.procs t.current).lab6Stride + (s.procs t.current).pace ∧
        ∀ q ≠ t.current, (t.procs q).lab6Stride = (s.procs q).lab6Stride := by
  have hputBack : s.putBack.lab6RunPool.Ordered pass := by
    refine putBack_ordered (S := A) hordered ?_ ?_ fun a b ha hb => h.before ha hb
    . intro hrunnable hidle
      exact (hA s.current).mp ((mem_putBack s s.current).mpr (.inr ⟨rfl, hrunnable, hidle⟩))
    . intro q hq
      exact (hA q).mp ((mem_putBack s q).mpr (.inl hq))
  rcases (schedule_strides hok hcurrent hschedule).2 with
    ⟨hnil, hnil', hstride⟩ | ⟨left, right, hpool, hpool', hpicked, hstride⟩
  . have hempty : ∀ q, ¬A q := by
      intro q hq
      have := (hA q).mpr hq
      rw [hnil] at this
      contradiction
    refine ⟨⟨pass, fun p q hp => absurd hp (hempty p), ?_, fun q hq => absurd hq (hempty q)⟩,
      fun q hq => absurd hq (hempty q)⟩
    rw [hnil']
    trivial
  . have hc : A t.current := (hA t.current).mp (by rw [hpool]; exact List.mem_cons_self)
    rw [hpool] at hputBack
    have hleast : ∀ q, A q → pass t.current ≤ pass q := by
      intro q hq
      exact hputBack.root_le q (by rw [← hpool]; exact (hA q).mpr hq)
    refine ⟨⟨Function.update pass t.current (pass t.current + (s.procs t.current).pace.toNat), ?_, ?_, ?_⟩,
      fun q hq => ⟨hc, hleast q hq, hpicked, hstride⟩⟩
    . have hpace := pace_le (s.procs t.current)
      have hstep : ∀ q, A q → q ≠ t.current →
          ((t.procs t.current).lab6Stride - (t.procs q).lab6Stride).toInt =
            pass t.current + (s.procs t.current).pace.toNat - pass q ∧
          ((t.procs q).lab6Stride - (t.procs t.current).lab6Stride).toInt =
            pass q - (pass t.current + (s.procs t.current).pace.toNat) := by
        intro q hq hne
        have hdiff := h t.current q hc hq
        have hspread := (abs_lt.mp (h.spread hc hq)).1
        have hle := hleast q hq
        rw [hpicked, hstride q hne]
        have hadd := @toInt_add_sub (s.procs t.current).lab6Stride (s.procs q).lab6Stride (s.procs t.current).pace
          (by omega) (by omega) hpace
        omega
      intro p q hp hq
      by_cases hpc : p = t.current
      . by_cases hqc : q = t.current
        . subst hpc
          rw [hqc]
          simp
        . have hdiff := (hstep q hq hqc).1
          have hle := hleast q hq
          rw [hpc, Function.update_self, Function.update_of_ne hqc]
          omega
      . by_cases hqc : q = t.current
        . have hdiff := (hstep p hp hpc).2
          rw [hqc, Function.update_self, Function.update_of_ne hpc]
          omega
        . rw [Function.update_of_ne hpc, Function.update_of_ne hqc, hstride p hpc, hstride q hqc]
          exact h p q hp hq
    . have hmem : ∀ q, q ∈ t.lab6RunPool.elements ↔ A q ∧ q ≠ t.current := by
        intro q
        rw [hpool', ← hA q]
        exact mem_runNext (hok.putBack hcurrent) hpool
      have hbelow : ∀ q ∈ left.elements ++ right.elements, A q := by
        intro q hq
        rw [← hA, hpool]
        exact List.mem_cons_of_mem _ hq
      obtain ⟨hleft, hright⟩ := List.forall_mem_append.mp hbelow
      have hmerge : (SkewHeap.merge s.putBack.before left right).Ordered pass := by
        refine SkewHeap.Ordered.merge hputBack.2.1 hputBack.2.2 hleft hright fun a b ha hb => ?_
        have hkept := putBack_procs s
        exact (h.congr fun q => (hkept q).2.2.1).before ha hb
      rw [hpool']
      refine hmerge.congr fun q hq => ?_
      rw [← hpool'] at hq
      rw [Function.update_of_ne ((hmem q).mp hq).2]
    . intro q hq
      by_cases hqc : q = t.current
      . rw [if_pos hqc, hqc, Function.update_self]
      . rw [if_neg hqc, Function.update_of_ne hqc, Int.add_zero]

end Sched

namespace SchedSys

/--
A process that can run, in the pool or as the current one.
-/
def Ready (s : SchedSys) (p : Nat) : Prop :=
  s.place p ≠ .free ∧ (s.sched.procs p).state = .runnable ∧ p ≠ s.sched.idleproc

/--
The processes whose timers expire with the next tick.
-/
def expired : List Timer → List Nat
  | [] => []
  | timer :: rest =>
    if timer.expires = 1 then timer.proc :: (rest.takeWhile (·.expires = 0)).map (·.proc) else []

/--
The processes that an event wakes up.
-/
def wakes (s : SchedSys) : SchedEvent → List Nat
  | .fork child fails => if fails then [] else [child]
  | .exit wakes => wakes.filter fun p => (s.sched.procs p).waitState = wtChild
  | .wakeupWait proc => [proc]
  | .kill proc => if (s.sched.procs proc).waitState &&& wtInterrupted ≠ 0 then [proc] else []
  | .tick => expired s.timers
  | _ => []

/--
Whenever an event wakes up processes, their strides lie in one half of the circle with those of the processes
that can run. The priorities that processes set or find in their memory are at most `maxPriority`.
-/
structure JoinsClose (maxPriority : Nat) (s : SchedSys) (ev : SchedEvent) : Prop where
  half : s.wakes ev ≠ [] → ∃ base, s.sched.InHalf (fun q => s.Ready q ∨ q ∈ s.wakes ev) base
  child : ∀ child, ev = .fork child false → (s.sched.procs child).lab6Priority.toNat ≤ maxPriority
  set : ∀ priority, ev = .setPriority priority → priority.toNat ≤ maxPriority

/--
The processes that can run have passes, by which the pool is ordered.
-/
structure Level (maxPriority : Nat) (pass : Nat → Int) (s : SchedSys) : Prop where
  passes : s.sched.Passes s.Ready pass
  ordered : s.sched.lab6RunPool.Ordered pass
  priority : ∀ p, s.place p ≠ .free → p ≠ s.sched.idleproc → (s.sched.procs p).lab6Priority.toNat ≤ maxPriority

/--
In a step the processes that can run keep their passes, only the one that `schedule` picks goes on by its pace.
-/
def Advances (s : SchedSys) (ev : SchedEvent) (s' : SchedSys) (pass pass' : Nat → Int) : Prop :=
  ∀ q, s.Ready q →
    pass' q = pass q + if ev = .schedule ∧ q = s'.sched.current then ((s.sched.procs q).pace.toNat : Int) else 0

variable {s s' : SchedSys} {ev : SchedEvent} {p q maxPriority : Nat} {A : Nat → Prop}
  {pass : Nat → Int}

theorem Inv.ready_of_mem (h : s.Inv) (hp : p ∈ s.sched.lab6RunPool.elements) : s.Ready p := by
  obtain ⟨hplace, hstate, -, hidle⟩ := (h.queued p).mp hp
  exact ⟨hplace, hstate, hidle⟩

theorem enters_runTimerList {timers rest : List Timer} {t : Sched} (hA : ∀ p ∈ expired timers, A p)
    (hlist : s.sched.runTimerList timers = some (rest, t))
    : s.sched.Enters A t := by
  unfold Sched.runTimerList at hlist
  obtain ⟨⟨rest', u⟩, hexpired, hr⟩ := Option.map_eq_some_iff.mp hlist
  obtain ⟨-, rfl⟩ := Prod.mk.inj hr
  refine Sched.Enters.trans (t := u) ?_ (Sched.enters_schedClassProcTick _)
  cases timers with
  | nil => exact (Prod.mk.inj (Option.some_inj.mp hexpired)).2 ▸ Sched.Enters.refl A s.sched
  | cons timer timers =>
    dsimp only at hexpired
    split at hexpired
    . contradiction
    next hpos =>
      refine Sched.enters_runTimers ?_ hexpired
      intro timer' htimer'
      by_cases hone : timer.expires = 1
      . rw [List.takeWhile_cons_of_pos (by simp [hone])] at htimer'
        rw [expired, if_pos hone] at hA
        rcases List.mem_cons.mp htimer' with rfl | htimer'
        . exact hA timer.proc List.mem_cons_self
        . exact hA timer'.proc (List.mem_cons_of_mem _ (List.mem_map_of_mem htimer'))
      . have hlater : ¬timer.expires - 1 = 0 := by omega
        rw [List.takeWhile_cons_of_neg (by simpa using hlater)] at htimer'
        contradiction

/--
A step other than `schedule` and a change of the priority.
-/
theorem step_enters (hA : ∀ p ∈ s.wakes ev, A p) (hschedule : ev ≠ .schedule)
    (hset : ∀ priority, ev ≠ .setPriority priority) (hstep : s.step ev = some s')
    : s.sched.Enters A s'.sched := by
  have hsleeping (waitState : BitVec 32) : s.sched.Enters A (s.sched.setSleeping waitState) := by
    exact Sched.enters_modify (fun _ => rfl) (fun _ => rfl) (by simp)
  cases ev with
  | fork child fails =>
    have halloc : s.sched.Enters A (s.sched.allocProc child) :=
      Sched.enters_modify (fun _ => rfl) (fun _ => rfl) (by simp)
    simp only [step] at hstep
    split at hstep
    . contradiction
    . split at hstep
      . exact Option.some_inj.mp hstep ▸ halloc
      next hfails =>
        obtain ⟨sched, hwakeup, rfl⟩ := Option.map_eq_some_iff.mp hstep
        exact halloc.trans (Sched.enters_wakeupProc (hA child (by simp [wakes, hfails])) hwakeup)
  | exit wakes =>
    obtain ⟨sched, hwake, rfl⟩ := Option.map_eq_some_iff.mp hstep
    have hzombie := Sched.enters_modify (A := A) (s := s.sched) (p := s.sched.current)
      (f := fun p => { p with state := .zombie }) (fun _ => rfl) (fun _ => rfl) (by simp)
    refine hzombie.trans (Sched.enters_wakeParents ?_ hwake)
    intro p hp hwait
    refine hA p (List.mem_filter.mpr ⟨hp, ?_⟩)
    by_cases hcurrent : p = s.sched.current
    . simpa [Sched.modify, hcurrent] using hwait
    . simpa [Sched.modify, hcurrent] using hwait
  | wait =>
    obtain rfl := Option.some_inj.mp hstep
    exact hsleeping _
  | reap child =>
    obtain rfl := Option.some_inj.mp hstep
    exact Sched.Enters.refl A _
  | sleep time =>
    simp only [step] at hstep
    split at hstep <;> obtain rfl := Option.some_inj.mp hstep
    . exact Sched.Enters.refl A _
    . exact hsleeping _
  | block waitState =>
    obtain rfl := Option.some_inj.mp hstep
    exact hsleeping _
  | schedule => contradiction
  | resume =>
    obtain rfl := Option.some_inj.mp hstep
    exact Sched.Enters.refl A _
  | wakeupWait proc =>
    obtain ⟨sched, hwakeup, rfl⟩ := Option.map_eq_some_iff.mp hstep
    exact Sched.enters_wakeupProc (hA proc List.mem_cons_self) hwakeup
  | kill proc =>
    simp only [step] at hstep
    split at hstep
    next hinterrupted =>
      obtain ⟨sched, hwakeup, rfl⟩ := Option.map_eq_some_iff.mp hstep
      exact Sched.enters_wakeupProc (hA proc (by rw [wakes, if_pos hinterrupted]; exact List.mem_cons_self)) hwakeup
    . obtain rfl := Option.some_inj.mp hstep
      exact Sched.Enters.refl A _
  | tick =>
    obtain ⟨⟨rest, sched⟩, hlist, rfl⟩ := Option.map_eq_some_iff.mp hstep
    exact enters_runTimerList hA hlist
  | setPriority priority => exact absurd rfl (hset priority)

/--
A process that can run has been able to before the step, or the step has woken it up.
-/
theorem Ready.of_step (hq : s'.Ready q) (hinv : s.Inv) (hlegal : s.Legal ev) (hstep : s.step ev = some s')
    (henters : s.sched.Enters (· ∈ s.wakes ev) s'.sched)
    : s.Ready q ∨ q ∈ s.wakes ev := by
  obtain ⟨hplace, hstate, hidle⟩ := hq
  rcases step_alive hlegal hinv hstep q hplace with hplace | rfl
  . rcases henters.runnable q hstate with hstate | hwakes
    . exact .inl ⟨hplace, hstate, henters.idleproc ▸ hidle⟩
    . exact .inr hwakes
  . exact .inr (by simp [wakes])

theorem Level.boot (procs : Nat → SchedProc) (idle maxPriority : Nat)
    : (boot procs idle).Level maxPriority fun _ => 0 := by
  have hfree : ∀ p, (SchedSys.boot procs idle).place p ≠ .free → p = idle := by
    intro p hp
    by_contra hne
    simp [SchedSys.boot, hne] at hp
  refine ⟨?_, trivial, ?_⟩
  . intro p q hp
    exact absurd (hfree p hp.1) hp.2.2
  . intro p hp hidle
    exact absurd (hfree p hp) hidle

/--
Before a step the processes that it wakes up get passes as well.
-/
theorem Level.wakes (h : s.Level maxPriority pass) (hjoins : s.JoinsClose maxPriority ev)
    : ∃ pass', s.sched.Passes (fun q => s.Ready q ∨ q ∈ s.wakes ev) pass' ∧ ∀ q, s.Ready q → pass' q = pass q := by
  by_cases hnone : s.wakes ev = []
  . refine ⟨pass, h.passes.mono ?_, fun _ _ => rfl⟩
    intro q hq
    simpa [hnone] using hq
  . obtain ⟨base, hhalf⟩ := hjoins.half hnone
    exact h.passes.extend hhalf fun _ => .inl

theorem Level.enters (h : s.Level maxPriority pass) (hinv : s.Inv) (hlegal : s.Legal ev)
    (hjoins : s.JoinsClose maxPriority ev) (hstep : s.step ev = some s') (hschedule : ev ≠ .schedule)
    (hset : ∀ priority, ev ≠ .setPriority priority)
    : ∃ pass', s'.Level maxPriority pass' ∧ s.Advances ev s' pass pass' := by
  have hwoken := step_enters (A := (· ∈ s.wakes ev)) (fun _ => id) hschedule hset hstep
  have henters := step_enters (A := fun q => s.Ready q ∨ q ∈ s.wakes ev) (fun _ => .inr) hschedule hset hstep
  obtain ⟨pass', hpass, hsame⟩ := h.wakes hjoins
  have hordered := h.ordered.congr fun q hq => (hsame q (hinv.ready_of_mem hq)).symm
  refine ⟨pass', ⟨?_, ?_, ?_⟩, ?_⟩
  . exact (hpass.congr henters.stride).mono fun q hq => hq.of_step hinv hlegal hstep hwoken
  . exact (henters.pool pass' hpass (fun q hq => .inl (hinv.ready_of_mem hq)) hordered).1
  . intro p hp hidle
    rw [henters.priority]
    rcases step_alive hlegal hinv hstep p hp with hp | hfork
    . exact h.priority p hp (henters.idleproc ▸ hidle)
    . exact hjoins.child p hfork
  . intro q hq
    rw [hsame q hq, if_neg fun hpick => hschedule hpick.1, Int.add_zero]

theorem Level.setPriority {priority : BitVec 32} (h : s.Level maxPriority pass)
    (hjoins : s.JoinsClose maxPriority (.setPriority priority)) (hpos : 0 < maxPriority)
    (hstep : s.step (.setPriority priority) = some s')
    : s'.Level maxPriority pass := by
  obtain rfl := Option.some_inj.mp hstep
  have hkept : ∀ q, ((s.sched.lab6SetPriority priority).procs q).lab6Stride = (s.sched.procs q).lab6Stride ∧
      ((s.sched.lab6SetPriority priority).procs q).state = (s.sched.procs q).state := by
    intro q
    by_cases hq : q = s.sched.current <;> simp [Sched.lab6SetPriority, Sched.modify, hq]
  refine ⟨(h.passes.congr fun q => (hkept q).1).mono ?_, h.ordered, ?_⟩
  . intro q hq
    exact ⟨hq.1, (hkept q).2.symm.trans hq.2.1, hq.2.2⟩
  . intro p hp hidle
    by_cases hcurrent : p = s.sched.current
    . have hset := hjoins.set priority rfl
      simp only [Sched.lab6SetPriority, Sched.modify, hcurrent, Function.update_self]
      split
      . exact hpos
      . exact hset
    . simpa [Sched.lab6SetPriority, Sched.modify, hcurrent] using h.priority p hp hidle

/--
`schedule` picks a process that is behind all others, and only its stride grows.
-/
theorem Level.schedule (h : s.Level maxPriority pass) (hinv : s.Inv) {sched : Sched}
    (hschedule : s.sched.schedule = some sched)
    : (∃ pass', Level maxPriority pass' { s with sched } ∧ s.Advances .schedule { s with sched } pass pass') ∧
      ∀ q, s.Ready q →
        s.Ready sched.current ∧ pass sched.current ≤ pass q ∧
        (sched.procs sched.current).lab6Stride =
          (s.sched.procs sched.current).lab6Stride + (s.sched.procs sched.current).pace ∧
        ∀ q ≠ sched.current, (sched.procs q).lab6Stride = (s.sched.procs q).lab6Stride := by
  obtain ⟨⟨pass', hpass', hordered', hgrows⟩, hleast⟩ :=
    h.passes.schedule h.ordered hinv.pool hinv.current_notMem hinv.mem_putBack hschedule
  obtain ⟨t, hschedule', -, hidle, hsame, -⟩ := Sched.schedule_spec hinv.pool hinv.current_notMem
  obtain rfl : sched = t := Option.some_inj.mp (hschedule.symm.trans hschedule')
  refine ⟨⟨pass', ⟨hpass'.mono ?_, hordered', ?_⟩, ?_⟩, hleast⟩
  . intro q hq
    exact ⟨hq.1, (hsame q).1.symm.trans hq.2.1, hidle ▸ hq.2.2⟩
  . intro p hp hne
    rw [(Sched.schedule_strides hinv.pool hinv.current_notMem hschedule).1]
    exact h.priority p hp (hidle ▸ hne)
  . intro q hq
    simp only [hgrows q hq, true_and]

theorem Level.step (h : s.Level maxPriority pass) (hinv : s.Inv) (hlegal : s.Legal ev)
    (hjoins : s.JoinsClose maxPriority ev) (hpos : 0 < maxPriority) (hstep : s.step ev = some s')
    : ∃ pass', s'.Level maxPriority pass' ∧ s.Advances ev s' pass pass' := by
  cases ev with
  | schedule =>
    obtain ⟨sched, hschedule, rfl⟩ := Option.map_eq_some_iff.mp hstep
    exact (h.schedule hinv hschedule).1
  | setPriority priority => exact ⟨pass, h.setPriority hjoins hpos hstep, fun q _ => by simp⟩
  | _ => exact h.enters hinv hlegal hjoins hstep (by simp) (by simp)

/--
The strides of the pool stand for the unbounded passes `pass`, and the comparison is a total preorder whose
minimum is the root.
-/
structure Sound (pass : Nat → Int) (s : SchedSys) : Prop where
  passes : ∀ p ∈ s.sched.lab6RunPool.elements, ∀ q ∈ s.sched.lab6RunPool.elements,
    ((s.sched.procs p).lab6Stride - (s.sched.procs q).lab6Stride).toInt = pass p - pass q ∧
      |pass p - pass q| < 2 ^ 31
  total : ∀ p ∈ s.sched.lab6RunPool.elements, ∀ q ∈ s.sched.lab6RunPool.elements,
    s.sched.procStrideCompF p q ≤ 0 ∨ s.sched.procStrideCompF q p ≤ 0
  trans : ∀ p ∈ s.sched.lab6RunPool.elements, ∀ q ∈ s.sched.lab6RunPool.elements,
    ∀ r ∈ s.sched.lab6RunPool.elements,
    s.sched.procStrideCompF p q ≤ 0 → s.sched.procStrideCompF q r ≤ 0 → s.sched.procStrideCompF p r ≤ 0
  root : ∀ r, s.sched.lab6RunPool.root? = some r → ∀ q ∈ s.sched.lab6RunPool.elements,
    s.sched.procStrideCompF r q ≤ 0

/--
Every step of the run has a result, and the strides are sound at the start and behind every step, with passes
that go on from one state to the next.
-/
def SoundRun (pass : Nat → Int) (s : SchedSys) : List SchedEvent → Prop
  | [] => s.Sound pass
  | ev :: events =>
    s.Sound pass ∧ ∃ s' pass', s.step ev = some s' ∧ s.Advances ev s' pass pass' ∧ SoundRun pass' s' events

theorem SoundRun.exec {events : List SchedEvent} (h : s.SoundRun pass events)
    (hexec : Run.exec SchedSys.step s events = some s')
    : ∃ pass', s'.Sound pass' := by
  induction events generalizing s pass with
  | nil => exact ⟨pass, Option.some_inj.mp hexec ▸ h⟩
  | cons ev events ih =>
    obtain ⟨-, t, pass', hstep, -, hrun⟩ := h
    obtain ⟨u, hu, hrest⟩ := Option.bind_eq_some_iff.mp hexec
    obtain rfl : t = u := Option.some_inj.mp (hstep.symm.trans hu)
    exact ih hrun hrest

theorem Level.sound (h : s.Level maxPriority pass) (hinv : s.Inv) : s.Sound pass := by
  have hle : ∀ p ∈ s.sched.lab6RunPool.elements, ∀ q ∈ s.sched.lab6RunPool.elements,
      s.sched.procStrideCompF p q ≤ 0 ↔ pass p ≤ pass q := by
    intro p hp q hq
    rw [Sched.procStrideCompF_of_sub (h.passes p q (hinv.ready_of_mem hp) (hinv.ready_of_mem hq))]
    split
    . omega
    . split <;> omega
  refine ⟨?_, ?_, ?_, ?_⟩
  . intro p hp q hq
    have hp := hinv.ready_of_mem hp
    have hq := hinv.ready_of_mem hq
    exact ⟨h.passes p q hp hq, h.passes.spread hp hq⟩
  . intro p hp q hq
    rw [hle p hp q hq, hle q hq p hp]
    exact Int.le_total _ _
  . intro p hp q hq r hr hpq hqr
    rw [hle p hp q hq] at hpq
    rw [hle q hq r hr] at hqr
    rw [hle p hp r hr]
    exact Int.le_trans hpq hqr
  . intro r hr q hq
    have hordered := h.ordered
    cases hpool : s.sched.lab6RunPool with
    | nil =>
      rw [hpool] at hr
      contradiction
    | node left a right =>
      rw [hpool] at hr hordered
      obtain rfl : a = r := Option.some_inj.mp hr
      rw [hle a (by rw [hpool]; exact List.mem_cons_self) q hq]
      exact hordered.root_le q (hpool ▸ hq)

theorem Level.soundRun {events : List SchedEvent} (h : s.Level maxPriority pass) (hinv : s.Inv)
    (hlegal : Run.Admits SchedSys.step Legal s events)
    (hjoins : Run.Admits SchedSys.step (JoinsClose maxPriority) s events) (hpos : 0 < maxPriority)
    : s.SoundRun pass events := by
  induction events generalizing s pass with
  | nil => exact h.sound hinv
  | cons ev events ih =>
    obtain ⟨s', hstep, hinv'⟩ := hinv.step hlegal.1
    obtain ⟨pass', hlevel, hadvances⟩ := h.step hinv hlegal.1 hjoins.1 hpos hstep
    exact ⟨h.sound hinv, s', pass', hstep, hadvances,
      ih hlevel hinv' (hlegal.2 s' hstep) (hjoins.2 s' hstep)⟩

theorem Level.run {before during : List SchedEvent} (h : s.Level maxPriority pass) (hinv : s.Inv)
    (hlegal : Run.Admits SchedSys.step Legal s (before ++ during))
    (hjoins : Run.Admits SchedSys.step (JoinsClose maxPriority) s (before ++ during)) (hpos : 0 < maxPriority)
    (hexec : Run.exec SchedSys.step s before = some s')
    : s'.Inv ∧ ∃ pass', s'.Level maxPriority pass' := by
  induction before generalizing s pass with
  | nil =>
    obtain rfl := Option.some_inj.mp hexec
    exact ⟨hinv, pass, h⟩
  | cons ev before ih =>
    obtain ⟨t, hstep, hrest⟩ := Option.bind_eq_some_iff.mp hexec
    obtain ⟨u, hu, hinv'⟩ := hinv.step hlegal.1
    obtain rfl : t = u := Option.some_inj.mp (hstep.symm.trans hu)
    obtain ⟨pass', hlevel, -⟩ := h.step hinv hlegal.1 hjoins.1 hpos hstep
    exact ih hlevel hinv' (hlegal.2 t hstep) (hjoins.2 t hstep) hrest

/--
The turns that a process with the stride `x` can take in steps of at least `step` until it is past the stride
`y`.
-/
def turnsLeft (step : Nat) (x y : BitVec 32) : Nat :=
  if (x - y).toInt > 0 then 0 else (-(x - y).toInt).toNat / step + 1

theorem turnsLeft_le (step : Nat) (x y : BitVec 32) : turnsLeft step x y ≤ 2 ^ 31 / step + 1 := by
  have hlow := BitVec.le_toInt (x - y)
  rw [turnsLeft]
  split
  . exact Nat.zero_le _
  . refine Nat.add_le_add_right (Nat.div_le_div_right ?_) 1
    omega

theorem turnsLeft_add {step : Nat} {x y n : BitVec 32} (hle : (x - y).toInt ≤ 0) (hge : -(2 ^ 31) < (x - y).toInt)
    (hn : n.toNat ≤ bigStride) (hstep : step ≤ n.toNat) (hpos : 0 < step)
    : turnsLeft step (x + n) y + 1 ≤ turnsLeft step x y := by
  rw [turnsLeft, turnsLeft, (Sched.toInt_add_sub hle hge hn).1, if_neg (Int.not_lt.mpr hle)]
  split
  . exact Nat.add_le_add_right (Nat.zero_le _) 1
  . have hle : (-((x - y).toInt + n.toNat)).toNat + step ≤ (-(x - y).toInt).toNat := by omega
    have hdiv := Nat.div_le_div_right (c := step) hle
    rw [Nat.add_div_right _ hpos] at hdiv
    exact Nat.add_le_add_right hdiv 1

/--
The turns that the processes of `group` can take until `p` has to get one.
-/
def groupTurns (step : Nat) (group : Finset Nat) (p : Nat) (s : Sched) : Nat :=
  ∑ q ∈ group, turnsLeft step (s.procs q).lab6Stride (s.procs p).lab6Stride

theorem groupTurns_le (step : Nat) (group : Finset Nat) (p : Nat) (s : Sched)
    : groupTurns step group p s ≤ group.card * (2 ^ 31 / step + 1) :=
  Finset.sum_le_card_nsmul group _ _ fun _ _ => turnsLeft_le step _ _

theorem step_strides (hschedule : ev ≠ .schedule) (hstep : s.step ev = some s') (q : Nat)
    : (s'.sched.procs q).lab6Stride = (s.sched.procs q).lab6Stride := by
  by_cases hset : ∃ priority, ev = .setPriority priority
  . obtain ⟨priority, rfl⟩ := hset
    obtain rfl := Option.some_inj.mp hstep
    by_cases hq : q = s.sched.current <;> simp [Sched.lab6SetPriority, Sched.modify, hq]
  . have henters := step_enters (A := fun _ => True) (fun _ _ => trivial) hschedule
      (fun priority hev => hset ⟨priority, hev⟩) hstep
    exact henters.stride q

theorem groupTurns_congr {t u : Sched} (h : ∀ q, (u.procs q).lab6Stride = (t.procs q).lab6Stride) (step : Nat)
    (group : Finset Nat) (p : Nat)
    : groupTurns step group p u = groupTurns step group p t := by
  simp only [groupTurns, h]

/--
While `p` stays in the pool, every `schedule` takes a turn from the group.
-/
theorem Level.groupTurns_schedule {group : Finset Nat} (h : s.Level maxPriority pass) (hinv : s.Inv)
    (hpos : 0 < bigStride / maxPriority) (hp : s.Ready p) (hgroup : ∀ q, s.Ready q → q ∈ group) {sched : Sched}
    (hschedule : s.sched.schedule = some sched) (hne : p ≠ sched.current)
    : groupTurns (bigStride / maxPriority) group p sched + 1 ≤
        groupTurns (bigStride / maxPriority) group p s.sched := by
  obtain ⟨hcurrent, hle, hpicked, hothers⟩ := (h.schedule hinv hschedule).2 p hp
  have hdiff := h.passes _ p hcurrent hp
  have hspread := (abs_lt.mp (h.passes.spread hcurrent hp)).1
  have hturn : turnsLeft (bigStride / maxPriority) (sched.procs sched.current).lab6Stride
      (sched.procs p).lab6Stride + 1 ≤
        turnsLeft (bigStride / maxPriority) (s.sched.procs sched.current).lab6Stride
          (s.sched.procs p).lab6Stride := by
    rw [hpicked, hothers p hne]
    refine turnsLeft_add ?_ ?_ (Sched.pace_le _) (Sched.le_pace (h.priority _ hcurrent.1 hcurrent.2.2)) hpos
    . omega
    . omega
  refine Finset.sum_lt_sum ?_ ⟨sched.current, hgroup _ hcurrent, Nat.lt_of_succ_le hturn⟩
  intro q hq
  by_cases hqc : q = sched.current
  . rw [hqc]
    exact Nat.le_of_succ_le hturn
  . rw [hothers q hqc, hothers p hne]

theorem Level.count_schedule {group : Finset Nat} {events : List SchedEvent} (h : s.Level maxPriority pass)
    (hinv : s.Inv) (hlegal : Run.Admits SchedSys.step Legal s events)
    (hjoins : Run.Admits SchedSys.step (JoinsClose maxPriority) s events) (hpos : 0 < maxPriority)
    (hmax : maxPriority ≤ bigStride)
    (hstays : Run.Always SchedSys.step
      (fun t => p ∈ t.sched.lab6RunPool.elements ∧ ∀ q, t.Ready q → q ∈ group) s events)
    : events.count .schedule ≤ groupTurns (bigStride / maxPriority) group p s.sched := by
  induction events generalizing s pass with
  | nil => exact Nat.zero_le _
  | cons ev events ih =>
    obtain ⟨⟨hp, hgroup⟩, s', hstep, hstays⟩ := hstays
    obtain ⟨u, hu, hinv'⟩ := hinv.step hlegal.1
    obtain rfl : s' = u := Option.some_inj.mp (hstep.symm.trans hu)
    obtain ⟨pass', hlevel, -⟩ := h.step hinv hlegal.1 hjoins.1 hpos hstep
    have hrest := ih hlevel hinv' (hlegal.2 s' hstep) (hjoins.2 s' hstep) hstays
    by_cases hschedule : ev = .schedule
    . subst hschedule
      obtain ⟨sched, hpick, rfl⟩ := Option.map_eq_some_iff.mp hstep
      have hne : p ≠ sched.current := by
        rintro rfl
        exact hinv'.current_notMem hstays.head.1
      have hturn := h.groupTurns_schedule hinv (Nat.div_pos hmax hpos) (hinv.ready_of_mem hp) hgroup hpick hne
      rw [List.count_cons_self]
      exact Nat.le_trans (Nat.add_le_add_right hrest 1) hturn
    . rw [List.count_cons_of_ne hschedule, ← groupTurns_congr (step_strides hschedule hstep)]
      exact hrest

/--
As long as the strides of the processes that come in lie in one half of the circle with those of the processes
that can run, the strides are sound. If all priorities are at most `BIG_STRIDE`, a process of the pool gets its
turn behind a number of picks that depends on the number of the processes and on the largest priority.
-/
theorem strides_sound {maxPriority : Nat} (hpos : 0 < maxPriority) (procs : Nat → SchedProc) (idle : Nat)
    (events : List SchedEvent) (hlegal : Run.Admits step Legal (boot procs idle) events)
    (hjoins : Run.Admits step (JoinsClose maxPriority) (boot procs idle) events)
    : (∃ pass, (boot procs idle).SoundRun pass events) ∧
        (maxPriority ≤ bigStride → ∀ before during s, events = before ++ during →
          Run.exec step (boot procs idle) before = some s → ∀ (p : Nat) (group : Finset Nat),
          Run.Always step (fun t => p ∈ t.sched.lab6RunPool.elements ∧ ∀ q, t.Ready q → q ∈ group) s during →
          during.count .schedule ≤ group.card * (2 ^ 31 / (bigStride / maxPriority) + 1)) := by
  have hboot := Level.boot procs idle maxPriority
  refine ⟨⟨_, hboot.soundRun (boot_inv procs idle) hlegal hjoins hpos⟩, ?_⟩
  intro hmax before during s hevents hexec p group hstays
  subst hevents
  obtain ⟨hinv, pass, hlevel⟩ := hboot.run (boot_inv procs idle) hlegal hjoins hpos hexec
  exact Nat.le_trans (hlevel.count_schedule hinv (hlegal.behind hexec) (hjoins.behind hexec) hpos hmax hstays)
    (groupTurns_le _ _ _ _)

/--
Two processes that are made, and one of them gets a turn.
-/
def twoMade : List SchedEvent := [.fork 1 false, .fork 2 false, .schedule]

theorem joinsClose_fork {child : Nat} (hstride : ∀ q, (s.sched.procs q).lab6Stride = 0)
    (hpriority : ∀ q, (s.sched.procs q).lab6Priority = 1)
    : s.JoinsClose 1 (.fork child false) := by
  refine ⟨fun _ => ⟨0, ?_⟩, ?_, ?_⟩
  . intro q _
    simp [hstride]
  . intro _ _
    simp [hpriority]
  . simp

theorem joinsClose_twoMade : Run.Admits step (JoinsClose 1) (boot (sameProcs 0 1 0) 0) twoMade := by
  have hboot : ∀ q, ((boot (sameProcs 0 1 0) 0).sched.procs q).lab6Stride = 0 ∧
      ((boot (sameProcs 0 1 0) 0).sched.procs q).lab6Priority = 1 := by
    intro q
    by_cases hq : q = 0 <;> simp [boot, sameProcs, hq]
  refine ⟨joinsClose_fork (fun q => (hboot q).1) fun q => (hboot q).2, ?_⟩
  intro s hs
  have henters := step_enters (A := fun _ => True) (fun _ _ => trivial) (by simp) (by simp) hs
  refine ⟨joinsClose_fork ?_ ?_, fun t _ => ⟨?_, fun _ _ => trivial⟩⟩
  . intro q
    rw [henters.stride, (hboot q).1]
  . intro q
    rw [henters.priority, (hboot q).2]
  . exact ⟨by simp [wakes], by simp, by simp⟩

theorem strides_sound_twoMade
    : ∃ pass, (boot (sameProcs 0 1 0) 0).SoundRun pass twoMade :=
  (strides_sound Nat.one_pos (sameProcs 0 1 0) 0 twoMade (by decide +kernel) joinsClose_twoMade).1

/--
Three strides from memory, each in front of the next one and the last one in front of the first one.
-/
def roundProcs : Nat → SchedProc := fun p => sameProcs (BitVec.ofNat 32 (0x60000000 * (p - 1))) 1 0 p

def threeMade : List SchedEvent := [.fork 1 false, .fork 2 false, .fork 3 false]

/--
No passes fit the strides that three new processes find in memory.
-/
theorem not_strides_sound
    : ¬∀ (procs : Nat → SchedProc) (idle : Nat) (events : List SchedEvent),
        Run.Admits step Legal (boot procs idle) events → ∃ pass, (boot procs idle).SoundRun pass events := by
  intro hclaim
  obtain ⟨pass, hrun⟩ := hclaim roundProcs 0 threeMade (by decide +kernel)
  have hexec : Run.exec step (boot roundProcs 0) threeMade = some (endOf roundProcs threeMade) := by
    obtain ⟨s, hs⟩ := Option.isSome_iff_exists.mp
      (show (Run.exec step (boot roundProcs 0) threeMade).isSome by decide +kernel)
    rw [endOf, hs, Option.getD_some]
  obtain ⟨pass', hsound⟩ := hrun.exec hexec
  have hround := hsound.trans 1 (by decide +kernel) 2 (by decide +kernel) 3 (by decide +kernel)
    (by decide +kernel) (by decide +kernel)
  exact absurd hround (by decide +kernel)

end SchedSys
end Ucore

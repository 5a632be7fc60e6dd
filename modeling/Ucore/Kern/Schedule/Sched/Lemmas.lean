import Ucore.Kern.Schedule.Sched.Impl

/-!
This module contains what the functions of the scheduler do to the run pool and to the processes.
-/

namespace Ucore

namespace SchedProc

/--
A process behind `stride_enqueue`.
-/
def enqueued (p : SchedProc) : SchedProc :=
  { p with
    timeSlice := if p.timeSlice = 0 ∨ p.timeSlice.toInt > maxTimeSlice.toInt then maxTimeSlice else p.timeSlice
    rq := true }

/--
A process behind the first part of `wakeup_proc`.
-/
def woken (p : SchedProc) : SchedProc := { p with state := .runnable, waitState := 0 }

/--
A process that `schedule` has chosen.
-/
def picked (p : SchedProc) : SchedProc := { p with lab6Stride := p.lab6Stride + p.pace, runs := p.runs + 1 }

/--
The two steps of `stride_proc_tick`.
-/
def ticked (p : SchedProc) : SchedProc := if p.timeSlice.toInt > 0 then { p with timeSlice := p.timeSlice - 1 } else p

def spent (p : SchedProc) : SchedProc := if p.timeSlice = 0 then { p with needResched := true } else p

theorem ticked_same (p : SchedProc)
    : p.ticked.rq = p.rq ∧ p.ticked.state = p.state ∧ p.ticked.waitState = p.waitState ∧
        p.ticked.lab6Stride = p.lab6Stride ∧ p.ticked.lab6Priority = p.lab6Priority := by
  unfold ticked
  split <;> exact ⟨rfl, rfl, rfl, rfl, rfl⟩

theorem spent_same (p : SchedProc)
    : p.spent.rq = p.rq ∧ p.spent.state = p.state ∧ p.spent.waitState = p.waitState ∧
        p.spent.lab6Stride = p.lab6Stride ∧ p.spent.lab6Priority = p.lab6Priority := by
  unfold spent
  split <;> exact ⟨rfl, rfl, rfl, rfl, rfl⟩

end SchedProc

namespace Sched

variable {s t : Sched} {p q : Nat} {left right : SkewHeap Nat}

/--
The pool holds a process at most once, and `proc_num` counts its nodes.
-/
structure PoolOk (s : Sched) : Prop where
  nodup : s.lab6RunPool.elements.Nodup
  rq : ∀ p ∈ s.lab6RunPool.elements, (s.procs p).rq = true
  count : s.procNum = s.lab6RunPool.elements.length

theorem before_congr (hp : (s.procs p).lab6Stride = (t.procs p).lab6Stride)
    (hq : (s.procs q).lab6Stride = (t.procs q).lab6Stride)
    : s.before p q = t.before p q := by
  have hcomp : s.procStrideCompF p q = t.procStrideCompF p q := by
    rw [procStrideCompF, procStrideCompF, hp, hq]
  rw [before, before, hcomp]

theorem strideEnqueue_procs : (s.strideEnqueue p).procs = Function.update s.procs p (s.procs p).enqueued := rfl

theorem strideProcTick_eq : s.strideProcTick p = (s.modify p SchedProc.ticked).modify p SchedProc.spent := rfl

theorem strideEnqueue_elements
    : (s.strideEnqueue p).lab6RunPool.elements.Perm (p :: s.lab6RunPool.elements) :=
  SkewHeap.elements_insert _ _

theorem PoolOk.strideEnqueue (h : s.PoolOk) (hp : p ∉ s.lab6RunPool.elements) : (s.strideEnqueue p).PoolOk := by
  refine ⟨strideEnqueue_elements.nodup_iff.mpr (List.nodup_cons.mpr ⟨hp, h.nodup⟩), ?_, ?_⟩
  . intro q hq
    rw [strideEnqueue_procs]
    by_cases hqp : q = p
    . rw [hqp, Function.update_self]
      rfl
    . rw [Function.update_of_ne hqp]
      exact h.rq q ((List.mem_cons.mp (strideEnqueue_elements.mem_iff.mp hq)).resolve_left hqp)
  . rw [strideEnqueue_elements.length_eq]
    exact congrArg (· + 1) h.count

theorem PoolOk.modify (h : s.PoolOk) {f : SchedProc → SchedProc} (hf : ∀ proc, (f proc).rq = proc.rq)
    : (s.modify p f).PoolOk := by
  refine ⟨h.nodup, ?_, h.count⟩
  intro q hq
  by_cases hqp : q = p
  . simp only [Sched.modify, hqp, Function.update_self, hf]
    exact h.rq p (hqp ▸ hq)
  . simp only [Sched.modify, Function.update_of_ne hqp]
    exact h.rq q hq

/--
What `schedule` does to the current process before it chooses the next one.
-/
theorem putBack_cases (s : Sched)
    : ((s.procs s.current).state = .runnable ∧ s.current ≠ s.idleproc ∧
        s.putBack = (s.modify s.current fun p => { p with needResched := false }).strideEnqueue s.current) ∨
      (¬((s.procs s.current).state = .runnable ∧ s.current ≠ s.idleproc) ∧
        s.putBack = s.modify s.current fun p => { p with needResched := false }) := by
  have hstate : ((s.modify s.current fun p => { p with needResched := false }).procs s.current).state =
      (s.procs s.current).state := by
    simp [Sched.modify]
  simp only [putBack, schedClassEnqueue]
  rw [show (s.modify s.current fun p => { p with needResched := false }).current = s.current from rfl, hstate]
  by_cases hrunnable : (s.procs s.current).state = .runnable
  . by_cases hidle : s.current = s.idleproc
    . right
      exact ⟨fun h => h.2 hidle, (if_pos hrunnable).trans (if_neg (not_not_intro hidle))⟩
    . left
      exact ⟨hrunnable, hidle, (if_pos hrunnable).trans (if_pos hidle)⟩
  . right
    exact ⟨fun h => hrunnable h.1, if_neg hrunnable⟩

/--
Up to the choice of the next process `schedule` leaves what the comparison reads.
-/
theorem putBack_procs (s : Sched) (q : Nat)
    : (s.putBack.procs q).state = (s.procs q).state ∧ (s.putBack.procs q).waitState = (s.procs q).waitState ∧
        (s.putBack.procs q).lab6Stride = (s.procs q).lab6Stride ∧
        (s.putBack.procs q).lab6Priority = (s.procs q).lab6Priority := by
  rcases putBack_cases s with ⟨-, -, h⟩ | ⟨-, h⟩ <;> rw [h]
  . rw [strideEnqueue_procs]
    by_cases hq : q = s.current
    . subst hq
      simp [Sched.modify, SchedProc.enqueued]
    . simp [Sched.modify, Function.update_of_ne hq]
  . by_cases hq : q = s.current
    . subst hq
      simp [Sched.modify]
    . simp [Sched.modify, Function.update_of_ne hq]

theorem putBack_globals (s : Sched) : s.putBack.idleproc = s.idleproc ∧ s.putBack.current = s.current := by
  rcases putBack_cases s with ⟨-, -, h⟩ | ⟨-, h⟩ <;> rw [h] <;> exact ⟨rfl, rfl⟩

theorem PoolOk.putBack (h : s.PoolOk) (hcurrent : s.current ∉ s.lab6RunPool.elements) : s.putBack.PoolOk := by
  have hmodify : (s.modify s.current fun p => { p with needResched := false }).PoolOk := h.modify fun _ => rfl
  rcases putBack_cases s with ⟨-, -, hs⟩ | ⟨-, hs⟩ <;> rw [hs]
  . exact hmodify.strideEnqueue hcurrent
  . exact hmodify

/--
The current process goes back to the pool if it can go on.
-/
theorem mem_putBack (s : Sched) (q : Nat)
    : q ∈ s.putBack.lab6RunPool.elements ↔
        q ∈ s.lab6RunPool.elements ∨
          q = s.current ∧ (s.procs s.current).state = .runnable ∧ s.current ≠ s.idleproc := by
  rcases putBack_cases s with ⟨hrunnable, hidle, hs⟩ | ⟨hnot, hs⟩ <;> rw [hs]
  . rw [strideEnqueue_elements.mem_iff, List.mem_cons]
    simp only [hrunnable, hidle, ne_eq, not_false_eq_true, and_true]
    exact or_comm
  . simp only [hnot, and_false, or_false]
    rfl

theorem putBack_ordered {β : Type} [LinearOrder β] {key : Nat → β} {S : Nat → Prop}
    (h : s.lab6RunPool.Ordered key)
    (hcurrent : (s.procs s.current).state = .runnable → s.current ≠ s.idleproc → S s.current)
    (hpool : ∀ q ∈ s.lab6RunPool.elements, S q)
    (hbefore : ∀ a b, S a → S b → (s.before a b = true ↔ key a < key b))
    : s.putBack.lab6RunPool.Ordered key := by
  rcases putBack_cases s with ⟨hrunnable, hidle, hs⟩ | ⟨-, hs⟩ <;> rw [hs]
  . refine SkewHeap.Ordered.insert (S := S) h (hcurrent hrunnable hidle) hpool ?_
    intro a b ha hb
    rw [before_congr (t := s), hbefore a b ha hb]
    . by_cases hac : a = s.current <;> simp [Sched.modify, hac]
    . by_cases hbc : b = s.current <;> simp [Sched.modify, hbc]
  . exact h

theorem runNext_nil (hpool : s.lab6RunPool = .nil)
    : s.runNext =
        some { s.modify s.idleproc (fun p => { p with runs := p.runs + 1 }) with current := s.idleproc } := by
  simp [runNext, stridePickNext, hpool, SkewHeap.root?]

/--
The chosen process is still a node of the pool while its stride grows, the rest of the pool is merged without it.
-/
theorem runNext_node (h : s.PoolOk) (hpool : s.lab6RunPool = .node left p right)
    : s.runNext =
        some { s with
          procs := Function.update s.procs p (s.procs p).picked
          lab6RunPool := .merge s.before left right
          procNum := s.procNum - 1
          current := p } := by
  have hnodup := h.nodup
  have hrq := h.rq p (by simp [hpool, SkewHeap.elements])
  have hnum : s.procNum > 0 := by simp [h.count, hpool, SkewHeap.elements]
  rw [hpool, SkewHeap.elements, List.nodup_cons] at hnodup
  have hmerge (t : Sched) (ht : ∀ q ≠ p, (t.procs q).lab6Stride = (s.procs q).lab6Stride)
      : SkewHeap.merge t.before left right = SkewHeap.merge s.before left right := by
    apply SkewHeap.merge_congr (S := fun q => q ≠ p)
    . intro q hq hqp
      exact hnodup.1 (hqp ▸ List.mem_append_left _ hq)
    . intro q hq hqp
      exact hnodup.1 (hqp ▸ List.mem_append_right _ hq)
    . intro a b ha hb
      exact before_congr (ht a ha) (ht b hb)
  simp only [runNext, stridePickNext, hpool, SkewHeap.root?, strideDequeue]
  rw [if_pos ⟨by simpa [Sched.modify] using hrq, by simpa [Sched.modify] using hnum⟩]
  simp only [Option.map_some, Sched.modify, hpool, SkewHeap.remove_root]
  rw [hmerge _ (fun q hq => by simp [Function.update_of_ne hq])]
  simp [SchedProc.picked]

/--
The pool behind `runNext_node`.
-/
theorem mem_runNext (h : s.PoolOk) (hpool : s.lab6RunPool = .node left p right)
    : q ∈ (SkewHeap.merge s.before left right).elements ↔ q ∈ s.lab6RunPool.elements ∧ q ≠ p := by
  have hnodup := h.nodup
  rw [hpool, SkewHeap.elements, List.nodup_cons] at hnodup
  rw [SkewHeap.mem_merge, ← List.mem_append, hpool, SkewHeap.elements, List.mem_cons]
  constructor
  . intro hq
    exact ⟨.inr hq, fun hqp => hnodup.1 (hqp ▸ hq)⟩
  . rintro ⟨hq, hqp⟩
    exact hq.resolve_left hqp

theorem PoolOk.runNext (h : s.PoolOk) (hpool : s.lab6RunPool = .node left p right) (current : Nat)
    : PoolOk { s with
        procs := Function.update s.procs p (s.procs p).picked
        lab6RunPool := .merge s.before left right
        procNum := s.procNum - 1
        current } := by
  have hnodup := h.nodup
  rw [hpool, SkewHeap.elements, List.nodup_cons] at hnodup
  refine ⟨(SkewHeap.elements_merge left right).nodup_iff.mpr hnodup.2, ?_, ?_⟩
  . intro q hq
    obtain ⟨hq, hqp⟩ := (mem_runNext h hpool).mp hq
    simp only [Function.update_of_ne hqp]
    exact h.rq q hq
  . have hcount := h.count
    rw [hpool, SkewHeap.elements, List.length_cons] at hcount
    simp only [(SkewHeap.elements_merge left right).length_eq, hcount, Nat.add_sub_cancel]

/--
`wakeup_proc` of a process that waits.
-/
theorem wakeupProc_eq (hzombie : (s.procs p).state ≠ .zombie) (hrunnable : (s.procs p).state ≠ .runnable)
    : s.wakeupProc p =
        some (if p ≠ s.current ∧ p ≠ s.idleproc then (s.modify p SchedProc.woken).strideEnqueue p
          else s.modify p SchedProc.woken) := by
  rw [wakeupProc, if_neg hzombie, if_pos hrunnable]
  apply congrArg some
  by_cases hcurrent : p = s.current
  . exact (if_neg (not_not_intro hcurrent)).trans (if_neg fun h => h.1 hcurrent).symm
  . by_cases hidle : p = s.idleproc
    . refine Eq.trans ((if_pos hcurrent).trans ?_) (if_neg fun h => h.2 hidle).symm
      exact if_neg (not_not_intro hidle)
    . refine Eq.trans ((if_pos hcurrent).trans ?_) (if_pos ⟨hcurrent, hidle⟩).symm
      exact if_pos hidle

theorem wakeupProc_spec (h : s.PoolOk) (hp : p ∉ s.lab6RunPool.elements) (hzombie : (s.procs p).state ≠ .zombie)
    (hrunnable : (s.procs p).state ≠ .runnable)
    : ∃ t, s.wakeupProc p = some t ∧ t.PoolOk ∧ t.current = s.current ∧ t.idleproc = s.idleproc ∧
        (t.procs p).state = .runnable ∧ (t.procs p).waitState = 0 ∧ (∀ q ≠ p, t.procs q = s.procs q) ∧
        ∀ q, q ∈ t.lab6RunPool.elements ↔
          q ∈ s.lab6RunPool.elements ∨ q = p ∧ p ≠ s.current ∧ p ≠ s.idleproc := by
  have hok : (s.modify p SchedProc.woken).PoolOk := h.modify fun _ => rfl
  refine ⟨_, wakeupProc_eq hzombie hrunnable, ?_⟩
  split
  next hqueued =>
    refine ⟨hok.strideEnqueue hp, rfl, rfl, ?_, ?_, ?_, ?_⟩
    . simp [strideEnqueue_procs, Sched.modify, SchedProc.enqueued, SchedProc.woken]
    . simp [strideEnqueue_procs, Sched.modify, SchedProc.enqueued, SchedProc.woken]
    . intro q hq
      simp [strideEnqueue_procs, Sched.modify, hq]
    . intro q
      rw [strideEnqueue_elements.mem_iff, List.mem_cons]
      simp only [hqueued, ne_eq, not_false_eq_true, and_true]
      exact or_comm
  next hqueued =>
    refine ⟨hok, rfl, rfl, ?_, ?_, ?_, ?_⟩
    . simp [Sched.modify, SchedProc.woken]
    . simp [Sched.modify, SchedProc.woken]
    . intro q hq
      simp [Sched.modify, hq]
    . intro q
      simp [Sched.modify, hqueued]

/--
A process without its scheduling fields, which no function of the scheduler but `wakeup_proc` changes.
-/
def SameStates (s t : Sched) : Prop :=
  ∀ q, (t.procs q).state = (s.procs q).state ∧ (t.procs q).waitState = (s.procs q).waitState

/--
`schedule` takes a process out of the pool, behind the current one has gone back, and `idleproc` if the pool
is empty.
-/
theorem schedule_spec (h : s.PoolOk) (hcurrent : s.current ∉ s.lab6RunPool.elements)
    : ∃ t, s.schedule = some t ∧ t.PoolOk ∧ t.idleproc = s.idleproc ∧ s.SameStates t ∧
        (∀ q, q ∈ t.lab6RunPool.elements ↔ q ∈ s.putBack.lab6RunPool.elements ∧ q ≠ t.current) ∧
        (t.current ∈ s.putBack.lab6RunPool.elements ∨
          t.current = s.idleproc ∧ t.lab6RunPool = .nil ∧ s.putBack.lab6RunPool = .nil) := by
  have hok := h.putBack hcurrent
  have hkept := putBack_procs s
  have hglobals := putBack_globals s
  cases hpool : s.putBack.lab6RunPool with
  | nil =>
    have hok' := hok.modify (p := s.putBack.idleproc) (f := fun p => { p with runs := p.runs + 1 }) fun _ => rfl
    refine ⟨_, runNext_nil hpool, ⟨hok'.nodup, hok'.rq, hok'.count⟩, hglobals.1, ?_, ?_, .inr ⟨hglobals.1, hpool, rfl⟩⟩
    . intro q
      rw [← (hkept q).1, ← (hkept q).2.1]
      by_cases hq : q = s.putBack.idleproc <;> simp [Sched.modify, hq]
    . simp [Sched.modify, hpool, SkewHeap.elements]
  | node left next right =>
    refine ⟨_, runNext_node hok hpool, hok.runNext hpool next, hglobals.1, ?_, ?_, ?_⟩
    . intro q
      rw [← (hkept q).1, ← (hkept q).2.1]
      by_cases hq : q = next <;> simp [hq, SchedProc.picked]
    . intro q
      rw [← hpool]
      exact mem_runNext hok hpool
    . exact .inl (by simp [SkewHeap.elements])

end Sched
end Ucore

import Mathlib
import Ucore.Kern.Schedule.Sched.Lemmas

/-!
This module contains the stride scheduler over a group of processes that are always runnable: a stride stands
for a pass that never wraps, and the turns follow the priorities.
-/

namespace Ucore
namespace Sched

/--
`turns` calls of `schedule`, with the processes that they choose.
-/
def scheduleTimes : Nat → Sched → Option (List Nat × Sched)
  | 0, s => some ([], s)
  | turns + 1, s =>
    s.schedule.bind fun t => (scheduleTimes turns t).map fun r => (t.current :: r.1, r.2)

/--
What a process has gained in its turns, as a number that does not wrap.
-/
def pass (procs : Nat → SchedProc) (picks : List Nat) (p : Nat) : Nat :=
  picks.count p * (bigStride / (procs p).lab6Priority.toNat)

/--
The processes of `group` are runnable with a priority from `lab6_set_priority`, and one of them or `idleproc`
is running while the others are in the pool.
-/
structure Runs (group : Finset Nat) (s : Sched) : Prop where
  pool : s.PoolOk
  queued : ∀ p, p ∈ s.lab6RunPool.elements ↔ p ∈ group ∧ p ≠ s.current
  current : s.current ∈ group ∨ s.current = s.idleproc
  idle : s.idleproc ∉ group
  runnable : ∀ p ∈ group, (s.procs p).state = .runnable
  priority : ∀ p ∈ group, (s.procs p).lab6Priority ≠ 0

/--
The strides stand for the passes behind `picks`, which differ by at most `BIG_STRIDE`.
-/
structure Paced (group : Finset Nat) (start : BitVec 32) (picks : List Nat) (s : Sched) : Prop where
  runs : s.Runs group
  stride : ∀ p ∈ group, (s.procs p).lab6Stride = start + BitVec.ofNat 32 (pass s.procs picks p)
  spread : ∀ p ∈ group, ∀ q ∈ group, pass s.procs picks p ≤ pass s.procs picks q + bigStride
  ordered : s.lab6RunPool.Ordered (pass s.procs picks)

variable {s t : Sched} {group : Finset Nat} {start : BitVec 32} {picks : List Nat} {p q : Nat}

/--
The signed difference of two strides is the difference of the passes as long as these are close together.
-/
theorem toInt_sub_stride {x y : Nat} (hxy : x ≤ y + bigStride) (hyx : y ≤ x + bigStride)
    : ((start + BitVec.ofNat 32 x) - (start + BitVec.ofNat 32 y)).toInt = (x : Int) - y := by
  have hbig : bigStride = 2 ^ 30 := rfl
  have hstart := start.isLt
  simp only [BitVec.toInt_eq_toNat_cond, BitVec.toNat_sub, BitVec.toNat_add, BitVec.toNat_ofNat]
  split <;> omega

/--
The comparison where the strides stand for the numbers `x` and `y`.
-/
theorem procStrideCompF_of_sub {x y : Int} (h : ((s.procs p).lab6Stride - (s.procs q).lab6Stride).toInt = x - y)
    : s.procStrideCompF p q = if x > y then 1 else if x = y then 0 else -1 := by
  simp only [procStrideCompF, h]
  split <;> split <;> first | rfl | omega

theorem before_of_sub {x y : Int} (h : ((s.procs p).lab6Stride - (s.procs q).lab6Stride).toInt = x - y)
    : s.before p q = true ↔ x < y := by
  rw [before, procStrideCompF_of_sub h, decide_eq_true_iff]
  split
  . simp only [reduceCtorEq, false_iff]
    omega
  . split
    . simp only [reduceCtorEq, false_iff]
      omega
    . simp only [true_iff]
      omega

theorem Paced.toInt_sub (h : s.Paced group start picks) (hp : p ∈ group) (hq : q ∈ group)
    : ((s.procs p).lab6Stride - (s.procs q).lab6Stride).toInt =
        (pass s.procs picks p : Int) - pass s.procs picks q := by
  rw [h.stride p hp, h.stride q hq]
  exact toInt_sub_stride (h.spread p hp q hq) (h.spread q hq p hp)

theorem Paced.procStrideCompF (h : s.Paced group start picks) (hp : p ∈ group) (hq : q ∈ group)
    : s.procStrideCompF p q =
        if pass s.procs picks p > pass s.procs picks q then 1
        else if pass s.procs picks p = pass s.procs picks q then 0 else -1 := by
  rw [procStrideCompF_of_sub (h.toInt_sub hp hq)]
  simp only [gt_iff_lt, Int.ofNat_lt, Int.ofNat_inj]

theorem Paced.before (h : s.Paced group start picks) (hp : p ∈ group) (hq : q ∈ group)
    : s.before p q = true ↔ pass s.procs picks p < pass s.procs picks q := by
  rw [before_of_sub (h.toInt_sub hp hq), Int.ofNat_lt]

theorem pass_append (procs : Nat → SchedProc) (picks : List Nat) (p q : Nat)
    : pass procs (picks ++ [q]) p =
        pass procs picks p + if p = q then bigStride / (procs p).lab6Priority.toNat else 0 := by
  by_cases hpq : p = q
  . simp [pass, hpq, List.count_append, Nat.add_mul]
  . simp [pass, hpq, List.count_append, List.count_eq_zero.mpr (show p ∉ [q] by simpa using hpq)]

theorem pass_congr {procs procs' : Nat → SchedProc} (h : (procs p).lab6Priority = (procs' p).lab6Priority)
    : pass procs picks p = pass procs' picks p := by
  rw [pass, pass, h]

theorem toNat_pace {proc : SchedProc} (h : proc.lab6Priority ≠ 0)
    : proc.pace = BitVec.ofNat 32 (bigStride / proc.lab6Priority.toNat) := by
  rw [SchedProc.pace, if_pos h]
  apply BitVec.eq_of_toNat_eq
  have hle : bigStride / proc.lab6Priority.toNat ≤ bigStride := Nat.div_le_self _ _
  have hbig : bigStride = 2 ^ 30 := rfl
  rw [BitVec.toNat_udiv, BitVec.toNat_ofNat, BitVec.toNat_ofNat, Nat.mod_eq_of_lt (a := bigStride) (by omega),
    Nat.mod_eq_of_lt (by omega)]

/--
One turn: the process with the least pass is chosen, and its pass grows by at most `BIG_STRIDE`.
-/
theorem Paced.schedule (h : s.Paced group start picks)
    : ∃ t, s.schedule = some t ∧ t.Paced group start (picks ++ [t.current]) ∧
        (∀ p, (t.procs p).lab6Priority = (s.procs p).lab6Priority) ∧
        ∀ q ∈ group, t.current ∈ group ∧ pass s.procs picks t.current ≤ pass s.procs picks q := by
  have hnotQueued : s.current ∉ s.lab6RunPool.elements := fun hmem => ((h.runs.queued _).mp hmem).2 rfl
  have hpoolOk := h.runs.pool.putBack hnotQueued
  have hkept := putBack_procs s
  have hglobals := putBack_globals s
  have hmem : ∀ q, q ∈ s.putBack.lab6RunPool.elements ↔ q ∈ group := by
    intro q
    rw [mem_putBack, h.runs.queued]
    constructor
    . rintro (hq | ⟨rfl, -, hidle⟩)
      . exact hq.1
      . exact h.runs.current.resolve_right hidle
    . intro hq
      by_cases hcurrent : q = s.current
      . subst hcurrent
        exact .inr ⟨rfl, h.runs.runnable _ hq, fun hidle => h.runs.idle (hidle ▸ hq)⟩
      . exact .inl ⟨hq, hcurrent⟩
  have hordered : s.putBack.lab6RunPool.Ordered (pass s.procs picks) := by
    apply putBack_ordered (S := fun q => q ∈ group) h.ordered
    . intro _ hidle
      exact h.runs.current.resolve_right hidle
    . intro q hq
      exact ((h.runs.queued q).mp hq).1
    . intro a b ha hb
      exact h.before ha hb
  cases hpool : s.putBack.lab6RunPool with
  | nil =>
    have hempty : ∀ q, q ∉ group := by
      intro q hq
      have := (hmem q).mpr hq
      rw [hpool] at this
      exact absurd this List.not_mem_nil
    have hpriority (q : Nat)
        : ((s.putBack.modify s.putBack.idleproc fun p => { p with runs := p.runs + 1 }).procs q).lab6Priority =
            (s.procs q).lab6Priority := by
      rw [← (hkept q).2.2.2]
      by_cases hq : q = s.putBack.idleproc <;> simp [Sched.modify, hq]
    refine ⟨_, runNext_nil hpool, ⟨⟨?_, ?_, .inr rfl, ?_, ?_, ?_⟩, ?_, ?_, ?_⟩, hpriority, ?_⟩
    . have := hpoolOk.modify (p := s.putBack.idleproc) (f := fun p => { p with runs := p.runs + 1 }) fun _ => rfl
      exact ⟨this.nodup, this.rq, this.count⟩
    . intro q
      simp [Sched.modify, hpool, SkewHeap.elements, hempty]
    . exact hempty _
    all_goals try exact fun q hq => absurd hq (hempty q)
    simp [Sched.modify, hpool, SkewHeap.Ordered]
  | node left next right =>
    have hnext : next ∈ group := (hmem next).mp (by simp [hpool, SkewHeap.elements])
    have hleast : ∀ q ∈ group, pass s.procs picks next ≤ pass s.procs picks q := by
      intro q hq
      rw [hpool] at hordered
      exact hordered.root_le q (by rw [← hpool]; exact (hmem q).mpr hq)
    have hrun := runNext_node hpoolOk hpool
    have hpoolOk' := hpoolOk.runNext hpool next
    have hqueued := fun q => mem_runNext (q := q) hpoolOk hpool
    generalize ht : ({ s.putBack with
      procs := Function.update s.putBack.procs next (s.putBack.procs next).picked
      lab6RunPool := SkewHeap.merge s.putBack.before left right
      procNum := s.putBack.procNum - 1
      current := next } : Sched) = t at hrun hpoolOk'
    have hprocs : t.procs = Function.update s.putBack.procs next (s.putBack.procs next).picked := by rw [← ht]
    have hpriority (q : Nat) : (t.procs q).lab6Priority = (s.procs q).lab6Priority := by
      rw [← (hkept q).2.2.2, hprocs]
      by_cases hq : q = next <;> simp [hq, SchedProc.picked]
    have hpass (q : Nat) : pass t.procs (picks ++ [next]) q =
        pass s.procs picks q + if q = next then bigStride / (s.procs q).lab6Priority.toNat else 0 := by
      rw [pass_append, pass_congr (hpriority q), hpriority]
    have hcurrent : t.current = next := by rw [← ht]
    refine ⟨t, hrun, ⟨⟨hpoolOk', ?_, ?_, ?_, ?_, ?_⟩, ?_, ?_, ?_⟩, hpriority, ?_⟩
    . intro q
      rw [hcurrent, ← hmem, ← hqueued, ← ht]
    . exact .inl (hcurrent ▸ hnext)
    . rw [← ht]
      exact fun hidle => h.runs.idle (hglobals.1 ▸ hidle)
    . intro q hq
      have hstate : (t.procs q).state = (s.putBack.procs q).state := by
        rw [hprocs]
        by_cases hqn : q = next <;> simp [hqn, SchedProc.picked]
      rw [hstate, (hkept q).1]
      exact h.runs.runnable q hq
    . intro q hq
      rw [hpriority]
      exact h.runs.priority q hq
    . intro q hq
      rw [hcurrent, hpass, hprocs]
      by_cases hqn : q = next
      . subst hqn
        have hpace : (s.putBack.procs q).pace = (s.procs q).pace := by
          rw [SchedProc.pace, SchedProc.pace, (hkept q).2.2.2]
        rw [Function.update_self, if_pos rfl, SchedProc.picked, hpace, toNat_pace (h.runs.priority q hq),
          BitVec.ofNat_add, ← BitVec.add_assoc, ← h.stride q hq, (hkept q).2.2.1]
      . rw [Function.update_of_ne hqn, if_neg hqn, Nat.add_zero, (hkept q).2.2.1]
        exact h.stride q hq
    . intro p hp q hq
      rw [hcurrent, hpass, hpass]
      have hp' := h.spread p hp q hq
      have hleast' := hleast q hq
      have hinc := Nat.div_le_self bigStride (s.procs p).lab6Priority.toNat
      split
      next hpn =>
        subst hpn
        omega
      . omega
    . have hmerged : (SkewHeap.merge s.putBack.before left right).Ordered (pass s.procs picks) := by
        rw [hpool] at hordered
        have hsub : ∀ q ∈ left.elements ++ right.elements, q ∈ group := by
          intro q hq
          exact (hmem q).mp (by rw [hpool]; exact List.mem_cons_of_mem _ hq)
        refine SkewHeap.Ordered.merge (S := fun q => q ∈ group) hordered.2.1 hordered.2.2
          (List.forall_mem_append.mp hsub).1 (List.forall_mem_append.mp hsub).2 ?_
        intro a b ha hb
        rw [before_congr (hkept a).2.2.1 (hkept b).2.2.1]
        exact h.before ha hb
      have htpool : t.lab6RunPool = SkewHeap.merge s.putBack.before left right := by rw [← ht]
      rw [htpool, hcurrent]
      refine hmerged.congr ?_
      intro q hq
      rw [hpass, if_neg ((hqueued q).mp hq).2, Nat.add_zero]
    . rw [hcurrent]
      exact fun q hq => ⟨hnext, hleast q hq⟩

theorem Paced.scheduleTimes (h : s.Paced group start picks) (turns : Nat)
    : ∃ more t, s.scheduleTimes turns = some (more, t) ∧ t.Paced group start (picks ++ more) ∧
        ∀ p, (t.procs p).lab6Priority = (s.procs p).lab6Priority := by
  induction turns generalizing s picks with
  | zero => exact ⟨[], s, rfl, by rwa [List.append_nil], fun _ => rfl⟩
  | succ turns ih =>
    obtain ⟨t, hschedule, ht, hpriority, -⟩ := h.schedule
    obtain ⟨more, u, hmore, hu, hpriority'⟩ := ih ht
    refine ⟨t.current :: more, u, ?_, ?_, ?_⟩
    . rw [Sched.scheduleTimes, hschedule, Option.bind_some, hmore, Option.map_some]
    . rwa [← List.append_cons] at hu
    . intro p
      rw [hpriority', hpriority]

theorem lab6SetPriority_ne_zero (s : Sched) (priority : BitVec 32)
    : ((s.lab6SetPriority priority).procs s.current).lab6Priority ≠ 0 := by
  simp only [lab6SetPriority, Sched.modify, Function.update_self]
  split
  . decide
  . assumption

/--
With equal strides at the start all passes are equal.
-/
theorem Runs.paced (h : s.Runs group) (hstart : ∀ p ∈ group, (s.procs p).lab6Stride = start)
    : s.Paced group start [] := by
  have hpass (p : Nat) : pass s.procs [] p = 0 := by simp [pass]
  refine ⟨h, ?_, ?_, SkewHeap.ordered_of_eq fun p _ => hpass p⟩
  . intro p hp
    rw [hstart p hp, hpass]
    simp
  . intro p _ q _
    rw [hpass]
    exact Nat.zero_le _

/--
However often the strides wrap, they stand for passes that differ by at most `BIG_STRIDE`, the comparison is
the one of the passes, every turn goes to a process with the least pass, and the turns are proportional to the
priorities up to `BIG_STRIDE`.
-/
theorem stride_proportional (hruns : s.Runs group) (hstart : ∀ p ∈ group, (s.procs p).lab6Stride = start)
    (turns : Nat)
    : ∃ picks t, s.scheduleTimes turns = some (picks, t) ∧
        (∀ p, p ∈ t.lab6RunPool.elements ↔ p ∈ group ∧ p ≠ t.current) ∧
        (∀ p ∈ group, (t.procs p).lab6Stride = start + BitVec.ofNat 32 (pass s.procs picks p)) ∧
        (∀ p ∈ group, ∀ q ∈ group,
          t.procStrideCompF p q = ((pass s.procs picks p : Int) - pass s.procs picks q).sign ∧
            |(picks.count p * (bigStride / (s.procs p).lab6Priority.toNat) : Int) -
              picks.count q * (bigStride / (s.procs q).lab6Priority.toNat)| ≤ bigStride) ∧
        ∃ u, t.schedule = some u ∧
          ∀ q ∈ group, u.current ∈ group ∧ pass s.procs picks u.current ≤ pass s.procs picks q := by
  obtain ⟨picks, t, hturns, ht, hpriority⟩ := (hruns.paced hstart).scheduleTimes turns
  rw [List.nil_append] at ht
  have hpass (p : Nat) : pass t.procs picks p = pass s.procs picks p := pass_congr (hpriority p)
  obtain ⟨u, hschedule, -, -, hleast⟩ := ht.schedule
  refine ⟨picks, t, hturns, ht.runs.queued, ?_, ?_, u, hschedule, ?_⟩
  . intro p hp
    rw [ht.stride p hp, hpass]
  . intro p hp q hq
    have hspread := ht.spread p hp q hq
    have hspread' := ht.spread q hq p hp
    have hcomp := ht.procStrideCompF hp hq
    simp only [hpass] at hspread hspread' hcomp
    constructor
    . rw [hcomp]
      split
      next hgt => exact (Int.sign_eq_one_of_pos (by omega)).symm
      next hle =>
        split
        next heq => rw [heq, Int.sub_self, Int.sign_zero]
        next hne => exact (Int.sign_eq_neg_one_of_neg (by omega)).symm
    . simp only [pass] at hspread hspread'
      rw [abs_sub_le_iff, sub_le_iff_le_add', sub_le_iff_le_add']
      constructor
      . exact_mod_cast hspread
      . exact_mod_cast hspread'
  . intro q hq
    rw [← hpass, ← hpass]
    exact hleast q hq

/--
Three processes, one of them with a priority above `BIG_STRIDE`, and strides that are about to wrap.
-/
def threeStrides : Sched where
  procs p :=
    { state := .runnable
      waitState := 0
      runs := 0
      needResched := false
      rq := true
      timeSlice := maxTimeSlice
      lab6Stride := 0xfffffff0
      lab6Priority := if p = 1 then 1 else if p = 2 then 3 else 0x80000000 }
  lab6RunPool := .node (.node .nil 2 .nil) 1 (.node .nil 3 .nil)
  procNum := 3
  current := 0
  idleproc := 0

theorem stride_proportional_threeStrides
    : ∃ picks t, threeStrides.scheduleTimes 1000 = some (picks, t) ∧
        |(picks.count 1 * (bigStride / 1) : Int) - picks.count 2 * (bigStride / 3)| ≤ bigStride := by
  have hruns : threeStrides.Runs {1, 2, 3} := by
    refine ⟨⟨by decide, fun _ _ => rfl, rfl⟩, ?_, .inr rfl, by decide, fun _ _ => rfl, by decide⟩
    intro p
    simp only [threeStrides, SkewHeap.elements]
    simp
    omega
  obtain ⟨picks, t, hturns, -, -, hbound, -⟩ := stride_proportional hruns (fun _ _ => rfl) 1000
  exact ⟨picks, t, hturns, (hbound 1 (by decide) 2 (by decide)).2⟩

end Sched
end Ucore

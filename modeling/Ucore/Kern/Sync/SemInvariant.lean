import Ucore.Lib.Run
import Ucore.Kern.Schedule.SchedTicks
import Ucore.Kern.Schedule.SchedWaiters
import Ucore.Kern.Sync.SemSys

/-!
This module contains what holds of a semaphore in every run: nobody is overtaken, no wakeup goes wrong, and the
units of the semaphore are conserved.
-/

namespace Ucore
namespace SemSys

variable {s s' : SemSys} {value : BitVec 32} {ev : SchedEvent} {proc : Nat} {events : List SemEvent}

structure Inv (s : SemSys) : Prop where
  sys : s.sys.Inv
  atSem : ∀ proc ∈ s.inDown, s.sys.AtSem proc
  inDownNodup : s.inDown.Nodup
  waitNodup : s.sem.waitQueue.Nodup
  waiting : ∀ proc ∈ s.sem.waitQueue, proc ∈ s.inDown ∧ s.sys.Asleep proc
  handedOver : ∀ proc ∈ s.inDown, proc ∉ s.sem.waitQueue →
    proc ∈ s.granted ∧ s.wakeupFlags proc = wtKsem ∧ s.sys.Awake proc
  queue : s.sem.value.toInt > 0 → s.sem.waitQueue = []
  order : s.started = s.granted ++ s.sem.waitQueue

theorem init_inv {sys : SchedSys} (hsys : sys.Inv) : (init sys value).Inv where
  sys := hsys
  atSem := by simp [init]
  inDownNodup := List.nodup_nil
  waitNodup := List.nodup_nil
  waiting := by simp [init, Semaphore.semInit]
  handedOver := by simp [init]
  queue _ := rfl
  order := rfl

theorem Inv.ordered (h : s.Inv) : s.Ordered where
  queue := h.queue
  order := h.order
  waiting proc hproc := ⟨(h.waiting proc hproc).1, (h.waiting proc hproc).2.2⟩
  handedOver proc hproc := by
    rw [SemSys.handedOver, List.mem_filter, decide_eq_true_iff] at hproc
    obtain ⟨hgranted, -, hawake⟩ := h.handedOver proc hproc.1 hproc.2
    exact ⟨hgranted, hawake.2⟩

theorem Inv.notMem_of_running (h : s.Inv) (hrunning : s.sys.place proc = .running) : proc ∉ s.inDown := by
  intro hproc
  have hplace := (h.atSem proc hproc).place
  rw [hrunning] at hplace
  contradiction

/--
A process that can go on has got the semaphore.
-/
theorem Inv.notMem_of_runnable (h : s.Inv) (hrunnable : (s.sys.sched.procs proc).state = .runnable)
    : proc ∉ s.sem.waitQueue := by
  intro hproc
  have hsleeping := (h.waiting proc hproc).2.2
  rw [hrunnable] at hsleeping
  contradiction

/--
A step of the system that is none of the semaphore's leaves its processes alone.
-/
theorem Inv.still (h : s.Inv) (hlegal : s.Legal (.other ev)) {sys : SchedSys} (hstep : s.sys.step ev = some sys)
    (hproc : proc ∈ s.inDown)
    : s.sys.Still sys proc := by
  obtain ⟨hev, hresume, hwakeup⟩ := hlegal
  apply (h.atSem proc hproc).step h.sys hev ?_ ?_ hstep
  . rintro rfl hcurrent
    exact hresume rfl (hcurrent ▸ hproc)
  . rintro rfl
    by_cases hwait : proc ∈ s.sem.waitQueue
    . exact hwakeup proc hwait rfl
    . exact (h.handedOver proc hproc hwait).2.2.1 hev

theorem Inv.other (h : s.Inv) (hlegal : s.Legal (.other ev))
    : ∃ sys, s.sys.step ev = some sys ∧ Inv { s with sys } := by
  obtain ⟨sys, hstep, hsys⟩ := h.sys.step hlegal.1
  have hstill (proc : Nat) (hproc : proc ∈ s.inDown) : s.sys.Still sys proc := h.still hlegal hstep hproc
  refine ⟨sys, hstep, { h with sys := hsys, atSem := ?_, waiting := ?_, handedOver := ?_ }⟩
  . intro proc hproc
    exact (h.atSem proc hproc).still (hstill proc hproc)
  . intro proc hproc
    obtain ⟨hdown, hasleep⟩ := h.waiting proc hproc
    exact ⟨hdown, hasleep.still (hstill proc hdown)⟩
  . intro proc hproc hwait
    obtain ⟨hgranted, hflags, hawake⟩ := h.handedOver proc hproc hwait
    exact ⟨hgranted, hflags, hawake.still (hstill proc hproc)⟩

theorem step_down_free (hfree : s.sem.value.toInt > 0)
    : s.step .down = some { s with sem.value := s.sem.value - 1, downs := s.downs + 1 } := by
  have hdown : s.sem.down s.sys.sched.current = (false, { s.sem with value := s.sem.value - 1 }) := if_pos hfree
  simp only [step, hdown]

theorem step_down_wait (hwait : ¬s.sem.value.toInt > 0)
    : s.step .down =
        (s.sys.step (.block wtKsem)).map fun sys =>
          { s with
            sys
            sem.waitQueue := s.sem.waitQueue ++ [s.sys.sched.current]
            wakeupFlags := Function.update s.wakeupFlags s.sys.sched.current wtInterrupted
            inDown := s.inDown ++ [s.sys.sched.current]
            started := s.started ++ [s.sys.sched.current] } := by
  have hdown : s.sem.down s.sys.sched.current =
      (true, { s.sem with waitQueue := s.sem.waitQueue ++ [s.sys.sched.current] }) := if_neg hwait
  simp only [step, hdown]

theorem step_up_free (hqueue : s.sem.waitQueue = [])
    : s.step .up = some { s with sem.value := s.sem.value + 1, ups := s.ups + 1 } := by
  simp only [step, Semaphore.up_nil hqueue]

theorem step_up_wait {rest : List Nat} (hqueue : s.sem.waitQueue = proc :: rest)
    (hwait : (s.sys.sched.procs proc).waitState = wtKsem)
    : s.step .up =
        (s.sys.step (.wakeupWait proc)).map fun sys =>
          { s with
            sys
            sem.waitQueue := rest
            wakeupFlags := Function.update s.wakeupFlags proc wtKsem
            ups := s.ups + 1
            granted := s.granted ++ [proc] } := by
  simp only [step, Semaphore.up_cons hqueue]
  exact if_pos hwait

theorem Inv.down_free (h : s.Inv) (hfree : s.sem.value.toInt > 0) (downs : Nat)
    : Inv { s with sem.value := s.sem.value - 1, downs } :=
  { h with queue := fun _ => h.queue hfree }

theorem Inv.up_free (h : s.Inv) (hqueue : s.sem.waitQueue = []) (ups : Nat)
    : Inv { s with sem.value := s.sem.value + 1, ups } :=
  { h with queue := fun _ => hqueue }

/--
The process was nowhere near the semaphore before.
-/
theorem Inv.down_wait (h : s.Inv) (hlegal : s.Legal .down) (hwait : ¬s.sem.value.toInt > 0) (flags : BitVec 32)
    : ∃ sys, s.sys.step (.block wtKsem) = some sys ∧
        Inv { s with
          sys
          sem.waitQueue := s.sem.waitQueue ++ [s.sys.sched.current]
          wakeupFlags := Function.update s.wakeupFlags s.sys.sched.current flags
          inDown := s.inDown ++ [s.sys.sched.current]
          started := s.started ++ [s.sys.sched.current] } := by
  obtain ⟨hrunning, hidle⟩ := hlegal
  have hblock : s.sys.Legal (.block wtKsem) := ⟨hrunning, fun hcurrent => hwait (hidle hcurrent), by simp⟩
  obtain ⟨sys, hstep, hsys⟩ := h.sys.step hblock
  obtain ⟨hatSem, hasleep⟩ := SchedSys.block_asleep hstep
  have hnew := h.notMem_of_running hrunning
  have hnotWait : s.sys.sched.current ∉ s.sem.waitQueue := fun hmem => hnew (h.waiting _ hmem).1
  have hstill (proc : Nat) (hproc : proc ∈ s.inDown) : s.sys.Still sys proc :=
    (h.atSem proc hproc).step h.sys hblock (by simp) (by simp) hstep
  refine ⟨sys, hstep, hsys, ?_, ?_, ?_, ?_, ?_, fun hpos => absurd hpos hwait, ?_⟩
  . rintro proc hproc
    rcases List.mem_append.mp hproc with hproc | hproc
    . exact (h.atSem proc hproc).still (hstill proc hproc)
    . exact List.mem_singleton.mp hproc ▸ hatSem
  . exact List.nodup_append.mpr ⟨h.inDownNodup, List.nodup_singleton _, by rintro p hp q hq rfl; simp_all⟩
  . exact List.nodup_append.mpr ⟨h.waitNodup, List.nodup_singleton _, by rintro p hp q hq rfl; simp_all⟩
  . intro proc hproc
    rcases List.mem_append.mp hproc with hproc | hproc
    . obtain ⟨hdown, hasleep⟩ := h.waiting proc hproc
      exact ⟨List.mem_append_left _ hdown, hasleep.still (hstill proc hdown)⟩
    . obtain rfl := List.mem_singleton.mp hproc
      exact ⟨List.mem_append_right _ (List.mem_singleton_self _), hasleep⟩
  . intro proc hproc hnotMem
    simp only [List.mem_append, List.mem_singleton, not_or] at hproc hnotMem
    have hproc := hproc.resolve_right hnotMem.2
    obtain ⟨hgranted, hflags, hawake⟩ := h.handedOver proc hproc hnotMem.1
    refine ⟨hgranted, ?_, hawake.still (hstill proc hproc)⟩
    rw [← hflags]
    exact Function.update_of_ne hnotMem.2 _ _
  . dsimp only
    rw [h.order, List.append_assoc]

/--
The first process of the queue is taken out of it.
-/
theorem Inv.up_wait (h : s.Inv) {rest : List Nat} (hqueue : s.sem.waitQueue = proc :: rest) (ups : Nat)
    : ∃ sys, s.sys.step (.wakeupWait proc) = some sys ∧
        Inv { s with
          sys
          sem.waitQueue := rest
          wakeupFlags := Function.update s.wakeupFlags proc wtKsem
          ups
          granted := s.granted ++ [proc] } := by
  have hmem : proc ∈ s.sem.waitQueue := hqueue ▸ List.mem_cons_self
  obtain ⟨hdown, hasleep⟩ := h.waiting proc hmem
  have hlegal : s.sys.Legal (.wakeupWait proc) := hasleep.1
  obtain ⟨sys, hstep, hsys⟩ := h.sys.step hlegal
  obtain ⟨hatSem, hawake⟩ := (h.atSem proc hdown).wakeupWait h.sys hasleep hstep
  have hstill (q : Nat) (hq : q ∈ s.inDown) (hne : q ≠ proc) : s.sys.Still sys q :=
    (h.atSem q hq).step h.sys hlegal (by simp) (fun heq => hne (SchedEvent.wakeupWait.inj heq).symm) hstep
  obtain ⟨hproc, hrest⟩ := List.nodup_cons.mp (hqueue ▸ h.waitNodup)
  refine ⟨sys, hstep, hsys, ?_, h.inDownNodup, hrest, ?_, ?_, ?_, ?_⟩
  . intro q hq
    by_cases hne : q = proc
    . exact hne ▸ hatSem
    . exact (h.atSem q hq).still (hstill q hq hne)
  . intro q hq
    have hne : q ≠ proc := by
      rintro rfl
      exact hproc hq
    obtain ⟨hq, hasleep⟩ := h.waiting q (hqueue ▸ List.mem_cons_of_mem _ hq)
    exact ⟨hq, hasleep.still (hstill q hq hne)⟩
  . intro q hq hnotMem
    by_cases hne : q = proc
    . subst hne
      exact ⟨List.mem_append_right _ (List.mem_singleton_self _), Function.update_self _ _ _, hawake⟩
    . have hwait : q ∉ s.sem.waitQueue := by
        rw [hqueue, List.mem_cons, not_or]
        exact ⟨hne, hnotMem⟩
      obtain ⟨hgranted, hflags, hawake⟩ := h.handedOver q hq hwait
      refine ⟨List.mem_append_left _ hgranted, ?_, hawake.still (hstill q hq hne)⟩
      rw [← hflags]
      exact Function.update_of_ne hne _ _
  . intro hpos
    have hnil := h.queue hpos
    rw [hqueue] at hnil
    contradiction
  . dsimp only
    rw [h.order, hqueue, List.append_assoc]
    rfl

/--
A process that comes back behind `schedule` has got the semaphore, and its entry is gone.
-/
theorem Inv.finish (h : s.Inv) (hlegal : s.Legal .finish)
    : s.step .finish = (s.sys.step .resume).map (fun sys =>
        { s with sys, inDown := s.inDown.erase s.sys.sched.current, downs := s.downs + 1 }) ∧
        ∃ sys, s.sys.step .resume = some sys ∧
          Inv { s with sys, inDown := s.inDown.erase s.sys.sched.current, downs := s.downs + 1 } := by
  obtain ⟨hcurrent, hresume⟩ := hlegal
  have hnotMem := h.notMem_of_runnable hresume.2
  obtain ⟨-, hflags, -⟩ := h.handedOver _ hcurrent hnotMem
  obtain ⟨sys, hstep, hsys⟩ := h.sys.step hresume
  have herase (q : Nat) : q ∈ s.inDown.erase s.sys.sched.current ↔ q ≠ s.sys.sched.current ∧ q ∈ s.inDown :=
    h.inDownNodup.mem_erase_iff
  have hstill (q : Nat) (hq : q ∈ s.inDown) (hne : q ≠ s.sys.sched.current) : s.sys.Still sys q :=
    (h.atSem q hq).step h.sys hresume (fun _ => hne) (by simp) hstep
  refine ⟨?_, sys, hstep, { h with sys := hsys, atSem := ?_, inDownNodup := ?_, waiting := ?_, handedOver := ?_ }⟩
  . have hdel : s.sem.waitCurrentDel s.sys.sched.current = s.sem := by
      simp [Semaphore.waitCurrentDel, List.erase_of_not_mem hnotMem]
    have hok : Semaphore.downFlags (s.wakeupFlags s.sys.sched.current) wtKsem = 0 := by
      simp [Semaphore.downFlags, hflags]
    simp only [step, hdel]
    exact if_pos hok
  . intro q hq
    obtain ⟨hne, hq⟩ := (herase q).mp hq
    exact (h.atSem q hq).still (hstill q hq hne)
  . exact h.inDownNodup.erase _
  . intro q hq
    have hne : q ≠ s.sys.sched.current := by
      rintro rfl
      exact hnotMem hq
    obtain ⟨hdown, hasleep⟩ := h.waiting q hq
    exact ⟨(herase q).mpr ⟨hne, hdown⟩, hasleep.still (hstill q hdown hne)⟩
  . intro q hq hwait
    obtain ⟨hne, hq⟩ := (herase q).mp hq
    obtain ⟨hgranted, hflags, hawake⟩ := h.handedOver q hq hwait
    exact ⟨hgranted, hflags, hawake.still (hstill q hq hne)⟩

/--
The processes that are still to come through are those in the queue and those that have left it.
-/
theorem Inv.length_inDown (h : s.Inv) : s.handedOver.length + s.sem.waitQueue.length = s.inDown.length := by
  have hperm : (s.inDown.filter fun proc => proc ∈ s.sem.waitQueue).Perm s.sem.waitQueue := by
    apply (List.perm_ext_iff_of_nodup (h.inDownNodup.filter _) h.waitNodup).mpr
    intro proc
    rw [List.mem_filter, decide_eq_true_iff]
    exact ⟨And.right, fun hproc => ⟨(h.waiting proc hproc).1, hproc⟩⟩
  rw [SemSys.handedOver, ← hperm.length_eq, ← List.countP_eq_length_filter, ← List.countP_eq_length_filter,
    List.length_eq_countP_add_countP (fun proc => proc ∈ s.sem.waitQueue), Nat.add_comm]
  simp

/--
The units, with the processes that are inside `down` counted together.
-/
structure Counted (value : BitVec 32) (s : SemSys) : Prop where
  nonneg : 0 ≤ s.sem.value.toInt
  total : value.toInt + s.ups + s.sem.waitQueue.length = s.sem.value.toInt + s.downs + s.inDown.length

theorem Counted.conserved (hcounted : s.Counted value) (h : s.Inv) : s.Conserved value := by
  have hlength := h.length_inDown
  have htotal := hcounted.total
  refine ⟨hcounted.nonneg, ?_⟩
  omega

theorem toInt_add_one {x : BitVec 32} (h : x.toInt + 1 < 2 ^ 31) : (x + 1).toInt = x.toInt + 1 := by
  have := x.isLt
  have hone : BitVec.toNat (1 : BitVec 32) = 1 := rfl
  simp only [BitVec.toInt_eq_toNat_cond] at h ⊢
  simp only [BitVec.toNat_add, hone]
  split at h <;> split <;> omega

/--
Every step has a result, and the units stay in the balance if no `up` overflows.
-/
theorem Inv.step {ev : SemEvent} (h : s.Inv) (hlegal : s.Legal ev) (value : BitVec 32)
    : ∃ s', s.step ev = some s' ∧ s'.Inv ∧ (s.NoOverflow ev → s.Counted value → s'.Counted value) := by
  cases ev with
  | down =>
    by_cases hfree : s.sem.value.toInt > 0
    . refine ⟨_, step_down_free hfree, h.down_free hfree _, fun _ hcounted => ?_⟩
      have hnonneg := hcounted.nonneg
      have htotal := hcounted.total
      constructor <;> dsimp only <;> rw [SchedProc.toInt_sub_one hfree]
      . omega
      . omega
    . obtain ⟨sys, hstep, hinv⟩ := h.down_wait hlegal hfree wtInterrupted
      refine ⟨_, (step_down_wait hfree).trans (Option.map_eq_some_iff.mpr ⟨sys, hstep, rfl⟩), hinv, ?_⟩
      intro _ hcounted
      have htotal := hcounted.total
      refine ⟨hcounted.nonneg, ?_⟩
      dsimp only
      rw [List.length_append, List.length_append, List.length_singleton]
      omega
  | finish =>
    obtain ⟨heq, sys, hstep, hinv⟩ := h.finish hlegal
    refine ⟨_, heq.trans (Option.map_eq_some_iff.mpr ⟨sys, hstep, rfl⟩), hinv, fun _ hcounted => ?_⟩
    have htotal := hcounted.total
    have hpos := List.length_pos_of_mem hlegal.1
    refine ⟨hcounted.nonneg, ?_⟩
    dsimp only
    rw [List.length_erase_of_mem hlegal.1]
    omega
  | up =>
    cases hqueue : s.sem.waitQueue with
    | nil =>
      refine ⟨_, step_up_free hqueue, h.up_free hqueue _, fun hno hcounted => ?_⟩
      have hlt := hno rfl hqueue
      have hnonneg := hcounted.nonneg
      have htotal := hcounted.total
      constructor <;> dsimp only <;> rw [toInt_add_one hlt]
      . omega
      . omega
    | cons proc rest =>
      have hmem : proc ∈ s.sem.waitQueue := hqueue ▸ List.mem_cons_self
      obtain ⟨hdown, hasleep⟩ := h.waiting proc hmem
      have hwait := (h.atSem proc hdown).waitState_of_asleep h.sys hasleep
      obtain ⟨sys, hstep, hinv⟩ := h.up_wait hqueue (s.ups + 1)
      refine ⟨_, (step_up_wait hqueue hwait).trans (Option.map_eq_some_iff.mpr ⟨sys, hstep, rfl⟩), hinv, ?_⟩
      intro _ hcounted
      have htotal := hcounted.total
      rw [hqueue, List.length_cons] at htotal
      refine ⟨hcounted.nonneg, ?_⟩
      dsimp only
      omega
  | other ev =>
    obtain ⟨sys, hstep, hinv⟩ := h.other hlegal
    exact ⟨_, Option.map_eq_some_iff.mpr ⟨sys, hstep, rfl⟩, hinv, fun _ hcounted => ⟨hcounted.nonneg, hcounted.total⟩⟩

/--
In every run from any state of the system in which the semaphore is initialised every step has a result, so no
assertion fails, and the processes get the semaphore in their order. Its units are conserved as long as no `up`
overflows the value.
-/
theorem always_ordered_and_conserved {sys : SchedSys} (hsys : sys.Reachable) (hvalue : 0 ≤ value.toInt)
    (hlegal : Run.Admits step Legal (init sys value) events)
    : Run.Always step Ordered (init sys value) events ∧
        (Run.Admits step NoOverflow (init sys value) events →
          Run.Always step (Conserved value) (init sys value) events) := by
  have hinv : (init sys value).Inv := init_inv hsys.inv
  constructor
  . apply Run.always_of_admits (I := Inv) (fun _ => Inv.ordered) ?_ hinv hlegal
    intro s ev h hev
    obtain ⟨s', hstep, hinv', -⟩ := h.step hev value
    exact ⟨s', hstep, hinv'⟩
  . intro hno
    have hcounted : (init sys value).Counted value := ⟨hvalue, by simp [init, Semaphore.semInit]⟩
    apply Run.always_of_admits (I := fun s => s.Inv ∧ s.Counted value) (fun s h => h.2.conserved h.1) ?_
      ⟨hinv, hcounted⟩ (hlegal.and hno)
    intro s ev h hev
    obtain ⟨s', hstep, hinv', hkeep⟩ := h.1.step hev.1 value
    exact ⟨s', hstep, hinv', hkeep hev.2 h.2⟩

/--
Two processes, one of them has its turn.
-/
def twoProcs : SchedSys := SchedSys.endOf (SchedSys.sameProcs 0 1 0) [.fork 1 false, .fork 2 false, .schedule]

/--
Both processes wait, a kill does not disturb them, and they come through when `idleproc` has done two `up`.
-/
def handOverRun : List SemEvent :=
  [.down, .other .schedule, .down, .other (.kill 1), .other .schedule, .up, .up, .other .tick, .other .schedule,
    .finish,
    .other .schedule, .finish, .up]

theorem always_ordered_and_conserved_handOverRun
    : Run.Always step Ordered (init twoProcs 0) handOverRun ∧
        Run.Always step (Conserved 0) (init twoProcs 0) handOverRun := by
  have hreachable : twoProcs.Reachable := SchedSys.reachable_endOf (by decide +kernel) (by decide +kernel)
  have h := @always_ordered_and_conserved 0 handOverRun _ hreachable (by decide) (by decide +kernel)
  exact ⟨h.1, h.2 (by decide +kernel)⟩

/--
The value of a semaphore that starts with the largest `int` gets negative.
-/
theorem not_always_nonneg
    : ¬∀ (sys : SchedSys) (value : BitVec 32) (events : List SemEvent), sys.Reachable → 0 ≤ value.toInt →
        Run.Admits step Legal (init sys value) events →
          Run.Always step (fun s => s.Ordered ∧ s.Conserved value) (init sys value) events := by
  intro hclaim
  have hreachable : twoProcs.Reachable := SchedSys.reachable_endOf (by decide +kernel) (by decide +kernel)
  obtain ⟨-, s', hstep, hsafe⟩ := hclaim twoProcs 0x7fffffff [.up] hreachable (by decide) (by decide +kernel)
  have hs' : s' = { init twoProcs 0x7fffffff with sem.value := 0x7fffffff + 1, ups := 1 } :=
    (Option.some_inj.mp hstep).symm
  have hnonneg := hsafe.2.nonneg
  rw [hs'] at hnonneg
  exact absurd hnonneg (by decide)

end SemSys
end Ucore

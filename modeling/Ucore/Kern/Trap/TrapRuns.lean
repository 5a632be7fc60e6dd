import Ucore.Kern.Process.ProcRuns
import Ucore.Kern.Trap.TrapInvariant

/-!
This module contains what holds in every run of the traps: no call of a process stops the kernel, and
when kills find their targets inside system calls none of them is lost.
-/

namespace Ucore

open ProcTable (ForkAnswers)

namespace ProcTable

/--
`initproc` is the only process behind `proc_init`.
-/
theorem procInit_spec {procs : Nat → ProcStruct} {idle init : Nat} {tab : ProcTable} (hne : init ≠ idle)
    (h : procInit procs idle init = some tab)
    : tab.procList = [tab.initproc] ∧ (tab.procs tab.initproc).state = .runnable ∧
        (tab.procs tab.initproc).flags = 0 := by
  have hfam := idleTable_family procs idle
  have hreg := idleTable_registered procs idle
  have hfree : (idleTable procs idle).allocated init = false := by
    rw [Bool.eq_false_iff, ne_eq, idleTable_allocated]
    exact hne
  obtain ⟨r, s, hfork, hcases⟩ := @doFork_spec (idleTable procs idle) _
    { proc := some init, kstack := true, mm := true, files := true } hfam hreg idle_mem_all
    (idleTable_procs procs idle).2 (by simp [hfree])
  unfold procInit at h
  obtain ⟨⟨r', s'⟩, hfork', h⟩ := Option.bind_eq_some_iff.mp h
  rw [hfork, Option.some_inj, Prod.mk.injEq] at hfork'
  rw [← hfork'.1, ← hfork'.2] at h
  rcases hcases with ⟨-, ⟨e, rfl⟩, -⟩ | ⟨proc, pid, nextSafe, hproc, hnot, rfl, rfl, -, hvalid, hfresh,
    hle, hunused⟩
  . simp at h
  . have hproc' : init = proc := Option.some_inj.mp hproc
    subst hproc'
    have hreg' := forked_registered hreg hnot hvalid hfresh hle hunused
    have hlist : ((idleTable procs idle).forked init pid nextSafe).procList = [init] := rfl
    simp only at h
    split at h
    . contradiction
    . obtain ⟨initproc, hfind, h⟩ := Option.bind_eq_some_iff.mp h
      have hmem := (hreg'.findProc_eq_some_iff.mp hfind).1
      rw [hlist, List.mem_singleton] at hmem
      subst hmem
      simp only [Option.ite_none_right_eq_some, Option.some_inj] at h
      obtain ⟨-, rfl⟩ := h
      refine ⟨rfl, ?_, ?_⟩ <;> simp only [forked_procs_self]

end ProcTable

namespace TrapSys

variable {s t : TrapSys} {k : Promise}

theorem boot_inv {procs : Nat → ProcStruct} {idle init : Nat} {tab : ProcTable} (hne : init ≠ idle)
    (h : ProcTable.procInit procs idle init = some tab)
    : (boot tab).Inv k := by
  obtain ⟨hlist, hstate, hflags⟩ := ProcTable.procInit_spec hne h
  refine ⟨ProcSys.boot_inv hne h, ?_, ?_, fun _ => hlist, ⟨⟨by simp [boot],
    by simp [boot, Timer.total]⟩, by simp [boot], by simp [boot]⟩⟩
  . intro p hp
    have hp : p ∈ tab.procList := hp
    rw [hlist, List.mem_singleton] at hp
    have hno : ¬(tab.procs p).flags &&& pfExiting ≠ 0 := by simp [hp, hflags]
    refine ⟨by simp [boot], by simp [boot, Place.InWait, ProcSys.boot], fun _ => .inl ?_,
      iff_of_true trivial hp, fun _ hf => absurd hf hno, by simp [boot], fun _ hf => absurd hf hno⟩
    exact hp ▸ hstate
  . intro p _ huser
    simp [boot] at huser

/--
The states of the runs whose steps all satisfy `Q`, from the end of `proc_init`.
-/
def Reachable (Q : TrapSys → TrapEvent → Prop) (s : TrapSys) : Prop :=
  ∃ procs idle init tab events, init ≠ idle ∧ ProcTable.procInit procs idle init = some tab ∧
    Run.Admits next Q (boot tab) events ∧ Run.exec next (boot tab) events = some s

theorem Reachable.inv {Q : TrapSys → TrapEvent → Prop} (h : s.Reachable Q)
    (hkept : k.kept → ∀ s ev, Q s ev → s.Heeded ev)
    (hspared : k.spared → ∀ s ev, Q s ev → s.SparesInit ev)
    : s.Inv k := by
  obtain ⟨procs, idle, init, tab, events, hne, hboot, hadmits, hexec⟩ := h
  refine Run.exec_invariant_of_admits (I := fun s => s.Inv k) ?_ (boot_inv hne hboot) hadmits hexec
  intro s ev t hinv hQ hnext
  simp only [TrapSys.next, Option.ite_none_right_eq_some] at hnext
  have hstep := hinv.step hnext.1 (fun h => hkept h s ev hQ) fun h => hspared h s ev hQ
  rw [hnext.2] at hstep
  exact hstep

/--
`do_wait` has told `init_main` that no child is left, its thread calls `do_exit`.
-/
def InitReturns (s : TrapSys) : Prop :=
  s.current = s.tab.initproc ∧ (s.tab.procs s.current).cptr = none

/--
The two kernel threads of `proc_init` are alive, and no event stops the kernel but the return of
`init_main`.
-/
structure Safe (s : TrapSys) : Prop where
  idleproc : (s.tab.procs s.tab.idleproc).state ≠ .zombie
  initproc : (s.tab.procs s.tab.initproc).state ≠ .zombie
  steps : ∀ ev, s.Enabled ev → s.SparesInit ev → s.step ev ≠ none ∨ s.InitReturns

/--
`user_main` starts a program, which makes a child. The child is asked to run and is preempted.
-/
def preemptedEvents : List TrapEvent :=
  [.schedule 2, .initMain ⟨some 3, true, true, true⟩, .schedule 3, .userMain .loaded,
    .syscall false (.fork ⟨some 4, true, true, true⟩) true, .schedule 4, .goOn false,
    .tick false true]

instance (s : TrapSys) : (ev : TrapEvent) → Decidable (s.SparesInit ev)
  | .syscall _ (.kill pid) _ => inferInstanceAs (Decidable (s.tab.findProc pid ≠ some s.tab.initproc))
  | .syscall _ (.exit _) _ | .syscall _ (.fork _) _ | .syscall _ (.wait ..) _ | .syscall _ (.exec ..) _
  | .syscall _ .yield _ | .syscall _ (.sleep _) _ | .syscall _ (.stdinRead _) _ | .syscall _ .sem _
  | .syscall _ .other _ | .goOn _ | .initMain _ | .userMain _ | .semTaken .. | .semUp _ | .tick .. | .schedule _ =>
    isTrue trivial

def preemptedRun : TrapSys :=
  (Run.exec next (boot ProcSys.bootTable) preemptedEvents).get (by decide +kernel)

theorem preemptedRun_reachable : preemptedRun.Reachable SparesInit :=
  ⟨_, 1, 2, ProcSys.bootTable, preemptedEvents, by decide, (Option.some_get _).symm, by decide +kernel,
    (Option.some_get _).symm⟩

/--
No killed process sleeps in an interruptible wait or has come past the end of a trap, and the next time
it goes on it exits or waits for a semaphore.
-/
structure KillsKept (s : TrapSys) : Prop where
  asleep : ∀ p ∈ s.tab.procList, s.Flagged p → (s.tab.procs p).state = .sleeping →
    (s.tab.procs p).waitState ∉ [wtChild, wtTimer, wtKbd]
  passed : ∀ p ∈ s.tab.procList, s.Flagged p → s.place p ∉ [.user, .preempted]
  ends : ∀ ev t, s.Flagged s.current → s.Heeded ev → s.next ev = some t →
    (∃ resched, ev = .goOn resched) ∨ (∃ again resched, ev = .semTaken again resched) →
    (t.tab.procs s.current).state = .zombie ∨
      (t.tab.procs s.current).state = .sleeping ∧ (t.tab.procs s.current).waitState = wtKsem

theorem exitBy_zombie {kids : Nat → List Nat} {ev : ProcEvent} {errorCode : Int} (h : s.sys.Inv kids)
    (hgo : s.GoesOn) (hinit : s.current ≠ s.tab.initproc)
    (hev : s.sys.step ev = s.sys.exit errorCode) (hexit : s.exitBy ev = some t)
    : (t.tab.procs s.current).state = .zombie := by
  obtain ⟨sys, hsys, hs, hz⟩ := @ProcSys.exit_spec s.sys kids errorCode h hgo.1 hinit
  simp only [exitBy, base, hev, hsys, Option.map_some, Option.some_inj] at hexit
  rw [← hexit]
  exact hz

/--
A killed process does not get past the end of a trap.
-/
theorem trapEnd_zombie {kids : Nat → List Nat} {resched : Bool} (h : s.sys.Inv kids) (hgo : s.GoesOn)
    (hnone : s.sys.waiting s.current = none) (hinit : s.current ≠ s.tab.initproc)
    (hflag : s.Flagged s.current) (hend : s.trapEnd false resched = some t)
    : (t.tab.procs s.current).state = .zombie := by
  have hrun : s.sys.Running := ⟨hgo.1, hgo.2, hnone⟩
  simp only [trapEnd, Bool.false_eq_true, if_false, hflag, if_true] at hend
  refine exitBy_zombie h hgo hinit (?_ : _ = s.sys.exit (-9)) hend
  simp only [ProcSys.step, if_pos hrun]

theorem Inv.goOn_killed (h : s.Inv k) (hk : k.kept) (hgo : s.GoesOn)
    (hplace : ¬(s.place s.current).AtSemaphore) (hflag : s.Flagged s.current)
    (hheeds : ∀ ebreak left, s.place s.current = .kbd ebreak true left → left ≤ s.stdin)
    {resched : Bool} (hstep : s.goOn resched = some t)
    : (t.tab.procs s.current).state = .zombie := by
  obtain ⟨kids, hsys⟩ := h.sys
  have hfit := h.fits _ (h.current_mem hgo.1)
  have hnotices := hfit.flagged hk hflag
  unfold TrapSys.goOn at hstep
  split at hstep
  next hc =>
    rw [hc] at hnotices
    contradiction
  next hc =>
    rw [hc] at hnotices
    contradiction
  next hc =>
    rw [hc] at hfit
    have hinit : s.sys.tab.current = s.sys.tab.initproc := hfit.init.mp trivial
    have hdead : s.sys.exit (-9) = none := by
      simp [ProcSys.exit, ProcTable.doExit, hinit]
    simp [hflag, exitBy, base, resume_killed hgo (hfit.initWait rfl) hflag, hdead] at hstep
  next hc =>
    rw [hc] at hnotices
    contradiction
  next ebreak hc =>
    rw [hc] at hfit
    obtain ⟨pid, hpid⟩ := Option.ne_none_iff_exists'.mp ((hfit.waiting (by simp)).mp trivial)
    rw [if_pos hflag] at hstep
    exact exitBy_zombie hsys hgo (hfit.ne_init not_false) (resume_killed hgo hpid hflag) hstep
  next ebreak hc =>
    rw [hc] at hfit hnotices
    cases ebreak with
    | true => contradiction
    | false =>
      exact trapEnd_zombie (s := { s with timers := Timer.delTimer s.current s.timers }) hsys hgo
        (hfit.waiting_none (by simp) not_false) (hfit.ne_init not_false) hflag hstep
  next ebreak key left hc =>
    have hleft := hheeds ebreak left
    rw [hc] at hfit hnotices hleft
    have hnone := hfit.waiting_none (by simp) not_false
    have hinit := hfit.ne_init not_false
    cases ebreak with
    | true => contradiction
    | false =>
      cases key with
      | true =>
        simp only [if_true, stdinLoop, hleft rfl] at hstep
        exact trapEnd_zombie (s := { s with stdin := s.stdin - left }) hsys hgo hnone hinit hflag hstep
      | false => exact trapEnd_zombie hsys hgo hnone hinit hflag hstep
  next hc₁ hc₂ hc₃ hc₄ hc₅ hc₆ hc₇ =>
    -- dead processes do not run, and nobody waits for a semaphore here
    have hne : s.place s.current ≠ .dead := by
      intro hdead
      have hz := hfit.dead hdead
      rw [show (s.sys.tab.procs s.current).state = _ from hgo.2] at hz
      contradiction
    unfold Place.Notices at hnotices
    split at hnotices <;> simp_all [Place.AtSemaphore]

theorem Inv.semTaken_killed (h : s.Inv k) (hk : k.kept) (hgo : s.GoesOn)
    (hplace : (s.place s.current).AtSemaphore) (hflag : s.Flagged s.current) {again resched : Bool}
    (hstep : s.step (.semTaken again resched) = some t)
    : (t.tab.procs s.current).state = .zombie ∨
        (t.tab.procs s.current).state = .sleeping ∧ (t.tab.procs s.current).waitState = wtKsem := by
  obtain ⟨kids, hsys⟩ := h.sys
  have hfit := h.fits _ (h.current_mem hgo.1)
  have hnotices := hfit.flagged hk hflag
  unfold TrapSys.step at hstep
  simp only at hstep
  split at hstep
  next ebreak hc =>
    rw [hc] at hfit hnotices
    have hnone := hfit.waiting_none (by simp) not_false
    cases ebreak with
    | true => contradiction
    | false =>
      split at hstep
      . obtain ⟨sys, hblock, -, -, -, hself⟩ :=
          @ProcSys.block_spec s.sys wtKsem ⟨hgo.1, hgo.2, hnone⟩ (by simp)
        simp only [block, base, hblock, Option.map_some, Option.some_inj] at hstep
        rw [← hstep]
        have hself : sys.tab.procs s.current = _ := hself
        simp only [tab, setPlace, hself, and_self, or_true]
      . exact .inl (trapEnd_zombie hsys hgo hnone (hfit.ne_init not_false) hflag hstep)
  next hno =>
    unfold Place.AtSemaphore at hplace
    split at hplace
    next ebreak hc => exact absurd hc (hno ebreak)
    . contradiction

/--
In every run whose kills find their targets where these notice it, no kill is lost.
-/
theorem kills_kept {s : TrapSys} (h : s.Reachable Heeded) : s.KillsKept := by
  have hinv : s.Inv ⟨True, False⟩ := h.inv (fun _ _ _ hheeds => hheeds) False.elim
  refine ⟨?_, ?_, ?_⟩
  . intro p hp hflag hsleep hmem
    have hfit := hinv.fits p hp
    have hnotices := hfit.flagged trivial hflag
    rw [show (s.sys.tab.procs p).state = _ from hsleep] at hnotices
    unfold Place.Notices at hnotices
    split at hnotices
    next hc =>
      have := hfit.dead hc
      rw [show (s.sys.tab.procs p).state = _ from hsleep] at this
      contradiction
    next hc =>
      rcases hfit.state (by simp [hc]) with hrun | hwait
      . rw [show (s.sys.tab.procs p).state = _ from hsleep] at hrun
        contradiction
      . rw [hc, Place.sleepState, Option.some_inj] at hwait
        rw [show (s.tab.procs p).waitState = _ from hwait.2.symm] at hmem
        exact absurd hmem (by decide)
    . contradiction
    . contradiction
    . contradiction
    . contradiction
    . contradiction
  . intro p hp hflag hmem
    have hnotices := (hinv.fits p hp).flagged trivial hflag
    have hcases : s.place p = .user ∨ s.place p = .preempted := by simpa using hmem
    rcases hcases with hc | hc <;> rw [hc] at hnotices <;> contradiction
  . intro ev t hflag hheeds hnext hwhich
    simp only [TrapSys.next, Option.ite_none_right_eq_some] at hnext
    obtain ⟨hev, hstep⟩ := hnext
    rcases hwhich with ⟨resched, rfl⟩ | ⟨again, resched, rfl⟩
    . refine .inl (hinv.goOn_killed trivial hev.1 hev.2.2 hflag ?_ hstep)
      intro ebreak left hc
      have := hheeds
      simp only [Heeded, hc] at this
      exact this hflag
    . exact hinv.semTaken_killed trivial hev.1 hev.2 hflag hstep

instance : (c : Place) → Decidable c.Heeds
  | .wait _ | .sleep false | .kbd false _ _ | .ksem false | .initWait | .dead => isTrue trivial
  | .user | .preempted | .forkret | .initMain | .initSchedule | .userMain | .sleep true
  | .kbd true _ _ | .ksem true => isFalse not_false

instance (s : TrapSys) : (ev : TrapEvent) → Decidable (s.Heeded ev)
  | .syscall ebreak (.kill pid) _ =>
    inferInstanceAs (Decidable (∀ p ∈ s.tab.findProc pid, s.Flagged p ∨
      if p = s.current then ebreak = false else (s.place p).Heeds))
  | .goOn _ =>
    match h : s.place s.current with
    | .kbd ebreak true left =>
      decidable_of_iff (s.Flagged s.current → left ≤ s.stdin) (by simp only [Heeded, h])
    | .kbd _ false _ | .user | .preempted | .forkret | .initMain | .initWait | .initSchedule
    | .userMain | .wait _ | .sleep _ | .ksem _ | .dead => isTrue (by simp only [Heeded, h])
  | .syscall _ (.exit _) _ | .syscall _ (.fork _) _ | .syscall _ (.wait ..) _
  | .syscall _ (.exec ..) _ | .syscall _ .yield _ | .syscall _ (.sleep _) _
  | .syscall _ (.stdinRead _) _ | .syscall _ .sem _ | .syscall _ .other _ | .initMain _
  | .userMain _ | .semTaken .. | .semUp _ | .tick .. | .schedule _ => isTrue trivial

/--
The child sleeps for a timer when it is killed.
-/
theorem kills_kept_sleeper
    : ∃ s ∈ Run.exec next (boot ProcSys.bootTable) (preemptedEvents ++
          [.schedule 4, .goOn false, .syscall false (.sleep 5) false, .schedule 3, .goOn false,
            .syscall false (.kill 3) false]),
        s.Flagged 4 ∧ (s.tab.procs 4).state = .runnable ∧ s.KillsKept := by
  obtain ⟨s, hexec, hflag, hstate⟩ : ∃ s ∈ Run.exec next (boot ProcSys.bootTable) (preemptedEvents ++
      [.schedule 4, .goOn false, .syscall false (.sleep 5) false, .schedule 3, .goOn false,
        .syscall false (.kill 3) false]), s.Flagged 4 ∧ (s.tab.procs 4).state = .runnable := by
    decide +kernel
  refine ⟨s, hexec, hflag, hstate, kills_kept ?_⟩
  exact ⟨_, 1, 2, ProcSys.bootTable, _, by decide, (Option.some_get _).symm, by decide +kernel, hexec⟩

/--
The child has been preempted behind the test of its flags when it is killed, then it goes to sleep.
-/
theorem kills_kept_preempted
    : ∃ s ∈ Run.exec next (boot ProcSys.bootTable) (preemptedEvents ++
          [.schedule 3, .goOn false, .syscall false (.kill 3) true, .schedule 4, .goOn false,
            .syscall false (.sleep 5) false]),
        4 ∈ s.tab.procList ∧ s.Flagged 4 ∧ (s.tab.procs 4).state = .sleeping ∧
          (s.tab.procs 4).waitState = wtTimer := by
  decide +kernel

end TrapSys
end Ucore

import Ucore.Kern.Process.ProcFrame
import Ucore.Kern.Trap.TrapSys

/-!
This module contains the invariant of the traps: every process is in a state that fits the place where
it is, and as long as the kills of the run meet their condition a killed process is where it will
notice. A step that has no result is one in which `initproc` exits.
-/

namespace Ucore

open ProcTable (ForkAnswers SameOrWoken)

namespace Place

/--
The wait state that a process may sleep with at a place.
-/
def sleepState : Place → Option (BitVec 32)
  | initWait | wait _ => some wtChild
  | sleep _ => some wtTimer
  | kbd _ false _ => some wtKbd
  | ksem _ => some wtKsem
  | _ => none

/--
A process is inside `do_wait`.
-/
def InWait : Place → Prop
  | initWait | wait _ => True
  | _ => False

/--
The places of `init_main`.
-/
def Init : Place → Prop
  | initMain | initWait | initSchedule => True
  | _ => False

/--
A process at this place in this state will look at its flags before it sleeps in an interruptible wait
or goes to user mode.
-/
def Notices (state : ProcState) : Place → Prop
  | dead | ksem false => True
  | initWait | wait _ | sleep false | kbd false _ _ => state = .runnable
  | _ => False

/--
The places where a process notices that it has been killed: it is inside a system call and looks at its
flags before it sleeps again or goes back.
-/
def Heeds : Place → Prop
  | wait _ | sleep false | kbd false _ _ | ksem false | initWait | dead => True
  | _ => False

def Sleeps : Place → Prop
  | sleep _ => True
  | _ => False

end Place

namespace TrapSys

/--
What the kills of a run are promised to respect.
-/
structure Promise where
  kept : Prop
  spared : Prop

variable {s t : TrapSys} {sys : ProcSys} {k : Promise} {p q : Nat} {c : Place} {xs : Set Nat}

/--
A process at the place `c`.
-/
structure Fits (k : Promise) (sys : ProcSys) (c : Place) (p : Nat) : Prop where
  dead : c = .dead → (sys.tab.procs p).state = .zombie
  waiting : c ≠ .dead → (c.InWait ↔ sys.waiting p ≠ none)
  state : c ≠ .dead → (sys.tab.procs p).state = .runnable ∨
    (sys.tab.procs p).state = .sleeping ∧ c.sleepState = some (sys.tab.procs p).waitState
  init : c.Init ↔ p = sys.tab.initproc
  flagged : k.kept → (sys.tab.procs p).flags &&& pfExiting ≠ 0 → c.Notices (sys.tab.procs p).state
  initWait : c = .initWait → sys.waiting p = some 0
  spared : k.spared → (sys.tab.procs p).flags &&& pfExiting ≠ 0 → p ≠ sys.tab.initproc

structure TimersOk (s : TrapSys) : Prop where
  ok : Timer.Ok s.timers
  nodup : (s.timers.map (·.proc)).Nodup
  sleeps : ∀ timer ∈ s.timers, timer.proc ∈ s.tab.procList ∧ (s.place timer.proc).Sleeps

/--
The invariant between two steps.
-/
structure Inv (k : Promise) (s : TrapSys) : Prop where
  sys : ∃ kids, s.sys.Inv kids
  fits : ∀ p ∈ s.tab.procList, Fits k s.sys (s.place p) p
  user : ∀ p ∈ s.tab.procList, s.place p = .user → p = s.current
  initMain : s.place s.tab.initproc = .initMain → s.tab.procList = [s.tab.initproc]
  timers : s.TimersOk

/--
What holds inside a step: the current process runs, its place is about to change.
-/
structure Busy (k : Promise) (s : TrapSys) : Prop where
  sys : ∃ kids, s.sys.Inv kids
  goesOn : s.GoesOn
  fits : ∀ p ∈ s.tab.procList, p ≠ s.current → Fits k s.sys (s.place p) p ∧ s.place p ≠ .user
  initMain : s.current ≠ s.tab.initproc → s.place s.tab.initproc ≠ .initMain
  timers : s.TimersOk
  noTimer : s.current ∉ s.timers.map (·.proc)

theorem Place.not_dead_of_sleeps {c : Place} (h : c.Sleeps) : c ≠ .dead := by
  rintro rfl
  exact h

theorem Place.ne_user_of_sleeps {c : Place} (h : c.Sleeps) : c ≠ .user := by
  rintro rfl
  exact h

theorem Place.notices_runnable {c : Place} {state : ProcState} (h : c.Notices state)
    : c.Notices .runnable := by
  unfold Place.Notices at *
  split <;> simp_all

theorem Fits.alive (h : Fits k sys c p) (hc : c ≠ .dead) : (sys.tab.procs p).state ≠ .zombie := by
  rcases h.state hc with h' | h'
  . simp [h']
  . simp [h'.1]

/--
A process still fits its place when others have been served and it has been woken up, if at all.
-/
theorem Fits.spares {sys' : ProcSys} (h : Fits k sys c p) (hs : sys.Spares sys' xs)
    (hp : p ∈ sys'.tab.procList) (hx : p ∉ xs)
    : Fits k sys' c p := by
  have hstates := hs.states p hp hx
  constructor
  . intro hc
    rcases hstates with h' | h'
    . rw [h'.1]
      exact h.dead hc
    . exact absurd (h.dead hc) h'.2.2
  . rw [hs.waiting p hp hx]
    exact h.waiting
  . intro hc
    rcases hstates with h' | h'
    . rw [h'.1, h'.2]
      exact h.state hc
    . exact .inl h'.1
  . rw [hs.initproc]
    exact h.init
  . intro hkept hflag
    rw [hs.flags p hp hx] at hflag
    have hnotices := h.flagged hkept hflag
    rcases hstates with h' | h'
    . rwa [h'.1]
    . rw [h'.1]
      exact Place.notices_runnable hnotices
  . rw [hs.waiting p hp hx]
    exact h.initWait
  . rw [hs.flags p hp hx, hs.initproc]
    exact h.spared

theorem Inv.alive (h : s.Inv k) (hp : p ∈ s.tab.procList) (hc : s.place p ≠ .dead)
    : (s.tab.procs p).state ≠ .zombie :=
  (h.fits p hp).alive hc

/--
The timers belong to processes that are alive, so no step takes them away.
-/
theorem TimersOk.spares (h : s.TimersOk) (hs : s.sys.Spares sys xs)
    (hfits : ∀ timer ∈ s.timers, (s.tab.procs timer.proc).state ≠ .zombie)
    : TimersOk { s with sys } where
  ok := h.ok
  nodup := h.nodup
  sleeps timer ht := by
    obtain ⟨hmem, hsleeps⟩ := h.sleeps timer ht
    exact ⟨hs.kept _ hmem (hfits timer ht), hsleeps⟩

theorem Busy.timer_alive (h : s.Busy k) {timer : Timer} (ht : timer ∈ s.timers)
    : (s.tab.procs timer.proc).state ≠ .zombie := by
  obtain ⟨hmem, hsleeps⟩ := h.timers.sleeps timer ht
  have hne : timer.proc ≠ s.current := by
    intro heq
    exact h.noTimer (heq ▸ List.mem_map_of_mem ht)
  exact (h.fits _ hmem hne).1.alive (Place.not_dead_of_sleeps hsleeps)

theorem Inv.timer_alive (h : s.Inv k) {timer : Timer} (ht : timer ∈ s.timers)
    : (s.tab.procs timer.proc).state ≠ .zombie := by
  obtain ⟨hmem, hsleeps⟩ := h.timers.sleeps timer ht
  exact (h.fits _ hmem).alive (Place.not_dead_of_sleeps hsleeps)

theorem TimersOk.setPlace (h : s.TimersOk) (hp : p ∉ s.timers.map (·.proc))
    : (s.setPlace p c).TimersOk where
  ok := h.ok
  nodup := h.nodup
  sleeps timer ht := by
    obtain ⟨hmem, hsleeps⟩ := h.sleeps timer ht
    have hne : timer.proc ≠ p := by
      intro heq
      exact hp (heq ▸ List.mem_map_of_mem ht)
    refine ⟨hmem, ?_⟩
    simp only [TrapSys.setPlace, Function.update_of_ne hne]
    exact hsleeps

section Finish

/--
A step ends: the current process gets the place that it then fits.
-/
theorem Busy.finish (h : s.Busy k) (hs : s.sys.Spares sys {s.current})
    (hsys : ∃ kids, sys.Inv kids)
    (hfits : s.current ∈ sys.tab.procList → Fits k sys c s.current) (hc : c ≠ .initMain)
    : Inv k { s with sys, place := Function.update s.place s.current c } := by
  have hfits' : ∀ p ∈ sys.tab.procList, Fits k sys (Function.update s.place s.current c p) p := by
    intro p hp
    by_cases hpc : p = s.current
    . subst hpc
      rw [Function.update_self]
      exact hfits hp
    . rw [Function.update_of_ne hpc]
      exact (h.fits p (hs.mem p hp hpc) hpc).1.spares hs hp hpc
  refine ⟨hsys, hfits', ?_, ?_, ?_⟩
  . intro p hp huser
    by_cases hpc : p = s.current
    . rw [hpc]
      exact hs.current.symm
    . simp only [Function.update_of_ne hpc] at huser
      exact absurd huser (h.fits p (hs.mem p hp hpc) hpc).2
  . intro hinit
    simp only [tab, hs.initproc] at hinit
    by_cases hpc : s.sys.tab.initproc = s.current
    . rw [hpc, Function.update_self] at hinit
      exact absurd hinit hc
    . rw [Function.update_of_ne hpc] at hinit
      exact absurd hinit (h.initMain (Ne.symm hpc))
  . exact (h.timers.spares hs fun timer ht => h.timer_alive ht).setPlace h.noTimer

theorem Busy.current_mem (h : s.Busy k) : s.current ∈ s.tab.procList := by
  obtain ⟨kids, hinv⟩ := h.sys
  exact hinv.current_mem h.goesOn.1

/--
The current process goes on to a place where it runs.
-/
theorem Busy.setPlace (h : s.Busy k) (hnone : s.sys.waiting s.current = none) (hflag : k.kept → ¬s.Flagged s.current)
    (hc : c ∈ [.user, .preempted]) (hinit : s.current ≠ s.tab.initproc)
    : (s.setPlace s.current c).Inv k := by
  apply h.finish .refl h.sys
  . intro _
    have hcases : c = .user ∨ c = .preempted := by simpa using hc
    refine ⟨?_, ?_, fun _ => .inl h.goesOn.2, ?_, fun hkept hf => absurd hf (hflag hkept), ?_,
      fun _ _ => hinit⟩
    . rcases hcases with rfl | rfl <;> simp
    . rcases hcases with rfl | rfl <;> simp [Place.InWait, hnone]
    . have : s.current ≠ s.sys.tab.initproc := hinit
      rcases hcases with rfl | rfl <;> simp [Place.Init, this]
    . rcases hcases with rfl | rfl <;> simp
  . rintro rfl
    simp at hc

/--
A step without a result is one in which `initproc` exits.
-/
def Panics (s : TrapSys) : Prop :=
  s.current = s.tab.initproc ∧ (s.Flagged s.current ∨ (s.tab.procs s.current).cptr = none)

/--
The result of a step keeps the invariant, and there is one unless `panics`.
-/
def Keeps (k : Promise) (panics : Prop) : Option TrapSys → Prop
  | some s => s.Inv k
  | none => panics

variable {panics : Prop}

/--
The current process exits in `ev`.
-/
theorem Busy.exitBy_of (h : s.Busy k) {ev : ProcEvent} {errorCode : Int}
    (hev : s.sys.step ev = s.sys.exit errorCode) (hinit : s.current ≠ s.tab.initproc)
    : Keeps k panics (s.exitBy ev) := by
  obtain ⟨kids, hinv⟩ := h.sys
  obtain ⟨sys, hexit, hs, hz⟩ := @ProcSys.exit_spec s.sys kids errorCode hinv h.goesOn.1 hinit
  have hsys := hinv.exit h.goesOn.1 h.goesOn.2 hexit
  have hstep : s.exitBy ev = some
      { ({ s with sys } : TrapSys).setPlace sys.tab.current .dead with
        mm := Function.update s.mm sys.tab.current false } := by
    simp only [exitBy, base, hev, hexit, Option.map_some]
    rfl
  rw [hstep, hs.current]
  have hfinish := @Busy.finish s sys k .dead h hs hsys
    (fun _ => ⟨fun _ => hz, by simp, by simp, ?_, fun _ _ => trivial, by simp, ?_⟩) (by simp)
  . exact ⟨hfinish.sys, hfinish.fits, hfinish.user, hfinish.initMain,
      ⟨hfinish.timers.ok, hfinish.timers.nodup, hfinish.timers.sleeps⟩⟩
  . rw [hs.initproc]
    exact ⟨False.elim, fun heq => absurd heq hinit⟩
  . rw [hs.initproc]
    exact fun _ _ => hinit

theorem Busy.setMm (h : s.Busy k) (mm : Nat → Bool) : Busy k { s with mm } :=
  ⟨h.sys, h.goesOn, h.fits, h.initMain, ⟨h.timers.ok, h.timers.nodup, h.timers.sleeps⟩, h.noTimer⟩

theorem Busy.setStdin (h : s.Busy k) (stdin : Nat) : Busy k { s with stdin } :=
  ⟨h.sys, h.goesOn, h.fits, h.initMain, ⟨h.timers.ok, h.timers.nodup, h.timers.sleeps⟩, h.noTimer⟩

/--
Behind the end of a trap a killed process has exited.
-/
theorem Busy.trapEnd (h : s.Busy k) (hnone : s.sys.waiting s.current = none)
    (hinit : s.current ≠ s.tab.initproc) {ebreak resched : Bool}
    (hebreak : k.kept → ebreak = true → ¬s.Flagged s.current)
    : Keeps k panics (s.trapEnd ebreak resched) := by
  have hrun : s.sys.Running := ⟨h.goesOn.1, h.goesOn.2, hnone⟩
  unfold TrapSys.trapEnd
  cases ebreak with
  | true => exact h.setPlace hnone (fun hkept => hebreak hkept rfl) (by simp) hinit
  | false =>
    simp only [Bool.false_eq_true, if_false]
    split
    . refine h.exitBy_of (?_ : _ = s.sys.exit (-9)) hinit
      simp only [ProcSys.step, if_pos hrun]
    next hflag =>
      apply h.setPlace hnone (fun _ => hflag) _ hinit
      cases resched <;> simp

/--
The current process goes to sleep for a semaphore, a timer or the keyboard.
-/
theorem Busy.block (h : s.Busy k) (hnone : s.sys.waiting s.current = none)
    (hinit : s.current ≠ s.tab.initproc) {waitState : BitVec 32}
    (hmem : waitState ∈ [wtKsem, wtTimer, wtKbd]) (hc : c.sleepState = some waitState)
    (hwait : ¬c.InWait) (hnotInit : ¬c.Init)
    (hflag : k.kept → s.Flagged s.current → c.Notices .sleeping)
    : ∃ t, s.block waitState c = some t ∧ t.Inv k ∧ t.timers = s.timers ∧
        t.current = s.current ∧ t.tab.procList = s.tab.procList ∧ t.place s.current = c := by
  obtain ⟨kids, hinv⟩ := h.sys
  obtain ⟨sys, hstep, hs, hlist, hwaiting, hself⟩ :=
    ProcSys.block_spec ⟨h.goesOn.1, h.goesOn.2, hnone⟩ hmem
  have hsys := hinv.step hstep
  refine ⟨{ s with sys, place := Function.update s.place s.current c }, ?_, ?_, rfl, hs.current, hlist,
    Function.update_self ..⟩
  . simp only [TrapSys.block, base, hstep, Option.map_some, TrapSys.setPlace, current, hs.current]
  . have hproc : sys.tab.procs s.current = _ := hself
    apply h.finish hs hsys
    . intro _
      refine ⟨?_, ?_, ?_, ?_, ?_, ?_, ?_⟩
      . rintro rfl
        contradiction
      . intro _
        rw [hwaiting, hnone]
        simp [hwait]
      . intro _
        rw [hproc]
        exact .inr ⟨rfl, hc⟩
      . rw [hs.initproc]
        exact ⟨fun hi => absurd hi hnotInit, fun heq => absurd heq hinit⟩
      . rw [hproc]
        exact hflag
      . rintro rfl
        exact absurd trivial hwait
      . rw [hs.initproc]
        exact fun _ _ => hinit
    . rintro rfl
      contradiction

/--
The current process is still busy when it has changed its own state or that of others.
-/
theorem Busy.next (h : s.Busy k) (hs : s.sys.Spares sys xs) (hsys : ∃ kids, sys.Inv kids)
    (hgo : (sys.tab.procs s.current).state = .runnable)
    (hfits : ∀ p ∈ sys.tab.procList, p ∈ xs → p ≠ s.current →
      Fits k sys (s.place p) p ∧ s.place p ≠ .user)
    : Busy k { s with sys } := by
  have hcur : sys.tab.current = s.current := hs.current
  refine ⟨hsys, ?_, ?_, ?_, h.timers.spares hs fun timer ht => h.timer_alive ht, ?_⟩
  . simp only [GoesOn, current, tab, hs.current, hs.idleproc]
    exact ⟨h.goesOn.1, hgo⟩
  . intro p hp hne
    simp only [current, hcur] at hne
    by_cases hx : p ∈ xs
    . exact hfits p hp hx hne
    . obtain ⟨hfit, huser⟩ := h.fits p (hs.mem p hp hx) hne
      exact ⟨hfit.spares hs hp hx, huser⟩
  . simp only [current, tab, hs.current, hs.initproc]
    exact h.initMain
  . simp only [current, hcur]
    exact h.noTimer

theorem waitEnd_none {ebreak resched : Bool} (h : s.sys.waiting s.current = none)
    : s.waitEnd ebreak resched = s.trapEnd ebreak resched := by
  rw [waitEnd, if_pos h]

theorem waitEnd_asleep {ebreak resched : Bool} (h : s.sys.waiting s.current ≠ none)
    : s.waitEnd ebreak resched = some (s.setPlace s.current (.wait ebreak)) := by
  rw [waitEnd, if_neg h]

/--
`ev` is a `do_wait` or goes on with one: the process sleeps for its children or comes to the end of the
trap.
-/
theorem Busy.wait (h : s.Busy k) {ev : ProcEvent} {pid : Int}
    (hev : s.sys.step ev = (s.tab.waitRepeat pid).map (s.sys.recordWait pid))
    (hinit : s.current ≠ s.tab.initproc) (hflag : k.kept → ¬s.Flagged s.current)
    {ebreak resched : Bool}
    : Keeps k panics ((s.base ev).bind (·.waitEnd ebreak resched)) := by
  obtain ⟨kids, hinv⟩ := h.sys
  obtain ⟨r, tab, sys, hrepeat, hstep, hs, hmem, hflags, hr⟩ :=
    @ProcSys.waitRepeat_spec s.sys kids pid hinv h.goesOn.1 h.goesOn.2
  have hsys := hinv.waitRepeat h.goesOn.1 h.goesOn.2 hstep
  have hcur : sys.tab.current = s.current := hs.current
  have hinit' : s.current ≠ sys.tab.initproc := by rwa [hs.initproc]
  have hflags' : (sys.tab.procs s.current).flags = (s.tab.procs s.current).flags := hflags
  have hflag' : k.kept → ¬Flagged { s with sys } s.current := by
    intro hkept hf
    exact hflag hkept (by rwa [Flagged, ← hflags'])
  have hbase : s.base ev = some { s with sys } := by
    rw [base, hev]
    exact congrArg (Option.map _) hstep
  rw [hbase, Option.bind_some]
  -- the process that has found a child or an error comes to the end of the trap
  have hreturns : (sys.tab.procs s.current).state = .runnable → sys.waiting s.current = none →
      Keeps k panics (waitEnd { s with sys } ebreak resched) := by
    intro hrun hnone
    have hbusy := h.next hs hsys hrun fun p _ hx hne => absurd hx hne
    have hnone' : sys.waiting sys.tab.current = none := by rwa [hcur]
    rw [waitEnd_none hnone']
    apply hbusy.trapEnd hnone'
    . have : sys.tab.current ≠ sys.tab.initproc := by rwa [hcur]
      exact this
    . intro hkept _
      have : ¬Flagged { s with sys } sys.tab.current := by
        rw [hcur]
        exact hflag' hkept
      exact this
  cases r with
  | asleep =>
    obtain ⟨hstate, hwait, hwaiting⟩ := hr
    have hwait : (sys.tab.procs s.current).waitState = wtChild := hwait
    have hne : sys.waiting s.current ≠ none := Option.ne_none_iff_exists'.mpr ⟨pid, hwaiting⟩
    have hne' : sys.waiting sys.tab.current ≠ none := by rwa [hcur]
    rw [waitEnd_asleep hne']
    simp only [TrapSys.setPlace, current, hcur]
    apply h.finish hs hsys _ (by simp)
    intro _
    refine ⟨by simp, fun _ => iff_of_true trivial hne, fun _ => .inr ⟨hstate, ?_⟩,
      ⟨False.elim, fun heq => absurd heq hinit'⟩, fun hkept hf => absurd hf (hflag' hkept), by simp,
      fun _ _ => hinit'⟩
    rw [hwait]
    rfl
  | error e => exact hreturns hr.1 hr.2.1
  | found proc exitCode => exact hreturns hr.1 hr.2

/--
The loop of `init_main`: `initproc` exits when no child is left.
-/
theorem Busy.initLoop (h : s.Busy k) {ev : ProcEvent}
    (hev : s.sys.step ev = (s.tab.waitRepeat 0).map (s.sys.recordWait 0))
    (hinit : s.current = s.tab.initproc) (hflag : k.kept → ¬s.Flagged s.current)
    (hspared : k.spared → ¬s.Flagged s.current)
    : Keeps k ((s.tab.procs s.current).cptr = none) (s.initLoop ev) := by
  obtain ⟨kids, hinv⟩ := h.sys
  obtain ⟨r, tab, sys, hrepeat, hstep, hs, hmem, hflags, hr⟩ :=
    @ProcSys.waitRepeat_spec s.sys kids 0 hinv h.goesOn.1 h.goesOn.2
  have hsys := hinv.waitRepeat h.goesOn.1 h.goesOn.2 hstep
  have hcur : sys.tab.current = s.current := hs.current
  have hinit' : s.current = sys.tab.initproc := by rw [hs.initproc]; exact hinit
  have hflags' : (sys.tab.procs s.current).flags = (s.tab.procs s.current).flags := hflags
  have hflag' : k.kept → ¬(sys.tab.procs s.current).flags &&& pfExiting ≠ 0 := by
    intro hkept hf
    exact hflag hkept (by rwa [Flagged, ← hflags'])
  have hspared' : k.spared → ¬(sys.tab.procs s.current).flags &&& pfExiting ≠ 0 := by
    intro hspared₀ hf
    exact hspared hspared₀ (by rwa [Flagged, ← hflags'])
  have hbase : s.base ev = some { s with sys } := by
    rw [base, hev]
    exact congrArg (Option.map _) hstep
  have hrepeat' : s.tab.waitRepeat 0 = some (r, tab) := hrepeat
  rw [TrapSys.initLoop, hrepeat', hbase]
  cases r with
  | asleep =>
    obtain ⟨hstate, hwait, hwaiting⟩ := hr
    have hwait : (sys.tab.procs s.current).waitState = wtChild := hwait
    have hne : sys.waiting s.current ≠ none := Option.ne_none_iff_exists'.mpr ⟨0, hwaiting⟩
    simp only [Option.map_some, TrapSys.setPlace, current, hcur]
    apply h.finish hs hsys _ (by simp)
    intro _
    refine ⟨by simp, fun _ => iff_of_true trivial hne, fun _ => .inr ⟨hstate, ?_⟩,
      ⟨fun _ => hinit', fun _ => trivial⟩, fun hkept hf => absurd hf (hflag' hkept),
      fun _ => hwaiting, fun hspared hf => absurd hf (hspared' hspared)⟩
    rw [hwait]
    rfl
  | error e =>
    obtain ⟨hrun, hnone, hcptr⟩ := hr
    have hdead : exitBy { s with sys } (.exit 0) = none := by
      have : sys.tab.doExit 0 = none := by
        rw [ProcTable.doExit, if_pos (.inr (hcur.trans hinit'))]
      simp [exitBy, base, ProcSys.step, ProcSys.exit, this]
    simp only [Option.bind_some, hdead]
    exact hcptr rfl
  | found proc exitCode =>
    obtain ⟨hrun, hnone⟩ := hr
    have hnone : sys.waiting s.current = none := hnone
    simp only [Option.map_some, TrapSys.setPlace, current, hcur]
    apply h.finish hs hsys _ (by simp)
    intro _
    exact ⟨by simp, fun _ => by simp [Place.InWait, hnone], fun _ => .inl hrun,
      ⟨fun _ => hinit', fun _ => trivial⟩, fun hkept hf => absurd hf (hflag' hkept), by simp,
      fun hspared hf => absurd hf (hspared' hspared)⟩

end Finish

section Calls

variable {panics : Prop} {ans : ForkAnswers}

/--
A `do_fork` leaves the current process where it is, a new process starts at `c`.
-/
theorem Busy.fork (h : s.Busy k) (hnone : s.sys.waiting s.current = none) (hans : s.FreshProc ans)
    (hc : c ∈ [.forkret, .userMain])
    : ∃ made t, s.fork ans c = some (made, t) ∧ t.Busy k ∧ t.current = s.current ∧
        t.tab.initproc = s.tab.initproc ∧ t.sys.waiting s.current = none ∧
        (t.Flagged s.current ↔ s.Flagged s.current) ∧
        (made = false → maxProcess ≤ s.tab.nrProcess ∨ ans.proc = none ∨
          (ans.kstack && ans.mm && ans.files) = false) ∧
        (made = true → (t.tab.procs s.current).cptr ≠ none) := by
  obtain ⟨kids, hinv⟩ := h.sys
  have hrun : s.sys.Running := ⟨h.goesOn.1, h.goesOn.2, hnone⟩
  obtain ⟨r, tab, sys, hfork, hstep, hcases⟩ := ProcSys.fork_spec hinv hrun hans
  have hsys := hinv.step hstep
  have hfork' : s.tab.doFork ans = some (r, tab) := hfork
  have hbase : s.base (.fork ans) = some { s with sys } := by rw [base, hstep, Option.map_some]
  have hcur : s.current ∈ s.tab.procList := h.current_mem
  rcases hcases with ⟨⟨e, rfl⟩, hs, hwhy⟩ | ⟨proc, pid, rfl, hproc, hnot, hs, hstate, hflags, hwaiting,
    hlist, hcptr⟩
  . have hkept := hs.kept _ hcur (by rw [show (s.sys.tab.procs s.current).state = _ from h.goesOn.2]; simp)
    have hrunning := hs.running hinv (Set.notMem_empty _) hrun
    have hstate : (sys.tab.procs s.current).state = .runnable :=
      (hs.states _ hkept (Set.notMem_empty _)).runnable h.goesOn.2
    refine ⟨false, { s with sys }, by simp only [TrapSys.fork, hfork', hbase, Option.map_some],
      h.next hs hsys hstate fun p _ hx => absurd hx (Set.notMem_empty p), hs.current, hs.initproc,
      (hs.waiting _ hkept (Set.notMem_empty _)).trans hnone, ?_, fun _ => hwhy, by simp⟩
    simp only [Flagged, TrapSys.tab, hs.flags _ hkept (Set.notMem_empty _)]
  . have hne : s.current ≠ proc := by
      intro heq
      exact hnot (ProcTable.mem_all_of_mem (heq ▸ hcur))
    have hkept := hs.kept _ hcur (by rw [show (s.sys.tab.procs s.current).state = _ from h.goesOn.2]; simp)
    have hcurState : (sys.tab.procs s.current).state = .runnable :=
      (hs.states _ hkept hne).runnable h.goesOn.2
    have hcases : c = .forkret ∨ c = .userMain := by simpa using hc
    have hnotInit : proc ≠ sys.tab.initproc := by
      rw [hs.initproc]
      intro heq
      exact hnot (ProcTable.mem_all_of_mem (heq ▸ hinv.init))
    have hfits : Fits k sys c proc := by
      refine ⟨?_, ?_, fun _ => .inl hstate, ?_, ?_, ?_, fun _ _ => hnotInit⟩
      . rcases hcases with rfl | rfl <;> simp
      . rcases hcases with rfl | rfl <;> simp [Place.InWait, hwaiting]
      . rcases hcases with rfl | rfl <;> simp [Place.Init, hnotInit]
      . intro _ hf
        simp [hflags] at hf
      . rcases hcases with rfl | rfl <;> simp
    have hfits' : ∀ p ∈ sys.tab.procList, p ≠ s.current →
        Fits k sys (Function.update s.place proc c p) p ∧ Function.update s.place proc c p ≠ .user := by
      intro p hp hpc
      by_cases hpp : p = proc
      . subst hpp
        rw [Function.update_self]
        refine ⟨hfits, ?_⟩
        rcases hcases with rfl | rfl <;> simp
      . rw [Function.update_of_ne hpp]
        obtain ⟨hfit, huser⟩ := h.fits p (hs.mem p hp hpp) hpc
        exact ⟨hfit.spares hs hp hpp, huser⟩
    have htimer : proc ∉ s.timers.map (·.proc) := by
      intro hmem
      obtain ⟨timer, ht, rfl⟩ := List.mem_map.mp hmem
      exact hnot (ProcTable.mem_all_of_mem (h.timers.sleeps timer ht).1)
    have htimers := (h.timers.spares hs fun timer ht => h.timer_alive ht).setPlace (c := c) htimer
    refine ⟨true, { s with
        sys
        place := Function.update s.place proc c
        mm := Function.update s.mm proc (s.mm s.current) }, ?_, ⟨hsys, ?_, ?_, ?_,
      ⟨htimers.ok, htimers.nodup, htimers.sleeps⟩, ?_⟩, hs.current, hs.initproc,
      (hs.waiting _ hkept hne).trans hnone, ?_, by simp, fun _ => ?_⟩
    . simp only [TrapSys.fork, hfork', hproc, hbase, Option.map_some, TrapSys.setPlace, current, hs.current]
    . simp only [GoesOn, current, TrapSys.tab, hs.current, hs.idleproc]
      exact ⟨h.goesOn.1, hcurState⟩
    . intro p hp hpc
      exact hfits' p hp (by rwa [current, hs.current] at hpc)
    . simp only [current, TrapSys.tab, hs.current, hs.initproc]
      intro hinit
      rw [Function.update_of_ne (by rw [← hs.initproc]; exact Ne.symm hnotInit)]
      exact h.initMain hinit
    . simp only [current, hs.current]
      exact h.noTimer
    . simp only [Flagged, TrapSys.tab, hs.flags _ hkept hne]
    . exact Option.ne_none_iff_exists'.mpr ⟨proc, hcptr⟩

/--
The condition under which a step loses no kill. A `do_kill` finds its target inside a system call, or
it is a process that kills itself. A killed process that has been woken up by a key does not have to
wait for another one.
-/
def Heeded (s : TrapSys) : TrapEvent → Prop
  | .syscall ebreak (.kill pid) _ =>
    ∀ p, s.tab.findProc pid = some p → s.Flagged p ∨
      if p = s.current then ebreak = false else (s.place p).Heeds
  | .goOn _ =>
    match s.place s.current with
    | .kbd _ true left => s.Flagged s.current → left ≤ s.stdin
    | _ => True
  | _ => True

/--
No `do_kill` finds `initproc`.
-/
def SparesInit (s : TrapSys) : TrapEvent → Prop
  | .syscall _ (.kill pid) _ => s.tab.findProc pid ≠ some s.tab.initproc
  | _ => True

theorem interrupted_of_sleepState {c : Place} {waitState : BitVec 32} (h : c.Heeds)
    (hc : c.sleepState = some waitState) (hsem : c ≠ .ksem false)
    : waitState &&& wtInterrupted ≠ 0 := by
  unfold Place.Heeds at h
  split at h <;> simp only [Place.sleepState, Option.some_inj] at hc
  . subst hc
    decide
  . subst hc
    decide
  . split at hc <;> simp_all
    subst hc
    decide
  . exact absurd rfl hsem
  . subst hc
    decide
  . contradiction
  . contradiction

/--
A process that is killed where it notices it still fits its place.
-/
theorem Fits.kill {sys' : ProcSys} (h : Fits k sys c p) (hs : sys.Spares sys' {p})
    (hwaiting : sys'.waiting = sys.waiting) (hstates : sys.tab.SameOrWoken sys'.tab p)
    (hwoken : (sys.tab.procs p).waitState &&& wtInterrupted ≠ 0 →
      (sys'.tab.procs p).state = .runnable)
    (hheeds : k.kept → c.Heeds) (hspares : k.spared → p ≠ sys.tab.initproc)
    : Fits k sys' c p := by
  refine ⟨?_, ?_, ?_, ?_, ?_, ?_, ?_⟩
  . intro hc
    rcases hstates with h' | h'
    . rw [h'.1]
      exact h.dead hc
    . exact absurd (h.dead hc) h'.2.2
  . rw [hwaiting]
    exact h.waiting
  . intro hc
    rcases hstates with h' | h'
    . rw [h'.1, h'.2]
      exact h.state hc
    . exact .inl h'.1
  . rw [hs.initproc]
    exact h.init
  . intro hkept _
    have hheed := hheeds hkept
    by_cases hc : c = .dead ∨ c = .ksem false
    . rcases hc with rfl | rfl <;> trivial
    . have hdead : c ≠ .dead := fun heq => hc (.inl heq)
      have hsem : c ≠ .ksem false := fun heq => hc (.inr heq)
      have hrun : (sys'.tab.procs p).state = .runnable := by
        rcases h.state hdead with hrun | ⟨-, hsleep⟩
        . exact hstates.runnable hrun
        . exact hwoken (interrupted_of_sleepState hheed hsleep hsem)
      rw [hrun]
      unfold Place.Heeds at hheed
      split at hheed <;> simp_all [Place.Notices]
  . rw [hwaiting]
    exact h.initWait
  . rw [hs.initproc]
    exact fun hspared _ => hspares hspared

/--
A `do_kill` leaves the current process running.
-/
theorem Busy.kill (h : s.Busy k) (hnone : s.sys.waiting s.current = none) {pid : Int}
    (hheeds : k.kept → ∀ p, s.tab.findProc pid = some p → p ≠ s.current → ¬s.Flagged p →
      (s.place p).Heeds)
    (hspares : k.spared → s.tab.findProc pid ≠ some s.tab.initproc)
    : ∃ t, s.base (.kill pid) = some t ∧ t.Busy k ∧ t.current = s.current ∧
        t.tab.initproc = s.tab.initproc ∧ t.sys.waiting s.current = none ∧
        (t.Flagged s.current → s.Flagged s.current ∨ s.tab.findProc pid = some s.current) := by
  obtain ⟨kids, hinv⟩ := h.sys
  obtain ⟨sys, hstep, hcases⟩ := @ProcSys.kill_spec s.sys kids pid hinv ⟨h.goesOn.1, h.goesOn.2, hnone⟩
  have hbase : s.base (.kill pid) = some { s with sys } := by rw [base, hstep, Option.map_some]
  refine ⟨_, hbase, ?_⟩
  rcases hcases with rfl | ⟨p, hfind, hp, hflag, hs, hlist, hwaiting, hstates, hwoken⟩
  . exact ⟨h, rfl, rfl, hnone, .inl⟩
  . have hmem : s.current ∈ sys.tab.procList := hlist ▸ h.current_mem
    have hrun : (sys.tab.procs s.current).state = .runnable := by
      by_cases hpc : s.current = p
      . rw [hpc]
        exact hstates.runnable (hpc ▸ h.goesOn.2)
      . exact (hs.states _ hmem hpc).runnable h.goesOn.2
    refine ⟨h.next hs (hinv.step hstep) hrun ?_, hs.current, hs.initproc, hwaiting ▸ hnone, ?_⟩
    . intro q hq hqp hne
      have hqp : q = p := hqp
      subst hqp
      obtain ⟨hfit, huser⟩ := h.fits q (hlist ▸ hq) hne
      refine ⟨hfit.kill hs hwaiting hstates hwoken (fun hkept => ?_) fun hspared => ?_, huser⟩
      . apply hheeds hkept q hfind hne
        exact fun hf => hf hflag
      . rintro rfl
        exact hspares hspared hfind
    . intro hf
      by_cases hpc : s.current = p
      . exact .inr (hpc ▸ hfind)
      . refine .inl ?_
        simp only [Flagged, TrapSys.tab, hs.flags _ hmem hpc] at hf
        exact hf

theorem Busy.doExecve (h : s.Busy k) (hnone : s.sys.waiting s.current = none)
    (hinit : s.current ≠ s.tab.initproc) (hflag : k.kept → ¬s.Flagged s.current) {argc : Int}
    {ans : ExecAnswer} {ebreak resched : Bool}
    : Keeps k panics (s.doExecve argc ans ebreak resched) := by
  have hrun : s.sys.Running := ⟨h.goesOn.1, h.goesOn.2, hnone⟩
  have hexit : ∀ {t : TrapSys}, t.Busy k → t.sys = s.sys →
      Keeps k panics (t.exitBy (.exit (-1))) := by
    intro t ht hsys
    refine ht.exitBy_of (?_ : _ = t.sys.exit (-1)) (by simpa only [current, tab, hsys] using hinit)
    rw [hsys]
    simp only [ProcSys.step, if_pos hrun]
  have hend : ∀ {t : TrapSys}, t.Busy k → t.sys = s.sys →
      Keeps k panics (t.trapEnd ebreak resched) := by
    intro t ht hsys
    refine ht.trapEnd ?_ ?_ fun hkept _ => ?_
    . simpa only [current, hsys] using hnone
    . simpa only [current, tab, hsys] using hinit
    . simpa only [Flagged, current, tab, hsys] using hflag hkept
  unfold TrapSys.doExecve
  split
  . exact hend h rfl
  next hargs =>
    have hargs' : argc ≥ 0 ∧ argc ≤ execMaxArgNum := by
      simp only [ge_iff_le, Classical.not_not] at hargs
      exact ⟨by omega, hargs.2⟩
    split
    . exact hend h rfl
    . exact hexit h rfl
    . -- the assertions of load_icode hold: the old mm is gone
      simp only [loadIcode, hargs', and_self, not_true_eq_false, if_false, current,
        Function.update_self, Bool.false_eq_true, Option.bind_eq_bind]
      split
      . exact hend ((h.setMm _).setMm _) rfl
      . exact hexit (h.setMm _) rfl

theorem Busy.doSleep (h : s.Busy k) (hnone : s.sys.waiting s.current = none)
    (hinit : s.current ≠ s.tab.initproc) (hflag : k.kept → ¬s.Flagged s.current) {time : BitVec 32}
    {ebreak resched : Bool}
    : Keeps k panics (s.doSleep time ebreak resched) := by
  unfold TrapSys.doSleep
  split
  . exact h.trapEnd hnone hinit fun hkept _ => hflag hkept
  next htime =>
    obtain ⟨t, hblock, ht, htimers, hcur, hlist, hplace⟩ :=
      @Busy.block s k (.sleep ebreak) h hnone hinit wtTimer (by simp) rfl not_false not_false
        fun hkept hf => absurd hf (hflag hkept)
    have hexpires : time.toNat ≠ 0 := by
      intro hz
      exact htime (BitVec.eq_of_toNat_eq hz)
    have hperm := @Timer.procs_addTimer t.timers { expires := time.toNat, proc := t.current }
    simp only [hblock, Option.bind_eq_bind, Option.bind_some, addTimer, hexpires, if_false]
    refine ⟨ht.sys, ht.fits, ht.user, ht.initMain, Timer.ok_addTimer ht.timers.ok hexpires time.isLt,
      ?_, ?_⟩
    . rw [hperm.nodup_iff, List.nodup_cons]
      refine ⟨?_, ht.timers.nodup⟩
      rw [htimers, hcur]
      exact h.noTimer
    . intro timer hmem
      have hproc : timer.proc ∈ t.current :: t.timers.map (·.proc) :=
        hperm.mem_iff.mp (List.mem_map_of_mem hmem)
      rcases List.mem_cons.mp hproc with heq | hproc
      . rw [heq, hcur]
        refine ⟨?_, ?_⟩
        . have := h.current_mem
          rwa [← hlist] at this
        . simp only [hplace]
          trivial
      . obtain ⟨timer', hmem', heq⟩ := List.mem_map.mp hproc
        have := ht.timers.sleeps timer' hmem'
        rwa [heq] at this

theorem Busy.stdinLoop (h : s.Busy k) (hnone : s.sys.waiting s.current = none)
    (hinit : s.current ≠ s.tab.initproc) {left : Nat} {ebreak resched : Bool}
    (hflag : k.kept → s.Flagged s.current → ebreak = false ∧ left ≤ s.stdin)
    : Keeps k panics (s.stdinLoop left ebreak resched) := by
  unfold TrapSys.stdinLoop
  split
  . refine (h.setStdin (s.stdin - left)).trapEnd hnone hinit fun hkept hebreak hf => ?_
    have := (hflag hkept hf).1
    rw [hebreak] at this
    contradiction
  next hleft =>
    obtain ⟨t, hblock, ht, -⟩ := @Busy.block { s with stdin := 0 } k
      (.kbd ebreak false (left - s.stdin)) (h.setStdin 0) hnone hinit wtKbd (by simp) rfl not_false
      not_false fun hkept hf => absurd (hflag hkept hf).2 hleft
    rw [hblock]
    exact ht

theorem Busy.sem (h : s.Busy k) (hnone : s.sys.waiting s.current = none)
    (hinit : s.current ≠ s.tab.initproc) {ebreak : Bool}
    (hflag : k.kept → s.Flagged s.current → ebreak = false)
    : Keeps k panics (s.block wtKsem (.ksem ebreak)) := by
  obtain ⟨t, hblock, ht, -⟩ := @Busy.block s k (.ksem ebreak) h hnone hinit wtKsem (by simp) rfl
    not_false not_false fun hkept hf => by
      rw [hflag hkept hf]
      trivial
  rw [hblock]
  exact ht

end Calls

section Wakeups

/--
A process that runs in its place is busy.
-/
theorem Inv.busy (h : s.Inv k) (hgo : s.GoesOn) (hsleeps : ¬(s.place s.current).Sleeps)
    : s.Busy k := by
  obtain ⟨kids, hinv⟩ := h.sys
  have hcur : s.current ∈ s.tab.procList := hinv.current_mem hgo.1
  refine ⟨h.sys, hgo, ?_, ?_, h.timers, ?_⟩
  . intro p hp hne
    exact ⟨h.fits p hp, fun huser => hne (h.user p hp huser)⟩
  . intro hne hinit
    have hlist := h.initMain hinit
    rw [hlist, List.mem_singleton] at hcur
    exact hne hcur
  . intro hmem
    obtain ⟨timer, ht, heq⟩ := List.mem_map.mp hmem
    have := (h.timers.sleeps timer ht).2
    rw [heq] at this
    exact hsleeps this

/--
Others are woken up.
-/
theorem Inv.wakes (h : s.Inv k) (hs : s.sys.Spares sys ∅) (hsys : ∃ kids, sys.Inv kids)
    (hlist : sys.tab.procList = s.tab.procList)
    : Inv k { s with sys } := by
  refine ⟨hsys, ?_, ?_, ?_, h.timers.spares hs fun timer ht => h.timer_alive ht⟩
  . intro p hp
    exact (h.fits p (hs.mem p hp (Set.notMem_empty p))).spares hs hp (Set.notMem_empty p)
  . intro p hp huser
    have := h.user p (hs.mem p hp (Set.notMem_empty p)) huser
    exact this.trans hs.current.symm
  . simp only [tab, hs.initproc, hlist]
    exact h.initMain

/--
What `s` and `sys` have in common when timers run out: processes have been woken up.
-/
structure Woken (s sys : ProcSys) : Prop where
  inv : ∃ kids, sys.Inv kids
  spares : s.Spares sys ∅
  procList : sys.tab.procList = s.tab.procList

theorem Woken.wakeup {s : ProcSys} (h : Woken s sys) (hp : p ∈ s.tab.procList)
    (halive : (sys.tab.procs p).state ≠ .zombie)
    : ∃ sys', sys.step (.wakeup p) = some sys' ∧ Woken s sys' := by
  obtain ⟨kids, hinv⟩ := h.inv
  obtain ⟨sys', hstep, hs, -, hlist⟩ := ProcSys.wakeup_spec (h.procList ▸ hp) halive
  exact ⟨sys', hstep, hinv.step hstep, h.spares.trans hs, hlist.trans h.procList⟩

theorem runTimers_ok {s : ProcSys} {place : Nat → Place} {timers : List Timer} (h : Woken s sys)
    (hfits : ∀ timer ∈ timers, timer.proc ∈ s.tab.procList ∧ (place timer.proc).Sleeps ∧
      Fits k s (place timer.proc) timer.proc)
    (htotal : Timer.total timers < 2 ^ 32)
    : ∃ rest sys', runTimers timers sys = some (rest, sys') ∧ Woken s sys' ∧ rest <:+ timers ∧
        Timer.Ok rest := by
  induction timers generalizing sys with
  | nil => exact ⟨[], sys, rfl, h, List.suffix_refl _, by simp, htotal⟩
  | cons timer rest ih =>
    unfold runTimers
    split
    . obtain ⟨hmem, hsleeps, hfit⟩ := hfits timer List.mem_cons_self
      have hmem' : timer.proc ∈ sys.tab.procList := h.procList.symm ▸ hmem
      have hfit' := hfit.spares h.spares hmem' (Set.notMem_empty _)
      have hdead := Place.not_dead_of_sleeps hsleeps
      obtain ⟨sys', hstep, h'⟩ := h.wakeup hmem (hfit'.alive hdead)
      have hassert : ¬((sys.tab.procs timer.proc).waitState ≠ 0 ∧
          (sys.tab.procs timer.proc).waitState &&& wtInterrupted = 0) := by
        intro ⟨hne, hz⟩
        obtain ⟨kids, hinv⟩ := h.inv
        rcases hfit'.state hdead with hrun | ⟨-, hsleep⟩
        . exact hne (hinv.waitState_of_runnable hmem' hrun)
        . unfold Place.Sleeps at hsleeps
          split at hsleeps
          next hplace =>
            rw [hplace, Place.sleepState, Option.some_inj] at hsleep
            rw [← hsleep] at hz
            contradiction
          . exact hsleeps
      simp only [hassert, if_false, hstep, Option.bind_some]
      obtain ⟨rest', sys'', hrun, h'', hsuffix, hok⟩ := ih h'
        (fun timer ht => hfits timer (List.mem_cons_of_mem _ ht))
        (by rw [Timer.total_cons] at htotal; omega)
      exact ⟨rest', sys'', hrun, h'', hsuffix.trans (List.suffix_cons ..), hok⟩
    next hne =>
      refine ⟨_, _, rfl, h, List.suffix_refl _, ?_, htotal⟩
      intro timer' ht
      rw [List.head?_cons, Option.mem_def, Option.some_inj] at ht
      rwa [← ht]

/--
The assertions of `run_timer_list` hold, and it only wakes processes up.
-/
theorem Inv.runTimerList (h : s.Inv k)
    : ∃ t, s.runTimerList = some t ∧ t.Inv k ∧ t.current = s.current ∧ t.place = s.place ∧
        t.tab.idleproc = s.tab.idleproc ∧ t.tab.initproc = s.tab.initproc ∧
        Woken s.sys t.sys := by
  have hrefl : Woken s.sys s.sys := ⟨h.sys, .refl, rfl⟩
  unfold TrapSys.runTimerList
  split
  . exact ⟨s, rfl, h, rfl, rfl, rfl, rfl, hrefl⟩
  next timer rest htimers =>
    have hok := h.timers.ok
    rw [htimers] at hok
    have hne : timer.expires ≠ 0 := hok.first timer rfl
    have hfits : ∀ timer' ∈ { timer with expires := timer.expires - 1 } :: rest,
        timer'.proc ∈ s.tab.procList ∧ (s.place timer'.proc).Sleeps ∧
          Fits k s.sys (s.place timer'.proc) timer'.proc := by
      have hall : ∀ timer' ∈ timer :: rest, timer'.proc ∈ s.tab.procList ∧
          (s.place timer'.proc).Sleeps ∧ Fits k s.sys (s.place timer'.proc) timer'.proc := by
        intro timer' ht
        obtain ⟨hmem, hsleeps⟩ := h.timers.sleeps timer' (htimers ▸ ht)
        exact ⟨hmem, hsleeps, h.fits _ hmem⟩
      intro timer' ht
      rcases List.mem_cons.mp ht with rfl | ht
      . exact hall timer List.mem_cons_self
      . exact hall timer' (List.mem_cons_of_mem _ ht)
    have htotal : Timer.total ({ timer with expires := timer.expires - 1 } :: rest) < 2 ^ 32 := by
      have := hok.total_lt
      rw [Timer.total_cons] at this ⊢
      simp only
      omega
    obtain ⟨rest', sys, hrun, hwoken, hsuffix, hok'⟩ := runTimers_ok hrefl hfits htotal
    have hinv := h.wakes hwoken.spares hwoken.inv hwoken.procList
    refine ⟨{ s with timers := rest', sys }, by simp only [hne, if_false, hrun, Option.map_some], ?_,
      hwoken.spares.current, rfl, hwoken.spares.idleproc, hwoken.spares.initproc, hwoken⟩
    refine ⟨hinv.sys, hinv.fits, hinv.user, hinv.initMain, hok', ?_, ?_⟩
    . have hnodup := h.timers.nodup
      rw [htimers] at hnodup
      exact List.Nodup.sublist (hsuffix.sublist.map _) hnodup
    . intro timer' ht
      obtain ⟨hmem, hsleeps, -⟩ := hfits timer' (hsuffix.subset ht)
      exact ⟨(congrArg _ hwoken.procList).mpr hmem, hsleeps⟩

/--
A key ends the wait of a process that reads from the keyboard.
-/
theorem Inv.key (h : s.Inv k) (hp : p ∈ s.tab.procList) {ebreak : Bool} {left : Nat}
    (hplace : s.place p = .kbd ebreak false left)
    : ∃ sys, s.sys.step (.wakeup p) = some sys ∧ Woken s.sys sys ∧
        Inv k { s.setPlace p (.kbd ebreak true left) with sys } := by
  have hfit := h.fits p hp
  rw [hplace] at hfit
  obtain ⟨kids, hinv⟩ := h.sys
  obtain ⟨sys, hstep, hs, hrun, hlist⟩ := ProcSys.wakeup_spec hp (hfit.alive (by simp))
  have hsys := hinv.step hstep
  have hfit' := hfit.spares hs (hlist.symm ▸ hp) (Set.notMem_empty p)
  have hplaces : ∀ q, (s.setPlace p (.kbd ebreak true left)).place q =
      if q = p then .kbd ebreak true left else s.place q := by
    intro q
    simp [TrapSys.setPlace, Function.update_apply]
  have hnoTimer : p ∉ s.timers.map (·.proc) := by
    intro hmem
    obtain ⟨timer, ht, heq⟩ := List.mem_map.mp hmem
    have := (h.timers.sleeps timer ht).2
    rw [heq, hplace] at this
    exact this
  have hwakes := h.wakes hs hsys hlist
  have htimers := hwakes.timers.setPlace (c := .kbd ebreak true left) hnoTimer
  refine ⟨sys, hstep, ⟨hsys, hs, hlist⟩, hsys, ?_, ?_, ?_, ⟨htimers.ok, htimers.nodup, htimers.sleeps⟩⟩
  . intro q hq
    simp only [hplaces]
    split
    next heq =>
      subst heq
      refine ⟨by simp, fun _ => hfit'.waiting (by simp), fun _ => .inl hrun, hfit'.init, ?_, by simp,
        hfit'.spared⟩
      intro hkept hflag
      have hnotices := hfit'.flagged hkept hflag
      cases ebreak with
      | true => exact hnotices.elim
      | false => exact hrun
    next hne => exact hwakes.fits q hq
  . intro q hq
    simp only [hplaces]
    split
    . simp
    . exact hwakes.user q hq
  . simp only [tab, hplaces]
    split
    . simp
    . exact hwakes.initMain

theorem Inv.wakeupKbd {procs : List Nat} (h : s.Inv k) (hsub : ∀ p ∈ procs, p ∈ s.tab.procList)
    : ∃ t, wakeupKbd procs s = some t ∧ t.Inv k ∧ t.current = s.current ∧
        t.tab.idleproc = s.tab.idleproc := by
  induction procs generalizing s with
  | nil => exact ⟨s, rfl, h, rfl, rfl⟩
  | cons p procs ih =>
    unfold TrapSys.wakeupKbd
    split
    next ebreak left hplace =>
      obtain ⟨sys, hstep, hwoken, hinv⟩ := h.key (hsub p List.mem_cons_self) hplace
      have hbase : (s.setPlace p (.kbd ebreak true left)).base (.wakeup p) =
          some { s.setPlace p (.kbd ebreak true left) with sys } := by
        rw [base, show (s.setPlace p (.kbd ebreak true left)).sys = s.sys from rfl, hstep]
        rfl
      rw [hbase, Option.bind_some]
      obtain ⟨t, hrun, ht, hcur, hidle⟩ := ih hinv fun q hq =>
        (congrArg (q ∈ ·) hwoken.procList).mpr (hsub q (List.mem_cons_of_mem _ hq))
      exact ⟨t, hrun, ht, hcur.trans hwoken.spares.current, hidle.trans hwoken.spares.idleproc⟩
    . exact ih h fun q hq => hsub q (List.mem_cons_of_mem _ hq)

theorem Inv.setStdin (h : s.Inv k) (stdin : Nat) : Inv k { s with stdin } :=
  ⟨h.sys, h.fits, h.user, h.initMain, ⟨h.timers.ok, h.timers.nodup, h.timers.sleeps⟩⟩

theorem Inv.devStdinWrite (h : s.Inv k)
    : ∃ t, s.devStdinWrite = some t ∧ t.Inv k ∧ t.current = s.current ∧
        t.tab.idleproc = s.tab.idleproc :=
  (h.setStdin _).wakeupKbd fun _ hp => hp

end Wakeups

section Steps

variable {panics : Prop}

theorem Inv.current_mem (h : s.Inv k) (hidle : s.current ≠ s.tab.idleproc)
    : s.current ∈ s.tab.procList := by
  obtain ⟨kids, hinv⟩ := h.sys
  exact hinv.current_mem hidle

theorem Fits.waiting_none (h : Fits k sys c p) (hdead : c ≠ .dead) (hwait : ¬c.InWait)
    : sys.waiting p = none :=
  Classical.byContradiction fun hne => hwait ((h.waiting hdead).mpr hne)

theorem Fits.ne_init (h : Fits k sys c p) (hinit : ¬c.Init) : p ≠ sys.tab.initproc :=
  fun heq => hinit (h.init.mpr heq)

theorem Fits.not_spared (h : Fits k s.sys c p) (hinit : c.Init) : k.spared → ¬s.Flagged p :=
  fun hspared hf => h.spared hspared hf (h.init.mp hinit)

theorem Fits.not_flagged (h : Fits k s.sys c p) (hnot : ¬c.Notices (s.tab.procs p).state)
    : k.kept → ¬s.Flagged p :=
  fun hkept hf => hnot (h.flagged hkept hf)

/--
A process in user mode runs and has not been killed.
-/
theorem Inv.user_busy (h : s.Inv k) (hidle : s.current ≠ s.tab.idleproc)
    (hplace : s.place s.current = .user)
    : s.Busy k ∧ s.sys.waiting s.current = none ∧ s.current ≠ s.tab.initproc ∧
        (k.kept → ¬s.Flagged s.current) := by
  have hfit := h.fits _ (h.current_mem hidle)
  rw [hplace] at hfit
  have hgo : s.GoesOn := by
    refine ⟨hidle, (hfit.state (by simp)).resolve_right ?_⟩
    intro hsleep
    exact absurd hsleep.2 (by simp [Place.sleepState])
  refine ⟨h.busy hgo ?_, hfit.waiting_none (by simp) not_false, hfit.ne_init not_false,
    hfit.not_flagged not_false⟩
  rw [hplace]
  exact not_false

theorem Inv.tick (h : s.Inv k) {key resched : Bool} : Keeps k panics (s.tick key resched) := by
  obtain ⟨t, hrun, ht, hcur, hplace, hidle, -⟩ := h.runTimerList
  have hkey : ∃ u, t.consIntr key = some u ∧ u.Inv k := by
    cases key with
    | true =>
      obtain ⟨u, hu, hinv, -⟩ := ht.devStdinWrite
      exact ⟨u, hu, hinv⟩
    | false => exact ⟨t, rfl, ht⟩
  obtain ⟨u, hu, hinv⟩ := hkey
  simp only [TrapSys.tick, hrun, Option.bind_eq_bind, Option.bind_some, hu]
  split
  next hcond =>
    obtain ⟨hbusy, hnone, hinit, hflag⟩ := hinv.user_busy hcond.1 hcond.2
    exact hbusy.trapEnd hnone hinit fun hkept _ => hflag hkept
  . exact hinv

/--
A system call.
-/
theorem Inv.syscall (h : s.Inv k) (hgo : s.GoesOn) (hplace : s.place s.current = .user)
    {ebreak resched : Bool} {call : Syscall} (hans : ∀ ans, call = .fork ans → s.FreshProc ans)
    (hheeds : k.kept → ∀ pid, call = .kill pid → ∀ p, s.tab.findProc pid = some p → s.Flagged p ∨
      if p = s.current then ebreak = false else (s.place p).Heeds)
    (hspares : k.spared → ∀ pid, call = .kill pid → s.tab.findProc pid ≠ some s.tab.initproc)
    : Keeps k panics (s.syscall ebreak call resched) := by
  obtain ⟨hbusy, hnone, hinit, hflag⟩ := h.user_busy hgo.1 hplace
  have hrun : s.sys.Running := ⟨hgo.1, hgo.2, hnone⟩
  have hend : Keeps k panics (s.trapEnd ebreak resched) :=
    hbusy.trapEnd hnone hinit fun hkept _ => hflag hkept
  unfold TrapSys.syscall
  cases call with
  | exit errorCode =>
    refine hbusy.exitBy_of (?_ : _ = s.sys.exit errorCode) hinit
    simp only [ProcSys.step, if_pos hrun]
  | fork ans =>
    obtain ⟨made, t, hfork, ht, hcur, hinitproc, hwaiting, hflags, -⟩ :=
      @Busy.fork s k .forkret ans hbusy hnone (hans ans rfl) (by simp)
    simp only [hfork, Option.bind_some]
    refine ht.trapEnd (hcur ▸ hwaiting) (by rwa [hcur, hinitproc]) fun hkept _ => ?_
    rw [hcur, hflags]
    exact hflag hkept
  | wait pid codeStore =>
    simp only
    by_cases hstore : codeStore = some false
    . -- user_mem_check refuses the pointer
      have hbase : s.base (.wait pid codeStore) = some s := by
        have hupdate : Function.update s.sys.waiting s.sys.tab.current none = s.sys.waiting := by
          rw [← show s.sys.waiting s.sys.tab.current = none from hnone, Function.update_eq_self]
        simp [base, ProcSys.step, hrun, ProcTable.doWait, hstore, ProcSys.recordWait, hupdate]
      rw [hbase, Option.bind_some, waitEnd_none hnone]
      exact hend
    . refine @Busy.wait s k panics hbusy _ pid ?_ hinit hflag ebreak resched
      simp only [ProcSys.step, if_pos hrun, ProcTable.doWait, if_neg hstore]
      rfl
  | exec argc ans => exact hbusy.doExecve hnone hinit hflag
  | yield => exact hbusy.trapEnd hnone hinit fun hkept _ => hflag hkept
  | kill pid =>
    obtain ⟨t, hkill, ht, hcur, hinitproc, hwaiting, hself⟩ := @Busy.kill s k hbusy hnone pid (by
      intro hkept p hfind hne hf
      have := (hheeds hkept pid rfl p hfind).resolve_left hf
      rwa [if_neg hne] at this) fun hspared => hspares hspared pid rfl
    simp only [hkill, Option.bind_some]
    refine ht.trapEnd (hcur ▸ hwaiting) (by rwa [hcur, hinitproc]) fun hkept hebreak hf => ?_
    rw [hcur] at hf
    have hfind := (hself hf).resolve_left (hflag hkept)
    have := (hheeds hkept pid rfl _ hfind).resolve_left (hflag hkept)
    rw [if_pos rfl, hebreak] at this
    contradiction
  | sleep time => exact hbusy.doSleep hnone hinit hflag
  | stdinRead len => exact hbusy.stdinLoop hnone hinit fun hkept hf => absurd hf (hflag hkept)
  | sem => exact hbusy.sem hnone hinit fun hkept hf => absurd hf (hflag hkept)
  | other => exact hend

theorem resume_killed {pid : Int} (hgo : s.GoesOn) (hpid : s.sys.waiting s.current = some pid)
    (hflag : s.Flagged s.current)
    : s.sys.step .resume = s.sys.exit (-9) := by
  have hpid : s.sys.waiting s.sys.tab.current = some pid := hpid
  simp only [ProcSys.step, hpid]
  exact (if_pos hgo).trans (if_pos hflag)

theorem resume_waits {pid : Int} (hgo : s.GoesOn) (hpid : s.sys.waiting s.current = some pid)
    (hflag : ¬s.Flagged s.current)
    : s.sys.step .resume = (s.tab.waitRepeat pid).map (s.sys.recordWait pid) := by
  have hpid : s.sys.waiting s.sys.tab.current = some pid := hpid
  simp only [ProcSys.step, hpid]
  exact (if_pos hgo).trans (if_neg hflag)

/--
The loop of `init_main` goes on, whether `do_wait` is called or goes on.
-/
theorem Busy.initLoop_panics (h : s.Busy k) {ev : ProcEvent}
    (hev : s.sys.step ev = (s.tab.waitRepeat 0).map (s.sys.recordWait 0))
    (hinit : s.current = s.tab.initproc) (hflag : k.kept → ¬s.Flagged s.current)
    (hspared : k.spared → ¬s.Flagged s.current)
    : Keeps k s.Panics (s.initLoop ev) := by
  have hloop := h.initLoop hev hinit hflag hspared
  cases hres : s.initLoop ev with
  | none =>
    rw [hres] at hloop
    exact ⟨hinit, .inr hloop⟩
  | some t =>
    rw [hres] at hloop
    exact hloop

theorem Inv.goOn (h : s.Inv k) (hgo : s.GoesOn)
    (hheeds : k.kept → ∀ ebreak left, s.place s.current = .kbd ebreak true left →
      s.Flagged s.current → left ≤ s.stdin)
    {resched : Bool}
    : Keeps k s.Panics (s.goOn resched) := by
  have hmem := h.current_mem hgo.1
  have hfit := h.fits _ hmem
  have hbusy : ¬(s.place s.current).Sleeps → s.Busy k := h.busy hgo
  unfold TrapSys.goOn
  split
  next hc =>
    rw [hc] at hfit hbusy
    exact (hbusy not_false).setPlace (hfit.waiting_none (by simp) not_false)
      (hfit.not_flagged not_false) (by simp) (hfit.ne_init not_false)
  next hc =>
    rw [hc] at hfit hbusy
    exact (hbusy not_false).setPlace (hfit.waiting_none (by simp) not_false)
      (hfit.not_flagged not_false) (by simp) (hfit.ne_init not_false)
  next hc =>
    rw [hc] at hfit hbusy
    have hpid := hfit.initWait rfl
    have hinit : s.current = s.tab.initproc := hfit.init.mp trivial
    split
    next hflag =>
      -- initproc has been killed
      have hdead : s.sys.exit (-9) = none := by
        have : s.sys.tab.doExit (-9) = none := by
          rw [ProcTable.doExit, if_pos (.inr hinit)]
        simp [ProcSys.exit, this]
      simp only [exitBy, base, resume_killed hgo hpid hflag, hdead]
      exact ⟨hinit, .inl hflag⟩
    next hflag =>
      exact (hbusy not_false).initLoop_panics (resume_waits hgo hpid hflag) hinit (fun _ => hflag)
        fun _ => hflag
  next hc =>
    rw [hc] at hfit hbusy
    have hnone := hfit.waiting_none (by simp) not_false
    have hinit : s.current = s.tab.initproc := hfit.init.mp trivial
    have hrun : s.sys.Running := ⟨hgo.1, hgo.2, hnone⟩
    apply (hbusy not_false).initLoop_panics _ hinit (hfit.not_flagged not_false)
      (hfit.not_spared trivial)
    simp only [ProcSys.step, if_pos hrun, ProcTable.doWait, reduceCtorEq, if_false]
    rfl
  next ebreak hc =>
    rw [hc] at hfit hbusy
    obtain ⟨pid, hpid⟩ := Option.ne_none_iff_exists'.mp ((hfit.waiting (by simp)).mp trivial)
    have hinit := hfit.ne_init not_false
    split
    next hflag => exact (hbusy not_false).exitBy_of (resume_killed hgo hpid hflag) hinit
    next hflag =>
      exact (hbusy not_false).wait (resume_waits hgo hpid hflag) hinit fun _ => hflag
  next ebreak hc =>
    rw [hc] at hfit
    have hnone := hfit.waiting_none (by simp) not_false
    have hprocs := @Timer.procs_delTimer s.timers s.current
    have hsub : ∀ timer ∈ Timer.delTimer s.current s.timers, ∃ timer' ∈ s.timers,
        timer'.proc = timer.proc ∧ timer.proc ≠ s.current := by
      intro timer ht
      have hmem := List.mem_map_of_mem (f := (·.proc)) ht
      rw [hprocs, h.timers.nodup.mem_erase_iff] at hmem
      obtain ⟨timer', ht', heq⟩ := List.mem_map.mp hmem.2
      exact ⟨timer', ht', heq, hmem.1⟩
    have hbusy : Busy k { s with timers := Timer.delTimer s.current s.timers } := by
      refine ⟨h.sys, hgo, ?_, ?_, ⟨Timer.ok_delTimer h.timers.ok, ?_, ?_⟩, ?_⟩
      . intro p hp hne
        exact ⟨h.fits p hp, fun huser => hne (h.user p hp huser)⟩
      . intro hne hinitMain
        have hlist := h.initMain hinitMain
        rw [hlist, List.mem_singleton] at hmem
        exact hne hmem
      . rw [hprocs]
        exact h.timers.nodup.erase _
      . intro timer ht
        obtain ⟨timer', ht', heq, -⟩ := hsub timer ht
        have := h.timers.sleeps timer' ht'
        rwa [heq] at this
      . intro hmem
        obtain ⟨timer, ht, heq⟩ := List.mem_map.mp hmem
        obtain ⟨-, -, -, hne⟩ := hsub timer ht
        exact hne heq
    refine hbusy.trapEnd hnone (hfit.ne_init not_false) fun hkept hebreak hf => ?_
    have hnotices := hfit.flagged hkept hf
    rw [hebreak] at hnotices
    exact hnotices
  next ebreak key left hc =>
    have hkey := fun hkept => hheeds hkept ebreak left
    rw [hc] at hfit hbusy hkey
    have hnone := hfit.waiting_none (by simp) not_false
    have hinit := hfit.ne_init not_false
    have hebreak : k.kept → s.Flagged s.current → ebreak = false := by
      intro hkept hf
      have hnotices := hfit.flagged hkept hf
      cases ebreak with
      | true => exact hnotices.elim
      | false => rfl
    split
    next htrue =>
      refine (hbusy not_false).stdinLoop hnone hinit fun hkept hf => ⟨hebreak hkept hf, ?_⟩
      exact hkey hkept (by rw [htrue]) hf
    next hfalse =>
      refine (hbusy not_false).trapEnd hnone hinit fun hkept htrue hf => ?_
      rw [hebreak hkept hf] at htrue
      contradiction
  next => exact h

theorem Inv.initMain_step (h : s.Inv k) (hgo : s.GoesOn) (hplace : s.place s.current = .initMain)
    {ans : ForkAnswers} (hfresh : s.FreshProc ans) (hproc : ans.proc ≠ none) (hkstack : ans.kstack)
    (hmm : ans.mm) (hfiles : ans.files)
    : Keeps k panics (s.initMain ans) := by
  have hfit := h.fits _ (h.current_mem hgo.1)
  rw [hplace] at hfit
  have hnone := hfit.waiting_none (by simp) not_false
  have hinit : s.current = s.tab.initproc := hfit.init.mp trivial
  have hbusy := h.busy hgo (by rw [hplace]; exact not_false)
  obtain ⟨made, t, hfork, ht, hcur, hinitproc, hwaiting, hflags, hwhy, hcptr⟩ :=
    @Busy.fork s k .userMain ans hbusy hnone hfresh (by simp)
  have hmade : made = true := by
    rw [← Bool.not_eq_false]
    intro hfalse
    -- idleproc and initproc are the only processes
    obtain ⟨kids, hinv⟩ := h.sys
    have hnr := hinv.registered.nrProcess
    have hlist : s.sys.tab.procList = [s.tab.initproc] := h.initMain (hinit ▸ hplace)
    rw [hlist] at hnr
    rcases hwhy hfalse with hmax | hnone | hfails
    . have : maxProcess ≤ 2 := by
        rw [show s.tab.nrProcess = 2 from hnr] at hmax
        exact hmax
      simp [maxProcess] at this
    . exact hproc hnone
    . simp [hkstack, hmm, hfiles] at hfails
  subst hmade
  have hrun : t.sys.Running := ⟨ht.goesOn.1, ht.goesOn.2, (hcur ▸ hwaiting :)⟩
  have hflag : k.kept → ¬t.Flagged t.current := by
    intro hkept
    rw [hcur, hflags]
    exact hfit.not_flagged not_false hkept
  have hspared : k.spared → ¬t.Flagged t.current := by
    intro hspared
    rw [hcur, hflags]
    exact hfit.not_spared trivial hspared
  have hloop := @Busy.initLoop t k ht (.wait 0 none) (by
    simp only [ProcSys.step, if_pos hrun, ProcTable.doWait, reduceCtorEq, if_false]
    rfl) (by rw [hcur, hinitproc, hinit]) hflag hspared
  simp only [TrapSys.initMain, hfork, Option.bind_eq_bind, Option.bind_some, if_true]
  cases hres : t.initLoop (.wait 0 none) with
  | none =>
    rw [hres] at hloop
    have hnone : (t.tab.procs t.current).cptr = none := hloop
    rw [hcur] at hnone
    exact absurd hnone (hcptr rfl)
  | some u =>
    rw [hres] at hloop
    exact hloop

theorem Inv.schedule (h : s.Inv k) {next : Nat}
    (hplace : s.current = s.tab.idleproc ∨ s.place s.current ≠ .user)
    (hnext : ProcSys.MaySchedule s.tab next)
    : Keeps k panics (s.base (.schedule next)) := by
  obtain ⟨kids, hinv⟩ := h.sys
  have hnext' : ProcSys.MaySchedule s.sys.tab next := hnext
  have hstep : s.sys.step (.schedule next) =
      some { s.sys with tab := { s.sys.tab with current := next } } := by
    simp only [ProcSys.step, if_pos hnext']
  rw [base, hstep, Option.map_some]
  refine ⟨hinv.step hstep, ?_, ?_, h.initMain, ⟨h.timers.ok, h.timers.nodup, h.timers.sleeps⟩⟩
  . intro p hp
    have hfit := h.fits p hp
    exact ⟨hfit.dead, hfit.waiting, hfit.state, hfit.init, hfit.flagged, hfit.initWait,
      hfit.spared⟩
  . intro p hp huser
    have hcur := h.user p hp huser
    rcases hplace with hidle | hplace
    . rw [hcur, hidle] at hp
      exact absurd hp hinv.registered.idle_notMem
    . rw [← hcur] at hplace
      exact absurd huser hplace

/--
Every event that can come keeps the invariant, and the only one without a result is an exit of
`initproc`.
-/
theorem Inv.step (h : s.Inv k) {ev : TrapEvent} (hev : s.Enabled ev) (hheeds : k.kept → s.Heeded ev)
    (hspares : k.spared → s.SparesInit ev)
    : Keeps k s.Panics (s.step ev) := by
  cases ev with
  | syscall ebreak call resched =>
    obtain ⟨hgo, hplace, hcall⟩ := hev
    apply h.syscall hgo hplace
    . rintro ans rfl
      exact hcall
    . rintro hkept pid rfl
      exact hheeds hkept
    . rintro hspared pid rfl
      exact hspares hspared
  | goOn resched =>
    obtain ⟨hgo, hplace, -⟩ := hev
    apply h.goOn hgo
    intro hkept ebreak left hc
    have := hheeds hkept
    rw [Heeded, hc] at this
    exact this
  | initMain ans =>
    obtain ⟨hgo, hplace, hfresh, hproc, hkstack, hmm, hfiles⟩ := hev
    exact h.initMain_step hgo hplace hfresh hproc hkstack hmm hfiles
  | userMain ans =>
    obtain ⟨hgo, hplace, -⟩ := hev
    have hfit := h.fits _ (h.current_mem hgo.1)
    have hbusy := h.busy hgo
    rw [hplace] at hfit hbusy
    exact (hbusy not_false).doExecve (hfit.waiting_none (by simp) not_false) (hfit.ne_init not_false)
      (hfit.not_flagged not_false)
  | semTaken again resched =>
    obtain ⟨hgo, hplace⟩ := hev
    have hfit := h.fits _ (h.current_mem hgo.1)
    have hbusy := h.busy hgo
    unfold TrapSys.step
    simp only
    split
    next ebreak hc =>
      rw [hc] at hfit hbusy
      have hnone := hfit.waiting_none (by simp) not_false
      have hinit := hfit.ne_init not_false
      have hebreak : k.kept → s.Flagged s.current → ebreak = false := by
        intro hkept hf
        have hnotices := hfit.flagged hkept hf
        cases ebreak with
        | true => exact hnotices.elim
        | false => rfl
      split
      . exact (hbusy not_false).sem hnone hinit hebreak
      . refine (hbusy not_false).trapEnd hnone hinit fun hkept htrue hf => ?_
        rw [hebreak hkept hf] at htrue
        contradiction
    . exact h
  | semUp proc =>
    obtain ⟨hmem, hplace, hstate⟩ := hev
    obtain ⟨kids, hinv⟩ := h.sys
    obtain ⟨sys, hstep, hs, -, hlist⟩ := @ProcSys.wakeup_spec s.sys proc hmem (by
      rw [show (s.sys.tab.procs proc).state = _ from hstate]
      simp)
    simp only [TrapSys.step, base, hstep, Option.map_some]
    exact h.wakes hs (hinv.step hstep) hlist
  | tick key resched => exact h.tick
  | schedule next => exact h.schedule hev.1 hev.2

end Steps

end TrapSys
end Ucore

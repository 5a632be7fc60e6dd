import Mathlib
import Ucore.Kern.Process.ProcInvariant

/-!
This module contains what a step of the process system leaves to the processes that it is not about:
they stay as they are or get woken up.
-/

namespace Ucore

open ProcTable

namespace ProcTable

/--
A process keeps its state and its wait state, or it is woken up.
-/
def SameOrWoken (s s' : ProcTable) (p : Nat) : Prop :=
  ((s'.procs p).state = (s.procs p).state ∧ (s'.procs p).waitState = (s.procs p).waitState) ∨
    ((s'.procs p).state = .runnable ∧ (s'.procs p).waitState = 0 ∧ (s.procs p).state ≠ .zombie)

variable {s s' s'' : ProcTable} {p q : Nat}

theorem SameOrWoken.refl : s.SameOrWoken s p := .inl ⟨rfl, rfl⟩

theorem SameOrWoken.of_eq (h : s'.procs p = s.procs p) : s.SameOrWoken s' p := .inl (by rw [h]; simp)

theorem SameOrWoken.alive (h : s.SameOrWoken s' p) (halive : (s.procs p).state ≠ .zombie)
    : (s'.procs p).state ≠ .zombie := by
  rcases h with h | h
  . rwa [h.1]
  . simp [h.1]

theorem SameOrWoken.runnable (h : s.SameOrWoken s' p) (hrun : (s.procs p).state = .runnable)
    : (s'.procs p).state = .runnable := by
  rcases h with h | h
  . rwa [h.1]
  . exact h.1

theorem SameOrWoken.trans (h : s.SameOrWoken s' p) (h' : s'.SameOrWoken s'' p)
    : s.SameOrWoken s'' p := by
  rcases h' with h' | h'
  . rcases h with h | h
    . exact .inl ⟨h'.1.trans h.1, h'.2.trans h.2⟩
    . exact .inr ⟨h'.1.trans h.1, h'.2.trans h.2.1, h.2.2⟩
  . refine .inr ⟨h'.1, h'.2.1, ?_⟩
    intro hz
    rcases h with h | h
    . exact h'.2.2 (h.1.trans hz)
    . exact h.2.2 hz

theorem wakeupProc_spec (halive : (s.procs p).state ≠ .zombie)
    : ∃ s', s.wakeupProc p = some s' ∧ s' = { s with procs := s'.procs } ∧
        (s'.procs p).state = .runnable ∧ (∀ x, (s'.procs x).flags = (s.procs x).flags) ∧
        ∀ x, s.SameOrWoken s' x := by
  unfold wakeupProc
  rw [if_neg halive]
  split
  . refine ⟨_, rfl, rfl, by simp [modify_procs], ?_, ?_⟩ <;> intro x
    . rw [modify_procs]
      split <;> simp_all
    . by_cases hx : x = p
      . subst hx
        exact .inr ⟨by simp [modify_procs], by simp [modify_procs], halive⟩
      . exact .of_eq (by rw [modify_procs, if_neg hx])
  next hrun => exact ⟨s, rfl, rfl, by simpa using hrun, fun _ => rfl, fun _ => .refl⟩

theorem exiting_flags {parent x : Nat} {errorCode : Int}
    : ((s.exiting parent errorCode).procs x).flags = (s.procs x).flags := by
  unfold exiting
  split <;> simp only [modify_procs] <;> split <;> (try split) <;> simp_all

end ProcTable

namespace ProcSys

/--
What a step from `s` to `s'` leaves to the processes outside `xs`.
-/
structure Spares (s s' : ProcSys) (xs : Set Nat) : Prop where
  current : s'.tab.current = s.tab.current
  idleproc : s'.tab.idleproc = s.tab.idleproc
  initproc : s'.tab.initproc = s.tab.initproc
  mem : ∀ p ∈ s'.tab.procList, p ∉ xs → p ∈ s.tab.procList
  waiting : ∀ p ∈ s'.tab.procList, p ∉ xs → s'.waiting p = s.waiting p
  flags : ∀ p ∈ s'.tab.procList, p ∉ xs → (s'.tab.procs p).flags = (s.tab.procs p).flags
  states : ∀ p ∈ s'.tab.procList, p ∉ xs → s.tab.SameOrWoken s'.tab p
  kept : ∀ p ∈ s.tab.procList, (s.tab.procs p).state ≠ .zombie → p ∈ s'.tab.procList

variable {s s' s'' : ProcSys} {kids : Nat → List Nat} {xs : Set Nat} {p : Nat} {pid : Int}

theorem Spares.refl : s.Spares s xs :=
  ⟨rfl, rfl, rfl, fun _ h _ => h, fun _ _ _ => rfl, fun _ _ _ => rfl, fun _ _ _ => .refl,
    fun _ h _ => h⟩

theorem Spares.trans (h : s.Spares s' ∅) (h' : s'.Spares s'' xs) : s.Spares s'' xs where
  current := h'.current.trans h.current
  idleproc := h'.idleproc.trans h.idleproc
  initproc := h'.initproc.trans h.initproc
  mem p hp hx := h.mem p (h'.mem p hp hx) (Set.notMem_empty p)
  waiting p hp hx := (h'.waiting p hp hx).trans (h.waiting p (h'.mem p hp hx) (Set.notMem_empty p))
  flags p hp hx := (h'.flags p hp hx).trans (h.flags p (h'.mem p hp hx) (Set.notMem_empty p))
  states p hp hx := (h.states p (h'.mem p hp hx) (Set.notMem_empty p)).trans (h'.states p hp hx)
  kept p hp halive := by
    have hp' := h.kept p hp halive
    exact h'.kept p hp' ((h.states p hp' (Set.notMem_empty p)).alive halive)

theorem Spares.mono {ys : Set Nat} (h : s.Spares s' xs) (hsub : xs ⊆ ys) : s.Spares s' ys where
  current := h.current
  idleproc := h.idleproc
  initproc := h.initproc
  mem p hp hy := h.mem p hp fun hx => hy (hsub hx)
  waiting p hp hy := h.waiting p hp fun hx => hy (hsub hx)
  flags p hp hy := h.flags p hp fun hx => hy (hsub hx)
  states p hp hy := h.states p hp fun hx => hy (hsub hx)
  kept := h.kept

theorem Spares.running (h : s.Spares s' xs) (hinv : s.Inv kids) (hcur : s.tab.current ∉ xs)
    (hrun : s.Running)
    : s'.Running := by
  obtain ⟨hidle, hstate, hwaiting⟩ := hrun
  have hmem := h.kept _ (hinv.current_mem hidle) (by simp [hstate])
  unfold Running
  rw [h.current, h.idleproc]
  exact ⟨hidle, (h.states _ hmem hcur).runnable hstate, (h.waiting _ hmem hcur).trans hwaiting⟩

/--
A step that changes nothing but the process table.
-/
theorem Spares.of_tab {tab : ProcTable} (hg : tab = { s.tab with procs := tab.procs })
    (hflags : ∀ p, p ∉ xs → (tab.procs p).flags = (s.tab.procs p).flags)
    (hstates : ∀ p, p ∉ xs → s.tab.SameOrWoken tab p)
    : s.Spares { s with tab } xs := by
  have hlist : tab.procList = s.tab.procList := by rw [hg]
  refine ⟨by rw [hg], by rw [hg], by rw [hg], ?_, fun _ _ _ => rfl, fun p _ => hflags p,
    fun p _ => hstates p, ?_⟩
  . exact fun p hp _ => hlist ▸ hp
  . exact fun p hp _ => hlist ▸ hp

theorem wakeup_spec (hmem : p ∈ s.tab.procList) (halive : (s.tab.procs p).state ≠ .zombie)
    : ∃ s', s.step (.wakeup p) = some s' ∧ s.Spares s' ∅ ∧ (s'.tab.procs p).state = .runnable ∧
        s'.tab.procList = s.tab.procList := by
  obtain ⟨tab, hwake, hg, hrun, hflags, hstates⟩ := wakeupProc_spec halive
  refine ⟨_, by rw [step, if_pos hmem, hwake, Option.map_some], ?_, hrun, by rw [hg]⟩
  exact .of_tab hg (fun x _ => hflags x) fun x _ => hstates x

theorem block_spec {waitState : BitVec 32} (hrun : s.Running)
    (hmem : waitState ∈ [wtKsem, wtTimer, wtKbd])
    : ∃ s', s.step (.block waitState) = some s' ∧ s.Spares s' {s.tab.current} ∧
        s'.tab.procList = s.tab.procList ∧ s'.waiting = s.waiting ∧
        s'.tab.procs s.tab.current =
          { s.tab.procs s.tab.current with state := .sleeping, waitState } := by
  refine ⟨{ s with tab := s.tab.modify s.tab.current fun p => { p with state := .sleeping, waitState } },
    by rw [step, if_pos ⟨hrun, hmem⟩], .of_tab rfl ?_ ?_, rfl, rfl, by simp [modify_procs]⟩
  . intro p hp
    rw [modify_procs, if_neg (show p ≠ s.tab.current from hp)]
  . intro p hp
    exact .of_eq (by rw [modify_procs, if_neg (show p ≠ s.tab.current from hp)])

/--
A `do_fork` that makes no process, or a new process that has not run.
-/
theorem fork_spec {ans : ForkAnswers} (h : s.Inv kids) (hrun : s.Running)
    (hans : ∀ proc ∈ ans.proc, s.tab.allocated proc = false)
    : ∃ r tab s', s.tab.doFork ans = some (r, tab) ∧ s.step (.fork ans) = some s' ∧
        (((∃ e, r = .error e) ∧ s.Spares s' ∅ ∧ (maxProcess ≤ s.tab.nrProcess ∨ ans.proc = none ∨
            (ans.kstack && ans.mm && ans.files) = false)) ∨
          ∃ proc pid, r = .ok pid ∧ ans.proc = some proc ∧ proc ∉ s.tab.all ∧ s.Spares s' {proc} ∧
            (s'.tab.procs proc).state = .runnable ∧ (s'.tab.procs proc).flags = 0 ∧
            s'.waiting proc = none ∧ s'.tab.procList = proc :: s.tab.procList ∧
            (s'.tab.procs s.tab.current).cptr = some proc) := by
  have hwait := h.waitState_of_runnable (h.current_mem hrun.1) hrun.2.1
  obtain ⟨r, tab, hfork, hcases⟩ := doFork_spec h.family h.registered h.current hwait hans
  refine ⟨r, tab, _, hfork, by rw [step, if_pos ⟨hrun, hans⟩, hfork, Option.map_some], ?_⟩
  rcases hcases with ⟨hwhy, ⟨e, rfl⟩, ht, hprocs⟩ | ⟨proc, pid, nextSafe, hproc, hnot, rfl, rfl, -⟩
  . refine .inl ⟨⟨e, rfl⟩, ?_, hwhy⟩
    refine ⟨ht.current, ht.idleproc, ht.initproc, ?_, fun _ _ _ => rfl, ?_, ?_, ?_⟩
    . exact fun p hp _ => ht.procList ▸ hp
    . intro p hp _
      have hp : p ∈ s.tab.procList := ht.procList ▸ hp
      exact congrArg ProcStruct.flags (hprocs p (mem_all_of_mem hp))
    . intro p hp _
      have hp : p ∈ s.tab.procList := ht.procList ▸ hp
      exact .of_eq (hprocs p (mem_all_of_mem hp))
    . intro p hp _
      exact (ht.procList).symm ▸ hp
  . have hnotMem : proc ∉ s.tab.procList := fun hp => hnot (mem_all_of_mem hp)
    have hwaiting : s.waiting proc = none := by
      apply Classical.byContradiction
      exact fun hne => hnotMem (h.waiting proc hne).1
    simp only [recordFork, hproc]
    have hne : s.tab.current ≠ proc := fun heq => hnot (heq ▸ h.current)
    refine .inr ⟨proc, pid, rfl, rfl, hnot, ?_, ?_, ?_, hwaiting, rfl, ?_⟩
    . refine ⟨rfl, rfl, rfl, ?_, fun _ _ _ => rfl, ?_, ?_, ?_⟩
      . intro p hp hx
        exact (List.mem_cons.mp hp).resolve_left hx
      . intro p _ hx
        rw [forked_procs_of_ne hx]
      . intro p _ hx
        refine .inl ?_
        rw [forked_procs_of_ne hx]
        exact ⟨rfl, rfl⟩
      . exact fun p hp _ => List.mem_cons_of_mem _ hp
    . rw [forked_procs_self]
    . rw [forked_procs_self]
    . rw [forked_procs_of_ne hne, if_pos rfl]

/--
A `do_exit` of a process that is not one of the two kernel threads of `proc_init`.
-/
theorem exit_spec {errorCode : Int} (h : s.Inv kids) (hidle : s.tab.current ≠ s.tab.idleproc)
    (hinit : s.tab.current ≠ s.tab.initproc)
    : ∃ s', s.exit errorCode = some s' ∧ s.Spares s' {s.tab.current} ∧
        (s'.tab.procs s.tab.current).state = .zombie := by
  have hcur := h.current_mem hidle
  have hsleep := fun p (hp : p ∈ s.tab.all) => h.sleepsAll hp
  obtain ⟨parent, hmem, hparent, -⟩ := h.family.parent _ hcur
  obtain ⟨l, woken, hexit', -⟩ := @doExit_eq s.tab kids parent errorCode h.family h.registered hcur
    hparent h.init h.initParent hinit hsleep
  obtain ⟨tab, parent', kids', hexit, -, hex, -, -⟩ := @doExit_spec s.tab kids errorCode h.family
    h.registered hcur h.init h.initParent h.initAlive hinit hsleep
  have hflags : ∀ x, (tab.procs x).flags = (s.tab.procs x).flags := by
    intro x
    rw [hexit, Option.some_inj] at hexit'
    rw [hexit']
    exact exiting_flags
  have hlist : tab.procList = s.tab.procList := by rw [hex.globals]
  refine ⟨_, by rw [exit, hexit]; rfl, ?_, hex.zombie⟩
  refine ⟨by rw [hex.globals], by rw [hex.globals], by rw [hex.globals], ?_, ?_, ?_, ?_, ?_⟩
  . exact fun p hp _ => hlist ▸ hp
  . intro p _ hx
    exact Function.update_of_ne hx _ _
  . exact fun p _ _ => hflags p
  . intro p hp hx
    rcases hex.others p hx with hsame | hwoken
    . exact .inl hsame
    . have hp : p ∈ s.tab.procList := hlist ▸ hp
      have := hsleep p (mem_all_of_mem hp) hwoken.2.2
      exact .inr ⟨hwoken.1, hwoken.2.1, by simp [this]⟩
  . exact fun p hp _ => hlist.symm ▸ hp

/--
`do_kill` sets the flag of the process that it finds and wakes it up from an interruptible wait.
-/
theorem kill_spec (h : s.Inv kids) (hrun : s.Running)
    : ∃ s', s.step (.kill pid) = some s' ∧
        (s' = s ∨ ∃ p, s.tab.findProc pid = some p ∧ p ∈ s.tab.procList ∧
          (s.tab.procs p).flags &&& pfExiting = 0 ∧ s.Spares s' {p} ∧
          s'.tab.procList = s.tab.procList ∧ s'.waiting = s.waiting ∧ s.tab.SameOrWoken s'.tab p ∧
          ((s.tab.procs p).waitState &&& wtInterrupted ≠ 0 → (s'.tab.procs p).state = .runnable)) := by
  rw [step, if_pos hrun]
  unfold doKill
  cases hfind : s.tab.findProc pid with
  | none => exact ⟨_, rfl, .inl rfl⟩
  | some p =>
    have hmem := (h.registered.findProc_eq_some_iff.mp hfind).1
    simp only
    by_cases hflag : (s.tab.procs p).flags &&& pfExiting = 0
    . have hself : ∀ x, x ≠ p → (s.tab.modify p fun q => { q with flags := q.flags ||| pfExiting }).procs
          x = s.tab.procs x := by
        intro x hx
        rw [modify_procs, if_neg hx]
      have hstate : ∀ x, s.tab.SameOrWoken
          (s.tab.modify p fun q => { q with flags := q.flags ||| pfExiting }) x := by
        intro x
        refine .inl ?_
        rw [modify_procs]
        split <;> simp_all
      rw [if_pos hflag]
      by_cases hwait : (s.tab.procs p).waitState &&& wtInterrupted ≠ 0
      . have hne : (s.tab.procs p).waitState ≠ 0 := by
          intro hz
          simp [hz] at hwait
        have hsleep := h.blocked p hmem hne
        have halive : ((s.tab.modify p fun q => { q with flags := q.flags ||| pfExiting }).procs
            p).state ≠ .zombie := by
          simp [modify_procs, hsleep]
        obtain ⟨tab, hwake, hg, hrunnable, hflags, hstates⟩ := wakeupProc_spec halive
        refine ⟨{ s with tab }, ?_, .inr ⟨p, rfl, hmem, hflag, ?_,
          by rw [hg]; rfl, rfl, (hstate p).trans (hstates p), fun _ => hrunnable⟩⟩
        . have hwait' : ((s.tab.modify p fun q => { q with flags := q.flags ||| pfExiting }).procs
              p).waitState &&& wtInterrupted ≠ 0 := by
            simpa [modify_procs] using hwait
          rw [if_pos hwait', hwake]
          rfl
        refine .of_tab ?_ ?_ ?_
        . rw [hg]
          rfl
        . intro x hx
          rw [hflags, hself x hx]
        . exact fun x _ => (hstate x).trans (hstates x)
      . refine ⟨{ s with tab := s.tab.modify p fun q => { q with flags := q.flags ||| pfExiting } }, ?_,
          .inr ⟨p, rfl, hmem, hflag, ?_, rfl, rfl, hstate p, fun h => absurd h hwait⟩⟩
        . have hwait' : ¬((s.tab.modify p fun q => { q with flags := q.flags ||| pfExiting }).procs
              p).waitState &&& wtInterrupted ≠ 0 := by
            simpa [modify_procs] using hwait
          rw [if_neg hwait']
          rfl
        refine .of_tab rfl ?_ fun x _ => hstate x
        intro x hx
        rw [hself x hx]
    . exact ⟨s, by rw [if_neg hflag]; rfl, .inl rfl⟩

theorem findZombie_haskid {tab : ProcTable} {fuel : Nat} {proc : Option Nat} {haskid : Bool}
    (h : tab.findZombie fuel proc haskid = some (false, none))
    : proc = none := by
  induction fuel generalizing proc haskid with
  | zero => contradiction
  | succ fuel ih =>
    cases proc with
    | none => rfl
    | some proc =>
      unfold findZombie at h
      split at h
      . simp at h
      . cases fuel with
        | zero => contradiction
        | succ fuel =>
          cases hnext : (tab.procs proc).optr with
          | none =>
            rw [hnext] at h
            simp [findZombie] at h
          | some next =>
            have := ih h
            rw [hnext] at this
            contradiction

/--
`do_wait` goes to sleep, or it comes back with an error or with a child that it has freed.
-/
theorem waitRepeat_spec (h : s.Inv kids) (hidle : s.tab.current ≠ s.tab.idleproc)
    (hstate : (s.tab.procs s.tab.current).state = .runnable)
    : ∃ r tab s', s.tab.waitRepeat pid = some (r, tab) ∧
        (s.tab.waitRepeat pid).map (s.recordWait pid) = some s' ∧ s.Spares s' {s.tab.current} ∧
        s.tab.current ∈ s'.tab.procList ∧
        (s'.tab.procs s.tab.current).flags = (s.tab.procs s.tab.current).flags ∧
        match r with
        | .asleep => (s'.tab.procs s.tab.current).state = .sleeping ∧
            (s'.tab.procs s.tab.current).waitState = wtChild ∧ s'.waiting s.tab.current = some pid
        | .error _ => (s'.tab.procs s.tab.current).state = .runnable ∧
            s'.waiting s.tab.current = none ∧
            (pid = 0 → (s.tab.procs s.tab.current).cptr = none)
        | .found .. => (s'.tab.procs s.tab.current).state = .runnable ∧
            s'.waiting s.tab.current = none := by
  have hcur := h.current_mem hidle
  obtain ⟨haskid, found, hscan, hfound, hnone⟩ :=
    @waitScan_spec s.tab kids pid h.family h.registered h.current
  unfold ProcTable.waitRepeat
  simp only [hscan, Option.bind_eq_bind, Option.bind_some]
  cases found with
  | some proc =>
    obtain ⟨hproc, hparent, hz, -⟩ := hfound proc rfl
    have hinit : proc ≠ s.tab.initproc := fun heq => h.initAlive (heq ▸ hz)
    have hreap := reap_eq h.family h.registered h.current hproc hparent hinit
    have hne : s.tab.current ≠ proc := by
      intro heq
      rw [← heq, hstate] at hz
      contradiction
    have hnodup := (List.nodup_cons.mp h.registered.nodup).2
    have hlist : ∀ x, x ∈ (s.tab.reaped s.tab.current proc).procList ↔ x ≠ proc ∧ x ∈ s.tab.procList :=
      fun x => hnodup.mem_erase_iff
    simp only [hreap, Option.bind_some, Option.pure_def, Option.map_some]
    refine ⟨_, _, _, rfl, rfl, ?_, (hlist _).mpr ⟨hne, hcur⟩, rfl, hstate, by simp [recordWait]⟩
    refine ⟨rfl, rfl, rfl, ?_, ?_, fun _ _ _ => rfl, fun _ _ _ => .inl ⟨rfl, rfl⟩, ?_⟩
    . exact fun p hp _ => ((hlist p).mp hp).2
    . exact fun p _ hx => Function.update_of_ne hx _ _
    . intro p hp halive
      refine (hlist p).mpr ⟨?_, hp⟩
      intro heq
      exact halive (heq ▸ hz)
  | none =>
    cases haskid with
    | true =>
      simp only [if_true, Option.pure_def, Option.map_some]
      refine ⟨_, _, _, rfl, rfl, ?_, hcur, by simp [recordWait, modify_procs], by simp [recordWait,
        modify_procs]⟩
      refine ⟨rfl, rfl, rfl, fun _ hp _ => hp, ?_, ?_, ?_, fun _ hp _ => hp⟩
      . exact fun p _ hx => Function.update_of_ne hx _ _
      . intro p _ hx
        simp only [recordWait, modify_procs, if_neg (show p ≠ s.tab.current from hx)]
      . intro p _ hx
        exact .of_eq (by simp only [recordWait, modify_procs, if_neg (show p ≠ s.tab.current from hx)])
    | false =>
      simp only [Bool.false_eq_true, if_false, Option.pure_def, Option.map_some]
      refine ⟨_, _, _, rfl, rfl, ?_, hcur, rfl, hstate, by simp [recordWait], ?_⟩
      . refine ⟨rfl, rfl, rfl, fun _ hp _ => hp, ?_, fun _ _ _ => rfl, fun _ _ _ => .refl,
          fun _ hp _ => hp⟩
        exact fun p _ hx => Function.update_of_ne hx _ _
      . intro hpid
        rw [hpid] at hscan
        simp only [waitScan, ne_eq, not_true_eq_false, if_false] at hscan
        exact findZombie_haskid hscan

end ProcSys
end Ucore

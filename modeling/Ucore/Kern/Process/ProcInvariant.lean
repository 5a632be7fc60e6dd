import Ucore.Kern.Process.Proc.Lemmas.Exit
import Ucore.Kern.Process.Proc.Lemmas.Fork
import Ucore.Kern.Process.Proc.Lemmas.Wait
import Ucore.Kern.Process.ProcSys

/-!
This module contains the invariant of the process system and that every step keeps it.
-/

namespace Ucore

open ProcTable

namespace ProcSys

/--
A process that sleeps for its children waits for none of its zombies.
-/
def Asleep (s : ProcSys) (p : Nat) : Prop :=
  ∃ pid, s.waiting p = some pid ∧ ∀ c ∈ s.tab.procList, (s.tab.procs c).parent = some p →
    (s.tab.procs c).state = .zombie → ¬WaitsFor pid (s.tab.procs c).pid

/--
The parent of a process is the one that made it, or `initproc` if that one has exited since.
-/
def ParentOrInit (s : ProcSys) (c : Nat) : Prop :=
  (s.origin c).2 ≤ s.exited (s.origin c).1 ∧
    (s.tab.procs c).parent =
      some (if s.exited (s.origin c).1 = (s.origin c).2 then (s.origin c).1 else s.tab.initproc)

def Zombie (s : ProcSys) (p : Nat) : Prop :=
  p ∈ s.tab.procList ∧ (s.tab.procs p).state = .zombie

instance (s : ProcSys) (p : Nat) : Decidable (s.Zombie p) :=
  inferInstanceAs (Decidable (_ ∧ _))

structure Inv (s : ProcSys) (kids : Nat → List Nat) : Prop where
  family : s.tab.Family kids
  registered : s.tab.Registered
  current : s.tab.current ∈ s.tab.all
  idle : (s.tab.procs s.tab.idleproc).state ≠ .zombie ∧
    (s.tab.procs s.tab.idleproc).waitState = 0
  init : s.tab.initproc ∈ s.tab.procList
  initAlive : (s.tab.procs s.tab.initproc).state ≠ .zombie
  initParent : (s.tab.procs s.tab.initproc).parent = some s.tab.idleproc
  blocked : ∀ p ∈ s.tab.procList, (s.tab.procs p).waitState ≠ 0 →
    (s.tab.procs p).state = .sleeping
  waiting : ∀ p, s.waiting p ≠ none → p ∈ s.tab.procList ∧ (s.tab.procs p).state ≠ .zombie
  asleep : ∀ p ∈ s.tab.procList, (s.tab.procs p).waitState = wtChild → s.Asleep p
  origin : ∀ c ∈ s.tab.procList, s.ParentOrInit c
  counts : ∀ p, s.exited p = s.freed p + if s.Zombie p then 1 else 0

section Quiet

variable {s s' : ProcSys} {kids : Nat → List Nat}

/--
A step that ends no process and makes none keeps the invariant if it leaves nobody asleep who should
not be.
-/
theorem Inv.of_sameTree (h : s.Inv kids) (ht : s.tab.SameTree s'.tab)
    (hexited : s'.exited = s.exited) (hfreed : s'.freed = s.freed) (horigin : s'.origin = s.origin)
    (hidle : (s'.tab.procs s.tab.idleproc).waitState = 0)
    (hblocked : ∀ p ∈ s.tab.procList, (s'.tab.procs p).waitState ≠ 0 →
      (s'.tab.procs p).state = .sleeping)
    (hwaiting : ∀ p, s'.waiting p ≠ none →
      p ∈ s.tab.procList ∧ (s.tab.procs p).state ≠ .zombie)
    (hasleep : ∀ p ∈ s.tab.procList, (s'.tab.procs p).waitState = wtChild →
      ∃ pid, s'.waiting p = some pid ∧ ∀ c ∈ s.tab.procList, (s.tab.procs c).parent = some p →
        (s.tab.procs c).state = .zombie → ¬WaitsFor pid (s.tab.procs c).pid)
    : s'.Inv kids := by
  have hall : ∀ {c}, c ∈ s.tab.procList → c ∈ s.tab.all := mem_all_of_mem
  constructor
  . exact ht.family h.family
  . exact ht.registered h.registered
  . rw [ht.current, ht.all]
    exact h.current
  . rw [ht.idleproc, ne_eq, ht.zombie _ idle_mem_all]
    exact ⟨h.idle.1, hidle⟩
  . rw [ht.initproc, ht.procList]
    exact h.init
  . rw [ht.initproc, ne_eq, ht.zombie _ (hall h.init)]
    exact h.initAlive
  . rw [ht.initproc, ht.idleproc, ht.parent _ (hall h.init)]
    exact h.initParent
  . rw [ht.procList]
    exact hblocked
  . intro p hp
    obtain ⟨hmem, halive⟩ := hwaiting p hp
    rw [ht.procList, ne_eq, ht.zombie _ (hall hmem)]
    exact ⟨hmem, halive⟩
  . intro p hp hwait
    rw [ht.procList] at hp
    obtain ⟨pid, hpid, hno⟩ := hasleep p hp hwait
    refine ⟨pid, hpid, ?_⟩
    intro c hc hparent hz
    rw [ht.procList] at hc
    rw [ht.parent _ (hall hc)] at hparent
    rw [ht.zombie _ (hall hc)] at hz
    rw [ht.pid _ (hall hc)]
    exact hno c hc hparent hz
  . intro c hc
    rw [ht.procList] at hc
    have := h.origin c hc
    unfold ParentOrInit at *
    rwa [hexited, horigin, ht.initproc, ht.parent _ (hall hc)]
  . intro p
    have hz : s'.Zombie p ↔ s.Zombie p := by
      unfold Zombie
      rw [ht.procList]
      exact and_congr_right fun hmem => ht.zombie _ (hall hmem)
    rw [hexited, hfreed, h.counts p]
    simp only [hz]

/--
A step that only wakes up keeps the invariant.
-/
theorem Inv.of_woken (h : s.Inv kids) {tab : ProcTable} (ht : s.tab.SameTree tab)
    (hwoken : ∀ p ∈ s.tab.all, ((tab.procs p).state = (s.tab.procs p).state ∧
      (tab.procs p).waitState = (s.tab.procs p).waitState) ∨ (tab.procs p).waitState = 0)
    : ({ s with tab } : ProcSys).Inv kids := by
  apply @Inv.of_sameTree s { s with tab } kids h ht rfl rfl rfl
  . rcases hwoken _ idle_mem_all with h' | h'
    . rw [h'.2]
      exact h.idle.2
    . exact h'
  . intro p hp hwait
    rcases hwoken p (mem_all_of_mem hp) with h' | h'
    . rw [h'.2] at hwait
      rw [h'.1]
      exact h.blocked p hp hwait
    . exact absurd h' hwait
  . exact h.waiting
  . intro p hp hwait
    rcases hwoken p (mem_all_of_mem hp) with h' | h'
    . rw [h'.2] at hwait
      exact h.asleep p hp hwait
    . rw [h'] at hwait
      exact absurd hwait zero_ne_wtChild

end Quiet

section Step

variable {s s' : ProcSys} {kids : Nat → List Nat}

theorem Inv.sleepsAll (h : s.Inv kids) {p : Nat} (hp : p ∈ s.tab.all)
    (hwait : (s.tab.procs p).waitState = wtChild)
    : (s.tab.procs p).state = .sleeping := by
  rcases List.mem_cons.mp hp with rfl | hp
  . rw [h.idle.2] at hwait
    exact absurd hwait zero_ne_wtChild
  . exact h.blocked p hp (by rw [hwait]; exact Ne.symm zero_ne_wtChild)

theorem Inv.current_mem (h : s.Inv kids) (hne : s.tab.current ≠ s.tab.idleproc)
    : s.tab.current ∈ s.tab.procList :=
  (List.mem_cons.mp h.current).resolve_left hne

theorem Inv.waitState_of_runnable (h : s.Inv kids) {p : Nat} (hp : p ∈ s.tab.procList)
    (hrun : (s.tab.procs p).state = .runnable)
    : (s.tab.procs p).waitState = 0 := by
  apply Classical.byContradiction
  intro hwait
  have := h.blocked p hp hwait
  rw [hrun] at this
  contradiction

theorem Inv.fork (h : s.Inv kids) {ans : ForkAnswers} (hrun : s.Running)
    (hans : ∀ proc ∈ ans.proc, s.tab.allocated proc = false)
    (hstep : (s.tab.doFork ans).map (s.recordFork ans) = some s')
    : ∃ kids', s'.Inv kids' := by
  obtain ⟨hidle, hstate, hnone⟩ := hrun
  have hcur := h.current_mem hidle
  have hwait := h.waitState_of_runnable hcur hstate
  obtain ⟨r, tab, hfork, hcases⟩ := doFork_spec h.family h.registered h.current hwait
    hans
  rw [hfork, Option.map_some, Option.some_inj] at hstep
  subst hstep
  rcases hcases with ⟨-, ⟨e, rfl⟩, ht, hprocs⟩ | ⟨proc, pid, nextSafe, hproc, hnot, rfl, rfl, -,
    hvalid, hfresh, hle, hunused⟩
  . exact ⟨kids, h.of_woken ht fun p hp => .inl (by rw [hprocs p hp]; exact ⟨rfl, rfl⟩)⟩
  . have hne : ∀ {x}, x ∈ s.tab.all → x ≠ proc := fun hx heq => hnot (heq ▸ hx)
    have halive : (s.tab.procs s.tab.current).state ≠ .zombie := by
      rw [hstate]
      simp
    have hstates : ∀ x ∈ s.tab.all,
        ((s.tab.forked proc pid nextSafe).procs x).state = (s.tab.procs x).state ∧
        ((s.tab.forked proc pid nextSafe).procs x).waitState = (s.tab.procs x).waitState ∧
        ((s.tab.forked proc pid nextSafe).procs x).parent = (s.tab.procs x).parent ∧
        ((s.tab.forked proc pid nextSafe).procs x).pid = (s.tab.procs x).pid := by
      intro x hx
      rw [forked_procs_of_ne (hne hx)]
      exact ⟨rfl, rfl, rfl, rfl⟩
    have hself := @forked_procs_self s.tab proc pid nextSafe
    have hlist : ∀ {x}, x ∈ (s.tab.forked proc pid nextSafe).procList ↔
        x = proc ∨ x ∈ s.tab.procList := List.mem_cons
    have hsplit : ∀ {x}, x ∈ s.tab.procList → x ∈ s.tab.all := mem_all_of_mem
    simp only [recordFork, hproc]
    refine ⟨_, forked_family h.family h.registered h.current halive hnot,
      forked_registered h.registered hnot hvalid hfresh hle hunused,
      mem_forked_all.mpr (.inr h.current), ?_, hlist.mpr (.inr h.init), ?_, ?_, ?_, ?_, ?_, ?_, ?_⟩
    . have hidle := hstates _ s.tab.idle_mem_all
      exact ⟨hidle.1 ▸ h.idle.1, hidle.2.1 ▸ h.idle.2⟩
    . exact (hstates _ (hsplit h.init)).1 ▸ h.initAlive
    . exact (hstates _ (hsplit h.init)).2.2.1 ▸ h.initParent
    . intro p hp hwait
      rcases hlist.mp hp with rfl | hp
      . simp [hself] at hwait
      . have hp' := hstates _ (hsplit hp)
        rw [hp'.2.1] at hwait
        rw [hp'.1]
        exact h.blocked p hp hwait
    . intro p hp
      obtain ⟨hmem, hp'⟩ := h.waiting p hp
      exact ⟨hlist.mpr (.inr hmem), (hstates _ (hsplit hmem)).1 ▸ hp'⟩
    . intro p hp hwait
      rcases hlist.mp hp with rfl | hp
      . rw [hself] at hwait
        exact absurd hwait zero_ne_wtChild
      . rw [(hstates _ (hsplit hp)).2.1] at hwait
        obtain ⟨pid', hpid', hno⟩ := h.asleep p hp hwait
        refine ⟨pid', hpid', ?_⟩
        intro c hc hparent hz
        rcases hlist.mp hc with rfl | hc
        . simp [hself] at hz
        . have hc' := hstates _ (hsplit hc)
          rw [hc'.2.2.1] at hparent
          rw [hc'.1] at hz
          rw [hc'.2.2.2]
          exact hno c hc hparent hz
    . intro c hc
      rcases hlist.mp hc with rfl | hc
      . simp [ParentOrInit, hself]
      . have horigin := h.origin c hc
        have hinit : (s.tab.forked proc pid nextSafe).initproc = s.tab.initproc := rfl
        unfold ParentOrInit at *
        rw [(hstates _ (hsplit hc)).2.2.1]
        simpa [Function.update_of_ne (hne (hsplit hc)), hinit] using horigin
    . intro p
      rw [h.counts p]
      congr 1
      have hz : ∀ origin, ({ s with tab := s.tab.forked proc pid nextSafe, origin } : ProcSys).Zombie p
          ↔ s.Zombie p := by
        intro origin
        unfold Zombie
        rw [hlist]
        constructor
        . intro ⟨hp, hz⟩
          rcases hp with rfl | hp
          . simp [hself] at hz
          . exact ⟨hp, (hstates _ (hsplit hp)).1 ▸ hz⟩
        . intro ⟨hp, hz⟩
          exact ⟨.inr hp, (hstates _ (hsplit hp)).1 ▸ hz⟩
      simp only [hz]

theorem Inv.exit (h : s.Inv kids) {errorCode : Int} (hidle : s.tab.current ≠ s.tab.idleproc)
    (hstate : (s.tab.procs s.tab.current).state = .runnable)
    (hstep : s.exit errorCode = some s')
    : ∃ kids', s'.Inv kids' := by
  have hcur := h.current_mem hidle
  have hwait := h.waitState_of_runnable hcur hstate
  obtain ⟨tab, hexit, hstep⟩ := Option.bind_eq_some_iff.mp hstep
  have hs' : s' = _ := (Option.some_inj.mp hstep).symm
  have hne : s.tab.current ≠ s.tab.initproc := by
    intro heq
    rw [doExit, if_pos (.inr heq)] at hexit
    contradiction
  obtain ⟨tab', parent, kids', hexit', hparent, hex, hfam, hreg⟩ := @doExit_spec s.tab kids errorCode
    h.family h.registered hcur h.init h.initParent h.initAlive hne (fun p hp => h.sleepsAll hp)
  rw [hexit, Option.some_inj] at hexit'
  subst hexit'
  have hlist : tab.procList = s.tab.procList := by rw [hex.globals]
  have hidleproc : tab.idleproc = s.tab.idleproc := by rw [hex.globals]
  have hinitproc : tab.initproc = s.tab.initproc := by rw [hex.globals]
  have hcurrent : tab.current = s.tab.current := by rw [hex.globals]
  have hkids : ∀ x, x ∈ kids s.tab.current ↔
      x ∈ s.tab.procList ∧ (s.tab.procs x).parent = some s.tab.current :=
    h.family.mem_kids _ h.current
  have hinitKid : s.tab.initproc ∉ kids s.tab.current := by
    intro hmem
    have hp := ((hkids _).mp hmem).2
    rw [h.initParent, Option.some_inj] at hp
    exact hidle hp.symm
  have hcurKid : s.tab.current ∉ kids s.tab.current :=
    fun hmem => h.family.irrefl _ hcur ((hkids _).mp hmem).2
  have halive : ∀ x, x ≠ s.tab.current → (s.tab.procs x).state ≠ .zombie →
      (tab.procs x).state ≠ .zombie := by
    intro x hx hx'
    rcases hex.others x hx with h' | h'
    . rwa [h'.1]
    . simp [h'.1]
  have hzombie : ∀ x ∈ s.tab.procList, x ≠ s.tab.current →
      ((tab.procs x).state = .zombie ↔ (s.tab.procs x).state = .zombie) := by
    intro x hmem hx
    rcases hex.others x hx with h' | h'
    . rw [h'.1]
    . have := h.sleepsAll (mem_all_of_mem hmem) h'.2.2
      simp [h'.1, this]
  refine ⟨kids', ?_⟩
  subst hs'
  constructor
  . exact hfam
  . exact hreg
  . have : tab.all = s.tab.all := by simp only [all, hlist, hidleproc]
    rw [hcurrent, this]
    exact h.current
  . rw [hidleproc]
    refine ⟨halive _ (Ne.symm hidle) h.idle.1, ?_⟩
    rcases hex.others _ (Ne.symm hidle) with h' | h'
    . rw [h'.2, h.idle.2]
    . exact h'.2.1
  . rw [hinitproc, hlist]
    exact h.init
  . rw [hinitproc]
    exact halive _ (Ne.symm hne) h.initAlive
  . rw [hinitproc, hidleproc, hex.parents, if_neg hinitKid]
    exact h.initParent
  . intro p hp hwait'
    rw [hlist] at hp
    by_cases hpc : p = s.tab.current
    . subst hpc
      rw [hex.waitState, hwait] at hwait'
      exact absurd rfl hwait'
    . rcases hex.others p hpc with h' | h'
      . rw [h'.2] at hwait'
        rw [h'.1]
        exact h.blocked p hp hwait'
      . exact absurd h'.2.1 hwait'
  . intro p hp
    have hpc : p ≠ s.tab.current := by
      intro heq
      simp [heq] at hp
    simp only [Function.update_of_ne hpc] at hp
    obtain ⟨hmem, hp'⟩ := h.waiting p hp
    rw [hlist]
    exact ⟨hmem, halive p hpc hp'⟩
  . intro p hp hwait'
    rw [hlist] at hp
    have hpc : p ≠ s.tab.current := by
      intro heq
      rw [heq, hex.waitState, hwait] at hwait'
      exact zero_ne_wtChild hwait'
    have hsame := (hex.others p hpc).resolve_right fun h' =>
      zero_ne_wtChild (h'.2.1 ▸ hwait')
    obtain ⟨pid, hpid, hno⟩ := h.asleep p hp (hsame.2 ▸ hwait')
    refine ⟨pid, by simpa [Function.update_of_ne hpc] using hpid, ?_⟩
    intro c hc hcparent hz
    rw [hlist] at hc
    rw [hex.parents] at hcparent
    rw [hex.pids]
    -- a child that is a zombie now has exited in this step, has just moved to initproc or was one
    by_cases hcc : c = s.tab.current
    . subst hcc
      rw [if_neg hcurKid, hparent, Option.some_inj] at hcparent
      exact absurd (hcparent ▸ hwait') hex.parentWoken
    . rw [hzombie c hc hcc] at hz
      split at hcparent
      . next hck =>
        rw [Option.some_inj] at hcparent
        exact absurd (hcparent ▸ hwait') (hex.initWoken ⟨c, hck, hz⟩)
      . exact hno c hc hcparent hz
  . intro c hc
    rw [hlist] at hc
    obtain ⟨hle, horigin⟩ := h.origin c hc
    unfold ParentOrInit
    simp only [hex.parents, hinitproc, Function.update_apply]
    by_cases ho : (s.origin c).1 = s.tab.current
    . rw [if_pos ho]
      rw [ho] at hle horigin
      have hgone : s.exited s.tab.current + 1 ≠ (s.origin c).2 := by omega
      refine ⟨by omega, ?_⟩
      rw [if_neg hgone]
      by_cases hck : c ∈ kids s.tab.current
      . rw [if_pos hck]
      . rw [if_neg hck]
        split at horigin
        . exact absurd ((hkids c).mpr ⟨hc, horigin⟩) hck
        . exact horigin
    . rw [if_neg ho]
      refine ⟨hle, ?_⟩
      have hck : c ∉ kids s.tab.current := by
        intro hmem
        have hp := ((hkids c).mp hmem).2
        rw [horigin, Option.some_inj] at hp
        split at hp
        . exact ho hp
        . exact hne hp.symm
      rw [if_neg hck]
      exact horigin
  . intro p
    have hz : ∀ waiting exited, ({ s with tab, waiting, exited } : ProcSys).Zombie p ↔
        p = s.tab.current ∨ s.Zombie p := by
      intro waiting exited
      unfold Zombie
      rw [hlist]
      by_cases hpc : p = s.tab.current
      . simp [hpc, hcur, hex.zombie]
      . simp only [hpc, false_or]
        exact and_congr_right fun hmem => hzombie p hmem hpc
    have hcount := h.counts p
    simp only [hz, Function.update_apply]
    by_cases hpc : p = s.tab.current
    . have hnot : ¬s.Zombie p := by
        intro hzp
        rw [hpc] at hzp
        have := hzp.2
        rw [hstate] at this
        contradiction
      subst hpc
      simp only [hnot, if_false, if_true, true_or] at *
      omega
    . simpa [hpc] using hcount

/--
`do_wait` has freed a zombie.
-/
theorem Inv.reaped (h : s.Inv kids) {proc : Nat}
    (hstate : (s.tab.procs s.tab.current).state = .runnable) (hproc : proc ∈ s.tab.procList)
    (hparent : (s.tab.procs proc).parent = some s.tab.current)
    (hz : (s.tab.procs proc).state = .zombie)
    : ∃ kids', ({ s with
        tab := s.tab.reaped s.tab.current proc
        waiting := Function.update s.waiting s.tab.current none
        freed := Function.update s.freed proc (s.freed proc + 1) } : ProcSys).Inv kids' := by
  have hnodup := (List.nodup_cons.mp h.registered.nodup).2
  have hlist : ∀ {x}, x ∈ (s.tab.reaped s.tab.current proc).procList ↔
      x ≠ proc ∧ x ∈ s.tab.procList := hnodup.mem_erase_iff
  have hcur : s.tab.current ≠ proc := by
    intro heq
    rw [← heq, hstate] at hz
    contradiction
  have hinit : s.tab.initproc ≠ proc := fun heq => h.initAlive (heq ▸ hz)
  refine ⟨_, reaped_family h.family h.registered h.current hproc hparent hz,
    reaped_registered h.registered hproc, (mem_reaped_all h.registered hproc).mpr ⟨h.current, hcur⟩,
    h.idle, hlist.mpr ⟨hinit, h.init⟩, h.initAlive, h.initParent, ?_, ?_, ?_, ?_, ?_⟩
  . exact fun p hp => h.blocked p (hlist.mp hp).2
  . intro p hp
    have hpc : p ≠ s.tab.current := by
      intro heq
      simp [heq] at hp
    simp only [Function.update_of_ne hpc] at hp
    obtain ⟨hmem, halive⟩ := h.waiting p hp
    exact ⟨hlist.mpr ⟨fun heq => halive (heq ▸ hz), hmem⟩, halive⟩
  . intro p hp hwait
    have hmem := (hlist.mp hp).2
    have hpc : p ≠ s.tab.current := by
      intro heq
      have := h.sleepsAll (mem_all_of_mem hmem) hwait
      rw [heq, hstate] at this
      contradiction
    obtain ⟨pid, hpid, hno⟩ := h.asleep p hmem hwait
    refine ⟨pid, by simpa [Function.update_of_ne hpc] using hpid, ?_⟩
    exact fun c hc => hno c (hlist.mp hc).2
  . exact fun c hc => h.origin c (hlist.mp hc).2
  . intro p
    have hzombie : ∀ waiting freed, ({ s with
        tab := s.tab.reaped s.tab.current proc, waiting, freed } : ProcSys).Zombie p ↔
          p ≠ proc ∧ s.Zombie p := by
      intro waiting freed
      unfold Zombie
      rw [hlist]
      exact and_assoc
    have hcount := h.counts p
    simp only [hzombie, Function.update_apply]
    by_cases hp : p = proc
    . have : s.Zombie proc := ⟨hproc, hz⟩
      subst hp
      simp only [this, if_true, ne_eq, not_true_eq_false, false_and, if_false] at *
      omega
    . simpa [hp] using hcount

/--
`do_wait` returns an error.
-/
theorem Inv.clearWaiting (h : s.Inv kids) (hidle : s.tab.current ≠ s.tab.idleproc)
    (hstate : (s.tab.procs s.tab.current).state = .runnable)
    : ({ s with waiting := Function.update s.waiting s.tab.current none } : ProcSys).Inv kids := by
  have hwait := h.waitState_of_runnable (h.current_mem hidle) hstate
  refine h.of_sameTree (.refl _) rfl rfl rfl h.idle.2 h.blocked ?_ ?_
  . intro p hp
    by_cases hpc : p = s.tab.current
    . simp [hpc] at hp
    . simp only [Function.update_of_ne hpc] at hp
      exact h.waiting p hp
  . intro p hp hwait'
    have hpc : p ≠ s.tab.current := by
      intro heq
      rw [heq] at hwait'
      exact zero_ne_wtChild (hwait.symm.trans hwait')
    simp only [Function.update_of_ne hpc]
    exact h.asleep p hp hwait'

theorem Inv.waitRepeat (h : s.Inv kids) {pid : Int} (hidle : s.tab.current ≠ s.tab.idleproc)
    (hstate : (s.tab.procs s.tab.current).state = .runnable)
    (hstep : (s.tab.waitRepeat pid).map (s.recordWait pid) = some s')
    : ∃ kids', s'.Inv kids' := by
  have hcur := h.current_mem hidle
  have hwait := h.waitState_of_runnable hcur hstate
  obtain ⟨haskid, found, hscan, hfound, hnone⟩ :=
    @waitScan_spec s.tab kids pid h.family h.registered h.current
  unfold ProcTable.waitRepeat at hstep
  simp only [hscan, Option.bind_eq_bind, Option.bind_some] at hstep
  cases found with
  | some proc =>
    obtain ⟨hproc, hparent, hz, -⟩ := hfound proc rfl
    have hinit : proc ≠ s.tab.initproc := fun heq => h.initAlive (heq ▸ hz)
    have hreap := reap_eq h.family h.registered h.current hproc hparent hinit
    simp only [hreap, Option.bind_some, Option.pure_def, Option.map_some, Option.some_inj] at hstep
    subst hstep
    exact h.reaped hstate hproc hparent hz
  | none =>
    cases haskid with
    | true =>
      simp only [if_true, Option.pure_def, Option.map_some, Option.some_inj] at hstep
      subst hstep
      have ht : s.tab.SameTree (s.tab.modify s.tab.current fun p =>
          { p with state := .sleeping, waitState := wtChild }) :=
        .modify (fun _ => ⟨rfl, rfl, rfl⟩) (fun _ => rfl) (fun _ => rfl) (by simp [hstate])
      refine ⟨kids, h.of_sameTree ht rfl rfl rfl ?_ ?_ ?_ ?_⟩
      . simp only [recordWait, modify_procs, if_neg (Ne.symm hidle)]
        exact h.idle.2
      . intro p hp
        simp only [recordWait, modify_procs]
        split
        . exact fun _ => rfl
        . exact h.blocked p hp
      . intro p hp
        by_cases hpc : p = s.tab.current
        . rw [hpc, hstate]
          exact ⟨hcur, by simp⟩
        . simp only [recordWait, Function.update_of_ne hpc] at hp
          exact h.waiting p hp
      . intro p hp hwait'
        by_cases hpc : p = s.tab.current
        . subst hpc
          exact ⟨pid, by simp [recordWait], hnone rfl⟩
        . simp only [recordWait, modify_procs, if_neg hpc] at hwait'
          simp only [recordWait, Function.update_of_ne hpc]
          exact h.asleep p hp hwait'
    | false =>
      simp only [Bool.false_eq_true, if_false, Option.pure_def, Option.map_some,
        Option.some_inj] at hstep
      subst hstep
      exact ⟨kids, h.clearWaiting hidle hstate⟩

theorem wakeupProc_sameTree {tab tab' : ProcTable} {p : Nat} (h : tab.wakeupProc p = some tab')
    : tab.SameTree tab' ∧ ∀ x, ((tab'.procs x).state = (tab.procs x).state ∧
        (tab'.procs x).waitState = (tab.procs x).waitState) ∨ (tab'.procs x).waitState = 0 := by
  unfold ProcTable.wakeupProc at h
  split at h
  . contradiction
  . next hz =>
    split at h
    . rw [Option.some_inj] at h
      subst h
      refine ⟨.modify (fun _ => ⟨rfl, rfl, rfl⟩) (fun _ => rfl) (fun _ => rfl) (by simp [hz]), ?_⟩
      intro x
      rw [modify_procs]
      split
      . exact .inr rfl
      . exact .inl ⟨rfl, rfl⟩
    . rw [Option.some_inj] at h
      subst h
      exact ⟨.refl _, fun _ => .inl ⟨rfl, rfl⟩⟩

theorem Inv.kill (h : s.Inv kids) {pid : Int}
    (hstep : (s.tab.doKill pid).map (fun r => { s with tab := r.2 }) = some s')
    : ∃ kids', s'.Inv kids' := by
  unfold doKill at hstep
  refine ⟨kids, ?_⟩
  cases hfind : s.tab.findProc pid with
  | none =>
    simp only [hfind, Option.map_some, Option.some_inj] at hstep
    exact hstep ▸ h
  | some proc =>
    simp only [hfind] at hstep
    split at hstep
    . have ht : s.tab.SameTree (s.tab.modify proc fun p => { p with flags := p.flags ||| pfExiting }) :=
        .modify (fun _ => ⟨rfl, rfl, rfl⟩) (fun _ => rfl) (fun _ => rfl) Iff.rfl
      have hsame : ∀ x, ((s.tab.modify proc fun p =>
          { p with flags := p.flags ||| pfExiting }).procs x).state = (s.tab.procs x).state ∧
          ((s.tab.modify proc fun p =>
            { p with flags := p.flags ||| pfExiting }).procs x).waitState =
              (s.tab.procs x).waitState := by
        intro x
        rw [modify_procs]
        split
        . next hx => exact hx ▸ ⟨rfl, rfl⟩
        . exact ⟨rfl, rfl⟩
      split at hstep
      . obtain ⟨r, hwake, hr⟩ := Option.map_eq_some_iff.mp hstep
        obtain ⟨tab, hwake, hr'⟩ := Option.bind_eq_some_iff.mp hwake
        have : r.2 = tab := by
          simp only [Option.pure_def, Option.some_inj] at hr'
          rw [← hr']
        obtain ⟨ht', hwoken⟩ := wakeupProc_sameTree hwake
        rw [← hr, this]
        apply h.of_woken (ht.trans ht')
        intro x _
        have hx := hsame x
        rw [← hx.1, ← hx.2]
        exact hwoken x
      . simp only [Option.pure_def, Option.map_some, Option.some_inj] at hstep
        rw [← hstep]
        exact h.of_woken ht fun x _ => .inl (hsame x)
    . simp only [Option.map_some, Option.some_inj] at hstep
      exact hstep ▸ h

theorem Inv.block (h : s.Inv kids) {waitState : BitVec 32} (hrun : s.Running)
    (hmem : waitState ∈ [wtKsem, wtTimer, wtKbd])
    : ({ s with tab := s.tab.modify s.tab.current fun p =>
        { p with state := .sleeping, waitState } } : ProcSys).Inv kids := by
  obtain ⟨hidle, hstate, -⟩ := hrun
  have hne : waitState ≠ wtChild := by
    intro heq
    subst heq
    revert hmem
    decide
  have ht : s.tab.SameTree (s.tab.modify s.tab.current fun p =>
      { p with state := .sleeping, waitState }) :=
    .modify (fun _ => ⟨rfl, rfl, rfl⟩) (fun _ => rfl) (fun _ => rfl) (by simp [hstate])
  refine h.of_sameTree ht rfl rfl rfl ?_ ?_ h.waiting ?_
  . simp only [modify_procs, if_neg (Ne.symm hidle)]
    exact h.idle.2
  . intro p hp
    simp only [modify_procs]
    split
    . exact fun _ => rfl
    . exact h.blocked p hp
  . intro p hp hwait
    simp only [modify_procs] at hwait
    split at hwait
    . exact absurd hwait hne
    . exact h.asleep p hp hwait

theorem Inv.schedule (h : s.Inv kids) {next : Nat} (hnext : MaySchedule s.tab next)
    : ({ s with tab := { s.tab with current := next } } : ProcSys).Inv kids where
  family := ⟨h.family.children, h.family.mem_kids, h.family.parent, h.family.irrefl, h.family.root⟩
  registered :=
    ⟨h.registered.nodup, h.registered.allocated, h.registered.nrProcess, h.registered.hash_nodup,
      h.registered.mem_hash, h.registered.pids_nodup, h.registered.validPid,
      ⟨h.registered.cached.lastPid_nonneg, h.registered.cached.nextSafe_le,
        h.registered.cached.unused⟩⟩
  current := by
    rcases hnext with h' | h'
    . exact mem_all_of_mem h'.1
    . exact List.mem_cons.mpr (.inl h'.1)
  idle := h.idle
  init := h.init
  initAlive := h.initAlive
  initParent := h.initParent
  blocked := h.blocked
  waiting := h.waiting
  asleep := h.asleep
  origin := h.origin
  counts := h.counts

/--
Every step keeps the invariant.
-/
theorem Inv.step (h : s.Inv kids) {ev : ProcEvent} (hstep : s.step ev = some s')
    : ∃ kids', s'.Inv kids' := by
  cases ev with
  | fork ans =>
    simp only [ProcSys.step, Option.ite_none_right_eq_some] at hstep
    exact h.fork hstep.1.1 hstep.1.2 hstep.2
  | exit errorCode =>
    simp only [ProcSys.step, Option.ite_none_right_eq_some] at hstep
    exact h.exit hstep.1.1 hstep.1.2.1 hstep.2
  | wait pid codeStore =>
    simp only [ProcSys.step, Option.ite_none_right_eq_some] at hstep
    obtain ⟨hrun, hstep⟩ := hstep
    unfold doWait at hstep
    split at hstep
    . simp only [Option.map_some, Option.some_inj] at hstep
      exact ⟨kids, hstep ▸ h.clearWaiting hrun.1 hrun.2.1⟩
    . exact h.waitRepeat hrun.1 hrun.2.1 hstep
  | resume =>
    unfold ProcSys.step at hstep
    simp only at hstep
    split at hstep
    . contradiction
    . rw [Option.ite_none_right_eq_some] at hstep
      obtain ⟨⟨hidle, hstate⟩, hstep⟩ := hstep
      split at hstep
      . exact h.exit hidle hstate hstep
      . exact h.waitRepeat hidle hstate hstep
  | kill pid =>
    simp only [ProcSys.step, Option.ite_none_right_eq_some] at hstep
    exact h.kill hstep.2
  | block waitState =>
    simp only [ProcSys.step, Option.ite_none_right_eq_some, Option.some_inj] at hstep
    exact ⟨kids, hstep.2 ▸ h.block hstep.1.1 hstep.1.2⟩
  | wakeup proc =>
    simp only [ProcSys.step, Option.ite_none_right_eq_some] at hstep
    obtain ⟨tab, hwake, htab⟩ := Option.map_eq_some_iff.mp hstep.2
    obtain ⟨ht, hwoken⟩ := wakeupProc_sameTree hwake
    exact ⟨kids, htab ▸ h.of_woken ht fun p _ => hwoken p⟩
  | schedule next =>
    simp only [ProcSys.step, Option.ite_none_right_eq_some, Option.some_inj] at hstep
    exact ⟨kids, hstep.2 ▸ h.schedule hstep.1⟩

end Step

end ProcSys
end Ucore

import Ucore.Kern.Process.Proc.Lemmas.Family

/-!
This module contains what `do_exit` does to the process table and that it keeps the invariants.
-/

namespace Ucore

open Siblings

namespace ProcTable

variable {s : ProcTable} {kids : Nat → List Nat} {parent : Nat} {errorCode : Int}

/--
The table in front of the loop of `do_exit`: `current` is a zombie, and its parent does not wait for
it any more.
-/
def exiting (s : ProcTable) (parent : Nat) (errorCode : Int) : ProcTable :=
  let s' := s.modify s.current fun p => { p with state := .zombie, exitCode := errorCode }
  if (s.procs parent).waitState = wtChild then
    s'.modify parent fun p => { p with state := .runnable, waitState := 0 }
  else
    s'

theorem exiting_procs (hne : parent ≠ s.current) (x : Nat)
    : (s.exiting parent errorCode).procs x =
        if x = s.current then { s.procs x with state := .zombie, exitCode := errorCode }
        else if x = parent ∧ (s.procs parent).waitState = wtChild then
          { s.procs x with state := .runnable, waitState := 0 }
        else s.procs x := by
  unfold exiting
  by_cases hwait : (s.procs parent).waitState = wtChild
  . rw [if_pos hwait, modify_procs, modify_procs, modify_procs]
    by_cases hx : x = parent
    . simp [hx, hne, hwait]
    . by_cases hxc : x = s.current <;> simp [hx, hxc, Ne.symm hne]
  . rw [if_neg hwait, modify_procs]
    by_cases hxc : x = s.current <;> simp [hxc, hwait]

theorem exiting_globals : s.exiting parent errorCode =
    { s with procs := (s.exiting parent errorCode).procs } := by
  unfold exiting
  split <;> rfl

theorem exiting_links (hne : parent ≠ s.current) : (s.exiting parent errorCode).links = s.links := by
  simp only [links, Links.mk.injEq]
  refine ⟨?_, ?_, ?_⟩ <;> funext x <;> rw [exiting_procs hne] <;> split <;> (try split) <;> rfl

/--
`do_exit` makes `current` a zombie without children, wakes up its parent and moves its children to
`initproc`.
-/
theorem doExit_eq (hfam : s.Family kids) (hreg : s.Registered) (hcur : s.current ∈ s.procList)
    (hparent : (s.procs s.current).parent = some parent) (hinit : s.initproc ∈ s.procList)
    (hinitParent : (s.procs s.initproc).parent = some s.idleproc)
    (hne : s.current ≠ s.initproc)
    (hsleep : ∀ p ∈ s.all, (s.procs p).waitState = wtChild → (s.procs p).state = .sleeping)
    : ∃ l woken, s.doExit errorCode =
          some ((s.exiting parent errorCode).adopted l (kids s.current) woken) ∧
        (woken = true ↔ (s.exiting parent errorCode).WakesInit (kids s.current)) ∧
        ChildrenFrom l none s.current [] ∧
        ChildrenFrom l none s.initproc ((kids s.current).reverse ++ kids s.initproc) ∧
        (∀ z, z ∉ kids s.current → z ∉ kids s.initproc →
          l.next z = s.links.next z ∧ l.prev z = s.links.prev z) ∧
        ∀ q, q ≠ s.current → q ≠ s.initproc → l.first q = s.links.first q := by
  obtain ⟨parent', hmem, hparent', halive⟩ := hfam.parent _ hcur
  rw [hparent, Option.some_inj] at hparent'
  subst hparent'
  have hpne : parent ≠ s.current := by
    intro h
    exact hfam.irrefl _ hcur (h ▸ hparent)
  have hcurAll := mem_all_of_mem hcur
  have hinitAll := mem_all_of_mem hinit
  have hg := @exiting_globals s parent errorCode
  have hcurrent : (s.exiting parent errorCode).current = s.current := by rw [hg]
  have hinitproc : (s.exiting parent errorCode).initproc = s.initproc := by rw [hg]
  have hfuel : (s.exiting parent errorCode).siblingFuel = s.siblingFuel := by
    rw [hg]
    rfl
  have hrun : s.doExit errorCode = reparent s.siblingFuel (s.exiting parent errorCode) := by
    unfold doExit
    rw [if_neg (by simp [hne, hreg.ne_idle hcur])]
    simp only [modify_current, modify_siblingFuel, modify_procs, if_true, if_neg hpne, hparent,
      Option.bind_eq_bind, Option.bind_some]
    unfold exiting
    by_cases hwait : (s.procs parent).waitState = wtChild
    . have hstate := hsleep parent hmem hwait
      rw [if_pos hwait, if_pos hwait, wakeupProc_eq (by simp [modify_procs, hpne, hstate])
        (by simp [modify_procs, hpne, hstate])]
      rfl
    . rw [if_neg hwait, if_neg hwait]
  have hnotKid : s.initproc ∉ kids s.current := by
    intro h
    have hp := ((hfam.mem_kids _ hcurAll _).mp h).2
    rw [hinitParent, Option.some_inj] at hp
    exact hreg.ne_idle hcur hp.symm
  have hinitSleeps : ((s.exiting parent errorCode).procs s.initproc).waitState = wtChild →
      ((s.exiting parent errorCode).procs s.initproc).state = .sleeping := by
    rw [exiting_procs hpne, if_neg (Ne.symm hne)]
    split
    . simp [wtChild, wtInterrupted]
    . exact hsleep _ hinitAll
  obtain ⟨l, woken, hreparent, hwoken, hnone, hchildren, hothers, hfirsts⟩ :=
    @reparent_spec (s.exiting parent errorCode) s.siblingFuel none (kids s.current)
      (kids s.initproc) (by rw [exiting_links hpne, hcurrent]; exact hfam.children _ hcurAll)
      (by rw [exiting_links hpne, hinitproc]; exact hfam.children _ hinitAll)
      (by rw [hcurrent, hinitproc]; exact Ne.symm hne)
      (fun x hx => hfam.disjoint hcurAll hinitAll hne hx)
      (hinitproc ▸ hnotKid) (hinitproc ▸ hinitSleeps)
      (Nat.lt_succ_of_le (hfam.length_kids_le hcurAll))
  rw [hcurrent] at hnone hfirsts
  rw [hinitproc] at hchildren hfirsts
  rw [exiting_links hpne] at hothers hfirsts
  exact ⟨l, woken, by rw [hrun, hreparent], hwoken, hnone, hchildren, hothers, hfirsts⟩

/--
What a `do_exit` of a process with the children `xs` leaves behind.
-/
structure Exited (s s' : ProcTable) (parent : Nat) (xs : List Nat) : Prop where
  globals : s' = { s with procs := s'.procs }
  zombie : (s'.procs s.current).state = .zombie
  waitState : (s'.procs s.current).waitState = (s.procs s.current).waitState
  parents : ∀ x, (s'.procs x).parent = if x ∈ xs then some s.initproc else (s.procs x).parent
  pids : ∀ x, (s'.procs x).pid = (s.procs x).pid
  others : ∀ x, x ≠ s.current →
    ((s'.procs x).state = (s.procs x).state ∧ (s'.procs x).waitState = (s.procs x).waitState) ∨
      ((s'.procs x).state = .runnable ∧ (s'.procs x).waitState = 0 ∧
        (s.procs x).waitState = wtChild)
  parentWoken : (s'.procs parent).waitState ≠ wtChild
  initWoken : (∃ x ∈ xs, (s.procs x).state = .zombie) → (s'.procs s.initproc).waitState ≠ wtChild

theorem zero_ne_wtChild : (0 : BitVec 32) ≠ wtChild := by decide

theorem exited_adopted {l : Links Nat} {woken : Bool} {xs : List Nat} (hpne : parent ≠ s.current)
    (hne : s.current ≠ s.initproc) (hxs : s.current ∉ xs)
    (hsleep : (s.procs parent).waitState = wtChild → (s.procs parent).state = .sleeping)
    (hwoken : woken = true ↔ (s.exiting parent errorCode).WakesInit xs)
    : s.Exited ((s.exiting parent errorCode).adopted l xs woken) parent xs := by
  have hg := @exiting_globals s parent errorCode
  have hinitproc : (s.exiting parent errorCode).initproc = s.initproc := by rw [hg]
  have hprocs := @exiting_procs s parent errorCode hpne
  have hzombie : ∀ x ∈ xs, (s.procs x).state = .zombie →
      ((s.exiting parent errorCode).procs x).state = .zombie := by
    intro x hx hstate
    have hxc : x ≠ s.current := fun h => hxs (h ▸ hx)
    rw [hprocs, if_neg hxc]
    split
    . next h =>
      have := hsleep h.2
      rw [h.1, this] at hstate
      contradiction
    . exact hstate
  constructor
  . rw [adopted, hg]
  . simp [adopted, hprocs, hinitproc, hne]
  . simp [adopted, hprocs, hinitproc, hne]
  . intro x
    have : ((s.exiting parent errorCode).procs x).parent = (s.procs x).parent := by
      rw [hprocs]
      split <;> (try split) <;> rfl
    simp [adopted, this, hinitproc]
  . intro x
    have : ((s.exiting parent errorCode).procs x).pid = (s.procs x).pid := by
      rw [hprocs]
      split <;> (try split) <;> rfl
    simp [adopted, this]
  . intro x hx
    have hex : ((s.exiting parent errorCode).procs x) =
        if x = parent ∧ (s.procs parent).waitState = wtChild then
          { s.procs x with state := .runnable, waitState := 0 }
        else s.procs x := by
      rw [hprocs, if_neg hx]
    by_cases hi : woken = true ∧ x = s.initproc
    . have hwait := (hwoken.mp hi.1).2
      rw [hinitproc, ← hi.2, hex] at hwait
      refine .inr ⟨by simp [adopted, hinitproc, hi], by simp [adopted, hinitproc, hi], ?_⟩
      split at hwait
      . exact absurd hwait zero_ne_wtChild
      . exact hwait
    . simp only [adopted, hinitproc, if_neg hi, hex]
      split
      . next h => exact .inr ⟨rfl, rfl, h.1 ▸ h.2⟩
      . exact .inl ⟨rfl, rfl⟩
  . simp only [adopted]
    split
    . exact zero_ne_wtChild
    . rw [hprocs, if_neg hpne]
      split
      . exact zero_ne_wtChild
      . next h => simpa using h
  . rintro ⟨x, hx, hstate⟩
    by_cases hwait : ((s.exiting parent errorCode).procs s.initproc).waitState = wtChild
    . have : woken = true := hwoken.mpr ⟨⟨x, hx, hzombie x hx hstate⟩, by rwa [hinitproc]⟩
      simpa [adopted, this, hinitproc] using zero_ne_wtChild
    . simp only [adopted, hinitproc]
      split
      . exact zero_ne_wtChild
      . exact hwait

theorem Exited.registered {s' : ProcTable} {xs : List Nat} (h : s.Exited s' parent xs)
    (hreg : s.Registered)
    : s'.Registered :=
  hreg.congr h.globals fun x _ => h.pids x

theorem Exited.family {s' : ProcTable} (h : s.Exited s' parent (kids s.current))
    (hfam : s.Family kids) (hreg : s.Registered) (hcur : s.current ∈ s.procList)
    (hinit : s.initproc ∈ s.procList)
    (hinitParent : (s.procs s.initproc).parent = some s.idleproc)
    (hinitAlive : (s.procs s.initproc).state ≠ .zombie) (hne : s.current ≠ s.initproc)
    (hnone : ChildrenFrom s'.links none s.current [])
    (hchildren : ChildrenFrom s'.links none s.initproc
      ((kids s.current).reverse ++ kids s.initproc))
    (hothers : ∀ z, z ∉ kids s.current → z ∉ kids s.initproc →
      s'.links.next z = s.links.next z ∧ s'.links.prev z = s.links.prev z)
    (hfirsts : ∀ q, q ≠ s.current → q ≠ s.initproc → s'.links.first q = s.links.first q)
    : s'.Family (Function.update (Function.update kids s.current []) s.initproc
        ((kids s.current).reverse ++ kids s.initproc)) := by
  have hlist : s'.procList = s.procList := by rw [h.globals]
  have hidle : s'.idleproc = s.idleproc := by rw [h.globals]
  have hall : s'.all = s.all := by simp only [all, hlist, hidle]
  have hcurAll := mem_all_of_mem hcur
  have hinitAll := mem_all_of_mem hinit
  have hkids : ∀ x, x ∈ kids s.current ↔ x ∈ s.procList ∧ (s.procs x).parent = some s.current :=
    hfam.mem_kids _ hcurAll
  constructor
  . intro p hp
    rw [hall] at hp
    by_cases hpi : p = s.initproc
    . subst hpi
      simpa using hchildren
    . by_cases hpc : p = s.current
      . subst hpc
        simpa [hpi] using hnone
      . rw [Function.update_of_ne hpi, Function.update_of_ne hpc]
        apply (hfam.children p hp).congr (hfirsts p hpc hpi)
        intro x hx
        exact hothers x (hfam.disjoint hp hcurAll hpc hx) (hfam.disjoint hp hinitAll hpi hx)
  . intro p hp c
    rw [hall] at hp
    rw [hlist, h.parents]
    by_cases hpi : p = s.initproc
    . subst hpi
      rw [Function.update_self, List.mem_append, List.mem_reverse, hfam.mem_kids _ hinitAll]
      by_cases hc : c ∈ kids s.current
      . simp [hc, (hkids c).mp hc]
      . simp [hc]
    . rw [Function.update_of_ne hpi]
      by_cases hpc : p = s.current
      . subst hpc
        by_cases hc : c ∈ kids s.current
        . simp [hc, Ne.symm hne]
        . simp only [Function.update_self, hc, if_false, List.not_mem_nil, false_iff]
          exact fun h => hc ((hkids c).mpr h)
      . rw [Function.update_of_ne hpc, hfam.mem_kids p hp]
        by_cases hc : c ∈ kids s.current
        . simp [hc, Ne.symm hpi, ((hkids c).mp hc).2, Ne.symm hpc]
        . simp [hc]
  . intro c hc
    rw [hlist] at hc
    rw [h.parents, hall]
    by_cases hck : c ∈ kids s.current
    . refine ⟨s.initproc, hinitAll, by simp [hck], ?_⟩
      rcases h.others s.initproc (Ne.symm hne) with h' | h'
      . rw [h'.1]
        exact hinitAlive
      . simp [h'.1]
    . obtain ⟨p, hp, hparent, halive⟩ := hfam.parent c hc
      refine ⟨p, hp, by simp [hck, hparent], ?_⟩
      have hpc : p ≠ s.current := fun heq => hck ((hkids c).mpr ⟨hc, heq ▸ hparent⟩)
      rcases h.others p hpc with h' | h'
      . rw [h'.1]
        exact halive
      . simp [h'.1]
  . intro c hc
    rw [hlist] at hc
    rw [h.parents]
    split
    . next hck =>
      intro heq
      rw [Option.some_inj] at heq
      have hp := ((hkids c).mp hck).2
      rw [← heq, hinitParent, Option.some_inj] at hp
      exact hreg.ne_idle hcur hp.symm
    . exact hfam.irrefl c hc
  . have hnotKid : ∀ p ∈ s.all, s.idleproc ∉ kids p :=
      fun p hp hmem => hreg.idle_notMem (hfam.mem_procList hp hmem)
    obtain ⟨h₁, h₂, h₃⟩ := hfam.root
    obtain ⟨h₄, h₅⟩ := hothers _ (hnotKid _ hcurAll) (hnotKid _ hinitAll)
    rw [hidle, h.parents, if_neg (hnotKid _ hcurAll)]
    exact ⟨h₁, by rw [h₄, h₂], by rw [h₅, h₃]⟩

/--
`do_exit` makes `current` a zombie whose children belong to `initproc`, and nobody who sleeps for it
or for one of its zombies is left asleep.
-/
theorem doExit_spec (hfam : s.Family kids) (hreg : s.Registered) (hcur : s.current ∈ s.procList)
    (hinit : s.initproc ∈ s.procList)
    (hinitParent : (s.procs s.initproc).parent = some s.idleproc)
    (hinitAlive : (s.procs s.initproc).state ≠ .zombie) (hne : s.current ≠ s.initproc)
    (hsleep : ∀ p ∈ s.all, (s.procs p).waitState = wtChild → (s.procs p).state = .sleeping)
    : ∃ s' parent kids', s.doExit errorCode = some s' ∧
        (s.procs s.current).parent = some parent ∧ s.Exited s' parent (kids s.current) ∧
        s'.Family kids' ∧ s'.Registered := by
  obtain ⟨parent, hmem, hparent, -⟩ := hfam.parent _ hcur
  have hpne : parent ≠ s.current := fun h => hfam.irrefl _ hcur (h ▸ hparent)
  have hnotKid : s.current ∉ kids s.current := by
    intro h
    exact hfam.irrefl _ hcur ((hfam.mem_kids _ (mem_all_of_mem hcur) _).mp h).2
  obtain ⟨l, woken, hrun, hwoken, hnone, hchildren, hothers, hfirsts⟩ :=
    @doExit_eq s kids parent errorCode hfam hreg hcur hparent hinit hinitParent hne hsleep
  have hexit := @exited_adopted s parent errorCode l woken (kids s.current) hpne hne hnotKid
    (hsleep parent hmem) hwoken
  exact ⟨_, parent, _, hrun, hparent, hexit, hexit.family hfam hreg hcur hinit hinitParent hinitAlive
    hne hnone hchildren hothers hfirsts, hexit.registered hreg⟩

end ProcTable
end Ucore

import Mathlib
import Ucore.Lib.Run
import Ucore.Kern.Sync.LockSys

/-!
This module contains the freedom from deadlock of threads that take their locks in an order.
-/

namespace Ucore

variable {L R α C : Type} [DecidableEq L] [Preorder R] {rank : L → R}

namespace LockThread

variable {th : LockThread L α} {l l' : L}

theorem place_of_waits (h : th.waits = some l) : th.place l = .waits := if_pos h

theorem place_of_mem (h : th.waits = none) (hl : l ∈ th.held) : th.place l = .inside := by simp [place, h, hl]

theorem place_of_notMem (h : th.waits = none) (hl : l ∉ th.held) : th.place l = .out := by simp [place, h, hl]

/--
The thread holds its locks in the order, waits for one behind them, and gives all of them back.
-/
structure Ok (rank : L → R) (th : LockThread L α) : Prop where
  sorted : th.held.Pairwise fun a b => rank b < rank a
  waits : ∀ l, th.waits = some l → ∀ h ∈ th.held, rank h < rank l
  ordered : th.prog.Ordered rank (fun _ held => held = []) (th.waits.toList ++ th.held)

theorem Ok.nodup (h : th.Ok rank) : th.held.Nodup := by
  apply h.sorted.imp
  rintro a b hlt rfl
  exact lt_irrefl _ hlt

end LockThread

namespace LockSys

variable {s s' : LockSys L α} {t u : Nat} {l l' : L} {th : LockThread L α} {sem : Semaphore Nat}

structure Inv (rank : L → R) (s : LockSys L α) : Prop where
  mutex : ∀ l, (s.sems l).MutexOk fun t => (s.threads t).place l
  threads : ∀ t, (s.threads t).Ok rank

theorem init_inv (a : α) : (init a : LockSys L α).Inv rank where
  mutex l := Semaphore.mutexOk_semInit fun _ => rfl
  threads _ := ⟨List.Pairwise.nil, by simp [init], rfl⟩

theorem place_setThread (s : LockSys L α) (t : Nat) (th : LockThread L α) (l : L)
    : (fun u => (Function.update s.threads t th u).place l) =
        Function.update (fun u => (s.threads u).place l) t (th.place l) := by
  funext u
  by_cases hu : u = t
  . simp [hu]
  . simp [hu]

/--
A step of a thread that changes where it is with respect to one lock.
-/
theorem Inv.set (h : s.Inv rank)
    (hmutex : sem.MutexOk (Function.update (fun u => (s.threads u).place l) t (th.place l)))
    (hplace : ∀ l' ≠ l, th.place l' = (s.threads t).place l') (hok : th.Ok rank)
    : ((s.setSem l sem).setThread t th).Inv rank := by
  constructor
  . intro l'
    simp only [setThread, setSem, place_setThread]
    by_cases hl : l' = l
    . rw [hl, Function.update_self]
      exact hmutex
    . rw [Function.update_of_ne hl, hplace l' hl,
        Function.update_eq_self (a := t) (f := fun u => (s.threads u).place l')]
      exact h.mutex l'
  . intro u
    by_cases hu : u = t
    . simpa [setThread, hu] using hok
    . simpa [setThread, setSem, hu] using h.threads u

theorem setSem_self (s : LockSys L α) (l : L) : s.setSem l (s.sems l) = s := by
  rw [setSem, Function.update_eq_self]

/--
A step of a thread that only changes its program.
-/
theorem Inv.setProg (h : s.Inv rank) {prog : LockProg L α} (hwaits : (s.threads t).waits = none)
    (hprog : prog.Ordered rank (fun _ held => held = []) (s.threads t).held)
    : (s.setThread t { prog, waits := none, held := (s.threads t).held }).Inv rank := by
  constructor
  . intro l
    simp only [setThread, place_setThread]
    have hplace : ({ prog, waits := none, held := (s.threads t).held } : LockThread L α).place l =
        (s.threads t).place l := by
      simp [LockThread.place, hwaits]
    rw [hplace, Function.update_eq_self (a := t) (f := fun u => (s.threads u).place l)]
    exact h.mutex l
  . intro u
    by_cases hu : u = t
    . rw [hu]
      simp only [setThread, Function.update_self]
      exact ⟨(h.threads t).sorted, by simp, hprog⟩
    . simpa [setThread, hu] using h.threads u

theorem Inv.resume (h : s.Inv rank) (hwaits : (s.threads t).waits = some l) (hmem : t ∉ (s.sems l).waitQueue)
    : (s.setThread t { s.threads t with waits := none, held := l :: (s.threads t).held }).Inv rank := by
  have hok := h.threads t
  have hset := @Inv.set _ _ _ _ _ rank s t l
    { s.threads t with waits := none, held := l :: (s.threads t).held } (s.sems l) h ?_ ?_ ?_
  . rwa [setSem_self] at hset
  . rw [LockThread.place_of_mem rfl List.mem_cons_self]
    exact (h.mutex l).resume (LockThread.place_of_waits hwaits) hmem
  . intro l' hl
    simp [LockThread.place, hwaits, hl, hl.symm]
  . refine ⟨List.pairwise_cons.mpr ⟨hok.waits l hwaits, hok.sorted⟩, by simp, ?_⟩
    have hordered := hok.ordered
    rw [hwaits] at hordered
    exact hordered

theorem Inv.down (h : s.Inv rank) {rest : LockProg L α} (hwaits : (s.threads t).waits = none)
    (hprog : (s.threads t).prog = .down l rest)
    : (∀ held ∈ (s.threads t).held, rank held < rank l) ∧ l ∉ (s.threads t).held ∧
        rest.Ordered rank (fun _ held => held = []) (l :: (s.threads t).held) := by
  have hordered := (h.threads t).ordered
  rw [hwaits, hprog] at hordered
  refine ⟨hordered.1, ?_, hordered.2⟩
  intro hmem
  exact lt_irrefl _ (hordered.1 l hmem)

theorem Inv.down_free (h : s.Inv rank) {rest : LockProg L α} (hwaits : (s.threads t).waits = none)
    (hprog : (s.threads t).prog = .down l rest) (hdown : (s.sems l).down t = (false, sem))
    : ((s.setSem l sem).setThread t { prog := rest, waits := none, held := l :: (s.threads t).held }).Inv rank := by
  obtain ⟨hbelow, hnew, hordered⟩ := h.down hwaits hprog
  apply h.set
  . rw [LockThread.place_of_mem rfl List.mem_cons_self]
    exact (h.mutex l).down_free (LockThread.place_of_notMem hwaits hnew) hdown
  . intro l' hl
    simp [LockThread.place, hwaits, hl]
  . exact ⟨List.pairwise_cons.mpr ⟨hbelow, (h.threads t).sorted⟩, by simp, hordered⟩

theorem Inv.down_wait (h : s.Inv rank) {rest : LockProg L α} (hwaits : (s.threads t).waits = none)
    (hprog : (s.threads t).prog = .down l rest) (hdown : (s.sems l).down t = (true, sem))
    : ((s.setSem l sem).setThread t { prog := rest, waits := some l, held := (s.threads t).held }).Inv rank := by
  obtain ⟨hbelow, hnew, hordered⟩ := h.down hwaits hprog
  apply h.set
  . rw [LockThread.place_of_waits rfl]
    exact (h.mutex l).down_wait (LockThread.place_of_notMem hwaits hnew) hdown
  . intro l' hl
    simp [LockThread.place, hwaits, hl.symm]
  . refine ⟨(h.threads t).sorted, ?_, hordered⟩
    intro l' hl'
    exact Option.some_inj.mp hl' ▸ hbelow

theorem Inv.up (h : s.Inv rank) {rest : LockProg L α} (hwaits : (s.threads t).waits = none)
    (hprog : (s.threads t).prog = .up l rest)
    : ((s.setSem l (s.sems l).up.2).setThread t
        { prog := rest, waits := none, held := (s.threads t).held.erase l }).Inv rank := by
  have hok := h.threads t
  have hordered := hok.ordered
  rw [hwaits, hprog] at hordered
  apply h.set
  . rw [LockThread.place_of_notMem rfl hok.nodup.not_mem_erase]
    exact (h.mutex l).up (LockThread.place_of_mem hwaits hordered.1)
  . intro l' hl
    simp [LockThread.place, hwaits, List.mem_erase_of_ne hl]
  . exact ⟨hok.sorted.sublist List.erase_sublist, by simp, hordered.2⟩

theorem Inv.go (h : s.Inv rank) {answer : Nat} (hgo : s.go t answer = some s') : s'.Inv rank := by
  simp only [LockSys.go] at hgo
  cases hwaits : (s.threads t).waits with
  | some l =>
    simp only [hwaits] at hgo
    split at hgo
    . contradiction
    next hmem =>
      obtain rfl := Option.some_inj.mp hgo
      exact h.resume hwaits hmem
  | none =>
    cases hprog : (s.threads t).prog with
    | done a => simp [hwaits, hprog] at hgo
    | down l rest =>
      simp only [hwaits, hprog] at hgo
      rcases hdown : (s.sems l).down t with ⟨hasToWait, sem⟩
      rw [hdown] at hgo
      cases hasToWait with
      | false =>
        obtain rfl := Option.some_inj.mp hgo
        exact h.down_free hwaits hprog hdown
      | true =>
        obtain rfl := Option.some_inj.mp hgo
        exact h.down_wait hwaits hprog hdown
    | up l rest =>
      simp only [hwaits, hprog] at hgo
      obtain rfl := Option.some_inj.mp hgo
      exact h.up hwaits hprog
    | ask rest =>
      simp only [hwaits, hprog] at hgo
      obtain rfl := Option.some_inj.mp hgo
      have hordered := (h.threads t).ordered
      rw [hwaits, hprog] at hordered
      exact h.setProg hwaits (hordered answer)

theorem Inv.held_of_idle (h : s.Inv rank) (hidle : (s.threads t).Idle) : (s.threads t).held = [] := by
  obtain ⟨hwaits, a, hprog⟩ := hidle
  have hordered := (h.threads t).ordered
  rw [hwaits, hprog] at hordered
  exact hordered

/--
A thread starts a call with no lock, so the call may take every lock.
-/
theorem Inv.step {prog : C → LockProg L α} {r : R} (hprog : ∀ call, (prog call).Nested rank r) (h : s.Inv rank)
    {ev : LockEvent C} (hstep : s.step prog ev = some s')
    : s'.Inv rank := by
  cases ev with
  | start t call =>
    cases hwaits : (s.threads t).waits with
    | some l => simp [LockSys.step, hwaits] at hstep
    | none =>
      cases hdone : (s.threads t).prog with
      | done a =>
        simp only [LockSys.step, hwaits, hdone] at hstep
        obtain rfl := Option.some_inj.mp hstep
        have hheld := h.held_of_idle ⟨hwaits, a, hdone⟩
        apply h.setProg hwaits
        rw [hheld]
        exact hprog call [] (by simp)
      | down _ _ | up _ _ | ask _ => simp [LockSys.step, hwaits, hdone] at hstep
  | go t answer => exact h.go hstep

/--
A thread in the queue of a lock waits for it behind all the locks that it holds.
-/
theorem Inv.waits_of_mem (h : s.Inv rank) (hmem : t ∈ (s.sems l).waitQueue) : (s.threads t).waits = some l := by
  have hplace := (h.mutex l).queued t hmem
  simp only [LockThread.place] at hplace
  split at hplace
  . assumption
  . split at hplace <;> contradiction

theorem Inv.lt_of_waiting (h : s.Inv rank) (hholds : s.Holds t l) (hmem : t ∈ (s.sems l').waitQueue)
    : rank l < rank l' := by
  have hwaits := h.waits_of_mem hmem
  rcases hholds with hinside | ⟨hplace, hnotMem⟩
  . have hheld : l ∈ (s.threads t).held := by
      simp only [LockThread.place] at hinside
      split at hinside
      . contradiction
      . split at hinside
        . assumption
        . contradiction
    exact (h.threads t).waits l' hwaits l hheld
  . have hl : l = l' := by
      simp only [LockThread.place, hwaits, Option.some_inj] at hplace
      split at hplace
      next heq => exact heq.symm
      . split at hplace <;> contradiction
    exact absurd (hl ▸ hmem) hnotMem

/--
Along the threads that wait for each other the locks go up.
-/
theorem Inv.lt_of_waitsFor (h : s.Inv rank) (hpath : Relation.TransGen s.WaitsFor t u) (hmem : t ∈ (s.sems l).waitQueue)
    (hmem' : u ∈ (s.sems l').waitQueue)
    : rank l < rank l' := by
  induction hpath generalizing l' with
  | single hfor =>
    obtain ⟨l₁, hmem₁, hholds⟩ := hfor
    have heq : l₁ = l := Option.some_inj.mp ((h.waits_of_mem hmem₁).symm.trans (h.waits_of_mem hmem))
    exact h.lt_of_waiting (heq ▸ hholds) hmem'
  | tail _ hfor ih =>
    obtain ⟨l₁, hmem₁, hholds⟩ := hfor
    exact (ih hmem₁).trans (h.lt_of_waiting hholds hmem')

theorem Inv.acyclic (h : s.Inv rank) (t : Nat) : ¬Relation.TransGen s.WaitsFor t t := by
  intro hpath
  obtain ⟨u, ⟨l, hmem, -⟩, -⟩ := Relation.TransGen.head'_iff.mp hpath
  exact lt_irrefl _ (h.lt_of_waitsFor hpath hmem hmem)

theorem Inv.not_holds_of_idle (h : s.Inv rank) (hidle : (s.threads t).Idle) (l : L) : ¬s.Holds t l := by
  have hheld := h.held_of_idle hidle
  simp [Holds, Semaphore.Holds, LockThread.place, hidle.1, hheld]

/--
A thread that holds a lock and is in no queue can go on.
-/
theorem Inv.holder_goes_on (h : s.Inv rank) (hholds : s.Holds t l) (hfree : ∀ l', t ∉ (s.sems l').waitQueue)
    (answer : Nat)
    : s.go t answer ≠ none := by
  simp only [LockSys.go]
  cases hwaits : (s.threads t).waits with
  | some l' => simp [hfree l']
  | none =>
    cases hprog : (s.threads t).prog with
    | done a => exact absurd hholds (h.not_holds_of_idle ⟨hwaits, a, hprog⟩ l)
    | down l' rest =>
      dsimp only
      split <;> simp
    | up l' rest => simp
    | ask rest => simp

/--
Behind every thread that waits there is one that can go on.
-/
theorem Inv.exists_goes_on [WellFoundedGT R] (h : s.Inv rank) (hmem : t ∈ (s.sems l).waitQueue)
    : ∃ u, ∀ answer, s.go u answer ≠ none := by
  induction hr : rank l using WellFoundedGT.induction generalizing t l with
  | ind r ih =>
  rcases (h.mutex l).held with ⟨-, hqueue, -⟩ | ⟨-, holder, hheld⟩
  . rw [hqueue] at hmem
    contradiction
  . have hholds : s.Holds holder l := (hheld holder).mpr rfl
    by_cases hfree : ∀ l', holder ∉ (s.sems l').waitQueue
    . exact ⟨holder, h.holder_goes_on hholds hfree⟩
    . obtain ⟨l', hmem'⟩ := Classical.not_forall_not.mp hfree
      have hlt := h.lt_of_waiting hholds hmem'
      exact ih (rank l') (hr ▸ hlt) hmem' rfl

/--
The states of all interleavings of the calls.
-/
def Reachable (prog : C → LockProg L α) (a : α) (s : LockSys L α) : Prop :=
  ∃ events, Run.exec (step prog) (init a) events = some s

theorem Reachable.inv {prog : C → LockProg L α} {a : α} {r : R} (h : s.Reachable prog a)
    (hprog : ∀ call, (prog call).Nested rank r)
    : s.Inv rank := by
  obtain ⟨events, hexec⟩ := h
  exact Run.exec_invariant (fun s ev s' hinv hstep => hinv.step hprog hstep) (init_inv a) hexec

end LockSys
end Ucore

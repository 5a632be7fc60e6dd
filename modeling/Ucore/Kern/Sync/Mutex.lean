import Mathlib
import Ucore.Kern.Sync.Sem

/-!
This module contains semaphores with one unit: at most one process is behind its `down` and before its `up`.
-/

namespace Ucore

/--
Where a process is with respect to a mutex.
-/
inductive MutexPlace where
  | out
  | waits
  | inside
  deriving DecidableEq

namespace Semaphore

variable {α : Type} {sem sem' : Semaphore α} {place : α → MutexPlace} {i j : α}

/--
A process that has been taken out of the queue holds the mutex before it goes on.
-/
def Holds (sem : Semaphore α) (place : α → MutexPlace) (i : α) : Prop :=
  place i = .inside ∨ place i = .waits ∧ i ∉ sem.waitQueue

structure MutexOk (sem : Semaphore α) (place : α → MutexPlace) : Prop where
  nodup : sem.waitQueue.Nodup
  queued : ∀ i ∈ sem.waitQueue, place i = .waits
  held : sem.value = 1 ∧ sem.waitQueue = [] ∧ (∀ i, ¬sem.Holds place i) ∨
    sem.value = 0 ∧ ∃ holder, ∀ i, sem.Holds place i ↔ i = holder

theorem mutexOk_semInit (hplace : ∀ i, place i = .out) : (semInit 1).MutexOk place := by
  refine ⟨List.nodup_nil, by simp [semInit], .inl ⟨rfl, rfl, ?_⟩⟩
  intro i
  simp [Holds, hplace]

theorem MutexOk.unique (h : sem.MutexOk place) (hi : sem.Holds place i) (hj : sem.Holds place j) : i = j := by
  rcases h.held with ⟨-, -, hnone⟩ | ⟨-, holder, hheld⟩
  . exact absurd hi (hnone i)
  . exact ((hheld i).mp hi).trans ((hheld j).mp hj).symm

theorem MutexOk.unique_inside (h : sem.MutexOk place) (hi : place i = .inside) (hj : place j = .inside) : i = j :=
  h.unique (.inl hi) (.inl hj)

theorem MutexOk.notMem_of_ne (h : sem.MutexOk place) (hi : place i ≠ .waits) : i ∉ sem.waitQueue :=
  fun hmem => hi (h.queued i hmem)

variable [DecidableEq α]

theorem holds_update_of_ne {p : MutexPlace} (hne : j ≠ i)
    : sem.Holds (Function.update place i p) j ↔ sem.Holds place j := by
  rw [Holds, Holds, Function.update_of_ne hne]

theorem MutexOk.queued_update (h : sem.MutexOk place) (hi : i ∉ sem.waitQueue) (p : MutexPlace)
    : ∀ j ∈ sem.waitQueue, Function.update place i p j = .waits := by
  intro j hj
  rw [Function.update_of_ne (ne_of_mem_of_not_mem hj hi)]
  exact h.queued j hj

theorem MutexOk.down_free (h : sem.MutexOk place) (hi : place i = .out) (hdown : sem.down i = (false, sem'))
    : sem'.MutexOk (Function.update place i .inside) := by
  unfold down at hdown
  split at hdown
  next hpos =>
    obtain ⟨-, rfl⟩ := Prod.mk.inj hdown
    rcases h.held with ⟨hvalue, hqueue, hnone⟩ | ⟨hvalue, -⟩
    . refine ⟨h.nodup, h.queued_update (h.notMem_of_ne (by simp [hi])) _, .inr ⟨?_, i, ?_⟩⟩
      . simp [hvalue]
      . intro j
        by_cases hj : j = i
        . simp [Holds, hj]
        . exact iff_of_false (fun hholds => hnone j ((holds_update_of_ne hj).mp hholds)) hj
    . rw [hvalue] at hpos
      exact absurd hpos (by decide)
  . exact absurd (Prod.mk.inj hdown).1 (by decide)

theorem MutexOk.down_wait (h : sem.MutexOk place) (hi : place i = .out) (hdown : sem.down i = (true, sem'))
    : sem'.MutexOk (Function.update place i .waits) := by
  unfold down at hdown
  split at hdown
  . exact absurd (Prod.mk.inj hdown).1 (by decide)
  next hpos =>
    obtain ⟨-, rfl⟩ := Prod.mk.inj hdown
    have hmem : i ∉ sem.waitQueue := h.notMem_of_ne (by simp [hi])
    rcases h.held with ⟨hvalue, -⟩ | ⟨hvalue, holder, hheld⟩
    . rw [hvalue] at hpos
      exact absurd (by decide) hpos
    . refine ⟨?_, ?_, .inr ⟨hvalue, holder, ?_⟩⟩
      . exact List.nodup_append.mpr ⟨h.nodup, List.nodup_singleton i, by rintro j hj k hk rfl; simp_all⟩
      . intro j hj
        rcases List.mem_append.mp hj with hj | hj
        . exact h.queued_update hmem _ j hj
        . rw [List.mem_singleton.mp hj, Function.update_self]
      . intro j
        by_cases hj : j = i
        . subst hj
          refine iff_of_false (by simp [Holds]) ?_
          intro hholder
          have := (hheld j).mpr hholder
          simp [Holds, hi] at this
        . rw [← hheld j]
          simp [Holds, hj]

/--
The process that has got the mutex goes on.
-/
theorem MutexOk.resume (h : sem.MutexOk place) (hi : place i = .waits) (hmem : i ∉ sem.waitQueue)
    : sem.MutexOk (Function.update place i .inside) := by
  have hsame (j : α) : sem.Holds (Function.update place i .inside) j ↔ sem.Holds place j := by
    by_cases hj : j = i
    . subst hj
      simp [Holds, hi, hmem]
    . exact holds_update_of_ne hj
  refine ⟨h.nodup, h.queued_update hmem _, ?_⟩
  simpa only [hsame] using h.held

/--
`up` gives the mutex to the first process of the queue.
-/
theorem MutexOk.up (h : sem.MutexOk place) (hi : place i = .inside)
    : sem.up.2.MutexOk (Function.update place i .out) := by
  have hmem : i ∉ sem.waitQueue := h.notMem_of_ne (by simp [hi])
  have hothers (j : α) (hj : j ≠ i) : ¬sem.Holds place j := fun hholds => hj (h.unique hholds (.inl hi))
  have hvalue : sem.value = 0 := by
    rcases h.held with ⟨-, -, hnone⟩ | ⟨hvalue, -⟩
    . exact absurd (.inl hi) (hnone i)
    . exact hvalue
  cases hqueue : sem.waitQueue with
  | nil =>
    rw [up_nil hqueue]
    refine ⟨h.nodup, h.queued_update hmem _, .inl ⟨by simp [hvalue], hqueue, ?_⟩⟩
    intro j hholds
    by_cases hj : j = i
    . simp [Holds, hj] at hholds
    . exact hothers j hj ((holds_update_of_ne hj).mp hholds)
  | cons next rest =>
    rw [up_cons hqueue]
    obtain ⟨hnext, hrest⟩ := List.nodup_cons.mp (hqueue ▸ h.nodup)
    have hqueued := h.queued_update hmem .out
    rw [hqueue] at hqueued
    obtain ⟨hwaits, hqueued⟩ := List.forall_mem_cons.mp hqueued
    refine ⟨hrest, hqueued, .inr ⟨hvalue, next, ?_⟩⟩
    intro j
    by_cases hj : j = next
    . subst hj
      exact iff_of_true (.inr ⟨hwaits, hnext⟩) rfl
    . refine iff_of_false ?_ hj
      intro hholds
      by_cases hji : j = i
      . simp [Holds, hji] at hholds
      . apply hothers j hji
        simpa [Holds, hji, hqueue, hj] using hholds

end Semaphore
end Ucore

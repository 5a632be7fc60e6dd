import Mathlib

/-!
This module contains the timer list of kern/schedule/sched.c. A timer counts from the one before it.
-/

namespace Ucore

structure Timer where
  expires : Nat
  proc : Nat

namespace Timer

/--
`add_timer` behind its assertions.
-/
def addTimer : List Timer → Timer → List Timer
  | [], timer => [timer]
  | next :: rest, timer =>
    if timer.expires < next.expires then
      timer :: { next with expires := next.expires - timer.expires } :: rest
    else
      next :: addTimer rest { timer with expires := timer.expires - next.expires }

/--
A process has at most one timer, it is on its stack.
-/
def delTimer (proc : Nat) : List Timer → List Timer
  | [] => []
  | timer :: rest =>
    if timer.proc = proc then
      match rest with
      | [] => []
      | next :: rest =>
        if timer.expires ≠ 0 then
          { next with expires := (next.expires + timer.expires) % 2 ^ 32 } :: rest
        else
          next :: rest
    else
      timer :: delTimer proc rest

def total (timers : List Timer) : Nat := (timers.map expires).sum

/--
`run_timer_list` finds the first timer running.
-/
structure Ok (timers : List Timer) : Prop where
  first : ∀ timer ∈ timers.head?, timer.expires ≠ 0
  total_lt : total timers < 2 ^ 32

variable {timers rest : List Timer} {timer : Timer} {proc : Nat}

theorem total_cons : total (timer :: timers) = timer.expires + total timers := by
  simp [total]

theorem total_addTimer : total (addTimer timers timer) ≤ max (total timers) timer.expires := by
  induction timers generalizing timer with
  | nil => simp [addTimer, total]
  | cons next rest ih =>
    unfold addTimer
    split
    . simp only [total_cons]
      omega
    . have := @ih { timer with expires := timer.expires - next.expires }
      simp only [total_cons] at this ⊢
      omega

theorem ok_addTimer (h : Ok timers) (hne : timer.expires ≠ 0) (hlt : timer.expires < 2 ^ 32)
    : Ok (addTimer timers timer) := by
  constructor
  . cases timers with
    | nil => simpa [addTimer] using hne
    | cons next rest =>
      unfold addTimer
      split
      . simpa using hne
      . simpa using h.first
  . exact Nat.lt_of_le_of_lt total_addTimer (Nat.max_lt.mpr ⟨h.total_lt, hlt⟩)

theorem procs_addTimer
    : ((addTimer timers timer).map (·.proc)).Perm (timer.proc :: timers.map (·.proc)) := by
  induction timers generalizing timer with
  | nil => exact List.Perm.refl _
  | cons next rest ih =>
    unfold addTimer
    split
    . exact List.Perm.refl _
    . have := @ih { timer with expires := timer.expires - next.expires }
      exact (this.cons next.proc).trans (List.Perm.swap ..)

theorem total_delTimer : total (delTimer proc timers) ≤ total timers := by
  induction timers with
  | nil => exact Nat.le_refl _
  | cons timer rest ih =>
    unfold delTimer
    split
    . cases rest with
      | nil => exact Nat.zero_le _
      | cons next rest =>
        simp only
        split
        . simp only [total_cons]
          have := Nat.mod_le (next.expires + timer.expires) (2 ^ 32)
          omega
        . simp only [total_cons]
          omega
    . simp only [total_cons]
      omega

theorem ok_delTimer (h : Ok timers) : Ok (delTimer proc timers) := by
  constructor
  . cases timers with
    | nil => exact h.first
    | cons timer rest =>
      have hfirst := h.first timer rfl
      unfold delTimer
      split
      . cases rest with
        | nil => simp
        | cons next rest =>
          have hlt := h.total_lt
          simp only [total_cons] at hlt
          have hmod : (next.expires + timer.expires) % 2 ^ 32 = next.expires + timer.expires :=
            Nat.mod_eq_of_lt (by omega)
          simp only [hmod, ne_eq, List.head?_cons, Option.mem_def, Option.some_inj, forall_eq']
          omega
      . simpa using hfirst
  . exact Nat.lt_of_le_of_lt total_delTimer h.total_lt

theorem procs_delTimer : (delTimer proc timers).map (·.proc) = (timers.map (·.proc)).erase proc := by
  induction timers with
  | nil => rfl
  | cons timer rest ih =>
    unfold delTimer
    split
    next heq =>
      rw [List.map_cons, heq, List.erase_cons_head]
      cases rest with
      | nil => rfl
      | cons next rest =>
        simp only
        split <;> rfl
    next hne =>
      rw [List.map_cons, List.map_cons, ih, List.erase_cons_tail (by simpa using hne)]

end Timer
end Ucore

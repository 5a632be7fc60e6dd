import Mathlib
import Ucore.Kern.Process.Proc.Impl

/-!
This module contains the correctness of `get_pid`: it comes to an end when a pid is left, and the
interval it caches holds no pid in use.
-/

namespace Ucore

def ValidPid (pid : Int) : Prop := 1 ≤ pid ∧ pid < maxPid

theorem maxPid_eq : maxPid = 8192 := rfl

namespace ProcTable

/--
The number of increments of `last_pid`, with its wrap around, until it is `target`.
-/
def pidDistance (lastPid target : Int) : Int :=
  if lastPid ≤ target then target - lastPid else target - lastPid + (maxPid - 1)

/--
No pid in use lies in `[lo, hi)`.
-/
def Unused (pids : List Int) (lo hi : Int) : Prop := ∀ pid ∈ pids, ¬(lo ≤ pid ∧ pid < hi)

theorem unused_cons {pid : Int} {pids : List Int} {lo hi : Int}
    : Unused (pid :: pids) lo hi ↔ ¬(lo ≤ pid ∧ pid < hi) ∧ Unused pids lo hi := by
  simp [Unused]

theorem pidDistance_next {lastPid target : Int} (hlast : ValidPid lastPid) (htarget : ValidPid target)
    (hne : lastPid ≠ target)
    : pidDistance (if lastPid + 1 ≥ maxPid then 1 else lastPid + 1) target =
        pidDistance lastPid target - 1 := by
  obtain ⟨h₁, h₂⟩ := hlast
  obtain ⟨h₃, h₄⟩ := htarget
  have hmax := maxPid_eq
  unfold pidDistance
  by_cases hwrap : lastPid + 1 ≥ maxPid
  . rw [if_pos hwrap]
    split <;> split <;> omega
  . rw [if_neg hwrap]
    split <;> split <;> omega

/--
A pass that reaches the end of the list has narrowed the interval to one without a pid of the list,
a pass that starts over has come closer to every pid that is not on the list.
-/
def PassOk (pids : List Int) (lastPid nextSafe : Int) : PidPass → Prop
  | .done last' next' =>
    lastPid ≤ last' ∧ last' < next' ∧ next' ≤ nextSafe ∧ Unused pids last' next'
  | .again last' =>
    ValidPid last' ∧ ∀ target, ValidPid target → target ∉ pids →
      pidDistance last' target < pidDistance lastPid target

theorem PassOk.cons {pid : Int} {pids : List Int} {lastPid nextSafe last' next' : Int} {r : PidPass}
    (h : PassOk pids last' next' r) (hlast : lastPid ≤ last') (hnext : next' ≤ nextSafe)
    (hout : pid < last' ∨ next' ≤ pid)
    (hcloser : ∀ target, ValidPid target → target ≠ pid →
      pidDistance last' target ≤ pidDistance lastPid target)
    : PassOk (pid :: pids) lastPid nextSafe r := by
  cases r with
  | done last'' next'' =>
    obtain ⟨h₁, h₂, h₃, h₄⟩ := h
    refine ⟨by omega, h₂, by omega, ?_⟩
    rw [unused_cons]
    exact ⟨by omega, h₄⟩
  | again last'' =>
    refine ⟨h.1, ?_⟩
    intro target htarget hnot
    simp only [List.mem_cons, not_or] at hnot
    have h₁ := h.2 target htarget hnot.2
    have h₂ := hcloser target htarget hnot.1
    omega

theorem getPidPass_ok (pids : List Int) {lastPid nextSafe : Int} (hlast : 1 ≤ lastPid)
    (hlt : lastPid < nextSafe) (hle : nextSafe ≤ maxPid)
    : PassOk pids lastPid nextSafe (getPidPass pids lastPid nextSafe) := by
  induction pids generalizing lastPid nextSafe with
  | nil => simpa [getPidPass, PassOk, Unused] using hlt
  | cons pid pids ih =>
    have hvalid : ValidPid lastPid := ⟨hlast, by omega⟩
    rw [getPidPass]
    split
    . next heq =>
      split
      . next hnext =>
        constructor
        . have hmax := maxPid_eq
          by_cases hwrap : lastPid + 1 ≥ maxPid
          . rw [if_pos hwrap]
            exact ⟨by omega, by omega⟩
          . rw [if_neg hwrap]
            exact ⟨by omega, by omega⟩
        . intro target htarget hnot
          have hne : lastPid ≠ target := by
            intro h
            simp [heq, h] at hnot
          rw [pidDistance_next hvalid htarget hne]
          omega
      . next hnext =>
        apply (ih (by omega) (by omega) hle).cons (by omega) (by omega) (by omega)
        intro target htarget hne
        have hstep := pidDistance_next hvalid htarget (by omega)
        rw [if_neg (by omega)] at hstep
        omega
    . next hne =>
      -- a pid in front of last_pid or behind next_safe changes nothing, one between moves next_safe
      split
      . exact (ih hlast (by omega) (by omega)).cons (by omega) (by omega) (by omega)
          (fun _ _ _ => Int.le_refl _)
      . exact (ih hlast hlt hle).cons (by omega) (by omega) (by omega) (fun _ _ _ => Int.le_refl _)

/--
The distance to a pid that is not in use bounds the number of passes.
-/
theorem getPidRepeat_spec {pids : List Int} {target : Int} (htarget : ValidPid target)
    (hnot : target ∉ pids) {fuel : Nat} {lastPid : Int} (hlast : ValidPid lastPid)
    (hfuel : pidDistance lastPid target < fuel)
    : ∃ last' next', getPidRepeat pids fuel lastPid = some (last', next') ∧ 1 ≤ last' ∧
        last' < next' ∧ next' ≤ maxPid ∧ Unused pids last' next' := by
  induction fuel generalizing lastPid with
  | zero =>
    obtain ⟨h₁, h₂⟩ := hlast
    obtain ⟨h₃, h₄⟩ := htarget
    unfold pidDistance at hfuel
    split at hfuel <;> omega
  | succ fuel ih =>
    have hpass := getPidPass_ok pids hlast.1 hlast.2 (Int.le_refl maxPid)
    rw [getPidRepeat]
    cases heq : getPidPass pids lastPid maxPid with
    | done last' next' =>
      rw [heq] at hpass
      obtain ⟨h₁, h₂, h₃, h₄⟩ := hpass
      have := hlast.1
      exact ⟨last', next', rfl, by omega, h₂, h₃, h₄⟩
    | again last' =>
      rw [heq] at hpass
      obtain ⟨hvalid, hcloser⟩ := hpass
      have := hcloser target htarget hnot
      exact ih hvalid (by omega)

theorem pidDistance_lt_pidFuel {lastPid target : Int} (hlast : ValidPid lastPid)
    (htarget : ValidPid target)
    : pidDistance lastPid target < pidFuel := by
  obtain ⟨h₁, h₂⟩ := hlast
  obtain ⟨h₃, h₄⟩ := htarget
  have hmax := maxPid_eq
  simp only [pidDistance, pidFuel]
  split <;> omega

/--
Fewer than `MAX_PID - 1` pids leave one that is not in use.
-/
theorem exists_unused (pids : List Int) (h : pids.length + 1 < maxPid)
    : ∃ target, ValidPid target ∧ target ∉ pids := by
  apply Classical.byContradiction
  intro hnone
  simp only [not_exists, not_and, not_not] at hnone
  have hsub : Finset.Icc 1 (maxPid.toNat - 1) ⊆ (pids.map Int.toNat).toFinset := by
    intro n hn
    simp only [Finset.mem_Icc] at hn
    rw [List.mem_toFinset, List.mem_map]
    refine ⟨n, hnone n ⟨by omega, ?_⟩, by simp⟩
    simp only [maxPid, maxProcess] at *
    omega
  have hcard := Finset.card_le_card hsub
  have hlen := (pids.map Int.toNat).toFinset_card_le
  simp only [Nat.card_Icc, List.length_map, maxPid, maxProcess] at *
  omega

/--
What `get_pid` keeps between its calls: no pid in use lies between `last_pid` and `next_safe`.
-/
structure PidsCached (s : ProcTable) : Prop where
  lastPid_nonneg : 0 ≤ s.lastPid
  nextSafe_le : s.nextSafe ≤ maxPid
  unused : Unused s.pids (s.lastPid + 1) s.nextSafe

theorem getPid_spec {s : ProcTable} (h : s.PidsCached) (hlen : s.pids.length + 1 < maxPid)
    : ∃ pid nextSafe, s.getPid = some (pid, { s with lastPid := pid, nextSafe }) ∧ ValidPid pid ∧
        pid ∉ s.pids ∧ nextSafe ≤ maxPid ∧ Unused s.pids (pid + 1) nextSafe := by
  have hmax := maxPid_eq
  obtain ⟨hnonneg, hle, hunused⟩ := h
  obtain ⟨target, htarget, hnot⟩ := exists_unused s.pids hlen
  have hinside : ∀ lastPid, ValidPid lastPid → ∃ pid nextSafe,
      getPidRepeat s.pids pidFuel lastPid = some (pid, nextSafe) ∧ ValidPid pid ∧
        pid ∉ s.pids ∧ nextSafe ≤ maxPid ∧ Unused s.pids (pid + 1) nextSafe := by
    intro lastPid hlast
    obtain ⟨pid, nextSafe, hrepeat, h₁, h₂, h₃, h₄⟩ :=
      getPidRepeat_spec htarget hnot hlast (pidDistance_lt_pidFuel hlast htarget)
    refine ⟨pid, nextSafe, hrepeat, ⟨h₁, by omega⟩, ?_, h₃, ?_⟩
    . intro hmem
      exact h₄ pid hmem ⟨by omega, h₂⟩
    . intro pid' hmem hin
      exact h₄ pid' hmem ⟨by omega, hin.2⟩
  by_cases hwrap : s.lastPid + 1 ≥ maxPid
  . obtain ⟨pid, nextSafe, hrepeat, hrest⟩ := hinside 1 ⟨by omega, by omega⟩
    exact ⟨pid, nextSafe, by simp [getPid, hwrap, hrepeat], hrest⟩
  . by_cases hsafe : s.lastPid + 1 ≥ s.nextSafe
    . obtain ⟨pid, nextSafe, hrepeat, hrest⟩ := hinside (s.lastPid + 1) ⟨by omega, by omega⟩
      exact ⟨pid, nextSafe, by simp [getPid, hwrap, hsafe, hrepeat], hrest⟩
    . have hpid : s.lastPid + 1 ∉ s.pids := fun hmem => hunused _ hmem ⟨by omega, by omega⟩
      refine ⟨s.lastPid + 1, s.nextSafe, ?_, ⟨by omega, by omega⟩, hpid, hle, ?_⟩
      . simp [getPid, hwrap, hsafe]
      . intro pid' hmem hin
        exact hunused pid' hmem ⟨by omega, hin.2⟩

end ProcTable
end Ucore

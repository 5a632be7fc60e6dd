import Mathlib
import Ucore.Lib.Run

/-!
This module contains programs of any number of threads that take turns on a shared state, and the rule
for their invariants. What a thread has taken of the shared state is an element of a commutative
monoid, an invariant relates the state to the sum over all threads.
-/

namespace Threads

variable {σ γ ι M : Type} [AddCommMonoid M]

/--
A shared state and the control of each thread.
-/
structure System (σ γ : Type) where
  shared : σ
  threads : List γ

/--
Thread `i` takes a step on input, a thread that does not exist takes none.
-/
def step (run : σ → γ → ι → Option (σ × γ)) (s : System σ γ) (i : Nat × ι) : Option (System σ γ) :=
  match s.threads[i.1]? with
  | none => some s
  | some c => (run s.shared c i.2).map fun r => ⟨r.1, s.threads.set i.1 r.2⟩

def total (owns : γ → M) (threads : List γ) : M :=
  (threads.map owns).sum

theorem total_eq_zero {owns : γ → M} {threads : List γ} (h : ∀ c ∈ threads, owns c = 0)
    : total owns threads = 0 := by
  unfold total
  apply List.sum_eq_zero
  intro x hx
  obtain ⟨c, hc, rfl⟩ := List.mem_map.mp hx
  exact h c hc

/--
What the other threads own stays the same when one of them goes on.
-/
theorem total_set (owns : γ → M) {threads : List γ} {i : Nat} {c : γ} (h : threads[i]? = some c)
    : ∃ rest, total owns threads = owns c + rest ∧
      ∀ d, total owns (threads.set i d) = owns d + rest := by
  obtain ⟨hlt, hget⟩ := List.getElem?_eq_some_iff.mp h
  exists total owns (threads.take i) + total owns (threads.drop (i + 1))
  constructor
  . have hsplit : threads = threads.take i ++ c :: threads.drop (i + 1) := by
      rw [← hget, List.getElem_cons_drop, List.take_append_drop]
    calc total owns threads
        = total owns (threads.take i ++ c :: threads.drop (i + 1)) := by rw [← hsplit]
      _ = owns c + (total owns (threads.take i) + total owns (threads.drop (i + 1))) := by
        simp only [total, List.map_append, List.map_cons, List.sum_append, List.sum_cons]
        rw [add_left_comm]
  . intro d
    simp only [total, List.set_eq_take_append_cons_drop, if_pos hlt, List.map_append, List.map_cons,
      List.sum_append, List.sum_cons]
    rw [add_left_comm]

/--
Let every step of a thread keep the invariant, whatever the other threads own, or have no result for
an input that `Stops` it. Then the invariant holds where a run ends, or such an input has stopped it.
-/
theorem exec_invariant {run : σ → γ → ι → Option (σ × γ)} {owns : γ → M} {I : σ → M → Prop}
    (Stops : ι → Prop)
    (hrun : ∀ s c i rest, I s (owns c + rest) →
      run s c i = none ∧ Stops i ∨ ∃ t d, run s c i = some (t, d) ∧ I t (owns d + rest))
    {s : System σ γ} (hs : I s.shared (total owns s.threads)) (is : List (Nat × ι))
    : Run.exec (step run) s is = none ∧ (∃ i ∈ is, Stops i.2) ∨
      ∃ t, Run.exec (step run) s is = some t ∧ I t.shared (total owns t.threads) := by
  induction is generalizing s with
  | nil => exact .inr ⟨s, rfl, hs⟩
  | cons i is ih =>
    have hstep : step run s i = none ∧ Stops i.2 ∨
        ∃ t, step run s i = some t ∧ I t.shared (total owns t.threads) := by
      unfold step
      split
      . exact .inr ⟨s, rfl, hs⟩
      next c hget =>
        obtain ⟨rest, htotal, hset⟩ := total_set owns hget
        rw [htotal] at hs
        cases hrun s.shared c i.2 rest hs with
        | inl hstops => exact .inl ⟨by simp [hstops.1], hstops.2⟩
        | inr hgoes =>
          obtain ⟨t, d, hrun, hI⟩ := hgoes
          exact .inr ⟨⟨t, s.threads.set i.1 d⟩, by simp [hrun], by simpa only [hset] using hI⟩
    cases hstep with
    | inl hstops => exact .inl ⟨by simp [Run.exec, hstops.1], i, by simp, hstops.2⟩
    | inr hgoes =>
      obtain ⟨t, ht, hI⟩ := hgoes
      cases ih hI with
      | inl hstops =>
        obtain ⟨hexec, j, hj, hstop⟩ := hstops
        exact .inl ⟨by simp [Run.exec, ht, hexec], j, List.mem_cons_of_mem _ hj, hstop⟩
      | inr hends =>
        obtain ⟨u, hu, hIu⟩ := hends
        exact .inr ⟨u, by simp [Run.exec, ht, hu], hIu⟩

/--
The rule for threads that never stop.
-/
theorem exec_invariant_of_total {run : σ → γ → ι → Option (σ × γ)} {owns : γ → M} {I : σ → M → Prop}
    (hrun : ∀ s c i rest, I s (owns c + rest) →
      ∃ t d, run s c i = some (t, d) ∧ I t (owns d + rest))
    {s : System σ γ} (hs : I s.shared (total owns s.threads)) (is : List (Nat × ι))
    : ∃ t, Run.exec (step run) s is = some t ∧ I t.shared (total owns t.threads) := by
  have h := exec_invariant (fun _ => False)
    (fun s c i rest hI => .inr (hrun s c i rest hI)) hs is
  simpa using h

end Threads

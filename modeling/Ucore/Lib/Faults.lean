import Mathlib

/-!
This module contains the answers of an environment a program makes requests to. The requests are
numbered by kind, and each of them is either answered or refused with an error. How many requests of
each kind a program makes is its cost.
-/

/--
`f k n` is `none` if the `n`-th request of kind `k` is answered.
-/
def Faults (κ ε : Type) := κ → Nat → Option ε

namespace Faults

variable {κ ε : Type}

def never : Faults κ ε := fun _ _ => none

/--
What is left after `c k` requests of each kind `k`.
-/
def drop (f : Faults κ ε) (c : κ → Nat) : Faults κ ε := fun k n => f k (c k + n)

/--
The next `c k` requests of each kind `k` are all answered.
-/
def Answers (f : Faults κ ε) (c : κ → Nat) : Prop := ∀ k, ∀ n < c k, f k n = none

variable {f : Faults κ ε} {c d : κ → Nat}

@[simp]
theorem drop_zero : f.drop 0 = f := by
  funext k n
  simp [drop]

@[simp]
theorem drop_drop : (f.drop c).drop d = f.drop (c + d) := by
  funext k n
  simp [drop, Nat.add_assoc]

@[simp]
theorem never_drop : (never : Faults κ ε).drop c = never := rfl

@[simp]
theorem answers_zero : f.Answers 0 := by
  intro k n hn
  simp at hn

@[simp]
theorem answers_never : (never : Faults κ ε).Answers c := by
  intro k n hn
  rfl

theorem answers_add : f.Answers (c + d) ↔ f.Answers c ∧ (f.drop c).Answers d := by
  constructor
  . intro h
    refine ⟨?_, ?_⟩
    . intro k n hn
      exact h k n (by simp only [Pi.add_apply]; omega)
    . intro k n hn
      exact h k (c k + n) (by simp only [Pi.add_apply]; omega)
  . intro ⟨h₁, h₂⟩ k n hn
    simp only [Pi.add_apply] at hn
    by_cases hlt : n < c k
    . exact h₁ k n hlt
    . have := h₂ k (n - c k) (by omega)
      simp only [drop] at this
      rwa [Nat.add_sub_of_le (by omega)] at this

theorem not_answers_add_left (h : ¬f.Answers c) : ¬f.Answers (c + d) := by
  intro hadd
  exact h (answers_add.mp hadd).1

theorem not_answers_add_right (h : ¬(f.drop c).Answers d) : ¬f.Answers (c + d) := by
  intro hadd
  exact h (answers_add.mp hadd).2

theorem Answers.mono (h : f.Answers d) (hle : ∀ k, c k ≤ d k) : f.Answers c := by
  intro k n hn
  exact h k n (Nat.lt_of_lt_of_le hn (hle k))

section

variable [DecidableEq κ]

/--
The cost of `n` requests of kind `k`.
-/
def cost (k : κ) (n : Nat) : κ → Nat := fun k' => if k' = k then n else 0

theorem cost_add (k : κ) (m n : Nat) : cost k m + cost k n = cost k (m + n) := by
  funext k'
  by_cases h : k' = k
  . simp [cost, h]
  . simp [cost, h]

@[simp]
theorem cost_zero (k : κ) : cost k 0 = 0 := by
  funext k'
  simp [cost]

theorem answers_cost {k : κ} {n : Nat} : f.Answers (cost k n) ↔ ∀ i < n, f k i = none := by
  constructor
  . intro h i hi
    exact h k i (by simpa [cost] using hi)
  . intro h k' i hi
    by_cases hk : k' = k
    . subst hk
      exact h i (by simpa [cost] using hi)
    . simp [cost, hk] at hi

theorem answers_cost_one {k : κ} : f.Answers (cost k 1) ↔ f k 0 = none := by
  rw [answers_cost]
  constructor
  . intro h
    exact h 0 (by omega)
  . intro h i hi
    obtain rfl : i = 0 := by omega
    exact h

end

end Faults

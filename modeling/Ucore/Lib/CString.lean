import Mathlib

/-!
This module contains texts in a memory: characters at consecutive addresses with a terminator behind them.
-/

namespace CString

variable {α : Type} {nul : α} {mem mem' : Nat → α} {text text' : List α} {p : Nat}

/--
The text at address `p`.
-/
def At (nul : α) (mem : Nat → α) (p : Nat) : List α → Prop
  | [] => mem p = nul
  | c :: text => mem p = c ∧ c ≠ nul ∧ At nul mem (p + 1) text

theorem At.congr (h : At nul mem p text) (heq : ∀ i, p ≤ i → i ≤ p + text.length → mem' i = mem i)
    : At nul mem' p text := by
  induction text generalizing p with
  | nil => exact (heq p (Nat.le_refl p) (Nat.le_refl p)).trans h
  | cons c text ih =>
    obtain ⟨hc, hne, hrest⟩ := h
    rw [List.length_cons] at heq
    exact ⟨(heq p (by omega) (by omega)).trans hc, hne, ih hrest fun i hi hi' => heq i (by omega) (by omega)⟩

/--
The first part of a text ends where a terminator is written.
-/
theorem At.cut (h : At nul mem p (text ++ text')) (heq : ∀ i, p ≤ i → i < p + text.length → mem' i = mem i)
    (hnul : mem' (p + text.length) = nul)
    : At nul mem' p text := by
  induction text generalizing p with
  | nil => exact hnul
  | cons c text ih =>
    obtain ⟨hc, hne, hrest⟩ := h
    rw [List.length_cons] at heq hnul
    rw [← Nat.add_assoc, Nat.add_right_comm] at hnul
    exact ⟨(heq p (by omega) (by omega)).trans hc, hne,
      ih hrest (fun i hi hi' => heq i (by omega) (by omega)) hnul⟩

theorem At.behind (h : At nul mem p (text ++ text')) : At nul mem (p + text.length) text' := by
  induction text generalizing p with
  | nil => exact h
  | cons c text ih =>
    rw [List.length_cons, ← Nat.add_assoc, Nat.add_right_comm]
    exact ih h.2.2

theorem At.unique (h : At nul mem p text) (h' : At nul mem p text') : text = text' := by
  induction text generalizing p text' with
  | nil =>
    cases text' with
    | nil => rfl
    | cons c' text' => exact absurd (h'.1.symm.trans h) h'.2.1
  | cons c text ih =>
    cases text' with
    | nil => exact absurd (h.1.symm.trans h') h.2.1
    | cons c' text' => rw [h.1.symm.trans h'.1, ih h.2.2 h'.2.2]

theorem At.apply_eq_nul_iff (h : At nul mem p text) : mem p = nul ↔ text = [] := by
  cases text with
  | nil => simpa [At] using h
  | cons c text => simpa [h.1] using h.2.1

/--
A list with the terminator behind it is a memory with the list as its text.
-/
theorem at_getD (pre line : List α) (h : nul ∉ line)
    : At nul (fun i => (pre ++ line).getD i nul) pre.length line := by
  induction line generalizing pre with
  | nil => simp [At]
  | cons c line ih =>
    rw [List.mem_cons, not_or] at h
    have hrest := ih (pre ++ [c]) h.2
    rw [List.append_assoc, List.singleton_append, List.length_append, List.length_singleton] at hrest
    exact ⟨by simp, fun hc => h.1 hc.symm, hrest⟩

end CString

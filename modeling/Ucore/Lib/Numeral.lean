import Mathlib

/-!
This module contains the digits of a number as they are written, the most significant one first.
-/

namespace Numeral

/--
The digits of `n` in base `b`, without leading zeros unless it is `0`.
-/
def digits (b n : Nat) : List Nat := if n = 0 then [0] else (Nat.digits b n).reverse

/--
What a row of digits stands for when they are read behind a number `v`.
-/
def value (b v : Nat) (ds : List Nat) : Nat := ds.foldl (fun v d => v * b + d) v

variable {b n v d : Nat} {ds es : List Nat}

theorem digits_zero : digits b 0 = [0] := if_pos rfl

theorem digits_of_pos (h : 0 < n) : digits b n = (Nat.digits b n).reverse := if_neg (by omega)

theorem digits_of_lt (h : n < b) : digits b n = [n] := by
  cases Nat.eq_zero_or_pos n with
  | inl hzero => rw [hzero, digits_zero]
  | inr hpos =>
    rw [digits_of_pos hpos, Nat.digits_of_lt b n (by omega) h]
    rfl

theorem digits_of_le (hb : 1 < b) (h : b ≤ n) : digits b n = digits b (n / b) ++ [n % b] := by
  have hpos : 0 < n := by omega
  have hdiv : 0 < n / b := Nat.div_pos h (by omega)
  rw [digits_of_pos hpos, digits_of_pos hdiv, Nat.digits_def' hb hpos, List.reverse_cons]

theorem length_digits_pos (b n : Nat) : 0 < (digits b n).length := by
  cases Nat.eq_zero_or_pos n with
  | inl hzero =>
    rw [hzero, digits_zero]
    exact Nat.one_pos
  | inr hpos =>
    rw [digits_of_pos hpos, List.length_reverse, List.length_pos_iff]
    exact Nat.digits_ne_nil_iff_ne_zero.mpr (by omega)

theorem lt_of_mem_digits (hb : 1 < b) (h : d ∈ digits b n) : d < b := by
  cases Nat.eq_zero_or_pos n with
  | inl hzero =>
    rw [hzero, digits_zero, List.mem_singleton] at h
    omega
  | inr hpos =>
    rw [digits_of_pos hpos, List.mem_reverse] at h
    exact Nat.digits_lt_base hb h

theorem length_digits_le {k : Nat} (hb : 1 < b) (hk : 0 < k) (h : n < b ^ k) : (digits b n).length ≤ k := by
  cases Nat.eq_zero_or_pos n with
  | inl hzero =>
    rw [hzero, digits_zero]
    exact hk
  | inr hpos =>
    rw [digits_of_pos hpos, List.length_reverse]
    exact (Nat.digits_length_le_iff hb n).mpr h

/--
Only `0` is written with a leading zero.
-/
theorem head_digits (h : 0 < n) : ∃ d ds, digits b n = d :: ds ∧ d ≠ 0 := by
  have hne : Nat.digits b n ≠ [] := Nat.digits_ne_nil_iff_ne_zero.mpr (by omega)
  have hlast := Nat.getLast_digit_ne_zero b (by omega : n ≠ 0)
  rw [digits_of_pos h]
  refine ⟨(Nat.digits b n).getLast hne, (Nat.digits b n).dropLast.reverse, ?_, hlast⟩
  rw [← List.reverse_concat', List.dropLast_append_getLast]

theorem value_append : value b v (ds ++ es) = value b (value b v ds) es := List.foldl_append ..

/--
Reading gives back the number that was written.
-/
theorem value_digits (b n : Nat) : value b 0 (digits b n) = n := by
  cases Nat.eq_zero_or_pos n with
  | inl hzero =>
    rw [hzero, digits_zero]
    simp [value]
  | inr hpos =>
    calc value b 0 (digits b n) = (Nat.digits b n).foldr (fun d v => v * b + d) 0 := by
          rw [value, digits_of_pos hpos, List.foldl_reverse]
      _ = Nat.ofDigits b (Nat.digits b n) := by
          rw [Nat.ofDigits_eq_foldr]
          congr 1
          funext d v
          rw [Nat.cast_id, Nat.mul_comm, Nat.add_comm]
      _ = n := Nat.ofDigits_digits b n

end Numeral

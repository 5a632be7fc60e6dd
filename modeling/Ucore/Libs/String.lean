/-!
This module contains the functions of libs/string.c that look for a character. Strings are without the `NUL` that ends
them.
-/

namespace Ucore

/--
The code of a character.
-/
def chr (c : Char) : UInt8 := c.toNat.toUInt8

/--
The result is whether the pointer is not `NULL`. A `NUL` is not found.
-/
def strchr : List UInt8 → UInt8 → Bool
  | [], _ => false
  | d :: s, c => d = c || strchr s c

theorem strchr_eq_true_iff {s : List UInt8} {c : UInt8} : strchr s c = true ↔ c ∈ s := by
  induction s with
  | nil => exact iff_of_false Bool.false_ne_true (List.not_mem_nil)
  | cons d s ih => rw [strchr, Bool.or_eq_true, decide_eq_true_iff, ih, List.mem_cons, eq_comm]

end Ucore

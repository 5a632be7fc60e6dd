import Mathlib

/-!
This module contains rings of cells between a position for reading and one for writing. The positions wrap around, and
equal positions mean that nothing is in between.
-/

namespace Ring

variable {α : Type} {buf : Nat → α} {cap r w n : Nat}

/--
The position behind `p`.
-/
def next (cap p : Nat) : Nat := if p + 1 = cap then 0 else p + 1

/--
The number of cells from `r` up to `w`.
-/
def unread (cap r w : Nat) : Nat := if r ≤ w then w - r else w + cap - r

/--
`n` cells from `r` on.
-/
def content (cap : Nat) (buf : Nat → α) (r : Nat) : Nat → List α
  | 0 => []
  | n + 1 => buf r :: content cap buf (next cap r) n

theorem next_lt (h : r < cap) : next cap r < cap := by
  unfold next
  split
  . omega
  . omega

theorem unread_lt (hr : r < cap) (hw : w < cap) : unread cap r w < cap := by
  unfold unread
  split
  . omega
  . omega

theorem unread_self (cap r : Nat) : unread cap r r = 0 := by
  simp [unread]

theorem unread_eq_zero_iff (hr : r < cap) (hw : w < cap) : unread cap r w = 0 ↔ r = w := by
  unfold unread
  split
  . omega
  . omega

theorem unread_next (hr : r < cap) (hw : w < cap) (h : unread cap r w + 1 < cap)
    : unread cap r (next cap w) = unread cap r w + 1 := by
  unfold unread next at *
  split at h
  . split
    . rw [if_neg (by omega)]
      omega
    . rw [if_pos (by omega)]
      omega
  . rw [if_neg (by omega : ¬w + 1 = cap), if_neg (by omega : ¬r ≤ w + 1), if_neg (by omega : ¬r ≤ w)]
    omega

/--
Writing to the last cell makes the ring look empty.
-/
theorem unread_next_of_full (hr : r < cap) (hw : w < cap) (h : unread cap r w + 1 = cap)
    : unread cap r (next cap w) = 0 := by
  rw [unread_eq_zero_iff hr (next_lt hw)]
  unfold unread at h
  unfold next
  split at h
  . rw [if_pos (by omega)]
    omega
  . rw [if_neg (by omega)]
    omega

theorem unread_next_read (hr : r < cap) (hw : w < cap) (hne : r ≠ w)
    : unread cap (next cap r) w + 1 = unread cap r w := by
  unfold unread next
  split
  . rw [if_pos (Nat.zero_le _), if_neg (by omega)]
    omega
  . by_cases hle : r ≤ w
    . rw [if_pos (by omega), if_pos hle]
      omega
    . rw [if_neg (by omega), if_neg hle]
      omega

theorem content_length : (content cap buf r n).length = n := by
  induction n generalizing r with
  | zero => rfl
  | succ n ih => rw [content, List.length_cons, ih]

/--
The new cell is behind the others.
-/
theorem content_write {x : α} (hr : r < cap) (hw : w < cap) (hn : n = unread cap r w) (hfit : n + 1 < cap)
    : content cap (Function.update buf w x) r (n + 1) = content cap buf r n ++ [x] := by
  induction n generalizing r with
  | zero =>
    obtain rfl := (unread_eq_zero_iff hr hw).mp hn.symm
    simp [content]
  | succ n ih =>
    have hne : r ≠ w := by
      rintro rfl
      rw [unread_self] at hn
      omega
    have hrest := unread_next_read hr hw hne
    rw [content, ih (next_lt hr) (by omega) (by omega), Function.update_of_ne hne]
    rfl

end Ring

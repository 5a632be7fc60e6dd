import Mathlib

/-!
This module contains memory as a function from addresses to bytes, copies from one memory to
another, and unsigned integers stored in memory with the lowest byte first.
-/

abbrev Bytes := Nat → UInt8

namespace Bytes

def zero : Bytes := fun _ => 0

/--
The memory that starts at address `n`.
-/
def drop (b : Bytes) (n : Nat) : Bytes := fun i => b (n + i)

/--
Copy the first `n` bytes of `src` to the addresses from `off` on.
-/
def copy (dst : Bytes) (off : Nat) (src : Bytes) (n : Nat) : Bytes := fun i =>
  if off ≤ i ∧ i < off + n then src (i - off) else dst i

/--
The bytes of an integer, the lowest byte first.
-/
def ofNat (n : Nat) : Bytes := fun i => UInt8.ofNat (n / 256 ^ i)

/--
The integer stored in the first `w` bytes.
-/
def toNat (b : Bytes) : Nat → Nat
  | 0 => 0
  | w + 1 => (b 0).toNat + 256 * toNat (b.drop 1) w

@[simp]
theorem zero_apply (i : Nat) : zero i = 0 := rfl

theorem drop_apply (b : Bytes) (n i : Nat) : b.drop n i = b (n + i) := rfl

@[simp]
theorem drop_zero (b : Bytes) : b.drop 0 = b := by
  funext i
  simp [drop]

@[simp]
theorem drop_drop (b : Bytes) (m n : Nat) : (b.drop m).drop n = b.drop (m + n) := by
  funext i
  simp [drop, Nat.add_assoc]

theorem copy_apply (dst : Bytes) (off : Nat) (src : Bytes) (n i : Nat)
    : dst.copy off src n i = if off ≤ i ∧ i < off + n then src (i - off) else dst i := rfl

theorem copy_of_mem (dst : Bytes) {off : Nat} (src : Bytes) {n i : Nat} (h₁ : off ≤ i)
    (h₂ : i < off + n)
    : dst.copy off src n i = src (i - off) := by
  simp [copy, h₁, h₂]

theorem copy_of_not_mem (dst : Bytes) {off : Nat} (src : Bytes) {n i : Nat}
    (h : i < off ∨ off + n ≤ i)
    : dst.copy off src n i = dst i := by
  rw [copy_apply, if_neg]
  omega

@[simp]
theorem copy_zero (dst : Bytes) (off : Nat) (src : Bytes) : dst.copy off src 0 = dst := by
  funext i
  exact copy_of_not_mem dst src (by omega)

theorem copy_congr (dst : Bytes) (off : Nat) {src src' : Bytes} {n : Nat}
    (h : ∀ i < n, src i = src' i)
    : dst.copy off src n = dst.copy off src' n := by
  funext i
  by_cases hi : off ≤ i ∧ i < off + n
  . rw [copy_of_mem _ _ hi.1 hi.2, copy_of_mem _ _ hi.1 hi.2, h _ (by omega)]
  . rw [copy_of_not_mem _ _ (by omega), copy_of_not_mem _ _ (by omega)]

theorem copy_copy (dst : Bytes) (off : Nat) (src : Bytes) (m n : Nat)
    : (dst.copy off src m).copy (off + m) (src.drop m) n = dst.copy off src (m + n) := by
  funext i
  by_cases h : off + m ≤ i
  . by_cases h' : i < off + m + n
    . rw [copy_of_mem _ _ h h', copy_of_mem _ _ (by omega) (by omega), drop_apply]
      congr 1
      omega
    . rw [copy_of_not_mem _ _ (by omega), copy_of_not_mem _ _ (by omega),
        copy_of_not_mem _ _ (by omega)]
  . rw [copy_of_not_mem _ _ (by omega)]
    by_cases h' : off ≤ i
    . rw [copy_of_mem _ _ h' (by omega), copy_of_mem _ _ h' (by omega)]
    . rw [copy_of_not_mem _ _ (by omega), copy_of_not_mem _ _ (by omega)]

theorem toNat_lt (b : Bytes) (w : Nat) : b.toNat w < 256 ^ w := by
  induction w generalizing b with
  | zero => simp [toNat]
  | succ w ih =>
    have h₁ := ih (b.drop 1)
    have h₂ := (b 0).toNat_lt
    rw [toNat, Nat.pow_succ]
    omega

theorem toNat_congr {b b' : Bytes} {w : Nat} (h : ∀ i < w, b i = b' i) : b.toNat w = b'.toNat w := by
  induction w generalizing b b' with
  | zero => rfl
  | succ w ih =>
    rw [toNat, toNat, h 0 (by omega)]
    rw [@ih _ (b'.drop 1)]
    intro i hi
    exact h (1 + i) (by omega)

@[simp]
theorem toNat_zero (w : Nat) : zero.toNat w = 0 := by
  induction w with
  | zero => rfl
  | succ w ih =>
    have : zero.drop 1 = zero := rfl
    simp [toNat, this, ih]

theorem toNat_ofNat (n w : Nat) : (ofNat n).toNat w = n % 256 ^ w := by
  induction w generalizing n with
  | zero => simp [toNat, Nat.mod_one]
  | succ w ih =>
    have hdrop : (ofNat n).drop 1 = ofNat (n / 256) := by
      funext i
      simp [drop, ofNat, Nat.div_div_eq_div_mul, Nat.pow_add]
    have hhead : (ofNat n 0).toNat = n % 256 := by simp [ofNat]
    rw [toNat, hdrop, ih, hhead, Nat.pow_succ']
    exact (Nat.mod_mul).symm

theorem toNat_ofNat_of_lt {n w : Nat} (h : n < 256 ^ w) : (ofNat n).toNat w = n := by
  rw [toNat_ofNat, Nat.mod_eq_of_lt h]

/--
An integer inside the memory only depends on the bytes it is stored in.
-/
theorem toNat_drop_congr {b b' : Bytes} {off w : Nat}
    (h : ∀ i, off ≤ i → i < off + w → b i = b' i)
    : (b.drop off).toNat w = (b'.drop off).toNat w :=
  toNat_congr fun i hi => h (off + i) (by omega) (by omega)

theorem toNat_drop_copy (b src : Bytes) (off w : Nat)
    : ((b.copy off src w).drop off).toNat w = src.toNat w := by
  apply toNat_congr
  intro i hi
  rw [drop_apply, copy_of_mem _ _ (by omega) (by omega)]
  congr 1
  omega

/--
The bytes of a list with zeros behind them.
-/
def ofList (l : List UInt8) : Bytes := fun i => l.getD i 0

/--
Data in front of other data.
-/
theorem copy_append (dst : Bytes) {off : Nat} (l l' : List UInt8) (h : l.length + l'.length ≤ off)
    : (dst.copy (off - l'.length) (ofList l') l'.length).copy (off - l'.length - l.length) (ofList l) l.length
        = dst.copy (off - (l ++ l').length) (ofList (l ++ l')) (l ++ l').length := by
  have hlen : (l ++ l').length = l.length + l'.length := List.length_append
  rw [hlen]
  funext i
  simp only [copy_apply, ofList]
  by_cases h₁ : i < off - l'.length - l.length
  . rw [if_neg (by omega), if_neg (by omega), if_neg (by omega)]
  by_cases h₂ : i < off - l'.length
  . rw [if_pos (by omega), if_pos (by omega), List.getD_append _ _ _ _ (by omega)]
    congr 1
    omega
  by_cases h₃ : i < off
  . rw [if_neg (by omega), if_pos (by omega), if_pos (by omega), List.getD_append_right _ _ _ _ (by omega)]
    congr 1
    omega
  . rw [if_neg (by omega), if_neg (by omega), if_neg (by omega)]

/--
The number in the four bytes from `4 * i` on.
-/
def word (b : Bytes) (i : Nat) : Nat := (b.drop (4 * i)).toNat 4

/--
Words in memory, the lowest byte first.
-/
def ofWords (w : Nat → Nat) : Bytes := fun i => ofNat (w (i / 4)) (i % 4)

theorem word_congr {b b' : Bytes} {i : Nat} (h : ∀ j < 4, b (4 * i + j) = b' (4 * i + j))
    : b.word i = b'.word i :=
  toNat_congr h

theorem word_ofWords {w : Nat → Nat} {i : Nat} (h : w i < 2 ^ 32) : (ofWords w).word i = w i := by
  have hbytes : ∀ j < 4, (ofWords w).drop (4 * i) j = ofNat (w i) j := by
    intro j hj
    have hdiv : (4 * i + j) / 4 = i := by omega
    have hmod : (4 * i + j) % 4 = j := by omega
    rw [drop_apply, ofWords, hdiv, hmod]
  rw [word, toNat_congr hbytes, toNat_ofNat_of_lt h]

end Bytes

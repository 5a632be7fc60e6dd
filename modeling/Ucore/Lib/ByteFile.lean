import Ucore.Lib.Bytes

/-!
This module contains files as arrays of bytes: reading a range, and overwriting a range in a way that
may let the file grow.
-/

/--
All bytes behind the end of the file are zero.
-/
@[ext]
structure ByteFile where
  size : Nat
  byte : Bytes
  byte_of_ge : ∀ i, size ≤ i → byte i = 0

namespace ByteFile

/--
The first `size` bytes of `b`.
-/
def ofBytes (size : Nat) (b : Bytes) : ByteFile where
  size := size
  byte i := if i < size then b i else 0
  byte_of_ge _ h := if_neg (Nat.not_lt.mpr h)

def empty : ByteFile := ofBytes 0 Bytes.zero

/--
The number of bytes there are to read from `offset` on, if `len` are asked for.
-/
def count (f : ByteFile) (offset len : Nat) : Nat := min (offset + len) f.size - offset

def overwrite (f : ByteFile) (offset : Nat) (src : Bytes) (len : Nat) : ByteFile where
  size := max f.size (offset + len)
  byte := f.byte.copy offset src len
  byte_of_ge i h := by
    rw [Bytes.copy_of_not_mem _ _ (by omega)]
    exact f.byte_of_ge i (by omega)

theorem overwrite_byte (f : ByteFile) (offset : Nat) (src : Bytes) (len : Nat)
    : (f.overwrite offset src len).byte = f.byte.copy offset src len := rfl

theorem ofBytes_byte {size : Nat} {b : Bytes} {i : Nat} (h : i < size)
    : (ofBytes size b).byte i = b i :=
  if_pos h

theorem ofBytes_congr {size : Nat} {b b' : Bytes} (h : ∀ i < size, b i = b' i)
    : ofBytes size b = ofBytes size b' := by
  ext1
  . rfl
  . funext i
    by_cases hi : i < size
    . rw [ofBytes_byte hi, ofBytes_byte hi, h i hi]
    . rw [(ofBytes size b).byte_of_ge i (Nat.not_lt.mp hi),
        (ofBytes size b').byte_of_ge i (Nat.not_lt.mp hi)]

/--
Overwriting the bytes that a file is taken from, if there is no gap in front of the new ones.
-/
theorem ofBytes_copy {size offset : Nat} (h : offset ≤ size) (b src : Bytes) (len : Nat)
    : ofBytes (max size (offset + len)) (b.copy offset src len) =
        (ofBytes size b).overwrite offset src len := by
  ext1
  . rfl
  . funext i
    by_cases hi : i < max size (offset + len)
    . rw [ofBytes_byte hi, overwrite_byte, Bytes.copy_apply, Bytes.copy_apply]
      split
      . rfl
      . rw [ofBytes_byte (by omega)]
    . rw [(ofBytes _ _).byte_of_ge i (Nat.not_lt.mp hi),
        ((ofBytes size b).overwrite offset src len).byte_of_ge i (Nat.not_lt.mp hi)]

theorem overwrite_zero {f : ByteFile} {offset : Nat} (h : offset ≤ f.size) (src : Bytes)
    : f.overwrite offset src 0 = f := by
  ext1
  . exact Nat.max_eq_left h
  . exact Bytes.copy_zero _ _ _

end ByteFile

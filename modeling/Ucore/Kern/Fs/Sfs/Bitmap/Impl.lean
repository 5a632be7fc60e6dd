import Mathlib
import Ucore.Kern.Fs.Panic
import Ucore.Lib.Prog
import Ucore.Libs.Error

/-!
This module contains the bitmap of kern/fs/sfs/bitmap.c, in which a set bit stands for a free block.
-/

namespace Ucore

abbrev wordBits : Nat := 32

structure Bitmap where
  nbits : Nat
  nwords : Nat
  map : Nat → BitVec 32

namespace Bitmap

def mask (offset : Nat) : BitVec 32 := 1#32 <<< offset

def bitmapAlloc : Prog Errno Panic Bitmap Nat := fun bitmap =>
  match (List.range bitmap.nwords).find? fun ix => bitmap.map ix ≠ 0 with
  | none => .error .noMem bitmap
  | some ix =>
    match (List.range wordBits).find? fun offset => bitmap.map ix &&& mask offset ≠ 0 with
    | none => .panic .bitmapAlloc
    | some offset =>
      .ok (ix * wordBits + offset)
        { bitmap with map := Function.update bitmap.map ix (bitmap.map ix ^^^ mask offset) }

def bitmapTest (index : Nat) : Prog Errno Panic Bitmap Bool := do
  let bitmap ← Prog.get
  Prog.assert (index < bitmap.nbits) .bitmapTranslate
  return bitmap.map (index / wordBits) &&& mask (index % wordBits) ≠ 0

def bitmapFree (index : Nat) : Prog Errno Panic Bitmap Unit := do
  let bitmap ← Prog.get
  Prog.assert (index < bitmap.nbits) .bitmapTranslate
  Prog.assert (bitmap.map (index / wordBits) &&& mask (index % wordBits) = 0) .bitmapFree
  Prog.modify fun bitmap =>
    { bitmap with
      map := Function.update bitmap.map (index / wordBits)
        (bitmap.map (index / wordBits) ||| mask (index % wordBits)) }

end Bitmap

end Ucore

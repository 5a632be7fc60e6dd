import Ucore.Kern.Fs.Panic
import Ucore.Lib.Prog
import Ucore.Libs.Error

/-!
This module contains the memory that the simple file system asks `kmalloc` for when it is mounted.
-/

namespace Ucore

/--
What a piece of memory holds.
-/
inductive Chunk where
  | fs
  | sfsBuffer
  | hashList
  | bitmap
  | bitmapMap
  deriving DecidableEq

/--
The pieces that were handed out and not freed since, and which of the coming requests are refused.
-/
structure Kmem where
  live : List Chunk
  refuses : Nat → Bool

namespace Kmem

/--
The result is whether the pointer is not `NULL`.
-/
def kmalloc (c : Chunk) : Prog Errno Panic Kmem Bool := fun mem =>
  let refuses := fun n => mem.refuses (n + 1)
  if mem.refuses 0 then .ok false { mem with refuses } else .ok true { live := c :: mem.live, refuses }

def kfree (c : Chunk) : Prog Errno Panic Kmem Unit :=
  Prog.modify fun mem => { mem with live := mem.live.erase c }

theorem kmalloc_sat (c : Chunk) (mem : Kmem)
    : (kmalloc c mem).Sat
        (fun b mem' => mem'.refuses = (fun n => mem.refuses (n + 1)) ∧
          (b = false ∧ mem.refuses 0 = true ∧ mem'.live = mem.live ∨
            b = true ∧ mem.refuses 0 = false ∧ mem'.live = c :: mem.live))
        (fun _ _ => False) (fun _ => False) := by
  unfold kmalloc
  split
  next h => exact ⟨rfl, Or.inl ⟨rfl, h, rfl⟩⟩
  next h => exact ⟨rfl, Or.inr ⟨rfl, Bool.eq_false_iff.mpr h, rfl⟩⟩

end Kmem
end Ucore

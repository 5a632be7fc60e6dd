import Ucore.Kern.Fs.Kmem
import Ucore.Kern.Fs.Sfs.Bitmap.Lemmas

/-!
This module contains `bitmap_create` and `bitmap_destroy` of kern/fs/sfs/bitmap.c.
-/

namespace Ucore
namespace Bitmap

/--
The loop of `bitmap_create` over the leftover bits.
-/
def toggleBits : Nat → Nat → BitVec 32 → BitVec 32
  | 0, _, word => word
  | k + 1, overbits, word => toggleBits k (overbits + 1) (word ^^^ mask overbits)

/--
The words of a bitmap to which `memset` has been applied.
-/
def filled (nwords : Nat) : Nat → BitVec 32 := fun ix => if ix < nwords then BitVec.allOnes 32 else 0

/--
`WORD_BITS` is a `size_t`, so the sums have 64 bits.
-/
def bitmapCreate (nbits : Nat) : Prog Errno Panic Kmem (Option Bitmap) := do
  Prog.assert (nbits ≠ 0 ∧ (nbits + wordBits) % 2 ^ 64 > nbits) .bitmapCreate
  if ← Kmem.kmalloc .bitmap then
    let nwords := (nbits + (wordBits - 1)) % 2 ^ 64 / wordBits % 2 ^ 32
    if ← Kmem.kmalloc .bitmapMap then
      if nbits ≠ nwords * wordBits then
        let ix := nwords - 1
        let overbits := nbits - ix * wordBits
        Prog.assert (nbits / wordBits = ix) .bitmapCreateWord
        Prog.assert (overbits > 0 ∧ overbits < wordBits) .bitmapCreateBits
        let word := toggleBits (wordBits - overbits) overbits (filled nwords ix)
        return some { nbits, nwords, map := Function.update (filled nwords) ix word }
      else
        return some { nbits, nwords, map := filled nwords }
    else
      Kmem.kfree .bitmap
      return none
  else
    return none

def bitmapDestroy : Prog Errno Panic Kmem Unit := do
  Kmem.kfree .bitmapMap
  Kmem.kfree .bitmap

variable {bitmap bitmap' : Bitmap} {nbits k o i : Nat} {word : BitVec 32} {mem : Kmem}

theorem getLsbD_toggleBits (h : o + k ≤ wordBits)
    : (toggleBits k o word).getLsbD i = (word.getLsbD i ^^ decide (o ≤ i ∧ i < o + k)) := by
  induction k generalizing o word with
  | zero =>
    have hempty : ¬(o ≤ i ∧ i < o + 0) := by omega
    rw [decide_eq_false hempty, Bool.xor_false]
    rfl
  | succ k ih =>
    rw [toggleBits, ih (by omega), BitVec.getLsbD_xor, getLsbD_mask (by omega), Bool.xor_assoc]
    congr 1
    by_cases hi : i = o
    . subst hi
      simp
    . have hrange : o + 1 ≤ i ∧ i < o + 1 + k ↔ o ≤ i ∧ i < o + (k + 1) := by omega
      simp only [hi, decide_false, Bool.false_xor, hrange]

theorem bit_filled {nwords : Nat}
    : (⟨nbits, nwords, filled nwords⟩ : Bitmap).bit i = decide (i < nwords * wordBits) := by
  have hword : i / wordBits < nwords ↔ i < nwords * wordBits := Nat.div_lt_iff_lt_mul (by decide)
  have hmod : i % wordBits < 32 := Nat.mod_lt _ (by decide)
  simp only [bit, filled, ← decide_eq_decide.mpr hword]
  split
  next h => rw [BitVec.getLsbD_allOnes, decide_eq_true hmod, decide_eq_true h]
  next h => rw [BitVec.ofNat_eq_ofNat, BitVec.getLsbD_zero, decide_eq_false h]

/--
What a bitmap of `n` bits looks like that are all free.
-/
structure Fresh (bitmap : Bitmap) (n : Nat) : Prop where
  nbits_eq : bitmap.nbits = n
  le : n ≤ bitmap.nwords * wordBits
  lt : bitmap.nwords * wordBits < n + wordBits
  bit : ∀ i, bitmap.bit i = decide (i < n)

/--
Toggling the leftover bits of the last word leaves the others free.
-/
theorem fresh_toggled {ix : Nat} (hlow : ix * wordBits < nbits) (hhigh : nbits < (ix + 1) * wordBits)
    : Fresh
        ⟨nbits, ix + 1, Function.update (filled (ix + 1)) ix
          (toggleBits (wordBits - (nbits - ix * wordBits)) (nbits - ix * wordBits) (filled (ix + 1) ix))⟩
        nbits := by
  have hover : nbits - ix * wordBits ≤ wordBits := by
    simp only [wordBits] at hhigh ⊢
    omega
  refine ⟨rfl, hhigh.le, ?_, fun i => ?_⟩
  . rw [Nat.succ_mul]
    omega
  have hfilled : (filled (ix + 1) (i / wordBits)).getLsbD (i % wordBits) = decide (i < (ix + 1) * wordBits) :=
    @bit_filled nbits i (ix + 1)
  simp only [Bitmap.bit]
  by_cases hword : i / wordBits = ix
  . have hin : i < (ix + 1) * wordBits := by
      simp only [wordBits] at hword ⊢
      omega
    have hrange : ¬(nbits - ix * wordBits ≤ i % wordBits
        ∧ i % wordBits < nbits - ix * wordBits + (wordBits - (nbits - ix * wordBits))) ↔ i < nbits := by
      simp only [wordBits] at hword hlow hhigh ⊢
      omega
    rw [hword] at hfilled
    rw [hword, Function.update_self, getLsbD_toggleBits (by omega), hfilled, decide_eq_true hin,
      Bool.true_xor, ← decide_not, decide_eq_decide]
    exact hrange
  . rw [Function.update_of_ne hword, hfilled, decide_eq_decide]
    simp only [wordBits] at hword hlow hhigh ⊢
    omega

theorem fresh_filled {nwords : Nat} (h : nbits = nwords * wordBits) : Fresh ⟨nbits, nwords, filled nwords⟩ nbits := by
  refine ⟨rfl, h.le, ?_, fun i => ?_⟩
  . simp only [wordBits] at h ⊢
    omega
  . rw [bit_filled, h]

/--
With memory there is a bitmap of which the leftover bits are in use, otherwise nothing is kept.
-/
theorem bitmapCreate_sat (hpos : 0 < nbits) (hlt : nbits < 2 ^ 32)
    : (bitmapCreate nbits mem).Sat
        (fun b mem' => (b = none ∧ (mem.refuses 0 = true ∨ mem.refuses 1 = true) ∧ mem'.live = mem.live) ∨
          ∃ bitmap, b = some bitmap ∧ Fresh bitmap nbits ∧ (mem.refuses 0 = false ∧ mem.refuses 1 = false) ∧
            mem'.live = .bitmapMap :: .bitmap :: mem.live)
        (fun _ _ => False) (fun _ => False) := by
  have hnwords : (nbits + (wordBits - 1)) % 2 ^ 64 / wordBits % 2 ^ 32 = (nbits + 31) / 32 := by
    simp only [wordBits]
    omega
  unfold bitmapCreate
  rw [Prog.assert_bind_run (by simp only [wordBits]; omega)]
  simp only [hnwords]
  refine Prog.sat_bind_imp (Kmem.kmalloc_sat .bitmap mem) fun b mem₁ ⟨hrefuses, hmem₁⟩ => ?_
  rcases hmem₁ with ⟨rfl, hzero, hlive₁⟩ | ⟨rfl, hzero, hlive₁⟩
  . exact Or.inl ⟨rfl, Or.inl hzero, hlive₁⟩
  rw [if_pos rfl]
  refine Prog.sat_bind_imp (Kmem.kmalloc_sat .bitmapMap mem₁) fun b mem₂ ⟨_, hmem₂⟩ => ?_
  rcases hmem₂ with ⟨rfl, hone, hlive₂⟩ | ⟨rfl, hone, hlive₂⟩
  . refine Or.inl ⟨rfl, Or.inr (by rwa [hrefuses] at hone), ?_⟩
    simp only [hlive₂, hlive₁]
    exact List.erase_cons_head ..
  rw [if_pos rfl]
  rw [hlive₁] at hlive₂
  rw [hrefuses] at hone
  split
  next hne =>
    obtain ⟨ix, hix⟩ : ∃ ix, (nbits + 31) / 32 = ix + 1 := ⟨(nbits + 31) / 32 - 1, by omega⟩
    simp only [hix, wordBits] at hne
    simp only [hix, Nat.add_sub_cancel]
    have hlow : ix * wordBits < nbits := by simp only [wordBits]; omega
    have hhigh : nbits < (ix + 1) * wordBits := by simp only [wordBits]; omega
    rw [Prog.assert_bind_run (by simp only [wordBits] at *; omega),
      Prog.assert_bind_run (by simp only [wordBits] at *; omega)]
    exact Or.inr ⟨_, rfl, fresh_toggled hlow hhigh, ⟨hzero, hone⟩, hlive₂⟩
  next heq => exact Or.inr ⟨_, rfl, fresh_filled (not_not.mp heq), ⟨hzero, hone⟩, hlive₂⟩

end Bitmap
end Ucore

import Mathlib
import Ucore.Kern.Fs.Sfs.Bitmap.Impl

/-!
This module contains the meaning of a bitmap as the list of its set bits in ascending order, and the
specification of the bitmap operations on this list: `bitmap_alloc` takes its head away.
-/

namespace Ucore

namespace Bitmap

def bit (bitmap : Bitmap) (i : Nat) : Bool := (bitmap.map (i / wordBits)).getLsbD (i % wordBits)

/--
The set bits in ascending order.
-/
def free (bitmap : Bitmap) : List Nat := (List.range bitmap.nbits).filter bitmap.bit

/--
The words of the bitmap hold exactly its bits.
-/
def Ok (bitmap : Bitmap) : Prop := bitmap.nbits = bitmap.nwords * wordBits

theorem mem_free {bitmap : Bitmap} {i : Nat}
    : i ∈ bitmap.free ↔ i < bitmap.nbits ∧ bitmap.bit i = true := by
  simp [free]

theorem free_nodup (bitmap : Bitmap) : bitmap.free.Nodup :=
  List.nodup_range.filter _

theorem free_sorted (bitmap : Bitmap) : bitmap.free.Pairwise (· < ·) :=
  List.pairwise_lt_range.filter _

theorem getLsbD_mask {offset i : Nat} (h : offset < wordBits)
    : (mask offset).getLsbD i = decide (i = offset) := by
  simp only [mask, BitVec.getLsbD_shiftLeft, BitVec.getLsbD_one]
  grind

theorem and_mask_ne_zero_iff {word : BitVec 32} {offset : Nat} (h : offset < wordBits)
    : word &&& mask offset ≠ 0 ↔ word.getLsbD offset = true := by
  constructor
  . intro hne
    by_contra hbit
    apply hne
    apply BitVec.eq_of_getLsbD_eq
    intro i hi
    rw [BitVec.getLsbD_and, getLsbD_mask h]
    by_cases hio : i = offset
    . subst hio
      simp [hbit]
    . simp [hio]
  . intro hbit hzero
    have := congrArg (BitVec.getLsbD · offset) hzero
    simp [getLsbD_mask h, hbit] at this

theorem bit_update {bitmap : Bitmap} {index i : Nat} {word : BitVec 32}
    : ({ bitmap with map := Function.update bitmap.map (index / wordBits) word } : Bitmap).bit i =
        if i / wordBits = index / wordBits then word.getLsbD (i % wordBits) else bitmap.bit i := by
  by_cases h : i / wordBits = index / wordBits
  . simp [bit, h]
  . simp [bit, h]

/--
A bitmap is its bits.
-/
theorem ext_bits {bitmap bitmap' : Bitmap} (hnbits : bitmap.nbits = bitmap'.nbits)
    (hnwords : bitmap.nwords = bitmap'.nwords) (hbits : ∀ i, bitmap.bit i = bitmap'.bit i)
    : bitmap = bitmap' := by
  have hmap : bitmap.map = bitmap'.map := by
    funext ix
    apply BitVec.eq_of_getLsbD_eq
    intro o ho
    have h₁ : (ix * wordBits + o) / wordBits = ix := by simp only [wordBits]; omega
    have h₂ : (ix * wordBits + o) % wordBits = o := by simp only [wordBits]; omega
    have hbit := hbits (ix * wordBits + o)
    rwa [bit, bit, h₁, h₂] at hbit
  cases bitmap
  cases bitmap'
  rw [Bitmap.mk.injEq]
  exact ⟨hnbits, hnwords, hmap⟩

theorem bitmapTest_run {bitmap : Bitmap} {i : Nat} (h : i < bitmap.nbits)
    : bitmapTest i bitmap = .ok (bitmap.bit i) bitmap := by
  unfold bitmapTest
  rw [Prog.get_bind_run, Prog.assert_bind_run h, Prog.pure_run]
  congr 1
  rw [bit, Bool.eq_iff_iff, decide_eq_true_iff]
  exact and_mask_ne_zero_iff (Nat.mod_lt _ (by decide))

theorem bitmapFree_run {bitmap : Bitmap} {i : Nat} (hi : i < bitmap.nbits)
    (hbit : bitmap.bit i = false)
    : ∃ bitmap', bitmapFree i bitmap = .ok () bitmap' ∧ bitmap'.nbits = bitmap.nbits ∧
        bitmap'.nwords = bitmap.nwords ∧
        ∀ j, bitmap'.bit j = (bitmap.bit j || decide (j = i)) := by
  have hlt : i % wordBits < wordBits := Nat.mod_lt _ (by decide)
  have hzero : bitmap.map (i / wordBits) &&& mask (i % wordBits) = 0 := by
    by_contra hne
    have hset := (and_mask_ne_zero_iff hlt).mp hne
    simp [bit, hset] at hbit
  unfold bitmapFree
  rw [Prog.get_bind_run, Prog.assert_bind_run hi, Prog.assert_bind_run hzero, Prog.modify_run]
  refine ⟨_, rfl, rfl, rfl, ?_⟩
  intro j
  rw [bit_update]
  by_cases hj : j / wordBits = i / wordBits
  . have hji : j % wordBits = i % wordBits ↔ j = i := by
      simp only [wordBits] at hj ⊢
      omega
    rw [if_pos hj, BitVec.getLsbD_or, getLsbD_mask hlt, bit, hj, decide_eq_decide.mpr hji]
  . have hji : j ≠ i := fun h => hj (by rw [h])
    simp [hj, hji]

theorem bitmapFree_spec {bitmap : Bitmap} {i : Nat} (hi : i < bitmap.nbits)
    (hfree : i ∉ bitmap.free)
    : ∃ bitmap', bitmapFree i bitmap = .ok () bitmap' ∧ bitmap'.nbits = bitmap.nbits ∧
        bitmap'.nwords = bitmap.nwords ∧
        bitmap'.free = bitmap.free.orderedInsert (· ≤ ·) i := by
  have hbit : bitmap.bit i = false := by
    simpa [mem_free, hi] using hfree
  obtain ⟨bitmap', hrun, hnbits, hnwords, hbits⟩ := bitmapFree_run hi hbit
  refine ⟨bitmap', hrun, hnbits, hnwords, ?_⟩
  have hperm : bitmap'.free.Perm (bitmap.free.orderedInsert (· ≤ ·) i) := by
    refine List.Perm.trans ?_ (List.perm_orderedInsert _ i bitmap.free).symm
    rw [List.perm_ext_iff_of_nodup bitmap'.free_nodup
      (List.nodup_cons.mpr ⟨hfree, bitmap.free_nodup⟩)]
    intro j
    rw [List.mem_cons, mem_free, mem_free, hnbits, hbits j, Bool.or_eq_true, decide_eq_true_iff]
    grind
  have hsorted : bitmap.free.Pairwise (· ≤ ·) := bitmap.free_sorted.imp Nat.le_of_lt
  have hsorted' : bitmap'.free.Pairwise (· ≤ ·) := bitmap'.free_sorted.imp Nat.le_of_lt
  exact hperm.eq_of_pairwise' hsorted' (hsorted.orderedInsert i _)

theorem free_eq_cons {bitmap : Bitmap} {i : Nat} (hi : i < bitmap.nbits)
    (hbit : bitmap.bit i = true) (hleast : ∀ j < i, bitmap.bit j = false)
    : ∃ rest, bitmap.free = i :: rest := by
  have hmem : i ∈ bitmap.free := mem_free.mpr ⟨hi, hbit⟩
  have hsorted := bitmap.free_sorted
  cases hfree : bitmap.free with
  | nil => simp [hfree] at hmem
  | cons a rest =>
    have ha : bitmap.bit a = true := (mem_free.mp (by simp [hfree] : a ∈ bitmap.free)).2
    rw [hfree] at hmem hsorted
    have : a = i := by
      cases List.mem_cons.mp hmem with
      | inl h => exact h.symm
      | inr h =>
        have := hleast a ((List.pairwise_cons.mp hsorted).1 i h)
        simp [ha] at this
    exact ⟨rest, by rw [this]⟩

theorem free_of_clear {bitmap bitmap' : Bitmap} {i : Nat} {rest : List Nat}
    (hfree : bitmap.free = i :: rest) (hnbits : bitmap'.nbits = bitmap.nbits)
    (hbits : ∀ j, bitmap'.bit j = (bitmap.bit j && decide (j ≠ i)))
    : bitmap'.free = rest := by
  have hnodup := bitmap.free_nodup
  rw [hfree, List.nodup_cons] at hnodup
  calc bitmap'.free = bitmap.free.filter (fun j => decide (j ≠ i)) := by
        rw [free, free, hnbits, List.filter_filter]
        congr 1
        funext j
        rw [hbits j, Bool.and_comm]
    _ = rest.filter (fun j => decide (j ≠ i)) := by simp [hfree]
    _ = rest := by
        rw [List.filter_eq_self]
        intro j hj
        simp only [decide_eq_true_iff]
        intro hji
        exact hnodup.1 (hji ▸ hj)

theorem bitmapAlloc_of_clear {bitmap : Bitmap} (h : ∀ i < bitmap.nwords * wordBits, bitmap.bit i = false)
    : bitmapAlloc bitmap = .error .noMem bitmap := by
  have hnone : (List.range bitmap.nwords).find? (fun ix => bitmap.map ix ≠ 0) = none := by
    rw [List.find?_eq_none]
    intro ix hix
    rw [List.mem_range] at hix
    simp only [decide_eq_true_eq, not_not]
    apply BitVec.eq_of_getLsbD_eq
    intro o ho
    have hbit := h (ix * wordBits + o) (by simp only [wordBits]; omega)
    have h₁ : (ix * wordBits + o) / wordBits = ix := by simp only [wordBits]; omega
    have h₂ : (ix * wordBits + o) % wordBits = o := by simp only [wordBits]; omega
    rw [bit, h₁, h₂] at hbit
    simpa using hbit
  unfold bitmapAlloc
  rw [hnone]

theorem bitmapAlloc_nil {bitmap : Bitmap} (hok : bitmap.Ok) (h : bitmap.free = [])
    : bitmapAlloc bitmap = .error .noMem bitmap := by
  refine bitmapAlloc_of_clear fun i hi => Bool.eq_false_iff.mpr fun hbit => ?_
  have hmem : i ∈ bitmap.free := mem_free.mpr ⟨hok ▸ hi, hbit⟩
  simp [h] at hmem

theorem find_offset {word : BitVec 32} (h : word ≠ 0)
    : ∃ offset < wordBits,
        (List.range wordBits).find? (fun offset => word &&& mask offset ≠ 0) = some offset ∧
        word.getLsbD offset = true ∧ ∀ o < offset, word.getLsbD o = false := by
  cases hfind : (List.range wordBits).find? (fun offset => word &&& mask offset ≠ 0) with
  | none =>
    exfalso
    apply h
    apply BitVec.eq_of_getLsbD_eq
    intro o ho
    have := List.find?_eq_none.mp hfind o (List.mem_range.mpr ho)
    rw [decide_eq_true_eq, and_mask_ne_zero_iff ho] at this
    simpa using this
  | some offset =>
    obtain ⟨hset, hlt, hbefore⟩ := List.find?_range_eq_some.mp hfind
    rw [List.mem_range] at hlt
    rw [decide_eq_true_eq, and_mask_ne_zero_iff hlt] at hset
    refine ⟨offset, hlt, rfl, hset, ?_⟩
    intro o ho
    have := hbefore o ho
    rw [Bool.not_eq_true', decide_eq_false_iff_not, and_mask_ne_zero_iff (by omega)] at this
    simpa using this

theorem bitmapAlloc_run {bitmap : Bitmap} {ix : Nat} (hlt : ix < bitmap.nwords)
    (hix : bitmap.map ix ≠ 0)
    : ∃ i bitmap', bitmapAlloc bitmap = .ok i bitmap' ∧ i < bitmap.nwords * wordBits ∧
        bitmap.bit i = true ∧ (∀ j < i, bitmap.bit j = false) ∧ bitmap'.nbits = bitmap.nbits ∧
        bitmap'.nwords = bitmap.nwords ∧
        ∀ j, bitmap'.bit j = (bitmap.bit j && decide (j ≠ i)) := by
  unfold bitmapAlloc
  cases hword : (List.range bitmap.nwords).find? (fun ix => bitmap.map ix ≠ 0) with
  | none =>
    have := List.find?_eq_none.mp hword ix (List.mem_range.mpr hlt)
    simp only [decide_eq_true_eq, not_not] at this
    exact absurd this hix
  | some ix =>
    obtain ⟨hne, hix_lt, hbefore⟩ := List.find?_range_eq_some.mp hword
    rw [List.mem_range] at hix_lt
    rw [decide_eq_true_eq] at hne
    obtain ⟨offset, hoff, hfind, hset, hclear⟩ := find_offset hne
    simp only [hfind]
    have hdiv : (ix * wordBits + offset) / wordBits = ix := by
      simp only [wordBits] at hoff ⊢
      omega
    have hmod : (ix * wordBits + offset) % wordBits = offset := by
      simp only [wordBits] at hoff ⊢
      omega
    refine ⟨_, _, rfl, ?_, ?_, ?_, rfl, rfl, ?_⟩
    . simp only [wordBits] at hoff ⊢
      omega
    . rw [bit, hdiv, hmod]
      exact hset
    . intro j hj
      rw [bit]
      by_cases hjx : j / wordBits = ix
      . rw [hjx]
        apply hclear
        simp only [wordBits] at hj hjx ⊢
        omega
      . have := hbefore (j / wordBits) (by simp only [wordBits] at hj hoff hjx ⊢; omega)
        simp only [Bool.not_eq_true', decide_eq_false_iff_not, not_not] at this
        simp [this]
    . intro j
      simp only [bit]
      by_cases hjx : j / wordBits = ix
      . have hji : j % wordBits = offset ↔ j = ix * wordBits + offset := by
          simp only [wordBits] at hjx hoff ⊢
          omega
        rw [hjx, Function.update_self, BitVec.getLsbD_xor, getLsbD_mask hoff]
        simp only [decide_not, ← hji]
        by_cases hj : j % wordBits = offset
        . simp [hj, hset]
        . simp [hj]
      . have hji : j ≠ ix * wordBits + offset := by
          intro h
          exact hjx (h ▸ hdiv)
        simp [Function.update_of_ne hjx, hji]

theorem bitmapAlloc_cons {bitmap : Bitmap} (hok : bitmap.Ok) {i : Nat} {rest : List Nat}
    (h : bitmap.free = i :: rest)
    : ∃ bitmap', bitmapAlloc bitmap = .ok i bitmap' ∧ bitmap'.nbits = bitmap.nbits ∧
        bitmap'.nwords = bitmap.nwords ∧ bitmap'.free = rest := by
  obtain ⟨hi, hbit⟩ := mem_free.mp (by simp [h] : i ∈ bitmap.free)
  rw [hok] at hi
  have hix : bitmap.map (i / wordBits) ≠ 0 := by
    intro hzero
    simp [bit, hzero] at hbit
  have hlt : i / wordBits < bitmap.nwords := Nat.div_lt_of_lt_mul (by rwa [Nat.mul_comm])
  obtain ⟨j, bitmap', hrun, hj, hset, hleast, hnbits, hnwords, hbits⟩ := bitmapAlloc_run hlt hix
  obtain ⟨rest', hfree⟩ := free_eq_cons (by rwa [hok]) hset hleast
  obtain ⟨rfl, rfl⟩ := List.cons_eq_cons.mp (h.symm.trans hfree)
  exact ⟨bitmap', hrun, hnbits, hnwords, free_of_clear hfree hnbits hbits⟩

end Bitmap

end Ucore

import Ucore.Kern.Fs.Sfs.Bitmap.Create
import Ucore.Lib.Run

/-!
This module contains the runs of a bitmap: `bitmap_alloc`, `bitmap_free` of what was handed out and `bitmap_test`, in
any order.
-/

namespace Ucore

/--
The bitmap with the indices that are handed out.
-/
structure BitmapRun where
  bitmap : Bitmap
  allocated : List Nat

inductive BitmapCall where
  | bitmapAlloc
  | bitmapFree (index : Nat)
  | bitmapTest (index : Nat)
  deriving DecidableEq

namespace BitmapRun

open Bitmap (bitmapCreate bitmapAlloc bitmapFree bitmapTest Fresh)

def step (r : BitmapRun) : BitmapCall → Option BitmapRun
  | .bitmapAlloc =>
    match bitmapAlloc r.bitmap with
    | .ok index bitmap => some ⟨bitmap, index :: r.allocated⟩
    | .error _ bitmap => some ⟨bitmap, r.allocated⟩
    | .panic _ => none
  | .bitmapFree index => (bitmapFree index r.bitmap).state.map fun bitmap => ⟨bitmap, r.allocated.erase index⟩
  | .bitmapTest index => (bitmapTest index r.bitmap).state.map fun bitmap => ⟨bitmap, r.allocated⟩

/--
Only what is handed out is freed, and only a bit of the bitmap is tested.
-/
def Legal (n : Nat) (r : BitmapRun) : BitmapCall → Prop
  | .bitmapAlloc => True
  | .bitmapFree index => index ∈ r.allocated
  | .bitmapTest index => index < n

instance (n : Nat) (r : BitmapRun) : (call : BitmapCall) → Decidable (r.Legal n call)
  | .bitmapAlloc => inferInstanceAs (Decidable True)
  | .bitmapFree index => inferInstanceAs (Decidable (index ∈ r.allocated))
  | .bitmapTest index => inferInstanceAs (Decidable (index < n))

/--
What the calls do in a state, for a bitmap of `n` bits.
-/
structure Law (n : Nat) (r : BitmapRun) : Prop where
  refused : (∀ i < n, i ∈ r.allocated) → bitmapAlloc r.bitmap = .error .noMem r.bitmap
  served : (∃ i < n, i ∉ r.allocated) →
    ∃ i bitmap, bitmapAlloc r.bitmap = .ok i bitmap ∧ i < n ∧ i ∉ r.allocated ∧ (∀ j < i, j ∈ r.allocated) ∧
      bitmap.bit i = !r.bitmap.bit i ∧ (∀ j ≠ i, bitmap.bit j = r.bitmap.bit j) ∧
      bitmapFree i bitmap = .ok () r.bitmap
  freed : ∀ i ∈ r.allocated, ∃ bitmap, bitmapFree i r.bitmap = .ok () bitmap ∧
    bitmap.bit i = !r.bitmap.bit i ∧ ∀ j ≠ i, bitmap.bit j = r.bitmap.bit j
  tested : ∀ i < n, bitmapTest i r.bitmap = .ok (decide (i ∉ r.allocated)) r.bitmap
  testedBeyond : ∀ i, n ≤ i → bitmapTest i r.bitmap = .panic .bitmapTranslate

/--
The set bits are those that are not handed out, and there are none beyond `n`.
-/
structure Tracked (n : Nat) (r : BitmapRun) : Prop where
  nbits : r.bitmap.nbits = n
  le : n ≤ r.bitmap.nwords * wordBits
  bit : ∀ i, r.bitmap.bit i = decide (i < n ∧ i ∉ r.allocated)
  nodup : r.allocated.Nodup
  lt : ∀ i ∈ r.allocated, i < n

variable {n : Nat} {r : BitmapRun} {bitmap : Bitmap}

theorem Tracked.of_fresh (h : Fresh bitmap n) : Tracked n ⟨bitmap, []⟩ where
  nbits := h.nbits_eq
  le := h.le
  bit i := by simp [h.bit]
  nodup := List.nodup_nil
  lt := by simp

theorem Tracked.refused (h : Tracked n r) (hall : ∀ i < n, i ∈ r.allocated)
    : bitmapAlloc r.bitmap = .error .noMem r.bitmap := by
  refine Bitmap.bitmapAlloc_of_clear fun i _ => ?_
  rw [h.bit, decide_eq_false_iff_not]
  exact fun ⟨hlt, hfree⟩ => hfree (hall i hlt)

theorem Tracked.served (h : Tracked n r) (hfree : ∃ i < n, i ∉ r.allocated)
    : ∃ i bitmap, bitmapAlloc r.bitmap = .ok i bitmap ∧ i < n ∧ i ∉ r.allocated ∧ (∀ j < i, j ∈ r.allocated) ∧
        bitmap.nbits = r.bitmap.nbits ∧ bitmap.nwords = r.bitmap.nwords ∧
        ∀ j, bitmap.bit j = (r.bitmap.bit j && decide (j ≠ i)) := by
  obtain ⟨j, hj, hmem⟩ := hfree
  have hbit : r.bitmap.bit j = true := by
    rw [h.bit, decide_eq_true_iff]
    exact ⟨hj, hmem⟩
  have hword : r.bitmap.map (j / wordBits) ≠ 0 := by
    intro hzero
    simp [Bitmap.bit, hzero] at hbit
  have hlt : j / wordBits < r.bitmap.nwords := Nat.div_lt_of_lt_mul (by rw [Nat.mul_comm]; exact hj.trans_le h.le)
  obtain ⟨i, bitmap, hrun, -, hset, hleast, hrest⟩ := Bitmap.bitmapAlloc_run hlt hword
  rw [h.bit, decide_eq_true_iff] at hset
  refine ⟨i, bitmap, hrun, hset.1, hset.2, fun k hk => ?_, hrest⟩
  have hclear := hleast k hk
  rw [h.bit, decide_eq_false_iff_not] at hclear
  by_contra hk'
  exact hclear ⟨hk.trans hset.1, hk'⟩

theorem Tracked.freed (h : Tracked n r) {i : Nat} (hi : i ∈ r.allocated)
    : ∃ bitmap, bitmapFree i r.bitmap = .ok () bitmap ∧ bitmap.nbits = r.bitmap.nbits ∧
        bitmap.nwords = r.bitmap.nwords ∧ ∀ j, bitmap.bit j = (r.bitmap.bit j || decide (j = i)) := by
  refine Bitmap.bitmapFree_run (h.nbits ▸ h.lt i hi) ?_
  rw [h.bit, decide_eq_false_iff_not]
  exact fun hfree => hfree.2 hi

/--
An allocation keeps the bits those that are not handed out.
-/
theorem Tracked.alloc (h : Tracked n r) {i : Nat} (hi : i < n) (hfree : i ∉ r.allocated)
    (hnbits : bitmap.nbits = r.bitmap.nbits) (hnwords : bitmap.nwords = r.bitmap.nwords)
    (hbits : ∀ j, bitmap.bit j = (r.bitmap.bit j && decide (j ≠ i)))
    : Tracked n ⟨bitmap, i :: r.allocated⟩ where
  nbits := hnbits.trans h.nbits
  le := hnwords ▸ h.le
  bit j := by
    rw [hbits, h.bit, ← Bool.decide_and, decide_eq_decide, List.mem_cons]
    tauto
  nodup := List.nodup_cons.mpr ⟨hfree, h.nodup⟩
  lt j hj := by
    cases List.mem_cons.mp hj with
    | inl heq => exact heq ▸ hi
    | inr hmem => exact h.lt j hmem

theorem Tracked.free (h : Tracked n r) {i : Nat} (hi : i ∈ r.allocated)
    (hnbits : bitmap.nbits = r.bitmap.nbits) (hnwords : bitmap.nwords = r.bitmap.nwords)
    (hbits : ∀ j, bitmap.bit j = (r.bitmap.bit j || decide (j = i)))
    : Tracked n ⟨bitmap, r.allocated.erase i⟩ where
  nbits := hnbits.trans h.nbits
  le := hnwords ▸ h.le
  bit j := by
    have hlt := h.lt i hi
    rw [hbits, h.bit, ← Bool.decide_or, decide_eq_decide, h.nodup.mem_erase_iff]
    grind
  nodup := h.nodup.erase i
  lt j hj := h.lt j (List.mem_of_mem_erase hj)

theorem Tracked.tested (h : Tracked n r) {i : Nat} (hi : i < n)
    : bitmapTest i r.bitmap = .ok (decide (i ∉ r.allocated)) r.bitmap := by
  rw [Bitmap.bitmapTest_run (h.nbits ▸ hi), h.bit]
  simp only [hi, true_and]

/--
A legal call has a result and keeps the bits those that are not handed out.
-/
theorem Tracked.step (h : Tracked n r) {call : BitmapCall} (hlegal : r.Legal n call)
    : ∃ r', r.step call = some r' ∧ Tracked n r' := by
  cases call with
  | bitmapAlloc =>
    by_cases hfree : ∃ i < n, i ∉ r.allocated
    . obtain ⟨i, bitmap, hrun, hi, hmem, -, hnbits, hnwords, hbits⟩ := h.served hfree
      refine ⟨_, ?_, h.alloc hi hmem hnbits hnwords hbits⟩
      simp only [BitmapRun.step, hrun]
    . push_neg at hfree
      refine ⟨r, ?_, h⟩
      simp only [BitmapRun.step, h.refused hfree]
  | bitmapFree index =>
    obtain ⟨bitmap, hrun, hnbits, hnwords, hbits⟩ := h.freed hlegal
    refine ⟨_, ?_, h.free hlegal hnbits hnwords hbits⟩
    simp only [BitmapRun.step, hrun, Outcome.state, Option.map_some]
  | bitmapTest index =>
    refine ⟨r, ?_, h⟩
    simp only [BitmapRun.step, h.tested hlegal, Outcome.state, Option.map_some]

theorem Tracked.law (h : Tracked n r) : Law n r where
  refused := h.refused
  served hfree := by
    obtain ⟨i, bitmap, hrun, hi, hmem, hleast, hnbits, hnwords, hbits⟩ := h.served hfree
    have halloc := h.alloc hi hmem hnbits hnwords hbits
    have hset : r.bitmap.bit i = true := by
      rw [h.bit, decide_eq_true_iff]
      exact ⟨hi, hmem⟩
    obtain ⟨bitmap', hback, hnbits', hnwords', hbits'⟩ := halloc.freed (List.mem_cons_self ..)
    refine ⟨i, bitmap, hrun, hi, hmem, hleast, by simp [hbits, hset], fun j hj => by simp [hbits, hj], ?_⟩
    rw [hback]
    congr 1
    refine Bitmap.ext_bits (hnbits'.trans hnbits) (hnwords'.trans hnwords) fun j => ?_
    rw [hbits', hbits]
    by_cases hj : j = i
    . simp [hj, hset]
    . simp [hj]
  freed i hi := by
    obtain ⟨bitmap, hrun, -, -, hbits⟩ := h.freed hi
    have hclear : r.bitmap.bit i = false := by
      rw [h.bit, decide_eq_false_iff_not]
      exact fun hfree => hfree.2 hi
    exact ⟨bitmap, hrun, by simp [hbits, hclear], fun j hj => by simp [hbits, hj]⟩
  tested i hi := h.tested hi
  testedBeyond i hi := by
    unfold bitmapTest
    rw [Prog.get_bind_run, Prog.assert_bind_run_panic (by rw [h.nbits]; omega)]

/--
`bitmap_create` returns `NULL` only when there is no memory, and what it returns otherwise follows the law in every run.
-/
theorem bitmap_runs (hpos : 0 < n) (hlt : n < 2 ^ 32) (mem : Kmem)
    : (bitmapCreate n mem).Sat
        (fun b mem' => (b = none ∧ (mem.refuses 0 = true ∨ mem.refuses 1 = true) ∧ mem'.live = mem.live) ∨
          ∃ bitmap, b = some bitmap ∧ ∀ calls, Run.Admits step (Legal n) ⟨bitmap, []⟩ calls →
            Run.Always step (Law n) ⟨bitmap, []⟩ calls)
        (fun _ _ => False) (fun _ => False) := by
  refine (Bitmap.bitmapCreate_sat hpos hlt).imp fun b mem' hb => hb.imp_right ?_
  rintro ⟨bitmap, rfl, hfresh, -⟩
  refine ⟨bitmap, rfl, fun calls hadmits => ?_⟩
  exact Run.always_of_admits (fun _ => Tracked.law) (fun _ _ h => h.step) (Tracked.of_fresh hfresh) hadmits

/--
A bitmap of 33 bits has a second word of which only the first bit is ever handed out.
-/
theorem bitmap_runs_thirty_three
    : (bitmapCreate 33 ⟨[], fun _ => false⟩).Sat
        (fun b mem' => (b = none ∧ (false = true ∨ false = true) ∧ mem'.live = []) ∨
          ∃ bitmap, b = some bitmap ∧ ∀ calls, Run.Admits step (Legal 33) ⟨bitmap, []⟩ calls →
            Run.Always step (Law 33) ⟨bitmap, []⟩ calls)
        (fun _ _ => False) (fun _ => False) :=
  bitmap_runs (by decide) (by decide) ⟨[], fun _ => false⟩

end BitmapRun
end Ucore

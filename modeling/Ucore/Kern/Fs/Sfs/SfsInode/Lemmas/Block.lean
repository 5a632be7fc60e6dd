import Ucore.Kern.Fs.Sfs.SfsInode.Impl
import Ucore.Kern.Fs.Sfs.SfsIo.Lemmas

/-!
This module contains the specification of the allocation and the release of a block.
-/

namespace Ucore

open Faults (cost)

namespace Vol

/--
Putting back a block that was taken from the head of the free list restores the list.
-/
theorem release_of_sorted {v : Vol} {b : Nat} {rest : List Nat} (hv : v.free = rest)
    (hsorted : (b :: rest).Pairwise (· < ·))
    : v.release b = v.setFree (b :: rest) := by
  have hinsert : rest.orderedInsert (· ≤ ·) b = b :: rest := by
    cases rest with
    | nil => rfl
    | cons c rest =>
      apply List.orderedInsert_cons_of_le
      exact Nat.le_of_lt ((List.pairwise_cons.mp hsorted).1 c (by simp))
  rw [release, hv, hinsert]

end Vol

namespace SfsFs

variable {sfs : SfsFs} {b : Nat}

theorem Ok.free_sorted {sfs : SfsFs} (_ : sfs.Ok) : sfs.vol.free.Pairwise (· < ·) :=
  sfs.freemap.free_sorted

theorem sfsBlockInuse_run (hok : sfs.Ok) (h : sfs.vol.Valid b)
    : sfsBlockInuse b sfs = .ok (decide (b ∉ sfs.vol.free)) sfs := by
  have hlt : b < sfs.freemap.nbits := Nat.lt_of_lt_of_le h.2 hok.blocks_le_nbits
  have htest : onFreemap (Bitmap.bitmapTest b) sfs = .ok (sfs.freemap.bit b) sfs := by
    simp only [onFreemap, Prog.zoom, Bitmap.bitmapTest_run hlt]
  unfold sfsBlockInuse
  rw [Prog.get_bind_run, if_pos (c := b ≠ 0 ∧ b < sfs.super.blocks) h,
    Prog.bind_run_ok htest, Prog.pure_run]
  congr 1
  have hmem : b ∈ sfs.vol.free ↔ sfs.freemap.bit b = true := by
    rw [show sfs.vol.free = sfs.freemap.free from rfl, Bitmap.mem_free]
    simp [hlt]
  cases hbit : sfs.freemap.bit b with
  | true => simp [hmem, hbit]
  | false => simp [hmem, hbit]

theorem assertInuse_run {p : Panic} (hok : sfs.Ok) (h : sfs.vol.InUse b)
    : assertInuse b p sfs = .ok () sfs := by
  unfold assertInuse
  rw [Prog.bind_run_ok (sfsBlockInuse_run hok h.1)]
  simp [Prog.assert, h.2]

theorem assertInuse_panic {p : Panic} (hok : sfs.Ok) (h : ¬sfs.vol.InUse b)
    : ∃ p', assertInuse b p sfs = .panic p' := by
  by_cases hvalid : sfs.vol.Valid b
  . refine ⟨p, ?_⟩
    have hmem : b ∈ sfs.vol.free := by
      by_contra hmem
      exact h ⟨hvalid, hmem⟩
    unfold assertInuse
    rw [Prog.bind_run_ok (sfsBlockInuse_run hok hvalid)]
    simp [Prog.assert, hmem]
  . refine ⟨.sfsBlockInuse, ?_⟩
    unfold assertInuse
    apply Prog.bind_run_panic
    unfold sfsBlockInuse
    rw [Prog.get_bind_run, if_neg (c := b ≠ 0 ∧ b < sfs.super.blocks) hvalid, Prog.panic_run]

theorem sfsBlockAlloc_nil (hok : sfs.Ok) (h : sfs.vol.free = [])
    : sfsBlockAlloc sfs = .error .noMem sfs := by
  unfold sfsBlockAlloc
  apply Prog.bind_run_error
  simp only [onFreemap, Prog.zoom, Bitmap.bitmapAlloc_nil hok.freemap h]

theorem sfsBlockAlloc_sat (hok : sfs.Ok) {rest : List Nat} (h : sfs.vol.free = b :: rest)
    : (sfsBlockAlloc sfs).Sat
        (fun a sfs' => a = b ∧ sfs'.Ok ∧
          sfs'.vol = ((sfs.vol.setFree rest).requested (cost .clear 1)).clear b ∧
          sfs.env.Answers (cost .clear 1))
        (fun _ sfs' => sfs'.Ok ∧ sfs'.vol = (sfs.vol.setFree rest).requested (cost .clear 1) ∧
          ¬sfs.env.Answers (cost .clear 1))
        (fun _ => False) := by
  obtain ⟨freemap, hrun, hnbits, hnwords, hfree⟩ := Bitmap.bitmapAlloc_cons hok.freemap h
  have halloc : onFreemap Bitmap.bitmapAlloc sfs = .ok b { sfs with freemap } := by
    simp only [onFreemap, Prog.zoom, hrun]
  have hunused : sfs.super.unusedBlocks = rest.length + 1 := by
    rw [hok.unusedBlocks, show sfs.freemap.free = b :: rest from h, List.length_cons]
  have hbound := hok.free_length_le
  have hvalid : ∀ a ∈ b :: rest, a ≠ 0 ∧ a < sfs.super.blocks := by
    intro a ha
    exact hok.free_valid a (h ▸ ha : a ∈ sfs.vol.free)
  have hnodup := hok.free_nodup
  rw [h] at hnodup hbound
  rw [List.length_cons] at hbound
  unfold sfsBlockAlloc
  rw [Prog.bind_run_ok halloc, Prog.get_bind_run,
    Prog.assert_bind_run (by simp only [hunused]; omega), Prog.modify_bind_run]
  generalize hsfs' : ({ sfs with freemap } : SfsFs).setUnusedBlocks (sfs.super.unusedBlocks - 1) =
    sfs'
  have hvol : sfs'.vol = sfs.vol.setFree rest := by
    subst hsfs'
    simp [SfsFs.setUnusedBlocks, vol, Vol.setFree, hfree]
  have hok' : sfs'.Ok := by
    subst hsfs'
    refine ⟨?_, ?_, hok.blocks_le_dBlocks, hok.dBlocks_le, ?_, ?_⟩
    . simpa only [Bitmap.Ok, setUnusedBlocks, hnbits, hnwords] using hok.freemap
    . simpa only [setUnusedBlocks, hnbits] using hok.blocks_le_nbits
    . intro a ha
      simp only [setUnusedBlocks, hfree] at ha
      exact hvalid a (List.mem_cons_of_mem b ha)
    . simp only [setUnusedBlocks, hfree, hunused]
      omega
  have hbvalid := hvalid b (by simp)
  have hinuse : sfs'.vol.InUse b := by
    rw [hvol]
    exact ⟨hbvalid, (List.nodup_cons.mp hnodup).1⟩
  have henv : sfs'.env = sfs.env := congrArg Vol.env hvol
  rw [Prog.bind_run_ok (assertInuse_run hok' hinuse)]
  apply Prog.sat_bind (sfsClearBlock_sat hok' hinuse.1)
  . rintro _ sfs'' ⟨hok'', hvol'', hans⟩
    rw [henv] at hans
    exact ⟨rfl, hok'', by rw [hvol'', hvol], hans⟩
  . rintro _ sfs'' ⟨hsfs'', hans⟩
    subst hsfs''
    rw [henv] at hans
    exact ⟨hok'.requested _, by rw [requested_vol, hvol], hans⟩
  . exact fun _ => id

theorem sfsBlockFree_run (hok : sfs.Ok) (h : sfs.vol.InUse b)
    : ∃ sfs', sfsBlockFree b sfs = .ok () sfs' ∧ sfs'.Ok ∧ sfs'.vol = sfs.vol.release b := by
  have hlt : b < sfs.freemap.nbits := Nat.lt_of_lt_of_le h.1.2 hok.blocks_le_nbits
  obtain ⟨freemap, hrun, hnbits, hnwords, hfree⟩ := Bitmap.bitmapFree_spec hlt h.2
  have hfreemap : onFreemap (Bitmap.bitmapFree b) sfs = .ok () { sfs with freemap } := by
    simp only [onFreemap, Prog.zoom, hrun]
  have hbound := hok.free_length_le
  refine ⟨({ sfs with freemap } : SfsFs).setUnusedBlocks (sfs.super.unusedBlocks + 1), ?_, ?_, ?_⟩
  . unfold sfsBlockFree
    rw [Prog.bind_run_ok (assertInuse_run hok h), Prog.bind_run_ok hfreemap, Prog.modify_run]
  . refine ⟨?_, ?_, hok.blocks_le_dBlocks, hok.dBlocks_le, ?_, ?_⟩
    . simpa only [Bitmap.Ok, setUnusedBlocks, hnbits, hnwords] using hok.freemap
    . simpa only [setUnusedBlocks, hnbits] using hok.blocks_le_nbits
    . intro a ha
      simp only [setUnusedBlocks, hfree, List.mem_orderedInsert] at ha
      cases ha with
      | inl ha =>
        subst ha
        exact h.1
      | inr ha => exact hok.free_valid a ha
    . have hunused := hok.unusedBlocks
      change sfs.freemap.free.length ≤ 2 ^ 20 at hbound
      simp only [setUnusedBlocks, hfree, List.orderedInsert_length]
      omega
  . simp [SfsFs.setUnusedBlocks, vol, Vol.release, Vol.setFree, hfree]

end SfsFs

end Ucore

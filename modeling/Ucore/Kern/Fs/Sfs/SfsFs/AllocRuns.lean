import Ucore.Kern.Fs.Sfs.SfsFs.Mount

/-!
This module contains the runs of the allocator of a mounted file system: they are safe exactly when the freemap has no
free bit but those of data blocks. The device may have more blocks than a 32 bit offset reaches.
-/

namespace Ucore

namespace SfsFs

variable {sfs sfs' : SfsFs} {b : Nat} {rest : List Nat}

/--
What a transfer leaves alone.
-/
def SameSpace (sfs sfs' : SfsFs) : Prop :=
  sfs'.freemap = sfs.freemap ∧ sfs'.super = sfs.super ∧ sfs'.dev.dBlocks = sfs.dev.dBlocks

theorem disk0Write_space (req : Request) (blkno : Nat) (buf : Bytes) (sfs : SfsFs)
    : (disk0Write req blkno buf sfs).Sat (fun _ t => SameSpace sfs t ∧ t.env = sfs.env.drop (Faults.cost req 1))
        (fun _ t => SameSpace sfs t ∧ (sfs.env req 0 ≠ none ∨ diskBlkno blkno ≥ sfs.dev.dBlocks))
        (fun _ => False) := by
  unfold disk0Write
  have hreq : (SfsFs.request req sfs).Sat (fun _ t => t = sfs.requested (Faults.cost req 1))
      (fun _ t => SameSpace sfs t ∧ (sfs.env req 0 ≠ none ∨ diskBlkno blkno ≥ sfs.dev.dBlocks)) (fun _ => False) := by
    unfold SfsFs.request
    cases henv : sfs.env req 0 with
    | none => exact rfl
    | some e => exact ⟨⟨rfl, rfl, rfl⟩, Or.inl (Option.some_ne_none e)⟩
  apply Prog.sat_bind_imp hreq
  rintro _ _ rfl
  rw [Prog.get_bind_run]
  split
  next hout => exact ⟨⟨rfl, rfl, rfl⟩, Or.inr (Nat.le_of_lt_succ hout)⟩
  next hin => exact ⟨⟨rfl, rfl, rfl⟩, rfl⟩

theorem sfsClearBlock_space (h : b ≠ 0 ∧ b < sfs.super.blocks)
    : (sfsClearBlock b sfs).Sat (fun _ t => SameSpace sfs t ∧ t.env = sfs.env.drop (Faults.cost .clear 1))
        (fun _ t => SameSpace sfs t ∧ (sfs.env .clear 0 ≠ none ∨ diskBlkno b ≥ sfs.dev.dBlocks))
        (fun _ => False) := by
  unfold sfsClearBlock sfsWblockNolock
  rw [Prog.get_bind_run, Prog.assert_bind_run h]
  exact disk0Write_space .clear b Bytes.zero sfs

/--
The numbers agree, and the freemap covers all blocks.
-/
structure Counted (sfs : SfsFs) : Prop where
  ok : sfs.freemap.Ok
  le : sfs.super.blocks ≤ sfs.freemap.nbits
  lt : sfs.freemap.nbits < 2 ^ 32
  unused : sfs.super.unusedBlocks = sfs.freemap.free.length

/--
The file system behind the first steps of an allocation, which take the block from the freemap.
-/
structure Taken (sfs sfs' : SfsFs) (rest : List Nat) : Prop where
  counted : sfs'.Counted
  free : sfs'.freemap.free = rest
  blocks : sfs'.super.blocks = sfs.super.blocks
  dBlocks : sfs'.dev.dBlocks = sfs.dev.dBlocks

theorem free_length_le (bitmap : Bitmap) : bitmap.free.length ≤ bitmap.nbits := by
  have hle := List.length_filter_le bitmap.bit (List.range bitmap.nbits)
  rwa [List.length_range] at hle

theorem Counted.of_space (h : sfs.Counted) (hsame : SameSpace sfs sfs') : sfs'.Counted := by
  obtain ⟨hfreemap, hsuper, -⟩ := hsame
  refine ⟨?_, ?_, ?_, ?_⟩
  . rw [hfreemap]
    exact h.ok
  . rw [hfreemap, hsuper]
    exact h.le
  . rw [hfreemap]
    exact h.lt
  . rw [hfreemap, hsuper]
    exact h.unused

theorem Taken.of_space {t : SfsFs} (h : Taken sfs sfs' rest) (hsame : SameSpace sfs' t) : Taken sfs t rest := by
  refine ⟨h.counted.of_space hsame, ?_, ?_, ?_⟩
  . rw [hsame.1, h.free]
  . rw [hsame.2.1, h.blocks]
  . rw [hsame.2.2, h.dBlocks]

theorem sfsBlockAlloc_of_nil (h : sfs.Counted) (hfree : sfs.freemap.free = [])
    : sfsBlockAlloc sfs = .error .noMem sfs := by
  unfold sfsBlockAlloc
  apply Prog.bind_run_error
  rw [onFreemap, Prog.zoom, Bitmap.bitmapAlloc_nil h.ok hfree]

theorem assertInuse_of_not_free {p : Panic} (h : sfs.Counted) (hvalid : b ≠ 0 ∧ b < sfs.super.blocks)
    (hfree : b ∉ sfs.freemap.free)
    : assertInuse b p sfs = .ok () sfs := by
  have hlt : b < sfs.freemap.nbits := Nat.lt_of_lt_of_le hvalid.2 h.le
  have hbit : sfs.freemap.bit b = false := by
    simpa only [Bitmap.mem_free, hlt, true_and, Bool.not_eq_true] using hfree
  have htest : onFreemap (Bitmap.bitmapTest b) sfs = .ok false sfs := by
    rw [onFreemap, Prog.zoom, Bitmap.bitmapTest_run hlt, hbit]
  have hinuse : sfsBlockInuse b sfs = .ok true sfs := by
    unfold sfsBlockInuse
    rw [Prog.get_bind_run, if_pos hvalid, Prog.bind_run_ok htest]
    rfl
  unfold assertInuse
  rw [Prog.bind_run_ok hinuse]
  rfl

theorem assertInuse_of_not_valid {p : Panic} (hvalid : ¬(b ≠ 0 ∧ b < sfs.super.blocks))
    : assertInuse b p sfs = .panic .sfsBlockInuse := by
  unfold assertInuse
  apply Prog.bind_run_panic
  unfold sfsBlockInuse
  rw [Prog.get_bind_run, if_neg hvalid, Prog.panic_run]

/--
The first free block is handed out if it can be in use, else the kernel panics.
-/
theorem sfsBlockAlloc_of_cons (h : sfs.Counted) (hfree : sfs.freemap.free = b :: rest)
    : (sfsBlockAlloc sfs).Sat (fun a t => a = b ∧ Taken sfs t rest ∧ t.env = sfs.env.drop (Faults.cost .clear 1))
        (fun _ t => Taken sfs t rest ∧ b < sfs.super.blocks ∧
          (sfs.env .clear 0 ≠ none ∨ diskBlkno b ≥ sfs.dev.dBlocks))
        (fun _ => ¬(b ≠ 0 ∧ b < sfs.super.blocks)) := by
  obtain ⟨freemap, hrun, hnbits, hnwords, hrest⟩ := Bitmap.bitmapAlloc_cons h.ok hfree
  have halloc : onFreemap Bitmap.bitmapAlloc sfs = .ok b { sfs with freemap } := by
    rw [onFreemap, Prog.zoom, hrun]
  have hunused : sfs.super.unusedBlocks = rest.length + 1 := by
    rw [h.unused, hfree, List.length_cons]
  have hnot : b ∉ freemap.free := by
    rw [hrest]
    exact (List.nodup_cons.mp (hfree ▸ sfs.freemap.free_nodup)).1
  have hlt : rest.length < 2 ^ 32 := by
    have hle := free_length_le freemap
    rw [hrest, hnbits] at hle
    exact Nat.lt_of_le_of_lt hle h.lt
  unfold sfsBlockAlloc
  rw [Prog.bind_run_ok halloc, Prog.get_bind_run, Prog.assert_bind_run (by simp only [hunused]; omega),
    Prog.modify_bind_run]
  generalize hu : ({ sfs with freemap } : SfsFs).setUnusedBlocks (sfs.super.unusedBlocks - 1) = u
  have htaken : Taken sfs u rest ∧ u.env = sfs.env ∧ u.freemap = freemap := by
    subst hu
    refine ⟨⟨⟨?_, ?_, ?_, ?_⟩, hrest, rfl, rfl⟩, rfl, rfl⟩
    . simpa only [Bitmap.Ok, setUnusedBlocks, hnbits, hnwords] using h.ok
    . simpa only [setUnusedBlocks, hnbits] using h.le
    . simpa only [setUnusedBlocks, hnbits] using h.lt
    . simp only [setUnusedBlocks, hrest, hunused]
      omega
  clear hu
  obtain ⟨htaken, henv, rfl⟩ := htaken
  by_cases hvalid : b ≠ 0 ∧ b < sfs.super.blocks
  . have hvalid' : b ≠ 0 ∧ b < u.super.blocks := by
      rwa [htaken.blocks]
    rw [Prog.bind_run_ok (assertInuse_of_not_free htaken.counted hvalid' hnot)]
    apply Prog.sat_bind (sfsClearBlock_space hvalid')
    . rintro _ t ⟨hsame, ht⟩
      exact ⟨rfl, htaken.of_space hsame, by rw [ht, henv]⟩
    . rintro _ t ⟨hsame, hwhy⟩
      rw [henv, htaken.dBlocks] at hwhy
      exact ⟨htaken.of_space hsame, hvalid.2, hwhy⟩
    . exact fun _ => False.elim
  . have hvalid' : ¬(b ≠ 0 ∧ b < u.super.blocks) := by
      rwa [htaken.blocks]
    rw [Prog.bind_run_panic (assertInuse_of_not_valid hvalid')]
    exact hvalid

theorem sfsBlockFree_of_not_free (h : sfs.Counted) (hvalid : b ≠ 0 ∧ b < sfs.super.blocks)
    (hfree : b ∉ sfs.freemap.free)
    : ∃ t, sfsBlockFree b sfs = .ok () t ∧ t.Counted ∧ t.super.blocks = sfs.super.blocks ∧
        t.dev.dBlocks = sfs.dev.dBlocks ∧ ∀ a, a ∈ t.freemap.free ↔ a = b ∨ a ∈ sfs.freemap.free := by
  have hlt : b < sfs.freemap.nbits := Nat.lt_of_lt_of_le hvalid.2 h.le
  obtain ⟨freemap, hrun, hnbits, hnwords, hfreed⟩ := Bitmap.bitmapFree_spec hlt hfree
  have hfreemap : onFreemap (Bitmap.bitmapFree b) sfs = .ok () { sfs with freemap } := by
    rw [onFreemap, Prog.zoom, hrun]
  have hlength : freemap.free.length = sfs.freemap.free.length + 1 := by
    rw [hfreed, List.orderedInsert_length]
  have hle : sfs.freemap.free.length + 1 < 2 ^ 32 := by
    have hle := free_length_le freemap
    rw [hlength, hnbits] at hle
    exact Nat.lt_of_le_of_lt hle h.lt
  refine ⟨({ sfs with freemap } : SfsFs).setUnusedBlocks (sfs.super.unusedBlocks + 1), ?_, ⟨?_, ?_, ?_, ?_⟩, rfl, rfl,
    ?_⟩
  . unfold sfsBlockFree
    rw [Prog.bind_run_ok (assertInuse_of_not_free h hvalid hfree), Prog.bind_run_ok hfreemap, Prog.modify_run]
  . simpa only [Bitmap.Ok, setUnusedBlocks, hnbits, hnwords] using h.ok
  . simpa only [setUnusedBlocks, hnbits] using h.le
  . simpa only [setUnusedBlocks, hnbits] using h.lt
  . simp only [setUnusedBlocks, hlength, h.unused]
    omega
  . intro a
    simp only [setUnusedBlocks, hfreed, List.mem_orderedInsert]

end SfsFs

namespace AllocRun

variable {super : SfsSuper} {r : AllocRun} {call : AllocCall}

theorem dataBlock_valid {b : Nat} (h : super.DataBlock b) : b ≠ 0 ∧ b < super.blocks :=
  ⟨by have := h.1; simp only [sfsBlknFreemap] at this; omega, h.2⟩

/--
What the calls of the allocator keep when all free bits are those of data blocks.
-/
structure Safe (super : SfsSuper) (r : AllocRun) : Prop where
  counted : r.sfs.Counted
  blocks : r.sfs.super.blocks = super.blocks
  free : ∀ b ∈ r.sfs.freemap.free, super.DataBlock b
  nodup : r.allocated.Nodup
  allocated : ∀ b ∈ r.allocated, super.DataBlock b ∧ b ∉ r.sfs.freemap.free

theorem Safe.alloc (h : Safe super r) : ∃ r', r.step .sfsBlockAlloc = some r' ∧ Safe super r' := by
  unfold step
  cases hfree : r.sfs.freemap.free with
  | nil =>
    rw [SfsFs.sfsBlockAlloc_of_nil h.counted hfree]
    exact ⟨_, rfl, h⟩
  | cons b rest =>
    have hsat := SfsFs.sfsBlockAlloc_of_cons h.counted hfree
    have hdata : super.DataBlock b := h.free b (hfree ▸ List.mem_cons_self ..)
    have hnodup : (b :: rest).Nodup := hfree ▸ r.sfs.freemap.free_nodup
    have hmem : ∀ a ∈ rest, a ∈ r.sfs.freemap.free := fun a ha => hfree ▸ List.mem_cons_of_mem b ha
    have hold : ∀ a ∈ r.allocated, super.DataBlock a ∧ a ∉ rest := fun a ha =>
      ⟨(h.allocated a ha).1, fun hrest => (h.allocated a ha).2 (hmem a hrest)⟩
    cases hrun : SfsFs.sfsBlockAlloc r.sfs with
    | ok a t =>
      rw [hrun] at hsat
      obtain ⟨rfl, htaken, -⟩ := hsat
      refine ⟨_, rfl, htaken.counted, htaken.blocks.trans h.blocks, ?_, ?_, ?_⟩
      . rw [htaken.free]
        exact fun c hc => h.free c (hmem c hc)
      . have hnot : a ∉ r.allocated := fun ha => (h.allocated a ha).2 (hfree ▸ List.mem_cons_self ..)
        exact List.nodup_cons.mpr ⟨hnot, h.nodup⟩
      . rw [htaken.free]
        intro c hc
        cases List.mem_cons.mp hc with
        | inl heq => exact heq ▸ ⟨hdata, (List.nodup_cons.mp hnodup).1⟩
        | inr hc => exact hold c hc
    | error e t =>
      rw [hrun] at hsat
      obtain ⟨htaken, -⟩ := hsat
      refine ⟨_, rfl, htaken.counted, htaken.blocks.trans h.blocks, ?_, h.nodup, ?_⟩
      . rw [htaken.free]
        exact fun c hc => h.free c (hmem c hc)
      . rw [htaken.free]
        exact hold
    | panic p =>
      rw [hrun, Outcome.sat_panic, h.blocks] at hsat
      exact absurd (dataBlock_valid hdata) hsat

theorem Safe.release (h : Safe super r) {ino : Nat} (hino : ino ∈ r.allocated)
    : ∃ r', r.step (.sfsBlockFree ino) = some r' ∧ Safe super r' := by
  obtain ⟨hdata, hnot⟩ := h.allocated ino hino
  have hvalid : ino ≠ 0 ∧ ino < r.sfs.super.blocks := by
    rw [h.blocks]
    exact dataBlock_valid hdata
  obtain ⟨t, hrun, hcounted, hblocks, -, hmem⟩ := SfsFs.sfsBlockFree_of_not_free h.counted hvalid hnot
  refine ⟨⟨t, r.allocated.erase ino⟩, ?_, hcounted, hblocks.trans h.blocks, ?_, h.nodup.erase ino, ?_⟩
  . simp only [step, hrun, Outcome.state, Option.map_some]
  . intro b hb
    cases (hmem b).mp hb with
    | inl heq => exact heq ▸ hdata
    | inr hold => exact h.free b hold
  . intro b hb
    obtain ⟨hne, hold⟩ := (h.nodup.mem_erase_iff).mp hb
    refine ⟨(h.allocated b hold).1, fun hfree => ?_⟩
    cases (hmem b).mp hfree with
    | inl heq => exact hne heq
    | inr hfree => exact (h.allocated b hold).2 hfree

theorem Safe.step (h : Safe super r) (hlegal : r.Legal call) : ∃ r', r.step call = some r' ∧ Safe super r' := by
  cases call with
  | sfsBlockAlloc => exact h.alloc
  | sfsBlockFree ino => exact h.release hlegal

/--
Without failures the allocator hands out all free blocks one after another, or it panics.
-/
theorem handed_out {sfs : SfsFs} {l taken : List Nat} (h : sfs.Counted) (hfree : sfs.freemap.free = l)
    (henv : sfs.env = Faults.never) (hle : sfs.super.blocks ≤ sfs.dev.dBlocks)
    (hexec : Run.exec AllocRun.step ⟨sfs, taken⟩ (l.map fun _ => .sfsBlockAlloc) = some r)
    : ∀ b, b ∈ l ∨ b ∈ taken → b ∈ r.allocated := by
  induction l generalizing sfs taken with
  | nil =>
    obtain rfl := Option.some_inj.mp hexec
    exact fun b hb => hb.resolve_left (List.not_mem_nil)
  | cons a l ih =>
    obtain ⟨r', hstep, hrest⟩ := Option.bind_eq_some_iff.mp hexec
    have hsat := SfsFs.sfsBlockAlloc_of_cons h hfree
    unfold AllocRun.step at hstep
    cases hrun : SfsFs.sfsBlockAlloc sfs with
    | ok c t =>
      rw [hrun] at hsat
      obtain ⟨rfl, htaken, henv'⟩ := hsat
      simp only [hrun, Option.some_inj] at hstep
      subst hstep
      have hnever : t.env = Faults.never := by
        rw [henv', henv, Faults.never_drop]
      have hle' : t.super.blocks ≤ t.dev.dBlocks := by
        rwa [htaken.blocks, htaken.dBlocks]
      intro b hb
      apply ih htaken.counted htaken.free hnever hle' hrest
      simp only [List.mem_cons] at hb ⊢
      tauto
    | error e t =>
      rw [hrun] at hsat
      obtain ⟨-, hlt, hwhy⟩ := hsat
      have hdisk : SfsFs.diskBlkno a ≤ a := by
        unfold SfsFs.diskBlkno
        exact Nat.div_le_of_le_mul (Nat.mul_comm a sfsBlksize ▸ Nat.mod_le _ _)
      rw [henv] at hwhy
      cases hwhy with
      | inl hfail => exact absurd rfl hfail
      | inr hout => omega
    | panic p =>
      simp only [hrun, reduceCtorEq] at hstep

end AllocRun
end Ucore

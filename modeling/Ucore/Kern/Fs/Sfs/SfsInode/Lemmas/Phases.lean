import Ucore.Kern.Fs.Sfs.SfsInode.Lemmas.WholeBlocks

/-!
This module puts the three phases of `sfs_io_nolock` together, for any description of what a phase
does that composes.
-/

namespace Ucore

namespace SfsIo

open SfsCtx (Frame nblksOf)

variable {s s' : SfsIo}

/--
The number of requests for the content before those for block `b` of the file, for a transfer that
starts at `offset`.
-/
def dataBefore (write : Bool) (offset b : Nat) : Nat :=
  (if offset % sfsBlksize ≠ 0 then bufCost write else 0) + (b - nblksOf offset)

/--
The number of requests for the content that the last phase makes.
-/
def tailCost (write : Bool) (endpos : Nat) : Nat :=
  if endpos % sfsBlksize ≠ 0 then bufCost write else 0

/--
The number of requests for the content that the transfer of `[offset, endpos)` makes.
-/
def dataCount (write : Bool) (offset endpos : Nat) : Nat :=
  dataBefore write offset (endpos / sfsBlksize) +
    if nblksOf offset ≤ endpos / sfsBlksize then tailCost write endpos else 0

/--
`M` describes what a phase does and `F` what it does if it fails: `M` composes, and both hold of a
phase that stays within the file.
-/
structure Phased (write : Bool) (M : Nat → Nat → Nat → SfsIo → SfsIo → Prop)
    (F : Nat → Nat → SfsIo → SfsIo → Prop) : Prop where
  advanced : ∀ {pos n d s s'}, M pos n d s s' → Advanced pos n d s s'
  trans : ∀ {pos m n c d s s' s''}, s.sfs.vol.MapOk s.sin.din → M pos m c s s' →
    M (pos + m) n d s' s'' → M pos (m + n) (c + d) s s''
  moved : ∀ {pos n d s s'}, Moved write pos n d s s' → M pos n d s s'
  stopped : ∀ {pos d s s'}, Stopped pos d s s' → F pos d s s'

theorem phased_moved (write : Bool) : Phased write (Moved write) Stopped :=
  ⟨fun h => h.toAdvanced, Moved.trans, id, id⟩

theorem phased_advanced (write : Bool) : Phased write Advanced Halted :=
  ⟨id, fun _ => Advanced.trans, fun h => h.toAdvanced, fun h => h.toHalted⟩

/--
The transfer needs a block that the block map has no place for, and there are enough free blocks to
get there.
-/
def OutOfRange (endpos : Nat) (s : SfsIo) : Prop :=
  maxBlocks * sfsBlksize < endpos ∧ s.sin.din.needTo maxBlocks ≤ s.sfs.vol.free.length

theorem needTo_full {v : Vol} {din : SfsDiskInode} (hmap : v.MapOk din)
    (h : din.blocks = maxBlocks)
    : din.needTo maxBlocks = 0 := by
  have hind : din.indirect ≠ 0 := hmap.indirect_ne_zero (by rw [h]; decide)
  unfold SfsDiskInode.needTo
  rw [h, Nat.sub_self, if_neg fun h => hind h.2]

theorem OutOfRange.of_full {endpos : Nat} (hmap : s.sfs.vol.MapOk s.sin.din)
    (h : s.sin.din.blocks = maxBlocks) (hlt : maxBlocks * sfsBlksize < endpos)
    : OutOfRange endpos s :=
  ⟨hlt, by rw [needTo_full hmap h]; exact Nat.zero_le _⟩

theorem OutOfRange.of_advanced {pos n d endpos : Nat} (h : OutOfRange endpos s')
    (hadv : Advanced pos n d s s') (hle : nblksOf (pos + n) ≤ maxBlocks)
    : OutOfRange endpos s := by
  refine ⟨h.1, ?_⟩
  have := hadv.needTo maxBlocks hle
  have := h.2
  omega

/--
The transfer of `[offset, endpos)` fails, either at its first block or after it has moved some bytes.
-/
inductive Interrupted (write : Bool) (M : Nat → Nat → Nat → SfsIo → SfsIo → Prop)
    (F : Nat → Nat → SfsIo → SfsIo → Prop) (offset endpos : Nat) (s s' : SfsIo) : Prop where
  | first (data : Nat) (hdata : data ≤ dataCount write offset endpos) (h : F offset data s s')
  | later (t : SfsIo) (n data : Nat) (hpos : 0 < n) (hlt : offset + n < endpos)
      (haligned : (offset + n) % sfsBlksize = 0)
      (hdata : dataBefore write offset ((offset + n) / sfsBlksize) + data ≤
        dataCount write offset endpos)
      (hmoved : M offset n (dataBefore write offset ((offset + n) / sfsBlksize)) s t)
      (hstopped : F (offset + n) data t s')

variable {write : Bool} {M : Nat → Nat → Nat → SfsIo → SfsIo → Prop}
  {F : Nat → Nat → SfsIo → SfsIo → Prop} {X : Panic → Prop}

theorem alignedPart_sat (hphased : Phased write M F) {endpos b n : Nat} (hok : s.sfs.Ok)
    (hmap : s.sfs.vol.MapOk s.sin.din) (hle : b ≤ s.sin.din.blocks)
    (hend : b + n = endpos / sfsBlksize)
    (hwhole : 0 < n → (wholeBlocks write b n s).Sat
      (fun _ s' => M (b * sfsBlksize) (n * sfsBlksize) n s s')
      (fun _ s' => F (b * sfsBlksize) n s s') X)
    (hX : OutOfRange endpos s → X .sfsBmapGetOutOfRange)
    : (alignedPart write endpos b n s).Sat
        (fun _ s' => (endpos = b * sfsBlksize ∧ s' = s) ∨
          ∃ d, M (b * sfsBlksize) (endpos - b * sfsBlksize) d s s')
        (fun _ s' => (∃ d ≤ n + tailCost write endpos, b * sfsBlksize < endpos ∧
            F (b * sfsBlksize) d s s') ∨
          ∃ t, ∃ d ≤ tailCost write endpos, 0 < n ∧ (b + n) * sfsBlksize < endpos ∧
            M (b * sfsBlksize) (n * sfsBlksize) n s t ∧
            F ((b + n) * sfsBlksize) d t s')
        X := by
  have hdiv : endpos = (b + n) * sfsBlksize + endpos % sfsBlksize := by
    rw [hend, Nat.mul_comm]
    exact (Nat.div_add_mod _ _).symm
  have hmod : endpos % sfsBlksize < sfsBlksize := Nat.mod_lt _ (by decide)
  have htail : endpos % sfsBlksize ≠ 0 → bufCost write = tailCost write endpos := by
    intro hne
    rw [tailCost, if_pos hne]
  unfold alignedPart
  by_cases hn : 0 < n
  . rw [Prog.when_pos hn]
    have hsplit : (b + n) * sfsBlksize = b * sfsBlksize + n * sfsBlksize := Nat.add_mul _ _ _
    have hpos : 0 < n * sfsBlksize := Nat.mul_pos hn (by decide)
    apply Prog.sat_bind (hwhole hn)
    . intro _ t hmoved
      have hadv := hphased.advanced hmoved
      by_cases hne : endpos % sfsBlksize ≠ 0
      . have hnblks : nblksOf (b * sfsBlksize + n * sfsBlksize) = b + n := by
          simp only [nblksOf, sfsBlksize]
          omega
        have hblocks : b + n ≤ t.sin.din.blocks := by
          rw [hadv.blocks, hnblks]
          omega
        rw [Prog.when_pos hne]
        apply (partialBlock_sat hadv.ok hadv.mapOk hblocks (Nat.add_zero _).symm (by decide)
          (by omega) (by omega)).mono
        . intro _ s' hmoved'
          have hmoved' := hphased.moved hmoved'
          rw [hsplit] at hmoved'
          rw [show endpos - b * sfsBlksize = n * sfsBlksize + endpos % sfsBlksize by omega]
          exact .inr ⟨_, hphased.trans hmap hmoved hmoved'⟩
        . intro _ s' hstopped
          exact .inr ⟨t, _, Nat.le_of_eq (htail hne), hn, by omega, hmoved,
            hphased.stopped hstopped⟩
        . rintro p ⟨hp, hfull, hmax⟩
          rw [hp]
          apply hX
          apply OutOfRange.of_advanced _ hadv (by rw [hnblks]; omega)
          apply OutOfRange.of_full hadv.mapOk (hfull.symm.trans hmax)
          rw [hdiv, hmax]
          omega
      . rw [Prog.when_neg hne]
        exact .inr ⟨n, by rwa [show endpos - b * sfsBlksize = n * sfsBlksize by omega]⟩
    . intro _ s' hstopped
      exact .inl ⟨_, Nat.le_add_right _ _, by omega, hstopped⟩
    . exact fun _ => id
  . obtain rfl : n = 0 := by omega
    rw [Nat.add_zero] at hdiv ⊢
    rw [Prog.when_neg (by omega), Prog.pure_bind_run]
    by_cases hne : endpos % sfsBlksize ≠ 0
    . rw [Prog.when_pos hne]
      apply (partialBlock_sat hok hmap hle (Nat.add_zero _).symm (by decide) (by omega)
        (by omega)).mono
      . intro _ s' hmoved
        rw [show endpos - b * sfsBlksize = endpos % sfsBlksize by omega]
        exact .inr ⟨_, hphased.moved hmoved⟩
      . intro _ s' hstopped
        refine .inl ⟨_, ?_, by omega, hphased.stopped hstopped⟩
        rw [htail hne, Nat.zero_add]
      . rintro p ⟨hp, hfull, hmax⟩
        rw [hp]
        apply hX
        apply OutOfRange.of_full hmap (hfull.symm.trans hmax)
        rw [hdiv, hmax]
        omega
    . have hend' : endpos = b * sfsBlksize := hdiv.trans (by rw [not_not.mp hne, Nat.add_zero])
      rw [Prog.when_neg hne, Prog.pure_run]
      exact .inl ⟨hend', rfl⟩

/--
The second phase starts either at once or when the first has moved the bytes up to the next block.
-/
def AtRun (write : Bool) (offset : Nat) (s t : SfsIo) : Prop :=
  (offset % sfsBlksize = 0 ∧ t = s) ∨
    (offset % sfsBlksize ≠ 0 ∧
      Moved write offset (sfsBlksize - offset % sfsBlksize) (bufCost write) s t)

/--
The state in which the second phase starts.
-/
theorem AtRun.start {offset : Nat} {t : SfsIo} (h : AtRun write offset s t) (hok : s.sfs.Ok)
    (hmap : s.sfs.vol.MapOk s.sin.din) (hle : offset / sfsBlksize ≤ s.sin.din.blocks)
    : t.sfs.Ok ∧ t.sfs.vol.MapOk t.sin.din ∧ nblksOf offset ≤ t.sin.din.blocks ∧
        offset + t.alen = nblksOf offset * sfsBlksize + s.alen := by
  cases h with
  | inl h =>
    obtain ⟨haligned, rfl⟩ := h
    have hnblks : nblksOf offset = offset / sfsBlksize := by
      simp only [nblksOf, sfsBlksize] at haligned ⊢
      omega
    have hmul : offset / sfsBlksize * sfsBlksize = offset := by
      simp only [sfsBlksize] at haligned ⊢
      omega
    rw [hnblks, hmul]
    exact ⟨hok, hmap, hle, rfl⟩
  | inr h =>
    obtain ⟨hoff, hmoved⟩ := h
    have hpos : offset + (sfsBlksize - offset % sfsBlksize) = nblksOf offset * sfsBlksize := by
      simp only [nblksOf, sfsBlksize] at hoff ⊢
      omega
    have hnblks : nblksOf (nblksOf offset * sfsBlksize) = nblksOf offset := by
      simp only [nblksOf, sfsBlksize]
      omega
    refine ⟨hmoved.ok, hmoved.mapOk, ?_, ?_⟩
    . rw [hmoved.blocks, hpos, hnblks]
      exact Nat.le_max_right _ _
    . rw [hmoved.alen]
      omega

theorem phases_sat (hphased : Phased write M F) {offset endpos : Nat} (hok : s.sfs.Ok)
    (hmap : s.sfs.vol.MapOk s.sin.din) (hle : offset / sfsBlksize ≤ s.sin.din.blocks)
    (hlt : offset < endpos)
    (hwhole : ∀ t, AtRun write offset s t → nblksOf offset < endpos / sfsBlksize →
      (wholeBlocks write (nblksOf offset) (endpos / sfsBlksize - nblksOf offset) t).Sat
        (fun _ s' => M (nblksOf offset * sfsBlksize)
          ((endpos / sfsBlksize - nblksOf offset) * sfsBlksize)
          (endpos / sfsBlksize - nblksOf offset) t s')
        (fun _ s' => F (nblksOf offset * sfsBlksize)
          (endpos / sfsBlksize - nblksOf offset) t s') X)
    (hX : OutOfRange endpos s → X .sfsBmapGetOutOfRange)
    : (phases write offset endpos s).Sat (fun _ s' => ∃ d, M offset (endpos - offset) d s s')
        (fun _ s' => Interrupted write M F offset endpos s s') X := by
  have hdiv : offset = offset / sfsBlksize * sfsBlksize + offset % sfsBlksize := by
    rw [Nat.mul_comm]
    exact (Nat.div_add_mod _ _).symm
  have hmod : offset % sfsBlksize < sfsBlksize := Nat.mod_lt _ (by decide)
  have hmono : offset / sfsBlksize ≤ endpos / sfsBlksize := Nat.div_le_div_right (by omega)
  unfold phases
  by_cases hoff : offset % sfsBlksize ≠ 0
  . have hnblks : nblksOf offset = offset / sfsBlksize + 1 := by
      simp only [nblksOf, sfsBlksize] at hoff ⊢
      omega
    have hpos : offset + (sfsBlksize - offset % sfsBlksize) =
        (offset / sfsBlksize + 1) * sfsBlksize := by
      rw [Nat.succ_mul]
      omega
    have hfull : ∀ p, p = Panic.sfsBmapGetOutOfRange ∧ offset / sfsBlksize = s.sin.din.blocks ∧
        offset / sfsBlksize = maxBlocks → X p := by
      rintro p ⟨hp, hfull, hmax⟩
      rw [hp]
      apply hX
      apply OutOfRange.of_full hmap (hfull.symm.trans hmax)
      rw [hmax] at hdiv
      omega
    have hcost : dataBefore write offset (nblksOf offset) = bufCost write := by
      rw [dataBefore, if_pos hoff, Nat.sub_self, Nat.add_zero]
    rw [if_pos hoff]
    rw [hnblks] at hwhole
    by_cases hone : endpos / sfsBlksize - offset / sfsBlksize ≠ 0
    . have hend : offset / sfsBlksize + 1 + (endpos / sfsBlksize - offset / sfsBlksize - 1) =
          endpos / sfsBlksize := by
        omega
      have hcount : dataCount write offset endpos = bufCost write +
          (endpos / sfsBlksize - offset / sfsBlksize - 1 + tailCost write endpos) := by
        rw [dataCount, dataBefore, if_pos hoff, hnblks, if_pos (by omega), Nat.add_assoc,
          Nat.sub_sub]
      rw [if_pos hone, Prog.when_pos hone]
      apply Prog.sat_bind (partialBlock_sat hok hmap hle hdiv hmod (by omega) (by omega))
      . intro _ t hmoved
        have hblocks : t.sin.din.blocks = max s.sin.din.blocks (offset / sfsBlksize + 1) := by
          rw [hmoved.blocks, hpos]
          congr 1
          simp only [nblksOf, sfsBlksize]
          omega
        have hle' : offset / sfsBlksize + 1 ≤ t.sin.din.blocks := hblocks ▸ Nat.le_max_right _ _
        have hX' : OutOfRange endpos t → X .sfsBmapGetOutOfRange := by
          intro hrange
          apply hX
          apply hrange.of_advanced hmoved.toAdvanced
          have := hmoved.mapOk.blocks_le
          rw [hmoved.blocks] at this
          omega
        apply (alignedPart_sat hphased hmoved.ok hmoved.mapOk hle' hend ?_ hX').mono
        . intro _ s' h
          rw [← hpos] at h
          cases h with
          | inl h =>
            obtain ⟨hend, rfl⟩ := h
            exact ⟨_, by rw [hend, Nat.add_sub_cancel_left]; exact hphased.moved hmoved⟩
          | inr h =>
            obtain ⟨d, hmoved'⟩ := h
            have hsplit : endpos - offset = sfsBlksize - offset % sfsBlksize +
                (endpos - (offset + (sfsBlksize - offset % sfsBlksize))) := by
              have : (offset / sfsBlksize + 1) * sfsBlksize ≤ endpos := by
                rw [Nat.mul_comm]
                exact Nat.le_trans (Nat.mul_le_mul_left _ (by omega)) (Nat.mul_div_le endpos _)
              omega
            rw [hsplit]
            exact ⟨_, hphased.trans hmap (hphased.moved hmoved) hmoved'⟩
        . intro _ s' h
          cases h with
          | inl h =>
            obtain ⟨d, hd, hlt', hstopped⟩ := h
            rw [← hpos] at hlt' hstopped
            have hblk : (offset + (sfsBlksize - offset % sfsBlksize)) / sfsBlksize =
                nblksOf offset := by
              rw [hpos, Nat.mul_div_cancel _ (by decide), hnblks]
            refine .later t _ d (by omega) hlt' ?_ ?_ ?_ hstopped
            . rw [hpos, Nat.mul_mod_left]
            . rw [hblk, hcost, hcount]
              omega
            . rw [hblk, hcost]
              exact hphased.moved hmoved
          | inr h =>
            obtain ⟨u, d, hd, hn, hlt', hmoved', hstopped⟩ := h
            rw [Nat.add_mul, ← hpos] at hlt' hstopped
            rw [← hpos] at hmoved'
            rw [Nat.add_assoc] at hlt' hstopped
            have hblk : dataBefore write offset ((offset + (sfsBlksize - offset % sfsBlksize +
                (endpos / sfsBlksize - offset / sfsBlksize - 1) * sfsBlksize)) / sfsBlksize) =
                bufCost write + (endpos / sfsBlksize - offset / sfsBlksize - 1) := by
              rw [← Nat.add_assoc, hpos, ← Nat.add_mul, Nat.mul_div_cancel _ (by decide),
                dataBefore, if_pos hoff, hnblks, Nat.add_sub_cancel_left]
            refine .later u _ d (by omega) hlt' ?_ ?_ ?_ hstopped
            . rw [← Nat.add_assoc, Nat.add_mul_mod_self_right, hpos, Nat.mul_mod_left]
            . rw [hblk, hcount]
              omega
            . rw [hblk]
              exact hphased.trans hmap (hphased.moved hmoved) hmoved'
        . exact fun _ => id
        . intro hn
          have := hwhole t (.inr ⟨hoff, hmoved⟩) (by omega)
          rwa [← Nat.sub_sub] at this
      . intro _ s' hstopped
        refine .first _ ?_ (hphased.stopped hstopped)
        rw [hcount]
        exact Nat.le_add_right _ _
      . exact hfull
    . rw [if_neg hone, Prog.when_neg hone]
      apply Prog.sat_bind (partialBlock_sat hok hmap hle hdiv hmod (by omega) ?_)
      . intro _ t hmoved
        exact ⟨_, hphased.moved hmoved⟩
      . intro _ s' hstopped
        refine .first _ ?_ (hphased.stopped hstopped)
        rw [dataCount, dataBefore, if_pos hoff]
        omega
      . exact hfull
      . simp only [sfsBlksize] at hone ⊢
        omega
  . have hnblks : nblksOf offset = offset / sfsBlksize := by
      simp only [nblksOf, sfsBlksize] at hoff ⊢
      omega
    have hpos : offset / sfsBlksize * sfsBlksize = offset := by omega
    have hend : offset / sfsBlksize + (endpos / sfsBlksize - offset / sfsBlksize) =
        endpos / sfsBlksize := by
      omega
    have hcount : dataCount write offset endpos =
        endpos / sfsBlksize - offset / sfsBlksize + tailCost write endpos := by
      rw [dataCount, dataBefore, if_neg hoff, hnblks, if_pos hmono, Nat.zero_add]
    rw [if_neg hoff]
    rw [hnblks] at hwhole
    apply (alignedPart_sat hphased hok hmap hle hend ?_ hX).mono
    . intro _ s' hmoved
      rw [hpos] at hmoved
      cases hmoved with
      | inl h => omega
      | inr h => exact h
    . intro _ s' hstopped
      rw [hpos] at hstopped
      cases hstopped with
      | inl h =>
        obtain ⟨d, hd, _, h⟩ := h
        exact .first d (by rw [hcount]; exact hd) h
      | inr h =>
        obtain ⟨t, d, hd, hn, hlt', hmoved, h⟩ := h
        rw [Nat.add_mul, hpos] at hlt' h
        have hblk : dataBefore write offset
            ((offset + (endpos / sfsBlksize - offset / sfsBlksize) * sfsBlksize) / sfsBlksize) =
            endpos / sfsBlksize - offset / sfsBlksize := by
          rw [dataBefore, if_neg hoff, hnblks, Nat.zero_add, Nat.add_mul_div_right _ _ (by decide),
            Nat.add_sub_cancel_left]
        refine .later t _ d (Nat.mul_pos hn (by decide)) hlt' ?_ ?_ ?_ h
        . rw [Nat.add_mul_mod_self_right]
          omega
        . rw [hblk, hcount]
          omega
        . rw [hblk]
          exact hmoved
    . exact fun _ => id
    . intro hn
      exact hwhole s (.inl ⟨by omega, rfl⟩) (by omega)

/--
The phases of a request with whole blocks in the middle.
-/
theorem phases_middle {offset endpos : Nat} (hn : nblksOf offset < endpos / sfsBlksize)
    : phases write offset endpos s =
        (Prog.when (offset % sfsBlksize ≠ 0)
            (partialBlock write (offset / sfsBlksize) (sfsBlksize - offset % sfsBlksize)
              (offset % sfsBlksize)) >>= fun _ =>
          wholeBlocks write (nblksOf offset) (endpos / sfsBlksize - nblksOf offset) >>= fun _ =>
          Prog.when (endpos % sfsBlksize ≠ 0)
            (partialBlock write (endpos / sfsBlksize) (endpos % sfsBlksize) 0)) s := by
  unfold phases alignedPart
  by_cases hoff : offset % sfsBlksize ≠ 0
  . have hnblks : nblksOf offset = offset / sfsBlksize + 1 := by
      simp only [nblksOf, sfsBlksize] at hoff ⊢
      omega
    rw [hnblks] at hn ⊢
    have hend : offset / sfsBlksize + 1 + (endpos / sfsBlksize - offset / sfsBlksize - 1) =
        endpos / sfsBlksize := by
      omega
    rw [if_pos hoff, if_pos (by omega), Prog.when_pos hoff, Prog.when_pos (by omega),
      Prog.when_pos (by omega), hend, Nat.sub_sub]
  . have hnblks : nblksOf offset = offset / sfsBlksize := by
      simp only [nblksOf, sfsBlksize] at hoff ⊢
      omega
    rw [hnblks] at hn ⊢
    have hend : offset / sfsBlksize + (endpos / sfsBlksize - offset / sfsBlksize) =
        endpos / sfsBlksize := by
      omega
    rw [if_neg hoff, Prog.when_neg hoff, Prog.when_pos (by omega), hend]
    rfl

/--
What follows if all three phases succeed.
-/
theorem phases_middle_sat {offset endpos : Nat} {R : SfsIo → SfsIo → Prop} {Q : SfsIo → Prop}
    (hok : s.sfs.Ok) (hmap : s.sfs.vol.MapOk s.sin.din)
    (hle : offset / sfsBlksize ≤ s.sin.din.blocks) (hn : nblksOf offset < endpos / sfsBlksize)
    (hwhole : ∀ t, AtRun write offset s t →
      (wholeBlocks write (nblksOf offset) (endpos / sfsBlksize - nblksOf offset) t).Sat
        (fun _ u => R t u) (fun _ _ => True) (fun _ => True))
    (htail : ∀ t u, AtRun write offset s t → R t u →
      (Prog.when (endpos % sfsBlksize ≠ 0)
        (partialBlock write (endpos / sfsBlksize) (endpos % sfsBlksize) 0) u).Sat
        (fun _ s' => Q s') (fun _ _ => True) (fun _ => True))
    : (phases write offset endpos s).Sat (fun _ s' => Q s') (fun _ _ => True)
        (fun _ => True) := by
  have hdiv : offset = offset / sfsBlksize * sfsBlksize + offset % sfsBlksize := by
    rw [Nat.mul_comm]
    exact (Nat.div_add_mod _ _).symm
  have hmod : offset % sfsBlksize < sfsBlksize := Nat.mod_lt _ (by decide)
  rw [phases_middle hn]
  apply Prog.sat_bind (R := fun _ t => AtRun write offset s t) (F := fun _ _ => True)
    (Y := fun _ => True)
  . by_cases hoff : offset % sfsBlksize ≠ 0
    . rw [Prog.when_pos hoff]
      apply (partialBlock_sat hok hmap hle hdiv hmod (by omega) (by omega)).mono
      . exact fun _ t hmoved => .inr ⟨hoff, hmoved⟩
      . exact fun _ _ _ => trivial
      . exact fun _ _ => trivial
    . rw [Prog.when_neg hoff]
      exact .inl ⟨not_not.mp hoff, rfl⟩
  . intro _ t hat
    apply Prog.sat_bind_imp (hwhole t hat)
    exact fun _ u hu => htail t u hat hu
  . exact fun _ _ => id
  . exact fun _ => id

/--
Without faults a transfer only fails because there are too few free blocks.
-/
theorem Halted.noSpace {pos d : Nat} (h : Halted pos d s s') (henv : s.sfs.env = Faults.never)
    : pos / sfsBlksize = s.sin.din.blocks ∧ s.sfs.vol.free.length < s.sin.din.need := by
  cases h.cause with
  | inl h =>
    cases h.cause with
    | inl h =>
      obtain ⟨_, k, n, hfault⟩ := h
      rw [henv] at hfault
      exact absurd rfl hfault
    | inr h =>
      refine ⟨h.1, h.2.resolve_right fun hans => hans ?_⟩
      rw [henv]
      exact Faults.answers_never
  | inr h =>
    obtain ⟨k, _, hfault⟩ := h.fault
    rw [henv] at hfault
    exact absurd rfl hfault

theorem Interrupted.noSpace {offset endpos : Nat}
    (h : Interrupted write (Moved write) Stopped offset endpos s s')
    (henv : s.sfs.env = Faults.never) (hlt : offset < endpos)
    : s.sin.din.blocks < nblksOf endpos ∧
        s.sfs.vol.free.length < s.sin.din.needTo (nblksOf endpos) := by
  cases h with
  | first data _ h =>
    obtain ⟨hindex, hneed⟩ := h.noSpace henv
    have hblocks : s.sin.din.blocks < nblksOf endpos := by
      rw [← hindex]
      simp only [nblksOf, sfsBlksize]
      omega
    exact ⟨hblocks, Nat.lt_of_lt_of_le hneed (SfsDiskInode.need_le_needTo hblocks)⟩
  | later t n data hpos hlt' haligned _ hmoved h =>
    obtain ⟨c, henv'⟩ := hmoved.frame.env
    obtain ⟨hindex, hneed⟩ := h.noSpace (henv'.trans (by rw [ctx, henv, Faults.never_drop]))
    have hblocks : t.sin.din.blocks < nblksOf endpos := by
      rw [← hindex]
      simp only [nblksOf, sfsBlksize]
      omega
    have hneed' := SfsDiskInode.need_le_needTo hblocks
    have := hmoved.needTo (nblksOf endpos) (nblksOf_mono (by omega))
    have := hmoved.blocks
    omega

end SfsIo

end Ucore

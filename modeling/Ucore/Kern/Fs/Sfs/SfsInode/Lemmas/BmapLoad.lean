import Ucore.Kern.Fs.Sfs.SfsInode.Lemmas.Basic

/-!
This module contains the specification of `sfs_bmap_load_nolock`: it looks up a block of the file, or
appends one if the index is the number of blocks.
-/

namespace Ucore

open Faults (cost)

namespace Vol

variable {v v' : Vol} {b : Nat} {rest : List Nat}

theorem clear_data_of_ne (v : Vol) {b b' : Nat} (h : b' ≠ b) : (v.clear b).data b' = v.data b' :=
  write_data_of_ne _ _ _ _ h

theorem clear_data_self (v : Vol) (b : Nat) {i : Nat} (h : i < sfsBlksize)
    : (v.clear b).data b i = 0 := by
  rw [clear, write_data_self, Bytes.copy_of_mem _ _ (Nat.zero_le i) (by omega)]
  rfl

/--
The state after a block is allocated: it is taken from the free list and cleared.
-/
def alloc (v : Vol) (b : Nat) (rest : List Nat) : Vol :=
  ((v.setFree rest).requested (cost .clear 1)).clear b

theorem Kept.lost (h : v.free = b :: rest) (hans : ¬v.env.Answers (cost .clear 1))
    : Kept v ((v.setFree rest).requested (cost .clear 1)) := by
  refine ⟨rfl, fun _ _ => rfl, ?_, ?_, cost .clear 1, rfl⟩
  . intro a ha
    rw [h]
    exact List.mem_cons_of_mem b ha
  . intro hclear
    exact absurd (Faults.answers_cost_one.mpr (hclear 0)) hans

/--
Putting back the block that was allocated first.
-/
theorem Kept.release_alloc (hsorted : v.free.Pairwise (· < ·)) (h : v.free = b :: rest)
    (hkept : Kept (v.alloc b rest) v')
    : Kept v (v'.release b) := by
  rw [h] at hsorted
  obtain ⟨c, henv⟩ := hkept.env
  refine ⟨hkept.blocks, ?_, ?_, ?_, cost .clear 1 + c, ?_⟩
  . intro a ha
    rw [h, List.mem_cons, not_or] at ha
    have := hkept.data a ha.2
    rw [alloc, clear_data_of_ne _ ha.1] at this
    exact this
  . intro a ha
    rw [h, List.mem_cons]
    rw [mem_release_free] at ha
    cases ha with
    | inl ha => exact .inl ha
    | inr ha => exact .inr (hkept.free_subset a ha)
  . intro hclear
    have hv' : v'.free = rest := hkept.free_eq fun n => hclear _
    rw [release_of_sorted hv' hsorted, h]
    rfl
  . rw [release_env, henv, ← Faults.drop_drop]
    rfl

end Vol

namespace SfsFs

variable {sfs : SfsFs}

theorem allocEntry_sat (hok : sfs.Ok) {entp ent i : Nat} (hent : sfs.vol.InUse ent)
    (hi : i < sfsBlkNentry)
    : (allocEntry entp ent (i * 4) sfs).Sat
        (fun a sfs' => ∃ ino rest, a = (ent, ino) ∧ sfs.vol.free = ino :: rest ∧ sfs'.Ok ∧
          sfs'.vol = ((sfs.vol.alloc ino rest).requested (cost .entry 2)).write ent (i * 4)
            (Bytes.ofNat ino) 4 ∧
          sfs.env.Answers (cost .clear 1 + cost .entry 2))
        (fun _ sfs' => sfs'.Ok ∧ (∃ v, Vol.Kept sfs.vol v ∧
            sfs'.vol = if ent ≠ entp then v.release ent else v) ∧
          (sfs.vol.free = [] ∨ ¬sfs.env.Answers (cost .clear 1 + cost .entry 2)))
        (fun _ => False) := by
  have hoff : i * 4 < sfsBlksize := by simp only [sfsBlkNentry, sfsBlksize] at hi ⊢; omega
  have hlen : i * 4 + 4 ≤ sfsBlksize := by simp only [sfsBlkNentry, sfsBlksize] at hi ⊢; omega
  unfold allocEntry
  apply Prog.sat_onError (F := fun _ sfs' => sfs'.Ok ∧ Vol.Kept sfs.vol sfs'.vol ∧
    (sfs.vol.free = [] ∨ ¬sfs.env.Answers (cost .clear 1 + cost .entry 2)))
    (Y := fun _ => False)
  . cases hfree : sfs.vol.free with
    | nil =>
      rw [Prog.bind_run_error (sfsBlockAlloc_nil hok hfree)]
      exact ⟨hok, Vol.Kept.refl _, .inl rfl⟩
    | cons ino rest =>
      apply Prog.sat_bind (sfsBlockAlloc_sat hok hfree)
      . intro a sfs' ⟨ha, hok', hvol', hans⟩
        subst ha
        have hne : ent ≠ a := by
          intro heq
          exact hent.2 (by simp [hfree, heq])
        have hvalid : sfs'.vol.Valid ent := by
          rw [hvol']
          exact hent.1
        have henv : sfs'.env = sfs.env.drop (cost .clear 1) := congrArg Vol.env hvol'
        apply Prog.sat_bind (R := fun _ sfs'' => sfs''.Ok ∧
            sfs''.vol = ((sfs.vol.alloc a rest).requested (cost .entry 2)).write ent (i * 4)
              (Bytes.ofNat a) 4 ∧ sfs.env.Answers (cost .clear 1 + cost .entry 2))
          (F := fun _ sfs' => sfs'.Ok ∧ Vol.Kept sfs.vol sfs'.vol ∧
            (a :: rest = [] ∨ ¬sfs.env.Answers (cost .clear 1 + cost .entry 2)))
          (Y := fun _ => False)
        . apply Prog.sat_onError (sfsWbuf_sat hok' hvalid (Bytes.ofNat a) hoff hlen |>.mono ?_
            (fun _ _ => id) (fun _ => id))
          . intro _ sfs'' ⟨hok'', c, hsfs'', hans'⟩
            subst hsfs''
            have hnodup := hok.free_nodup
            rw [hfree] at hnodup
            have hinUse : (sfs'.requested c).vol.InUse a := by
              rw [requested_vol, hvol']
              exact ⟨hok.free_valid a (by rw [show sfs.freemap.free = a :: rest from hfree]; simp),
                (List.nodup_cons.mp hnodup).1⟩
            obtain ⟨t, hrun, hokt, hvolt⟩ := sfsBlockFree_run hok'' hinUse
            rw [hrun]
            refine ⟨hokt, ?_, .inr ?_⟩
            . rw [hvolt]
              apply Vol.Kept.release_alloc hok.free_sorted hfree
              rw [requested_vol, hvol']
              exact (Vol.Kept.refl _).requested c
            . rw [henv] at hans'
              exact Faults.not_answers_add_right hans'
          . exact fun _ => id
          . intro _ sfs'' ⟨hok'', hvol'', hans'⟩
            rw [henv] at hans'
            refine ⟨hok'', ?_, Faults.answers_add.mpr ⟨hans, hans'⟩⟩
            rw [hvol'', hvol']
            rfl
        . intro _ sfs'' ⟨hok'', hvol'', hans'⟩
          exact ⟨a, rest, rfl, rfl, hok'', hvol'', hans'⟩
        . exact fun _ _ => id
        . exact fun _ => id
      . intro _ sfs' ⟨hok', hvol', hans⟩
        refine ⟨hok', ?_, .inr (Faults.not_answers_add_left hans)⟩
        rw [hvol']
        exact Vol.Kept.lost hfree hans
      . exact fun _ => id
  . intro _ sfs' ⟨hok', hkept, hcause⟩
    by_cases hentp : ent ≠ entp
    . have hinUse : sfs'.vol.InUse ent :=
        ⟨⟨hent.1.1, hkept.blocks ▸ hent.1.2⟩, fun hmem => hent.2 (hkept.free_subset _ hmem)⟩
      obtain ⟨t, hrun, hokt, hvolt⟩ := sfsBlockFree_run hok' hinUse
      rw [Prog.when, if_pos hentp, hrun]
      exact ⟨hokt, ⟨sfs'.vol, hkept, by rw [if_pos hentp, hvolt]⟩, hcause⟩
    . rw [Prog.when, if_neg hentp]
      exact ⟨hok', ⟨sfs'.vol, hkept, by rw [if_neg hentp]⟩, hcause⟩
  . exact fun _ => id

theorem getSub_lookup (hok : sfs.Ok) {entp i : Nat} {create : Bool} (hent : sfs.vol.InUse entp)
    (hi : i < sfsBlkNentry) (hentry : sfs.vol.entry entp i ≠ 0 ∨ create = false)
    : (sfsBmapGetSubNolock entp i create sfs).Sat
        (fun a sfs' => a = (entp, sfs.vol.entry entp i) ∧ sfs' = sfs.requested (cost .entry 1) ∧
          sfs.env.Answers (cost .entry 1))
        (fun _ sfs' => sfs' = sfs.requested (cost .entry 1) ∧ ¬sfs.env.Answers (cost .entry 1))
        (fun _ => False) := by
  have hoff : i * 4 < sfsBlksize := by simp only [sfsBlkNentry, sfsBlksize] at hi ⊢; omega
  have hlen : i * 4 + 4 ≤ sfsBlksize := by simp only [sfsBlkNentry, sfsBlksize] at hi ⊢; omega
  unfold sfsBmapGetSubNolock
  rw [Prog.assert_bind_run hi, if_pos hent.ne_zero]
  apply Prog.sat_bind_imp (sfsRbuf_sat hok hent.1 hoff hlen)
  intro b sfs' ⟨hb, hsfs', hans⟩
  have hentry' : b.toNat 4 = sfs.vol.entry entp i := by rw [hb]; rfl
  rw [hentry', if_pos (by simpa using hentry), Prog.pure_run]
  exact ⟨rfl, hsfs', hans⟩

theorem getSub_create (hok : sfs.Ok) {entp i : Nat} (hent : sfs.vol.InUse entp)
    (hi : i < sfsBlkNentry) (hentry : sfs.vol.entry entp i = 0)
    : (sfsBmapGetSubNolock entp i true sfs).Sat
        (fun a sfs' => ∃ ino rest, a = (entp, ino) ∧ sfs.vol.free = ino :: rest ∧ sfs'.Ok ∧
          sfs'.vol = (((sfs.vol.requested (cost .entry 1)).alloc ino rest).requested
            (cost .entry 2)).write entp (i * 4) (Bytes.ofNat ino) 4 ∧
          sfs.env.Answers (cost .entry 1 + (cost .clear 1 + cost .entry 2)))
        (fun _ sfs' => sfs'.Ok ∧ Vol.Kept sfs.vol sfs'.vol ∧ (sfs.vol.free = [] ∨
          ¬sfs.env.Answers (cost .entry 1 + (cost .clear 1 + cost .entry 2))))
        (fun _ => False) := by
  have hoff : i * 4 < sfsBlksize := by simp only [sfsBlkNentry, sfsBlksize] at hi ⊢; omega
  have hlen : i * 4 + 4 ≤ sfsBlksize := by simp only [sfsBlkNentry, sfsBlksize] at hi ⊢; omega
  unfold sfsBmapGetSubNolock
  rw [Prog.assert_bind_run hi, if_pos hent.ne_zero]
  apply Prog.sat_bind (sfsRbuf_sat hok hent.1 hoff hlen)
  . intro b sfs' ⟨hb, hsfs', hans⟩
    subst hsfs'
    have hentry' : b.toNat 4 = 0 := by
      rw [hb]
      exact hentry
    rw [hentry', if_neg (by simp)]
    apply (@allocEntry_sat _ (hok.requested _) entp _ _ hent hi).mono
    . intro a sfs' ⟨ino, rest, ha, hfree, hok', hvol', hans'⟩
      exact ⟨ino, rest, ha, hfree, hok', hvol', Faults.answers_add.mpr ⟨hans, hans'⟩⟩
    . intro _ sfs' ⟨hok', ⟨v, hkept, hvol'⟩, hcause⟩
      rw [if_neg (by simp)] at hvol'
      refine ⟨hok', ?_, hcause.imp id Faults.not_answers_add_right⟩
      rw [hvol']
      exact Vol.Kept.of_requested (v := sfs.vol) (c := cost .entry 1) hkept
    . exact fun _ => id
  . intro _ sfs' ⟨hsfs', hans⟩
    subst hsfs'
    refine ⟨hok.requested _, ?_, .inr (Faults.not_answers_add_left hans)⟩
    exact (Vol.Kept.refl _).requested _
  . exact fun _ => id

theorem getSub_create_indirect (hok : sfs.Ok) {i : Nat} (hi : i < sfsBlkNentry)
    : (sfsBmapGetSubNolock 0 i true sfs).Sat
        (fun a sfs' => ∃ ent ino rest, a = (ent, ino) ∧ sfs.vol.free = ent :: ino :: rest ∧
          sfs'.Ok ∧
          sfs'.vol = (((sfs.vol.alloc ent (ino :: rest)).alloc ino rest).requested
            (cost .entry 2)).write ent (i * 4) (Bytes.ofNat ino) 4 ∧
          sfs.env.Answers (cost .clear 1 + (cost .clear 1 + cost .entry 2)))
        (fun _ sfs' => sfs'.Ok ∧ Vol.Kept sfs.vol sfs'.vol ∧ (sfs.vol.free.length < 2 ∨
          ¬sfs.env.Answers (cost .clear 1 + (cost .clear 1 + cost .entry 2))))
        (fun _ => False) := by
  unfold sfsBmapGetSubNolock
  rw [Prog.assert_bind_run hi, if_neg (by simp), if_neg (by simp)]
  cases hfree : sfs.vol.free with
  | nil =>
    rw [Prog.bind_run_error (sfsBlockAlloc_nil hok hfree)]
    exact ⟨hok, Vol.Kept.refl _, .inl (by simp)⟩
  | cons ent l =>
    apply Prog.sat_bind (sfsBlockAlloc_sat hok hfree)
    . intro a sfs' ⟨ha, hok', hvol', hans⟩
      subst ha
      have hnodup := hok.free_nodup
      rw [hfree] at hnodup
      have hent := hok.freeOk.valid a (by simp [hfree])
      have hinUse : sfs'.vol.InUse a := by
        rw [hvol']
        exact ⟨hent, (List.nodup_cons.mp hnodup).1⟩
      have henv : sfs'.env = sfs.env.drop (cost .clear 1) := congrArg Vol.env hvol'
      apply (@allocEntry_sat _ hok' 0 _ _ hinUse hi).mono
      . intro _ sfs'' ⟨ino, rest, ha, hfree', hok'', hvol'', hans'⟩
        have hl : l = ino :: rest := by
          rw [hvol'] at hfree'
          exact hfree'
        subst hl
        rw [henv] at hans'
        refine ⟨a, ino, rest, ha, rfl, hok'', ?_, Faults.answers_add.mpr ⟨hans, hans'⟩⟩
        rw [hvol'', hvol']
        rfl
      . intro _ sfs'' ⟨hok'', ⟨v, hkept, hvol''⟩, hcause⟩
        rw [if_pos hent.1] at hvol''
        rw [henv] at hcause
        refine ⟨hok'', ?_, ?_⟩
        . rw [hvol'']
          apply Vol.Kept.release_alloc hok.free_sorted hfree
          rw [← show sfs'.vol = sfs.vol.alloc a l from hvol']
          exact hkept
        . apply hcause.imp _ Faults.not_answers_add_right
          intro hnil
          have hl : l = [] := by
            rw [hvol'] at hnil
            exact hnil
          simp [hl]
      . exact fun _ => id
    . intro _ sfs' ⟨hok', hvol', hans⟩
      refine ⟨hok', ?_, .inr (Faults.not_answers_add_left hans)⟩
      rw [hvol']
      exact Vol.Kept.lost hfree hans
    . exact fun _ => id

end SfsFs

namespace Vol

variable {v v' : Vol} {din : SfsDiskInode}

@[simp]
theorem bmap_setBlocks (v : Vol) (din : SfsDiskInode) (n i : Nat)
    : v.bmap (din.setBlocks n) i = v.bmap din i := rfl

@[simp]
theorem bmap_setSize (v : Vol) (din : SfsDiskInode) (n i : Nat)
    : v.bmap (din.setSize n) i = v.bmap din i := rfl

theorem bmap_setDirect (v : Vol) (din : SfsDiskInode) (k : Fin sfsNdirect) {ino : Nat}
    (h : ino < 2 ^ 32) (i : Nat)
    : v.bmap (din.setDirect k ino) i = if i = k then ino else v.bmap din i := by
  unfold bmap
  split
  . next hi =>
    by_cases hik : i = k
    . subst hik
      simpa [SfsDiskInode.setDirect] using h
    . have hne : (⟨i, hi⟩ : Fin sfsNdirect) ≠ k := fun heq => hik (congrArg Fin.val heq)
      simp [SfsDiskInode.setDirect, hne, hik]
  . next hi =>
    have hik : i ≠ k := by
      have := k.isLt
      omega
    rw [if_neg hik]
    rfl

theorem alloc_data_of_ne (v : Vol) {b b' : Nat} (rest : List Nat) (h : b' ≠ b)
    : (v.alloc b rest).data b' = v.data b' :=
  clear_data_of_ne _ h

theorem alloc_data_self (v : Vol) (b : Nat) (rest : List Nat) {i : Nat} (h : i < sfsBlksize)
    : (v.alloc b rest).data b i = 0 :=
  clear_data_self _ _ h

theorem grown_direct (hmap : v.MapOk din) {ino : Nat} {rest : List Nat} (hfree : v.free = ino :: rest)
    (hino : ino < 2 ^ 32) (hlt : din.blocks < sfsNdirect)
    : Grown v (v.alloc ino rest) din
        ((din.setDirect ⟨din.blocks, hlt⟩ ino).setBlocks (din.blocks + 1)) ino := by
  refine ⟨rfl, .inl ⟨hfree, rfl, .inl hlt⟩, ?_, ?_, ?_, rfl, rfl, rfl, ?_⟩
  . intro b hb _
    apply alloc_data_of_ne
    intro heq
    exact hb (by simp [hfree, heq])
  . intro i hi
    exact alloc_data_self v ino rest hi
  . intro i _
    rw [bmap_setBlocks, bmap_setDirect _ _ _ hino]
    have hbmap : (v.alloc ino rest).bmap din i = v.bmap din i := by
      apply bmap_congr
      intro hind
      apply alloc_data_of_ne
      intro heq
      exact (hmap.indirect_inUse hind).2 (by simp [hfree, heq])
    rw [hbmap]
  . simp only [SfsDiskInode.setBlocks]
    have : din.blocks + 1 < 2 ^ 32 := by simp only [sfsNdirect] at hlt; omega
    exact Nat.mod_eq_of_lt this

theorem grown_indirect (hmap : v.MapOk din) {ino : Nat} {rest : List Nat} {c d : Request → Nat}
    (hfree : v.free = ino :: rest) (hino : ino < 2 ^ 32) (hind : din.indirect ≠ 0)
    (hle : ¬din.blocks < sfsNdirect) (hlt : din.blocks < maxBlocks)
    : Grown v ((((v.requested c).alloc ino rest).requested d).write din.indirect
        ((din.blocks - sfsNdirect) * 4) (Bytes.ofNat ino) 4) din (din.setBlocks (din.blocks + 1))
        ino := by
  have hne : din.indirect ≠ ino := by
    intro heq
    exact (hmap.indirect_inUse hind).2 (by simp [hfree, heq])
  refine ⟨rfl, .inl ⟨hfree, rfl, .inr hind⟩, ?_, ?_, ?_, rfl, rfl, rfl, ?_⟩
  . intro b hb hb'
    rw [write_data_of_ne _ _ _ _ fun heq => hb' ⟨hind, heq⟩]
    apply alloc_data_of_ne
    intro heq
    exact hb (by simp [hfree, heq])
  . intro i hi
    rw [write_data_of_ne _ _ _ _ hne.symm]
    exact alloc_data_self _ ino rest hi
  . intro i hi
    rw [bmap_setBlocks]
    by_cases hdir : i < sfsNdirect
    . rw [if_neg (by omega), bmap_direct hdir, bmap_direct hdir]
    . rw [bmap_indirect hdir hind]
      by_cases hib : i = din.blocks
      . subst hib
        rw [entry_write_self, if_pos rfl, Nat.mod_eq_of_lt hino]
      . rw [entry_write_of_ne _ _ _ (by omega), if_neg hib, bmap_indirect hdir hind]
        apply entry_congr
        exact alloc_data_of_ne _ _ hne
  . simp only [SfsDiskInode.setBlocks]
    have : din.blocks + 1 < 2 ^ 32 := by
      simp only [maxBlocks, sfsNdirect, sfsBlkNentry, sfsBlksize] at hlt
      omega
    exact Nat.mod_eq_of_lt this

theorem grown_new_indirect (hv : v.FreeOk) {ent ino : Nat} {rest : List Nat}
    {c : Request → Nat} (hfree : v.free = ent :: ino :: rest) (hent : ent < 2 ^ 32)
    (hino : ino < 2 ^ 32) (hind : din.indirect = 0) (hle : ¬din.blocks < sfsNdirect)
    (hlt : din.blocks < maxBlocks)
    : Grown v ((((v.alloc ent (ino :: rest)).alloc ino rest).requested c).write ent
        ((din.blocks - sfsNdirect) * 4) (Bytes.ofNat ino) 4) din
        ((din.setIndirect ent).setBlocks (din.blocks + 1)) ino := by
  have hnodup := hv.nodup
  have hvalid := hv.valid ent (by simp [hfree])
  rw [hfree] at hnodup
  have hne : ent ≠ ino := by
    intro heq
    exact (List.nodup_cons.mp hnodup).1 (by simp [heq])
  have hset : (din.setIndirect ent).indirect = ent := Nat.mod_eq_of_lt hent
  refine ⟨rfl, .inr ⟨?_, hind, Nat.le_of_not_lt hle⟩, ?_, ?_, ?_, rfl, rfl, rfl, ?_⟩
  . rw [show ((din.setIndirect ent).setBlocks (din.blocks + 1)).indirect = ent from hset]
    exact hfree
  . intro b hb _
    have hb₁ : b ≠ ent := fun heq => hb (by simp [hfree, heq])
    have hb₂ : b ≠ ino := fun heq => hb (by simp [hfree, heq])
    rw [write_data_of_ne _ _ _ _ hb₁]
    exact (alloc_data_of_ne _ _ hb₂).trans (alloc_data_of_ne _ _ hb₁)
  . intro i hi
    rw [write_data_of_ne _ _ _ _ hne.symm]
    exact alloc_data_self _ ino rest hi
  . intro i hi
    rw [bmap_setBlocks]
    by_cases hdir : i < sfsNdirect
    . rw [if_neg (by omega), bmap_direct hdir, bmap_direct hdir]
      rfl
    . rw [bmap_indirect hdir (by rw [hset]; exact hvalid.1), hset, bmap_none hdir hind]
      by_cases hib : i = din.blocks
      . subst hib
        rw [entry_write_self, if_pos rfl, Nat.mod_eq_of_lt hino]
      . rw [entry_write_of_ne _ _ _ (by omega), if_neg hib]
        rw [entry_requested, entry_congr (alloc_data_of_ne _ _ hne)]
        apply entry_clear
        simp only [maxBlocks] at hi
        omega
  . simp only [SfsDiskInode.setBlocks]
    have : din.blocks + 1 < 2 ^ 32 := by
      simp only [maxBlocks, sfsNdirect, sfsBlkNentry, sfsBlksize] at hlt
      omega
    exact Nat.mod_eq_of_lt this

end Vol

/--
The requests it takes to append one block to the file.
-/
def SfsDiskInode.growCost (din : SfsDiskInode) : Request → Nat :=
  if din.blocks < sfsNdirect then
    cost .clear 1
  else if din.indirect ≠ 0 then
    cost .entry 1 + (cost .clear 1 + cost .entry 2)
  else
    cost .clear 1 + (cost .clear 1 + cost .entry 2)

/--
Appending a block sets `dirty` only if the inode itself has a new entry for it.
-/
def SfsDiskInode.growDirty (din : SfsDiskInode) : Bool :=
  decide (din.blocks < sfsNdirect ∨ din.indirect = 0)

namespace SfsCtx

variable {s : SfsCtx}

theorem sat_bind_onSfs {α β : Type} {m : Prog Errno Panic SfsFs α}
    {f : α → Prog Errno Panic SfsCtx β} {R : α → SfsFs → Prop} {F : Errno → SfsFs → Prop}
    {Q : β → SfsCtx → Prop} {E : Errno → SfsCtx → Prop} {X Y : Panic → Prop}
    (h : (m s.sfs).Sat R F Y) (hok : ∀ a sfs, R a sfs → (f a { s with sfs }).Sat Q E X)
    (herror : ∀ e sfs, F e sfs → E e { s with sfs }) (hpanic : ∀ p, Y p → X p)
    : ((onSfs m >>= f) s).Sat Q E X :=
  Prog.sat_bind_zoom h hok herror hpanic

theorem onSfs_run {α : Type} {m : Prog Errno Panic SfsFs α} {a : α} {sfs : SfsFs}
    (h : m s.sfs = .ok a sfs)
    : onSfs m s = .ok a { s with sfs } := by
  simp only [onSfs, Prog.zoom, h]

theorem assertInuse_run {b : Nat} {p : Panic} (hok : s.sfs.Ok) (h : s.sfs.vol.InUse b)
    : onSfs (SfsFs.assertInuse b p) s = .ok () s :=
  onSfs_run (SfsFs.assertInuse_run hok h)

theorem checkBlock_run {b : Nat} (hok : s.sfs.Ok) (h : s.sfs.vol.InUse b)
    : checkBlock b s = .ok () s := by
  rw [checkBlock, Prog.when, if_pos h.ne_zero, assertInuse_run hok h]

theorem sfsBmapGetNolock_direct (hok : s.sfs.Ok) (hmap : s.sfs.vol.MapOk s.sin.din)
    (hlt : s.sin.din.blocks < sfsNdirect)
    : (sfsBmapGetNolock s.sin.din.blocks true s).Sat
        (fun ino s' => s'.sfs.Ok ∧ s'.sin.din.blocks = s.sin.din.blocks ∧
          s'.sin = { s.sin with din := s'.sin.din, dirty := true } ∧
          s.sfs.vol.Grown s'.sfs.vol s.sin.din (s'.sin.din.setBlocks (s.sin.din.blocks + 1)) ino ∧
          s'.sfs.env = s.sfs.env.drop (cost .clear 1) ∧ s.sfs.env.Answers (cost .clear 1))
        (fun _ s' => s'.sfs.Ok ∧ s'.sin = s.sin ∧ s.sfs.vol.Kept s'.sfs.vol ∧
          (s.sfs.vol.free = [] ∨ ¬s.sfs.env.Answers (cost .clear 1)))
        (fun _ => False) := by
  have hzero : s.sin.din.direct ⟨s.sin.din.blocks, hlt⟩ = 0 := by
    have := hmap.zero s.sin.din.blocks (by simp only [maxBlocks]; omega) (Nat.le_refl _)
    rwa [Vol.bmap_direct hlt] at this
  unfold sfsBmapGetNolock
  rw [Prog.get_bind_run]
  simp only [hlt, hzero, dif_pos, and_self, if_true]
  cases hfree : s.sfs.vol.free with
  | nil =>
    have hrun : onSfs SfsFs.sfsBlockAlloc s = .error .noMem s := by
      simp only [onSfs, Prog.zoom, SfsFs.sfsBlockAlloc_nil hok hfree]
    rw [Prog.bind_run_error hrun]
    exact ⟨hok, rfl, Vol.Kept.refl _, .inl rfl⟩
  | cons ino rest =>
    have hino := hok.free_lt (by simp [hfree] : ino ∈ s.sfs.vol.free)
    apply sat_bind_onSfs (SfsFs.sfsBlockAlloc_sat hok hfree)
    . rintro a sfs ⟨ha, hok', hvol', hans⟩
      subst ha
      have hgrown := Vol.grown_direct hmap hfree hino hlt
      rw [Vol.alloc, ← hvol'] at hgrown
      have hinUse := hgrown.ino_inUse hok.freeOk
      rw [Prog.modify_bind_run, Prog.bind_run_ok (checkBlock_run hok' hinUse), Prog.pure_run]
      exact ⟨hok', rfl, rfl, hgrown, congrArg Vol.env hvol', hans⟩
    . rintro _ sfs ⟨hok', hvol', hans⟩
      refine ⟨hok', rfl, ?_, .inr hans⟩
      rw [hvol']
      exact Vol.Kept.lost hfree hans
    . exact fun _ => id

theorem sfsBmapGetNolock_indirect (hok : s.sfs.Ok) (hmap : s.sfs.vol.MapOk s.sin.din)
    (hle : ¬s.sin.din.blocks < sfsNdirect) (hlt : s.sin.din.blocks < maxBlocks)
    (hind : s.sin.din.indirect ≠ 0)
    : (sfsBmapGetNolock s.sin.din.blocks true s).Sat
        (fun ino s' => s'.sfs.Ok ∧ s'.sin = s.sin ∧
          s.sfs.vol.Grown s'.sfs.vol s.sin.din (s.sin.din.setBlocks (s.sin.din.blocks + 1)) ino ∧
          s'.sfs.env = s.sfs.env.drop (cost .entry 1 + (cost .clear 1 + cost .entry 2)) ∧
          s.sfs.env.Answers (cost .entry 1 + (cost .clear 1 + cost .entry 2)))
        (fun _ s' => s'.sfs.Ok ∧ s'.sin = s.sin ∧ s.sfs.vol.Kept s'.sfs.vol ∧
          (s.sfs.vol.free = [] ∨
            ¬s.sfs.env.Answers (cost .entry 1 + (cost .clear 1 + cost .entry 2))))
        (fun _ => False) := by
  have hi : s.sin.din.blocks - sfsNdirect < sfsBlkNentry := by
    simp only [maxBlocks] at hlt
    omega
  have hzero : s.sfs.vol.entry s.sin.din.indirect (s.sin.din.blocks - sfsNdirect) = 0 := by
    rw [← Vol.bmap_indirect hle hind]
    exact hmap.zero _ hlt (Nat.le_refl _)
  unfold sfsBmapGetNolock
  rw [Prog.get_bind_run]
  simp only [hle, hi, dif_neg, not_false_eq_true, if_true]
  apply sat_bind_onSfs (SfsFs.getSub_create hok (hmap.indirect_inUse hind) hi hzero)
  . rintro _ sfs ⟨ino, rest, ha, hfree, hok', hvol', hans⟩
    subst ha
    have hino := hok.free_lt (by simp [hfree] : ino ∈ s.sfs.vol.free)
    have hgrown := Vol.grown_indirect (c := cost .entry 1) (d := cost .entry 2) hmap hfree hino hind
      hle hlt
    rw [← hvol'] at hgrown
    have hinUse := hgrown.ino_inUse hok.freeOk
    rw [Prog.when_neg (by simp), Prog.pure_bind_run,
      Prog.bind_run_ok (checkBlock_run hok' hinUse), Prog.pure_run]
    refine ⟨hok', rfl, hgrown, (congrArg Vol.env hvol').trans ?_, hans⟩
    simp [Vol.alloc, SfsFs.vol, add_assoc]
  . rintro _ sfs ⟨hok', hkept, hcause⟩
    exact ⟨hok', rfl, hkept, hcause⟩
  . exact fun _ => id

theorem sfsBmapGetNolock_new_indirect (hok : s.sfs.Ok)
    (hle : ¬s.sin.din.blocks < sfsNdirect) (hlt : s.sin.din.blocks < maxBlocks)
    (hind : s.sin.din.indirect = 0)
    : (sfsBmapGetNolock s.sin.din.blocks true s).Sat
        (fun ino s' => s'.sfs.Ok ∧ s'.sin.din.blocks = s.sin.din.blocks ∧
          s'.sin = { s.sin with din := s'.sin.din, dirty := true } ∧
          s.sfs.vol.Grown s'.sfs.vol s.sin.din (s'.sin.din.setBlocks (s.sin.din.blocks + 1)) ino ∧
          s'.sfs.env = s.sfs.env.drop (cost .clear 1 + (cost .clear 1 + cost .entry 2)) ∧
          s.sfs.env.Answers (cost .clear 1 + (cost .clear 1 + cost .entry 2)))
        (fun _ s' => s'.sfs.Ok ∧ s'.sin = s.sin ∧ s.sfs.vol.Kept s'.sfs.vol ∧
          (s.sfs.vol.free.length < 2 ∨
            ¬s.sfs.env.Answers (cost .clear 1 + (cost .clear 1 + cost .entry 2))))
        (fun _ => False) := by
  have hi : s.sin.din.blocks - sfsNdirect < sfsBlkNentry := by
    simp only [maxBlocks] at hlt
    omega
  unfold sfsBmapGetNolock
  rw [Prog.get_bind_run]
  simp only [hle, hi, dif_neg, not_false_eq_true, if_true]
  rw [show SfsFs.sfsBmapGetSubNolock s.sin.din.indirect = SfsFs.sfsBmapGetSubNolock 0 by rw [hind]]
  apply sat_bind_onSfs (SfsFs.getSub_create_indirect hok hi)
  . rintro _ sfs ⟨ent, ino, rest, ha, hfree, hok', hvol', hans⟩
    subst ha
    have hent := hok.free_lt (by simp [hfree] : ent ∈ s.sfs.vol.free)
    have hino := hok.free_lt (by simp [hfree] : ino ∈ s.sfs.vol.free)
    have hne : ent ≠ 0 := (hok.freeOk.valid ent (by simp [hfree])).1
    have hgrown := Vol.grown_new_indirect (c := cost .entry 2) hok.freeOk hfree hent hino hind hle
      hlt
    rw [← hvol'] at hgrown
    have hinUse := hgrown.ino_inUse hok.freeOk
    rw [Prog.when_pos (by rwa [hind]), Prog.bind_assoc_run, Prog.assert_bind_run hind,
      Prog.modify_bind_run, Prog.bind_run_ok (checkBlock_run hok' hinUse), Prog.pure_run]
    refine ⟨hok', rfl, rfl, hgrown, (congrArg Vol.env hvol').trans ?_, hans⟩
    simp [Vol.alloc, SfsFs.vol, add_assoc]
  . rintro _ sfs ⟨hok', hkept, hcause⟩
    exact ⟨hok', rfl, hkept, hcause⟩
  . exact fun _ => id

/--
What appending a block to the file does to the file system and the inode.
-/
structure LoadedNew (s s' : SfsCtx) (ino : Nat) : Prop where
  ok : s'.sfs.Ok
  grown : s.sfs.vol.Grown s'.sfs.vol s.sin.din s'.sin.din ino
  env : s'.sfs.env = s.sfs.env.drop s.sin.din.growCost
  answers : s.sfs.env.Answers s.sin.din.growCost
  sin : s'.sin =
    { s.sin with din := s'.sin.din, dirty := s.sin.dirty || s.sin.din.growDirty }

/--
What a failing attempt to append a block does.
-/
structure LoadFailed (s s' : SfsCtx) : Prop where
  ok : s'.sfs.Ok
  sin : s'.sin = s.sin
  kept : s.sfs.vol.Kept s'.sfs.vol
  cause : s.sfs.vol.free.length < s.sin.din.need ∨ ¬s.sfs.env.Answers s.sin.din.growCost

theorem sfsBmapGetNolock_create (hok : s.sfs.Ok) (hmap : s.sfs.vol.MapOk s.sin.din)
    (hlt : s.sin.din.blocks < maxBlocks)
    : (sfsBmapGetNolock s.sin.din.blocks true s).Sat
        (fun ino s' => s'.sin.din.blocks = s.sin.din.blocks ∧
          LoadedNew s (s'.setDin (s'.sin.din.setBlocks (s.sin.din.blocks + 1))) ino)
        (fun _ s' => LoadFailed s s') (fun _ => False) := by
  by_cases hdir : s.sin.din.blocks < sfsNdirect
  . have hneed : s.sin.din.need = 1 := by simp [SfsDiskInode.need, hdir]
    have hcost : s.sin.din.growCost = cost .clear 1 := by simp [SfsDiskInode.growCost, hdir]
    have hdirty : s.sin.din.growDirty = true := by simp [SfsDiskInode.growDirty, hdir]
    apply (sfsBmapGetNolock_direct hok hmap hdir).mono
    . rintro ino s' ⟨hok', hblocks, hsin, hgrown, henv, hans⟩
      refine ⟨hblocks, hok', hgrown, by rwa [hcost], by rwa [hcost], ?_⟩
      rw [setDin, hsin, hdirty, Bool.or_true]
    . rintro _ s' ⟨hok', hsin, hkept, hcause⟩
      refine ⟨hok', hsin, hkept, ?_⟩
      rw [hneed, hcost]
      exact hcause.imp (fun hnil => by simp [hnil]) id
    . exact fun _ => id
  . by_cases hind : s.sin.din.indirect = 0
    . have hneed : s.sin.din.need = 2 := by simp [SfsDiskInode.need, hdir, hind]
      have hcost : s.sin.din.growCost = cost .clear 1 + (cost .clear 1 + cost .entry 2) := by
        simp [SfsDiskInode.growCost, hdir, hind]
      have hdirty : s.sin.din.growDirty = true := by simp [SfsDiskInode.growDirty, hind]
      apply (sfsBmapGetNolock_new_indirect hok hdir hlt hind).mono
      . rintro ino s' ⟨hok', hblocks, hsin, hgrown, henv, hans⟩
        refine ⟨hblocks, hok', hgrown, by rwa [hcost], by rwa [hcost], ?_⟩
        rw [setDin, hsin, hdirty, Bool.or_true]
      . rintro _ s' ⟨hok', hsin, hkept, hcause⟩
        exact ⟨hok', hsin, hkept, by rwa [hneed, hcost]⟩
      . exact fun _ => id
    . have hneed : s.sin.din.need = 1 := by simp [SfsDiskInode.need, hind]
      have hcost : s.sin.din.growCost =
          cost .entry 1 + (cost .clear 1 + cost .entry 2) := by
        simp [SfsDiskInode.growCost, hdir, hind]
      have hdirty : s.sin.din.growDirty = false := by simp [SfsDiskInode.growDirty, hdir, hind]
      apply (sfsBmapGetNolock_indirect hok hmap hdir hlt hind).mono
      . rintro ino s' ⟨hok', hsin, hgrown, henv, hans⟩
        refine ⟨by rw [hsin], hok', ?_, by rwa [hcost], by rwa [hcost], ?_⟩
        . simpa only [setDin, hsin] using hgrown
        . rw [setDin, hsin, hdirty, Bool.or_false]
      . rintro _ s' ⟨hok', hsin, hkept, hcause⟩
        refine ⟨hok', hsin, hkept, ?_⟩
        rw [hneed, hcost]
        exact hcause.imp (fun hnil => by simp [hnil]) id
      . exact fun _ => id

/--
`sfs_bmap_load_nolock` for the index that is the number of blocks.
-/
theorem sfsBmapLoadNolock_new (hok : s.sfs.Ok) (hmap : s.sfs.vol.MapOk s.sin.din)
    (hlt : s.sin.din.blocks < maxBlocks)
    : (sfsBmapLoadNolock s.sin.din.blocks s).Sat (fun ino s' => LoadedNew s s' ino)
        (fun _ s' => LoadFailed s s') (fun _ => False) := by
  unfold sfsBmapLoadNolock
  rw [Prog.get_bind_run, Prog.assert_bind_run (Nat.le_refl _)]
  simp only [decide_true]
  apply Prog.sat_bind_imp (sfsBmapGetNolock_create hok hmap hlt)
  intro ino s' ⟨hblocks, hloaded⟩
  have hinUse : s'.sfs.vol.InUse ino := hloaded.grown.ino_inUse hok.freeOk
  have hok' : s'.sfs.Ok := hloaded.ok
  rw [Prog.bind_run_ok (assertInuse_run hok' hinUse), Prog.when_pos (by simp),
    Prog.modify_bind_run, Prog.pure_run, hblocks]
  exact hloaded

/--
The requests it takes to look up block `index` of a file that has it.
-/
def lookupCost (index : Nat) : Request → Nat :=
  if index < sfsNdirect then 0 else cost .entry 1

/--
`sfs_bmap_load_nolock` for a block the file has.
-/
theorem sfsBmapLoadNolock_old (hok : s.sfs.Ok) (hmap : s.sfs.vol.MapOk s.sin.din) {index : Nat}
    (hlt : index < s.sin.din.blocks)
    : (sfsBmapLoadNolock index s).Sat
        (fun ino s' => ino = s.sfs.vol.bmap s.sin.din index ∧
          s' = { s with sfs := s.sfs.requested (lookupCost index) } ∧
          s.sfs.env.Answers (lookupCost index))
        (fun _ s' => s' = { s with sfs := s.sfs.requested (lookupCost index) } ∧
          ¬s.sfs.env.Answers (lookupCost index))
        (fun _ => False) := by
  have hle := hmap.blocks_le
  have hinUse := hmap.inUse index hlt
  unfold sfsBmapLoadNolock
  rw [Prog.get_bind_run, Prog.assert_bind_run (Nat.le_of_lt hlt)]
  have hcreate : decide (index = s.sin.din.blocks) = false := by
    rw [decide_eq_false_iff_not]
    omega
  simp only [hcreate]
  apply Prog.sat_bind (R := fun ino s' => ino = s.sfs.vol.bmap s.sin.din index ∧
      s' = { s with sfs := s.sfs.requested (lookupCost index) } ∧
      s.sfs.env.Answers (lookupCost index))
    (F := fun _ s' => s' = { s with sfs := s.sfs.requested (lookupCost index) } ∧
      ¬s.sfs.env.Answers (lookupCost index))
    (Y := fun _ => False)
  . unfold sfsBmapGetNolock
    rw [Prog.get_bind_run]
    by_cases hdir : index < sfsNdirect
    . rw [Vol.bmap_direct hdir] at hinUse ⊢
      have hcost : lookupCost index = 0 := by simp [lookupCost, hdir]
      simp only [hdir, dif_pos, Bool.false_eq_true, and_false, if_false]
      rw [Prog.bind_run_ok (checkBlock_run hok hinUse), Prog.pure_run, hcost]
      refine ⟨rfl, ?_, Faults.answers_zero⟩
      simp [SfsFs.requested]
    . have hind : s.sin.din.indirect ≠ 0 := hmap.indirect_ne_zero (by omega)
      have hi : index - sfsNdirect < sfsBlkNentry := by
        simp only [maxBlocks] at hle
        omega
      have hcost : lookupCost index = cost .entry 1 := by simp [lookupCost, hdir]
      rw [Vol.bmap_indirect hdir hind] at hinUse ⊢
      rw [hcost]
      simp only [hdir, hi, dif_neg, not_false_eq_true, if_true]
      apply sat_bind_onSfs (SfsFs.getSub_lookup hok (hmap.indirect_inUse hind) hi (.inr rfl))
      . rintro _ sfs ⟨ha, hsfs, hans⟩
        subst ha
        subst hsfs
        rw [Prog.when_neg (by simp), Prog.pure_bind_run,
          Prog.bind_run_ok (checkBlock_run (s := { s with sfs := s.sfs.requested _ })
            (hok.requested _) hinUse), Prog.pure_run]
        exact ⟨rfl, rfl, hans⟩
      . rintro _ sfs ⟨hsfs, hans⟩
        exact ⟨by rw [hsfs], hans⟩
      . exact fun _ => id
  . rintro ino s' ⟨hino, hs', hans⟩
    subst hs'
    subst hino
    rw [Prog.bind_run_ok (assertInuse_run (s := { s with sfs := s.sfs.requested _ })
      (hok.requested _) hinUse), hcreate, Prog.when_neg (by simp), Prog.pure_bind_run,
      Prog.pure_run]
    exact ⟨rfl, rfl, hans⟩
  . exact fun _ _ => id
  . exact fun _ => id

theorem sfsBmapLoadNolock_panic {index : Nat} (h : s.sin.din.blocks < index)
    : sfsBmapLoadNolock index s = .panic .sfsBmapLoadIndex := by
  unfold sfsBmapLoadNolock
  rw [Prog.get_bind_run, Prog.assert_bind_run_panic (by omega)]

theorem sfsBmapLoadNolock_outOfRange (h : maxBlocks ≤ s.sin.din.blocks)
    : sfsBmapLoadNolock s.sin.din.blocks s = .panic .sfsBmapGetOutOfRange := by
  unfold sfsBmapLoadNolock
  rw [Prog.get_bind_run, Prog.assert_bind_run (Nat.le_refl _)]
  apply Prog.bind_run_panic
  unfold sfsBmapGetNolock
  rw [Prog.get_bind_run, dif_neg (by simp only [maxBlocks] at h; omega),
    if_neg (by simp only [maxBlocks] at h; omega), Prog.panic_run]

end SfsCtx

end Ucore

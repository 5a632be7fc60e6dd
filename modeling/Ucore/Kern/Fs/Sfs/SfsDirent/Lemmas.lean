import Ucore.Kern.Fs.Sfs.SfsDirent.Impl
import Ucore.Kern.Fs.Sfs.SfsInode.Lemmas.BmapLoad

/-!
This module contains what the functions for the entries of a directory read from it.
-/

namespace Ucore

/--
What `kmalloc` does with the file system, and when it fails.
-/
theorem SfsFs.kmalloc_sat (sfs : SfsFs)
    : (kmalloc sfs).Sat (fun _ sfs' => ∃ c, sfs' = sfs.requested c)
        (fun e sfs' => e = .noMem ∧ (∃ c, sfs' = sfs.requested c) ∧ sfs.env ≠ Faults.never) (fun _ => False) := by
  unfold kmalloc
  split
  next => exact ⟨_, rfl⟩
  next hfails =>
    refine ⟨rfl, ⟨_, rfl⟩, fun hnever => ?_⟩
    rw [hnever] at hfails
    contradiction

namespace SfsCtx

open Faults (cost)

variable {s : SfsCtx}

/--
A consistent directory.
-/
structure DirOk (s : SfsCtx) : Prop where
  ok : s.sfs.Ok
  mapOk : s.sfs.vol.MapOk s.sin.din
  type : s.sin.din.type = sfsTypeDir

/--
The entry in slot `i` of the directory.
-/
def entry (s : SfsCtx) (i : Nat) : SfsDiskEntry := SfsDiskEntry.ofBytes (s.sfs.vol.data (s.sfs.vol.bmap s.sin.din i))

/--
The entries in the slots from `i` on that are not empty.
-/
def entriesFrom (s : SfsCtx) (i n : Nat) : List SfsDiskEntry :=
  ((List.range' i n).map s.entry).filter (·.ino ≠ 0)

/--
The entries of the directory in the order of their slots.
-/
def entries (s : SfsCtx) : List SfsDiskEntry := s.entriesFrom 0 s.sin.din.blocks

/--
The directory after requests to the environment.
-/
def Requested (s s' : SfsCtx) : Prop := ∃ c, s' = { s with sfs := s.sfs.requested c }

theorem Requested.refl (s : SfsCtx) : Requested s s := ⟨0, by simp [SfsFs.requested]⟩

theorem Requested.trans {s' s'' : SfsCtx} (h : Requested s s') (h' : Requested s' s'') : Requested s s'' := by
  obtain ⟨c, rfl⟩ := h
  obtain ⟨d, rfl⟩ := h'
  exact ⟨c + d, by simp [SfsFs.requested]⟩

theorem Requested.dirOk {s' : SfsCtx} (h : Requested s s') (hdir : s.DirOk) : s'.DirOk := by
  obtain ⟨c, rfl⟩ := h
  exact ⟨hdir.ok.requested c, hdir.mapOk.congr (fun _ => rfl) rfl fun _ => id, hdir.type⟩

theorem Requested.entry {s' : SfsCtx} (h : Requested s s') : s'.entry = s.entry := by
  obtain ⟨c, rfl⟩ := h
  rfl

theorem Requested.entriesFrom {s' : SfsCtx} (h : Requested s s') (i n : Nat)
    : s'.entriesFrom i n = s.entriesFrom i n := by
  rw [SfsCtx.entriesFrom, SfsCtx.entriesFrom, h.entry]

theorem Requested.sin {s' : SfsCtx} (h : Requested s s') : s'.sin = s.sin := by
  obtain ⟨c, rfl⟩ := h
  rfl

theorem Requested.entries {s' : SfsCtx} (h : Requested s s') : s'.entries = s.entries := by
  rw [SfsCtx.entries, SfsCtx.entries, h.entriesFrom, h.sin]

theorem Requested.never {s' : SfsCtx} (h : Requested s s') (hnever : s.sfs.env = Faults.never)
    : s'.sfs.env = Faults.never := by
  obtain ⟨c, rfl⟩ := h
  rw [SfsFs.requested, hnever, Faults.never_drop]

theorem DirOk.nslots (h : s.DirOk) : SfsCtx.nslots s.sin.din = s.sin.din.blocks := by
  have hle := h.mapOk.blocks_le
  simp only [maxBlocks, sfsNdirect, sfsBlkNentry, sfsBlksize] at hle
  rw [SfsCtx.nslots, BitVec.toInt_eq_toNat_of_lt, Int.toNat_natCast, BitVec.toNat_ofNat, Nat.mod_eq_of_lt (by omega)]
  rw [BitVec.toNat_ofNat, Nat.mod_eq_of_lt (by omega)]
  omega

/--
Reading an entry fails only where the disk does.
-/
theorem DirOk.sfsDirentReadNolock (h : s.DirOk) {i : Nat} (hi : i < s.sin.din.blocks)
    : (sfsDirentReadNolock i s).Sat (fun e s' => e = s.entry i ∧ Requested s s')
        (fun _ s' => Requested s s' ∧ s.sfs.env ≠ Faults.never) (fun _ => False) := by
  have hinUse := h.mapOk.inUse i hi
  unfold SfsCtx.sfsDirentReadNolock
  rw [Prog.get_bind_run, Prog.assert_bind_run ⟨h.type, hi⟩]
  apply Prog.sat_bind (sfsBmapLoadNolock_old h.ok h.mapOk hi)
  . rintro ino s' ⟨rfl, rfl, -⟩
    have hassert := @assertInuse_run { s with sfs := s.sfs.requested (lookupCost i) } _ .sfsDirentReadInuse
      (h.ok.requested _) hinUse
    rw [Prog.bind_run_ok hassert]
    apply sat_bind_onSfs (SfsFs.sfsRbuf_sat (h.ok.requested _) hinUse.1 (by decide) (by decide))
    . rintro b sfs ⟨rfl, rfl, -⟩
      refine ⟨?_, Requested.trans ⟨_, rfl⟩ ⟨_, rfl⟩⟩
      rw [Bytes.drop_zero]
      rfl
    . rintro e sfs ⟨rfl, hans⟩
      refine ⟨Requested.trans ⟨_, rfl⟩ ⟨_, rfl⟩, ?_⟩
      intro hnever
      rw [SfsFs.requested, hnever, Faults.never_drop] at hans
      exact hans Faults.answers_never
    . exact fun _ => id
  . rintro e s' ⟨rfl, hans⟩
    refine ⟨⟨_, rfl⟩, ?_⟩
    intro hnever
    rw [hnever] at hans
    exact hans Faults.answers_never
  . exact fun _ => id

theorem entriesFrom_succ (s : SfsCtx) (i n : Nat)
    : s.entriesFrom i (n + 1)
        = if (s.entry i).ino ≠ 0 then s.entry i :: s.entriesFrom (i + 1) n else s.entriesFrom (i + 1) n := by
  rw [entriesFrom, entriesFrom, List.range'_succ, List.map_cons, List.filter_cons]
  simp only [decide_eq_true_eq]

/--
The loop finds entry number `slot` of those that are not empty, whatever holes there are between them.
-/
theorem DirOk.getdirentrySub (h : s.DirOk) {n i : Nat} (hn : i + n = s.sin.din.blocks) (slot : BitVec 32)
    : (getdirentrySub n i slot s).Sat (fun e s' => (s.entriesFrom i n)[slot.toNat]? = some e ∧ Requested s s')
        (fun e s' => Requested s s' ∧
          (s.sfs.env = Faults.never → e = .noent ∧ (s.entriesFrom i n)[slot.toNat]? = none))
        (fun _ => False) := by
  induction n generalizing s i slot with
  | zero => exact ⟨Requested.refl s, fun _ => ⟨rfl, rfl⟩⟩
  | succ n ih =>
    rw [SfsCtx.getdirentrySub]
    apply Prog.sat_bind (h.sfsDirentReadNolock (by omega))
    . rintro e s' ⟨rfl, hreq⟩
      have hrest (slot : BitVec 32) := ih (hreq.dirOk h) (i := i + 1) (by rw [hreq.sin]; omega) slot
      simp only [hreq.entriesFrom] at hrest
      rw [entriesFrom_succ]
      by_cases hino : (s.entry i).ino ≠ 0
      . rw [if_pos hino, if_pos hino]
        by_cases hslot : slot = 0
        . subst hslot
          rw [if_pos rfl]
          exact ⟨rfl, hreq⟩
        . have hpos : slot.toNat ≠ 0 := fun hzero => hslot (BitVec.eq_of_toNat_eq (by simpa using hzero))
          have hpred : (slot - 1).toNat = slot.toNat - 1 := by
            have := slot.isLt
            rw [BitVec.toNat_sub, show (1 : BitVec 32).toNat = 1 from rfl]
            omega
          have hsucc : slot.toNat = (slot - 1).toNat + 1 := by omega
          rw [if_neg hslot, hsucc, List.getElem?_cons_succ]
          exact (hrest (slot - 1)).mono (fun e t ht => ⟨ht.1, hreq.trans ht.2⟩)
            (fun e t ht => ⟨hreq.trans ht.1, fun hnever => ht.2 (hreq.never hnever)⟩) fun _ => id
      . rw [if_neg hino, if_neg hino]
        exact (hrest slot).mono (fun e t ht => ⟨ht.1, hreq.trans ht.2⟩)
          (fun e t ht => ⟨hreq.trans ht.1, fun hnever => ht.2 (hreq.never hnever)⟩) fun _ => id
    . exact fun e s' ht => ⟨ht.1, fun hnever => absurd hnever ht.2⟩
    . exact fun _ => id

/--
The number of the entry that an offset asks for.
-/
def slotOf (offset : Int) : Nat := (BitVec.ofInt 32 (offset / sfsDentrySize)).toNat

theorem entries_length_le (s : SfsCtx) : s.entries.length ≤ s.sin.din.blocks := by
  have hle := List.length_filter_le (fun e : SfsDiskEntry => decide (e.ino ≠ 0))
    ((List.range' 0 s.sin.din.blocks).map s.entry)
  rwa [List.length_map, List.length_range'] at hle

/--
The entries that are reached from the start on have the number of their offset.
-/
theorem DirOk.slotOf_mul (h : s.DirOk) {k : Nat} (hk : k ≤ s.entries.length) : slotOf (sfsDentrySize * k) = k := by
  have hle := Nat.le_trans (Nat.le_trans hk s.entries_length_le) h.mapOk.blocks_le
  simp only [maxBlocks, sfsNdirect, sfsBlkNentry, sfsBlksize] at hle
  have hdiv : (sfsDentrySize : Int) * k / sfsDentrySize = (k : Int) :=
    Int.mul_ediv_cancel_left _ (by decide)
  rw [slotOf, hdiv, BitVec.ofInt_natCast, BitVec.toNat_ofNat, Nat.mod_eq_of_lt (by omega)]

/--
A buffer with room for a name gets the name of the entry that its offset asks for.
-/
theorem DirOk.sfsGetdirentry (h : s.DirOk) {iob : Iobuf} (hresid : sfsDentrySize ≤ iob.resid)
    : (sfsGetdirentry iob s).Sat
        (fun r s' => ∃ e, s.entries[slotOf iob.offset]? = some e ∧
          r = (none, { iob with
            buf := iob.buf.copy iob.iobufUsed (Bytes.ofList e.name) sfsDentrySize
            offset := iob.offset + sfsDentrySize
            resid := iob.resid - sfsDentrySize }) ∧ Requested s s')
        (fun e s' => Requested s s' ∧
          (s.sfs.env = Faults.never → 0 ≤ iob.offset → iob.offset % sfsDentrySize = 0 →
            e = .noent ∧ s.entries[slotOf iob.offset]? = none))
        (fun _ => False) := by
  unfold SfsCtx.sfsGetdirentry
  apply sat_bind_onSfs s.sfs.kmalloc_sat
  . rintro _ _ ⟨c, rfl⟩
    have hreq : Requested s { s with sfs := s.sfs.requested c } := ⟨c, rfl⟩
    rw [Prog.get_bind_run]
    by_cases hoffset : iob.offset < 0 ∨ iob.offset % sfsDentrySize ≠ 0
    . rw [if_pos hoffset]
      exact ⟨hreq, fun _ hpos hmod => absurd hoffset (by omega)⟩
    rw [if_neg hoffset]
    dsimp only
    by_cases hslot : (BitVec.ofInt 32 (iob.offset / sfsDentrySize)).toNat > s.sin.din.blocks
    . rw [if_pos hslot]
      have hnone : s.entries[slotOf iob.offset]? = none :=
        List.getElem?_eq_none (Nat.le_trans s.entries_length_le (Nat.le_of_lt hslot))
      exact ⟨hreq, fun _ _ _ => ⟨rfl, hnone⟩⟩
    rw [if_neg hslot]
    have hdir := hreq.dirOk h
    have hsub := hdir.getdirentrySub (i := 0) (Nat.zero_add _) (BitVec.ofInt 32 (iob.offset / sfsDentrySize))
    have hnslots := hdir.nslots
    apply Prog.sat_bind (R := fun e s' => s.entries[slotOf iob.offset]? = some e ∧ Requested s s')
      (F := fun e s' => Requested s s' ∧
        (s.sfs.env = Faults.never → e = .noent ∧ s.entries[slotOf iob.offset]? = none)) (Y := fun _ => False)
    . rw [sfsGetdirentrySubNolock, Prog.get_bind_run, hnslots]
      rw [hreq.entriesFrom] at hsub
      exact hsub.mono (fun e t ht => ⟨ht.1, hreq.trans ht.2⟩)
        (fun e t ht => ⟨hreq.trans ht.1, fun hnever => ht.2 (hreq.never hnever)⟩) fun _ => id
    . intro e s' ⟨hentry, hreq'⟩
      rw [Iobuf.iobufMove_run _ hresid]
      exact ⟨e, hentry, rfl, hreq'⟩
    . exact fun e s' ht => ⟨ht.1, fun hnever _ _ => ht.2 hnever⟩
    . exact fun _ => id
  . rintro e _ ⟨-, ⟨c, rfl⟩, hrefused⟩
    exact ⟨⟨c, rfl⟩, fun hnever => absurd hnever hrefused⟩
  . exact fun _ => id

end SfsCtx
end Ucore

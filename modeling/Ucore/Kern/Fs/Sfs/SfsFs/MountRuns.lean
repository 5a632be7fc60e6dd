import Ucore.Kern.Fs.Sfs.SfsFs.AllocRuns
import Ucore.Kern.Fs.Sfs.SfsFs.SyncRuns

/-!
This module contains what `sfs_do_mount` makes of the contents of a device, and for which contents that is right.
-/

namespace Ucore

open Faults (cost)

theorem word_of_bytes {b : Bytes} {k n : Nat} (hn : n < 2 ^ 32) (h : ∀ j < 4, b (4 * k + j) = Bytes.ofNat n j)
    : b.word k = n := by
  have hbytes : ∀ j < 4, b.drop (4 * k) j = Bytes.ofNat n j := h
  rw [Bytes.word, Bytes.toNat_congr hbytes, Bytes.toNat_ofNat_of_lt hn]

namespace Mounting

variable {dBlocksize : Nat} {dev : Device} {s t u : Mounting} {req : Request} {blkno nblks n i : Nat} {super : SfsSuper}
  {freemap : Bitmap}

/--
Nothing stays behind.
-/
def Undone (s t : Mounting) : Prop := t.mem.live = s.mem.live ∧ t.fsStore = s.fsStore

/--
An error frees what was allocated.
-/
theorem withChunk_sat {c : Chunk} {m : Prog Errno Panic Mounting Unit} {Q : Mounting → Prop} {R : Prop}
    {X : Panic → Prop}
    (hm : ∀ t : Mounting, s.mem.refuses 0 = false → t.mem = ⟨c :: s.mem.live, fun n => s.mem.refuses (n + 1)⟩ →
      t.env = s.env → t.fsStore = s.fsStore → (m t).Sat (fun _ u => Q u) (fun _ u => Undone t u ∧ R) X)
    (hrefused : s.mem.refuses 0 = true → R)
    : (withChunk c m s).Sat (fun _ u => Q u) (fun _ u => Undone s u ∧ R) X := by
  unfold withChunk
  apply Prog.sat_bind_zoom (Kmem.kmalloc_sat c s.mem)
  . rintro b mem ⟨hrefuses, ⟨rfl, hzero, hlive⟩ | ⟨rfl, hzero, hlive⟩⟩
    . exact ⟨⟨hlive, rfl⟩, hrefused hzero⟩
    . rw [if_pos rfl]
      have hmem : mem = ⟨c :: s.mem.live, fun n => s.mem.refuses (n + 1)⟩ := by
        rw [← hlive, ← hrefuses]
      apply Prog.sat_onError (hm { s with mem } hzero hmem rfl rfl)
      . intro e u ⟨⟨hlive', hstore⟩, hR⟩
        refine ⟨⟨?_, hstore⟩, hR⟩
        simp only [hlive', hlive]
        exact List.erase_cons_head ..
      . exact fun _ => id
  . exact fun _ _ h => h.elim
  . exact fun _ => False.elim

theorem sfsInitRead_sat (h : blkno < 2 ^ 20)
    : (sfsInitRead dev req blkno s).Sat
        (fun b t => (s.env req 0 = none ∧ blkno < dev.dBlocks) ∧ b = dev.data blkno ∧
          t = { s with env := s.env.drop (cost req 1) })
        (fun _ t => ¬(s.env req 0 = none ∧ blkno < dev.dBlocks) ∧ t.mem = s.mem ∧ t.fsStore = s.fsStore)
        (fun _ => False) := by
  unfold sfsInitRead
  rw [SfsFs.diskBlkno_eq h]
  cases henv : s.env req 0 with
  | some e => exact ⟨fun hnone => (nomatch hnone.1), rfl, rfl⟩
  | none =>
    simp only
    split
    next hin => exact ⟨fun hlt => by omega, rfl, rfl⟩
    next hin => exact ⟨⟨trivial, by omega⟩, rfl, rfl⟩

/--
The blocks from `blkno` on that a loop reads.
-/
def Readable (dev : Device) (env : Faults Request Errno) (blkno n : Nat) : Prop :=
  ∀ i < n, env .freemap i = none ∧ blkno + i < dev.dBlocks

theorem readable_succ {env : Faults Request Errno}
    : Readable dev env blkno (n + 1) ↔
        (env .freemap 0 = none ∧ blkno < dev.dBlocks) ∧
          Readable dev (env.drop (cost .freemap 1)) (blkno + 1) n := by
  have hdrop : ∀ i, env.drop (cost .freemap 1) .freemap i = env .freemap (i + 1) := by
    intro i
    simp only [Faults.drop, cost, if_true, Nat.add_comm]
  constructor
  . intro h
    refine ⟨h 0 (by omega), fun i hi => ?_⟩
    rw [hdrop, Nat.add_right_comm]
    exact h (i + 1) (by omega)
  . rintro ⟨hfirst, hrest⟩ i hi
    cases i with
    | zero => exact hfirst
    | succ i =>
      have hnext := hrest i (by omega)
      rwa [hdrop, Nat.add_right_comm] at hnext

theorem readFreemap_sat {pos : Nat} {data : Bytes} (h : blkno + n ≤ 2 ^ 20)
    : (readFreemap dev n blkno pos data s).Sat
        (fun r t => Readable dev s.env blkno n ∧ (t.mem = s.mem ∧ t.fsStore = s.fsStore) ∧
          (∀ i < pos, r i = data i) ∧
          ∀ i < n * sfsBlksize, r (pos + i) = dev.data (blkno + i / sfsBlksize) (i % sfsBlksize))
        (fun _ t => ¬Readable dev s.env blkno n ∧ t.mem = s.mem ∧ t.fsStore = s.fsStore)
        (fun _ => False) := by
  induction n generalizing s blkno pos data with
  | zero =>
    refine ⟨fun i hi => absurd hi (Nat.not_lt_zero i), ⟨rfl, rfl⟩, fun _ _ => rfl, fun i hi => ?_⟩
    rw [Nat.zero_mul] at hi
    exact absurd hi (Nat.not_lt_zero i)
  | succ n ih =>
    unfold readFreemap
    rw [readable_succ]
    apply Prog.sat_bind (sfsInitRead_sat (show blkno < 2 ^ 20 by omega))
    . rintro b _ ⟨hfirst, rfl, rfl⟩
      apply (ih (by omega)).mono
      . intro r t ⟨hrest, hsame, hbefore, hdata⟩
        refine ⟨⟨hfirst, hrest⟩, hsame, fun i hi => ?_, fun i hi => ?_⟩
        . rw [hbefore i (by omega), Bytes.copy_of_not_mem _ _ (by omega)]
        . by_cases hlt : i < sfsBlksize
          . rw [hbefore _ (by omega), Bytes.copy_of_mem _ _ (by omega) (by omega), Nat.add_sub_cancel_left,
              Nat.div_eq_of_lt hlt, Nat.mod_eq_of_lt hlt, Nat.add_zero]
          . obtain ⟨j, rfl⟩ : ∃ j, i = sfsBlksize + j := ⟨i - sfsBlksize, by omega⟩
            have hj : j < n * sfsBlksize := by
              rw [Nat.succ_mul] at hi
              omega
            have hdiv : (sfsBlksize + j) / sfsBlksize = 1 + j / sfsBlksize := by
              simp only [sfsBlksize]
              omega
            rw [← Nat.add_assoc, hdata j hj, hdiv, Nat.add_mod_left, Nat.add_assoc]
      . exact fun _ t ht => ⟨fun h => ht.1 h.2, ht.2⟩
      . exact fun _ => id
    . exact fun _ t ht => ⟨fun h => ht.1 h.1, ht.2⟩
    . exact fun _ => id

theorem countUnused_run {unused : Nat} (h : i + n ≤ freemap.nbits)
    : countUnused freemap n i unused s = .ok (unused + ((List.range' i n).filter freemap.bit).length) s := by
  induction n generalizing i unused with
  | zero => rfl
  | succ n ih =>
    have htest : Prog.zoom (fun _ => freemap) (fun s _ => s) (Bitmap.bitmapTest i) s = .ok (freemap.bit i) s := by
      rw [Prog.zoom, Bitmap.bitmapTest_run (by omega)]
    unfold countUnused
    rw [Prog.bind_run_ok htest, ih (by omega), List.range'_succ, List.filter_cons]
    split
    . rw [List.length_cons, Nat.add_right_comm, Nat.add_assoc]
    . rfl

/--
The numbers of a freemap whose size fits in 32 bits.
-/
theorem Countable.freemapBits (h : Countable super)
    : super.freemapBits = super.freemapBlocks * sfsBlkbits ∧ 0 < super.freemapBlocks ∧
        super.freemapBlocks < 2 ^ 17 := by
  obtain ⟨hpos, hle⟩ := h
  simp only [SfsSuper.freemapBits, SfsSuper.freemapBlocks, sfsBlkbits, sfsBlksize] at *
  omega

theorem freemapBits_eq_zero (hlt : super.blocks < 2 ^ 32) (h : ¬Countable super) : super.freemapBits = 0 := by
  simp only [Countable, SfsSuper.freemapBits, sfsBlkbits, sfsBlksize] at *
  omega

theorem diskSuper_blocks_lt : (diskSuper dev).blocks < 2 ^ 32 := Bytes.toNat_lt _ 4

theorem sfsInitFreemap_sat (hcount : Countable super) (hfresh : freemap.Fresh super.freemapBits)
    : (sfsInitFreemap dev freemap sfsBlknFreemap super.freemapBlocks s).Sat
        (fun r t => Readable dev s.env sfsBlknFreemap super.freemapBlocks ∧ (t.mem = s.mem ∧ t.fsStore = s.fsStore) ∧
          r.Ok ∧ r.nbits = super.freemapBits ∧ ∀ i < super.freemapBits, r.bit i = (diskFreemap dev).bit i)
        (fun _ t => ¬Readable dev s.env sfsBlknFreemap super.freemapBlocks ∧ t.mem = s.mem ∧ t.fsStore = s.fsStore)
        (fun _ => False) := by
  obtain ⟨hbits, hpos, hle⟩ := hcount.freemapBits
  have hnwords : 4 * freemap.nwords = super.freemapBlocks * sfsBlksize ∧
      freemap.nwords * wordBits = super.freemapBits := by
    have h₁ := hfresh.le
    have h₂ := hfresh.lt
    simp only [hbits, sfsBlkbits, sfsBlksize, wordBits] at *
    omega
  unfold sfsInitFreemap
  rw [Prog.assert_bind_run (by rw [hnwords.1, Nat.mod_eq_of_lt (by simp only [sfsBlksize]; omega)])]
  apply Prog.sat_bind_imp (readFreemap_sat (by simp only [sfsBlknFreemap]; omega))
  rintro data t ⟨hread, hsame, -, hdata⟩
  refine ⟨hread, hsame, hfresh.nbits_eq.trans hnwords.2.symm, hfresh.nbits_eq, fun i hi => ?_⟩
  have hword : data.word (i / wordBits) =
      Bytes.word (fun i => dev.data (sfsBlknFreemap + i / sfsBlksize) (i % sfsBlksize)) (i / wordBits) := by
    refine Bytes.word_congr fun j hj => ?_
    have hlt : 4 * (i / wordBits) + j < super.freemapBlocks * sfsBlksize := by
      rw [hbits] at hi
      simp only [sfsBlkbits, sfsBlksize, wordBits] at *
      omega
    have hbyte := hdata _ hlt
    rwa [Nat.zero_add] at hbyte
  exact congrArg (fun w => (BitVec.ofNat 32 w).getLsbD (i % wordBits)) hword

/--
A file system whose superblock and freemap are those on the disk.
-/
structure Loaded (dev : Device) (sfs : SfsFs) : Prop where
  blocks : sfs.super.blocks = (diskSuper dev).blocks
  unusedBlocks : sfs.super.unusedBlocks = (diskSuper dev).unusedBlocks
  dBlocks : sfs.dev.dBlocks = dev.dBlocks
  ok : sfs.freemap.Ok
  nbits : sfs.freemap.nbits = (diskSuper dev).freemapBits
  bit : ∀ i < (diskSuper dev).freemapBits, sfs.freemap.bit i = (diskFreemap dev).bit i

theorem free_eq (hnbits : freemap.nbits = (diskSuper dev).freemapBits)
    (hbit : ∀ i < (diskSuper dev).freemapBits, freemap.bit i = (diskFreemap dev).bit i)
    : freemap.free = (diskFreemap dev).free := by
  rw [Bitmap.free, Bitmap.free, hnbits]
  exact List.filter_congr fun i hi => hbit i (List.mem_range.mp hi)

/--
The memory for the freemap is there, and it can be read.
-/
def ReadsFreemap (dev : Device) (s : Mounting) : Prop :=
  (s.mem.refuses 0 = false ∧ s.mem.refuses 1 = false) ∧
    Readable dev s.env sfsBlknFreemap (diskSuper dev).freemapBlocks

/--
The outcome of a mount. `A` is that it finds the superblock, `B` that it reads the freemap.
-/
def Result (dev : Device) (A B : Prop) (s : Mounting) (o : Outcome Errno Panic Mounting Unit) : Prop :=
  o.Sat
    (fun _ t => (Countable (diskSuper dev) ∧ B) ∧
      (diskFreemap dev).free.length = (diskSuper dev).unusedBlocks ∧ ∃ sfs, t.fsStore = some sfs ∧ Loaded dev sfs)
    (fun _ t => Undone s t ∧ (A → Countable (diskSuper dev)) ∧ ¬B)
    (fun _ => A ∧ ¬Countable (diskSuper dev) ∨
      (Countable (diskSuper dev) ∧ B) ∧ (diskFreemap dev).free.length ≠ (diskSuper dev).unusedBlocks)

theorem withChunk_result {A B : Prop} {c : Chunk} {m : Prog Errno Panic Mounting Unit}
    (hm : ∀ t : Mounting, s.mem.refuses 0 = false → t.mem = ⟨c :: s.mem.live, fun n => s.mem.refuses (n + 1)⟩ →
      t.env = s.env → t.fsStore = s.fsStore → Result dev A B t (m t))
    (hA : A → s.mem.refuses 0 = false) (hB : B → s.mem.refuses 0 = false)
    : Result dev A B s (withChunk c m s) := by
  refine withChunk_sat hm fun hrefused => ⟨fun hA' => ?_, fun hB' => ?_⟩
  . exact absurd ((hA hA').symm.trans hrefused) Bool.false_ne_true
  . exact absurd ((hB hB').symm.trans hrefused) Bool.false_ne_true

theorem Result.congr {A B A' B' : Prop} {o : Outcome Errno Panic Mounting Unit} (h : Result dev A B s o)
    (hA : A ↔ A') (hB : B ↔ B')
    : Result dev A' B' s o := by
  rw [propext hA, propext hB] at h
  exact h

theorem mountFreemap_sat {nbits : Nat} (hblocks : super.blocks = (diskSuper dev).blocks)
    (hunused : super.unusedBlocks = (diskSuper dev).unusedBlocks) (hnbits : nbits = super.freemapBits)
    : Result dev True (ReadsFreemap dev s) s (mountFreemap dev super nbits super.freemapBlocks s) := by
  have hbits : super.freemapBits = (diskSuper dev).freemapBits := by
    rw [SfsSuper.freemapBits, SfsSuper.freemapBits, hblocks]
  have hblks : super.freemapBlocks = (diskSuper dev).freemapBlocks := by
    rw [SfsSuper.freemapBlocks, SfsSuper.freemapBlocks, hblocks]
  have hiff : Countable super ↔ Countable (diskSuper dev) := by
    rw [Countable, Countable, hblocks]
  unfold mountFreemap
  subst hnbits
  by_cases hcount : Countable super
  . obtain ⟨hmul, hpos, hle⟩ := hcount.freemapBits
    have hnbits : 0 < super.freemapBits ∧ super.freemapBits < 2 ^ 32 := by
      simp only [hmul, sfsBlkbits, sfsBlksize]
      omega
    apply Prog.sat_bind_zoom (Bitmap.bitmapCreate_sat hnbits.1 hnbits.2)
    . rintro b mem (⟨rfl, hrefused, hlive⟩ | ⟨freemap, rfl, hfresh, hmem, hlive⟩)
      . refine ⟨⟨hlive, rfl⟩, fun _ => hiff.mp hcount, fun hreads => ?_⟩
        cases hrefused with
        | inl h => exact absurd (hreads.1.1.symm.trans h) Bool.false_ne_true
        | inr h => exact absurd (hreads.1.2.symm.trans h) Bool.false_ne_true
      . have hmount : ReadsFreemap dev s ↔ Readable dev s.env sfsBlknFreemap super.freemapBlocks := by
          rw [ReadsFreemap, hblks]
          exact and_iff_right hmem
        rw [← hiff, hmount]
        have hclean : ∀ (e : Errno) (t : Mounting),
            (¬Readable dev s.env sfsBlknFreemap super.freemapBlocks ∧ t.mem = mem ∧ t.fsStore = s.fsStore) →
              (onMem Bitmap.bitmapDestroy t).Sat
                (fun _ u => Undone s u ∧ (True → Countable super) ∧
                  ¬Readable dev s.env sfsBlknFreemap super.freemapBlocks)
                (fun _ u => Undone s u ∧ (True → Countable super) ∧
                  ¬Readable dev s.env sfsBlknFreemap super.freemapBlocks)
                (fun _ => False) := by
          intro e t ⟨hnot, hsame, hstore⟩
          have hlive' : (t.mem.live.erase .bitmapMap).erase .bitmap = s.mem.live := by
            rw [hsame, hlive, List.erase_cons_head, List.erase_cons_head]
          exact ⟨⟨hlive', hstore⟩, fun _ => hcount, hnot⟩
        have hread := Prog.sat_onError (@sfsInitFreemap_sat dev { s with mem } super freemap hcount hfresh) hclean
          fun _ => id
        apply Prog.sat_bind hread
        . rintro r t ⟨hreads, -, hok, hn, hbit⟩
          have hfree : r.free = (diskFreemap dev).free := free_eq (hn.trans hbits) (hbits ▸ hbit)
          have hrange : (List.range' 0 super.freemapBits).filter r.bit = r.free := by
            rw [← List.range_eq_range', Bitmap.free, hn]
          rw [Prog.bind_run_ok (countUnused_run (Nat.le_of_eq ((Nat.zero_add _).trans hn.symm))), Nat.zero_add, hrange,
            hfree, hunused]
          by_cases hcounted : (diskFreemap dev).free.length = (diskSuper dev).unusedBlocks
          . rw [Prog.assert_bind_run hcounted]
            exact ⟨⟨hcount, hreads⟩, hcounted, _, rfl, hblocks, hunused, rfl, hok, hn.trans hbits, hbits ▸ hbit⟩
          . rw [Prog.assert_bind_run_panic hcounted]
            exact Or.inr ⟨⟨hcount, hreads⟩, hcounted⟩
        . exact fun _ _ => id
        . exact fun _ => False.elim
    . exact fun _ _ h => h.elim
    . exact fun _ => False.elim
  . have hzero : super.freemapBits = 0 := freemapBits_eq_zero (hblocks ▸ diskSuper_blocks_lt) hcount
    have hpanic : onMem (Bitmap.bitmapCreate super.freemapBits) s = .panic .bitmapCreate := by
      have hcreate : Bitmap.bitmapCreate 0 s.mem = .panic .bitmapCreate := by
        rw [Bitmap.bitmapCreate, Prog.assert_bind_run_panic (by simp)]
      rw [hzero, onMem, Prog.zoom, hcreate]
    rw [Prog.bind_run_panic hpanic]
    exact Or.inl ⟨trivial, mt hiff.mpr hcount⟩

/--
What the mount finds behind the allocation of the buffer.
-/
def FoundSuper (dev : Device) (s : Mounting) : Prop :=
  (s.env .super 0 = none ∧ 0 < dev.dBlocks) ∧ (diskSuper dev).magic = sfsMagic ∧
    (diskSuper dev).blocks ≤ dev.dBlocks ∧ s.mem.refuses 0 = false

def FoundFreemap (dev : Device) (s : Mounting) : Prop :=
  FoundSuper dev s ∧ (s.mem.refuses 1 = false ∧ s.mem.refuses 2 = false) ∧
    Readable dev s.env sfsBlknFreemap (diskSuper dev).freemapBlocks

theorem mountSuper_sat (s : Mounting) : Result dev (FoundSuper dev s) (FoundFreemap dev s) s (mountSuper dev s) := by
  unfold mountSuper
  apply Prog.sat_bind (sfsInitRead_sat (by decide))
  . rintro b t ⟨hread, rfl, rfl⟩
    have hsuper : SfsSuper.ofBytes (dev.data sfsBlknSuper) = diskSuper dev := rfl
    simp only [hsuper]
    by_cases hmagic : (diskSuper dev).magic = sfsMagic
    . rw [if_neg (not_not.mpr hmagic)]
      by_cases hblocks : (diskSuper dev).blocks > dev.dBlocks
      . rw [if_pos hblocks]
        exact ⟨⟨rfl, rfl⟩, fun h => absurd h.2.2.1 (Nat.not_le.mpr hblocks),
          fun h => Nat.not_le.mpr hblocks h.1.2.2.1⟩
      . rw [if_neg hblocks]
        have hchunk : Result dev (FoundSuper dev s) (FoundFreemap dev s)
            { s with env := s.env.drop (cost .super 1) }
            (withChunk .hashList (mountFreemap dev { diskSuper dev with
              info := Function.update (diskSuper dev).info sfsMaxInfoLen 0 }
              (diskSuper dev).freemapBits (diskSuper dev).freemapBlocks)
              { s with env := s.env.drop (cost .super 1) }) := by
          refine withChunk_result (fun t hzero hmem henv _ => ?_) (fun h => h.2.2.2) fun h => h.1.2.2.2
          have hfound : FoundSuper dev s := ⟨hread, hmagic, Nat.not_lt.mp hblocks, hzero⟩
          have hreads : ReadsFreemap dev t ↔ FoundFreemap dev s := by
            rw [ReadsFreemap, FoundFreemap, and_iff_right hfound, hmem, henv]
            refine and_congr Iff.rfl (forall_congr' fun i => forall_congr' fun hi => ?_)
            simp [Faults.drop, cost]
          refine Result.congr ?_ (iff_of_true trivial hfound) hreads
          exact mountFreemap_sat rfl rfl rfl
        exact hchunk
    . rw [if_pos hmagic]
      exact ⟨⟨rfl, rfl⟩, fun h => absurd h.2.1 hmagic, fun h => hmagic h.1.2.1⟩
  . exact fun _ t ht => ⟨⟨congrArg _ ht.2.1, ht.2.2⟩, fun h => absurd h.1 ht.1, fun h => ht.1 h.1.1⟩
  . exact fun _ => False.elim

/--
The outcome of a mount, for every content of the device.
-/
theorem sfsDoMount_sat (dBlocksize : Nat) (dev : Device) (s : Mounting)
    : Result dev (FindsSuper dBlocksize dev s) (FindsFreemap dBlocksize dev s) s (sfsDoMount dBlocksize dev s) := by
  unfold sfsDoMount
  by_cases hsize : dBlocksize = sfsBlksize
  . rw [if_neg (not_not.mpr hsize)]
    refine withChunk_result (fun t hzero hmem henv hstore => ?_) (fun h => h.mem.1) fun h => h.mem.1
    refine withChunk_result (fun u hone hmem' henv' hstore' => ?_) (fun h => ?_) fun h => ?_
    . have hrefuses : ∀ n, u.mem.refuses n = s.mem.refuses (n + 2) := by
        intro n
        rw [hmem', hmem]
      have hone' : s.mem.refuses 1 = false := by
        rw [← hone, hmem]
      have hsuper : FoundSuper dev u ↔ FindsSuper dBlocksize dev s := by
        rw [FoundSuper, henv', henv, hrefuses]
        constructor
        . exact fun ⟨hread, hmagic, hblocks, htwo⟩ => ⟨hsize, ⟨hzero, hone', htwo⟩, hread, hmagic, hblocks⟩
        . exact fun h => ⟨h.read, h.magic, h.blocks_le, h.mem.2.2⟩
      have hfreemap : FoundFreemap dev u ↔ FindsFreemap dBlocksize dev s := by
        rw [FoundFreemap, hsuper, henv', henv, hrefuses, hrefuses]
        exact ⟨fun ⟨h, hmem, hread⟩ => ⟨h, hmem, hread⟩, fun h => ⟨h.toFindsSuper, h.memFreemap, h.readFreemap⟩⟩
      exact (mountSuper_sat u).congr hsuper hfreemap
    . rw [hmem]
      exact h.mem.2.1
    . rw [hmem]
      exact h.mem.2.1
  . rw [if_pos hsize]
    exact ⟨⟨rfl, rfl⟩, fun h => absurd h.blocksize hsize, fun h => hsize h.blocksize⟩

/--
The numbers of a mounted file system.
-/
theorem Loaded.counted {sfs : SfsFs} (h : Loaded dev sfs) (hcount : Countable (diskSuper dev))
    (hunused : (diskFreemap dev).free.length = (diskSuper dev).unusedBlocks) (env : Faults Request Errno)
    : ({ sfs with env } : SfsFs).Counted := by
  obtain ⟨hbits, -, hlt⟩ := hcount.freemapBits
  refine ⟨h.ok, ?_, ?_, ?_⟩
  . simp only [h.blocks, h.nbits, hbits, SfsSuper.freemapBlocks, sfsBlkbits, sfsBlksize]
    omega
  . simp only [h.nbits, hbits, sfsBlkbits, sfsBlksize]
    omega
  . simp only [h.unusedBlocks, free_eq h.nbits h.bit, hunused]

theorem Loaded.dataBlock_iff {sfs : SfsFs} (h : Loaded dev sfs) {b : Nat}
    : sfs.super.DataBlock b ↔ (diskSuper dev).DataBlock b := by
  rw [SfsSuper.DataBlock, SfsSuper.DataBlock, SfsSuper.freemapBlocks, SfsSuper.freemapBlocks, h.blocks]

/--
The allocator of a mounted file system is safe exactly for a freemap without free bits elsewhere.
-/
theorem Loaded.allocatorSafe_iff {sfs : SfsFs} (h : Loaded dev sfs) (hcount : Countable (diskSuper dev))
    (hunused : (diskFreemap dev).free.length = (diskSuper dev).unusedBlocks)
    (hle : (diskSuper dev).blocks ≤ dev.dBlocks)
    : sfs.AllocatorSafe ↔ ∀ b ∈ (diskFreemap dev).free, (diskSuper dev).DataBlock b := by
  have hfree : sfs.freemap.free = (diskFreemap dev).free := free_eq h.nbits h.bit
  constructor
  . intro hsafe b hb
    have hcalls : Run.Admits AllocRun.step AllocRun.Legal ⟨{ sfs with env := Faults.never }, []⟩
        ((diskFreemap dev).free.map fun _ => .sfsBlockAlloc) := by
      generalize (⟨{ sfs with env := Faults.never }, []⟩ : AllocRun) = r
      induction (diskFreemap dev).free generalizing r with
      | nil => trivial
      | cons a l ih => exact ⟨trivial, fun s' _ => ih s'⟩
    obtain ⟨r, hexec, hall⟩ := hsafe Faults.never _ hcalls
    have hle' : sfs.super.blocks ≤ sfs.dev.dBlocks := by
      rwa [h.blocks, h.dBlocks]
    have hmem := AllocRun.handed_out (h.counted hcount hunused Faults.never) hfree rfl hle' hexec
    exact h.dataBlock_iff.mp (hall b (hmem b (Or.inl hb)))
  . intro hdata env calls hadmits
    have hsafe : AllocRun.Safe sfs.super ⟨{ sfs with env }, []⟩ := by
      refine ⟨h.counted hcount hunused env, rfl, fun b hb => ?_, List.nodup_nil, fun b hb => ?_⟩
      . exact h.dataBlock_iff.mpr (hdata b (hfree ▸ hb))
      . exact absurd hb List.not_mem_nil
    obtain ⟨r, hexec, hr⟩ := Run.exists_exec_of_admits (fun _ _ hr hlegal => hr.step hlegal) hsafe hadmits
    exact ⟨r, hexec, fun b hb => (hr.allocated b hb).1⟩

/--
A mount of a device with a consistent volume goes well unless memory or a request is refused.
-/
theorem sfsDoMount_of_consistent (hmagic : (diskSuper dev).magic = sfsMagic)
    (hle : (diskSuper dev).blocks ≤ dev.dBlocks)
    (hfreemap : sfsBlknFreemap + (diskSuper dev).freemapBlocks ≤ (diskSuper dev).blocks)
    (hcount : Countable (diskSuper dev)) (hconsistent : Consistent dev) (s : Mounting)
    : (sfsDoMount sfsBlksize dev s).Sat
        (fun _ t => ∃ sfs, t.fsStore = some sfs ∧ Loaded dev sfs ∧ sfs.freemap.free = (diskFreemap dev).free ∧
          sfs.AllocatorSafe)
        (fun _ t => Undone s t ∧
          ((∃ i < 5, s.mem.refuses i = true) ∨ s.env .super 0 ≠ none ∨
            ∃ i < (diskSuper dev).freemapBlocks, s.env .freemap i ≠ none))
        (fun _ => False) := by
  have hsat := sfsDoMount_sat sfsBlksize dev s
  have hpos : 0 < dev.dBlocks := Nat.lt_of_lt_of_le hcount.1 hle
  unfold Result at hsat
  apply hsat.mono
  . rintro _ t ⟨-, hunused, sfs, hstore, hloaded⟩
    exact ⟨sfs, hstore, hloaded, free_eq hloaded.nbits hloaded.bit,
      (hloaded.allocatorSafe_iff hcount hunused hle).mpr hconsistent.2⟩
  . rintro _ t ⟨hundone, -, hnot⟩
    refine ⟨hundone, ?_⟩
    by_contra hall
    simp only [not_or, not_exists, not_and, Bool.not_eq_true, ne_eq, not_not] at hall
    obtain ⟨hmem, hsuper, henv⟩ := hall
    refine hnot ⟨⟨rfl, ⟨hmem 0 (by omega), hmem 1 (by omega), hmem 2 (by omega)⟩, ⟨hsuper, hpos⟩, hmagic, hle⟩,
      ⟨hmem 3 (by omega), hmem 4 (by omega)⟩, fun i hi => ⟨henv i hi, ?_⟩⟩
    omega
  . intro p hp
    cases hp with
    | inl h => exact h.2 hcount
    | inr h => exact h.2 hconsistent.1

/--
If only data blocks are free, the number of free blocks below `blocks` is the number of all free bits.
-/
theorem Loaded.filter_range {sfs : SfsFs} (h : Loaded dev sfs) (hcount : Countable (diskSuper dev))
    (hunused : (diskFreemap dev).free.length = (diskSuper dev).unusedBlocks)
    (hdata : ∀ b ∈ (diskFreemap dev).free, (diskSuper dev).DataBlock b)
    : sfs.super.unusedBlocks = ((List.range sfs.super.blocks).filter sfs.freemap.bit).length := by
  have hfree : sfs.freemap.free = (diskFreemap dev).free := free_eq h.nbits h.bit
  have hle := (h.counted hcount hunused sfs.env).le
  have hsame : (List.range sfs.super.blocks).filter sfs.freemap.bit = sfs.freemap.free := by
    obtain ⟨n, hn⟩ := Nat.exists_eq_add_of_le hle
    have hrest : (List.map (sfs.super.blocks + ·) (List.range n)).filter sfs.freemap.bit = [] := by
      rw [List.filter_eq_nil_iff]
      intro b hb hbit
      obtain ⟨i, hi, rfl⟩ := List.mem_map.mp hb
      have hlt : sfs.super.blocks + i < sfs.freemap.nbits := by
        simp only at hn
        have := List.mem_range.mp hi
        omega
      have hmem : sfs.super.blocks + i ∈ (diskFreemap dev).free := hfree ▸ Bitmap.mem_free.mpr ⟨hlt, hbit⟩
      have hbound := (hdata _ hmem).2
      rw [← h.blocks] at hbound
      omega
    have hbits : sfs.freemap.nbits = sfs.super.blocks + n := hn
    rw [Bitmap.free, hbits, List.range_add, List.filter_append, hrest, List.append_nil]
  rw [hsame, h.unusedBlocks, hfree, hunused]

/--
A mount gives a right file system or nothing exactly when a superblock that it finds has a number of blocks that a
freemap can have, and a freemap that it reads is consistent with that.
-/
theorem sfs_do_mount_iff (dBlocksize : Nat) (dev : Device) (s : Mounting)
    : Mounts dBlocksize dev s ↔
        (FindsSuper dBlocksize dev s → Countable (diskSuper dev)) ∧
          (FindsFreemap dBlocksize dev s → Consistent dev) := by
  have hsat := sfsDoMount_sat dBlocksize dev s
  unfold Mounts
  unfold Result at hsat
  cases hrun : sfsDoMount dBlocksize dev s with
  | ok _ t =>
    rw [hrun] at hsat
    obtain ⟨⟨hcount, hfinds⟩, hunused, sfs, hstore, hloaded⟩ := hsat
    have hiff := hloaded.allocatorSafe_iff hcount hunused hfinds.blocks_le
    constructor
    . rintro ⟨sfs', hstore', -, hsafe⟩
      obtain rfl := Option.some_inj.mp (hstore'.symm.trans hstore)
      exact ⟨fun _ => hcount, fun _ => ⟨hunused, hiff.mp hsafe⟩⟩
    . rintro ⟨-, hconsistent⟩
      obtain ⟨-, hdata⟩ := hconsistent hfinds
      exact ⟨sfs, hstore, hloaded.filter_range hcount hunused hdata, hiff.mpr hdata⟩
  | error e t =>
    rw [hrun] at hsat
    obtain ⟨hundone, hcount, hnot⟩ := hsat
    exact iff_of_true hundone ⟨hcount, fun h => absurd h hnot⟩
  | panic p =>
    rw [hrun] at hsat
    refine iff_of_false id fun ⟨hcount, hconsistent⟩ => ?_
    cases hsat with
    | inl h => exact h.2 (hcount h.1)
    | inr h => exact h.2 (hconsistent h.1.2).1

/--
A device whose superblock has the right magic number and no blocks.
-/
def noBlocks : Device where
  dBlocks := 1
  data _ i := if i < 4 then Bytes.ofNat sfsMagic i else 0

/--
The mount of a superblock without blocks panics.
-/
theorem not_sfs_do_mount : ¬∀ (dBlocksize : Nat) (dev : Device) (s : Mounting), Mounts dBlocksize dev s := by
  intro h
  have hblocks : (diskSuper noBlocks).blocks = 0 := by decide
  have hfinds : FindsSuper sfsBlksize noBlocks ⟨⟨[], fun _ => false⟩, Faults.never, none⟩ := by
    refine ⟨rfl, ⟨rfl, rfl, rfl⟩, ⟨rfl, Nat.one_pos⟩, by decide, ?_⟩
    rw [hblocks]
    exact Nat.zero_le 1
  have hcount := ((sfs_do_mount_iff sfsBlksize noBlocks _).mp (h sfsBlksize noBlocks _)).1 hfinds
  rw [Countable, hblocks] at hcount
  exact absurd hcount.1 (Nat.lt_irrefl 0)

end Mounting
end Ucore

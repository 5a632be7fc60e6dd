import Ucore.Kern.Fs.Sfs.SfsFs.MountRuns
import Ucore.Tools.Mksfs.Walk

/-!
This module contains what stands in the image that mksfs leaves: every block that has been handed out has exactly one
use, and the freemap has the rest. The kernel mounts such an image.
-/

namespace Ucore
namespace Mksfs

variable {s t : Mksfs} {g : Ledger} {ninos nextIno i j b : Nat}

theorem getLsbD_foldl_mask (l : List Nat) (data : Nat → BitVec 32) (i : Nat)
    : (l.foldl (fun data j => Function.update data (j / wordBits)
        (data (j / wordBits) ||| Bitmap.mask (j % wordBits))) data (i / wordBits)).getLsbD (i % wordBits) =
      ((data (i / wordBits)).getLsbD (i % wordBits) || decide (i ∈ l)) := by
  induction l generalizing data with
  | nil => simp
  | cons j l ih =>
    have hj : j % wordBits < wordBits := Nat.mod_lt _ (by decide)
    rw [List.foldl_cons, ih]
    by_cases hword : i / wordBits = j / wordBits
    . have heq : i % wordBits = j % wordBits ↔ i = j := by
        simp only [wordBits] at hword ⊢
        omega
      rw [hword, Function.update_self, BitVec.getLsbD_or, Bitmap.getLsbD_mask hj, Bool.or_assoc]
      simp only [List.mem_cons, Bool.decide_or, heq]
    . have hne : i ≠ j := fun h => hword (by rw [h])
      rw [Function.update_of_ne hword]
      simp only [List.mem_cons, hne, false_or]

theorem getLsbD_setBits (start stop i : Nat)
    : (setBits start stop (i / wordBits)).getLsbD (i % wordBits) = decide (start ≤ i ∧ i < stop) := by
  unfold setBits
  rw [getLsbD_foldl_mask, BitVec.ofNat_eq_ofNat, BitVec.getLsbD_zero, Bool.false_or, decide_eq_decide,
    List.mem_range'_1]
  omega

/--
The blocks of the freemap have the bits of the blocks that have not been handed out.
-/
theorem getLsbD_freemapBlock (hj : j < sfsBlkbits)
    : (freemapBlock ninos nextIno i (j / wordBits)).getLsbD (j % wordBits) =
        decide (nextIno ≤ i + j ∧ i + j < ninos) := by
  unfold freemapBlock
  split
  . rw [getLsbD_setBits, decide_eq_decide]
    split <;> split <;> omega
  . rw [BitVec.ofNat_eq_ofNat, BitVec.getLsbD_zero, eq_comm, decide_eq_false_iff_not]
    omega

theorem writeBlocks_ok {l : List (Nat × Bytes × Nat)} {F : Nat → Bytes}
    (hF : ∀ w ∈ l, Bytes.zero.copy 0 w.2.1 w.2.2 = F w.1) (hrun : writeBlocks l s = .ok () t)
    : t = { s with img := fun b => if b ∈ l.map Prod.fst then F b else s.img b } := by
  induction l generalizing s with
  | nil =>
    simp only [writeBlocks, Prog.pure_run, Outcome.ok.injEq, true_and] at hrun
    rw [← hrun]
    simp
  | cons w l ih =>
    obtain ⟨ino, data, len⟩ := w
    obtain ⟨_, u, hwrite, hrest⟩ := Prog.bind_run_eq_ok.mp hrun
    obtain ⟨-, -, rfl⟩ := writeBlock_ok hwrite
    rw [ih (fun w hw => hF w (List.mem_cons_of_mem _ hw)) hrest]
    congr 1
    funext b
    have hhead : Bytes.zero.copy 0 data len = F ino := hF _ List.mem_cons_self
    by_cases hb : b ∈ l.map Prod.fst
    . rw [if_pos hb, if_pos (by rw [List.map_cons]; exact List.mem_cons_of_mem _ hb)]
    . rw [if_neg hb]
      by_cases hino : b = ino
      . subst hino
        rw [if_pos (by rw [List.map_cons]; exact List.mem_cons_self)]
        simp only [Function.update_self, hhead]
      . have hnot : b ∉ (((ino, data, len) :: l).map Prod.fst) := by
          rw [List.map_cons, List.mem_cons]
          exact fun h => h.elim hino hb
        rw [if_neg hnot]
        simp only [Function.update_of_ne hino]

/--
What a block has when the image is closed.
-/
def closed (s : Mksfs) : BlockKind → Nat → Bytes
  | .super, _ => Bytes.zero.copy 0 s.super.toBytes MkSuper.byteSize
  | .freemap, b =>
    Bytes.zero.copy 0
      (Bytes.ofWords fun w => (freemapBlock s.ninos s.nextIno ((b - sfsBlknFreemap) * sfsBlkbits) w).toNat) sfsBlksize
  | .inode, b => Bytes.zero.copy 0 (s.inode b).inode.toBytes MkInode.byteSize
  | .index1, b => Bytes.zero.copy 0 (Bytes.ofWords (s.cache b)) sfsBlksize
  | .index2, b => Bytes.zero.copy 0 (Bytes.ofWords (s.cache b)) sfsBlksize
  | .data, b => s.img b

/--
A block is written with what belongs to its kind.
-/
theorem closeWrites_kind (h : s.Shaped g) {w : Nat × Bytes × Nat} (hw : w ∈ s.closeWrites)
    : ∃ K, g.kind w.1 = some K ∧ Bytes.zero.copy 0 w.2.1 w.2.2 = s.closed K w.1 := by
  rw [closeWrites, List.mem_append, List.mem_cons] at hw
  obtain hw | rfl | hw := hw
  . obtain ⟨k, hk, rfl⟩ := List.mem_map.mp hw
    refine ⟨.freemap, (h.books.freemap _).mpr ⟨Nat.le_add_right _ _, ?_⟩, ?_⟩
    . exact Nat.add_lt_add_left (List.mem_range.mp hk) _
    . simp only [closed, Nat.add_sub_cancel_left]
  . exact ⟨.super, (h.books.super 0).mpr rfl, rfl⟩
  . obtain ⟨i, hi, hw⟩ := List.mem_flatMap.mp hw
    have hlt := List.mem_range.mp hi
    cases List.mem_append.mp hw with
    | inl hw =>
      obtain ⟨cb, hcb, rfl⟩ := List.mem_map.mp hw
      cases (h.books.cached cb).mp ⟨i, hlt, hcb⟩ with
      | inl hkind => exact ⟨.index1, hkind, rfl⟩
      | inr hkind => exact ⟨.index2, hkind, rfl⟩
    | inr hw =>
      obtain ⟨ci, hci, rfl⟩ := List.mem_map.mp hw
      have hkind : g.kind ci = some .inode := (h.books.inode ci).mpr ⟨i, hlt, hci⟩
      refine ⟨.inode, ?_, ?_⟩
      . simpa only [flushCacheInode, h.ino ci hkind] using hkind
      . simp only [flushCacheInode, h.ino ci hkind, closed]

/--
All blocks but those of the files are written.
-/
theorem mem_closeWrites (h : s.Shaped g) {K : BlockKind} (hkind : g.kind b = some K) (hK : K ≠ .data)
    : b ∈ s.closeWrites.map Prod.fst := by
  rw [closeWrites, List.map_append, List.map_cons, List.mem_append, List.mem_cons, List.map_flatMap]
  have hcached : (g.kind b = some .index1 ∨ g.kind b = some .index2) →
      b ∈ (List.range hashListSize).flatMap fun i =>
        ((s.blocks i).map s.flushCacheBlock ++ (s.inodes i).map s.flushCacheInode).map Prod.fst := by
    intro hindex
    obtain ⟨i, hi, hmem⟩ := (h.books.cached b).mpr hindex
    refine List.mem_flatMap.mpr ⟨i, List.mem_range.mpr hi, ?_⟩
    rw [List.map_append, List.mem_append, List.map_map]
    exact Or.inl (List.mem_map.mpr ⟨b, hmem, rfl⟩)
  cases K with
  | super => exact Or.inr (Or.inl ((h.books.super b).mp hkind))
  | freemap =>
    obtain ⟨hle, hlt⟩ := (h.books.freemap b).mp hkind
    obtain ⟨k, rfl⟩ := Nat.exists_eq_add_of_le hle
    refine Or.inl (List.mem_map.mpr ⟨_, List.mem_map.mpr ⟨k, List.mem_range.mpr ?_, rfl⟩, rfl⟩)
    exact Nat.lt_of_add_lt_add_left hlt
  | inode =>
    obtain ⟨i, hi, hmem⟩ := (h.books.inode b).mp hkind
    refine Or.inr (Or.inr (List.mem_flatMap.mpr ⟨i, List.mem_range.mpr hi, ?_⟩))
    rw [List.map_append, List.mem_append]
    exact Or.inr (List.mem_map.mpr ⟨_, List.mem_map.mpr ⟨b, hmem, rfl⟩, h.ino b hkind⟩)
  | index1 => exact Or.inr (Or.inr (hcached (Or.inl hkind)))
  | index2 => exact Or.inr (Or.inr (hcached (Or.inr hkind)))
  | data => exact absurd rfl hK

theorem closeSfs_ok (h : s.Shaped g) (hrun : closeSfs s = .ok () t)
    : t = { s with img := t.img } ∧ ∀ b K, g.kind b = some K → t.img b = s.closed K b := by
  simp only [closeSfs, Prog.get_bind_run] at hrun
  have ht := writeBlocks_ok (F := fun b => (g.kind b).elim (s.img b) fun K => s.closed K b) (fun w hw => by
    obtain ⟨K, hkind, hcopy⟩ := closeWrites_kind h hw
    rw [hkind, hcopy, Option.elim_some]) hrun
  refine ⟨by rw [ht], fun b K hkind => ?_⟩
  rw [ht]
  simp only [hkind, Option.elim_some]
  by_cases hK : K = .data
  . subst hK
    split <;> rfl
  . rw [if_pos (mem_closeWrites h hkind hK)]

/--
The ledger of an image without files: the root directory is an inode.
-/
def firstLedger (ninos : Nat) : Ledger where
  kind b :=
    if b = 0 then some .super
    else if sfsBlknFreemap ≤ b ∧ b < sfsBlknFreemap + (ninos + sfsBlkbits - 1) / sfsBlkbits then some .freemap
    else none
  own _ := (0, 0)

/--
The builder before the root directory is made.
-/
def firstSfs (ninos : Nat) (info : Bytes) (img : Nat → Bytes) : Mksfs where
  super :=
    { blocks := ninos
      unusedBlocks := ninos - (sfsBlknFreemap + (ninos + sfsBlkbits - 1) / sfsBlkbits)
      info }
  ninos
  nextIno := sfsBlknFreemap + (ninos + sfsBlkbits - 1) / sfsBlkbits
  inode := fun _ => ⟨⟨0, 0, 0, 0, fun _ => 0, 0, 0⟩, 0, 0, 0, none, none⟩
  inodes := fun _ => []
  cache := fun _ _ => 0
  blocks := fun _ => []
  entry := Bytes.zero
  img

theorem firstLedger_kind {K : BlockKind} (h : (firstLedger ninos).kind b = some K)
    : K = .super ∧ b = 0 ∨
        K = .freemap ∧ sfsBlknFreemap ≤ b ∧ b < sfsBlknFreemap + (ninos + sfsBlkbits - 1) / sfsBlkbits := by
  unfold firstLedger at h
  grind

theorem firstShaped (ninos : Nat) (info : Bytes) (img : Nat → Bytes) (hle : ninos ≤ sfsMaxNblks)
    (hlt : sfsBlknFreemap + (ninos + sfsBlkbits - 1) / sfsBlkbits ≤ ninos)
    : (firstSfs ninos info img).Shaped (firstLedger ninos) := by
  have hno : ∀ b K, (firstLedger ninos).kind b = some K → K = .super ∨ K = .freemap := by
    intro b K hK
    cases firstLedger_kind hK with
    | inl h => exact Or.inl h.1
    | inr h => exact Or.inr h.1
  have hinode : ∀ b, (firstLedger ninos).kind b ≠ some .inode := fun b hb => by simpa using hno b _ hb
  refine ⟨⟨hle, Nat.le_refl _, hlt, rfl, rfl, ?_, ?_, ?_, ?_, ?_, ?_, ?_⟩, ?_, ?_, ?_, ?_⟩
  . intro b K hK
    cases firstLedger_kind hK with
    | inl h =>
      rw [h.2]
      exact Nat.lt_of_lt_of_le (by decide : 0 < sfsBlknFreemap) (Nat.le_add_right _ _)
    | inr h => exact h.2.2
  . intro b
    unfold firstLedger
    simp only
    split
    . simpa
    . split <;> simp_all
  . intro b
    simp only [firstLedger, nfreemap, firstSfs]
    split
    . simp only [sfsBlknFreemap]
      simp_all
    . split <;> simp_all
  . exact fun b => iff_of_false (hinode b) (by rintro ⟨i, _, hmem⟩; exact absurd hmem List.not_mem_nil)
  . refine fun b => iff_of_false (by rintro ⟨i, _, hmem⟩; exact absurd hmem List.not_mem_nil) fun h => ?_
    cases h with
    | inl h => simpa using hno b _ h
    | inr h => simpa using hno b _ h
  . intro c K i K' hc hkind _
    cases hno c K hc with
    | inl h => simp [h, slotKind] at hkind
    | inr h => simp [h, slotKind] at hkind
  . intro b K' hb h₁ h₂ _
    exact absurd (hno b K' hb) (by simp [h₁, h₂])
  . exact fun p hp => absurd hp (hinode p)
  . exact fun p hp => absurd hp (hinode p)
  . exact fun p hp => absurd hp (hinode p)
  . exact fun p hp => absurd hp (hinode p)

theorem createSfs_ok {stSize : Nat} {img : Nat → Bytes} {heap : Bytes} (hrun : createSfs stSize img heap = .ok s)
    : ∃ g, s.Shaped g ∧ g.kind sfsBlknRoot = some .inode ∧ ∀ b < s.nextIno, g.kind b ≠ none := by
  unfold createSfs at hrun
  simp only at hrun
  split at hrun
  . contradiction
  next hlt =>
  generalize hninos : min (stSize / sfsBlksize % 2 ^ 32) sfsMaxNblks = ninos at hrun hlt
  have hle : ninos ≤ sfsMaxNblks := hninos ▸ Nat.min_le_right _ _
  simp only [Except.ok.injEq] at hrun
  subst hrun
  refine ⟨(firstLedger ninos).set sfsBlknRoot .inode 0 0, ?_, Ledger.set_kind_self, ?_⟩
  . apply Shaped.newCacheInode
    . exact firstShaped _ _ _ hle (Nat.le_of_not_le hlt)
    . exact Nat.lt_of_lt_of_le (by decide : sfsBlknRoot < sfsBlknFreemap) (Nat.le_add_right _ _)
    . simp [firstLedger]
  . intro b hb
    by_cases hroot : b = sfsBlknRoot
    . rw [hroot, Ledger.set_kind_self]
      exact Option.some_ne_none _
    . rw [Ledger.set_kind_of_ne hroot, firstLedger]
      simp only [newCacheInode, sfsBlknFreemap, sfsBlknRoot] at hb hroot ⊢
      split
      . exact Option.some_ne_none _
      . rw [if_pos (by omega)]
        exact Option.some_ne_none _

/--
The number in place `i` of block `c` of the image. The places of an inode stand behind its sizes.
-/
def diskSlot (img : Nat → Bytes) (K : BlockKind) (c i : Nat) : Nat := (img c).word (if K = .inode then 3 + i else i)

/--
An image in which `g` has the one use of each block below `nextIno`, and the other blocks are free.
-/
structure Written (img : Nat → Bytes) (g : Ledger) (ninos nextIno : Nat) : Prop where
  ninos_le : ninos ≤ sfsMaxNblks
  nextIno_le : nextIno ≤ ninos
  freemap_le : sfsBlknFreemap + (ninos + sfsBlkbits - 1) / sfsBlkbits ≤ nextIno
  kind : ∀ b, g.kind b ≠ none ↔ b < nextIno
  root : g.kind sfsBlknRoot = some .inode
  super : ∀ b, g.kind b = some .super ↔ b = sfsBlknSuper
  freemap : ∀ b, g.kind b = some .freemap ↔
    sfsBlknFreemap ≤ b ∧ b < sfsBlknFreemap + (ninos + sfsBlkbits - 1) / sfsBlkbits
  magic : (SfsSuper.ofBytes (img sfsBlknSuper)).magic = sfsMagic
  superBlocks : (SfsSuper.ofBytes (img sfsBlknSuper)).blocks = ninos
  unusedBlocks : (SfsSuper.ofBytes (img sfsBlknSuper)).unusedBlocks = ninos - nextIno
  bit : ∀ b < (ninos + sfsBlkbits - 1) / sfsBlkbits * sfsBlkbits,
    (BitVec.ofNat 32 ((img (sfsBlknFreemap + b / sfsBlkbits)).word (b % sfsBlkbits / wordBits))).getLsbD
      (b % wordBits) = decide (nextIno ≤ b ∧ b < ninos)
  holds : ∀ c K i K', g.kind c = some K → slotKind K i = some K' → diskSlot img K c i ≠ 0 →
    g.kind (diskSlot img K c i) = some K' ∧ g.own (diskSlot img K c i) = (c, i)
  held : ∀ b K', g.kind b = some K' → K' ≠ .super → K' ≠ .freemap → K' ≠ .inode →
    ∃ K, g.kind (g.own b).1 = some K ∧ slotKind K (g.own b).2 = some K' ∧
      diskSlot img K (g.own b).1 (g.own b).2 = b
  blocks : ∀ p, g.kind p = some .inode → ∀ k, (∃ b, g.Path b p k) ↔ k < (SfsDiskInode.ofBytes (img p)).blocks

theorem slot_lt (h : s.Inv g) {K K' : BlockKind} {c : Nat} (hc : g.kind c = some K) (hkind : slotKind K i = some K')
    : s.slot K c i < 2 ^ 32 := by
  by_cases hzero : s.slot K c i = 0
  . rw [hzero]
    decide
  . have hlt := h.lt _ _ (h.holds c K i K' hc hkind hzero).1
    have hle := h.nextIno_le
    have hmax := h.ninos_le
    simp only [sfsMaxNblks] at hmax
    omega

/--
The places in the image are those in memory.
-/
theorem diskSlot_closed (h : s.Inv g) {img : Nat → Bytes} (himg : ∀ b K, g.kind b = some K → img b = s.closed K b)
    {K K' : BlockKind} {c : Nat} (hc : g.kind c = some K) (hkind : slotKind K i = some K')
    : diskSlot img K c i = s.slot K c i := by
  have hlt := slot_lt h hc hkind
  have hindex : i < sfsBlkNentry → K ≠ .inode → img c = Bytes.zero.copy 0 (Bytes.ofWords (s.cache c)) sfsBlksize →
      diskSlot img K c i = s.slot K c i := by
    intro hi hK hdata
    rw [slot_of_ne hK] at hlt ⊢
    rw [diskSlot, if_neg hK, hdata]
    have hcopy : (Bytes.zero.copy 0 (Bytes.ofWords (s.cache c)) sfsBlksize).word i =
        (Bytes.ofWords (s.cache c)).word i := by
      refine Bytes.word_congr fun j hj => Bytes.copy_of_mem _ _ (Nat.zero_le _) ?_
      simp only [sfsBlkNentry, sfsBlksize] at hi ⊢
      omega
    rw [hcopy, Bytes.word_ofWords hlt]
  have hdata := himg c K hc
  cases K with
  | inode =>
    rw [slot_inode] at hlt ⊢
    rw [diskSlot, if_pos rfl, hdata]
    have hi : i ≤ sfsNdirect + 1 := by
      unfold slotKind at hkind
      grind
    apply word_of_bytes hlt
    intro j hj
    simp only [sfsNdirect] at hi
    rw [closed, Bytes.copy_of_mem _ _ (Nat.zero_le _) (by simp only [MkInode.byteSize]; omega), Nat.sub_zero]
    unfold MkInode.toBytes MkInode.slot
    by_cases hdirect : i < sfsNdirect
    . have hdiv : (4 * (3 + i) + j - 12) / 4 = i := by omega
      have hmod : (4 * (3 + i) + j - 12) % 4 = j := by omega
      simp only [sfsNdirect] at hdirect
      rw [if_neg (by omega), if_neg (by omega), if_neg (by omega), if_neg (by omega), if_pos (by omega), hdiv, hmod,
        if_pos hdirect]
    . by_cases hind : i = sfsNdirect
      . subst hind
        have hsub : 4 * (3 + sfsNdirect) + j - 60 = j := by
          simp only [sfsNdirect]
          omega
        rw [if_neg (by omega), if_neg (by omega), if_neg (by omega), if_neg (by omega),
          if_neg (by simp only [sfsNdirect]; omega), if_pos (by simp only [sfsNdirect]; omega), hsub,
          if_neg hdirect, if_pos rfl]
      . have hsub : 4 * (3 + i) + j - 64 = j := by
          simp only [sfsNdirect] at hdirect hind
          omega
        simp only [sfsNdirect] at hdirect hind
        rw [if_neg (by omega), if_neg (by omega), if_neg (by omega), if_neg (by omega), if_neg (by omega),
          if_neg (by omega), hsub, if_neg hdirect, if_neg hind]
  | index1 =>
    refine hindex ?_ (by decide) hdata
    by_contra hge
    simp [slotKind, hge] at hkind
  | index2 =>
    refine hindex ?_ (by decide) hdata
    by_contra hge
    simp [slotKind, hge] at hkind
  | super => simp [slotKind] at hkind
  | freemap => simp [slotKind] at hkind
  | data => simp [slotKind] at hkind

/--
The image that is left behind when the books are right.
-/
theorem Shaped.written (h : s.Shaped g) (hroot : g.kind sfsBlknRoot = some .inode)
    (htotal : ∀ b < s.nextIno, g.kind b ≠ none) (hrun : closeSfs s = .ok () t)
    : Written t.img g t.ninos t.nextIno := by
  obtain ⟨ht, himg⟩ := closeSfs_ok h hrun
  have hninos : t.ninos = s.ninos := by rw [ht]
  have hnext : t.nextIno = s.nextIno := by rw [ht]
  have hslot : ∀ c K i K', g.kind c = some K → slotKind K i = some K' → diskSlot t.img K c i = s.slot K c i :=
    fun c K i K' hc hkind => diskSlot_closed h.books himg hc hkind
  have hsmall : s.ninos < 2 ^ 32 := by
    have := h.books.ninos_le
    simp only [sfsMaxNblks] at this
    omega
  have hsuper : t.img sfsBlknSuper = Bytes.zero.copy 0 s.super.toBytes MkSuper.byteSize :=
    himg 0 .super ((h.books.super 0).mpr rfl)
  have hbyte : ∀ i < MkSuper.byteSize, t.img sfsBlknSuper i = s.super.toBytes i := by
    intro i hi
    rw [hsuper, Bytes.copy_of_mem _ _ (Nat.zero_le _) (by omega), Nat.sub_zero]
  rw [hninos, hnext]
  refine ⟨h.books.ninos_le, h.books.nextIno_le, h.books.freemap_le, fun b => ⟨fun hb => ?_, htotal b⟩, hroot,
    h.books.super, h.books.freemap, ?_, ?_, ?_, ?_, ?_, ?_, ?_⟩
  . obtain ⟨K, hK⟩ := Option.ne_none_iff_exists'.mp hb
    exact h.books.lt b K hK
  . apply word_of_bytes (by decide)
    intro j hj
    rw [hbyte _ (by simp only [MkSuper.byteSize]; omega)]
    unfold MkSuper.toBytes
    rw [if_pos (by omega)]
    congr 1
    omega
  . apply word_of_bytes hsmall
    intro j hj
    rw [hbyte _ (by simp only [MkSuper.byteSize]; omega)]
    unfold MkSuper.toBytes
    rw [if_neg (by omega), if_pos (by omega), h.books.superBlocks]
    congr 1
    omega
  . apply word_of_bytes (by omega)
    intro j hj
    rw [hbyte _ (by simp only [MkSuper.byteSize]; omega)]
    unfold MkSuper.toBytes
    rw [if_neg (by omega), if_neg (by omega), if_pos (by omega), h.books.unusedBlocks]
    congr 1
    omega
  . intro b hb
    have hblock : b / sfsBlkbits < (s.ninos + sfsBlkbits - 1) / sfsBlkbits :=
      Nat.div_lt_of_lt_mul (by rwa [Nat.mul_comm])
    have hkind : g.kind (sfsBlknFreemap + b / sfsBlkbits) = some .freemap :=
      (h.books.freemap _).mpr ⟨Nat.le_add_right _ _, Nat.add_lt_add_left hblock _⟩
    have hmod : b % sfsBlkbits % wordBits = b % wordBits := by
      simp only [sfsBlkbits, sfsBlksize, wordBits]
      omega
    have hword : (t.img (sfsBlknFreemap + b / sfsBlkbits)).word (b % sfsBlkbits / wordBits) =
        (freemapBlock s.ninos s.nextIno (b / sfsBlkbits * sfsBlkbits) (b % sfsBlkbits / wordBits)).toNat := by
      rw [himg _ _ hkind, closed, Nat.add_sub_cancel_left,
        ← Bytes.word_ofWords (w := fun w => (freemapBlock s.ninos s.nextIno (b / sfsBlkbits * sfsBlkbits) w).toNat)
          (BitVec.isLt _)]
      refine Bytes.word_congr fun j hj => Bytes.copy_of_mem _ _ (Nat.zero_le _) ?_
      simp only [sfsBlkbits, sfsBlksize, wordBits]
      omega
    rw [hword, BitVec.ofNat_toNat, BitVec.setWidth_eq, ← hmod,
      getLsbD_freemapBlock (Nat.mod_lt _ (by decide)), Nat.div_add_mod']
  . intro c K i K' hc hkind hne
    rw [hslot c K i K' hc hkind] at hne ⊢
    exact h.books.holds c K i K' hc hkind hne
  . intro b K' hb h₁ h₂ h₃
    obtain ⟨K, hK, hkind, hown⟩ := h.books.held b K' hb h₁ h₂ h₃
    exact ⟨K, hK, hkind, (hslot _ K _ K' hK hkind).trans hown⟩
  . intro p hp k
    have hblocks : (SfsDiskInode.ofBytes (t.img p)).blocks = (s.inode p).nblks := by
      have hlt : (s.inode p).inode.blocks < 2 ^ 32 := by
        have := h.nblks_le p hp
        rw [h.blocks p hp]
        simp only [sfsLnNblks, sfsMaxFileSize, sfsBlksize] at this
        omega
      rw [← h.blocks p hp]
      show (t.img p).word 2 = (s.inode p).inode.blocks
      apply word_of_bytes hlt
      intro j hj
      rw [himg p _ hp, closed, Bytes.copy_of_mem _ _ (Nat.zero_le _) (by simp only [MkInode.byteSize]; omega),
        Nat.sub_zero]
      unfold MkInode.toBytes
      rw [if_neg (by omega), if_neg (by omega), if_neg (by omega), if_pos (by omega)]
      congr 1
      omega
    rw [hblocks]
    exact h.path p hp k

/--
Whatever directory of the host mksfs is given, in the image that it leaves every block below the first free one has
exactly one use, the inodes have the blocks that they count, and the superblock and the freemap agree with that.
-/
theorem createImg_written {stSize : Nat} {img : Nat → Bytes} {heap : Bytes} {host : Host} {home : HostDir}
    (hrun : createImg stSize img heap host home = some t)
    : ∃ g, Written t.img g t.ninos t.nextIno := by
  unfold createImg at hrun
  cases hcreate : createSfs stSize img heap with
  | error e => simp [hcreate] at hrun
  | ok s =>
    obtain ⟨g, hs, hroot, htotal⟩ := createSfs_ok hcreate
    simp only [hcreate] at hrun
    split at hrun
    next u hbuild =>
      obtain rfl := Option.some_inj.mp hrun
      obtain ⟨_, v, hopen, hclose⟩ := Prog.bind_run_eq_ok.mp hbuild
      obtain ⟨g', hv, hext⟩ := walks_openDir _ _ (walks_readDir host home _) s v g hs hroot hopen
      refine ⟨g', hv.written (hext.grows.kind _ _ hroot) (fun b hb hnone => ?_) hclose⟩
      have hb' := hext.settled b hb hnone
      obtain ⟨K, hK⟩ := Option.ne_none_iff_exists'.mp (htotal b hb')
      rw [hext.grows.kind b K hK] at hnone
      contradiction
    next => contradiction

/--
An image of five blocks has room for the empty directory.
-/
theorem createImg_empty
    : ∃ t, createImg 20480 (fun _ => Bytes.zero) Bytes.zero ⟨fun _ => 0, fun _ => Bytes.zero⟩ .nil = some t :=
  Option.isSome_iff_exists.mp (by decide +kernel)

theorem createImg_written_empty
    : ∃ t, createImg 20480 (fun _ => Bytes.zero) Bytes.zero ⟨fun _ => 0, fun _ => Bytes.zero⟩ .nil = some t ∧
        ∃ g, Written t.img g t.ninos t.nextIno := by
  obtain ⟨t, ht⟩ := createImg_empty
  exact ⟨t, ht, createImg_written ht⟩

end Mksfs

namespace Mksfs

open Mounting

variable {dev : Device} {g : Ledger} {ninos nextIno b : Nat} {t : Mksfs}

theorem Written.blocks_eq (h : Written dev.data g ninos nextIno) : (diskSuper dev).blocks = ninos := h.superBlocks

theorem Written.freemapBlocks (h : Written dev.data g ninos nextIno)
    : (diskSuper dev).freemapBlocks = (ninos + sfsBlkbits - 1) / sfsBlkbits := by
  rw [SfsSuper.freemapBlocks, h.blocks_eq]
  rfl

theorem Written.countable (h : Written dev.data g ninos nextIno) : Mounting.Countable (diskSuper dev) := by
  have hroot : sfsBlknRoot < nextIno := (h.kind sfsBlknRoot).mp (by rw [h.root]; exact Option.some_ne_none _)
  have hle := h.nextIno_le
  have hmax := h.ninos_le
  rw [Mounting.Countable, h.blocks_eq]
  simp only [sfsMaxNblks, sfsBlkbits, sfsBlksize] at *
  omega

theorem Written.bit_eq (h : Written dev.data g ninos nextIno) (hb : b < (diskSuper dev).freemapBits)
    : (diskFreemap dev).bit b = decide (nextIno ≤ b ∧ b < ninos) := by
  obtain ⟨hbits, -, -⟩ := h.countable.freemapBits
  rw [hbits, h.freemapBlocks] at hb
  rw [← h.bit b hb]
  have hword : Bytes.word (fun i => dev.data (sfsBlknFreemap + i / sfsBlksize) (i % sfsBlksize)) (b / wordBits) =
      (dev.data (sfsBlknFreemap + b / sfsBlkbits)).word (b % sfsBlkbits / wordBits) := by
    refine Bytes.toNat_congr fun j hj => ?_
    have hdiv : (4 * (b / wordBits) + j) / sfsBlksize = b / sfsBlkbits := by
      simp only [wordBits, sfsBlkbits, sfsBlksize]
      omega
    have hmod : (4 * (b / wordBits) + j) % sfsBlksize = 4 * (b % sfsBlkbits / wordBits) + j := by
      simp only [wordBits, sfsBlkbits, sfsBlksize]
      omega
    simp only [Bytes.drop_apply, hdiv, hmod]
  exact congrArg (fun w => (BitVec.ofNat 32 w).getLsbD (b % wordBits)) hword

theorem Written.mem_free (h : Written dev.data g ninos nextIno)
    : b ∈ (diskFreemap dev).free ↔ nextIno ≤ b ∧ b < ninos := by
  rw [Bitmap.mem_free]
  have hle : ninos ≤ (diskSuper dev).freemapBits := by
    obtain ⟨hbits, -, -⟩ := h.countable.freemapBits
    rw [hbits, h.freemapBlocks]
    simp only [sfsBlkbits, sfsBlksize]
    omega
  constructor
  . intro ⟨hlt, hbit⟩
    rwa [h.bit_eq hlt, decide_eq_true_iff] at hbit
  . intro hb
    have hlt : b < (diskSuper dev).freemapBits := Nat.lt_of_lt_of_le hb.2 hle
    exact ⟨hlt, by rw [h.bit_eq hlt, decide_eq_true_iff]; exact hb⟩

theorem Written.free_eq (h : Written dev.data g ninos nextIno)
    : (diskFreemap dev).free = List.range' nextIno (ninos - nextIno) := by
  have hperm : (diskFreemap dev).free.Perm (List.range' nextIno (ninos - nextIno)) := by
    rw [List.perm_ext_iff_of_nodup (diskFreemap dev).free_nodup List.nodup_range']
    intro b
    have hle := h.nextIno_le
    rw [h.mem_free, List.mem_range'_1]
    omega
  have hsorted : (diskFreemap dev).free.Pairwise (· ≤ ·) := (diskFreemap dev).free_sorted.imp Nat.le_of_lt
  exact hperm.eq_of_pairwise' hsorted (List.pairwise_le_range')

theorem Written.consistent (h : Written dev.data g ninos nextIno) : Consistent dev := by
  constructor
  . rw [h.free_eq, List.length_range']
    exact h.unusedBlocks.symm
  . intro b hb
    obtain ⟨hle, hlt⟩ := h.mem_free.mp hb
    rw [SfsSuper.DataBlock, h.freemapBlocks, h.blocks_eq]
    exact ⟨Nat.le_trans h.freemap_le hle, hlt⟩

/--
An image that mksfs has built mounts on every device that is as large, and what it has handed out is never handed out
again. Only missing memory and requests that fail stop the mount.
-/
theorem createImg_mounts {stSize : Nat} {img : Nat → Bytes} {heap : Bytes} {host : Host} {home : HostDir}
    (hrun : createImg stSize img heap host home = some t) (hdata : dev.data = t.img) (hle : t.ninos ≤ dev.dBlocks)
    (s : Mounting)
    : (sfsDoMount sfsBlksize dev s).Sat
        (fun _ u => ∃ sfs, u.fsStore = some sfs ∧ sfs.super.blocks = t.ninos ∧
          sfs.freemap.free = List.range' t.nextIno (t.ninos - t.nextIno) ∧
          sfs.super.unusedBlocks = t.ninos - t.nextIno ∧ sfs.AllocatorSafe)
        (fun _ u => Undone s u ∧
          ((∃ i < 5, s.mem.refuses i = true) ∨ s.env .super 0 ≠ none ∨ ∃ i < t.nextIno, s.env .freemap i ≠ none))
        (fun _ => False) := by
  obtain ⟨g, hwritten⟩ := createImg_written hrun
  rw [← hdata] at hwritten
  have hfreemap := hwritten.freemap_le
  have hnext := hwritten.nextIno_le
  have hblocks := hwritten.freemapBlocks
  apply (sfsDoMount_of_consistent hwritten.magic (hwritten.blocks_eq ▸ hle) ?_ hwritten.countable hwritten.consistent
    s).mono
  . rintro _ u ⟨sfs, hstore, hloaded, hfree, hsafe⟩
    exact ⟨sfs, hstore, hloaded.blocks.trans hwritten.blocks_eq, hfree.trans hwritten.free_eq,
      hloaded.unusedBlocks.trans hwritten.unusedBlocks, hsafe⟩
  . rintro _ u ⟨hundone, hrefused⟩
    refine ⟨hundone, hrefused.imp_right (Or.imp_right ?_)⟩
    rintro ⟨i, hi, hreq⟩
    rw [hblocks] at hi
    exact ⟨i, by omega, hreq⟩
  . exact fun _ h => h
  . rw [hblocks, hwritten.blocks_eq]
    omega

theorem createImg_mounts_empty
    : ∃ t, createImg 20480 (fun _ => Bytes.zero) Bytes.zero ⟨fun _ => 0, fun _ => Bytes.zero⟩ .nil = some t ∧
        (sfsDoMount sfsBlksize ⟨t.ninos, t.img⟩ ⟨⟨[], fun _ => false⟩, Faults.never, none⟩).Sat
          (fun _ u => ∃ sfs, u.fsStore = some sfs ∧ sfs.super.blocks = t.ninos ∧
            sfs.freemap.free = List.range' t.nextIno (t.ninos - t.nextIno) ∧
            sfs.super.unusedBlocks = t.ninos - t.nextIno ∧ sfs.AllocatorSafe)
          (fun _ u => Undone ⟨⟨[], fun _ => false⟩, Faults.never, none⟩ u ∧
            ((∃ i < 5, false = true) ∨ (none : Option Errno) ≠ none ∨ ∃ i < t.nextIno, (none : Option Errno) ≠ none))
          (fun _ => False) := by
  obtain ⟨t, ht⟩ := createImg_empty
  exact ⟨t, ht, createImg_mounts ht rfl (Nat.le_refl _) _⟩

end Mksfs
end Ucore

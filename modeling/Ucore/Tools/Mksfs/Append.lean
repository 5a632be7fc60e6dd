import Ucore.Tools.Mksfs.Ledger

/-!
This module contains how mksfs enters a block into the block map of an inode: what is in the ledger stays
there, and the blocks that are needed on the way are entered too.
-/

namespace Ucore
namespace Mksfs

def alloced (s : Mksfs) : Mksfs :=
  { s with
    super := { s.super with unusedBlocks := dec32 s.super.unusedBlocks }
    nextIno := s.nextIno + 1 }

def newCache (s : Mksfs) (cb : Nat) : Mksfs :=
  { s with
    cache := Function.update s.cache cb fun _ => 0
    blocks := Function.update s.blocks (hash32 0) (cb :: s.blocks (hash32 0)) }

/--
What is in an inode beside its pointers.
-/
structure SameFile (ci ci' : CacheInode) : Prop where
  real : ci'.real = ci.real
  ino : ci'.ino = ci.ino
  nblks : ci'.nblks = ci.nblks
  size : ci'.inode.size = ci.inode.size
  type : ci'.inode.type = ci.inode.type
  nlinks : ci'.inode.nlinks = ci.inode.nlinks
  blocks : ci'.inode.blocks = ci.inode.blocks

theorem SameFile.refl (ci : CacheInode) : SameFile ci ci := ⟨rfl, rfl, rfl, rfl, rfl, rfl, rfl⟩

theorem SameFile.trans {ci ci' ci'' : CacheInode} (h : SameFile ci ci') (h' : SameFile ci' ci'')
    : SameFile ci ci'' :=
  ⟨h'.real.trans h.real, h'.ino.trans h.ino, h'.nblks.trans h.nblks, h'.size.trans h.size,
    h'.type.trans h.type, h'.nlinks.trans h.nlinks, h'.blocks.trans h.blocks⟩

/--
Blocks for pointers have been handed out and entered, nothing else has changed.
-/
structure Pointed (s t : Mksfs) (g g' : Ledger) : Prop where
  grows : g.Grows g'
  ninos : t.ninos = s.ninos
  nextIno : s.nextIno ≤ t.nextIno
  img : t.img = s.img
  entry : t.entry = s.entry
  inodes : t.inodes = s.inodes
  file : ∀ p, SameFile (s.inode p) (t.inode p)
  pending : ∀ b < s.nextIno, g.kind b = none → g'.kind b = none
  settled : ∀ b < t.nextIno, g'.kind b = none → b < s.nextIno
  data : ∀ b, g'.kind b = some .data → g.kind b = some .data

variable {s t : Mksfs} {g g' : Ledger} {b p c i j cb cb2 ino : Nat} {K K' : BlockKind}

theorem Pointed.trans {u : Mksfs} {g'' : Ledger} (h : s.Pointed t g g') (h' : t.Pointed u g' g'')
    : s.Pointed u g g'' := by
  refine ⟨h.grows.trans h'.grows, h'.ninos.trans h.ninos, Nat.le_trans h.nextIno h'.nextIno,
    h'.img.trans h.img, h'.entry.trans h.entry, h'.inodes.trans h.inodes,
    fun p => (h.file p).trans (h'.file p), ?_, ?_, ?_⟩
  . intro b hb hnone
    exact h'.pending b (Nat.lt_of_lt_of_le hb h.nextIno) (h.pending b hb hnone)
  . intro b hb hnone
    have hlt := h'.settled b hb hnone
    apply h.settled b hlt
    cases hkind : g'.kind b with
    | none => rfl
    | some K =>
      rw [h'.grows.kind b K hkind] at hnone
      contradiction
  . exact fun b hb => h.data b (h'.data b hb)

theorem slot_inode : s.slot .inode p i = (s.inode p).inode.slot i := if_pos rfl

theorem slot_of_ne (h : K ≠ .inode) : s.slot K c i = s.cache c i := if_neg h

@[simp]
theorem setInode_self (f : CacheInode → CacheInode) : (s.setInode p f).inode p = f (s.inode p) := by
  simp [setInode]

@[simp]
theorem setInode_of_ne (f : CacheInode → CacheInode) {q : Nat} (h : q ≠ p)
    : (s.setInode p f).inode q = s.inode q := by
  simp [setInode, h]

theorem hash32_lt (n : Nat) : hash32 n < hashListSize := by
  unfold hash32 Ucore.hash32
  rw [BitVec.toNat_ushiftRight, Nat.shiftRight_eq_div_pow]
  have := (BitVec.ofNat 32 n * 0x9e370001).isLt
  simp only [hashListSize, hashShift] at this ⊢
  omega

theorem hash64_lt (n : Nat) : hash64 n < hashListSize := hash32_lt n

theorem isCached_newCache {x : Nat} : (s.newCache cb).IsCached x ↔ s.IsCached x ∨ x = cb := by
  constructor
  . intro ⟨i, hi, hx⟩
    by_cases hi0 : i = hash32 0
    . subst hi0
      simp only [newCache, Function.update_self] at hx
      cases List.mem_cons.mp hx with
      | inl heq => exact .inr heq
      | inr hmem => exact .inl ⟨_, hi, hmem⟩
    . simp only [newCache, Function.update_of_ne hi0] at hx
      exact .inl ⟨i, hi, hx⟩
  . intro hx
    cases hx with
    | inl hx =>
      obtain ⟨i, hi, hx⟩ := hx
      refine ⟨i, hi, ?_⟩
      by_cases hi0 : i = hash32 0
      . subst hi0
        simp [newCache, hx]
      . simp [newCache, hi0, hx]
    | inr heq =>
      exact ⟨hash32 0, hash32_lt 0, by simp [newCache, heq]⟩

theorem sfsAllocIno_ok (hrun : sfsAllocIno s = .ok b t)
    : b = s.nextIno ∧ s.nextIno < s.ninos ∧ t = s.alloced := by
  simp only [sfsAllocIno, Prog.get_bind_run] at hrun
  split at hrun
  next hlt =>
    simp only [Prog.modify_bind_run, Prog.pure_run, Outcome.ok.injEq] at hrun
    exact ⟨hrun.1.symm, hlt, hrun.2.symm⟩
  . simp at hrun

section Alloced

@[simp]
theorem alloced_ninos : s.alloced.ninos = s.ninos := rfl

@[simp]
theorem alloced_nextIno : s.alloced.nextIno = s.nextIno + 1 := rfl

@[simp]
theorem alloced_inode : s.alloced.inode = s.inode := rfl

@[simp]
theorem alloced_inodes : s.alloced.inodes = s.inodes := rfl

@[simp]
theorem alloced_cache : s.alloced.cache = s.cache := rfl

@[simp]
theorem alloced_blocks : s.alloced.blocks = s.blocks := rfl

@[simp]
theorem alloced_entry : s.alloced.entry = s.entry := rfl

@[simp]
theorem alloced_img : s.alloced.img = s.img := rfl

@[simp]
theorem alloced_slot : s.alloced.slot K c i = s.slot K c i := by
  simp only [slot, alloced_inode, alloced_cache]

@[simp]
theorem alloced_isCached : s.alloced.IsCached b ↔ s.IsCached b := by
  simp only [IsCached, alloced_blocks]

@[simp]
theorem alloced_isInode : s.alloced.IsInode b ↔ s.IsInode b := by
  simp only [IsInode, alloced_inodes]

end Alloced

theorem Inv.alloced (h : s.Inv g) (hlt : s.nextIno < s.ninos) : s.alloced.Inv g := by
  have hmax := h.ninos_le
  have hunused := h.unusedBlocks
  have hfreemap := h.freemap_le
  have hnfreemap : s.alloced.nfreemap = s.nfreemap := by
    simp only [nfreemap, alloced_ninos]
  simp only [sfsMaxNblks] at hmax
  constructor
  . simpa using hmax
  . rw [hnfreemap, alloced_nextIno]
    omega
  . rw [alloced_nextIno, alloced_ninos]
    exact hlt
  . rw [alloced_ninos]
    simpa only [Mksfs.alloced] using h.superBlocks
  . simp only [Mksfs.alloced, hunused, dec32]
    split <;> omega
  . intro b K hb
    rw [alloced_nextIno]
    exact Nat.lt_succ_of_lt (h.lt b K hb)
  . exact h.super
  . rw [hnfreemap]
    exact h.freemap
  . simpa using h.inode
  . simpa using h.cached
  . simpa using h.holds
  . simpa using h.held

/--
The block that is handed out next is not in the ledger.
-/
theorem Inv.fresh (h : s.Inv g) (hle : s.nextIno ≤ b) : g.kind b = none := by
  cases hkind : g.kind b with
  | none => rfl
  | some K => exact absurd (h.lt b K hkind) (Nat.not_lt.mpr hle)

theorem updateCache_ok {l : Option Nat} (hrun : updateCache l ino s = .ok cb t)
    : ino ≠ 0 ∧ cb = ino ∧ t = s ∨
      ino = 0 ∧ cb = s.nextIno ∧ s.nextIno < s.ninos ∧ t = s.alloced.newCache s.nextIno := by
  unfold updateCache at hrun
  split at hrun
  next hzero =>
    simp only [allocCacheBlock, ne_eq, not_true_eq_false, if_false] at hrun
    obtain ⟨b, u, halloc, hrun⟩ := Prog.bind_run_eq_ok.mp hrun
    obtain ⟨rfl, hlt, rfl⟩ := sfsAllocIno_ok halloc
    simp only [Prog.modify_bind_run, Prog.pure_run, Outcome.ok.injEq] at hrun
    exact .inr ⟨hzero, hrun.1.symm, hlt, hrun.2.symm⟩
  next hne =>
    left
    split at hrun
    . simp only [Prog.pure_run, Outcome.ok.injEq] at hrun
      exact ⟨hne, hrun.1.symm, hrun.2.symm⟩
    . rw [Prog.get_bind_run] at hrun
      obtain ⟨_, u, hassert, hrest⟩ := Prog.bind_run_eq_ok.mp hrun
      obtain ⟨-, rfl⟩ := Prog.assert_run_eq_ok.mp hassert
      simp only [Prog.pure_run, Outcome.ok.injEq] at hrest
      exact ⟨hne, hrest.1.symm, hrest.2.symm⟩

/--
A new block is named by a place that has been empty.
-/
theorem Pointed.of_set (h : s.Inv g) (hlt : s.nextIno < t.nextIno) (hnext : t.nextIno = s.nextIno + 1)
    (hninos : t.ninos = s.ninos) (himg : t.img = s.img) (hentry : t.entry = s.entry)
    (hinodes : t.inodes = s.inodes) (hfile : ∀ p, SameFile (s.inode p) (t.inode p)) (hK : K ≠ .data)
    : s.Pointed t g (g.set s.nextIno K c i) := by
  refine ⟨Ledger.grows_set (h.fresh (Nat.le_refl _)) K c i, hninos, Nat.le_of_lt hlt, himg, hentry,
    hinodes, hfile, ?_, ?_, ?_⟩
  . intro b hb hnone
    rw [Ledger.set_kind_of_ne (Nat.ne_of_lt hb)]
    exact hnone
  . intro b hb hnone
    by_cases heq : b = s.nextIno
    . subst heq
      rw [Ledger.set_kind_self] at hnone
      contradiction
    . omega
  . intro b hb
    by_cases heq : b = s.nextIno
    . subst heq
      rw [Ledger.set_kind_self, Option.some_inj] at hb
      exact absurd hb hK
    . rwa [Ledger.set_kind_of_ne heq] at hb

theorem Pointed.of_same (hninos : t.ninos = s.ninos) (hnext : t.nextIno = s.nextIno)
    (himg : t.img = s.img) (hentry : t.entry = s.entry) (hinodes : t.inodes = s.inodes)
    (hfile : ∀ p, SameFile (s.inode p) (t.inode p))
    : s.Pointed t g g :=
  ⟨Ledger.Grows.refl g, hninos, Nat.le_of_eq hnext.symm, himg, hentry, hinodes, hfile,
    fun _ _ => id, fun _ hb _ => hnext ▸ hb, fun _ => id⟩

theorem sameFile_setInode {f : CacheInode → CacheInode} (hf : SameFile (s.inode p) (f (s.inode p)))
    (q : Nat)
    : SameFile (s.inode q) ((s.setInode p f).inode q) := by
  by_cases hq : q = p
  . subst hq
    rw [setInode_self]
    exact hf
  . rw [setInode_of_ne f hq]
    exact SameFile.refl _

/--
The place `i` of block `c` is the only one that has changed.
-/
structure SetSlot (u t : Mksfs) (K : BlockKind) (c i ino : Nat) : Prop where
  ninos : t.ninos = u.ninos
  nextIno : t.nextIno = u.nextIno
  super : t.super = u.super
  inodes : t.inodes = u.inodes
  blocks : t.blocks = u.blocks
  img : t.img = u.img
  entry : t.entry = u.entry
  file : ∀ p, SameFile (u.inode p) (t.inode p)
  slot : t.slot K c i = ino
  keep : ∀ K₁ c₁ i₁, slotKind K₁ i₁ ≠ none → ¬(c₁ = c ∧ i₁ = i) → t.slot K₁ c₁ i₁ = u.slot K₁ c₁ i₁

theorem setSlot_setCache (s : Mksfs) (c i ino : Nat) (hK : K ≠ .inode)
    : SetSlot s (s.setCache c i ino) K c i ino := by
  refine ⟨rfl, rfl, rfl, rfl, rfl, rfl, rfl, fun p => SameFile.refl _, ?_, ?_⟩
  . rw [slot_of_ne hK]
    simp [setCache]
  . intro K₁ c₁ i₁ _ hplace
    by_cases hK₁ : K₁ = .inode
    . rw [slot, slot, if_pos hK₁, if_pos hK₁]
      simp [setCache]
    . rw [slot_of_ne hK₁, slot_of_ne hK₁]
      by_cases hc : c₁ = c
      . subst hc
        have hi : i₁ ≠ i := fun hi => hplace ⟨rfl, hi⟩
        simp [setCache, hi]
      . simp [setCache, hc]

theorem setSlot_setInode {f : CacheInode → CacheInode} (hf : SameFile (s.inode p) (f (s.inode p)))
    (hslot : (f (s.inode p)).inode.slot i = ino)
    (hkeep : ∀ j, slotKind .inode j ≠ none → j ≠ i →
      (f (s.inode p)).inode.slot j = (s.inode p).inode.slot j)
    : SetSlot s (s.setInode p f) .inode p i ino := by
  refine ⟨rfl, rfl, rfl, rfl, rfl, rfl, rfl, sameFile_setInode hf, ?_, ?_⟩
  . rw [slot_inode, setInode_self]
    exact hslot
  . intro K₁ c₁ i₁ hkind hplace
    by_cases hK₁ : K₁ = .inode
    . subst hK₁
      rw [slot_inode, slot_inode]
      by_cases hc : c₁ = p
      . subst hc
        rw [setInode_self]
        exact hkeep i₁ hkind fun hi => hplace ⟨rfl, hi⟩
      . rw [setInode_of_ne f hc]
    . rw [slot_of_ne hK₁, slot_of_ne hK₁]
      rfl

namespace SetSlot

theorem sameBooks (h : SetSlot s t K c i ino) : s.SameBooks t := ⟨h.ninos, h.nextIno, h.super, h.inodes⟩

theorem isCached (h : SetSlot s t K c i ino) : t.IsCached b ↔ s.IsCached b := by
  rw [IsCached, h.blocks, IsCached]

end SetSlot

theorem slot_newCache_of_ne (hc : c ≠ cb) : (s.newCache cb).slot K c i = s.slot K c i := by
  unfold slot
  split
  . rfl
  . simp [newCache, hc]

theorem slot_newCache_self (hK : K ≠ .inode) : (s.newCache cb).slot K cb i = 0 := by
  rw [slot_of_ne hK]
  simp [newCache]

/--
A block for pointers is where a place names it, if need be a new one.
-/
theorem Inv.enter {u : Mksfs} (h : s.Inv g) (hc : g.kind c = some K) (hkind : slotKind K i = some K')
    (hindex : K' ≠ .data)
    (hcb : s.slot K c i ≠ 0 ∧ cb = s.slot K c i ∧ u = s ∨
      s.slot K c i = 0 ∧ cb = s.nextIno ∧ s.nextIno < s.ninos ∧ u = s.alloced.newCache s.nextIno)
    (hset : SetSlot u t K c i cb)
    : ∃ g', t.Inv g' ∧ s.Pointed t g g' ∧ g'.kind cb = some K' ∧ g'.own cb = (c, i) := by
  cases hcb with
  | inl hold =>
    -- the place names a block already
    obtain ⟨hne, rfl, rfl⟩ := hold
    refine ⟨g, ?_, ?_, (h.holds c K i K' hc hkind hne)⟩
    . apply h.congr hset.sameBooks
      . exact fun x => hset.isCached
      . intro K₁ c₁ i₁ hc₁ hkind₁
        by_cases hplace : c₁ = c ∧ i₁ = i
        . obtain ⟨rfl, rfl⟩ := hplace
          rw [hc, Option.some_inj] at hc₁
          rw [← hc₁, hset.slot]
        . exact hset.keep K₁ c₁ i₁ hkind₁ hplace
    . exact Pointed.of_same hset.ninos hset.nextIno hset.img hset.entry hset.inodes hset.file
  | inr hnew =>
    obtain ⟨hzero, rfl, hlt, rfl⟩ := hnew
    have hfresh : g.kind s.nextIno = none := h.fresh (Nat.le_refl _)
    have hne : ∀ x K₁, g.kind x = some K₁ → x ≠ s.nextIno := by
      intro x K₁ hx
      exact Nat.ne_of_lt (h.lt x K₁ hx)
    have hK' : K' ≠ .inode := by
      rintro rfl
      unfold slotKind at hkind
      cases K <;> grind
    refine ⟨g.set s.nextIno K' c i, ?_, ?_, Ledger.set_kind_self, Ledger.set_own_self⟩
    . apply (h.alloced hlt).set hc hkind
      . rw [alloced_slot, hzero]
      . rw [alloced_nextIno]
        exact Nat.lt_succ_self _
      . exact hfresh
      . exact ⟨hset.ninos, hset.nextIno, hset.super, hset.inodes⟩
      . intro x
        rw [hset.isCached, isCached_newCache]
        simp [hindex]
      . exact hset.slot
      . intro K₁ c₁ i₁ hc₁ hkind₁ hplace
        rw [hset.keep K₁ c₁ i₁ hkind₁ hplace, slot_newCache_of_ne (hne c₁ K₁ hc₁)]
      . intro _ j hj
        rw [hset.keep K' s.nextIno j hj, slot_newCache_self hK']
        intro hplace
        exact hne c K hc hplace.1.symm
    . have hnext : t.nextIno = s.nextIno + 1 := hset.nextIno
      apply Pointed.of_set h
      . omega
      . exact hnext
      . exact hset.ninos
      . exact hset.img
      . exact hset.entry
      . exact hset.inodes
      . exact hset.file
      . exact hindex

theorem slot_indirect : s.slot .inode p sfsNdirect = (s.inode p).inode.indirect := rfl

theorem slot_dbIndirect : s.slot .inode p (sfsNdirect + 1) = (s.inode p).inode.dbIndirect := rfl

theorem indirectCache_ok (h : s.Inv g) (hp : g.kind p = some .inode)
    (hrun : indirectCache p s = .ok cb t)
    : ∃ g', t.Inv g' ∧ s.Pointed t g g' ∧ g'.kind cb = some .index1 ∧ g'.own cb = (p, sfsNdirect) := by
  simp only [indirectCache, Prog.get_bind_run] at hrun
  obtain ⟨x, u, hupdate, hrest⟩ := Prog.bind_run_eq_ok.mp hrun
  simp only [Prog.modify_bind_run, Prog.pure_run, Outcome.ok.injEq] at hrest
  obtain ⟨rfl, rfl⟩ := hrest
  apply h.enter hp slotKind_indirect (by decide)
  . rw [slot_indirect]
    exact updateCache_ok hupdate
  . apply setSlot_setInode
    . exact ⟨rfl, rfl, rfl, rfl, rfl, rfl, rfl⟩
    . rfl
    . intro j _ hj
      simp [MkInode.slot, hj]

theorem dbIndirectCache_ok (h : s.Inv g) (hp : g.kind p = some .inode)
    (hrun : dbIndirectCache p s = .ok cb t)
    : ∃ g', t.Inv g' ∧ s.Pointed t g g' ∧ g'.kind cb = some .index2 ∧
      g'.own cb = (p, sfsNdirect + 1) := by
  simp only [dbIndirectCache, Prog.get_bind_run] at hrun
  obtain ⟨x, u, hupdate, hrest⟩ := Prog.bind_run_eq_ok.mp hrun
  simp only [Prog.modify_bind_run, Prog.pure_run, Outcome.ok.injEq] at hrest
  obtain ⟨rfl, rfl⟩ := hrest
  apply h.enter hp slotKind_dbIndirect (by decide)
  . rw [slot_dbIndirect]
    exact updateCache_ok hupdate
  . apply setSlot_setInode
    . exact ⟨rfl, rfl, rfl, rfl, rfl, rfl, rfl⟩
    . rfl
    . intro j hkind hj
      -- the two places behind are those of the indirect blocks
      have hlt : j < sfsNdirect ∨ j = sfsNdirect := by
        unfold slotKind at hkind
        grind
      unfold MkInode.slot
      cases hlt with
      | inl hlt => rw [if_pos hlt, if_pos hlt]
      | inr heq =>
        rw [heq]
        rfl

theorem entryCache_ok (h : s.Inv g) (hcb2 : g.kind cb2 = some .index2) (hj : j < sfsBlkNentry)
    (hrun : entryCache p cb2 j s = .ok cb t)
    : ∃ g', t.Inv g' ∧ s.Pointed t g g' ∧ g'.kind cb = some .index1 ∧ g'.own cb = (cb2, j) := by
  simp only [entryCache, Prog.get_bind_run] at hrun
  obtain ⟨x, u, hupdate, hrest⟩ := Prog.bind_run_eq_ok.mp hrun
  simp only [Prog.modify_bind_run, Prog.pure_run, Outcome.ok.injEq] at hrest
  obtain ⟨rfl, rfl⟩ := hrest
  apply h.enter hcb2 (slotKind_index2 hj) (by decide)
  . rw [slot_of_ne (by decide)]
    exact updateCache_ok hupdate
  . have hset := setSlot_setCache (u.setInode p fun ci => { ci with l1 := some x }) cb2 j x
      (show BlockKind.index2 ≠ .inode by decide)
    have hfile : ∀ q, SameFile (u.inode q)
        ((u.setInode p fun ci => { ci with l1 := some x }).inode q) :=
      sameFile_setInode ⟨rfl, rfl, rfl, rfl, rfl, rfl, rfl⟩
    refine ⟨rfl, rfl, rfl, rfl, rfl, rfl, rfl, fun q => (hfile q).trans (hset.file q), hset.slot, ?_⟩
    intro K₁ c₁ i₁ hkind hplace
    rw [hset.keep K₁ c₁ i₁ hkind hplace]
    unfold slot
    split
    . by_cases hc : c₁ = p
      . subst hc
        rw [setInode_self]
      . rw [setInode_of_ne _ hc]
    . rfl

/--
Block `ino` has become block `n` of inode `p`.
-/
structure Entered (s t : Mksfs) (g g' : Ledger) (p n ino : Nat) : Prop where
  grows : g.Grows g'
  ninos : t.ninos = s.ninos
  nextIno : s.nextIno ≤ t.nextIno
  img : t.img = s.img
  entry : t.entry = s.entry
  inodes : t.inodes = s.inodes
  file : ∀ q, SameFile (s.inode q) (t.inode q)
  pending : ∀ b < s.nextIno, b ≠ ino → g.kind b = none → g'.kind b = none
  settled : ∀ b < t.nextIno, g'.kind b = none → b < s.nextIno
  data : ∀ b, g'.kind b = some .data → g.kind b = some .data ∨ b = ino
  path : g'.Path ino p n

/--
The block goes to a place of `c` that is known to be block `n` of the file.
-/
theorem Inv.enterData {u : Mksfs} {g₁ : Ledger} {n : Nat} (h : s.Inv g) (hu : u.Inv g₁)
    (hpointed : s.Pointed u g g₁) (hino : ino < s.nextIno) (hnone : g.kind ino = none)
    (hempty : ∀ b, ¬g.Path b p n) (hc : g₁.kind c = some K) (hkind : slotKind K i = some .data)
    (hpath : ∀ g' b, g₁.Grows g' → g'.kind b = some .data → g'.own b = (c, i) → g'.Path b p n)
    (hset : SetSlot u t K c i ino)
    : ∃ g', t.Inv g' ∧ s.Entered t g g' p n ino := by
  have hnone₁ : g₁.kind ino = none := hpointed.pending ino hino hnone
  have hgrows : g₁.Grows (g₁.set ino .data c i) := Ledger.grows_set hnone₁ _ _ _
  -- a block that is there already would be a block of the file that is in the ledger from the start
  have hzero : u.slot K c i = 0 := by
    by_contra hne
    obtain ⟨hdata, hown⟩ := hu.holds c K i .data hc hkind hne
    have hthere := hpath g₁ _ (Ledger.Grows.refl g₁) hdata hown
    obtain ⟨q, k, hold⟩ := h.exists_path (hpointed.data _ hdata)
    obtain ⟨rfl, rfl⟩ := (hpointed.grows.path hold).unique hthere
    exact hempty _ hold
  refine ⟨g₁.set ino .data c i, ?_, ?_⟩
  . apply hu.set hc hkind hzero
    . exact Nat.lt_of_lt_of_le hino hpointed.nextIno
    . exact hnone₁
    . exact hset.sameBooks
    . intro x
      rw [hset.isCached]
      simp
    . exact hset.slot
    . intro K₁ c₁ i₁ _ hkind₁ hplace
      exact hset.keep K₁ c₁ i₁ hkind₁ hplace
    . exact fun habs => absurd rfl habs
  . constructor
    . exact hpointed.grows.trans hgrows
    . exact hset.ninos.trans hpointed.ninos
    . rw [hset.nextIno]
      exact hpointed.nextIno
    . exact hset.img.trans hpointed.img
    . exact hset.entry.trans hpointed.entry
    . exact hset.inodes.trans hpointed.inodes
    . exact fun q => (hpointed.file q).trans (hset.file q)
    . intro b hb hne hb₁
      rw [Ledger.set_kind_of_ne hne]
      exact hpointed.pending b hb hb₁
    . intro b hb hb₁
      by_cases heq : b = ino
      . exact heq ▸ hino
      . rw [Ledger.set_kind_of_ne heq] at hb₁
        rw [hset.nextIno] at hb
        exact hpointed.settled b hb hb₁
    . intro b hb
      by_cases heq : b = ino
      . exact .inr heq
      . rw [Ledger.set_kind_of_ne heq] at hb
        exact .inl (hpointed.data b hb)
    . exact hpath _ ino hgrows Ledger.set_kind_self Ledger.set_own_self

theorem appendPointer_ok {n : Nat} (h : s.Inv g) (hp : g.kind p = some .inode) (hn : n < sfsL2Nblks)
    (hino : ino < s.nextIno) (hnone : g.kind ino = none) (hempty : ∀ b, ¬g.Path b p n)
    (hrun : appendPointer p n ino s = .ok () t)
    : ∃ g', t.Inv g' ∧ s.Entered t g g' p n ino := by
  unfold appendPointer at hrun
  split at hrun
  next hdirect =>
    simp only [Prog.modify_run, Outcome.ok.injEq, true_and] at hrun
    subst hrun
    apply h.enterData h (Pointed.of_same rfl rfl rfl rfl rfl fun _ => SameFile.refl _) hino hnone hempty
      hp (slotKind_direct hdirect)
    . intro g' b hgrows hb hown
      exact .direct (hgrows.kind _ _ hp) hb hown hdirect
    . apply setSlot_setInode
      . exact ⟨rfl, rfl, rfl, rfl, rfl, rfl, rfl⟩
      . simp [MkInode.slot, hdirect]
      . intro j _ hj
        simp [MkInode.slot, hj]
  next hdirect =>
    split at hrun
    next hl1 =>
      obtain ⟨x, u, hcache, hrest⟩ := Prog.bind_run_eq_ok.mp hrun
      simp only [Prog.modify_run, Outcome.ok.injEq, true_and] at hrest
      subst hrest
      obtain ⟨g₁, hu, hpointed, hx, hownx⟩ := indirectCache_ok h hp hcache
      have hi : n - sfsNdirect < sfsBlkNentry := by
        simp only [sfsL1Nblks] at hl1
        omega
      apply h.enterData hu hpointed hino hnone hempty hx (slotKind_index1 hi)
      . intro g' b hgrows hb hown
        have hx' := hgrows.kept hx hownx
        have := Ledger.Path.indirect (hgrows.kind _ _ (hpointed.grows.kind _ _ hp)) hx'.1 hx'.2 hb hown hi
        rwa [Nat.add_sub_cancel' (Nat.not_lt.mp hdirect)] at this
      . apply setSlot_setCache
        decide
    next hl1 =>
      rw [Prog.when_pos hn] at hrun
      obtain ⟨y, u₁, hcache₂, hrest⟩ := Prog.bind_run_eq_ok.mp hrun
      obtain ⟨x, u, hcache, hrest⟩ := Prog.bind_run_eq_ok.mp hrest
      simp only [Prog.modify_run, Outcome.ok.injEq, true_and] at hrest
      subst hrest
      have hj : (n - sfsL1Nblks) / sfsBlkNentry < sfsBlkNentry := by
        simp only [sfsL2Nblks] at hn
        exact Nat.div_lt_of_lt_mul (by omega)
      have hi : (n - sfsL1Nblks) % sfsBlkNentry < sfsBlkNentry := Nat.mod_lt _ (by decide)
      obtain ⟨g₁, hu₁, hpointed₁, hy, howny⟩ := dbIndirectCache_ok h hp hcache₂
      obtain ⟨g₂, hu, hpointed₂, hx, hownx⟩ := entryCache_ok hu₁ hy hj hcache
      have hpointed := hpointed₁.trans hpointed₂
      apply h.enterData hu hpointed hino hnone hempty hx (slotKind_index1 hi)
      . intro g' b hgrows hb hown
        have hx' := hgrows.kept hx hownx
        have hy' := (hpointed₂.grows.trans hgrows).kept hy howny
        have := Ledger.Path.dbIndirect (hgrows.kind _ _ (hpointed.grows.kind _ _ hp)) hy'.1 hy'.2 hx'.1
          hx'.2 hj hb hown hi
        rwa [Nat.div_add_mod, Nat.add_sub_cancel' (Nat.not_lt.mp hl1)] at this
      . apply setSlot_setCache
        decide

end Mksfs
end Ucore

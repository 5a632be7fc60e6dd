import Mathlib
import Ucore.Tools.Mksfs.Impl

/-!
This module contains the ledger of the blocks that mksfs hands out: what each block is used for and the
place that names it.
-/

namespace Ucore

/--
`index1` has the numbers of data blocks, `index2` those of blocks of the first kind.
-/
inductive BlockKind where
  | super
  | freemap
  | inode
  | index1
  | index2
  | data
  deriving DecidableEq

/--
What the place `i` of a block names. In an inode the indirect block comes behind the direct ones.
-/
def slotKind : BlockKind → Nat → Option BlockKind
  | .inode, i =>
    if i < sfsNdirect then some .data
    else if i = sfsNdirect then some .index1
    else if i = sfsNdirect + 1 then some .index2
    else none
  | .index1, i => if i < sfsBlkNentry then some .data else none
  | .index2, i => if i < sfsBlkNentry then some .index1 else none
  | _, _ => none

def MkInode.slot (inode : MkInode) (i : Nat) : Nat :=
  if i < sfsNdirect then
    inode.direct i
  else if i = sfsNdirect then
    inode.indirect
  else
    inode.dbIndirect

/--
The kind of each block that is in use, and the place that names it.
-/
structure Ledger where
  kind : Nat → Option BlockKind
  own : Nat → Nat × Nat

namespace Ledger

/--
Block `b` is block `k` of inode `p`.
-/
inductive Path (g : Ledger) : Nat → Nat → Nat → Prop where
  | direct {b p k : Nat} (hp : g.kind p = some .inode) (hb : g.kind b = some .data)
    (hown : g.own b = (p, k)) (hk : k < sfsNdirect) : Path g b p k
  | indirect {b p x i : Nat} (hp : g.kind p = some .inode) (hx : g.kind x = some .index1)
    (hownx : g.own x = (p, sfsNdirect)) (hb : g.kind b = some .data) (hown : g.own b = (x, i))
    (hi : i < sfsBlkNentry) : Path g b p (sfsNdirect + i)
  | dbIndirect {b p y x i j : Nat} (hp : g.kind p = some .inode) (hy : g.kind y = some .index2)
    (howny : g.own y = (p, sfsNdirect + 1)) (hx : g.kind x = some .index1) (hownx : g.own x = (y, j))
    (hj : j < sfsBlkNentry) (hb : g.kind b = some .data) (hown : g.own b = (x, i))
    (hi : i < sfsBlkNentry) : Path g b p (sfsL1Nblks + (sfsBlkNentry * j + i))

variable {g g' : Ledger} {b p q k j : Nat}

/--
A block is at one place of one inode.
-/
theorem Path.unique (h : g.Path b p k) (h' : g.Path b q j) : p = q ∧ k = j := by
  cases h with
  | direct hp hb hown hk =>
    cases h' with
    | direct hq hb' hown' hk' =>
      rw [hown, Prod.mk.injEq] at hown'
      exact hown'
    | indirect hq hx hownx hb' hown' hi =>
      rw [hown, Prod.mk.injEq] at hown'
      rw [hown'.1, hx] at hp
      contradiction
    | dbIndirect hq hy howny hx hownx hj hb' hown' hi =>
      rw [hown, Prod.mk.injEq] at hown'
      rw [hown'.1, hx] at hp
      contradiction
  | indirect hp hx hownx hb hown hi =>
    cases h' with
    | direct hq hb' hown' hk' =>
      rw [hown, Prod.mk.injEq] at hown'
      rw [hown'.1, hq] at hx
      contradiction
    | indirect hq hx' hownx' hb' hown' hi' =>
      rw [hown, Prod.mk.injEq] at hown'
      obtain ⟨rfl, rfl⟩ := hown'
      rw [hownx, Prod.mk.injEq] at hownx'
      exact ⟨hownx'.1, rfl⟩
    | dbIndirect hq hy' howny' hx' hownx' hj' hb' hown' hi' =>
      rw [hown, Prod.mk.injEq] at hown'
      obtain ⟨rfl, rfl⟩ := hown'
      rw [hownx, Prod.mk.injEq] at hownx'
      rw [hownx'.1, hy'] at hp
      contradiction
  | dbIndirect hp hy howny hx hownx hj hb hown hi =>
    cases h' with
    | direct hq hb' hown' hk' =>
      rw [hown, Prod.mk.injEq] at hown'
      rw [hown'.1, hq] at hx
      contradiction
    | indirect hq hx' hownx' hb' hown' hi' =>
      rw [hown, Prod.mk.injEq] at hown'
      obtain ⟨rfl, rfl⟩ := hown'
      rw [hownx, Prod.mk.injEq] at hownx'
      rw [hownx'.1, hq] at hy
      contradiction
    | dbIndirect hq hy' howny' hx' hownx' hj' hb' hown' hi' =>
      rw [hown, Prod.mk.injEq] at hown'
      obtain ⟨rfl, rfl⟩ := hown'
      rw [hownx, Prod.mk.injEq] at hownx'
      obtain ⟨rfl, rfl⟩ := hownx'
      rw [howny, Prod.mk.injEq] at howny'
      exact ⟨howny'.1, rfl⟩

theorem Path.kind (h : g.Path b p k) : g.kind b = some .data ∧ g.kind p = some .inode := by
  cases h with
  | direct hp hb => exact ⟨hb, hp⟩
  | indirect hp _ _ hb => exact ⟨hb, hp⟩
  | dbIndirect hp _ _ _ _ _ hb => exact ⟨hb, hp⟩

theorem Path.lt (h : g.Path b p k) : k < sfsL2Nblks := by
  cases h with
  | direct _ _ _ hk =>
    simp only [sfsL2Nblks, sfsL1Nblks, sfsNdirect, sfsBlkNentry, sfsBlksize] at hk ⊢
    omega
  | indirect _ _ _ _ _ hi =>
    simp only [sfsL2Nblks, sfsL1Nblks, sfsNdirect, sfsBlkNentry, sfsBlksize] at hi ⊢
    omega
  | dbIndirect _ _ _ _ _ hj _ _ hi =>
    simp only [sfsL2Nblks, sfsL1Nblks, sfsNdirect, sfsBlkNentry, sfsBlksize] at hi hj ⊢
    omega

/--
Block `b` is now used and named by place `i` of block `c`.
-/
def set (g : Ledger) (b : Nat) (K : BlockKind) (c i : Nat) : Ledger where
  kind := Function.update g.kind b (some K)
  own := Function.update g.own b (c, i)

section Set

variable {K : BlockKind} {c i x : Nat}

theorem set_kind_self : (g.set b K c i).kind b = some K := Function.update_self ..

theorem set_kind_of_ne (h : x ≠ b) : (g.set b K c i).kind x = g.kind x := Function.update_of_ne h ..

theorem set_own_self : (g.set b K c i).own b = (c, i) := Function.update_self ..

theorem set_own_of_ne (h : x ≠ b) : (g.set b K c i).own x = g.own x := Function.update_of_ne h ..

end Set

/--
What is in the ledger stays there.
-/
structure Grows (g g' : Ledger) : Prop where
  kind : ∀ b K, g.kind b = some K → g'.kind b = some K
  own : ∀ b K, g.kind b = some K → g'.own b = g.own b

theorem Grows.refl (g : Ledger) : g.Grows g := ⟨fun _ _ => id, fun _ _ _ => rfl⟩

theorem Grows.trans {g'' : Ledger} (h : g.Grows g') (h' : g'.Grows g'') : g.Grows g'' := by
  constructor
  . intro b K hb
    exact h'.kind b K (h.kind b K hb)
  . intro b K hb
    rw [h'.own b K (h.kind b K hb), h.own b K hb]

/--
A block of the ledger keeps its kind and its place.
-/
theorem Grows.kept {K : BlockKind} {c i : Nat} (h : g.Grows g') (hb : g.kind b = some K)
    (hown : g.own b = (c, i))
    : g'.kind b = some K ∧ g'.own b = (c, i) :=
  ⟨h.kind b K hb, (h.own b K hb).trans hown⟩

theorem grows_set (hb : g.kind b = none) (K : BlockKind) (c i : Nat) : g.Grows (g.set b K c i) := by
  constructor
  . intro x K' hx
    have hne : x ≠ b := by
      rintro rfl
      rw [hb] at hx
      contradiction
    rwa [set_kind_of_ne hne]
  . intro x K' hx
    have hne : x ≠ b := by
      rintro rfl
      rw [hb] at hx
      contradiction
    rw [set_own_of_ne hne]

theorem Grows.path (h : g.Grows g') (hpath : g.Path b p k) : g'.Path b p k := by
  cases hpath with
  | direct hp hb hown hk =>
    exact .direct (h.kind _ _ hp) (h.kind _ _ hb) (by rw [h.own _ _ hb, hown]) hk
  | indirect hp hx hownx hb hown hi =>
    exact .indirect (h.kind _ _ hp) (h.kind _ _ hx) (by rw [h.own _ _ hx, hownx]) (h.kind _ _ hb)
      (by rw [h.own _ _ hb, hown]) hi
  | dbIndirect hp hy howny hx hownx hj hb hown hi =>
    exact .dbIndirect (h.kind _ _ hp) (h.kind _ _ hy) (by rw [h.own _ _ hy, howny]) (h.kind _ _ hx)
      (by rw [h.own _ _ hx, hownx]) hj (h.kind _ _ hb) (by rw [h.own _ _ hb, hown]) hi

end Ledger

namespace Mksfs

/--
What the place `i` of block `c` names.
-/
def slot (s : Mksfs) (K : BlockKind) (c i : Nat) : Nat :=
  if K = .inode then (s.inode c).inode.slot i else s.cache c i

def IsInode (s : Mksfs) (b : Nat) : Prop := ∃ i < hashListSize, b ∈ s.inodes i

def IsCached (s : Mksfs) (b : Nat) : Prop := ∃ i < hashListSize, b ∈ s.blocks i

/--
The number of blocks of the freemap.
-/
def nfreemap (s : Mksfs) : Nat := (s.ninos + sfsBlkbits - 1) / sfsBlkbits

/--
The block that holds block `k` of the file, 0 if there is none.
-/
def bmap (s : Mksfs) (p k : Nat) : Nat :=
  if k < sfsNdirect then
    s.slot .inode p k
  else if k < sfsL1Nblks then
    if s.slot .inode p sfsNdirect = 0 then 0
    else s.slot .index1 (s.slot .inode p sfsNdirect) (k - sfsNdirect)
  else if s.slot .inode p (sfsNdirect + 1) = 0 then 0
  else if s.slot .index2 (s.slot .inode p (sfsNdirect + 1)) ((k - sfsL1Nblks) / sfsBlkNentry) = 0
    then 0
  else
    s.slot .index1
      (s.slot .index2 (s.slot .inode p (sfsNdirect + 1)) ((k - sfsL1Nblks) / sfsBlkNentry))
      ((k - sfsL1Nblks) % sfsBlkNentry)

/--
The books are right. Blocks that have been handed out and are not in the ledger are those a function
still has in its hand.
-/
structure Inv (s : Mksfs) (g : Ledger) : Prop where
  ninos_le : s.ninos ≤ sfsMaxNblks
  freemap_le : sfsBlknFreemap + s.nfreemap ≤ s.nextIno
  nextIno_le : s.nextIno ≤ s.ninos
  superBlocks : s.super.blocks = s.ninos
  unusedBlocks : s.super.unusedBlocks = s.ninos - s.nextIno
  lt : ∀ b K, g.kind b = some K → b < s.nextIno
  super : ∀ b, g.kind b = some .super ↔ b = 0
  freemap : ∀ b, g.kind b = some .freemap ↔ sfsBlknFreemap ≤ b ∧ b < sfsBlknFreemap + s.nfreemap
  inode : ∀ b, g.kind b = some .inode ↔ s.IsInode b
  cached : ∀ b, s.IsCached b ↔ g.kind b = some .index1 ∨ g.kind b = some .index2
  holds : ∀ c K i K', g.kind c = some K → slotKind K i = some K' → s.slot K c i ≠ 0 →
    g.kind (s.slot K c i) = some K' ∧ g.own (s.slot K c i) = (c, i)
  held : ∀ b K', g.kind b = some K' → K' ≠ .super → K' ≠ .freemap → K' ≠ .inode →
    ∃ K, g.kind (g.own b).1 = some K ∧ slotKind K (g.own b).2 = some K' ∧
      s.slot K (g.own b).1 (g.own b).2 = b

/--
Nothing has been handed out and there are no new inodes.
-/
structure SameBooks (s t : Mksfs) : Prop where
  ninos : t.ninos = s.ninos
  nextIno : t.nextIno = s.nextIno
  super : t.super = s.super
  inodes : t.inodes = s.inodes

variable {s t : Mksfs} {g g' : Ledger} {b p q k j c i : Nat} {K K' : BlockKind}

theorem SameBooks.nfreemap (h : s.SameBooks t) : t.nfreemap = s.nfreemap := by
  rw [Mksfs.nfreemap, h.ninos, Mksfs.nfreemap]

theorem slotKind_direct (h : k < sfsNdirect) : slotKind .inode k = some .data := if_pos h

theorem slotKind_indirect : slotKind .inode sfsNdirect = some .index1 := rfl

theorem slotKind_dbIndirect : slotKind .inode (sfsNdirect + 1) = some .index2 := rfl

theorem slotKind_index1 (h : i < sfsBlkNentry) : slotKind .index1 i = some .data := if_pos h

theorem slotKind_index2 (h : i < sfsBlkNentry) : slotKind .index2 i = some .index1 := if_pos h

theorem slotKind_eq_data (h : slotKind K i = some .data)
    : K = .inode ∧ i < sfsNdirect ∨ K = .index1 ∧ i < sfsBlkNentry := by
  unfold slotKind at h
  cases K <;> grind

theorem slotKind_eq_index1 (h : slotKind K i = some .index1)
    : K = .inode ∧ i = sfsNdirect ∨ K = .index2 ∧ i < sfsBlkNentry := by
  unfold slotKind at h
  cases K <;> grind

theorem slotKind_eq_index2 (h : slotKind K i = some .index2) : K = .inode ∧ i = sfsNdirect + 1 := by
  unfold slotKind at h
  cases K <;> grind

namespace Inv

/--
The block map follows the ledger.
-/
theorem path_of_bmap (h : s.Inv g) (hp : g.kind p = some .inode) (hk : k < sfsL2Nblks)
    (hne : s.bmap p k ≠ 0)
    : g.Path (s.bmap p k) p k := by
  unfold bmap at hne ⊢
  split
  next hdirect =>
    rw [if_pos hdirect] at hne
    obtain ⟨hkind, hown⟩ := h.holds _ _ _ _ hp (slotKind_direct hdirect) hne
    exact .direct hp hkind hown hdirect
  next hdirect =>
    rw [if_neg hdirect] at hne
    split
    next hl1 =>
      rw [if_pos hl1] at hne
      split
      next hzero =>
        rw [if_pos hzero] at hne
        exact absurd rfl hne
      next hind =>
        rw [if_neg hind] at hne
        have hi : k - sfsNdirect < sfsBlkNentry := by
          simp only [sfsL1Nblks] at hl1
          omega
        obtain ⟨hx, hownx⟩ := h.holds _ _ _ _ hp slotKind_indirect hind
        obtain ⟨hb, hown⟩ := h.holds _ _ _ _ hx (slotKind_index1 hi) hne
        have := Ledger.Path.indirect hp hx hownx hb hown hi
        rwa [Nat.add_sub_cancel' (Nat.not_lt.mp hdirect)] at this
    next hl1 =>
      rw [if_neg hl1] at hne
      split
      next hzero =>
        rw [if_pos hzero] at hne
        exact absurd rfl hne
      next hdb =>
        rw [if_neg hdb] at hne
        split
        next hzero =>
          rw [if_pos hzero] at hne
          exact absurd rfl hne
        next hent =>
          rw [if_neg hent] at hne
          have hj : (k - sfsL1Nblks) / sfsBlkNentry < sfsBlkNentry := by
            simp only [sfsL2Nblks] at hk
            exact Nat.div_lt_of_lt_mul (by omega)
          have hi : (k - sfsL1Nblks) % sfsBlkNentry < sfsBlkNentry := Nat.mod_lt _ (by decide)
          obtain ⟨hy, howny⟩ := h.holds _ _ _ _ hp slotKind_dbIndirect hdb
          obtain ⟨hx, hownx⟩ := h.holds _ _ _ _ hy (slotKind_index2 hj) hent
          obtain ⟨hb, hown⟩ := h.holds _ _ _ _ hx (slotKind_index1 hi) hne
          have := Ledger.Path.dbIndirect hp hy howny hx hownx hj hb hown hi
          rwa [Nat.div_add_mod, Nat.add_sub_cancel' (Nat.not_lt.mp hl1)] at this

theorem ne_zero (h : s.Inv g) (hb : g.kind b = some K) (hK : K ≠ .super) : b ≠ 0 := by
  intro hzero
  have := (h.super b).mpr hzero
  rw [hb, Option.some_inj] at this
  exact hK this

/--
The place of a block in a container of known kind.
-/
theorem slot_own (h : s.Inv g) (hb : g.kind b = some K') (hsuper : K' ≠ .super)
    (hfreemap : K' ≠ .freemap) (hinode : K' ≠ .inode) (hown : g.own b = (c, i)) (hc : g.kind c = some K)
    : s.slot K c i = b := by
  obtain ⟨K₁, hK, -, hslot⟩ := h.held b K' hb hsuper hfreemap hinode
  rw [hown] at hK hslot
  rw [hc, Option.some_inj] at hK
  rw [hK]
  exact hslot

theorem bmap_of_path (h : s.Inv g) (hpath : g.Path b p k) : s.bmap p k = b := by
  unfold bmap
  cases hpath with
  | direct hp hb hown hk =>
    rw [if_pos hk]
    exact h.slot_own hb (by decide) (by decide) (by decide) hown hp
  | @indirect x i hp hx hownx hb hown hi =>
    have hslotx := h.slot_own hx (by decide) (by decide) (by decide) hownx hp
    have hslot := h.slot_own hb (by decide) (by decide) (by decide) hown hx
    rw [if_neg (by omega), if_pos (by simp only [sfsL1Nblks]; omega), hslotx,
      if_neg (h.ne_zero hx (by decide)), Nat.add_sub_cancel_left]
    exact hslot
  | @dbIndirect y x i j hp hy howny hx hownx hj hb hown hi =>
    have hsloty := h.slot_own hy (by decide) (by decide) (by decide) howny hp
    have hslotx := h.slot_own hx (by decide) (by decide) (by decide) hownx hy
    have hslot := h.slot_own hb (by decide) (by decide) (by decide) hown hx
    have hdiv : (sfsBlkNentry * j + i) / sfsBlkNentry = j := by
      rw [Nat.mul_add_div (by decide), Nat.div_eq_of_lt hi, Nat.add_zero]
    have hmod : (sfsBlkNentry * j + i) % sfsBlkNentry = i := by
      rw [Nat.mul_add_mod, Nat.mod_eq_of_lt hi]
    rw [if_neg (by simp only [sfsL1Nblks]; omega), if_neg (by omega), hsloty,
      if_neg (h.ne_zero hy (by decide)), Nat.add_sub_cancel_left, hdiv, hmod, hslotx,
      if_neg (h.ne_zero hx (by decide))]
    exact hslot

/--
Every data block is a block of an inode.
-/
theorem exists_path (h : s.Inv g) (hb : g.kind b = some .data)
    : ∃ p k, g.Path b p k := by
  have hindex2 : ∀ {y}, g.kind y = some .index2 →
      ∃ p, g.kind p = some .inode ∧ g.own y = (p, sfsNdirect + 1) := by
    intro y hy
    obtain ⟨K, hK, hkind, -⟩ := h.held y _ hy (by decide) (by decide) (by decide)
    obtain ⟨rfl, hi⟩ := slotKind_eq_index2 hkind
    exact ⟨_, hK, Prod.ext rfl hi⟩
  obtain ⟨K, hK, hkind, -⟩ := h.held b _ hb (by decide) (by decide) (by decide)
  cases slotKind_eq_data hkind with
  | inl hdirect =>
    obtain ⟨rfl, hi⟩ := hdirect
    exact ⟨_, _, .direct hK hb rfl hi⟩
  | inr hindex =>
    obtain ⟨rfl, hi⟩ := hindex
    obtain ⟨K₁, hK₁, hkind₁, -⟩ := h.held _ _ hK (by decide) (by decide) (by decide)
    cases slotKind_eq_index1 hkind₁ with
    | inl hind =>
      obtain ⟨rfl, hj⟩ := hind
      exact ⟨_, _, .indirect hK₁ hK (Prod.ext rfl hj) hb rfl hi⟩
    | inr hdb =>
      obtain ⟨rfl, hj⟩ := hdb
      obtain ⟨p, hp, howny⟩ := hindex2 hK₁
      exact ⟨p, _, .dbIndirect hp hK₁ howny hK rfl hj hb rfl hi⟩

/--
A block that has been handed out is named by a place that has been empty.
-/
theorem set (h : s.Inv g) (hc : g.kind c = some K) (hkind : slotKind K i = some K')
    (hzero : s.slot K c i = 0) (hlt : b < s.nextIno) (hnone : g.kind b = none) (hsame : s.SameBooks t)
    (hcached : ∀ x, t.IsCached x ↔ s.IsCached x ∨ x = b ∧ K' ≠ .data) (hslot : t.slot K c i = b)
    (hkeep : ∀ K₁ c₁ i₁, g.kind c₁ = some K₁ → slotKind K₁ i₁ ≠ none → ¬(c₁ = c ∧ i₁ = i) →
      t.slot K₁ c₁ i₁ = s.slot K₁ c₁ i₁)
    (hempty : K' ≠ .data → ∀ i, slotKind K' i ≠ none → t.slot K' b i = 0)
    : t.Inv (g.set b K' c i) := by
  have hself : (g.set b K' c i).kind b = some K' := Ledger.set_kind_self
  have hother : ∀ x, x ≠ b → (g.set b K' c i).kind x = g.kind x := fun _ => Ledger.set_kind_of_ne
  have hne : ∀ x K₁, g.kind x = some K₁ → x ≠ b := by
    rintro x K₁ hx rfl
    rw [hnone] at hx
    contradiction
  have hK' : K' = .data ∨ K' = .index1 ∨ K' = .index2 := by
    unfold slotKind at hkind
    cases K <;> grind
  have hroot : ∀ x K₁, K₁ ≠ .data → K₁ ≠ .index1 → K₁ ≠ .index2 →
      ((g.set b K' c i).kind x = some K₁ ↔ g.kind x = some K₁) := by
    intro x K₁ h₁ h₂ h₃
    by_cases hx : x = b
    . subst hx
      rw [hself, hnone]
      grind
    . rw [hother x hx]
  constructor
  . rw [hsame.ninos]
    exact h.ninos_le
  . rw [hsame.nfreemap, hsame.nextIno]
    exact h.freemap_le
  . rw [hsame.ninos, hsame.nextIno]
    exact h.nextIno_le
  . rw [hsame.super, hsame.ninos]
    exact h.superBlocks
  . rw [hsame.super, hsame.ninos, hsame.nextIno]
    exact h.unusedBlocks
  . intro x K₁ hx
    rw [hsame.nextIno]
    by_cases hxb : x = b
    . rw [hxb]
      exact hlt
    . rw [hother x hxb] at hx
      exact h.lt x K₁ hx
  . intro x
    rw [hroot x _ (by decide) (by decide) (by decide)]
    exact h.super x
  . intro x
    rw [hroot x _ (by decide) (by decide) (by decide), hsame.nfreemap]
    exact h.freemap x
  . intro x
    rw [hroot x _ (by decide) (by decide) (by decide), h.inode, IsInode, IsInode, hsame.inodes]
  . intro x
    rw [hcached x, h.cached x]
    by_cases hx : x = b
    . subst hx
      rw [hself, hnone]
      grind
    . rw [hother x hx]
      grind
  . intro c₁ K₁ i₁ K₁' hc₁ hkind₁ hne₁
    by_cases hcb : c₁ = b
    . subst hcb
      rw [hself, Option.some_inj] at hc₁
      subst hc₁
      have hindex : K' ≠ .data := by
        rintro rfl
        simp [slotKind] at hkind₁
      exact absurd (hempty hindex i₁ (by rw [hkind₁]; simp)) hne₁
    . rw [hother c₁ hcb] at hc₁
      by_cases hplace : c₁ = c ∧ i₁ = i
      . obtain ⟨rfl, rfl⟩ := hplace
        rw [hc, Option.some_inj] at hc₁
        subst hc₁
        rw [hkind, Option.some_inj] at hkind₁
        rw [hslot, hself, ← hkind₁]
        exact ⟨rfl, Ledger.set_own_self⟩
      . rw [hkeep K₁ c₁ i₁ hc₁ (by rw [hkind₁]; simp) hplace] at hne₁ ⊢
        obtain ⟨hold, hown⟩ := h.holds c₁ K₁ i₁ K₁' hc₁ hkind₁ hne₁
        rw [hother _ (hne _ _ hold)]
        exact ⟨hold, (Ledger.set_own_of_ne (hne _ _ hold)).trans hown⟩
  . intro x K₁ hx h₁ h₂ h₃
    by_cases hxb : x = b
    . subst hxb
      rw [hself, Option.some_inj] at hx
      subst hx
      refine ⟨K, ?_⟩
      rw [Ledger.set_own_self, hother c (hne c K hc)]
      exact ⟨hc, hkind, hslot⟩
    . rw [hother x hxb] at hx
      obtain ⟨K₂, hK₂, hkind₂, hslot₂⟩ := h.held x K₁ hx h₁ h₂ h₃
      refine ⟨K₂, ?_⟩
      rw [Ledger.set_own_of_ne hxb, hother _ (hne _ _ hK₂)]
      refine ⟨hK₂, hkind₂, ?_⟩
      rw [hkeep K₂ _ _ hK₂ (by rw [hkind₂]; simp)]
      . exact hslot₂
      . intro hplace
        rw [hplace.1, hc, Option.some_inj] at hK₂
        rw [← hK₂, hplace.1, hplace.2, hzero] at hslot₂
        exact h.ne_zero hx h₁ hslot₂.symm

/--
The books do not depend on the image, on the buffer of `add_entry` and on what is in the inodes beside
the pointers.
-/
theorem congr (h : s.Inv g) (hsame : s.SameBooks t) (hcached : ∀ x, t.IsCached x ↔ s.IsCached x)
    (hslot : ∀ K c i, g.kind c = some K → slotKind K i ≠ none → t.slot K c i = s.slot K c i)
    : t.Inv g := by
  constructor
  . rw [hsame.ninos]
    exact h.ninos_le
  . rw [hsame.nfreemap, hsame.nextIno]
    exact h.freemap_le
  . rw [hsame.ninos, hsame.nextIno]
    exact h.nextIno_le
  . rw [hsame.super, hsame.ninos]
    exact h.superBlocks
  . rw [hsame.super, hsame.ninos, hsame.nextIno]
    exact h.unusedBlocks
  . rw [hsame.nextIno]
    exact h.lt
  . exact h.super
  . rw [hsame.nfreemap]
    exact h.freemap
  . intro x
    rw [h.inode, IsInode, IsInode, hsame.inodes]
  . intro x
    rw [hcached x, h.cached x]
  . intro c₁ K₁ i₁ K₁' hc₁ hkind₁ hne₁
    rw [hslot K₁ c₁ i₁ hc₁ (by rw [hkind₁]; simp)] at hne₁ ⊢
    exact h.holds c₁ K₁ i₁ K₁' hc₁ hkind₁ hne₁
  . intro x K₁ hx h₁ h₂ h₃
    obtain ⟨K₂, hK₂, hkind₂, hslot₂⟩ := h.held x K₁ hx h₁ h₂ h₃
    refine ⟨K₂, hK₂, hkind₂, ?_⟩
    rw [hslot K₂ _ _ hK₂ (by rw [hkind₂]; simp)]
    exact hslot₂

/--
A new inode names nothing.
-/
theorem newInode (h : s.Inv g) (hlt : p < s.nextIno) (hnone : g.kind p = none)
    (hninos : t.ninos = s.ninos) (hnext : t.nextIno = s.nextIno) (hsuper : t.super = s.super)
    (hinodes : ∀ x, t.IsInode x ↔ s.IsInode x ∨ x = p) (hcached : ∀ x, t.IsCached x ↔ s.IsCached x)
    (hslot : ∀ K c i, g.kind c = some K → t.slot K c i = s.slot K c i)
    (hempty : ∀ i, t.slot .inode p i = 0)
    : t.Inv (g.set p .inode 0 0) := by
  have hself : (g.set p .inode 0 0).kind p = some .inode := Ledger.set_kind_self
  have hother : ∀ x, x ≠ p → (g.set p .inode 0 0).kind x = g.kind x := fun _ => Ledger.set_kind_of_ne
  have hne : ∀ x K₁, g.kind x = some K₁ → x ≠ p := by
    rintro x K₁ hx rfl
    rw [hnone] at hx
    contradiction
  have hnfreemap : t.nfreemap = s.nfreemap := by
    rw [nfreemap, hninos, nfreemap]
  have hroot : ∀ x K₁, K₁ ≠ .inode → ((g.set p .inode 0 0).kind x = some K₁ ↔ g.kind x = some K₁) := by
    intro x K₁ h₁
    by_cases hx : x = p
    . subst hx
      rw [hself, hnone]
      grind
    . rw [hother x hx]
  constructor
  . rw [hninos]
    exact h.ninos_le
  . rw [hnfreemap, hnext]
    exact h.freemap_le
  . rw [hninos, hnext]
    exact h.nextIno_le
  . rw [hsuper, hninos]
    exact h.superBlocks
  . rw [hsuper, hninos, hnext]
    exact h.unusedBlocks
  . intro x K₁ hx
    rw [hnext]
    by_cases hxp : x = p
    . rw [hxp]
      exact hlt
    . rw [hother x hxp] at hx
      exact h.lt x K₁ hx
  . intro x
    rw [hroot x _ (by decide)]
    exact h.super x
  . intro x
    rw [hroot x _ (by decide), hnfreemap]
    exact h.freemap x
  . intro x
    rw [hinodes x, ← h.inode]
    by_cases hx : x = p
    . subst hx
      simp [hself]
    . simp [hother x hx, hx]
  . intro x
    rw [hcached x, h.cached x, hroot x _ (by decide), hroot x _ (by decide)]
  . intro c₁ K₁ i₁ K₁' hc₁ hkind₁ hne₁
    by_cases hcp : c₁ = p
    . subst hcp
      rw [hself, Option.some_inj] at hc₁
      subst hc₁
      exact absurd (hempty i₁) hne₁
    . rw [hother c₁ hcp] at hc₁
      rw [hslot K₁ c₁ i₁ hc₁] at hne₁ ⊢
      obtain ⟨hold, hown⟩ := h.holds c₁ K₁ i₁ K₁' hc₁ hkind₁ hne₁
      rw [hother _ (hne _ _ hold), Ledger.set_own_of_ne (hne _ _ hold)]
      exact ⟨hold, hown⟩
  . intro x K₁ hx h₁ h₂ h₃
    rw [hroot x K₁ h₃] at hx
    obtain ⟨K₂, hK₂, hkind₂, hslot₂⟩ := h.held x K₁ hx h₁ h₂ h₃
    refine ⟨K₂, ?_⟩
    rw [Ledger.set_own_of_ne (hne _ _ hx), hother _ (hne _ _ hK₂), hslot K₂ _ _ hK₂]
    exact ⟨hK₂, hkind₂, hslot₂⟩

end Inv

end Mksfs
end Ucore

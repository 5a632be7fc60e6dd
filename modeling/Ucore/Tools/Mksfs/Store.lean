import Ucore.Tools.Mksfs.Append

/-!
This module contains how mksfs stores a block of a file: it is handed out, written and entered into the
block map.
-/

namespace Ucore
namespace Mksfs

/--
The books are right and each inode has the blocks that it counts.
-/
structure Shaped (s : Mksfs) (g : Ledger) : Prop where
  books : s.Inv g
  ino : ∀ p, g.kind p = some .inode → (s.inode p).ino = p
  blocks : ∀ p, g.kind p = some .inode → (s.inode p).inode.blocks = (s.inode p).nblks
  nblks_le : ∀ p, g.kind p = some .inode → (s.inode p).nblks ≤ sfsLnNblks
  path : ∀ p, g.kind p = some .inode → ∀ k, (∃ b, g.Path b p k) ↔ k < (s.inode p).nblks

/--
What is in the ledger is kept, and only inode `p` may have got more blocks.
-/
structure Extends (s t : Mksfs) (g g' : Ledger) (p : Nat) : Prop where
  grows : g.Grows g'
  ninos : t.ninos = s.ninos
  nextIno : s.nextIno ≤ t.nextIno
  pending : ∀ b < s.nextIno, g.kind b = none → g'.kind b = none
  settled : ∀ b < t.nextIno, g'.kind b = none → b < s.nextIno
  img : ∀ b K, g.kind b = some K → t.img b = s.img b
  real : ∀ q, g.kind q = some .inode → (t.inode q).real = (s.inode q).real
  type : ∀ q, g.kind q = some .inode → (t.inode q).inode.type = (s.inode q).inode.type
  size : ∀ q, g.kind q = some .inode → q ≠ p → (t.inode q).inode.size = (s.inode q).inode.size
  nblks : ∀ q, g.kind q = some .inode → q ≠ p → (t.inode q).nblks = (s.inode q).nblks

/--
The bytes `data` are the next block of inode `p`.
-/
structure Stored (s t : Mksfs) (g g' : Ledger) (p : Nat) (data : Bytes) (len : Nat) : Prop where
  ext : s.Extends t g g' p
  entry : t.entry = s.entry
  inodes : t.inodes = s.inodes
  size : (t.inode p).inode.size = ((s.inode p).inode.size + len) % 2 ^ 32
  nblks : (t.inode p).nblks = (s.inode p).nblks + 1
  block : ∃ b, g'.Path b p (s.inode p).nblks ∧ t.img b = Bytes.zero.copy 0 data len

variable {s t u : Mksfs} {g g' g'' : Ledger} {b p q ino len : Nat} {data : Bytes}

namespace Extends

theorem refl (s : Mksfs) (g : Ledger) (p : Nat) : s.Extends s g g p :=
  ⟨Ledger.Grows.refl g, rfl, Nat.le_refl _, fun _ _ => id, fun _ hb _ => hb, fun _ _ _ => rfl,
    fun _ _ => rfl, fun _ _ => rfl, fun _ _ _ => rfl, fun _ _ _ => rfl⟩

theorem trans (h : s.Extends t g g' p) (h' : t.Extends u g' g'' p) : s.Extends u g g'' p := by
  have hin : ∀ q, g.kind q = some .inode → g'.kind q = some .inode := fun q => h.grows.kind q .inode
  constructor
  . exact h.grows.trans h'.grows
  . exact h'.ninos.trans h.ninos
  . exact Nat.le_trans h.nextIno h'.nextIno
  . intro b hb hnone
    exact h'.pending b (Nat.lt_of_lt_of_le hb h.nextIno) (h.pending b hb hnone)
  . intro b hb hnone
    apply h.settled b (h'.settled b hb hnone)
    cases hkind : g'.kind b with
    | none => rfl
    | some K =>
      rw [h'.grows.kind b K hkind] at hnone
      contradiction
  . intro b K hb
    rw [h'.img b K (h.grows.kind b K hb), h.img b K hb]
  . intro q hq
    rw [h'.real q (hin q hq), h.real q hq]
  . intro q hq
    rw [h'.type q (hin q hq), h.type q hq]
  . intro q hq hne
    rw [h'.size q (hin q hq) hne, h.size q hq hne]
  . intro q hq hne
    rw [h'.nblks q (hin q hq) hne, h.nblks q hq hne]

/--
What happens to an inode that was not there does not count.
-/
theorem of_new (h : s.Extends t g g' p) (hp : g.kind p ≠ some .inode) (q : Nat) : s.Extends t g g' q := by
  have hne : ∀ x, g.kind x = some .inode → x ≠ p := by
    rintro x hx rfl
    exact hp hx
  refine ⟨h.grows, h.ninos, h.nextIno, h.pending, h.settled, h.img, h.real, h.type, ?_, ?_⟩
  . exact fun x hx _ => h.size x hx (hne x hx)
  . exact fun x hx _ => h.nblks x hx (hne x hx)

end Extends

theorem writeBlock_ok (hrun : writeBlock data len ino s = .ok () t)
    : len ≤ sfsBlksize ∧ ino < s.ninos ∧
      t = { s with img := Function.update s.img ino (Bytes.zero.copy 0 data len) } := by
  simp only [writeBlock, Prog.get_bind_run] at hrun
  obtain ⟨_, u, hassert, hrest⟩ := Prog.bind_run_eq_ok.mp hrun
  obtain ⟨hpre, rfl⟩ := Prog.assert_run_eq_ok.mp hassert
  simp only [Prog.modify_run, Outcome.ok.injEq, true_and] at hrest
  exact ⟨hpre.1, hpre.2, hrest.symm⟩

/--
The part of `append_block` behind the pointer.
-/
def counted (s : Mksfs) (p size : Nat) : Mksfs :=
  s.setInode p fun ci =>
    { ci with
      nblks := ci.nblks + 1
      inode :=
        { ci.inode with
          size := (ci.inode.size + size) % 2 ^ 32
          blocks := (ci.inode.blocks + 1) % 2 ^ 32 } }

theorem appendBlock_ok (hrun : appendBlock p len ino s = .ok () t)
    : (s.inode p).nblks < sfsLnNblks ∧ ∃ u, appendPointer p (s.inode p).nblks ino s = .ok () u ∧
      t = u.counted p len := by
  unfold appendBlock at hrun
  obtain ⟨_, u, hassert, hrest⟩ := Prog.bind_run_eq_ok.mp hrun
  obtain ⟨-, rfl⟩ := Prog.assert_run_eq_ok.mp hassert
  rw [Prog.get_bind_run] at hrest
  split at hrest
  . simp at hrest
  next hlt =>
    obtain ⟨_, v, hpointer, hcount⟩ := Prog.bind_run_eq_ok.mp hrest
    simp only [Prog.modify_run, Outcome.ok.injEq, true_and] at hcount
    exact ⟨Nat.not_le.mp hlt, v, hpointer, hcount.symm⟩

/--
Changes of an inode beside its pointers.
-/
theorem Inv.setInode (h : s.Inv g) {f : CacheInode → CacheInode}
    (hslot : ∀ i, (f (s.inode p)).inode.slot i = (s.inode p).inode.slot i)
    : (s.setInode p f).Inv g := by
  apply h.congr
  . exact ⟨rfl, rfl, rfl, rfl⟩
  . exact fun _ => Iff.rfl
  . intro K c i _ _
    unfold slot
    split
    . by_cases hc : c = p
      . subst hc
        rw [setInode_self, hslot]
      . rw [setInode_of_ne f hc]
    . rfl

theorem Inv.setImg (h : s.Inv g) (img : Nat → Bytes) : ({ s with img } : Mksfs).Inv g :=
  h.congr ⟨rfl, rfl, rfl, rfl⟩ (fun _ => Iff.rfl) fun _ _ _ _ _ => rfl

theorem storeBlock_ok {s₁ s₂ : Mksfs} (h : s.Shaped g) (hp : g.kind p = some .inode)
    (halloc : sfsAllocIno s = .ok ino s₁) (hwrite : writeBlock data len ino s₁ = .ok () s₂)
    (happend : appendBlock p len ino s₂ = .ok () t)
    : ∃ g', t.Shaped g' ∧ s.Stored t g g' p data len := by
  obtain ⟨rfl, hlt, rfl⟩ := sfsAllocIno_ok halloc
  obtain ⟨hlen, -, rfl⟩ := writeBlock_ok hwrite
  obtain ⟨hroom, u, hpointer, rfl⟩ := appendBlock_ok happend
  have hfresh : g.kind s.nextIno = none := h.books.fresh (Nat.le_refl _)
  have hempty : ∀ b, ¬g.Path b p (s.inode p).nblks := by
    intro b hpath
    exact Nat.lt_irrefl _ ((h.path p hp _).mp ⟨b, hpath⟩)
  have hl2 : (s.inode p).nblks < sfsL2Nblks := by
    apply Nat.lt_trans hroom
    decide
  have hbooks := (h.books.alloced hlt).setImg
    (Function.update s.alloced.img s.nextIno (Bytes.zero.copy 0 data len))
  obtain ⟨g', hu, hentered⟩ :=
    appendPointer_ok hbooks hp hl2 (Nat.lt_succ_self _) hfresh hempty hpointer
  have hfile : ∀ q, SameFile (s.inode q) (u.inode q) := hentered.file
  have hin : ∀ q, g'.kind q = some .inode ↔ g.kind q = some .inode := by
    intro q
    rw [hu.inode, h.books.inode, IsInode, hentered.inodes, IsInode]
    rfl
  have hother : ∀ q, q ≠ p → (u.counted p len).inode q = u.inode q := fun q => setInode_of_ne _
  have hself : (u.counted p len).inode p = _ := setInode_self _
  have hnblks : (u.inode p).nblks = (s.inode p).nblks := (hfile p).nblks
  have hmax : (s.inode p).nblks + 1 < 2 ^ 32 := by
    apply Nat.lt_trans (Nat.succ_lt_succ hroom)
    decide
  refine ⟨g', ?_, ?_⟩
  . constructor
    . exact hu.setInode fun _ => rfl
    . intro q hq
      by_cases hqp : q = p
      . subst hqp
        rw [hself, (hfile q).ino, h.ino q hp]
      . rw [hother q hqp, (hfile q).ino, h.ino q ((hin q).mp hq)]
    . intro q hq
      by_cases hqp : q = p
      . subst hqp
        rw [hself, hnblks]
        show ((u.inode q).inode.blocks + 1) % 2 ^ 32 = _
        rw [(hfile q).blocks, h.blocks q hp]
        exact Nat.mod_eq_of_lt hmax
      . rw [hother q hqp, (hfile q).blocks, (hfile q).nblks, h.blocks q ((hin q).mp hq)]
    . intro q hq
      by_cases hqp : q = p
      . subst hqp
        rw [hself, hnblks]
        exact hroom
      . rw [hother q hqp, (hfile q).nblks]
        exact h.nblks_le q ((hin q).mp hq)
    . intro q hq k
      have hold := h.path q ((hin q).mp hq) k
      -- a block of the file is either an old one or the one that has been entered
      constructor
      . rintro ⟨b, hb⟩
        cases hentered.data b hb.kind.1 with
        | inl hdata =>
          obtain ⟨q', k', hpath⟩ := h.books.exists_path hdata
          obtain ⟨rfl, rfl⟩ := (hentered.grows.path hpath).unique hb
          have hk := hold.mp ⟨b, hpath⟩
          by_cases hqp : q' = p
          . subst hqp
            rw [hself, hnblks]
            exact Nat.lt_succ_of_lt hk
          . rw [hother q' hqp, (hfile q').nblks]
            exact hk
        | inr heq =>
          subst heq
          obtain ⟨rfl, rfl⟩ := hentered.path.unique hb
          rw [hself, hnblks]
          exact Nat.lt_succ_self _
      . intro hk
        by_cases hqp : q = p
        . subst hqp
          rw [hself, hnblks] at hk
          cases Nat.lt_succ_iff_lt_or_eq.mp hk with
          | inl hk =>
            obtain ⟨b, hb⟩ := hold.mpr hk
            exact ⟨b, hentered.grows.path hb⟩
          | inr heq =>
            subst heq
            exact ⟨_, hentered.path⟩
        . rw [hother q hqp, (hfile q).nblks] at hk
          obtain ⟨b, hb⟩ := hold.mpr hk
          exact ⟨b, hentered.grows.path hb⟩
  . have himg : ∀ b, b ≠ s.nextIno → (u.counted p len).img b = s.img b := by
      intro b hb
      show u.img b = _
      rw [hentered.img]
      exact Function.update_of_ne hb ..
    constructor
    . constructor
      . exact hentered.grows
      . exact hentered.ninos
      . exact Nat.le_trans (Nat.le_succ _) hentered.nextIno
      . intro b hb hnone
        exact hentered.pending b (Nat.lt_succ_of_lt hb) (Nat.ne_of_lt hb) hnone
      . intro b hb hnone
        have hb' := hentered.settled b hb hnone
        have hne : b ≠ s.nextIno := by
          rintro rfl
          rw [hentered.path.kind.1] at hnone
          contradiction
        exact Nat.lt_of_le_of_ne (Nat.le_of_lt_succ hb') hne
      . intro b K hb
        exact himg b (Nat.ne_of_lt (h.books.lt b K hb))
      . intro q _
        by_cases hqp : q = p
        . subst hqp
          rw [hself, (hfile q).real]
        . rw [hother q hqp, (hfile q).real]
      . intro q _
        by_cases hqp : q = p
        . subst hqp
          rw [hself, (hfile q).type]
        . rw [hother q hqp, (hfile q).type]
      . intro q _ hqp
        rw [hother q hqp, (hfile q).size]
      . intro q _ hqp
        rw [hother q hqp, (hfile q).nblks]
    . exact hentered.entry
    . exact hentered.inodes
    . rw [hself]
      show ((u.inode p).inode.size + len) % 2 ^ 32 = _
      rw [(hfile p).size]
    . rw [hself]
      show (u.inode p).nblks + 1 = _
      rw [hnblks]
    . refine ⟨s.nextIno, hentered.path, ?_⟩
      show u.img s.nextIno = _
      rw [hentered.img]
      exact Function.update_self ..

end Mksfs
end Ucore

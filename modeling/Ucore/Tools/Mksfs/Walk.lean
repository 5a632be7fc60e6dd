import Ucore.Tools.Mksfs.Store

/-!
This module contains the walk of mksfs over a directory of the host: at the end of each call everything
that has been handed out is in the ledger.
-/

namespace Ucore
namespace Mksfs

variable {s t u : Mksfs} {g g' g'' : Ledger} {b p q ino len current file real : Nat} {data : Bytes}
  {name : List UInt8}

/--
A function that gives inode `p` blocks.
-/
def Walks (p : Nat) (m : MkProg Unit) : Prop :=
  ∀ s t g, s.Shaped g → g.kind p = some .inode → m s = .ok () t →
    ∃ g', t.Shaped g' ∧ s.Extends t g g' p

theorem Walks.bind {m m' : MkProg Unit} (h : Walks p m) (h' : Walks p m')
    : Walks p (do m; m') := by
  intro s t g hs hp hrun
  obtain ⟨_, u, hm, hm'⟩ := Prog.bind_run_eq_ok.mp hrun
  obtain ⟨g', hu, hext⟩ := h s u g hs hp hm
  obtain ⟨g'', ht, hext'⟩ := h' u t g' hu (hext.grows.kind _ _ hp) hm'
  exact ⟨g'', ht, hext.trans hext'⟩

theorem Walks.pure : Walks p (pure ()) := by
  intro s t g hs _ hrun
  simp only [Prog.pure_run, Outcome.ok.injEq, true_and] at hrun
  subst hrun
  exact ⟨g, hs, Extends.refl s g p⟩

theorem Walks.throw (e : MkError) : Walks p (Prog.throw e) := by
  intro s t g _ _ hrun
  simp at hrun

/--
What neither the books nor the sizes depend on.
-/
theorem Shaped.setInode (h : s.Shaped g) {f : CacheInode → CacheInode}
    (hslot : ∀ i, (f (s.inode q)).inode.slot i = (s.inode q).inode.slot i)
    (hino : (f (s.inode q)).ino = (s.inode q).ino) (hnblks : (f (s.inode q)).nblks = (s.inode q).nblks)
    (hblocks : (f (s.inode q)).inode.blocks = (s.inode q).inode.blocks)
    : (s.setInode q f).Shaped g := by
  have hino' : ∀ x, ((s.setInode q f).inode x).ino = (s.inode x).ino := by
    intro x
    by_cases hx : x = q
    . subst hx
      rw [setInode_self, hino]
    . rw [setInode_of_ne f hx]
  have hnblks' : ∀ x, ((s.setInode q f).inode x).nblks = (s.inode x).nblks := by
    intro x
    by_cases hx : x = q
    . subst hx
      rw [setInode_self, hnblks]
    . rw [setInode_of_ne f hx]
  constructor
  . exact h.books.setInode hslot
  . intro x hx
    rw [hino', h.ino x hx]
  . intro x hx
    rw [hnblks', ← h.blocks x hx]
    by_cases hxq : x = q
    . subst hxq
      rw [setInode_self, hblocks]
    . rw [setInode_of_ne f hxq]
  . intro x hx
    rw [hnblks']
    exact h.nblks_le x hx
  . intro x hx k
    rw [hnblks']
    exact h.path x hx k

/--
One more link of an inode.
-/
def linked (s : Mksfs) (file : Nat) : Mksfs :=
  s.setInode file fun ci =>
    { ci with inode := { ci.inode with nlinks := (ci.inode.nlinks + 1) % 2 ^ 16 } }

theorem Shaped.linked (h : s.Shaped g) (file : Nat) : (s.linked file).Shaped g :=
  h.setInode (fun _ => rfl) rfl rfl rfl

theorem linked_inode (s : Mksfs) (file q : Nat)
    : ((s.linked file).inode q).real = (s.inode q).real ∧
      ((s.linked file).inode q).inode.type = (s.inode q).inode.type ∧
      ((s.linked file).inode q).inode.size = (s.inode q).inode.size ∧
      ((s.linked file).inode q).nblks = (s.inode q).nblks := by
  by_cases hq : q = file
  . subst hq
    rw [Mksfs.linked, setInode_self]
    exact ⟨rfl, rfl, rfl, rfl⟩
  . rw [Mksfs.linked, setInode_of_ne _ hq]
    exact ⟨rfl, rfl, rfl, rfl⟩

theorem extends_linked (s : Mksfs) (g : Ledger) (file p : Nat) : s.Extends (s.linked file) g g p := by
  refine ⟨Ledger.Grows.refl g, rfl, Nat.le_refl _, fun _ _ => id, fun _ hb _ => hb, fun _ _ _ => rfl,
    ?_, ?_, ?_, ?_⟩
  . exact fun q _ => (linked_inode s file q).1
  . exact fun q _ => (linked_inode s file q).2.1
  . exact fun q _ _ => (linked_inode s file q).2.2.1
  . exact fun q _ _ => (linked_inode s file q).2.2.2

theorem Shaped.setEntry (h : s.Shaped g) (entry : Bytes) : ({ s with entry } : Mksfs).Shaped g :=
  ⟨h.books.congr ⟨rfl, rfl, rfl, rfl⟩ (fun _ => Iff.rfl) fun _ _ _ _ _ => rfl, h.ino, h.blocks,
    h.nblks_le, h.path⟩

theorem walks_addEntry (current file : Nat) (name : List UInt8)
    : Walks current (addEntry current file name) := by
  intro s t g hs hp hrun
  simp only [addEntry, Prog.get_bind_run] at hrun
  obtain ⟨_, u, hassert, hrest⟩ := Prog.bind_run_eq_ok.mp hrun
  obtain ⟨-, rfl⟩ := Prog.assert_run_eq_ok.mp hassert
  rw [Prog.modify_bind_run] at hrest
  obtain ⟨ino, s₁, halloc, hrest⟩ := Prog.bind_run_eq_ok.mp hrest
  rw [Prog.get_bind_run] at hrest
  obtain ⟨_, s₂, hwrite, hrest⟩ := Prog.bind_run_eq_ok.mp hrest
  obtain ⟨_, s₃, happend, hrest⟩ := Prog.bind_run_eq_ok.mp hrest
  simp only [Prog.modify_run, Outcome.ok.injEq, true_and] at hrest
  subst hrest
  obtain ⟨g', hshaped, hstored⟩ := storeBlock_ok (hs.setEntry _) hp halloc hwrite happend
  have hext : u.Extends s₃ g g' current :=
    ⟨hstored.ext.grows, hstored.ext.ninos, hstored.ext.nextIno, hstored.ext.pending,
      hstored.ext.settled, hstored.ext.img, hstored.ext.real, hstored.ext.type, hstored.ext.size,
      hstored.ext.nblks⟩
  exact ⟨g', hshaped.linked file, hext.trans (extends_linked s₃ g' file current)⟩

theorem walks_readLoop (file : Nat) (data : Bytes) (size off last n : Nat)
    : Walks file (readLoop file data size off last n) := by
  induction n generalizing off last with
  | zero => exact Walks.pure
  | succ n ih =>
    intro s t g hs hp hrun
    unfold readLoop at hrun
    obtain ⟨_, u, hassert, hrest⟩ := Prog.bind_run_eq_ok.mp hrun
    obtain ⟨-, rfl⟩ := Prog.assert_run_eq_ok.mp hassert
    obtain ⟨ino, s₁, halloc, hrest⟩ := Prog.bind_run_eq_ok.mp hrest
    obtain ⟨_, s₂, hwrite, hrest⟩ := Prog.bind_run_eq_ok.mp hrest
    obtain ⟨_, s₃, happend, hrest⟩ := Prog.bind_run_eq_ok.mp hrest
    obtain ⟨g', hshaped, hstored⟩ := storeBlock_ok hs hp halloc hwrite happend
    obtain ⟨g'', ht, hext⟩ := ih _ _ _ _ _ hshaped (hstored.ext.grows.kind _ _ hp) hrest
    exact ⟨g'', ht, hstored.ext.trans hext⟩

theorem walks_openLink (host : Host) (file real : Nat) : Walks file (openLink host file real) := by
  intro s t g hs hp hrun
  obtain ⟨ino, s₁, halloc, hrest⟩ := Prog.bind_run_eq_ok.mp hrun
  split at hrest
  . simp at hrest
  . obtain ⟨_, s₂, hwrite, happend⟩ := Prog.bind_run_eq_ok.mp hrest
    obtain ⟨g', hshaped, hstored⟩ := storeBlock_ok hs hp halloc hwrite happend
    exact ⟨g', hshaped, hstored.ext⟩

section NewInode

theorem newCacheInode_inode_of_ne {type : Nat} (h : q ≠ ino)
    : (s.newCacheInode real ino type).inode q = s.inode q := by
  simp [newCacheInode, h]

theorem newCacheInode_inode_self {type : Nat}
    : (s.newCacheInode real ino type).inode ino =
      { inode :=
          { size := 0, type, nlinks := 0, blocks := 0, direct := fun _ => 0, indirect := 0,
            dbIndirect := 0 }
        real, ino, nblks := 0, l1 := none, l2 := none } := by
  simp [newCacheInode]

theorem isInode_newCacheInode {type x : Nat}
    : (s.newCacheInode real ino type).IsInode x ↔ s.IsInode x ∨ x = ino := by
  constructor
  . intro ⟨i, hi, hx⟩
    by_cases hir : i = hash64 real
    . subst hir
      simp only [newCacheInode, Function.update_self] at hx
      cases List.mem_cons.mp hx with
      | inl heq => exact .inr heq
      | inr hmem => exact .inl ⟨_, hi, hmem⟩
    . simp only [newCacheInode, Function.update_of_ne hir] at hx
      exact .inl ⟨i, hi, hx⟩
  . intro hx
    cases hx with
    | inl hx =>
      obtain ⟨i, hi, hx⟩ := hx
      refine ⟨i, hi, ?_⟩
      by_cases hir : i = hash64 real
      . subst hir
        simp [newCacheInode, hx]
      . simp [newCacheInode, hir, hx]
    | inr heq => exact ⟨hash64 real, hash64_lt real, by simp [newCacheInode, heq]⟩

/--
A new inode has no blocks.
-/
theorem Shaped.newCacheInode (h : s.Shaped g) (hlt : ino < s.nextIno) (hnone : g.kind ino = none)
    (real type : Nat)
    : (s.newCacheInode real ino type).Shaped (g.set ino .inode 0 0) := by
  have hne : ∀ c K, g.kind c = some K → c ≠ ino := by
    rintro c K hc rfl
    rw [hnone] at hc
    contradiction
  have hgrows : g.Grows (g.set ino .inode 0 0) := Ledger.grows_set hnone _ _ _
  have hbooks : (s.newCacheInode real ino type).Inv (g.set ino .inode 0 0) := by
    apply h.books.newInode (t := s.newCacheInode real ino type) hlt hnone rfl rfl rfl
    . exact fun x => isInode_newCacheInode
    . exact fun x => Iff.rfl
    . intro K c i hc
      unfold slot
      rw [newCacheInode_inode_of_ne (hne c K hc)]
      rfl
    . intro i
      rw [slot_inode, newCacheInode_inode_self]
      simp [MkInode.slot]
  have hold : ∀ x, x ≠ ino → (g.set ino .inode 0 0).kind x = some .inode → g.kind x = some .inode := by
    intro x hx hkind
    rwa [Ledger.set_kind_of_ne hx] at hkind
  constructor
  . exact hbooks
  . intro x hx
    by_cases hxi : x = ino
    . subst hxi
      rw [newCacheInode_inode_self]
    . rw [newCacheInode_inode_of_ne hxi, h.ino x (hold x hxi hx)]
  . intro x hx
    by_cases hxi : x = ino
    . subst hxi
      rw [newCacheInode_inode_self]
    . rw [newCacheInode_inode_of_ne hxi, h.blocks x (hold x hxi hx)]
  . intro x hx
    by_cases hxi : x = ino
    . subst hxi
      rw [newCacheInode_inode_self]
      exact Nat.zero_le _
    . rw [newCacheInode_inode_of_ne hxi]
      exact h.nblks_le x (hold x hxi hx)
  . intro x hx k
    -- the data blocks are the old ones, and they are blocks of old inodes
    have hback : ∀ b, (g.set ino .inode 0 0).Path b x k → g.Path b x k := by
      intro b hb
      have hdata := hb.kind.1
      have hbi : b ≠ ino := by
        rintro rfl
        rw [Ledger.set_kind_self] at hdata
        contradiction
      rw [Ledger.set_kind_of_ne hbi] at hdata
      obtain ⟨q, j, hpath⟩ := h.books.exists_path hdata
      obtain ⟨rfl, rfl⟩ := (hgrows.path hpath).unique hb
      exact hpath
    have hiff : (∃ b, (g.set ino .inode 0 0).Path b x k) ↔ ∃ b, g.Path b x k :=
      ⟨Exists.imp hback, Exists.imp fun b hb => hgrows.path hb⟩
    rw [hiff]
    by_cases hxi : x = ino
    . subst hxi
      rw [newCacheInode_inode_self]
      constructor
      . rintro ⟨b, hb⟩
        have := hb.kind.2
        rw [hnone] at this
        contradiction
      . exact fun hk => absurd hk (Nat.not_lt_zero _)
    . rw [newCacheInode_inode_of_ne hxi]
      exact h.path x (hold x hxi hx) k

theorem allocCacheInode_ok {type : Nat} (h : s.Shaped g)
    (hrun : allocCacheInode real 0 type s = .ok ino t)
    : ∃ g', t.Shaped g' ∧ s.Extends t g g' p ∧ g.kind ino = none ∧ g'.kind ino = some .inode := by
  simp only [allocCacheInode, ne_eq, not_true_eq_false, if_false] at hrun
  obtain ⟨b, u, halloc, hrest⟩ := Prog.bind_run_eq_ok.mp hrun
  obtain ⟨rfl, hlt, rfl⟩ := sfsAllocIno_ok halloc
  simp only [Prog.modify_bind_run, Prog.pure_run, Outcome.ok.injEq] at hrest
  obtain ⟨rfl, rfl⟩ := hrest
  have hfresh : g.kind s.nextIno = none := h.books.fresh (Nat.le_refl _)
  have halloced : s.alloced.Shaped g := ⟨h.books.alloced hlt, h.ino, h.blocks, h.nblks_le, h.path⟩
  have hne : ∀ q, g.kind q = some .inode → q ≠ s.nextIno := fun q hq => Nat.ne_of_lt (h.books.lt q _ hq)
  refine ⟨g.set s.nextIno .inode 0 0, ?_, ?_, hfresh, Ledger.set_kind_self⟩
  . exact halloced.newCacheInode (Nat.lt_succ_self _) hfresh real type
  . constructor
    . exact Ledger.grows_set hfresh _ _ _
    . rfl
    . exact Nat.le_succ _
    . intro b hb hnone
      rw [Ledger.set_kind_of_ne (Nat.ne_of_lt hb)]
      exact hnone
    . intro b hb hnone
      have hb' : b ≠ s.nextIno := by
        rintro rfl
        rw [Ledger.set_kind_self] at hnone
        contradiction
      exact Nat.lt_of_le_of_ne (Nat.le_of_lt_succ hb) hb'
    . exact fun _ _ _ => rfl
    . intro q hq
      rw [newCacheInode_inode_of_ne (hne q hq)]
      rfl
    . intro q hq
      rw [newCacheInode_inode_of_ne (hne q hq)]
      rfl
    . intro q hq _
      rw [newCacheInode_inode_of_ne (hne q hq)]
      rfl
    . intro q hq _
      rw [newCacheInode_inode_of_ne (hne q hq)]
      rfl

end NewInode

/--
A new inode is filled and entered into the directory.
-/
theorem Walks.newInode {type : Nat} {fill add : Nat → MkProg Unit} (hfill : ∀ x, Walks x (fill x))
    (hadd : ∀ x, Walks p (add x))
    : Walks p (do
        let x ← allocCacheInode real 0 type
        fill x
        add x) := by
  intro s t g hs hp hrun
  obtain ⟨x, s₁, halloc, hrest⟩ := Prog.bind_run_eq_ok.mp hrun
  obtain ⟨_, s₂, hfill', hadd'⟩ := Prog.bind_run_eq_ok.mp hrest
  obtain ⟨g₁, hs₁, hext₁, hnone, hx⟩ := allocCacheInode_ok hs halloc
  obtain ⟨g₂, hs₂, hext₂⟩ := hfill x s₁ s₂ g₁ hs₁ hx hfill'
  have hnew : g.kind x ≠ some .inode := by simp [hnone]
  have hext := (hext₁.trans hext₂).of_new hnew p
  obtain ⟨g₃, ht, hext₃⟩ := hadd x s₂ t g₂ hs₂ (hext.grows.kind _ _ hp) hadd'
  exact ⟨g₃, ht, hext.trans hext₃⟩

theorem walks_addFile (host : Host) (current : Nat) (name : List UInt8) (real : Nat)
    : Walks current (addFile host current name real) := by
  intro s t g hs hp hrun
  simp only [addFile, Prog.get_bind_run] at hrun
  cases hsearch : s.searchCacheInode real with
  | some file =>
    rw [hsearch] at hrun
    exact walks_addEntry current file name s t g hs hp hrun
  | none =>
    rw [hsearch] at hrun
    exact Walks.newInode (fun x => walks_readLoop x _ _ _ _ _) (fun x => walks_addEntry current x name)
        s t g hs hp hrun

theorem walks_addLink (host : Host) (current : Nat) (name : List UInt8) (real : Nat)
    : Walks current (addLink host current name real) :=
  Walks.newInode (fun x => walks_openLink host x real) fun x => walks_addEntry current x name

theorem walks_openDir {loop : MkProg Unit} (current parent : Nat) (h : Walks current loop)
    : Walks current (openDir current parent loop) :=
  (walks_addEntry current current dot).bind ((walks_addEntry current parent dotdot).bind h)

theorem walks_addDir {loop : Nat → MkProg Unit} (parent : Nat) (name : List UInt8) (real : Nat)
    (h : ∀ x, Walks x (loop x))
    : Walks parent (addDir parent name real loop) := by
  intro s t g hs hp hrun
  simp only [addDir, Prog.get_bind_run] at hrun
  obtain ⟨_, u, hassert, hrest⟩ := Prog.bind_run_eq_ok.mp hrun
  obtain ⟨-, rfl⟩ := Prog.assert_run_eq_ok.mp hassert
  exact Walks.newInode (fun x => walks_openDir x parent (h x)) (fun x => walks_addEntry parent x name)
    _ t g hs hp hrest

theorem walks_readEntry {add : MkProg Unit} (h : Walks p add) : Walks p (readEntry name add) := by
  unfold readEntry
  split
  . exact Walks.pure
  . split
    . exact Walks.throw _
    . exact h

theorem walks_readDir (host : Host) (home : HostDir) (current : Nat)
    : Walks current (readDir host current home) := by
  induction home generalizing current with
  | nil => exact Walks.pure
  | reg name real rest ih =>
    exact (walks_readEntry (walks_addFile host current name real)).bind (ih current)
  | lnk name real rest ih =>
    exact (walks_readEntry (walks_addLink host current name real)).bind (ih current)
  | dir name real entries rest ihEntries ihRest =>
    exact (walks_readEntry (walks_addDir current name real ihEntries)).bind (ihRest current)
  | other name rest ih => exact (walks_readEntry Walks.pure).bind (ih current)

end Mksfs
end Ucore

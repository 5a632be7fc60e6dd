import Ucore.Kern.Mm.Pmm.PageRuns
import Ucore.Kern.Mm.Vmm.Impl

/-!
This module contains what `copy_range` does to an empty address space: which entries it makes and what
is in the new frames.
-/

namespace Ucore

/--
User pages are told apart by their entries.
-/
theorem pteKey_inj {la la' : Nat} (h : la < 2 ^ 39) (h' : la' < 2 ^ 39) (heq : pteKey la = pteKey la')
    : la / pgsize = la' / pgsize := by
  simp only [pteKey, pdx1, pdx0, ptx, Prod.mk.injEq, Fin.ext_iff, Fin.val_ofNat] at heq
  simp only [pgsize]
  omega

/--
Addresses below the next page table have the same upper two entries.
-/
theorem upper_of_lt {la start : Nat} (hle : start ≤ la) (hlt : la < (start + ptsize) / ptsize * ptsize)
    : pdx1 la = pdx1 start ∧ pdx0 la = pdx0 start := by
  have hp : ptsize = 2 ^ 21 := by decide
  rw [hp] at hlt
  simp only [pdx1, pdx0, Fin.ext_iff, Fin.val_ofNat]
  omega

theorem pteKey_of_page {la start : Nat} (h : la / pgsize = start / pgsize) : pteKey la = pteKey start := by
  simp only [pgsize] at h
  simp only [pteKey, pdx1, pdx0, ptx, Prod.mk.injEq, Fin.ext_iff, Fin.val_ofNat]
  omega

theorem pteKey_pageStart (addr : Nat) : pteKey (addr / pgsize * pgsize) = pteKey addr := by
  apply pteKey_of_page
  rw [Nat.mul_div_cancel _ (by decide)]

namespace Paging

variable {ι : Type} [DecidableEq ι] [Fintype ι] {pmm : PmmManager} {s t u : Paging ι} {dst src i : ι}
  {la page f start stop : Nat} {pte old : Pte} {perm : BitVec 10} {R R' : PteKey → Prop}

omit [DecidableEq ι] [Fintype ι] in
theorem entries_of_getPte_none (h : s.getPte i start = none) (h₁ : pdx1 la = pdx1 start)
    (h₀ : pdx0 la = pdx0 start)
    : s.entries (i, pteKey la) = Pte.zero := by
  rw [entries, Pgdir.entryAt, pteKey, h₁, h₀]
  simp only [getPte, Pgdir.getPte] at h
  split
  . rfl
  next pd hpd =>
    rw [hpd, Option.bind_some, Option.map_eq_none_iff] at h
    rw [h]

/--
The entry of a page in the copy: a new frame with the contents and the permissions of the page, if the
entry of the page is valid.
-/
def CopiedEntry (s t : Paging ι) (dst src : ι) (k : PteKey) : Prop :=
  if (s.entries (src, k)).valid then
    ∃ p, p ∈ s.free ∧ p ∉ t.free ∧ t.data p = s.data (s.entries (src, k)).ppn ∧
      t.entries (dst, k) =
        Pte.pteCreate p (Pte.pteV ||| ((s.entries (src, k)).flags &&& Pte.pteUser))
  else
    t.entries (dst, k) = s.entries (dst, k)

/--
The entries in `R` are copied, nothing else that is in use changes.
-/
structure Copies (s t : Paging ι) (dst src : ι) (R : PteKey → Prop) : Prop where
  copied : ∀ k, R k → CopiedEntry s t dst src k
  others : ∀ i k, ¬(i = dst ∧ R k) → t.entries (i, k) = s.entries (i, k)
  free : t.free ⊆ s.free
  data : ∀ f, f ∉ s.free → t.data f = s.data f

omit [DecidableEq ι] [Fintype ι] in
theorem Copies.refl (h : ∀ k, R k → (s.entries (src, k)).valid = false) : Copies s s dst src R := by
  refine ⟨?_, fun _ _ _ => rfl, Finset.Subset.refl _, fun _ _ => rfl⟩
  intro k hk
  rw [CopiedEntry, h k hk]
  exact rfl

omit [DecidableEq ι] in
theorem Consistent.ppn_not_free {x : ι × PteKey} (h : Consistent s) (hvalid : (s.entries x).valid = true)
    : (s.entries x).ppn ∉ s.free := by
  apply h.not_free
  apply Finset.card_pos.mpr
  exact ⟨x, Finset.mem_filter.mpr ⟨Finset.mem_univ x, hvalid, rfl⟩⟩

omit [DecidableEq ι] in
theorem Copies.trans (hs : Consistent s) (hne : src ≠ dst) (h₁ : Copies s t dst src R)
    (h₂ : Copies t u dst src R') (hdisj : ∀ k, R k → ¬R' k)
    : Copies s u dst src fun k => R k ∨ R' k := by
  have hsrc : ∀ k, t.entries (src, k) = s.entries (src, k) := fun k => h₁.others src k fun h => hne h.1
  refine ⟨?_, ?_, h₂.free.trans h₁.free, ?_⟩
  . rintro k (hk | hk)
    . have hcopied := h₁.copied k hk
      have hsame := h₂.others dst k fun h => hdisj k hk h.2
      unfold CopiedEntry at hcopied ⊢
      split at hcopied
      next hvalid =>
        obtain ⟨p, hmem, hnot, hdata, hentry⟩ := hcopied
        rw [if_pos hvalid]
        exact ⟨p, hmem, fun hp => hnot (h₂.free hp), (h₂.data p hnot).trans hdata, hsame.trans hentry⟩
      next hvalid =>
        rw [if_neg hvalid]
        exact hsame.trans hcopied
    . have hcopied := h₂.copied k hk
      have hsame := h₁.others dst k fun h => hdisj k h.2 hk
      unfold CopiedEntry at hcopied ⊢
      rw [hsrc, hsame] at hcopied
      split at hcopied
      next hvalid =>
        obtain ⟨p, hmem, hnot, hdata, hentry⟩ := hcopied
        rw [if_pos hvalid]
        exact ⟨p, h₁.free hmem, hnot, hdata.trans (h₁.data _ (hs.ppn_not_free hvalid)), hentry⟩
      next hvalid =>
        rw [if_neg hvalid]
        exact hcopied
  . rintro i k hnot
    rw [h₂.others i k fun h => hnot ⟨h.1, .inr h.2⟩, h₁.others i k fun h => hnot ⟨h.1, .inl h.2⟩]
  . intro f hf
    rw [h₂.data f fun hmem => hf (h₁.free hmem), h₁.data f hf]

omit [DecidableEq ι] [Fintype ι] in
theorem Copies.congr (h : Copies s t dst src R) (hiff : ∀ k, R k ↔ R' k) : Copies s t dst src R' :=
  ⟨fun k hk => h.copied k ((hiff k).mpr hk), fun i k hnot => h.others i k fun hn =>
    hnot ⟨hn.1, (hiff k).mp hn.2⟩, h.free, h.data⟩

omit [DecidableEq ι] [Fintype ι] in
theorem allocPage_data (h : s.allocPage pmm = some (page, t)) : t.data = s.data := by
  obtain ⟨p, -, heq⟩ := Option.map_eq_some_iff.mp h
  obtain ⟨-, rfl⟩ := Prod.mk.inj heq
  rfl

omit [Fintype ι] in
theorem createPageDir_data : (s.createPageDir pmm i la).2.data = s.data := by
  unfold createPageDir
  split
  . rfl
  . split
    . rfl
    next page t halloc =>
      have hdata := allocPage_data halloc
      exact hdata

omit [Fintype ι] in
theorem createPageTable_data : (s.createPageTable pmm i la).2.data = s.data := by
  unfold createPageTable
  split
  . rfl
  . split
    . rfl
    . split
      . rfl
      next page t halloc =>
        have hdata := allocPage_data halloc
        exact hdata

omit [Fintype ι] in
theorem getPteCreate_data : (s.getPteCreate pmm i la).2.data = s.data := by
  have hdir := @createPageDir_data ι _ pmm s i la
  unfold getPteCreate
  split
  next t heq =>
    rw [heq] at hdir
    exact hdir
  next t heq =>
    rw [heq] at hdir
    have htable := @createPageTable_data ι _ pmm t i la
    split
    next u heq =>
      rw [heq] at htable
      exact htable.trans hdir
    next u heq =>
      rw [heq] at htable
      exact htable.trans hdir

omit [Fintype ι] in
theorem pageRemovePte_data : (s.pageRemovePte i la pte).data = s.data := by
  simp only [pageRemovePte]
  split
  . split <;> rfl
  . rfl

omit [Fintype ι] in
theorem insertEntry_entries (hget : s.getPte i la = some old)
    : (s.insertEntry i page la old perm).entries =
        Function.update s.entries (i, pteKey la) (Pte.pteCreate page (Pte.pteV ||| perm)) := by
  rw [insertEntry]
  by_cases hvalid : old.valid = true
  . rw [if_pos hvalid]
    by_cases hsame : old.ppn = page
    . rw [if_pos hsame]
      exact @entries_setPte _ _ ((s.pageRefInc page).pageRefDec page) i la _ _ hget
    . rw [if_neg hsame]
      have hget' : (s.pageRefInc page).getPte i la = some old := hget
      rw [entries_setPte (pageRemovePte_getPte hget' hvalid), (pageRemovePte_valid hget' hvalid).1,
        Function.update_idem]
      rfl
  . rw [if_neg hvalid]
    exact @entries_setPte _ _ (s.pageRefInc page) i la _ _ hget

omit [Fintype ι] in
theorem insertEntry_data : (s.insertEntry i page la old perm).data = s.data := by
  rw [insertEntry]
  split
  . split
    . rfl
    . exact pageRemovePte_data
  . rfl

omit [Fintype ι] in
theorem pageInsert_data : (s.pageInsert pmm i page la perm).2.data = s.data := by
  have hdata := @getPteCreate_data ι _ pmm s i la
  rw [pageInsert]
  rcases hcreate : s.getPteCreate pmm i la with ⟨_ | pte, t⟩ <;> rw [hcreate] at hdata
  . exact hdata
  . rw [← hdata]
    exact insertEntry_data

omit [Fintype ι] in
theorem pageInsert_entries (hret : (s.pageInsert pmm i page la perm).1 = 0)
    : (s.pageInsert pmm i page la perm).2.entries =
        Function.update s.entries (i, pteKey la) (Pte.pteCreate page (Pte.pteV ||| perm)) := by
  have hext := @getPteCreate_extends ι _ pmm s i la
  rw [pageInsert] at hret ⊢
  rcases hcreate : s.getPteCreate pmm i la with ⟨_ | pte, t⟩ <;> rw [hcreate] at hext hret
  . exact absurd hret (show -Errno.noMem.toInt ≠ 0 by decide)
  . rw [← hext.entries]
    exact insertEntry_entries (getPteCreate_getPte hcreate)

omit [Fintype ι] in
/--
Where nothing was mapped nothing is given back.
-/
theorem pageInsert_free (hzero : (s.entries (i, pteKey la)).valid = false)
    : (s.pageInsert pmm i page la perm).2.free ⊆ s.free := by
  have hext := @getPteCreate_extends ι _ pmm s i la
  rw [pageInsert]
  rcases hcreate : s.getPteCreate pmm i la with ⟨_ | pte, t⟩ <;> rw [hcreate] at hext
  . exact hext.free
  . have hold : pte.valid = false := by
      rw [← entries_of_getPte (getPteCreate_getPte hcreate), hext.entries, hzero]
    have hfree : (t.insertEntry i page la pte perm).free = t.free := by
      rw [insertEntry, if_neg (by simp [hold])]
      rfl
    exact hfree.le.trans hext.free

/--
A round of `copy_range` copies the entry of its page.
-/
theorem copyRound_copies (hs : Consistent s) (hget : s.getPte src start = some pte)
    (hzero : (s.entries (dst, pteKey start)).valid = false)
    (hround : s.copyRound pmm dst src start = some (0, t))
    : Copies s t dst src fun k => k = pteKey start := by
  have hentry := entries_of_getPte hget
  rw [copyRound, hget] at hround
  simp only at hround
  by_cases hvalid : pte.valid = true
  . rw [if_pos hvalid] at hround
    have hext := @getPteCreate_extends ι _ pmm s dst start
    have hdata := @getPteCreate_data ι _ pmm s dst start
    rcases hcreate : s.getPteCreate pmm dst start with ⟨_ | npte, u⟩ <;>
      rw [hcreate] at hext hdata <;> simp only [hcreate] at hround
    . exact absurd (Prod.mk.inj (Option.some_inj.mp hround)).1 (by decide)
    . cases halloc : u.allocPage pmm with
      | none => simp [halloc] at hround
      | some r =>
        obtain ⟨npage, v⟩ := r
        obtain ⟨hext', hmem, hnot, -⟩ := allocPage_extends halloc
        have hdata' := allocPage_data halloc
        simp only [halloc] at hround
        generalize hw : ({ v with data := Function.update v.data npage (v.data pte.ppn) } : Paging ι) = w
          at hround
        have hentries : w.entries = s.entries := by
          rw [← hext.entries, ← hext'.entries]
          subst hw
          rfl
        have hfree : w.free = v.free := by
          subst hw
          rfl
        have hwdata : w.data = Function.update s.data npage (s.data pte.ppn) := by
          have hv : v.data = s.data := hdata'.trans hdata
          subst hw
          simp only [hv]
        have hnpage : npage ∈ s.free := hext.free hmem
        by_cases hret : (w.pageInsert pmm dst npage start (pte.flags &&& Pte.pteUser)).1 = 0
        . simp only [hret, if_true] at hround
          obtain ⟨-, rfl⟩ := Prod.mk.inj (Option.some_inj.mp hround)
          have hnew := pageInsert_entries hret
          have hnewData := @pageInsert_data _ _ pmm w dst start npage (pte.flags &&& Pte.pteUser)
          have hnewFree := @pageInsert_free _ _ pmm w dst start npage (pte.flags &&& Pte.pteUser)
            (hentries ▸ hzero)
          have hnotfree : npage ∉ (w.pageInsert pmm dst npage start (pte.flags &&& Pte.pteUser)).2.free :=
            fun hp => hnot (hfree ▸ hnewFree hp)
          have hppn : pte.ppn ≠ npage := by
            rintro heq
            have := hs.ppn_not_free (x := (src, pteKey start)) (hentry ▸ hvalid)
            rw [hentry, heq] at this
            exact this hnpage
          refine ⟨?_, ?_, ?_, ?_⟩
          . rintro k rfl
            rw [CopiedEntry, hentry, if_pos hvalid]
            refine ⟨npage, hnpage, hnotfree, ?_, ?_⟩
            . rw [hnewData, hwdata, Function.update_self]
            . rw [hnew, Function.update_self]
          . intro i k hother
            rw [hnew, Function.update_of_ne, hentries]
            rintro heq
            exact hother (Prod.mk.inj heq)
          . exact (hnewFree.trans hfree.le).trans (hext'.free.trans hext.free)
          . intro f hf
            rw [hnewData, hwdata, Function.update_of_ne]
            rintro rfl
            exact hf hnpage
        . simp [hret] at hround
  . rw [if_neg hvalid] at hround
    obtain ⟨-, rfl⟩ := Prod.mk.inj (Option.some_inj.mp hround)
    apply Copies.refl
    rintro k rfl
    rw [hentry]
    simpa using hvalid

/--
The entries of the pages between two addresses.
-/
def InRange (start stop : Nat) (k : PteKey) : Prop := ∃ la, start ≤ la ∧ la < stop ∧ k = pteKey la

omit [DecidableEq ι] [Fintype ι] in
theorem nextAddr_mod (h : start % pgsize = 0) : s.nextAddr src start % pgsize = 0 := by
  unfold nextAddr
  split
  . rw [Nat.add_mod_right, h]
  . exact Nat.mod_eq_zero_of_dvd (Dvd.dvd.mul_left ⟨512, rfl⟩ _)

theorem inRange_disjoint {low mid high : Nat} (hmid : mid % pgsize = 0) (hhigh : high ≤ 2 ^ 39)
    {k : PteKey} (h : InRange low mid k)
    : ¬InRange mid high k := by
  rintro ⟨la', hle', hlt', heq'⟩
  obtain ⟨la, -, hlt, heq⟩ := h
  have := pteKey_inj (show la < 2 ^ 39 by omega) (show la' < 2 ^ 39 by omega) (heq.symm.trans heq')
  simp only [pgsize] at *
  omega

theorem inRange_split {low mid high : Nat} (h₁ : low ≤ mid) (h₂ : mid ≤ high) (k : PteKey)
    : (InRange low mid k ∨ InRange mid high k) ↔ InRange low high k := by
  constructor
  . rintro (⟨la, hle, hlt, rfl⟩ | ⟨la, hle, hlt, rfl⟩)
    . exact ⟨la, hle, by omega, rfl⟩
    . exact ⟨la, by omega, hlt, rfl⟩
  . rintro ⟨la, hle, hlt, rfl⟩
    by_cases hmid : la < mid
    . exact .inl ⟨la, hle, hmid, rfl⟩
    . exact .inr ⟨la, by omega, hlt, rfl⟩

/--
A round of `copy_range` copies everything up to the address where the loop goes on.
-/
theorem copyRound_range {high : Nat} (hs : Consistent s) (hstart : start % pgsize = 0)
    (hlt : start < high) (hhigh : high ≤ s.nextAddr src start)
    (hzero : (s.entries (dst, pteKey start)).valid = false)
    (hround : s.copyRound pmm dst src start = some (0, t))
    : Copies s t dst src (InRange start high) := by
  cases hget : s.getPte src start with
  | some pte =>
    apply (copyRound_copies hs hget hzero hround).congr
    intro k
    rw [nextAddr, hget] at hhigh
    simp only at hhigh
    constructor
    . rintro rfl
      exact ⟨start, Nat.le_refl start, hlt, rfl⟩
    . rintro ⟨la, hle, hla, rfl⟩
      apply pteKey_of_page
      simp only [pgsize] at *
      omega
  | none =>
    -- the page table is missing, so are all entries up to the next one
    rw [copyRound, hget] at hround
    obtain ⟨-, rfl⟩ := Prod.mk.inj (Option.some_inj.mp hround)
    apply Copies.refl
    rintro k ⟨la, hle, hla, rfl⟩
    rw [nextAddr, hget] at hhigh
    simp only at hhigh
    obtain ⟨h₁, h₀⟩ := upper_of_lt hle (Nat.lt_of_lt_of_le hla hhigh)
    rw [entries_of_getPte_none hget h₁ h₀]
    rfl

/--
`copy_range` copies all entries of the range.
-/
theorem copyLoop_copies {s : Paging ι} {start : Nat} {states : List (Paging ι)} (hs : Consistent s)
    (hne : src ≠ dst) (hstart : start % pgsize = 0) (hlt : start < stop) (hstop : stop ≤ 2 ^ 39)
    (hzero : ∀ la, start ≤ la → la < stop → (s.entries (dst, pteKey la)).valid = false)
    (hloop : s.copyLoop pmm dst src stop start = some (0, states))
    : Copies s (states.getLastD s) dst src (InRange start stop) := by
  rw [copyLoop] at hloop
  cases hcopy : s.copyRound pmm dst src start with
  | none => simp [hcopy] at hloop
  | some r =>
    obtain ⟨ret, t⟩ := r
    simp only [hcopy] at hloop
    have hless := s.lt_nextAddr src start
    have hzero' := hzero start (Nat.le_refl start) hlt
    by_cases hret : ret = 0
    . subst hret
      simp only [ne_eq, not_true_eq_false, if_false] at hloop
      split at hloop
      next hnext =>
        obtain ⟨⟨ret', rest⟩, hrest, heq⟩ := Option.map_eq_some_iff.mp hloop
        obtain ⟨rfl, rfl⟩ := Prod.mk.inj heq
        have hround := copyRound_range hs hstart hless (Nat.le_refl _) hzero' hcopy
        have hmod : s.nextAddr src start % pgsize = 0 := nextAddr_mod hstart
        have hzeroNext : ∀ la, s.nextAddr src start ≤ la → la < stop →
            (t.entries (dst, pteKey la)).valid = false := by
          intro la hle hla
          rw [hround.others dst]
          . exact hzero la (by omega) hla
          . rintro ⟨-, hin⟩
            exact inRange_disjoint hmod hstop hin ⟨la, hle, hla, rfl⟩
        have hcons := (copyRound_goesTo hs hcopy).consistent
        have hrest := copyLoop_copies hcons hne hmod hnext.2 hstop hzeroNext hrest
        have hall := Copies.trans hs hne hround hrest fun k hk => inRange_disjoint hmod hstop hk
        simp only [List.getLastD_cons]
        exact hall.congr (inRange_split (Nat.le_of_lt hless) (Nat.le_of_lt hnext.2))
      next hnext =>
        obtain ⟨-, rfl⟩ := Prod.mk.inj (Option.some_inj.mp hloop)
        exact copyRound_range hs hstart hlt (by omega) hzero' hcopy
    . simp only [ne_eq, hret, not_false_eq_true, if_true] at hloop
      exact absurd (Prod.mk.inj (Option.some_inj.mp hloop)).1 hret
termination_by stop - start
decreasing_by omega

end Paging
end Ucore

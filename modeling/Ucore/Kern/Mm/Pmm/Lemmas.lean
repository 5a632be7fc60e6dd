import Mathlib
import Ucore.Kern.Mm.Pmm.Impl

/-!
This module contains the flat view of page tables, the number of entries that map a frame, and what the
functions of kern/mm/pmm.c do to it.
-/

namespace Ucore

namespace Pte

/--
The entry is valid and maps the frame.
-/
def Maps (pte : Pte) (frame : Nat) : Prop := pte.valid = true ∧ pte.ppn = frame

instance (pte : Pte) (frame : Nat) : Decidable (pte.Maps frame) := inferInstanceAs (Decidable (_ ∧ _))

theorem maps_pteCreate {page frame : Nat} {perm : BitVec 10}
    : (pteCreate page (pteV ||| perm)).Maps frame ↔ page = frame := by
  simp [Maps, pteCreate, valid, pteV]

theorem not_maps_zero {frame : Nat} : ¬zero.Maps frame := by
  simp [Maps, zero, valid]

end Pte

abbrev PteKey := Fin 512 × Fin 512 × Fin 512

/--
Where the entry of an address is.
-/
def pteKey (la : Nat) : PteKey := (pdx1 la, pdx0 la, ptx la)

namespace Pgdir

/--
The leaf entries of a page directory. There is no entry where a table is missing.
-/
def entryAt (pgdir : Pgdir) (k : PteKey) : Pte :=
  match pgdir k.1 with
  | none => Pte.zero
  | some pd =>
    match pd.tables k.2.1 with
    | none => Pte.zero
    | some pt => pt.entries k.2.2

variable {pgdir : Pgdir} {la : Nat} {pte old : Pte} {pd : PageDir} {page : Nat}

theorem entryAt_of_getPte (h : pgdir.getPte la = some pte) : pgdir.entryAt (pteKey la) = pte := by
  obtain ⟨pd, hpd, hpt⟩ := Option.bind_eq_some_iff.mp h
  obtain ⟨pt, hpt, hpte⟩ := Option.map_eq_some_iff.mp hpt
  simp only [entryAt, pteKey, hpd, hpt, hpte]

theorem entryAt_setPte (h : pgdir.getPte la = some old)
    : (pgdir.setPte la pte).entryAt = Function.update pgdir.entryAt (pteKey la) pte := by
  obtain ⟨pd, hpd, hpt⟩ := Option.bind_eq_some_iff.mp h
  obtain ⟨pt, hpt, -⟩ := Option.map_eq_some_iff.mp hpt
  funext ⟨k₁, k₀, k⟩
  simp only [setPte, hpd, hpt]
  by_cases h₁ : k₁ = pdx1 la
  . subst h₁
    by_cases h₀ : k₀ = pdx0 la
    . subst h₀
      by_cases hk : k = ptx la
      . subst hk
        simp [entryAt, pteKey]
      . simp [entryAt, pteKey, hk, hpd, hpt]
    . simp [entryAt, pteKey, h₀, hpd]
  . simp [entryAt, pteKey, h₁]

theorem entryAt_newDir (h : pgdir (pdx1 la) = none)
    : entryAt (Function.update pgdir (pdx1 la) (some ⟨page, fun _ => none⟩)) = pgdir.entryAt := by
  funext ⟨k₁, k₀, k⟩
  by_cases h₁ : k₁ = pdx1 la
  . subst h₁
    simp [entryAt, h]
  . simp [entryAt, h₁]

theorem entryAt_newTable (hpd : pgdir (pdx1 la) = some pd) (hpt : pd.tables (pdx0 la) = none)
    : entryAt (Function.update pgdir (pdx1 la) (some { pd with
        tables := Function.update pd.tables (pdx0 la) (some ⟨page, fun _ => Pte.zero⟩) })) =
          pgdir.entryAt := by
  funext ⟨k₁, k₀, k⟩
  by_cases h₁ : k₁ = pdx1 la
  . subst h₁
    by_cases h₀ : k₀ = pdx0 la
    . subst h₀
      simp [entryAt, hpd, hpt]
    . simp [entryAt, h₀, hpd]
  . simp [entryAt, h₁]

end Pgdir

section Count

variable {α β : Type} [Fintype α] [DecidableEq α] (g : α → β) (a : α) (b : β) (P : β → Prop)
  [DecidablePred P]

/--
A change of one value changes the number of values with a property by what the old and the new value
have of it.
-/
theorem card_filter_update
    : (Finset.univ.filter fun x => P (Function.update g a b x)).card + (if P (g a) then 1 else 0) =
        (Finset.univ.filter fun x => P (g x)).card + (if P b then 1 else 0) := by
  rw [Finset.card_filter, Finset.card_filter, ← Finset.sum_erase_add _ _ (Finset.mem_univ a),
    ← Finset.sum_erase_add Finset.univ (fun x => if P (g x) then 1 else 0) (Finset.mem_univ a)]
  have hrest : ∀ x ∈ Finset.univ.erase a,
      (if P (Function.update g a b x) then 1 else 0) = if P (g x) then 1 else 0 := by
    intro x hx
    rw [Function.update_of_ne (Finset.ne_of_mem_erase hx)]
  rw [Finset.sum_congr rfl hrest, Function.update_self]
  omega

end Count

namespace Paging

variable {ι : Type} [DecidableEq ι] {pmm : PmmManager} {s t u : Paging ι} {i : ι} {la page f : Nat}
  {pte old : Pte} {perm : BitVec 10}

/--
The leaf entries of all page tables.
-/
def entries (s : Paging ι) (x : ι × PteKey) : Pte := (s.pgdirs x.1).entryAt x.2

omit [DecidableEq ι] in
theorem entries_of_getPte (h : s.getPte i la = some pte) : s.entries (i, pteKey la) = pte :=
  Pgdir.entryAt_of_getPte h

theorem entries_setPgdir {pgdir : Pgdir} (h : pgdir.entryAt = (s.pgdirs i).entryAt)
    : (s.setPgdir i pgdir).entries = s.entries := by
  funext ⟨j, k⟩
  by_cases hj : j = i
  . subst hj
    simp [entries, setPgdir, h]
  . simp [entries, setPgdir, hj]

theorem entries_setPte (h : s.getPte i la = some old)
    : (s.setPte i la pte).entries = Function.update s.entries (i, pteKey la) pte := by
  funext ⟨j, k⟩
  by_cases hj : j = i
  . subst hj
    simp only [entries, setPte, setPgdir, Function.update_self, Pgdir.entryAt_setPte h]
    by_cases hk : k = pteKey la
    . simp [hk]
    . simp [hk, entries]
  . simp [entries, setPte, setPgdir, hj]

/--
What the creation of tables may change: free frames are taken, no entry changes.
-/
structure Extends (s t : Paging ι) : Prop where
  entries : t.entries = s.entries
  free : t.free ⊆ s.free
  ref : ∀ f, f ∉ s.free ∨ f ∈ t.free → t.ref f = s.ref f

omit [DecidableEq ι] in
theorem Extends.refl (s : Paging ι) : Extends s s :=
  ⟨rfl, Finset.Subset.refl _, fun _ _ => rfl⟩

omit [DecidableEq ι] in
theorem Extends.trans (h₁ : Extends s t) (h₂ : Extends t u) : Extends s u := by
  refine ⟨h₂.entries.trans h₁.entries, h₂.free.trans h₁.free, ?_⟩
  rintro f (hf | hf)
  . have hft : f ∉ t.free := fun hmem => hf (h₁.free hmem)
    rw [h₂.ref f (.inl hft), h₁.ref f (.inl hf)]
  . rw [h₂.ref f (.inr hf), h₁.ref f (.inr (h₂.free hf))]

omit [DecidableEq ι] in
theorem allocPage_extends (h : s.allocPage pmm = some (page, t))
    : Extends s t ∧ page ∈ s.free ∧ page ∉ t.free ∧ t.ref = s.ref := by
  obtain ⟨p, hp, heq⟩ := Option.map_eq_some_iff.mp h
  obtain ⟨rfl, rfl⟩ := Prod.mk.inj heq
  exact ⟨⟨rfl, Finset.erase_subset _ _, fun _ _ => rfl⟩, pmm.mem hp, Finset.notMem_erase _ _, rfl⟩

omit [DecidableEq ι] in
theorem allocPage_pgdirs (h : s.allocPage pmm = some (page, t)) : t.pgdirs = s.pgdirs := by
  obtain ⟨p, -, heq⟩ := Option.map_eq_some_iff.mp h
  obtain ⟨-, rfl⟩ := Prod.mk.inj heq
  rfl

/--
A new table is a frame that was free, its reference count is set.
-/
theorem newTable_extends {pgdir : Pgdir} {val : Int} (h : s.allocPage pmm = some (page, t))
    (hentry : pgdir.entryAt = (s.pgdirs i).entryAt)
    : Extends s ((t.setPageRef page val).setPgdir i pgdir) := by
  obtain ⟨hext, hmem, hnot, href⟩ := allocPage_extends h
  have hpgdirs := allocPage_pgdirs h
  refine ⟨?_, hext.free, ?_⟩
  . rw [entries_setPgdir]
    . exact hext.entries
    . rw [hentry]
      simp only [setPageRef, hpgdirs]
  . intro f hf
    have hne : f ≠ page := by
      rintro rfl
      rcases hf with hf | hf
      . exact hf hmem
      . exact hnot hf
    simp only [setPgdir, setPageRef, Function.update_of_ne hne, href]

theorem createPageDir_extends : Extends s (s.createPageDir pmm i la).2 := by
  unfold createPageDir
  split
  . exact Extends.refl s
  next hnone =>
    split
    . exact Extends.refl s
    next page t halloc =>
      apply newTable_extends halloc
      have hpgdirs := allocPage_pgdirs halloc
      simp only [setPageRef, hpgdirs]
      exact Pgdir.entryAt_newDir hnone

theorem createPageTable_extends : Extends s (s.createPageTable pmm i la).2 := by
  unfold createPageTable
  split
  . exact Extends.refl s
  next pd hpd =>
    split
    . exact Extends.refl s
    next hpt =>
      split
      . exact Extends.refl s
      next page t halloc =>
        apply newTable_extends halloc
        have hpgdirs := allocPage_pgdirs halloc
        simp only [setPageRef, hpgdirs]
        exact Pgdir.entryAt_newTable hpd hpt

theorem getPteCreate_extends : Extends s (s.getPteCreate pmm i la).2 := by
  have hdir := @createPageDir_extends ι _ pmm s i la
  unfold getPteCreate
  split
  next t heq =>
    rw [heq] at hdir
    exact hdir
  next t heq =>
    rw [heq] at hdir
    have htable := @createPageTable_extends ι _ pmm t i la
    split
    next u heq =>
      rw [heq] at htable
      exact hdir.trans htable
    next u heq =>
      rw [heq] at htable
      exact hdir.trans htable

theorem getPteCreate_getPte (h : s.getPteCreate pmm i la = (some pte, t)) : t.getPte i la = some pte := by
  unfold getPteCreate at h
  split at h
  . cases h
  . split at h
    . cases h
    . obtain ⟨hget, rfl⟩ := Prod.mk.inj h
      exact hget

theorem getPte_setPte (hget : s.getPte i la = some old) : (s.setPte i la pte).getPte i la = some pte := by
  obtain ⟨pd, hpd, hpt⟩ := Option.bind_eq_some_iff.mp hget
  obtain ⟨pt, hpt, -⟩ := Option.map_eq_some_iff.mp hpt
  simp [getPte, setPte, setPgdir, Pgdir.getPte, Pgdir.setPte, hpd, hpt]

theorem pageRemovePte_getPte (hget : s.getPte i la = some pte) (hvalid : pte.valid = true)
    : (s.pageRemovePte i la pte).getPte i la = some Pte.zero := by
  simp only [pageRemovePte, hvalid, if_true]
  split <;> exact getPte_setPte hget

/--
What `page_remove_pte` does to a valid entry.
-/
theorem pageRemovePte_valid (hget : s.getPte i la = some pte) (hvalid : pte.valid = true)
    : (s.pageRemovePte i la pte).entries = Function.update s.entries (i, pteKey la) Pte.zero ∧
        (s.pageRemovePte i la pte).ref = Function.update s.ref pte.ppn (s.ref pte.ppn - 1) ∧
        (s.pageRemovePte i la pte).free =
          if s.ref pte.ppn = 1 then insert pte.ppn s.free else s.free := by
  have hiff : s.ref pte.ppn - 1 = 0 ↔ s.ref pte.ppn = 1 := by omega
  simp only [pageRemovePte, hvalid, if_true, pageRefDec, setPageRef, Function.update_self, hiff]
  split
  next hone =>
    refine ⟨entries_setPte hget, ?_, rfl⟩
    simp [setPte, setPgdir, freePage, hone]
  . exact ⟨entries_setPte hget, rfl, rfl⟩

end Paging
end Ucore

import Ucore.Kern.Mm.Vmm.DupMmap
import Ucore.Kern.Process.LoadIcode.Impl
import Ucore.Kern.Mm.Vmm.Areas

/-!
This module contains what a process finds in its pages while no frame is mapped twice, what holds of an address space
while `load_icode` builds it, and what a phase of `load_icode` leaves as it is.
-/

namespace Ucore

namespace Paging

variable {ι : Type} {s t : Paging ι} {i : ι} {la page : Nat} {k : PteKey}

/--
What is in the page of an entry.
-/
def contents (s : Paging ι) (i : ι) (k : PteKey) : Option PageData :=
  if (s.entries (i, k)).valid then some (s.data (s.entries (i, k)).ppn) else none

/--
The entries of an address space are valid or zero, and no frame is mapped twice or free.
-/
structure Private (s : Paging ι) (i : ι) : Prop where
  zero : ∀ k, (s.entries (i, k)).valid = false → s.entries (i, k) = Pte.zero
  not_free : ∀ k, (s.entries (i, k)).valid = true → (s.entries (i, k)).ppn ∉ s.free
  inj : ∀ k k', (s.entries (i, k)).valid = true → (s.entries (i, k')).valid = true →
    (s.entries (i, k)).ppn = (s.entries (i, k')).ppn → k = k'

theorem contents_of_maps (h : (s.entries (i, k)).Maps page) : s.contents i k = some (s.data page) := by
  rw [contents, if_pos h.1, h.2]

theorem Private.of_entries (h : s.Private i) (hentries : t.entries = s.entries) (hfree : t.free ⊆ s.free)
    : t.Private i := by
  refine ⟨?_, ?_, ?_⟩
  . rw [hentries]
    exact h.zero
  . rw [hentries]
    exact fun k hvalid hmem => h.not_free k hvalid (hfree hmem)
  . rw [hentries]
    exact h.inj

theorem pageRead_of_contents {swap : Pte → Option PageData} {d : PageData}
    (h : s.contents i (pteKey la) = some d)
    : s.pageRead swap i la = some d := by
  rw [pageRead_eq]
  rw [contents] at h
  split at h
  next hvalid => rw [if_pos hvalid, h]
  . contradiction

/--
A frame of a private address space gets new contents.
-/
theorem Private.contents_write (h : s.Private i) (hmaps : (s.entries (i, k)).Maps page) {d : PageData}
    : ({ s with data := Function.update s.data page d } : Paging ι).contents i =
        Function.update (s.contents i) k (some d) := by
  funext k'
  have hentries : ({ s with data := Function.update s.data page d } : Paging ι).entries = s.entries := rfl
  by_cases hk : k' = k
  . subst hk
    rw [Function.update_self, contents, hentries, if_pos hmaps.1, hmaps.2]
    simp only [Function.update_self]
  . rw [Function.update_of_ne hk, contents, contents, hentries]
    by_cases hvalid : (s.entries (i, k')).valid = true
    . have hne : (s.entries (i, k')).ppn ≠ page := by
        intro heq
        exact hk (h.inj k' k hvalid hmaps.1 (heq.trans hmaps.2.symm))
      simp only [if_pos hvalid, Function.update_of_ne hne]
    . rw [if_neg hvalid, if_neg hvalid]

section Alloc

variable [DecidableEq ι] {pmm : PmmManager} {perm : BitVec 10}

/--
What `pgdir_alloc_page` does to an address where nothing is mapped: the frame keeps what it holds.
-/
structure Allocated (s t : Paging ι) (i : ι) (la page : Nat) (perm : BitVec 10) : Prop where
  mem : page ∈ s.free
  notMem : page ∉ t.free
  free : t.free ⊆ s.free
  data : t.data = s.data
  entries : t.entries = Function.update s.entries (i, pteKey la) (Pte.pteCreate page (Pte.pteV ||| perm))

theorem pgdirAllocPage_allocated (hzero : (s.entries (i, pteKey la)).valid = false)
    (h : s.pgdirAllocPage pmm i la perm = (some page, t))
    : Allocated s t i la page perm := by
  unfold pgdirAllocPage at h
  cases halloc : s.allocPage pmm with
  | none => simp [halloc] at h
  | some r =>
    obtain ⟨p, u⟩ := r
    obtain ⟨hext, hmem, hnot, -⟩ := allocPage_extends halloc
    have hdata := allocPage_data halloc
    simp only [halloc] at h
    split at h
    . simp at h
    next hret =>
      rw [not_not] at hret
      obtain ⟨hpage, rfl⟩ := Prod.mk.inj h
      obtain rfl := Option.some_inj.mp hpage
      have hzero' : (u.entries (i, pteKey la)).valid = false := by rw [hext.entries, hzero]
      have hfree := @pageInsert_free _ _ pmm u i la p perm hzero'
      refine ⟨hmem, fun hp => hnot (hfree hp), hfree.trans hext.free, ?_, ?_⟩
      . rw [pageInsert_data, hdata]
      . rw [pageInsert_entries hret, hext.entries]

theorem Allocated.maps (h : Allocated s t i la page perm) : (t.entries (i, pteKey la)).Maps page := by
  rw [h.entries, Function.update_self]
  exact Pte.maps_pteCreate.mpr rfl

theorem Allocated.entries_of_ne (h : Allocated s t i la page perm) (hne : k ≠ pteKey la)
    : t.entries (i, k) = s.entries (i, k) := by
  rw [h.entries, Function.update_of_ne]
  exact fun heq => hne (Prod.mk.inj heq).2

theorem Allocated.private (h : Allocated s t i la page perm) (hs : s.Private i) : t.Private i := by
  have hnew : (t.entries (i, pteKey la)).ppn = page := h.maps.2
  refine ⟨?_, ?_, ?_⟩
  . intro k hvalid
    by_cases hk : k = pteKey la
    . subst hk
      rw [h.maps.1] at hvalid
      contradiction
    . rw [h.entries_of_ne hk] at hvalid ⊢
      exact hs.zero k hvalid
  . intro k hvalid
    by_cases hk : k = pteKey la
    . subst hk
      rw [hnew]
      exact h.notMem
    . rw [h.entries_of_ne hk] at hvalid ⊢
      exact fun hmem => hs.not_free k hvalid (h.free hmem)
  . intro k k' hvalid hvalid' heq
    by_cases hk : k = pteKey la <;> by_cases hk' : k' = pteKey la
    . rw [hk, hk']
    . subst hk
      rw [hnew, h.entries_of_ne hk'] at heq
      rw [h.entries_of_ne hk'] at hvalid'
      exact absurd (heq ▸ h.mem) (hs.not_free k' hvalid')
    . subst hk'
      rw [hnew, h.entries_of_ne hk] at heq
      rw [h.entries_of_ne hk] at hvalid
      exact absurd (heq ▸ h.mem) (hs.not_free k hvalid)
    . rw [h.entries_of_ne hk] at hvalid heq
      rw [h.entries_of_ne hk'] at hvalid' heq
      exact hs.inj k k' hvalid hvalid' heq

theorem Allocated.contents (h : Allocated s t i la page perm)
    : t.contents i = Function.update (s.contents i) (pteKey la) (some (s.data page)) := by
  funext k
  by_cases hk : k = pteKey la
  . subst hk
    rw [Function.update_self, contents_of_maps h.maps, h.data]
  . rw [Function.update_of_ne hk, Paging.contents, Paging.contents, h.entries_of_ne hk, h.data]

end Alloc

end Paging

namespace LoadM

open Paging (InAreas InRange)

variable {ι : Type} {s t u : Loading ι} {s₀ : Paging ι} {i : ι} {env : LoadEnv} {vma : Vma} {k : PteKey}

/--
What holds all the time: `s₀` is the state that `load_icode` starts in. A frame that is free has not been
written since then.
-/
structure Inv (s₀ : Paging ι) (i : ι) (s : Loading ι) : Prop where
  priv : s.paging.Private i
  ok : Vma.AllOk s.mmapList
  inAreas : ∀ k, (s.paging.entries (i, k)).valid = true → InAreas s.mmapList k
  free : s.paging.free ⊆ s₀.free
  stale : ∀ f ∈ s.paging.free, s.paging.data f = s₀.data f

/--
The pages of the areas that exist already stay as they are.
-/
structure Grows (i : ι) (s t : Loading ι) : Prop where
  areas : ∀ vma ∈ s.mmapList, vma ∈ t.mmapList
  entries : ∀ k, InAreas s.mmapList k → t.paging.entries (i, k) = s.paging.entries (i, k)
  contents : ∀ k, InAreas s.mmapList k → t.paging.contents i k = s.paging.contents i k
  file : t.file = s.file

theorem Grows.refl (s : Loading ι) : Grows i s s := ⟨fun _ => id, fun _ _ => rfl, fun _ _ => rfl, rfl⟩

theorem Grows.inAreas (h : Grows i s t) (hk : InAreas s.mmapList k) : InAreas t.mmapList k := by
  obtain ⟨vma, hmem, hrange⟩ := hk
  exact ⟨vma, h.areas vma hmem, hrange⟩

theorem Grows.trans (h₁ : Grows i s t) (h₂ : Grows i t u) : Grows i s u where
  areas vma hmem := h₂.areas vma (h₁.areas vma hmem)
  entries k hk := (h₂.entries k (h₁.inAreas hk)).trans (h₁.entries k hk)
  contents k hk := (h₂.contents k (h₁.inAreas hk)).trans (h₁.contents k hk)
  file := h₂.file.trans h₁.file

/--
`mm_map` has put an area between those that exist.
-/
structure AreaAdded (vma : Vma) (s t : Loading ι) : Prop where
  paging : t.paging = s.paging
  file : t.file = s.file
  ok : Vma.AllOk t.mmapList
  mem : ∀ v, v ∈ t.mmapList ↔ v = vma ∨ v ∈ s.mmapList
  apart : ∀ v ∈ s.mmapList, v.vmEnd ≤ vma.vmStart ∨ vma.vmEnd ≤ v.vmStart

theorem mmMap_added {addr len : Nat} {vmFlags : BitVec 32} (hok : Vma.AllOk s.mmapList)
    (h : mmMap env addr len vmFlags s = .ok () t)
    : AreaAdded ⟨addr / pgsize * pgsize, roundUp ((addr + len) % 2 ^ 64), vmFlags⟩ s t := by
  unfold mmMap at h
  generalize hvma : (⟨addr / pgsize * pgsize, roundUp ((addr + len) % 2 ^ 64), vmFlags⟩ : Vma) = vma at h ⊢
  split at h
  next haccess =>
    rw [Prog.get_bind_run] at h
    split at h
    . cases h
    . split at h
      . cases hins : Vma.insertVmaStruct s.mmapList vma with
        | none =>
          rw [hins] at h
          cases h
        | some mmapList =>
          rw [hins] at h
          obtain ⟨-, rfl⟩ := Outcome.ok.inj h
          have haligned : vma.vmStart % pgsize = 0 ∧ vma.vmEnd % pgsize = 0 := by
            rw [← hvma]
            exact ⟨Nat.mul_mod_left _ _, Nat.mul_mod_left _ _⟩
          obtain ⟨hok', hmem, hapart⟩ := Vma.insertVmaStruct_ok hok haligned haccess hins
          exact ⟨rfl, rfl, hok', hmem, hapart⟩
      . cases h
  . cases h

theorem inRange_mono {low low' high high' : Nat} (hlow : low' ≤ low) (hhigh : high ≤ high')
    (h : InRange low high k)
    : InRange low' high' k := by
  obtain ⟨la, hle, hlt, rfl⟩ := h
  exact ⟨la, by omega, by omega, rfl⟩

/--
Areas that do not overlap have no page in common.
-/
theorem not_inRange_of_apart {vmas : List Vma} (hok : Vma.AllOk vmas) {v w : Vma} (hv : v ∈ vmas) (hw : w ∈ vmas)
    (hapart : v.vmEnd ≤ w.vmStart ∨ w.vmEnd ≤ v.vmStart) (hk : InRange v.vmStart v.vmEnd k)
    : ¬InRange w.vmStart w.vmEnd k := by
  intro hk'
  have hv' := (hok.access v hv).2.2
  have hw' := (hok.access w hw).2.2
  have htop : userTop ≤ 2 ^ 39 := by decide
  rcases hapart with hle | hle
  . exact Paging.inRange_disjoint (hok.aligned w hw).1 (hw'.trans htop)
      (inRange_mono (Nat.le_refl _) hle hk) hk'
  . exact Paging.inRange_disjoint (hok.aligned v hv).1 (hv'.trans htop)
      (inRange_mono (Nat.le_refl _) hle hk') hk

theorem AreaAdded.self_mem (h : AreaAdded vma s t) : vma ∈ t.mmapList := (h.mem vma).mpr (.inl rfl)

theorem AreaAdded.not_inAreas (h : AreaAdded vma s t) (hk : InRange vma.vmStart vma.vmEnd k)
    : ¬InAreas s.mmapList k := by
  rintro ⟨v, hv, hk'⟩
  exact not_inRange_of_apart h.ok ((h.mem v).mpr (.inr hv)) h.self_mem (h.apart v hv) hk' hk

theorem AreaAdded.grows (h : AreaAdded vma s t) : Grows i s t where
  areas v hv := (h.mem v).mpr (.inr hv)
  entries k _ := by rw [h.paging]
  contents k _ := by rw [h.paging]
  file := h.file

theorem AreaAdded.inv (h : AreaAdded vma s t) (hs : Inv s₀ i s) : Inv s₀ i t where
  priv := h.paging ▸ hs.priv
  ok := h.ok
  inAreas k hvalid := by
    rw [h.paging] at hvalid
    exact (h.grows (i := i)).inAreas (hs.inAreas k hvalid)
  free := h.paging ▸ hs.free
  stale := h.paging ▸ hs.stale

/--
Nothing is mapped in a new area.
-/
theorem AreaAdded.unmapped (h : AreaAdded vma s t) (hs : Inv s₀ i s) (hk : InRange vma.vmStart vma.vmEnd k)
    : (t.paging.entries (i, k)).valid = false := by
  rw [h.paging, Bool.eq_false_iff]
  exact fun hvalid => h.not_inAreas hk (hs.inAreas k hvalid)

end LoadM
end Ucore

import Ucore.Lab3.Swap.Managers
import Ucore.Lab3.Swap.Slots

/-!
This module contains the replacement list of lab3 and the page tables. There is one `pra_list_head` for all
address spaces: `mm_create` empties it, and the functions that take a page out of a page table leave it alone.
-/

namespace Ucore
namespace Lab3

/--
`live` tells which address spaces there are, and `swappable` which pages of theirs have been given to
`swap_map_swappable` since they were mapped.
-/
structure ListSys (κ : Type) where
  mem : SwapMem κ
  list : PraList
  live : κ → Bool
  swappable : κ → Nat → Bool

/--
`swap_map_swappable` stands for the call together with the assignment of `pra_vaddr` after it. A page fault is a
`page_insert` and a `swap_map_swappable`.
-/
inductive ListEvent (κ : Type) where
  | mmCreate (i : κ)
  | mmDestroy (i : κ)
  | pageInsert (i : κ) (page la perm : Nat)
  | swapMapSwappable (i : κ) (la page : Nat)
  | pageRemove (i : κ) (la : Nat)
  | swapOut (i : κ)

namespace ListSys

variable {κ : Type} [DecidableEq κ]

/--
There is no address space yet.
-/
def init (mem : SwapMem κ) (visited : Nat → Bool) : ListSys κ :=
  ⟨mem, ⟨[], none, visited⟩, fun _ => false, fun _ _ => false⟩

def setSwappable (s : ListSys κ) (i : κ) (vpn : Nat) (b : Bool) : ListSys κ :=
  { s with swappable := Function.update s.swappable i (Function.update (s.swappable i) vpn b) }

/--
A new address space has an empty page table.
-/
def step (sm : SwapManager) (s : ListSys κ) : ListEvent κ → Option (ListSys κ)
  | .mmCreate i => some {
      mem := { s.mem with pte := Function.update s.mem.pte i fun _ => 0 }
      list := s.list.initMm sm
      live := Function.update s.live i true
      swappable := Function.update s.swappable i fun _ => false
    }
  | .mmDestroy i => some { s with live := Function.update s.live i false }
  | .pageInsert i page la perm =>
    let pte := s.mem.pte i (la / pgsize)
    let kept := s.swappable i (la / pgsize) && valid pte && pte2page pte == page
    some ({ s with mem := s.mem.pageInsert i page la perm }.setSwappable i (la / pgsize) kept)
  | .swapMapSwappable i la page =>
    some ({ s with mem := s.mem.setPraVaddr page la, list := s.list.mapSwappable page sm }.setSwappable i
      (la / pgsize) true)
  | .pageRemove i la => some ({ s with mem := s.mem.pageRemove i la }.setSwappable i (la / pgsize) false)
  | .swapOut i =>
    (s.list.swapOutVictim sm).bind fun (page, list) =>
      (s.mem.swapOutRound i page).map fun mem =>
        { s with mem, list }.setSwappable i (s.mem.praVaddr page / pgsize) false

/--
The entry is valid and has this page.
-/
def Maps (s : ListSys κ) (i : κ) (vpn page : Nat) : Prop := valid (s.mem.pte i vpn) ∧ pte2page (s.mem.pte i vpn) = page

/--
What the callers promise. A run ends where `swap_out` finds no page at all, and where its page has no slot on
the swap device.
-/
def Legal (s : ListSys κ) : ListEvent κ → Prop
  | .mmCreate i => s.live i = false
  | .mmDestroy i => s.live i
  | .pageInsert i _ _ perm => s.live i ∧ perm < 2 ^ 10
  | .swapMapSwappable i la page => s.live i ∧ s.Maps i (la / pgsize) page ∧ page ∉ s.list.pages
  | .pageRemove i _ => s.live i
  | .swapOut i =>
    s.live i ∧ s.list.pages ≠ [] ∧ ∀ page ∈ s.list.pages, s.mem.praVaddr page / pgsize + 1 < s.mem.maxSwapOffset

instance Maps.decidable (s : ListSys κ) (i : κ) (vpn page : Nat) : Decidable (s.Maps i vpn page) :=
  inferInstanceAs (Decidable (valid (s.mem.pte i vpn) = true ∧ pte2page (s.mem.pte i vpn) = page))

instance Legal.decidable (s : ListSys κ) : (ev : ListEvent κ) → Decidable (s.Legal ev)
  | .mmCreate i => inferInstanceAs (Decidable (s.live i = false))
  | .mmDestroy i => inferInstanceAs (Decidable (s.live i = true))
  | .pageInsert i _ _ perm => inferInstanceAs (Decidable (s.live i = true ∧ perm < 2 ^ 10))
  | .swapMapSwappable i la page =>
    inferInstanceAs (Decidable (s.live i = true ∧ s.Maps i (la / pgsize) page ∧ page ∉ s.list.pages))
  | .pageRemove i _ => inferInstanceAs (Decidable (s.live i = true))
  | .swapOut i =>
    inferInstanceAs (Decidable (s.live i = true ∧ s.list.pages ≠ [] ∧
      ∀ page ∈ s.list.pages, s.mem.praVaddr page / pgsize + 1 < s.mem.maxSwapOffset))

/--
The list has the swappable pages of every address space, each once, and nothing else.
-/
structure ListOk (s : ListSys κ) : Prop where
  mapped : ∀ i, s.live i → ∀ page ∈ s.list.pages, s.Maps i (s.mem.praVaddr page / pgsize) page
  listed : ∀ i, s.live i → ∀ vpn, s.swappable i vpn →
    valid (s.mem.pte i vpn) ∧ s.list.pages.count (pte2page (s.mem.pte i vpn)) = 1

/--
No page on the list is taken out of a page table or left out of one, and no page is taken off the list that
another address space needs there.
-/
def KeepsList (sm : SwapManager) (s : ListSys κ) : ListEvent κ → Prop
  | .mmCreate _ => ∀ i, s.live i → ∀ vpn, s.swappable i vpn = false
  | .mmDestroy _ => True
  | .pageInsert _ page la _ => ∀ p ∈ s.list.pages, s.mem.praVaddr p / pgsize = la / pgsize → p = page
  | .swapMapSwappable _ la page => ∀ i, s.live i → s.Maps i (la / pgsize) page
  | .pageRemove _ la => ∀ p ∈ s.list.pages, s.mem.praVaddr p / pgsize ≠ la / pgsize
  | .swapOut i => ∀ page list, s.list.swapOutVictim sm = some (page, list) →
      ∀ j ≠ i, s.live j → s.swappable j (s.mem.praVaddr page / pgsize) = false

structure Inv (sm : SwapManager) (s : ListSys κ) : Prop extends ListOk s where
  linked : s.list.WellLinked sm
  place : ∀ i, s.live i → ∀ vpn, s.swappable i vpn → s.mem.praVaddr (pte2page (s.mem.pte i vpn)) / pgsize = vpn

variable {sm : SwapManager} {s s' : ListSys κ} {ev : ListEvent κ} {i j : κ} {la page perm vpn : Nat}

theorem pte2page_pteCreate (hperm : perm < 2 ^ 10) : pte2page (pteCreate page (pteV ||| perm)) = page := by
  have hflags : (pteV ||| (pteV ||| perm)) >>> 10 = 0 := by
    rw [Nat.shiftRight_eq_div_pow]
    exact Nat.div_eq_of_lt (Nat.or_lt_two_pow (by decide) (Nat.or_lt_two_pow (by decide) hperm))
  rw [pte2page, pteCreate, Nat.or_assoc, Nat.shiftRight_or_distrib, hflags, Nat.or_zero, Nat.shiftLeft_shiftRight]

theorem setSwappable_swappable (s : ListSys κ) (i : κ) (vpn : Nat) (b : Bool) (j : κ) (vpn' : Nat)
    : (s.setSwappable i vpn b).swappable j vpn' = if j = i ∧ vpn' = vpn then b else s.swappable j vpn' := by
  by_cases hj : j = i
  . subst hj
    by_cases hvpn : vpn' = vpn <;> simp [setSwappable, hvpn]
  . simp [setSwappable, hj]

theorem pageInsert_pte (mem : SwapMem κ) (i : κ) (page la perm : Nat) (j : κ) (vpn : Nat)
    : (mem.pageInsert i page la perm).pte j vpn =
      if j = i ∧ vpn = la / pgsize then pteCreate page (pteV ||| perm) else mem.pte j vpn :=
  SwapSys.setPte_pte _ _ _ _ _ _

theorem pageRemove_pte (mem : SwapMem κ) (hne : j ≠ i ∨ vpn ≠ la / pgsize)
    : (mem.pageRemove i la).pte j vpn = mem.pte j vpn := by
  rw [SwapMem.pageRemove]
  split
  . rw [SwapSys.setPte_pte, if_neg (by tauto)]
  . rfl

theorem swapOutRound_spec {mem : SwapMem κ} (hvalid : valid (mem.pte i (mem.praVaddr page / pgsize)))
    (hslot : mem.praVaddr page / pgsize + 1 < mem.maxSwapOffset)
    : ∃ mem', mem.swapOutRound i page = some mem' ∧ mem'.praVaddr = mem.praVaddr ∧
      ∀ j vpn, mem'.pte j vpn = if j = i ∧ vpn = mem.praVaddr page / pgsize then
        (mem.praVaddr page / pgsize + 1) <<< 8 else mem.pte j vpn :=
  ⟨_, SwapSys.swapOutRound_eq hvalid hslot, rfl, SwapSys.setPte_pte _ _ _ _⟩

omit [DecidableEq κ] in
/--
A swappable page is on the list.
-/
theorem Inv.swappable_mem (h : s.Inv sm) (hlive : s.live i) (hswappable : s.swappable i vpn)
    : pte2page (s.mem.pte i vpn) ∈ s.list.pages := by
  have := (h.listed i hlive vpn hswappable).2
  exact List.count_pos_iff.mp (by omega)

theorem mmCreate_inv (hkeeps : s.KeepsList sm (.mmCreate i))
    : ∃ s', s.step sm (.mmCreate i) = some s' ∧ s'.Inv sm := by
  have hnone : ∀ j, Function.update s.live i true j → ∀ vpn,
      ¬(Function.update s.swappable i (fun _ => false) j vpn = true) := by
    intro j hlive vpn
    by_cases hj : j = i
    . simp [hj]
    . rw [Function.update_of_ne hj] at hlive ⊢
      simp [hkeeps j hlive vpn]
  refine ⟨_, rfl, ⟨?_, ?_⟩, s.list.initMm_wellLinked sm, ?_⟩
  . intro j _ page hpage
    simp at hpage
  . intro j hlive vpn hswappable
    exact absurd hswappable (hnone j hlive vpn)
  . intro j hlive vpn hswappable
    exact absurd hswappable (hnone j hlive vpn)

theorem Inv.mmDestroy (h : s.Inv sm) (i : κ) : ∃ s', s.step sm (.mmDestroy i) = some s' ∧ s'.Inv sm := by
  have hlive : ∀ j, Function.update s.live i false j → s.live j := by
    intro j hj
    by_cases hji : j = i
    . simp [hji] at hj
    . rwa [Function.update_of_ne hji] at hj
  exact ⟨_, rfl, ⟨fun j hj => h.mapped j (hlive j hj), fun j hj => h.listed j (hlive j hj)⟩, h.linked,
    fun j hj => h.place j (hlive j hj)⟩

theorem Inv.pageInsert (h : s.Inv sm) (hlegal : s.Legal (.pageInsert i page la perm))
    (hkeeps : s.KeepsList sm (.pageInsert i page la perm))
    : ∃ s', s.step sm (.pageInsert i page la perm) = some s' ∧ s'.Inv sm := by
  -- a page that is still swappable at the entry is the page that is inserted
  have hswappable : ∀ j vpn, (s.setSwappable i (la / pgsize) (s.swappable i (la / pgsize) &&
        valid (s.mem.pte i (la / pgsize)) && pte2page (s.mem.pte i (la / pgsize)) == page)).swappable j vpn →
      s.swappable j vpn ∧ (s.mem.pageInsert i page la perm).pte j vpn = s.mem.pte j vpn ∨ s.swappable j vpn ∧
        (j = i ∧ vpn = la / pgsize) ∧ pte2page (s.mem.pte j vpn) = page := by
    intro j vpn hj
    rw [setSwappable_swappable] at hj
    split at hj
    next heq =>
      obtain ⟨rfl, rfl⟩ := heq
      simp only [Bool.and_eq_true, beq_iff_eq] at hj
      exact .inr ⟨hj.1.1, ⟨rfl, rfl⟩, hj.2⟩
    next hne => exact .inl ⟨hj, by rw [pageInsert_pte, if_neg hne]⟩
  have hpage : pte2page (pteCreate page (pteV ||| perm)) = page := pte2page_pteCreate hlegal.2
  refine ⟨_, rfl, ⟨?_, ?_⟩, h.linked, ?_⟩
  . intro j hj p hp
    show valid ((s.mem.pageInsert i page la perm).pte j (s.mem.praVaddr p / pgsize)) = true ∧
      pte2page ((s.mem.pageInsert i page la perm).pte j (s.mem.praVaddr p / pgsize)) = p
    rw [pageInsert_pte]
    split
    next heq => exact ⟨SwapSys.valid_pteCreate _ _, hpage.trans (hkeeps p hp heq.2).symm⟩
    . exact h.mapped j hj p hp
  . intro j hj vpn hvpn
    rcases hswappable j vpn hvpn with ⟨hold, hpte⟩ | ⟨hold, heq, hold'⟩
    . have := h.listed j hj vpn hold
      rwa [← hpte] at this
    . have hcount := (h.listed j hj vpn hold).2
      simp only [setSwappable, pageInsert_pte, if_pos heq]
      rw [hold'] at hcount
      exact ⟨SwapSys.valid_pteCreate _ _, by rwa [hpage]⟩
  . intro j hj vpn hvpn
    rcases hswappable j vpn hvpn with ⟨hold, hpte⟩ | ⟨hold, heq, hold'⟩
    . have := h.place j hj vpn hold
      rwa [← hpte] at this
    . have hplace := h.place j hj vpn hold
      simp only [setSwappable, pageInsert_pte, if_pos heq]
      rw [hold'] at hplace
      rw [hpage]
      exact hplace

theorem Inv.swapMapSwappable (h : s.Inv sm) (hlegal : s.Legal (.swapMapSwappable i la page))
    (hkeeps : s.KeepsList sm (.swapMapSwappable i la page))
    : ∃ s', s.step sm (.swapMapSwappable i la page) = some s' ∧ s'.Inv sm := by
  obtain ⟨hlive, ⟨hvalid, hmaps⟩, hnew⟩ := hlegal
  have hperm := s.list.mapSwappable_pages_perm page sm
  have hvaddr : ∀ p ∈ s.list.pages, Function.update s.mem.praVaddr page la p = s.mem.praVaddr p := by
    intro p hp
    exact Function.update_of_ne (ne_of_mem_of_not_mem hp hnew) la s.mem.praVaddr
  refine ⟨_, rfl, ⟨?_, ?_⟩, h.linked.mapSwappable hnew, ?_⟩
  . intro j hj p hp
    show valid (s.mem.pte j (Function.update s.mem.praVaddr page la p / pgsize)) = true ∧
      pte2page (s.mem.pte j (Function.update s.mem.praVaddr page la p / pgsize)) = p
    rcases List.mem_cons.mp (hperm.mem_iff.mp hp) with rfl | hp
    . rw [Function.update_self]
      exact hkeeps j hj
    . rw [hvaddr p hp]
      exact h.mapped j hj p hp
  . intro j hj vpn hvpn
    rw [setSwappable_swappable] at hvpn
    show valid (s.mem.pte j vpn) = true ∧ (s.list.mapSwappable page sm).pages.count (pte2page (s.mem.pte j vpn)) = 1
    rw [hperm.count_eq]
    split at hvpn
    next heq =>
      obtain ⟨rfl, rfl⟩ := heq
      rw [hmaps, List.count_cons_self, List.count_eq_zero_of_not_mem hnew]
      exact ⟨hvalid, rfl⟩
    . have hmem := h.swappable_mem hj hvpn
      rw [List.count_cons_of_ne (ne_of_mem_of_not_mem hmem hnew).symm]
      exact h.listed j hj vpn hvpn
  . intro j hj vpn hvpn
    rw [setSwappable_swappable] at hvpn
    show Function.update s.mem.praVaddr page la (pte2page (s.mem.pte j vpn)) / pgsize = vpn
    split at hvpn
    next heq =>
      obtain ⟨rfl, rfl⟩ := heq
      rw [hmaps, Function.update_self]
    . rw [hvaddr _ (h.swappable_mem hj hvpn)]
      exact h.place j hj vpn hvpn

theorem Inv.pageRemove (h : s.Inv sm) (hkeeps : s.KeepsList sm (.pageRemove i la))
    : ∃ s', s.step sm (.pageRemove i la) = some s' ∧ s'.Inv sm := by
  have hvaddr : (s.mem.pageRemove i la).praVaddr = s.mem.praVaddr := by
    rw [SwapMem.pageRemove]
    split <;> rfl
  have hswappable : ∀ j vpn, (s.setSwappable i (la / pgsize) false).swappable j vpn →
      s.swappable j vpn ∧ (s.mem.pageRemove i la).pte j vpn = s.mem.pte j vpn := by
    intro j vpn hj
    rw [setSwappable_swappable] at hj
    split at hj
    . contradiction
    . exact ⟨hj, pageRemove_pte s.mem (by tauto)⟩
  refine ⟨_, rfl, ⟨?_, ?_⟩, h.linked, ?_⟩
  . intro j hj p hp
    show valid ((s.mem.pageRemove i la).pte j ((s.mem.pageRemove i la).praVaddr p / pgsize)) = true ∧
      pte2page ((s.mem.pageRemove i la).pte j ((s.mem.pageRemove i la).praVaddr p / pgsize)) = p
    rw [hvaddr, pageRemove_pte s.mem (.inr (hkeeps p hp))]
    exact h.mapped j hj p hp
  . intro j hj vpn hvpn
    obtain ⟨hold, hpte⟩ := hswappable j vpn hvpn
    have := h.listed j hj vpn hold
    rwa [← hpte] at this
  . intro j hj vpn hvpn
    obtain ⟨hold, hpte⟩ := hswappable j vpn hvpn
    have := h.place j hj vpn hold
    rwa [← hpte, ← hvaddr] at this

/--
The victim leaves the list and its page table.
-/
theorem Inv.swapOut (h : s.Inv sm) (hlegal : s.Legal (.swapOut i)) (hkeeps : s.KeepsList sm (.swapOut i))
    : ∃ s', s.step sm (.swapOut i) = some s' ∧ s'.Inv sm := by
  obtain ⟨hlive, hpages, hslots⟩ := hlegal
  obtain ⟨page, list, hvictim, hperm, hlinked⟩ := h.linked.swapOutVictim hpages
  have hmem : page ∈ s.list.pages := hperm.mem_iff.mpr List.mem_cons_self
  have hrest : ∀ p ∈ list.pages, p ∈ s.list.pages ∧ p ≠ page := by
    have hnodup := List.nodup_cons.mp (hperm.nodup_iff.mp h.linked.nodup)
    intro p hp
    exact ⟨hperm.mem_iff.mpr (List.mem_cons_of_mem page hp), ne_of_mem_of_not_mem hp hnodup.1⟩
  obtain ⟨hvalid, hmaps⟩ := h.mapped i hlive page hmem
  obtain ⟨mem, hround, hvaddr, hpte⟩ := swapOutRound_spec hvalid (hslots page hmem)
  have hstep : s.step sm (.swapOut i) =
      some ({ s with mem, list }.setSwappable i (s.mem.praVaddr page / pgsize) false) := by
    simp only [step, hvictim, Option.bind_some, hround, Option.map_some]
  have hswappable : ∀ j vpn, s.live j →
      ({ s with mem, list }.setSwappable i (s.mem.praVaddr page / pgsize) false).swappable j vpn →
      s.swappable j vpn ∧ mem.pte j vpn = s.mem.pte j vpn ∧ pte2page (s.mem.pte j vpn) ≠ page := by
    intro j vpn hj hvpn
    rw [setSwappable_swappable] at hvpn
    split at hvpn
    . contradiction
    next hne =>
      refine ⟨hvpn, by rw [hpte, if_neg hne], ?_⟩
      intro hpage
      have hplace := h.place j hj vpn hvpn
      rw [hpage] at hplace
      by_cases hji : j = i
      . exact hne ⟨hji, hplace.symm⟩
      . have := hkeeps page list hvictim j hji hj
        rw [hplace, hvpn] at this
        contradiction
  refine ⟨_, hstep, ⟨?_, ?_⟩, hlinked, ?_⟩
  . intro j hj p hp
    obtain ⟨hold, hne⟩ := hrest p hp
    show valid (mem.pte j (mem.praVaddr p / pgsize)) = true ∧ pte2page (mem.pte j (mem.praVaddr p / pgsize)) = p
    rw [hvaddr, hpte]
    split
    next heq =>
      -- one entry cannot have both pages
      obtain ⟨rfl, hvpn⟩ := heq
      have hp' := (h.mapped j hj p hold).2
      rw [hvpn, hmaps] at hp'
      exact absurd hp'.symm hne
    . exact h.mapped j hj p hold
  . intro j hj vpn hvpn
    obtain ⟨hold, hsame, hne⟩ := hswappable j vpn hj hvpn
    obtain ⟨hvalid', hcount⟩ := h.listed j hj vpn hold
    rw [hperm.count_eq, List.count_cons_of_ne hne.symm] at hcount
    show valid (mem.pte j vpn) = true ∧ list.pages.count (pte2page (mem.pte j vpn)) = 1
    rw [hsame]
    exact ⟨hvalid', hcount⟩
  . intro j hj vpn hvpn
    obtain ⟨hold, hsame, -⟩ := hswappable j vpn hj hvpn
    show mem.praVaddr (pte2page (mem.pte j vpn)) / pgsize = vpn
    rw [hsame, hvaddr]
    exact h.place j hj vpn hold

/--
An event that takes a page of the list out of a page table, or one that is needed off the list, leaves them
apart.
-/
theorem Inv.disturbed (h : s.Inv sm) (hlegal : s.Legal ev) (hkeeps : ¬s.KeepsList sm ev)
    (hstep : s.step sm ev = some s')
    : ¬s'.ListOk := by
  intro hok
  cases ev with
  | mmCreate i =>
    obtain rfl := Option.some_inj.mp hstep
    refine hkeeps fun j hj vpn => ?_
    by_contra hswappable
    have hji : j ≠ i := by
      rintro rfl
      exact absurd hj (by simp [show s.live j = false from hlegal])
    have := (hok.listed j (by simpa [hji] using hj) vpn (by simpa [hji] using hswappable)).2
    simp at this
  | mmDestroy i => exact hkeeps trivial
  | pageInsert i page la perm =>
    obtain rfl := Option.some_inj.mp hstep
    refine hkeeps fun p hp hvpn => ?_
    have hmaps : pte2page ((s.mem.pageInsert i page la perm).pte i (s.mem.praVaddr p / pgsize)) = p :=
      (hok.mapped i hlegal.1 p hp).2
    rw [pageInsert_pte, if_pos ⟨rfl, hvpn⟩, pte2page_pteCreate hlegal.2] at hmaps
    exact hmaps.symm
  | swapMapSwappable i la page =>
    obtain rfl := Option.some_inj.mp hstep
    refine hkeeps fun j hj => ?_
    have hmem : page ∈ (s.list.mapSwappable page sm).pages :=
      (s.list.mapSwappable_pages_perm page sm).mem_iff.mpr List.mem_cons_self
    have hmaps : valid (s.mem.pte j (Function.update s.mem.praVaddr page la page / pgsize)) = true ∧
        pte2page (s.mem.pte j (Function.update s.mem.praVaddr page la page / pgsize)) = page :=
      hok.mapped j hj page hmem
    rwa [Function.update_self] at hmaps
  | pageRemove i la =>
    obtain rfl := Option.some_inj.mp hstep
    refine hkeeps fun p hp hvpn => ?_
    have hvalid := (h.mapped i hlegal p hp).1
    have hvalid' : valid ((s.mem.pageRemove i la).pte i ((s.mem.pageRemove i la).praVaddr p / pgsize)) = true :=
      (hok.mapped i hlegal p hp).1
    rw [hvpn] at hvalid
    rw [SwapMem.pageRemove, if_pos hvalid, SwapSys.setPte_pte, if_pos ⟨rfl, hvpn⟩] at hvalid'
    contradiction
  | swapOut i =>
    obtain ⟨hlive, hpages, hslots⟩ := hlegal
    refine hkeeps fun page list hvictim j hji hj => ?_
    obtain ⟨_, _, hvictim', hperm, hlinked⟩ := h.linked.swapOutVictim hpages
    obtain ⟨rfl, rfl⟩ := Prod.mk.inj (Option.some_inj.mp (hvictim.symm.trans hvictim'))
    have hmem : page ∈ s.list.pages := hperm.mem_iff.mpr List.mem_cons_self
    obtain ⟨mem, hround, -, hpte⟩ := swapOutRound_spec (h.mapped i hlive page hmem).1 (hslots page hmem)
    simp only [step, hvictim, Option.bind_some, hround, Option.map_some, Option.some_inj] at hstep
    subst hstep
    by_contra hswappable
    have hcount : list.pages.count (pte2page (mem.pte j (s.mem.praVaddr page / pgsize))) = 1 := by
      refine (hok.listed j hj (s.mem.praVaddr page / pgsize) ?_).2
      rw [setSwappable_swappable, if_neg fun heq => hji heq.1]
      simpa using hswappable
    rw [hpte, if_neg fun heq => hji heq.1, (h.mapped j hj page hmem).2] at hcount
    have hnodup := List.nodup_cons.mp (hperm.nodup_iff.mp h.linked.nodup)
    rw [List.count_eq_zero_of_not_mem hnodup.1] at hcount
    contradiction

omit [DecidableEq κ] in
theorem init_inv (mem : SwapMem κ) (visited : Nat → Bool) (sm : SwapManager) : (init mem visited).Inv sm :=
  ⟨⟨fun _ => nofun, fun _ => nofun⟩, ⟨List.nodup_nil, fun _ _ => nofun⟩, fun _ => nofun⟩

/--
The list follows the page tables, and no victim has an invalid entry, exactly in the runs that create no address
space while there are swappable pages, take no page that is on the list out of a page table, and keep no page on
the list that some address space does not have at its address.
-/
theorem list_follows_iff (sm : SwapManager) (mem : SwapMem κ) (visited : Nat → Bool) (events : List (ListEvent κ))
    (hlegal : Run.Admits (step sm) Legal (init mem visited) events)
    : Run.Always (step sm) ListOk (init mem visited) events ↔
      Run.Admits (step sm) (KeepsList sm) (init mem visited) events := by
  refine Run.always_iff_admits (I := Inv sm) (fun s h => h.toListOk) ?_ ?_ (init_inv mem visited sm) hlegal
  . intro s ev hinv hlegal hkeeps
    cases ev with
    | mmCreate i => exact mmCreate_inv hkeeps
    | mmDestroy i => exact hinv.mmDestroy i
    | pageInsert i page la perm => exact hinv.pageInsert hlegal hkeeps
    | swapMapSwappable i la page => exact hinv.swapMapSwappable hlegal hkeeps
    | pageRemove i la => exact hinv.pageRemove hkeeps
    | swapOut i => exact hinv.swapOut hlegal hkeeps
  . intro s ev hinv hlegal hkeeps s' hstep
    exact hinv.disturbed hlegal hkeeps hstep

theorem list_follows_evicted : Run.Always (step .clock) ListOk (init (SwapSys.bootMem Unit) fun _ => false)
    [.mmCreate (), .pageInsert () 3 0x1000 0x16, .swapMapSwappable () 0x1000 3, .swapOut ()] := by
  refine (list_follows_iff .clock _ _ _ (by decide +kernel)).mpr ⟨fun _ => nofun, ?_⟩
  intro s hs
  obtain rfl := Option.some_inj.mp hs
  refine ⟨fun _ => nofun, ?_⟩
  intro s hs
  obtain rfl := Option.some_inj.mp hs
  refine ⟨fun i _ => ?_, ?_⟩
  . decide +revert +kernel
  . intro s hs
    obtain rfl := Option.some_inj.mp hs
    exact ⟨fun _ _ _ j hj => absurd rfl hj, fun _ _ => trivial⟩

theorem not_list_follows : ¬∀ (sm : SwapManager) (mem : SwapMem Unit) (visited : Nat → Bool)
    (events : List (ListEvent Unit)), Run.Admits (step sm) Legal (init mem visited) events →
      Run.Always (step sm) ListOk (init mem visited) events := by
  intro hclaim
  -- the page at 0x1000 stays on the list when it is unmapped
  obtain ⟨s, hexec, hok⟩ := (hclaim .fifo (SwapSys.bootMem Unit) (fun _ => false)
    [.mmCreate (), .pageInsert () 3 0x1000 0x16, .swapMapSwappable () 0x1000 3, .pageRemove () 0x1000]
    (by decide +kernel)).exec
  have hstale : (Run.exec (step .fifo) (init (SwapSys.bootMem Unit) fun _ => false)
      [.mmCreate (), .pageInsert () 3 0x1000 0x16, .swapMapSwappable () 0x1000 3, .pageRemove () 0x1000]).map (fun s =>
        (s.live (), s.list.pages, valid (s.mem.pte () (s.mem.praVaddr 3 / pgsize)))) = some (true, [3], false) := by
    decide +kernel
  rw [hexec, Option.map_some, Option.some_inj] at hstale
  simp only [Prod.mk.injEq] at hstale
  obtain ⟨hlive, hpages, hinvalid⟩ := hstale
  have hmaps := hok.mapped () hlive 3 (by rw [hpages]; decide)
  rw [Maps, hinvalid] at hmaps
  exact absurd hmaps.1 (by decide)

end ListSys
end Lab3
end Ucore

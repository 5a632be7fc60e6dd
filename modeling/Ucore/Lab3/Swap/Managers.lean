import Mathlib

/-!
This module contains the FIFO and the clock swap manager of lab3: kern/mm/swap_fifo.c and kern/mm/swap_clock.c.
-/

namespace Ucore
namespace Lab3

/--
`pra_list_head` in the order of `list_next`, `curr_ptr` (`none` where it is at the head) and the field `visited`
of the pages.
-/
structure PraList where
  pages : List Nat
  currPtr : Option Nat
  visited : Nat → Bool

inductive SwapManager where
  | fifo
  | clock

namespace PraList

variable {l l' : PraList} {page : Nat}

def fifoInitMm (l : PraList) : PraList := { l with pages := [] }

def fifoMapSwappable (l : PraList) (page : Nat) : PraList := { l with pages := page :: l.pages }

/--
The result is `none` where the victim is `NULL`.
-/
def fifoSwapOutVictim (l : PraList) : Option (Nat × PraList) :=
  l.pages.getLast?.map fun page => (page, { l with pages := l.pages.dropLast })

def clockInitMm (l : PraList) : PraList := { l with pages := [], currPtr := none }

def clockMapSwappable (l : PraList) (page : Nat) : PraList :=
  { l with pages := l.pages ++ [page], visited := Function.update l.visited page true }

/--
`list_next` of an entry, or of the head.
-/
def listNext (pages : List Nat) : Option Nat → Option Nat
  | none => pages.head?
  | some page => (pages.dropWhile (· ≠ page)).tail.head?

/--
The loop of `_clock_swap_out_victim`, which does not end on an empty list.
-/
def clockLoop (l : PraList) : Nat → Option (Nat × PraList)
  | 0 => none
  | fuel + 1 =>
    match if l.currPtr = none then listNext l.pages none else l.currPtr with
    | none => none
    | some page =>
      let next := listNext l.pages (some page)
      if l.visited page then
        clockLoop { l with visited := Function.update l.visited page false, currPtr := next } fuel
      else
        some (page, { l with pages := l.pages.erase page, currPtr := next })

def clockSwapOutVictim (l : PraList) : Option (Nat × PraList) := l.clockLoop (l.pages.length + 1)

def initMm (l : PraList) : SwapManager → PraList
  | .fifo => l.fifoInitMm
  | .clock => l.clockInitMm

def mapSwappable (l : PraList) (page : Nat) : SwapManager → PraList
  | .fifo => l.fifoMapSwappable page
  | .clock => l.clockMapSwappable page

def swapOutVictim (l : PraList) : SwapManager → Option (Nat × PraList)
  | .fifo => l.fifoSwapOutVictim
  | .clock => l.clockSwapOutVictim

/--
No page is on the list twice, and `curr_ptr` is at the head or at a page of the list.
-/
structure WellLinked (l : PraList) (sm : SwapManager) : Prop where
  nodup : l.pages.Nodup
  curr : sm = .clock → ∀ page, l.currPtr = some page → page ∈ l.pages

variable {sm : SwapManager}

@[simp]
theorem initMm_pages (l : PraList) (sm : SwapManager) : (l.initMm sm).pages = [] := by
  cases sm <;> rfl

theorem initMm_wellLinked (l : PraList) (sm : SwapManager) : (l.initMm sm).WellLinked sm := by
  cases sm with
  | fifo => exact ⟨List.nodup_nil, nofun⟩
  | clock => exact ⟨List.nodup_nil, fun _ _ => nofun⟩

theorem mapSwappable_pages_perm (l : PraList) (page : Nat) (sm : SwapManager)
    : (l.mapSwappable page sm).pages.Perm (page :: l.pages) := by
  cases sm with
  | fifo => exact .refl _
  | clock => exact List.perm_append_singleton page l.pages

theorem WellLinked.mapSwappable (h : l.WellLinked sm) (hpage : page ∉ l.pages)
    : (l.mapSwappable page sm).WellLinked sm := by
  refine ⟨(l.mapSwappable_pages_perm page sm).nodup_iff.mpr (List.nodup_cons.mpr ⟨hpage, h.nodup⟩), ?_⟩
  rintro rfl p hcurr
  exact List.mem_append_left _ (h.curr rfl p hcurr)

theorem listNext_mem {pages : List Nat} {curr : Option Nat} (h : listNext pages curr = some page)
    : page ∈ pages := by
  cases curr with
  | none => exact List.mem_of_head? h
  | some p => exact (List.dropWhile_sublist _).mem (List.mem_of_mem_tail (List.mem_of_head? h))

theorem listNext_ne {pages : List Nat} {p : Nat} (hnodup : pages.Nodup) (h : listNext pages (some p) = some page)
    : page ≠ p := by
  rintro rfl
  have htail : page ∈ (pages.dropWhile (· ≠ page)).tail := List.mem_of_head? h
  have hrest : (pages.dropWhile (· ≠ page)).Nodup := hnodup.sublist (List.dropWhile_sublist _)
  cases hdrop : pages.dropWhile (· ≠ page) with
  | nil =>
    rw [hdrop] at htail
    contradiction
  | cons q rest =>
    have hq : (decide (q ≠ page)) ≠ true := by
      have := List.head?_dropWhile_not (fun p => decide (p ≠ page)) pages
      rw [hdrop] at this
      simpa using this
    rw [hdrop] at htail hrest
    obtain rfl : q = page := by simpa using hq
    exact (List.nodup_cons.mp hrest).1 htail

theorem countP_clear {pages : List Nat} {visited : Nat → Bool} (hmem : page ∈ pages) (hvisited : visited page = true)
    : pages.countP (Function.update visited page false) < pages.countP visited := by
  have hperm := List.perm_cons_erase hmem
  have hrest : (pages.erase page).countP (Function.update visited page false) ≤ (pages.erase page).countP visited := by
    refine List.countP_mono_left fun p _ hp => ?_
    by_cases hpage : p = page
    . rwa [hpage]
    . rwa [Function.update_of_ne hpage] at hp
  rw [hperm.countP_eq, hperm.countP_eq, List.countP_cons_of_neg (by simp), List.countP_cons_of_pos hvisited]
  omega

/--
Each round of the loop clears `visited` of a page of the list, or ends with it.
-/
theorem clockLoop_spec {fuel : Nat} (h : l.WellLinked .clock) (hpages : l.pages ≠ [])
    (hfuel : l.pages.countP l.visited < fuel)
    : ∃ page l', l.clockLoop fuel = some (page, l') ∧ l.pages.Perm (page :: l'.pages) ∧ l'.WellLinked .clock := by
  induction fuel generalizing l with
  | zero => contradiction
  | succ fuel ih =>
    obtain ⟨page, hcurr, hmem⟩ : ∃ page,
        (if l.currPtr = none then listNext l.pages none else l.currPtr) = some page ∧ page ∈ l.pages := by
      split
      . exact ⟨l.pages.head hpages, List.head?_eq_some_head hpages, List.head_mem hpages⟩
      next hne =>
        obtain ⟨page, hpage⟩ := Option.ne_none_iff_exists'.mp hne
        exact ⟨page, hpage, h.curr rfl page hpage⟩
    simp only [clockLoop, hcurr]
    split
    next hvisited =>
      have hcleared := countP_clear hmem hvisited
      refine ih ⟨h.nodup, ?_⟩ hpages (by simpa using by omega)
      intro _ p (hp : listNext l.pages (some page) = some p)
      exact listNext_mem hp
    . refine ⟨page, _, rfl, List.perm_cons_erase hmem, h.nodup.erase page, ?_⟩
      intro _ p (hp : listNext l.pages (some page) = some p)
      exact (List.mem_erase_of_ne (listNext_ne h.nodup hp)).mpr (listNext_mem hp)

/--
The manager takes one page off a list that has one.
-/
theorem WellLinked.swapOutVictim (h : l.WellLinked sm) (hpages : l.pages ≠ [])
    : ∃ page l', l.swapOutVictim sm = some (page, l') ∧ l.pages.Perm (page :: l'.pages) ∧ l'.WellLinked sm := by
  cases sm with
  | fifo =>
    refine ⟨l.pages.getLast hpages, { l with pages := l.pages.dropLast }, ?_, ?_, ?_⟩
    . simp [PraList.swapOutVictim, fifoSwapOutVictim, List.getLast?_eq_some_getLast hpages]
    . have := List.perm_append_singleton (l.pages.getLast hpages) l.pages.dropLast
      rwa [List.dropLast_append_getLast] at this
    . exact ⟨h.nodup.sublist (List.dropLast_sublist _), nofun⟩
  | clock => exact clockLoop_spec h hpages (Nat.lt_succ_of_le List.countP_le_length)

end PraList
end Lab3
end Ucore

import Ucore.Lab3.Swap.Clock
import Ucore.Lab3.Swap.SwapOut

/-!
This module contains the LRU swap manager of kern/mm/swap_lru.c with the history of mappings and accesses. The manager
hears of no access, and the pointer that it reports as its victim is never set.
-/

namespace Ucore
namespace Lab3
namespace PraList

def lruInitMm (l : PraList) : PraList := { l with pages := [], currPtr := none }

def lruMapSwappable (l : PraList) (page : Nat) : PraList := { l with pages := l.pages ++ [page] }

/--
The loop of `_lru_swap_out_victim` with what it leaves in `*ptr_page`: `page` is what the local variable of this name
holds, to which nothing is assigned.
-/
def lruLoop (l : PraList) (page : Nat) : Nat → Option (Nat × PraList)
  | 0 => none
  | fuel + 1 =>
    match l.currPtr with
    | none =>
      match listNext l.pages none with
      | none => some (page, l)
      | some t => some (page, { l with pages := l.pages.erase t, currPtr := listNext l.pages (some t) })
    | some curr => lruLoop { l with currPtr := listNext l.pages (some curr) } page fuel

variable {l : PraList} {page : Nat}

theorem lruLoop_head {fuel : Nat} (hcurr : l.currPtr = none) (page : Nat)
    : l.lruLoop page (fuel + 1) = some (page, l.lruSwapOutVictim) := by
  rw [lruLoop, hcurr]
  dsimp only
  cases hpages : l.pages with
  | nil =>
    rw [lruSwapOutVictim, hpages]
    obtain ⟨pages, currPtr, visited⟩ := l
    obtain rfl : pages = [] := hpages
    obtain rfl : currPtr = none := hcurr
    rfl
  | cons first rest =>
    rw [lruSwapOutVictim, hpages]
    simp [listNext]

/--
Wherever `curr_ptr` is, the loop goes on to the head and takes the first entry off.
-/
theorem lruLoop_eq {fuel : Nat} (h : l.WellLinked .clock) (hfuel : l.pages.length < fuel) (page : Nat)
    : l.lruLoop page fuel = some (page, l.lruSwapOutVictim) := by
  cases hcurr : l.currPtr with
  | none =>
    cases fuel with
    | zero => contradiction
    | succ fuel => exact lruLoop_head hcurr page
  | some curr =>
    obtain ⟨before, behind, hpages⟩ := List.append_of_mem (h.curr rfl curr hcurr)
    have hlength : behind.length + 1 < fuel := by
      rw [hpages, List.length_append, List.length_cons] at hfuel
      omega
    clear hfuel
    induction behind generalizing l before curr fuel with
    | nil =>
      have hbefore := notMem_before h.nodup hpages
      have hnext : listNext l.pages (some curr) = none := by rw [hpages, listNext_append hbefore, List.head?_nil]
      cases fuel with
      | zero => contradiction
      | succ fuel =>
        cases fuel with
        | zero => contradiction
        | succ fuel =>
          rw [lruLoop, hcurr]
          dsimp only
          rw [hnext]
          exact lruLoop_head rfl page
    | cons next behind ih =>
      have hbefore := notMem_before h.nodup hpages
      have hnext : listNext l.pages (some curr) = some next := by rw [hpages, listNext_append hbefore, List.head?_cons]
      cases fuel with
      | zero => contradiction
      | succ fuel =>
        rw [lruLoop, hcurr]
        dsimp only
        rw [hnext]
        rw [List.length_cons] at hlength
        have hlinked := h.next l.visited curr
        rw [hnext] at hlinked
        have := @ih { l with currPtr := some next } fuel hlinked next rfl (before ++ [curr])
          (by dsimp only; rw [hpages]; simp) (by omega)
        rw [this]
        rfl

end PraList

/--
`lastUse` is when a page was mapped or accessed last, `now` the time of the next event.
-/
structure LruSys where
  list : PraList
  lastUse : Nat → Nat
  now : Nat

/--
`page` of a call of `_lru_swap_out_victim` is what its variable `page` happens to hold.
-/
inductive LruEvent where
  | mapSwappable (page : Nat)
  | access (page : Nat)
  | swapOutVictim (page : Nat)

namespace LruSys

def init (list : PraList) : LruSys := ⟨list.lruInitMm, fun _ => 0, 0⟩

def use (s : LruSys) (page : Nat) : LruSys :=
  { s with lastUse := Function.update s.lastUse page s.now, now := s.now + 1 }

/--
An access goes to the memory, no function of the manager is called for it.
-/
def step (s : LruSys) : LruEvent → Option LruSys
  | .mapSwappable page => some ({ s with list := s.list.lruMapSwappable page }.use page)
  | .access page => some (s.use page)
  | .swapOutVictim page =>
    (s.list.lruLoop page (s.list.pages.length + 1)).map fun r => { s with list := r.2 }

def Legal (s : LruSys) : LruEvent → Prop
  | .mapSwappable page => page ∉ s.list.pages
  | .access _ => True
  | .swapOutVictim _ => s.list.pages ≠ []

instance (s : LruSys) : (ev : LruEvent) → Decidable (s.Legal ev)
  | .mapSwappable page => inferInstanceAs (Decidable (page ∉ s.list.pages))
  | .access _ => inferInstanceAs (Decidable True)
  | .swapOutVictim _ => inferInstanceAs (Decidable (s.list.pages ≠ []))

/--
The call comes back with the page that it has taken off the list, no page that is left was used longer ago, and the
others keep their order.
-/
def LruEvicts (s : LruSys) (page : Nat) : Prop :=
  ∃ victim l', (∀ rounds, s.list.pages.length < rounds → s.list.lruLoop page rounds = some (victim, l')) ∧
    s.list.pages.Perm (victim :: l'.pages) ∧ (∀ p ∈ l'.pages, s.lastUse victim ≤ s.lastUse p) ∧
    l'.pages.Sublist s.list.pages

variable {s s' : LruSys} {page : Nat} {ev : LruEvent}

theorem step_wellLinked (h : s.list.WellLinked .clock) (hlegal : s.Legal ev) (hstep : s.step ev = some s')
    : s'.list.WellLinked .clock := by
  cases ev with
  | mapSwappable page =>
    obtain rfl := Option.some_inj.mp hstep
    have hlinked : (s.list.clockMapSwappable page).WellLinked .clock := PraList.WellLinked.mapSwappable h hlegal
    exact ⟨hlinked.nodup, hlinked.curr⟩
  | access page =>
    obtain rfl := Option.some_inj.mp hstep
    exact h
  | swapOutVictim page =>
    rw [step, PraList.lruLoop_eq h (Nat.lt_succ_self _)] at hstep
    obtain rfl := Option.some_inj.mp hstep
    refine ⟨h.nodup.tail, ?_⟩
    intro _ p hcurr
    exact List.mem_of_head? hcurr

theorem lruEvicts_iff (h : s.list.WellLinked .clock) (hpages : s.list.pages ≠ [])
    : s.LruEvicts page ↔ s.list.pages.head? = some page ∧ ∀ p ∈ s.list.pages, s.lastUse page ≤ s.lastUse p := by
  have hloop (rounds : Nat) (hrounds : s.list.pages.length < rounds) := PraList.lruLoop_eq h hrounds page
  cases hlist : s.list.pages with
  | nil => contradiction
  | cons first rest =>
    have htail : s.list.lruSwapOutVictim.pages = rest := by rw [PraList.lruSwapOutVictim, hlist, List.tail_cons]
    rw [List.head?_cons, Option.some_inj]
    constructor
    . rintro ⟨victim, l', hruns, hperm, hlru, -⟩
      have heq := (hloop _ (Nat.lt_succ_self _)).symm.trans (hruns _ (Nat.lt_succ_self _))
      obtain ⟨rfl, rfl⟩ := Prod.mk.inj (Option.some_inj.mp heq)
      rw [htail] at hperm hlru
      rw [hlist] at hperm
      have hfirst : first = page := by
        have hmem : page ∈ first :: rest := hperm.mem_iff.mpr List.mem_cons_self
        rcases List.mem_cons.mp hmem with rfl | hmem
        . rfl
        . have hnodup := hperm.nodup_iff.mp (hlist ▸ h.nodup)
          exact absurd hmem (List.nodup_cons.mp hnodup).1
      refine ⟨hfirst, ?_⟩
      rw [hfirst]
      exact List.forall_mem_cons.mpr ⟨le_refl _, hlru⟩
    . rintro ⟨rfl, hlru⟩
      refine ⟨first, s.list.lruSwapOutVictim, hloop, ?_, ?_, ?_⟩
      . rw [htail, hlist]
      . rw [htail]
        exact (List.forall_mem_cons.mp hlru).2
      . rw [htail, hlist]
        exact List.sublist_cons_self first rest

theorem exec_wellLinked {l : PraList} {events : List LruEvent} (hlegal : Run.Admits step Legal (init l) events)
    (hexec : Run.exec step (init l) events = some s)
    : s.list.WellLinked .clock :=
  Run.exec_invariant_of_admits (I := fun s : LruSys => s.list.WellLinked .clock)
    (fun _ _ _ h hlegal hstep => step_wellLinked h hlegal hstep) (l.initMm_wellLinked .clock) hlegal hexec

/--
In every run the right page goes and is reported exactly where the variable `page` happens to hold the page that was
mapped first, and no other page was used before the last use of this one.
-/
theorem lru_evicts_iff {l : PraList} {events : List LruEvent} (hlegal : Run.Admits step Legal (init l) events)
    (hexec : Run.exec step (init l) events = some s) (hpages : s.list.pages ≠ []) (page : Nat)
    : s.LruEvicts page ↔ s.list.pages.head? = some page ∧ ∀ p ∈ s.list.pages, s.lastUse page ≤ s.lastUse p :=
  lruEvicts_iff (exec_wellLinked hlegal hexec) hpages

/--
Two pages, the first of which is used again.
-/
def usedAgain : List LruEvent := [.mapSwappable 3, .mapSwappable 5, .access 3]

def noPages : PraList := ⟨[], none, fun _ => false⟩

def twoPages (lastUse : Nat → Nat) (now : Nat) : LruSys := ⟨⟨[3, 5], none, fun _ => false⟩, lastUse, now⟩

theorem lru_evicts_iff_twoPages
    : (twoPages (Function.update (Function.update (fun _ => 0) 3 0) 5 1) 2).LruEvicts 3 :=
  (@lru_evicts_iff _ noPages [.mapSwappable 3, .mapSwappable 5] (by decide) rfl (by decide) 3).mpr
    ⟨rfl, by decide⟩

/--
The page that was used last is taken off the list, and another one is reported.
-/
theorem not_lru_evicts
    : ¬∀ (l : PraList) (events : List LruEvent) (s : LruSys), Run.Admits step Legal (init l) events →
        Run.exec step (init l) events = some s → s.list.pages ≠ [] → ∀ page, s.LruEvicts page := by
  intro h
  have hevicts := h noPages usedAgain _ (by decide) rfl (by decide) 5
  have hlinked := @exec_wellLinked _ noPages usedAgain (by decide) rfl
  have hhead := ((lruEvicts_iff hlinked (by decide)).mp hevicts).1
  contradiction

end LruSys
end Lab3
end Ucore

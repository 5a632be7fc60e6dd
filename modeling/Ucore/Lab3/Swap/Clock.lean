import Mathlib
import Ucore.Lab3.Swap.Managers
import Ucore.Lib.Run

/-!
This module contains what the clock of kern/mm/swap_clock.c does: in the order from the hand on, the pages up to the
victim lose their flag `visited`, and the hand is left behind the victim.
-/

namespace Ucore
namespace Lab3
namespace PraList

/--
The pages in the order in which the hand gets to them.
-/
def fromHand (l : PraList) : List Nat :=
  match l.currPtr with
  | none => l.pages
  | some page => l.pages.dropWhile (· ≠ page) ++ l.pages.takeWhile (· ≠ page)

def clearVisited (visited : Nat → Bool) (passed : List Nat) : Nat → Bool := fun page =>
  if page ∈ passed then false else visited page

/--
What `_clock_swap_out_victim` should do with the pages from the hand on: it passes those in front of the first one
that was not visited, or all of them, and takes that one, or the first one.
-/
structure ClockEvicts (l : PraList) (victim : Nat) (l' : PraList) : Prop where
  first : (l.fromHand.find? fun page => !l.visited page).or l.fromHand.head? = some victim
  visited : l'.visited = clearVisited l.visited (l.fromHand.takeWhile l.visited)
  pages : l'.pages = l.pages.erase victim
  curr : l'.currPtr = listNext l.pages (some victim)

variable {l l' : PraList} {page victim : Nat} {before behind pages : List Nat}

theorem notMem_before (hnodup : pages.Nodup) (hpages : pages = before ++ page :: behind) : page ∉ before := by
  rw [hpages] at hnodup
  exact fun hmem => (List.nodup_append.mp hnodup).2.2 page hmem page List.mem_cons_self rfl

theorem listNext_append (hbefore : page ∉ before)
    : listNext (before ++ page :: behind) (some page) = behind.head? := by
  have hall : ∀ p ∈ before, decide (p ≠ page) = true := by
    intro p hp
    exact decide_eq_true (ne_of_mem_of_not_mem hp hbefore)
  rw [listNext, List.dropWhile_append_of_pos hall]
  simp

theorem fromHand_append (hcurr : l.currPtr = some page) (hpages : l.pages = before ++ page :: behind)
    (hbefore : page ∉ before)
    : l.fromHand = page :: behind ++ before := by
  have hall : ∀ p ∈ before, decide (p ≠ page) = true := by
    intro p hp
    exact decide_eq_true (ne_of_mem_of_not_mem hp hbefore)
  rw [fromHand, hcurr]
  dsimp only
  rw [hpages, List.dropWhile_append_of_pos hall, List.takeWhile_append_of_pos hall]
  simp

/--
The hand goes on by one page.
-/
theorem fromHand_next (hnodup : l.pages.Nodup) (hpages : l.pages = before ++ page :: behind) (visited : Nat → Bool)
    : fromHand { l with visited, currPtr := listNext l.pages (some page) } = behind ++ before ++ [page] := by
  have hbefore := notMem_before hnodup hpages
  cases behind with
  | nil =>
    rw [hpages, listNext_append hbefore]
    simp [fromHand]
  | cons next behind =>
    have hsplit : l.pages = (before ++ [page]) ++ next :: behind := by rw [hpages, List.append_assoc]; rfl
    have hnext := notMem_before hnodup hsplit
    rw [hpages, listNext_append hbefore]
    have := @fromHand_append { l with visited, currPtr := some next } next (before ++ [page]) behind rfl hsplit hnext
    rw [← hpages]
    simpa using this

/--
Where the loop is in a round, and where it is when it goes on.
-/
theorem WellLinked.hand (h : l.WellLinked .clock) {rest : List Nat} (hhand : l.fromHand = page :: rest)
    : (if l.currPtr = none then listNext l.pages none else l.currPtr) = some page ∧ page ∈ l.pages ∧
        ∀ visited, fromHand { l with visited, currPtr := listNext l.pages (some page) } = rest ++ [page] := by
  cases hcurr : l.currPtr with
  | none =>
    have hpages : l.pages = [] ++ page :: rest := by
      rw [fromHand, hcurr] at hhand
      exact hhand
    refine ⟨?_, ?_, ?_⟩
    . rw [if_pos rfl, hpages]
      rfl
    . rw [hpages]
      exact List.mem_cons_self
    . intro visited
      rw [fromHand_next h.nodup hpages, List.append_nil]
  | some curr =>
    obtain ⟨before, behind, hpages⟩ := List.append_of_mem (h.curr rfl curr hcurr)
    have hbefore := notMem_before h.nodup hpages
    rw [fromHand_append hcurr hpages hbefore, List.cons_append] at hhand
    obtain ⟨rfl, rfl⟩ := List.cons.inj hhand
    refine ⟨?_, h.curr rfl curr hcurr, ?_⟩
    . rw [if_neg (Option.some_ne_none _)]
    . exact fromHand_next h.nodup hpages

theorem WellLinked.fromHand_perm (h : l.WellLinked .clock) : l.fromHand.Perm l.pages := by
  cases hcurr : l.currPtr with
  | none => rw [fromHand, hcurr]
  | some curr =>
    obtain ⟨before, behind, hpages⟩ := List.append_of_mem (h.curr rfl curr hcurr)
    have hbefore := notMem_before h.nodup hpages
    rw [fromHand_append hcurr hpages hbefore, hpages]
    exact List.perm_append_comm

theorem WellLinked.fromHand_nodup (h : l.WellLinked .clock) : l.fromHand.Nodup := h.fromHand_perm.nodup_iff.mpr h.nodup

/--
The hand goes on from a visited page.
-/
theorem WellLinked.next (h : l.WellLinked .clock) (visited : Nat → Bool) (page : Nat)
    : WellLinked { l with visited, currPtr := listNext l.pages (some page) } .clock := by
  refine ⟨h.nodup, ?_⟩
  intro _ p (hp : listNext l.pages (some page) = some p)
  exact listNext_mem hp

theorem clearVisited_nil (visited : Nat → Bool) : clearVisited visited [] = visited := rfl

theorem clearVisited_cons (visited : Nat → Bool) (page : Nat) (passed : List Nat)
    : clearVisited (Function.update visited page false) passed = clearVisited visited (page :: passed) := by
  funext p
  by_cases hp : p = page
  . rw [hp]
    simp [clearVisited]
  . simp [clearVisited, hp]

/--
The loop up to the first page that was not visited.
-/
theorem clockLoop_passes {passed rest : List Nat} {fuel : Nat} (h : l.WellLinked .clock)
    (hhand : l.fromHand = passed ++ victim :: rest) (hpassed : ∀ page ∈ passed, l.visited page = true)
    (hvictim : l.visited victim = false) (hfuel : passed.length < fuel)
    : l.clockLoop fuel = some (victim,
        ⟨l.pages.erase victim, listNext l.pages (some victim), clearVisited l.visited passed⟩) := by
  induction passed generalizing l rest fuel with
  | nil =>
    obtain ⟨hcurr, -, -⟩ := h.hand hhand
    cases fuel with
    | zero => contradiction
    | succ fuel =>
      simp only [clockLoop, hcurr, hvictim, clearVisited_nil]
      rfl
  | cons page passed ih =>
    obtain ⟨hcurr, -, hnext⟩ := h.hand hhand
    obtain ⟨hpage, hpassed⟩ := List.forall_mem_cons.mp hpassed
    have hnodup := h.fromHand_nodup
    rw [hhand, List.cons_append, List.nodup_cons, List.mem_append, not_or] at hnodup
    have hne : victim ≠ page := by
      rintro rfl
      exact hnodup.1.2 List.mem_cons_self
    cases fuel with
    | zero => contradiction
    | succ fuel =>
      simp only [clockLoop, hcurr, hpage, if_true]
      rw [@ih _ (rest ++ [page]) _ (h.next _ page) ?_ ?_ ?_ ?_, clearVisited_cons]
      . rw [hnext]
        simp
      . intro p hp
        exact (Function.update_of_ne (ne_of_mem_of_not_mem hp hnodup.1.1) ..).trans (hpassed p hp)
      . exact (Function.update_of_ne hne ..).trans hvictim
      . rw [List.length_cons] at hfuel
        omega

/--
If all pages were visited the loop comes back to the first one.
-/
theorem clockLoop_returns {rest : List Nat} {fuel : Nat} (h : l.WellLinked .clock)
    (hhand : l.fromHand = victim :: rest) (hvisited : ∀ page ∈ victim :: rest, l.visited page = true)
    (hfuel : rest.length + 1 < fuel)
    : l.clockLoop fuel = some (victim,
        ⟨l.pages.erase victim, listNext l.pages (some victim), clearVisited l.visited (victim :: rest)⟩) := by
  obtain ⟨hcurr, -, hnext⟩ := h.hand hhand
  obtain ⟨hfirst, hrest⟩ := List.forall_mem_cons.mp hvisited
  have hnodup := h.fromHand_nodup
  rw [hhand, List.nodup_cons] at hnodup
  cases fuel with
  | zero => contradiction
  | succ fuel =>
    simp only [clockLoop, hcurr, hfirst, if_true]
    rw [@clockLoop_passes _ _ rest [] _ (h.next _ victim) ?_ ?_ ?_ (by omega), clearVisited_cons]
    . exact hnext _
    . intro p hp
      exact (Function.update_of_ne (ne_of_mem_of_not_mem hp hnodup.1) ..).trans (hrest p hp)
    . exact Function.update_self ..

/--
The loop ends in the second pass over the list at the latest.
-/
theorem clockLoop_evicts (h : l.WellLinked .clock) (hpages : l.pages ≠ [])
    : ∃ victim l', (∀ rounds, 2 * l.pages.length ≤ rounds → l.clockLoop rounds = some (victim, l')) ∧
        l.clockSwapOutVictim = some (victim, l') ∧ l.ClockEvicts victim l' := by
  have hlength := h.fromHand_perm.length_eq
  have hpos : 0 < l.pages.length := List.length_pos_of_ne_nil hpages
  by_cases hall : ∀ page ∈ l.fromHand, l.visited page = true
  . cases hhand : l.fromHand with
    | nil =>
      rw [hhand, List.length_nil] at hlength
      omega
    | cons victim rest =>
      rw [hhand] at hall hlength
      have hloop (fuel : Nat) := @clockLoop_returns _ victim rest fuel h hhand hall
      rw [List.length_cons] at hlength
      refine ⟨victim, _, fun rounds hrounds => hloop rounds (by omega), hloop _ (by omega), ?_, ?_, rfl, rfl⟩
      . rw [hhand, List.find?_eq_none.mpr (by simpa using hall)]
        rfl
      . rw [hhand, List.takeWhile_eq_self_iff.mpr hall]
  . cases hfind : l.fromHand.find? fun page => !l.visited page with
    | none => exact absurd (by simpa using hfind) hall
    | some victim =>
      obtain ⟨hvictim, passed, rest, hhand, hpassed⟩ := List.find?_eq_some_iff_append.mp hfind
      have hvictim : l.visited victim = false := by simpa using hvictim
      have hpassed : ∀ page ∈ passed, l.visited page = true := by simpa using hpassed
      have hloop (fuel : Nat) := @clockLoop_passes _ victim passed rest fuel h hhand hpassed hvictim
      have hlt : passed.length < l.pages.length := by
        rw [← hlength, hhand, List.length_append, List.length_cons]
        omega
      refine ⟨victim, _, fun rounds hrounds => hloop rounds (by omega), hloop _ (by omega), ?_, ?_, rfl, rfl⟩
      . rw [hfind]
        rfl
      . rw [hhand, List.takeWhile_append_of_pos hpassed, List.takeWhile_cons_of_neg (by simp [hvictim]),
          List.append_nil]

end PraList

inductive ClockCall where
  | mapSwappable (page : Nat)
  | swapOutVictim

namespace ClockCall

/--
The result is `none` where `_clock_swap_out_victim` does not end.
-/
def step (l : PraList) : ClockCall → Option PraList
  | mapSwappable page => some (l.clockMapSwappable page)
  | swapOutVictim => l.clockSwapOutVictim.map Prod.snd

/--
A page is mapped that is not on the list, and a victim is wanted of a list with pages.
-/
def Legal (l : PraList) : ClockCall → Prop
  | mapSwappable page => page ∉ l.pages
  | swapOutVictim => l.pages ≠ []

instance (l : PraList) : (call : ClockCall) → Decidable (call.Legal l)
  | mapSwappable page => inferInstanceAs (Decidable (page ∉ l.pages))
  | swapOutVictim => inferInstanceAs (Decidable (l.pages ≠ []))

open PraList

variable {l l' : PraList} {calls : List ClockCall}

theorem step_wellLinked {call : ClockCall} (h : l.WellLinked .clock) (hlegal : call.Legal l)
    : ∃ l', step l call = some l' ∧ l'.WellLinked .clock := by
  cases call with
  | mapSwappable page => exact ⟨_, rfl, WellLinked.mapSwappable h hlegal⟩
  | swapOutVictim =>
    obtain ⟨victim, l', hvictim, -, hlinked⟩ := WellLinked.swapOutVictim h hlegal
    have hvictim : l.clockSwapOutVictim = some (victim, l') := hvictim
    exact ⟨l', by rw [step, hvictim, Option.map_some], hlinked⟩

/--
Wherever the hand is, a call takes the right page within two passes, and in every run the hand stays at the head or at
a page of the list.
-/
theorem clock_replacement
    : (∀ l : PraList, l.WellLinked .clock → l.pages ≠ [] →
        ∃ victim l', (∀ rounds, 2 * l.pages.length ≤ rounds → l.clockLoop rounds = some (victim, l')) ∧
          l.clockSwapOutVictim = some (victim, l') ∧ l.ClockEvicts victim l') ∧
      ∀ (l : PraList) (calls : List ClockCall), Run.Admits step (fun l call => call.Legal l) l.clockInitMm calls →
        Run.Always step (fun l => l.WellLinked .clock) l.clockInitMm calls :=
  ⟨fun _ => clockLoop_evicts, fun l _ => Run.always_of_admits (fun _ => id)
    (fun _ _ h hlegal => step_wellLinked h hlegal) (l.initMm_wellLinked .clock)⟩

/--
Three pages with the hand at the second one, which was visited as the third one was.
-/
def threePages : PraList := ⟨[1, 2, 3], some 2, fun page => decide (page ≠ 1)⟩

theorem clock_replacement_threePages
    : ∃ victim l', (∀ rounds, 2 * threePages.pages.length ≤ rounds → threePages.clockLoop rounds = some (victim, l')) ∧
        threePages.clockSwapOutVictim = some (victim, l') ∧ threePages.ClockEvicts victim l' :=
  clock_replacement.1 threePages ⟨by decide, fun _ page hcurr => Option.some_inj.mp hcurr ▸ by decide⟩ (by decide)

example : (threePages.clockSwapOutVictim.map fun r => (r.1, r.2.pages, r.2.currPtr)) = some (1, [2, 3], some 2) := by
  decide

end ClockCall
end Lab3
end Ucore

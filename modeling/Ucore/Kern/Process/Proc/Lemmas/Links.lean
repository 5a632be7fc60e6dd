import Ucore.Kern.Process.Proc.Impl
import Ucore.Lib.Siblings

/-!
This module contains what the functions of kern/process/proc.c do to the links between parents and
children, as operations on lists of siblings.
-/

namespace Ucore

open Siblings

namespace ProcTable

variable {s s' : ProcTable} {proc parent x : Nat}

def links (s : ProcTable) : Links Nat where
  first := fun p => (s.procs p).cptr
  next := fun p => (s.procs p).optr
  prev := fun p => (s.procs p).yptr

def relink (s : ProcTable) (l : Links Nat) : ProcTable :=
  { s with
    procs := fun p => { s.procs p with cptr := l.first p, yptr := l.prev p, optr := l.next p } }

@[simp]
theorem links_relink (l : Links Nat) : (s.relink l).links = l := rfl

@[simp]
theorem relink_relink (l l' : Links Nat) : (s.relink l).relink l' = s.relink l' := rfl

theorem relink_congr {l l' : Links Nat} (h : l = l') : s.relink l = s.relink l' := by
  rw [h]

theorem setCptr_eq (v : Option Nat)
    : s.setCptr x v = s.relink { s.links with first := Function.update s.links.first x v } := by
  simp only [setCptr, modify, relink, links, ProcTable.mk.injEq, and_true]
  funext y
  by_cases h : y = x
  . subst h
    simp
  . simp [h]

theorem setYptr_eq (v : Option Nat)
    : s.setYptr x v = s.relink { s.links with prev := Function.update s.links.prev x v } := by
  simp only [setYptr, modify, relink, links, ProcTable.mk.injEq, and_true]
  funext y
  by_cases h : y = x
  . subst h
    simp
  . simp [h]

theorem setOptr_eq (v : Option Nat)
    : s.setOptr x v = s.relink { s.links with next := Function.update s.links.next x v } := by
  simp only [setOptr, modify, relink, links, ProcTable.mk.injEq, and_true]
  funext y
  by_cases h : y = x
  . subst h
    simp
  . simp [h]

theorem cptr_eq (s : ProcTable) (x : Nat) : (s.procs x).cptr = s.links.first x := rfl

theorem optr_eq (s : ProcTable) (x : Nat) : (s.procs x).optr = s.links.next x := rfl

theorem yptr_eq (s : ProcTable) (x : Nat) : (s.procs x).yptr = s.links.prev x := rfl

@[simp]
theorem relink_parent (l : Links Nat) : ((s.relink l).procs x).parent = (s.procs x).parent := rfl

theorem setLinks_eq (hparent : (s.procs proc).parent = some parent)
    (hfirst : s.links.first parent ≠ some proc)
    : s.setLinks proc = some { s.relink (s.links.push parent proc) with
        procList := proc :: s.procList, nrProcess := s.nrProcess + 1 } := by
  have hlinks : ({ s with procList := proc :: s.procList } : ProcTable).links = s.links := rfl
  simp only [setLinks, setYptr_eq, setOptr_eq, setCptr_eq, relink_parent, hparent,
    Option.bind_eq_bind, Option.bind_some, cptr_eq, links_relink, relink_relink, hlinks]
  cases hc : s.links.first parent with
  | none =>
    rw [Links.push_of_none _ hc]
    rfl
  | some c =>
    have hne : c ≠ proc := by
      intro h
      simp [hc, h] at hfirst
    rw [Links.push_of_some _ hc hne]
    rfl

theorem removeLinks_eq (hparent : (s.procs proc).parent = some parent)
    (hoptr : s.links.next proc ≠ some proc)
    : s.removeLinks proc = some { s.relink (s.links.unlink parent proc) with
        procList := s.procList.erase proc, nrProcess := s.nrProcess - 1 } := by
  have hlinks : ({ s with procList := s.procList.erase proc } : ProcTable).links = s.links := rfl
  simp only [removeLinks, setYptr_eq, setOptr_eq, setCptr_eq, optr_eq, yptr_eq, hlinks]
  rw [Links.unlink_eq]
  cases hy : s.links.prev proc with
  | none =>
    cases ho : s.links.next proc with
    | none =>
      simp only [hparent, hlinks, hy, ho, Option.bind_eq_bind, Option.bind_some]
      rfl
    | some o =>
      have hne : proc ≠ o := fun h => hoptr (by rw [ho, h])
      simp only [links_relink, relink_parent, Function.update_of_ne hne, hy, ho, hparent,
        Option.bind_eq_bind, Option.bind_some, relink_relink]
      rfl
  | some y =>
    cases ho : s.links.next proc with
    | none =>
      simp only [hlinks, hy, ho, Option.bind_eq_bind, Option.bind_some]
      rfl
    | some o =>
      have hne : proc ≠ o := fun h => hoptr (by rw [ho, h])
      simp only [links_relink, Function.update_of_ne hne, hy, ho, Option.bind_eq_bind,
        Option.bind_some, relink_relink]
      rfl

/--
The table after `initproc` has become the parent of `xs`, with the links `l`. If `woken` it has also
been woken up.
-/
def adopted (s : ProcTable) (l : Links Nat) (xs : List Nat) (woken : Bool) : ProcTable :=
  { s with
    procs := fun x =>
      { s.procs x with
        parent := if x ∈ xs then some s.initproc else (s.procs x).parent
        state := if woken = true ∧ x = s.initproc then .runnable else (s.procs x).state
        waitState := if woken = true ∧ x = s.initproc then 0 else (s.procs x).waitState
        cptr := l.first x
        yptr := l.prev x
        optr := l.next x } }

@[simp]
theorem links_adopted (l : Links Nat) (xs : List Nat) (woken : Bool)
    : (s.adopted l xs woken).links = l := rfl

@[simp]
theorem adopted_current (l : Links Nat) (xs : List Nat) (woken : Bool)
    : (s.adopted l xs woken).current = s.current := rfl

@[simp]
theorem adopted_initproc (l : Links Nat) (xs : List Nat) (woken : Bool)
    : (s.adopted l xs woken).initproc = s.initproc := rfl

theorem adopted_nil : s.adopted s.links [] false = s := by
  simp only [adopted, List.not_mem_nil, Bool.false_eq_true, false_and, if_false]
  rfl

theorem adopted_adopted (l l' : Links Nat) (xs ys : List Nat) (b c : Bool)
    : (s.adopted l xs b).adopted l' ys c = s.adopted l' (xs ++ ys) (b || c) := by
  simp only [adopted, ProcTable.mk.injEq, and_true]
  funext x
  simp only [ProcStruct.mk.injEq, true_and, and_true, Bool.or_eq_true, List.mem_append]
  grind

theorem setParent_eq (l : Links Nat) (c : Nat)
    : (s.relink l).setParent c (some s.initproc) = s.adopted l [c] false := by
  simp only [setParent, modify, adopted, relink, ProcTable.mk.injEq, and_true]
  funext x
  by_cases hx : x = c
  . subst hx
    simp
  . simp [hx]

theorem relink_adopted (l l' : Links Nat) (xs : List Nat) (woken : Bool)
    : (s.adopted l xs woken).relink l' = s.adopted l' xs woken := rfl

theorem moveToInit_eq {c : Nat} (hne : s.initproc ≠ s.current)
    (hfirst : s.links.first s.initproc ≠ some c)
    : s.moveToInit c = s.adopted ((s.links.pop s.current c).push s.initproc c) [c] false := by
  have hinit : (s.links.pop s.current c).first s.initproc = s.links.first s.initproc := by
    simp [Links.pop, hne]
  have hproc : ∀ l, (s.relink l).initproc = s.initproc := fun _ => rfl
  simp only [moveToInit, setYptr_eq, setOptr_eq, setCptr_eq, cptr_eq, links_relink, relink_relink,
    hproc, Function.update_of_ne hne]
  cases hc : s.links.first s.initproc with
  | none =>
    rw [hc] at hinit
    rw [Links.push_of_none _ hinit]
    simp only [hproc, setParent_eq, links_adopted, relink_adopted]
    rfl
  | some o =>
    have hoc : o ≠ c := by
      intro h
      simp [hc, h] at hfirst
    rw [hc] at hinit
    rw [Links.push_of_some _ hinit hoc]
    simp only [hproc, setParent_eq, links_adopted, relink_adopted]
    rfl

/--
A process that sleeps or is new is made runnable.
-/
theorem wakeupProc_eq (hzombie : (s.procs x).state ≠ .zombie)
    (hrunnable : (s.procs x).state ≠ .runnable)
    : s.wakeupProc x =
        some (s.modify x fun p => { p with state := .runnable, waitState := 0 }) := by
  rw [wakeupProc, if_neg hzombie, if_pos hrunnable]

theorem wakeupProc_adopted (l : Links Nat) (xs : List Nat)
    (h : (s.procs s.initproc).state = .sleeping)
    : (s.adopted l xs false).wakeupProc s.initproc = some (s.adopted l xs true) := by
  rw [wakeupProc_eq (by simp [adopted, h]) (by simp [adopted, h])]
  simp only [modify, adopted, Option.some_inj, ProcTable.mk.injEq, and_true]
  funext x
  by_cases hx : x = s.initproc
  . subst hx
    simp
  . simp [hx]

/--
One round of the loop of `do_exit`.
-/
theorem reparent_succ {fuel : Nat} {c : Nat} (hc : s.links.first s.current = some c)
    (hne : s.initproc ≠ s.current) (hfirst : s.links.first s.initproc ≠ some c)
    (hsleep : (s.procs s.initproc).waitState = wtChild → (s.procs s.initproc).state = .sleeping)
    : reparent (fuel + 1) s =
        reparent fuel (s.adopted ((s.links.pop s.current c).push s.initproc c) [c]
          (decide ((s.procs c).state = .zombie ∧ (s.procs s.initproc).waitState = wtChild))) := by
  rw [reparent, cptr_eq, hc]
  simp only [moveToInit_eq hne hfirst, adopted_initproc]
  have hcond : (((s.adopted ((s.links.pop s.current c).push s.initproc c) [c] false).procs c).state =
      .zombie ∧ ((s.adopted ((s.links.pop s.current c).push s.initproc c) [c] false).procs
        s.initproc).waitState = wtChild) ↔
      ((s.procs c).state = .zombie ∧ (s.procs s.initproc).waitState = wtChild) := by
    simp [adopted]
  by_cases h : (s.procs c).state = .zombie ∧ (s.procs s.initproc).waitState = wtChild
  . have hwake := wakeupProc_adopted ((s.links.pop s.current c).push s.initproc c) [c] (hsleep h.2)
    rw [if_pos (hcond.mpr h), decide_eq_true h]
    exact congrArg (· >>= reparent fuel) hwake
  . rw [if_neg (fun h' => h (hcond.mp h')), decide_eq_false h]

/--
Whether the loop of `do_exit` wakes up `initproc` while it moves `xs`.
-/
def WakesInit (s : ProcTable) (xs : List Nat) : Prop :=
  (∃ x ∈ xs, (s.procs x).state = .zombie) ∧ (s.procs s.initproc).waitState = wtChild

/--
The loop of `do_exit` ends, and all children of `current` are then children of `initproc`.
-/
theorem reparent_spec {fuel : Nat} {before : Option Nat} {xs ys : List Nat}
    (hcur : ChildrenFrom s.links before s.current xs)
    (hinit : ChildrenFrom s.links none s.initproc ys) (hne : s.initproc ≠ s.current)
    (hdisj : ∀ x ∈ xs, x ∉ ys) (hnot : s.initproc ∉ xs)
    (hsleep : (s.procs s.initproc).waitState = wtChild → (s.procs s.initproc).state = .sleeping)
    (hfuel : xs.length < fuel)
    : ∃ l woken, reparent fuel s = some (s.adopted l xs woken) ∧ (woken = true ↔ s.WakesInit xs) ∧
        ChildrenFrom l none s.current [] ∧ ChildrenFrom l none s.initproc (xs.reverse ++ ys) ∧
        (∀ z, z ∉ xs → z ∉ ys → l.next z = s.links.next z ∧ l.prev z = s.links.prev z) ∧
        ∀ q, q ≠ s.current → q ≠ s.initproc → l.first q = s.links.first q := by
  induction fuel generalizing s before xs ys with
  | zero => omega
  | succ fuel ih =>
    cases xs with
    | nil =>
      have hfirst : s.links.first s.current = none := hcur.first
      refine ⟨s.links, false, ?_, by simp [WakesInit], ⟨hfirst, trivial, by simp⟩,
        by simpa using hinit, fun _ _ _ => ⟨rfl, rfl⟩, fun _ _ _ => rfl⟩
      rw [reparent, cptr_eq, hfirst, adopted_nil]
    | cons c xs =>
      have hc : c ∉ ys := hdisj c (by simp)
      have hcx : c ∉ xs := (List.nodup_cons.mp hcur.nodup).1
      have hci : c ≠ s.initproc := fun h => hnot (by simp [h])
      have hfirst : s.links.first s.initproc ≠ some c := fun h => hc (hinit.first_mem h)
      rw [reparent_succ hcur.first hne hfirst hsleep]
      generalize hb : decide ((s.procs c).state = .zombie ∧
        (s.procs s.initproc).waitState = wtChild) = b
      -- the rest of the children still hangs on current, c has become the first child of initproc
      have hinit' := hinit.pop_other (c := c) hne
      have hrest := (hcur.pop.push_other hinit' (Ne.symm hne) hcx (fun x hx => hdisj x (by simp [hx])))
      have hsleep' : ∀ l, ((s.adopted l [c] b).procs s.initproc).waitState = wtChild →
          ((s.adopted l [c] b).procs s.initproc).state = .sleeping := by
        intro l
        cases b with
        | true => simp [adopted, wtChild, wtInterrupted]
        | false => simpa [adopted] using hsleep
      obtain ⟨l, woken, hrun, hwoken, hnone, hchildren, hothers, hfirsts⟩ :=
        @ih (s.adopted ((s.links.pop s.current c).push s.initproc c) [c] b) _ xs (c :: ys) hrest
          (hinit'.push hc) hne (by grind) (fun h => hnot (by simpa using .inr h)) (hsleep' _)
          (by grind)
      refine ⟨l, b || woken, ?_, ?_, hnone, by simpa using hchildren, ?_, ?_⟩
      . rw [hrun, adopted_adopted, List.singleton_append]
      . rw [Bool.or_eq_true, hwoken]
        cases b with
        | true =>
          have := of_decide_eq_true hb
          simp [WakesInit, this]
        | false =>
          have := of_decide_eq_false hb
          simp only [WakesInit, adopted, Bool.false_eq_true, false_and, if_false, false_or,
            List.mem_cons]
          grind
      . intro z hzx hzy
        simp only [List.mem_cons, not_or] at hzx
        have hz := hothers z hzx.2 (by simp [hzx.1, hzy])
        have hzf : s.links.first s.initproc ≠ some z := fun h => hzy (hinit.first_mem h)
        rw [hz.1, hz.2]
        simp [Links.push, Links.pop, hzx.1, hne, hzf]
      . intro q hq hqi
        rw [hfirsts q hq hqi]
        simp [Links.push, Links.pop, hq, hqi]

end ProcTable
end Ucore

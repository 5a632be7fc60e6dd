import Mathlib

/-!
This module contains the lists of children in a tree with sibling pointers over an arbitrary type of
nodes: the first child of a node, the next and the previous sibling of a child, what it means that
they form the list of the children of a node, and the pointer writes that put a child in front or
take one out.
-/

namespace Siblings

structure Links (α : Type) where
  first : α → Option α
  next : α → Option α
  prev : α → Option α

namespace Links

variable {α : Type} [DecidableEq α] (l : Links α)

/--
Make `c` the first child of `p`.
-/
def push (p c : α) : Links α where
  first := Function.update l.first p (some c)
  next := Function.update l.next c (l.first p)
  prev := fun x => if x = c then none else if l.first p = some x then some c else l.prev x

theorem push_of_none {p c : α} (h : l.first p = none)
    : l.push p c =
        ⟨Function.update l.first p (some c), Function.update l.next c none,
          Function.update l.prev c none⟩ := by
  simp only [push, h, mk.injEq, true_and]
  funext x
  by_cases hx : x = c <;> simp [hx]

theorem push_of_some {p c o : α} (h : l.first p = some o) (hne : o ≠ c)
    : l.push p c =
        ⟨Function.update l.first p (some c), Function.update l.next c (some o),
          Function.update (Function.update l.prev c none) o (some c)⟩ := by
  simp only [push, h, mk.injEq, true_and]
  funext x
  by_cases hx : x = c
  . simp [hx, Function.update_of_ne (Ne.symm hne)]
  . by_cases hxo : x = o
    . subst hxo
      simp [hx]
    . simp [hx, hxo, Ne.symm hxo]

/--
Take `c` out of the children of `p`.
-/
def unlink (p c : α) : Links α where
  first := if l.prev c = none then Function.update l.first p (l.next c) else l.first
  next := fun x => if l.prev c = some x then l.next c else l.next x
  prev := fun x => if l.next c = some x then l.prev c else l.prev x

theorem unlink_eq (p c : α)
    : l.unlink p c =
        ⟨if l.prev c = none then Function.update l.first p (l.next c) else l.first,
          match l.prev c with
          | some y => Function.update l.next y (l.next c)
          | none => l.next,
          match l.next c with
          | some o => Function.update l.prev o (l.prev c)
          | none => l.prev⟩ := by
  simp only [unlink, mk.injEq, true_and]
  constructor
  . funext x
    cases l.prev c with
    | none => simp
    | some y => simp [Function.update, eq_comm]
  . funext x
    cases l.next c with
    | none => simp
    | some o => simp [Function.update, eq_comm]

/--
Make the sibling behind `c` the first child of `p`, without a change to its pointers.
-/
def pop (p c : α) : Links α :=
  { l with first := Function.update l.first p (l.next c) }

end Links

section Chain

variable {α : Type} {l l' : Links α}

/--
The siblings from one on, `before` is the one in front of it.
-/
def Chain (l : Links α) : Option α → List α → Prop
  | _, [] => True
  | before, x :: xs => l.prev x = before ∧ l.next x = xs.head? ∧ Chain l (some x) xs

theorem Chain.congr {before : Option α} {xs : List α} (h : Chain l before xs)
    (heq : ∀ x ∈ xs, l'.next x = l.next x ∧ l'.prev x = l.prev x)
    : Chain l' before xs := by
  induction xs generalizing before with
  | nil => trivial
  | cons x xs ih =>
    obtain ⟨hprev, hnext, hrest⟩ := h
    have hx := heq x (by simp)
    exact ⟨by rw [hx.2, hprev], by rw [hx.1, hnext], ih hrest (fun y hy => heq y (by simp [hy]))⟩

theorem Chain.next_mid {before : Option α} {pre post : List α} {c : α}
    (h : Chain l before (pre ++ c :: post))
    : l.next c = post.head? := by
  induction pre generalizing before with
  | nil => exact h.2.1
  | cons x pre ih => exact ih h.2.2

theorem Chain.prev_mid {before : Option α} {pre post : List α} {c : α}
    (h : Chain l before (pre ++ c :: post))
    : l.prev c = pre.getLast?.or before := by
  induction pre generalizing before with
  | nil => simpa using h.1
  | cons x pre ih =>
    rw [ih h.2.2, List.getLast?_cons]
    cases pre.getLast? <;> rfl

/--
The children of `p` in the order of their links, where the first one points back to `before`.
-/
structure ChildrenFrom (l : Links α) (before : Option α) (p : α) (xs : List α) : Prop where
  first : l.first p = xs.head?
  chain : Chain l before xs
  nodup : xs.Nodup

/--
The children of `p` in the order of their links.
-/
def IsChildren (l : Links α) (p : α) (xs : List α) : Prop := ChildrenFrom l none p xs

end Chain

namespace ChildrenFrom

variable {α : Type} {l l' : Links α} {before : Option α} {p q c : α} {xs ys pre post : List α}

theorem congr (h : ChildrenFrom l before p xs) (hfirst : l'.first p = l.first p)
    (heq : ∀ x ∈ xs, l'.next x = l.next x ∧ l'.prev x = l.prev x)
    : ChildrenFrom l' before p xs :=
  ⟨by rw [hfirst, h.first], h.chain.congr heq, h.nodup⟩

theorem first_mem (h : ChildrenFrom l before p xs) (hc : l.first p = some c) : c ∈ xs := by
  rw [h.first] at hc
  exact List.mem_of_head? hc

variable [DecidableEq α]

theorem push (h : ChildrenFrom l none p xs) (hc : c ∉ xs)
    : ChildrenFrom (l.push p c) none p (c :: xs) := by
  constructor
  . simp [Links.push]
  . refine ⟨by simp [Links.push], by simp [Links.push, h.first], ?_⟩
    obtain ⟨hfirst, hchain, hnodup⟩ := h
    cases xs with
    | nil => trivial
    | cons x xs =>
      simp only [List.mem_cons, not_or] at hc
      have hx := (List.nodup_cons.mp hnodup).1
      refine ⟨?_, ?_, ?_⟩
      . simp [Links.push, Ne.symm hc.1, hfirst]
      . simp [Links.push, Ne.symm hc.1, hchain.2.1]
      . apply hchain.2.2.congr
        intro y hy
        have hyc : y ≠ c := fun h => hc.2 (h ▸ hy)
        have hyx : x ≠ y := fun h => hx (h ▸ hy)
        simp [Links.push, hyc, hfirst, hyx]
  . exact List.nodup_cons.mpr ⟨hc, h.nodup⟩

theorem push_other (hq : ChildrenFrom l before q ys) (hp : ChildrenFrom l none p xs) (hne : q ≠ p)
    (hc : c ∉ ys) (hdisj : ∀ x ∈ ys, x ∉ xs)
    : ChildrenFrom (l.push p c) before q ys := by
  apply hq.congr
  . simp [Links.push, hne]
  . intro y hy
    have hyc : y ≠ c := fun h => hc (h ▸ hy)
    have hyf : l.first p ≠ some y := fun h => hdisj y hy (hp.first_mem h)
    simp [Links.push, hyc, hyf]

theorem pop (h : ChildrenFrom l before p (c :: xs)) : ChildrenFrom (l.pop p c) (some c) p xs := by
  obtain ⟨hfirst, hchain, hnodup⟩ := h
  exact ⟨by simp [Links.pop, hchain.2.1], hchain.2.2.congr fun _ _ => ⟨rfl, rfl⟩,
    (List.nodup_cons.mp hnodup).2⟩

theorem pop_other (h : ChildrenFrom l before q ys) (hne : q ≠ p)
    : ChildrenFrom (l.pop p c) before q ys :=
  h.congr (by simp [Links.pop, hne]) fun _ _ => ⟨rfl, rfl⟩

theorem chain_unlink (h : Chain l before (pre ++ c :: post)) (hnodup : (pre ++ c :: post).Nodup)
    (hbefore : ∀ b, before = some b → b ∉ pre ++ c :: post)
    : Chain (l.unlink p c) before (pre ++ post) := by
  have hnext := h.next_mid
  have hprev := h.prev_mid
  induction pre generalizing before with
  | nil =>
    obtain ⟨hc, -, hrest⟩ := h
    cases post with
    | nil => trivial
    | cons y post =>
      obtain ⟨-, hy, hrest⟩ := hrest
      simp only [List.nil_append, List.nodup_cons, List.mem_cons, List.head?_cons] at *
      refine ⟨?_, ?_, ?_⟩
      . simp [Links.unlink, hnext, hc]
      . have hby : before ≠ some y := fun h => by grind
        simp [Links.unlink, hc, hby, hy]
      . apply hrest.congr
        intro z hz
        have hbz : before ≠ some z := fun h => by grind
        have hyz : y ≠ z := fun h => by grind
        simp [Links.unlink, hc, hbz, hnext, hyz]
  | cons x pre ih =>
    obtain ⟨hx, hxnext, hrest⟩ := h
    obtain ⟨hxmem, hnodup⟩ := List.nodup_cons.mp hnodup
    refine ⟨?_, ?_, ?_⟩
    . have hxc : l.next c ≠ some x := by
        intro heq
        rw [hnext] at heq
        have := List.mem_of_head? heq
        simp [this] at hxmem
      simp [Links.unlink, hxc, hx]
    . have hprev' := hrest.prev_mid
      cases pre with
      | nil =>
        simp only [List.getLast?_nil, Option.none_or] at hprev'
        simp [Links.unlink, hprev', hnext]
      | cons y pre =>
        have hxc : l.prev c ≠ some x := by
          intro heq
          rw [hprev', List.getLast?_cons, Option.some_or, Option.some_inj] at heq
          have : x ∈ y :: pre := by
            rw [← heq]
            cases hlast : pre.getLast? with
            | none => simp
            | some z => simp [List.mem_of_getLast? hlast]
          grind
        simp [Links.unlink, hxc, hxnext]
    . exact ih hrest hnodup (by grind) hrest.prev_mid

theorem unlink (h : ChildrenFrom l none p (pre ++ c :: post))
    : ChildrenFrom (l.unlink p c) none p (pre ++ post) := by
  obtain ⟨hfirst, hchain, hnodup⟩ := h
  refine ⟨?_, chain_unlink hchain hnodup (by simp), by grind⟩
  have hprev := hchain.prev_mid
  have hnext := hchain.next_mid
  cases pre with
  | nil =>
    have hnone : l.prev c = none := by simpa using hprev
    simp [Links.unlink, hnone, hnext]
  | cons x pre =>
    have hsome : l.prev c ≠ none := by simp [hprev, List.getLast?_cons]
    simpa [Links.unlink, hsome] using hfirst

theorem unlink_other (hq : ChildrenFrom l before q ys) (hp : ChildrenFrom l none p (pre ++ c :: post))
    (hne : q ≠ p) (hdisj : ∀ x ∈ ys, x ∉ pre ++ c :: post)
    : ChildrenFrom (l.unlink p c) before q ys := by
  have hprev := hp.chain.prev_mid
  have hnext := hp.chain.next_mid
  apply hq.congr
  . unfold Links.unlink
    split <;> simp [hne]
  . intro y hy
    have hmem := hdisj y hy
    have hy₁ : l.prev c ≠ some y := by
      rw [hprev, Option.or_none]
      intro heq
      simp [List.mem_of_getLast? heq] at hmem
    have hy₂ : l.next c ≠ some y := by
      rw [hnext]
      intro heq
      simp [List.mem_of_head? heq] at hmem
    simp [Links.unlink, hy₁, hy₂]

end ChildrenFrom
end Siblings

import Mathlib

/-!
This module contains circular doubly linked lists over an arbitrary type of nodes: the two link
fields of all nodes, what it means that the links form one ring through a head node, and how the
pointer writes that splice a node in or out act on such a ring.
-/

namespace CircularList

/--
The link fields of all nodes.
-/
structure Links (α : Type) where
  next : α → α
  prev : α → α

variable {α : Type}

namespace Links

section

variable [DecidableEq α]

def setNext (l : Links α) (a b : α) : Links α :=
  { l with next := Function.update l.next a b }

def setPrev (l : Links α) (a b : α) : Links α :=
  { l with prev := Function.update l.prev a b }

/--
Splice `elm` in between `p` and `n`.
-/
def insertBetween (l : Links α) (elm p n : α) : Links α :=
  (((l.setPrev n elm).setNext p elm).setNext elm n).setPrev elm p

/--
Make `p` and `n` point to each other.
-/
def join (l : Links α) (p n : α) : Links α :=
  (l.setNext p n).setPrev n p

theorem insertBetween_next (l : Links α) (elm p n x : α)
    : (l.insertBetween elm p n).next x = if x = elm then n else if x = p then elm else l.next x := by
  simp [insertBetween, setNext, setPrev, Function.update_apply]

theorem insertBetween_prev (l : Links α) (elm p n x : α)
    : (l.insertBetween elm p n).prev x = if x = elm then p else if x = n then elm else l.prev x := by
  simp [insertBetween, setNext, setPrev, Function.update_apply]

theorem join_next (l : Links α) (p n x : α)
    : (l.join p n).next x = if x = p then n else l.next x := by
  simp [join, setNext, setPrev, Function.update_apply]

theorem join_prev (l : Links α) (p n x : α)
    : (l.join p n).prev x = if x = n then p else l.prev x := by
  simp [join, setNext, setPrev, Function.update_apply]

end

/--
`b` follows `a` and `a` precedes `b`.
-/
def Adjacent (l : Links α) (a b : α) : Prop := l.next a = b ∧ l.prev b = a

end Links

theorem isChain_adjacent_congr {l l' : Links α} {zs : List α}
    (hnext : ∀ x ∈ zs.dropLast, l'.next x = l.next x) (hprev : ∀ x ∈ zs.tail, l'.prev x = l.prev x)
    (h : zs.IsChain l.Adjacent)
    : zs.IsChain l'.Adjacent := by
  induction zs with
  | nil => exact .nil
  | cons z zs ih =>
    cases zs with
    | nil => exact .singleton z
    | cons y ys =>
      rw [List.isChain_cons_cons] at h ⊢
      obtain ⟨⟨hzy, hyz⟩, hrest⟩ := h
      simp only [List.dropLast_cons_cons, List.mem_cons, forall_eq_or_imp, List.tail_cons]
        at hnext hprev
      refine ⟨⟨by rw [hnext.1, hzy], by rw [hprev.1, hyz]⟩, ih hnext.2 ?_ hrest⟩
      intro x hx
      exact hprev.2 x hx

/--
Following `next` from `head` visits exactly the nodes `xs`, each once, and comes back to `head`;
following `prev` visits them the other way round.
-/
structure IsRing (l : Links α) (head : α) (xs : List α) : Prop where
  nodup : (head :: xs).Nodup
  chain : ((head :: xs) ++ [head]).IsChain l.Adjacent

namespace IsRing

variable {l : Links α} {head : α} {xs ys : List α}

theorem chain_split (h : IsRing l head (xs ++ ys))
    : (head :: xs).IsChain l.Adjacent ∧ (ys ++ [head]).IsChain l.Adjacent
      ∧ l.Adjacent (xs.getLastD head) (ys.headD head) := by
  have hc := h.chain
  rw [show (head :: (xs ++ ys)) ++ [head] = (head :: xs) ++ (ys ++ [head]) by simp,
    List.isChain_append] at hc
  refine ⟨hc.1, hc.2.1, hc.2.2 _ ?_ _ ?_⟩
  . cases xs <;> simp [List.getLast?_cons]
  . cases ys <;> simp

theorem of_split (hnodup : (head :: (xs ++ ys)).Nodup) (hxs : (head :: xs).IsChain l.Adjacent)
    (hys : (ys ++ [head]).IsChain l.Adjacent) (hadj : l.Adjacent (xs.getLastD head) (ys.headD head))
    : IsRing l head (xs ++ ys) := by
  refine ⟨hnodup, ?_⟩
  rw [show (head :: (xs ++ ys)) ++ [head] = (head :: xs) ++ (ys ++ [head]) by simp,
    List.isChain_append]
  refine ⟨hxs, hys, ?_⟩
  intro a ha b hb
  have ha : a = xs.getLastD head := by
    cases xs <;> simp_all [List.getLast?_cons]
  have hb : b = ys.headD head := by
    cases ys <;> simp_all
  rw [ha, hb]
  exact hadj

theorem next_getLastD (h : IsRing l head (xs ++ ys)) : l.next (xs.getLastD head) = ys.headD head :=
  h.chain_split.2.2.1

theorem prev_headD (h : IsRing l head (xs ++ ys)) : l.prev (ys.headD head) = xs.getLastD head :=
  h.chain_split.2.2.2

theorem next_head (h : IsRing l head xs) : l.next head = xs.headD head :=
  @next_getLastD _ _ _ [] _ h

theorem prev_head (h : IsRing l head xs) : l.prev head = xs.getLastD head := by
  simpa using @prev_headD _ _ _ xs [] (by simpa using h)

theorem next_mid {x : α} (h : IsRing l head (xs ++ x :: ys)) : l.next x = ys.headD head := by
  have h : IsRing l head ((xs ++ [x]) ++ ys) := by simpa using h
  simpa using h.next_getLastD

theorem prev_mid {x : α} (h : IsRing l head (xs ++ x :: ys)) : l.prev x = xs.getLastD head := by
  simpa using h.prev_headD

theorem next_head_eq_iff (h : IsRing l head xs) : l.next head = head ↔ xs = [] := by
  rw [h.next_head]
  cases xs with
  | nil => simp
  | cons x xs =>
    have := h.nodup
    simp only [List.headD_cons, reduceCtorEq, iff_false]
    grind

/--
Every node of a ring is the predecessor of its successor and the successor of its predecessor.
-/
theorem next_prev_eq (h : IsRing l head xs) {x : α} (hx : x ∈ head :: xs)
    : l.next (l.prev x) = x ∧ l.prev (l.next x) = x := by
  cases List.mem_cons.mp hx with
  | inl hhead =>
    subst hhead
    rw [h.prev_head, h.next_head]
    exact ⟨by simpa using @next_getLastD _ _ _ xs [] (by simpa using h),
      @prev_headD _ _ _ [] xs (by simpa using h)⟩
  | inr hmem =>
    obtain ⟨pre, post, rfl⟩ := List.append_of_mem hmem
    rw [h.prev_mid, h.next_mid]
    have h' : IsRing l head ((pre ++ [x]) ++ post) := by simpa using h
    exact ⟨h.next_getLastD, by simpa using h'.prev_headD⟩

theorem empty {l : Links α} (hnext : l.next head = head) (hprev : l.prev head = head)
    : IsRing l head [] := by
  refine ⟨by simp, ?_⟩
  simp [List.isChain_cons_cons, Links.Adjacent, hnext, hprev]

theorem getLastD_mem_cons (xs : List α) (a : α) : xs.getLastD a ∈ a :: xs := by
  cases xs with
  | nil => simp
  | cons x xs =>
    simp only [List.getLastD_cons]
    grind

theorem headD_mem_append (ys : List α) (a : α) : ys.headD a ∈ ys ++ [a] := by
  cases ys <;> simp

theorem getLastD_notMem_dropLast {a : α} (h : (a :: xs).Nodup)
    : xs.getLastD a ∉ (a :: xs).dropLast := by
  have hlast : (a :: xs).getLast (by simp) = xs.getLastD a := by
    rw [List.getLast_eq_getLastD]
  rw [← List.dropLast_append_getLast (l := a :: xs) (by simp), hlast] at h
  grind

variable [DecidableEq α]

/--
Splicing a new node in between two neighbours of a ring.
-/
theorem insertBetween {e : α} (h : IsRing l head (xs ++ ys)) (he : e ∉ head :: (xs ++ ys))
    : IsRing (l.insertBetween e (xs.getLastD head) (ys.headD head)) head (xs ++ e :: ys) := by
  obtain ⟨hxs, hys, -⟩ := h.chain_split
  have hnodup := h.nodup
  have hp := getLastD_mem_cons xs head
  have hn := headD_mem_append ys head
  have hlast := @getLastD_notMem_dropLast _ xs head (by grind)
  apply of_split
  . grind
  . apply isChain_adjacent_congr _ _ hxs
    . intro x hx
      have : x ∈ head :: xs := List.dropLast_subset _ hx
      rw [Links.insertBetween_next, if_neg (by grind), if_neg (by grind)]
    . intro x hx
      have hx : x ∈ xs := hx
      have : x ≠ ys.headD head := by
        cases ys <;> grind
      rw [Links.insertBetween_prev, if_neg (by grind), if_neg this]
  . rw [List.cons_append, List.isChain_cons]
    refine ⟨?_, ?_⟩
    . intro y hy
      have hy : y = ys.headD head := by
        cases ys <;> simp_all
      subst hy
      have : ys.headD head ≠ e := by grind
      exact ⟨by rw [Links.insertBetween_next, if_pos rfl],
        by rw [Links.insertBetween_prev, if_neg this, if_pos rfl]⟩
    . apply isChain_adjacent_congr _ _ hys
      . intro x hx
        have hx : x ∈ ys := by simpa using hx
        rw [Links.insertBetween_next, if_neg (by grind), if_neg (by grind)]
      . intro x hx
        have : x ∈ ys ++ [head] := List.mem_of_mem_tail hx
        have : x ≠ ys.headD head := by
          cases ys <;> grind
        rw [Links.insertBetween_prev, if_neg (by grind), if_neg this]
  . have : xs.getLastD head ≠ e := by grind
    exact ⟨by rw [Links.insertBetween_next, if_neg this, if_pos rfl, List.headD_cons],
      by rw [List.headD_cons, Links.insertBetween_prev, if_pos rfl]⟩

/--
Splicing a node out of a ring.
-/
theorem join {e : α} (h : IsRing l head (xs ++ e :: ys))
    : IsRing (l.join (l.prev e) (l.next e)) head (xs ++ ys) := by
  rw [h.prev_mid, h.next_mid]
  have hnodup := h.nodup
  obtain ⟨hxs, hys, -⟩ := h.chain_split
  rw [List.cons_append, List.isChain_cons] at hys
  have hlast := @getLastD_notMem_dropLast _ xs head (by grind)
  have hp := getLastD_mem_cons xs head
  apply of_split
  . grind
  . apply isChain_adjacent_congr _ _ hxs
    . intro x hx
      rw [Links.join_next, if_neg (by grind)]
    . intro x hx
      have hx : x ∈ xs := hx
      have : x ≠ ys.headD head := by
        cases ys <;> grind
      rw [Links.join_prev, if_neg this]
  . apply isChain_adjacent_congr _ _ hys.2
    . intro x hx
      have hx : x ∈ ys := by simpa using hx
      rw [Links.join_next, if_neg (by grind)]
    . intro x hx
      have : x ≠ ys.headD head := by
        cases ys <;> grind
      rw [Links.join_prev, if_neg this]
  . simp [Links.Adjacent, Links.join_next, Links.join_prev]

end IsRing
end CircularList

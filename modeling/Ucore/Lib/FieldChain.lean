import Mathlib

/-!
This module contains doubly linked lists that start at a head and end in a null pointer, the two link
fields of a node being words of one memory: what a memory must agree on for a list to stay, and how the
writes that take the first node out and put a node in act on a list.
-/

/--
The addresses of the two link fields of a node and the null pointer.
-/
structure FieldChain (α : Type) where
  next : α → α
  prev : α → α
  null : α

namespace FieldChain

variable {α : Type} (f : FieldChain α)

/--
Following `next` from `head` visits the nodes `xs` and then comes to null, and the field `prev` of each of
them is the node before.
-/
def Chain (mem : α → α) (head : α) : List α → Prop
  | [] => mem (f.next head) = f.null
  | x :: xs => mem (f.next head) = x ∧ mem (f.prev x) = head ∧ Chain mem x xs

/--
No two of the nodes share a field.
-/
structure Separate (nodes : List α) : Prop where
  next : ∀ x ∈ nodes, ∀ y ∈ nodes, f.next x = f.next y → x = y
  prev : ∀ x ∈ nodes, ∀ y ∈ nodes, f.prev x = f.prev y → x = y
  cross : ∀ x ∈ nodes, ∀ y ∈ nodes, f.next x ≠ f.prev y

variable {f} {mem mem' : α → α} {head o y : α} {xs ys : List α}

theorem Chain.next_nil (h : f.Chain mem head []) : mem (f.next head) = f.null := h

theorem Chain.next_cons (h : f.Chain mem head (y :: ys)) : mem (f.next head) = y := h.1

/--
A chain depends on the field `next` of all its nodes and on the field `prev` of all but the head.
-/
theorem Chain.congr (h : f.Chain mem head xs) (hnext : ∀ x ∈ head :: xs, mem' (f.next x) = mem (f.next x))
    (hprev : ∀ x ∈ xs, mem' (f.prev x) = mem (f.prev x))
    : f.Chain mem' head xs := by
  induction xs generalizing head with
  | nil => exact (hnext head (List.mem_cons_self ..)).trans h
  | cons x xs ih =>
    obtain ⟨hx, hhead, hrest⟩ := h
    refine ⟨(hnext head (List.mem_cons_self ..)).trans hx, (hprev x (List.mem_cons_self ..)).trans hhead, ?_⟩
    apply ih hrest
    . intro z hz
      exact hnext z (List.mem_cons_of_mem _ hz)
    . intro z hz
      exact hprev z (List.mem_cons_of_mem _ hz)

/--
The node before a node of a chain is the last one of those in front of it.
-/
theorem Chain.prev_eq (h : f.Chain mem head (xs ++ y :: ys)) : mem (f.prev y) = xs.getLastD head := by
  induction xs generalizing head with
  | nil => exact h.2.1
  | cons x xs ih =>
    rw [List.getLastD_cons]
    exact ih h.2.2

theorem getLastD_mem (head : α) (xs : List α) : xs.getLastD head ∈ head :: xs := by
  induction xs generalizing head with
  | nil => exact List.mem_cons_self ..
  | cons x xs ih =>
    rw [List.getLastD_cons]
    exact List.mem_cons_of_mem _ (ih x)

variable [DecidableEq α]

/--
The writes that make `q` and `y` point to each other.
-/
def join (f : FieldChain α) (mem : α → α) (q y : α) : α → α :=
  Function.update (Function.update mem (f.next q) y) (f.prev y) q

/--
The writes that put `o` between `q` and `y`.
-/
def link (f : FieldChain α) (mem : α → α) (q o y : α) : α → α :=
  Function.update (Function.update (Function.update (Function.update mem (f.next q) o) (f.prev o) q) (f.next o) y)
    (f.prev y) o

variable {nodes : List α} {q z : α}

section

variable (hsep : f.Separate nodes) (hq : q ∈ nodes) (ho : o ∈ nodes) (hy : y ∈ nodes) (hz : z ∈ nodes)

include hsep hq hy hz

theorem join_next : f.join mem q y (f.next z) = if z = q then y else mem (f.next z) := by
  rw [join, Function.update_of_ne (hsep.cross z hz y hy), Function.update_apply]
  exact if_congr ⟨hsep.next z hz q hq, congrArg f.next⟩ rfl rfl

theorem join_prev : f.join mem q y (f.prev z) = if z = y then q else mem (f.prev z) := by
  rw [join, Function.update_apply, Function.update_of_ne (hsep.cross q hq z hz).symm]
  exact if_congr ⟨hsep.prev z hz y hy, congrArg f.prev⟩ rfl rfl

include ho

theorem link_next
    : f.link mem q o y (f.next z) = if z = o then y else if z = q then o else mem (f.next z) := by
  rw [link, Function.update_of_ne (hsep.cross z hz y hy), Function.update_apply,
    Function.update_of_ne (hsep.cross z hz o ho), Function.update_apply]
  apply if_congr ⟨hsep.next z hz o ho, congrArg f.next⟩ rfl
  exact if_congr ⟨hsep.next z hz q hq, congrArg f.next⟩ rfl rfl

theorem link_prev
    : f.link mem q o y (f.prev z) = if z = y then o else if z = o then q else mem (f.prev z) := by
  rw [link, Function.update_apply, Function.update_of_ne (hsep.cross o ho z hz).symm, Function.update_apply,
    Function.update_of_ne (hsep.cross q hq z hz).symm]
  apply if_congr ⟨hsep.prev z hz y hy, congrArg f.prev⟩ rfl
  exact if_congr ⟨hsep.prev z hz o ho, congrArg f.prev⟩ rfl rfl

end

/--
Taking the first of at least two nodes out.
-/
theorem Chain.join {x : α} (h : f.Chain mem head (x :: y :: ys)) (hsep : f.Separate nodes)
    (hnodes : ∀ z ∈ head :: y :: ys, z ∈ nodes) (hnodup : (head :: y :: ys).Nodup)
    : f.Chain (f.join mem head y) head (y :: ys) := by
  have hhead := hnodes head (by simp)
  have hy := hnodes y (by simp)
  rw [List.nodup_cons, List.nodup_cons] at hnodup
  obtain ⟨hnotHead, hnotY, -⟩ := hnodup
  refine ⟨?_, ?_, h.2.2.2.2.congr ?_ ?_⟩
  . rw [join_next hsep hhead hy hhead, if_pos rfl]
  . rw [join_prev hsep hhead hy hy, if_pos rfl]
  . intro z hz
    rw [join_next hsep hhead hy (hnodes z (List.mem_cons_of_mem _ hz)), if_neg]
    rintro rfl
    exact hnotHead hz
  . intro z hz
    rw [join_prev hsep hhead hy (hnodes z (by simp [hz])), if_neg]
    rintro rfl
    exact hnotY hz

/--
Putting a node in before the node `y`.
-/
theorem Chain.link (h : f.Chain mem head (xs ++ y :: ys)) (hsep : f.Separate nodes)
    (hnodes : ∀ z ∈ o :: head :: (xs ++ y :: ys), z ∈ nodes) (hnodup : (o :: head :: (xs ++ y :: ys)).Nodup)
    : f.Chain (f.link mem (xs.getLastD head) o y) head (xs ++ o :: y :: ys) := by
  have ho := hnodes o (by simp)
  have hy := hnodes y (by simp)
  induction xs generalizing head with
  | nil =>
    rw [List.nil_append] at h hnodes hnodup ⊢
    rw [List.getLastD_nil]
    have hhead := hnodes head (by simp)
    simp only [List.nodup_cons, List.mem_cons, not_or] at hnodup
    obtain ⟨⟨hoHead, hoY, hoYs⟩, ⟨hheadY, hheadYs⟩, hyYs, -⟩ := hnodup
    refine ⟨?_, ?_, ?_, ?_, h.2.2.congr ?_ ?_⟩
    . rw [link_next hsep hhead ho hy hhead, if_neg (Ne.symm hoHead), if_pos rfl]
    . rw [link_prev hsep hhead ho hy ho, if_neg hoY, if_pos rfl]
    . rw [link_next hsep hhead ho hy ho, if_pos rfl]
    . rw [link_prev hsep hhead ho hy hy, if_pos rfl]
    . intro z hz
      have hzo : z ≠ o := by
        rintro rfl
        cases List.mem_cons.mp hz with
        | inl heq => exact hoY heq
        | inr hmem => exact hoYs hmem
      have hzHead : z ≠ head := by
        rintro rfl
        cases List.mem_cons.mp hz with
        | inl heq => exact hheadY heq
        | inr hmem => exact hheadYs hmem
      rw [link_next hsep hhead ho hy (hnodes z (by simp [List.mem_cons.mp hz])), if_neg hzo, if_neg hzHead]
    . intro z hz
      have hzo : z ≠ o := by
        rintro rfl
        exact hoYs hz
      have hzy : z ≠ y := by
        rintro rfl
        exact hyYs hz
      rw [link_prev hsep hhead ho hy (hnodes z (by simp [hz])), if_neg hzy, if_neg hzo]
  | cons x xs ih =>
    rw [List.getLastD_cons]
    have hhead := hnodes head (by simp)
    have hx := hnodes x (by simp)
    have hlast := getLastD_mem x xs
    have hq : xs.getLastD x ∈ nodes := by
      apply hnodes
      rw [List.cons_append, ← List.cons_append]
      simp only [List.mem_cons, List.mem_append] at hlast ⊢
      tauto
    have hrest := hnodup
    simp only [List.cons_append, List.nodup_cons, List.mem_cons, List.mem_append, not_or] at hrest
    obtain ⟨⟨hoHead, hox, -⟩, ⟨hheadx, hheadxs, -⟩, ⟨-, hxy, -⟩, -⟩ := hrest
    refine ⟨?_, ?_, ih h.2.2 ?_ ?_⟩
    . rw [link_next hsep hq ho hy hhead, if_neg (Ne.symm hoHead), if_neg, h.1]
      intro heq
      rw [← heq] at hlast
      cases List.mem_cons.mp hlast with
      | inl heq => exact hheadx heq
      | inr hmem => exact hheadxs hmem
    . rw [link_prev hsep hq ho hy hx, if_neg hxy, if_neg (Ne.symm hox), h.2.1]
    . intro z hz
      apply hnodes
      simp only [List.cons_append, List.mem_cons, List.mem_append] at hz ⊢
      tauto
    . simp only [List.cons_append, List.nodup_cons, List.mem_cons, List.mem_append, not_or] at hnodup ⊢
      tauto

end FieldChain

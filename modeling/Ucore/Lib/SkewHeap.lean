import Mathlib

/-!
This module contains skew heaps over an arbitrary comparison: the operations keep the elements, and the root
is minimal as long as the comparison decides the order of a key.
-/

inductive SkewHeap (α : Type) where
  | nil
  | node (left : SkewHeap α) (a : α) (right : SkewHeap α)
  deriving DecidableEq

namespace SkewHeap

variable {α : Type}

def size : SkewHeap α → Nat
  | nil => 0
  | node left _ right => left.size + right.size + 1

def elements : SkewHeap α → List α
  | nil => []
  | node left a right => a :: (left.elements ++ right.elements)

def root? : SkewHeap α → Option α
  | nil => none
  | node _ a _ => some a

/--
If neither root is in front of the other one, the second root stays on top.
-/
def merge (lt : α → α → Bool) : SkewHeap α → SkewHeap α → SkewHeap α
  | nil, heap => heap
  | node left a right, nil => node left a right
  | node left a right, node left' b right' =>
    if lt a b then
      node (merge lt right (node left' b right')) a left
    else
      node (merge lt (node left a right) right') b left'
termination_by heap heap' => heap.size + heap'.size
decreasing_by all_goals simp only [size]; omega

def insert (lt : α → α → Bool) (heap : SkewHeap α) (a : α) : SkewHeap α := merge lt heap (node nil a nil)

/--
The two heaps below `a` take its place.
-/
def remove [DecidableEq α] (lt : α → α → Bool) (a : α) : SkewHeap α → SkewHeap α
  | nil => nil
  | node left b right => if b = a then merge lt left right else node (remove lt a left) b (remove lt a right)

/--
Every element is in front of the elements below it.
-/
def Ordered {β : Type} [LinearOrder β] (key : α → β) : SkewHeap α → Prop
  | nil => True
  | node left a right =>
    (∀ b ∈ left.elements ++ right.elements, key a ≤ key b) ∧ left.Ordered key ∧ right.Ordered key

/--
Every element has only elements below it that it may be above.
-/
def Below (le : α → α → Prop) : SkewHeap α → Prop
  | nil => True
  | node left a right => (∀ b ∈ left.elements ++ right.elements, le a b) ∧ left.Below le ∧ right.Below le

variable {lt lt' : α → α → Bool} {heap heap' : SkewHeap α} {a b : α}

theorem elements_merge (heap heap' : SkewHeap α)
    : (merge lt heap heap').elements.Perm (heap.elements ++ heap'.elements) := by
  induction heap, heap' using merge.induct lt with
  | case1 heap => simp [merge, elements]
  | case2 left a right => simp [merge, elements]
  | case3 left a right left' b right' hlt ih =>
    rw [merge, if_pos hlt, elements, elements, List.cons_append, List.perm_cons, List.append_assoc]
    exact (ih.append_right _).trans List.perm_append_comm
  | case4 left a right left' b right' hlt ih =>
    rw [merge, if_neg hlt, elements]
    have hrest : ((merge lt (node left a right) right').elements ++ left'.elements).Perm
        ((node left a right).elements ++ (left'.elements ++ right'.elements)) := by
      refine (ih.append_right _).trans ?_
      rw [List.append_assoc]
      exact List.Perm.append_left _ List.perm_append_comm
    exact (hrest.cons b).trans List.perm_middle.symm

theorem mem_merge : a ∈ (merge lt heap heap').elements ↔ a ∈ heap.elements ∨ a ∈ heap'.elements := by
  rw [(elements_merge heap heap').mem_iff, List.mem_append]

theorem root?_merge (heap heap' : SkewHeap α)
    : (merge lt heap heap').root? = heap.root? ∨ (merge lt heap heap').root? = heap'.root? := by
  cases heap with
  | nil => exact .inr (by rw [merge])
  | node left a right =>
    cases heap' with
    | nil => exact .inl (by rw [merge])
    | node left' b right' =>
      rw [merge]
      split
      . exact .inl rfl
      . exact .inr rfl

theorem elements_insert (heap : SkewHeap α) (a : α) : (insert lt heap a).elements.Perm (a :: heap.elements) :=
  (elements_merge heap (node nil a nil)).trans (List.perm_append_singleton a _)

theorem remove_root [DecidableEq α] {left right : SkewHeap α}
    : remove lt a (node left a right) = merge lt left right := by
  rw [remove, if_pos rfl]

section Remove

variable [DecidableEq α]

theorem remove_of_notMem (ha : a ∉ heap.elements) : remove lt a heap = heap := by
  induction heap with
  | nil => rfl
  | node left b right ihLeft ihRight =>
    simp only [elements, List.mem_cons, List.mem_append, not_or] at ha
    rw [remove, if_neg (Ne.symm ha.1), ihLeft ha.2.1, ihRight ha.2.2]

theorem root?_remove (ha : heap.root? ≠ some a) : (remove lt a heap).root? = heap.root? := by
  cases heap with
  | nil => rfl
  | node left b right => rw [remove, if_neg (fun heq => ha (congrArg some heq)), root?, root?]

theorem elements_remove (hnodup : heap.elements.Nodup) (ha : a ∈ heap.elements)
    : (remove lt a heap).elements.Perm (heap.elements.erase a) := by
  induction heap with
  | nil => exact nomatch ha
  | node left b right ihLeft ihRight =>
    obtain ⟨hb, hrest⟩ := List.nodup_cons.mp hnodup
    obtain ⟨hleft, hright, hdisjoint⟩ := List.nodup_append.mp hrest
    by_cases hab : b = a
    . rw [hab, remove_root, elements, List.erase_cons_head]
      exact elements_merge left right
    . rw [remove, if_neg hab, elements, elements, List.erase_cons_tail (by simpa using hab)]
      refine List.Perm.cons b ?_
      rcases List.mem_append.mp ((List.mem_cons.mp ha).resolve_left (Ne.symm hab)) with ha | ha
      . rw [remove_of_notMem (fun ha' => hdisjoint a ha a ha' rfl), List.erase_append_left _ ha]
        exact (ihLeft hleft ha).append_right _
      . have hnot := fun ha' => hdisjoint a ha' a ha rfl
        rw [remove_of_notMem hnot, List.erase_append_right _ hnot]
        exact (ihRight hright ha).append_left _

theorem mem_of_mem_remove (hb : b ∈ (remove lt a heap).elements) : b ∈ heap.elements := by
  induction heap with
  | nil => exact hb
  | node left c right ihLeft ihRight =>
    rw [remove] at hb
    split at hb
    . exact List.mem_cons_of_mem _ (List.mem_append.mpr (mem_merge.mp hb))
    . simp only [elements, List.mem_cons, List.mem_append] at hb ⊢
      exact hb.imp_right (Or.imp ihLeft ihRight)

end Remove

section Elements

variable {S : α → Prop}

section Below

variable {le le' : α → α → Prop}

theorem Below.congr (h : heap.Below le) (hle : ∀ a ∈ heap.elements, ∀ b ∈ heap.elements, le a b → le' a b)
    : heap.Below le' := by
  induction heap with
  | nil => trivial
  | node left a right ihLeft ihRight =>
    obtain ⟨hbelow, hleft, hright⟩ := h
    have hmem {b : α} (hb : b ∈ left.elements ++ right.elements) : b ∈ (node left a right).elements :=
      List.mem_cons_of_mem _ hb
    refine ⟨fun b hb => hle a List.mem_cons_self b (hmem hb) (hbelow b hb), ihLeft hleft ?_, ihRight hright ?_⟩
    . intro b hb c hc
      exact hle b (hmem (List.mem_append_left _ hb)) c (hmem (List.mem_append_left _ hc))
    . intro b hb c hc
      exact hle b (hmem (List.mem_append_right _ hb)) c (hmem (List.mem_append_right _ hc))

/--
The comparison tells which one of two elements may be above the other one.
-/
theorem Below.merge (h : heap.Below le) (h' : heap'.Below le) (hheap : ∀ a ∈ heap.elements, S a)
    (hheap' : ∀ a ∈ heap'.elements, S a) (htrans : ∀ a b c, le a b → le b c → le a c)
    (hlt : ∀ a b, S a → S b → if lt a b then le a b else le b a)
    : (merge lt heap heap').Below le := by
  induction heap, heap' using merge.induct lt with
  | case1 heap => simpa [SkewHeap.merge] using h'
  | case2 left a right => simpa [SkewHeap.merge] using h
  | case3 left a right left' b right' hab ih =>
    simp only [elements, List.forall_mem_cons, List.forall_mem_append] at hheap hheap' ih
    rw [SkewHeap.merge, if_pos hab]
    refine ⟨?_, ih h.2.2 h' hheap.2.2 hheap', h.2.1⟩
    have hle := hlt a b hheap.1 hheap'.1
    rw [if_pos hab] at hle
    intro c hc
    rcases List.mem_append.mp hc with hc | hc
    . rcases mem_merge.mp hc with hc | hc
      . exact h.1 c (List.mem_append_right _ hc)
      . rcases List.mem_cons.mp hc with rfl | hc
        . exact hle
        . exact htrans _ _ _ hle (h'.1 c hc)
    . exact h.1 c (List.mem_append_left _ hc)
  | case4 left a right left' b right' hab ih =>
    simp only [elements, List.forall_mem_cons, List.forall_mem_append] at hheap hheap' ih
    rw [SkewHeap.merge, if_neg hab]
    refine ⟨?_, ih h h'.2.2 hheap hheap'.2.2, h'.2.1⟩
    have hle := hlt a b hheap.1 hheap'.1
    rw [if_neg hab] at hle
    intro c hc
    rcases List.mem_append.mp hc with hc | hc
    . rcases mem_merge.mp hc with hc | hc
      . rcases List.mem_cons.mp hc with rfl | hc
        . exact hle
        . exact htrans _ _ _ hle (h.1 c hc)
      . exact h'.1 c (List.mem_append_right _ hc)
    . exact h'.1 c (List.mem_append_left _ hc)

theorem Below.remove [DecidableEq α] (h : heap.Below le) (htrans : ∀ a b c, le a b → le b c → le a c)
    (hlt : ∀ a b, if lt a b then le a b else le b a)
    : (remove lt a heap).Below le := by
  induction heap with
  | nil => trivial
  | node left b right ihLeft ihRight =>
    obtain ⟨hbelow, hleft, hright⟩ := h
    rw [SkewHeap.remove]
    split
    . exact hleft.merge (S := fun _ => True) hright (fun _ _ => trivial) (fun _ _ => trivial) htrans
        (fun a b _ _ => hlt a b)
    . refine ⟨?_, ihLeft hleft, ihRight hright⟩
      intro c hc
      exact hbelow c (List.mem_append.mpr ((List.mem_append.mp hc).imp mem_of_mem_remove mem_of_mem_remove))

end Below

/--
Only the comparisons of elements matter.
-/
theorem merge_congr (hheap : ∀ a ∈ heap.elements, S a) (hheap' : ∀ a ∈ heap'.elements, S a)
    (h : ∀ a b, S a → S b → lt a b = lt' a b)
    : merge lt heap heap' = merge lt' heap heap' := by
  induction heap, heap' using merge.induct lt with
  | case1 heap => simp [merge]
  | case2 left a right => simp [merge]
  | case3 left a right left' b right' hlt ih =>
    simp only [elements, List.forall_mem_cons, List.forall_mem_append] at hheap hheap' ih
    have hlt' : lt' a b = true := (h a b hheap.1 hheap'.1) ▸ hlt
    rw [merge, if_pos hlt, merge, if_pos hlt', ih hheap.2.2 hheap']
  | case4 left a right left' b right' hlt ih =>
    simp only [elements, List.forall_mem_cons, List.forall_mem_append] at hheap hheap' ih
    have hlt' : ¬lt' a b = true := (h a b hheap.1 hheap'.1) ▸ hlt
    rw [merge, if_neg hlt, merge, if_neg hlt', ih hheap hheap'.2.2]

variable {β : Type} [LinearOrder β] {key key' : α → β}

theorem ordered_iff_below : heap.Ordered key ↔ heap.Below fun a b => key a ≤ key b := by
  induction heap with
  | nil => rfl
  | node left a right ihLeft ihRight => rw [Ordered, Below, ihLeft, ihRight]

theorem Ordered.congr (h : heap.Ordered key) (hkey : ∀ a ∈ heap.elements, key a = key' a) : heap.Ordered key' := by
  induction heap with
  | nil => trivial
  | node left a right ihLeft ihRight =>
    simp only [elements, List.forall_mem_cons, List.forall_mem_append] at hkey
    obtain ⟨hbelow, hleft, hright⟩ := h
    refine ⟨?_, ihLeft hleft hkey.2.1, ihRight hright hkey.2.2⟩
    intro b hb
    have hb' := List.forall_mem_append.mpr hkey.2 b hb
    rw [← hkey.1, ← hb']
    exact hbelow b hb

theorem ordered_of_eq {c : β} (h : ∀ a ∈ heap.elements, key a = c) : heap.Ordered key := by
  induction heap with
  | nil => trivial
  | node left a right ihLeft ihRight =>
    simp only [elements, List.forall_mem_cons] at h
    refine ⟨?_, ihLeft (List.forall_mem_append.mp h.2).1, ihRight (List.forall_mem_append.mp h.2).2⟩
    intro b hb
    rw [h.1, h.2 b hb]

/--
The comparison decides the order of the keys of the elements.
-/
theorem Ordered.merge (h : heap.Ordered key) (h' : heap'.Ordered key) (hheap : ∀ a ∈ heap.elements, S a)
    (hheap' : ∀ a ∈ heap'.elements, S a) (hlt : ∀ a b, S a → S b → (lt a b = true ↔ key a < key b))
    : (merge lt heap heap').Ordered key := by
  refine ordered_iff_below.mpr ?_
  refine (ordered_iff_below.mp h).merge (ordered_iff_below.mp h') hheap hheap' (fun _ _ _ => le_trans) ?_
  intro a b ha hb
  split
  . rename_i hab
    exact le_of_lt ((hlt a b ha hb).mp hab)
  . rename_i hab
    exact le_of_not_gt fun hab' => hab ((hlt a b ha hb).mpr hab')

theorem Ordered.insert (h : heap.Ordered key) (ha : S a) (hheap : ∀ a ∈ heap.elements, S a)
    (hlt : ∀ a b, S a → S b → (lt a b = true ↔ key a < key b))
    : (insert lt heap a).Ordered key := by
  refine h.merge ⟨by simp [elements], trivial, trivial⟩ hheap ?_ hlt
  simpa [elements] using ha

theorem Ordered.root_le {left right : SkewHeap α} (h : (node left a right).Ordered key)
    : ∀ b ∈ (node left a right).elements, key a ≤ key b := by
  intro b hb
  rcases List.mem_cons.mp hb with rfl | hb
  . exact le_refl _
  . exact h.1 b hb

end Elements
end SkewHeap

import Ucore.Libs.SkewHeap.Impl

/-!
This module contains that the functions of libs/skew_heap.h compute those on trees and keep the fields of the nodes
those of a tree.
-/

namespace Ucore

open SkewHeapEntry

variable {α β : Type} [DecidableEq α]

section Fields

variable {entries : α → SkewHeapEntry α} {a b x : α} {l r p : Option α}

theorem setChildren_self : setChildren entries a l r a = { entries a with left := l, right := r } :=
  Function.update_self ..

theorem setChildren_of_ne (h : x ≠ a) : setChildren entries a l r x = entries x :=
  Function.update_of_ne h ..

theorem setChildren_parent : (setChildren entries a l r x).parent = (entries x).parent := by
  by_cases h : x = a
  . rw [h, setChildren_self]
  . rw [setChildren_of_ne h]

theorem setParent_self : (setParent entries (some a) p a).parent = p := by
  rw [setParent, Function.update_self]

theorem setParent_of_ne (h : l ≠ some x) : setParent entries l p x = entries x := by
  cases l with
  | none => rfl
  | some a => exact Function.update_of_ne (fun heq => h (congrArg some heq.symm)) ..

theorem setParent_children : (setParent entries l p x).left = (entries x).left ∧
    (setParent entries l p x).right = (entries x).right := by
  by_cases h : l = some x
  . rw [h, setParent, Function.update_self]
    exact ⟨rfl, rfl⟩
  . rw [setParent_of_ne h]
    exact ⟨rfl, rfl⟩

end Fields

/--
The fields of the nodes of a tree are those of the tree, except for the field `parent` of its root.
-/
def Linked (entries : α → SkewHeapEntry α) : SkewHeap α → Prop
  | .nil => True
  | .node left a right =>
    ((entries a).left = left.root? ∧ (entries a).right = right.root?) ∧
      (Linked entries left ∧ ∀ x, left.root? = some x → (entries x).parent = some a) ∧
      Linked entries right ∧ ∀ x, right.root? = some x → (entries x).parent = some a

/--
The tree hangs below `a`.
-/
def Attached (entries : α → SkewHeapEntry α) (a : α) (heap : SkewHeap α) : Prop :=
  Linked entries heap ∧ ∀ x, heap.root? = some x → (entries x).parent = some a

section Linked

variable {entries entries' : α → SkewHeapEntry α} {heap heap' left right : SkewHeap α} {a b : α}

omit [DecidableEq α] in
theorem mem_of_root? (h : heap.root? = some a) : a ∈ heap.elements := by
  cases heap with
  | nil => exact nomatch h
  | node left b right =>
    obtain rfl := Option.some_inj.mp h
    exact List.mem_cons_self

omit [DecidableEq α] in
theorem Linked.congr (h : Linked entries heap) (hnodup : heap.elements.Nodup)
    (hchildren : ∀ x ∈ heap.elements,
      (entries' x).left = (entries x).left ∧ (entries' x).right = (entries x).right)
    (hparent : ∀ x ∈ heap.elements, heap.root? ≠ some x → (entries' x).parent = (entries x).parent)
    : Linked entries' heap := by
  induction heap with
  | nil => trivial
  | node left a right ihLeft ihRight =>
    obtain ⟨⟨hl, hr⟩, ⟨hleft, hleftRoot⟩, hright, hrightRoot⟩ := h
    rw [SkewHeap.elements, List.nodup_cons, List.nodup_append] at hnodup
    obtain ⟨ha, hnodupLeft, hnodupRight, -⟩ := hnodup
    simp only [SkewHeap.elements, List.forall_mem_cons, List.forall_mem_append] at hchildren hparent
    have hne {x : α} (hx : x ∈ left.elements ++ right.elements) : (SkewHeap.node left a right).root? ≠ some x := by
      intro heq
      exact ha (Option.some_inj.mp heq ▸ hx)
    have hparentLeft : ∀ x ∈ left.elements, (entries' x).parent = (entries x).parent :=
      fun x hx => hparent.2.1 x hx (hne (List.mem_append_left _ hx))
    have hparentRight : ∀ x ∈ right.elements, (entries' x).parent = (entries x).parent :=
      fun x hx => hparent.2.2 x hx (hne (List.mem_append_right _ hx))
    refine ⟨⟨hchildren.1.1.trans hl, hchildren.1.2.trans hr⟩, ⟨?_, ?_⟩, ?_, ?_⟩
    . exact ihLeft hleft hnodupLeft hchildren.2.1 fun x hx _ => hparentLeft x hx
    . intro x hx
      rw [hparentLeft x (mem_of_root? hx), hleftRoot x hx]
    . exact ihRight hright hnodupRight hchildren.2.2 fun x hx _ => hparentRight x hx
    . intro x hx
      rw [hparentRight x (mem_of_root? hx), hrightRoot x hx]

omit [DecidableEq α] in
theorem Linked.frame (h : Linked entries heap) (hnodup : heap.elements.Nodup)
    (hsame : ∀ x ∈ heap.elements, entries' x = entries x) : Linked entries' heap := by
  refine h.congr hnodup ?_ ?_
  . intro x hx
    rw [hsame x hx]
    exact ⟨rfl, rfl⟩
  . intro x hx _
    rw [hsame x hx]

omit [DecidableEq α] in
theorem Attached.frame (h : Attached entries a heap) (hnodup : heap.elements.Nodup)
    (hsame : ∀ x ∈ heap.elements, entries' x = entries x) : Attached entries' a heap := by
  refine ⟨h.1.frame hnodup hsame, ?_⟩
  intro x hx
  rw [hsame x (mem_of_root? hx)]
  exact h.2 x hx

theorem Linked.setParent {p : Option α} (h : Linked entries heap) (hnodup : heap.elements.Nodup)
    : Linked (SkewHeapEntry.setParent entries heap.root? p) heap := by
  refine h.congr hnodup (fun x _ => setParent_children) ?_
  intro x _ hx
  rw [setParent_of_ne hx]

theorem setParent_root? {p : Option α} {x : α} (hx : heap.root? = some x)
    : (SkewHeapEntry.setParent entries heap.root? p x).parent = p := by
  rw [hx, setParent_self]

theorem Linked.attach (h : Linked entries heap) (hnodup : heap.elements.Nodup)
    : Attached (SkewHeapEntry.setParent entries heap.root? (some a)) a heap :=
  ⟨h.setParent hnodup, fun _ hx => setParent_root? hx⟩

omit [DecidableEq α] in
theorem linked_node (hchildren : (entries a).left = left.root? ∧ (entries a).right = right.root?)
    (hleft : Attached entries a left) (hright : Attached entries a right)
    : Linked entries (.node left a right) :=
  ⟨hchildren, hleft, hright⟩

omit [DecidableEq α] in
theorem Linked.treeAt (h : Linked entries heap) : TreeAt entries heap.root? heap := by
  induction heap with
  | nil => rfl
  | node left a right ihLeft ihRight =>
    obtain ⟨⟨hl, hr⟩, hleft, hright⟩ := h
    refine ⟨rfl, ?_, ?_⟩
    . rw [hl]
      exact ihLeft hleft.1
    . rw [hr]
      exact ihRight hright.1

/-! The children and the parent of a node. -/

omit [DecidableEq α] in
theorem Linked.child {p x : α} (h : Linked entries heap) (hp : p ∈ heap.elements) (hx : IsChild entries p x)
    : x ∈ heap.elements ∧ (entries x).parent = some p ∧ ∀ le, heap.Below le → le p x := by
  induction heap with
  | nil => exact nomatch hp
  | node left a right ihLeft ihRight =>
    obtain ⟨⟨hl, hr⟩, hleft, hright⟩ := h
    rcases List.mem_cons.mp hp with rfl | hp
    . rcases hx with hx | hx
      . rw [hl] at hx
        have hmem := List.mem_append_left right.elements (mem_of_root? hx)
        exact ⟨List.mem_cons_of_mem _ hmem, hleft.2 x hx, fun le hbelow => hbelow.1 x hmem⟩
      . rw [hr] at hx
        have hmem := List.mem_append_right left.elements (mem_of_root? hx)
        exact ⟨List.mem_cons_of_mem _ hmem, hright.2 x hx, fun le hbelow => hbelow.1 x hmem⟩
    . rcases List.mem_append.mp hp with hp | hp
      . obtain ⟨hmem, hparent, hle⟩ := ihLeft hleft.1 hp
        exact ⟨List.mem_cons_of_mem _ (List.mem_append_left _ hmem), hparent, fun le hbelow => hle le hbelow.2.1⟩
      . obtain ⟨hmem, hparent, hle⟩ := ihRight hright.1 hp
        exact ⟨List.mem_cons_of_mem _ (List.mem_append_right _ hmem), hparent, fun le hbelow => hle le hbelow.2.2⟩

omit [DecidableEq α] in
theorem Linked.parent {x : α} (h : Linked entries heap) (hx : x ∈ heap.elements) (hne : heap.root? ≠ some x)
    : ∃ p ∈ heap.elements, (entries x).parent = some p ∧ IsChild entries p x := by
  induction heap with
  | nil => exact nomatch hx
  | node left a right ihLeft ihRight =>
    obtain ⟨⟨hl, hr⟩, hleft, hright⟩ := h
    have hxa : x ≠ a := fun heq => hne (congrArg some heq.symm)
    rcases List.mem_append.mp ((List.mem_cons.mp hx).resolve_left hxa) with hx | hx
    . by_cases hroot : left.root? = some x
      . exact ⟨a, List.mem_cons_self, hleft.2 x hroot, .inl (hl.trans hroot)⟩
      . obtain ⟨p, hp, hparent⟩ := ihLeft hleft.1 hx hroot
        exact ⟨p, List.mem_cons_of_mem _ (List.mem_append_left _ hp), hparent⟩
    . by_cases hroot : right.root? = some x
      . exact ⟨a, List.mem_cons_self, hright.2 x hroot, .inr (hr.trans hroot)⟩
      . obtain ⟨p, hp, hparent⟩ := ihRight hright.1 hx hroot
        exact ⟨p, List.mem_cons_of_mem _ (List.mem_append_right _ hp), hparent⟩

end Linked

section Operations

variable {comp : α → α → Int} {entries : α → SkewHeapEntry α} {heap heap' left right : SkewHeap α} {a b : α}
  {fuel : Nat}

/--
The comparison of `skew_heap_merge`.
-/
def before (comp : α → α → Int) (a b : α) : Bool := comp a b = -1

/--
The way back of `skew_heap_merge`: the root `a` gets the merged tree, and its old left child changes sides.
-/
theorem merge_back {entries' : α → SkewHeapEntry α} {merged kept : SkewHeap α} (hmerged : Linked entries' merged)
    (hkept : Attached entries a kept) (hframe : ∀ x, x ∉ merged.elements → entries' x = entries x)
    (hnodup : (SkewHeap.node merged a kept).elements.Nodup)
    : ∃ entries'', setParent (setChildren entries' a merged.root? kept.root?) merged.root? (some a) = entries'' ∧
        Linked entries'' (.node merged a kept) ∧
        (∀ x, x ∉ (SkewHeap.node merged a kept).elements → entries'' x = entries x) ∧
        (entries'' a).parent = (entries a).parent := by
  rw [SkewHeap.elements, List.nodup_cons, List.mem_append, not_or, List.nodup_append] at hnodup
  obtain ⟨ha, hnodupMerged, hnodupKept, hdisjoint⟩ := hnodup
  have hne {x : α} (hx : x ∉ merged.elements) : merged.root? ≠ some x := fun heq => hx (mem_of_root? heq)
  refine ⟨_, rfl, linked_node ?_ ?_ ?_, ?_, ?_⟩
  . rw [setParent_of_ne (hne ha.1), setChildren_self]
    exact ⟨rfl, rfl⟩
  . refine Linked.attach ?_ hnodupMerged
    refine hmerged.frame hnodupMerged ?_
    intro x hx
    exact setChildren_of_ne fun heq => ha.1 (heq ▸ hx)
  . refine hkept.frame hnodupKept ?_
    intro x hx
    have hoff : x ∉ merged.elements := fun hx' => hdisjoint x hx' x hx rfl
    have hxa : x ≠ a := fun heq => ha.2 (heq ▸ hx)
    rw [setParent_of_ne (hne hoff), setChildren_of_ne hxa, hframe x hoff]
  . intro x hx
    rw [SkewHeap.elements, List.mem_cons, List.mem_append, not_or, not_or] at hx
    rw [setParent_of_ne (hne hx.2.1), setChildren_of_ne hx.1, hframe x hx.2.1]
  . rw [setParent_of_ne (hne ha.1), setChildren_parent, hframe a ha.1]

/--
`skew_heap_merge` ends and merges the trees. The field `parent` of the root stays what it is.
-/
theorem skewHeapMerge_eq (hheap : Linked entries heap) (hheap' : Linked entries heap')
    (hnodup : (heap.elements ++ heap'.elements).Nodup) (hfuel : heap.size + heap'.size < fuel)
    : ∃ entries', skewHeapMerge comp fuel entries heap.root? heap'.root?
          = some (entries', (SkewHeap.merge (before comp) heap heap').root?) ∧
        Linked entries' (SkewHeap.merge (before comp) heap heap') ∧
        (∀ x, x ∉ (SkewHeap.merge (before comp) heap heap').elements → entries' x = entries x) ∧
        ∀ x, (SkewHeap.merge (before comp) heap heap').root? = some x → (entries' x).parent = (entries x).parent := by
  obtain ⟨fuel, rfl⟩ := Nat.exists_eq_succ_of_ne_zero (Nat.ne_of_gt (Nat.zero_lt_of_lt hfuel))
  have hmerged := (@SkewHeap.elements_merge _ (before comp) heap heap').nodup_iff.mpr hnodup
  induction heap, heap' using SkewHeap.merge.induct (before comp) generalizing fuel with
  | case1 heap' =>
    rw [SkewHeap.merge]
    exact ⟨entries, rfl, hheap', fun _ _ => rfl, fun _ _ => rfl⟩
  | case2 left a right =>
    rw [SkewHeap.merge]
    exact ⟨entries, rfl, hheap, fun _ _ => rfl, fun _ _ => rfl⟩
  | case3 left a right left' b right' hab ih =>
    rw [SkewHeap.merge, if_pos hab] at hmerged ⊢
    simp only [SkewHeap.size] at hfuel
    obtain ⟨fuel, rfl⟩ := Nat.exists_eq_succ_of_ne_zero (show fuel ≠ 0 by omega)
    obtain ⟨⟨hl, hr⟩, hleft, hright⟩ := hheap
    have hrest := (List.nodup_cons.mp hmerged).2
    have hrest := (List.nodup_append.mp hrest).1
    obtain ⟨entries', heq, hlinked, hframe, -⟩ := ih hright.1 hheap'
      ((SkewHeap.elements_merge right _).nodup_iff.mp hrest) fuel (by simp only [SkewHeap.size]; omega) hrest
    obtain ⟨entries'', hback, hlinked', hframe', hparent⟩ := merge_back hlinked hleft hframe hmerged
    refine ⟨entries'', ?_, hlinked', hframe', ?_⟩
    . rw [SkewHeap.root?, SkewHeap.root?, skewHeapMerge, if_pos (of_decide_eq_true hab), hr]
      rw [SkewHeap.root?] at heq
      simp only [heq, Option.bind_eq_bind, Option.bind_some, hl, hback]
      rfl
    . intro x hx
      obtain rfl : a = x := Option.some_inj.mp hx
      exact hparent
  | case4 left a right left' b right' hab ih =>
    rw [SkewHeap.merge, if_neg hab] at hmerged ⊢
    simp only [SkewHeap.size] at hfuel
    obtain ⟨fuel, rfl⟩ := Nat.exists_eq_succ_of_ne_zero (show fuel ≠ 0 by omega)
    obtain ⟨⟨hl, hr⟩, hleft, hright⟩ := hheap'
    have hrest := (List.nodup_cons.mp hmerged).2
    have hrest := (List.nodup_append.mp hrest).1
    obtain ⟨entries', heq, hlinked, hframe, -⟩ := ih hheap hright.1
      ((SkewHeap.elements_merge _ right').nodup_iff.mp hrest) fuel (by simp only [SkewHeap.size]; omega) hrest
    obtain ⟨entries'', hback, hlinked', hframe', hparent⟩ := merge_back hlinked hleft hframe hmerged
    refine ⟨entries'', ?_, hlinked', hframe', ?_⟩
    . rw [SkewHeap.root?, SkewHeap.root?, skewHeapMerge, if_neg (fun h => hab (decide_eq_true h)), hr]
      rw [SkewHeap.root?] at heq
      simp only [heq, Option.bind_eq_bind, Option.bind_some, hl, hback]
      rfl
    . intro x hx
      obtain rfl : b = x := Option.some_inj.mp hx
      exact hparent

/--
`skew_heap_remove` of the root.
-/
theorem skewHeapRemove_root (hheap : Linked entries (.node left b right)) (hparent : (entries b).parent = none)
    (hnodup : (SkewHeap.node left b right).elements.Nodup) (hfuel : left.size + right.size < fuel) (pool : Option α)
    : ∃ entries', skewHeapRemove comp fuel entries pool b
          = some (entries', (SkewHeap.merge (before comp) left right).root?) ∧
        Linked entries' (SkewHeap.merge (before comp) left right) ∧
        ∀ x, (SkewHeap.merge (before comp) left right).root? = some x → (entries' x).parent = none := by
  obtain ⟨⟨hl, hr⟩, hleft, hright⟩ := hheap
  have hrest := (List.nodup_cons.mp hnodup).2
  obtain ⟨entries', heq, hlinked, -, -⟩ := @skewHeapMerge_eq _ _ comp _ _ _ _ hleft.1 hright.1 hrest hfuel
  have hmerged := (@SkewHeap.elements_merge _ (before comp) left right).nodup_iff.mpr hrest
  refine ⟨_, ?_, hlinked.setParent hmerged, fun x hx => setParent_root? hx⟩
  rw [skewHeapRemove, hl, hr, heq, hparent]
  rfl

/--
`skew_heap_remove` of a node `b` that is a child of `a`.
-/
theorem skewHeapRemove_child (hheap : Linked entries (.node left b right)) (hparent : (entries b).parent = some a)
    (hnodup : (SkewHeap.node left b right).elements.Nodup) (ha : a ∉ (SkewHeap.node left b right).elements)
    (hfuel : left.size + right.size < fuel)
    : ∃ entries', (∀ pool, skewHeapRemove comp fuel entries pool b = some (entries', pool)) ∧
        Attached entries' a (SkewHeap.merge (before comp) left right) ∧
        (∀ x, x ∉ left.elements ++ right.elements → x ≠ a → entries' x = entries x) ∧
        entries' a = if (entries a).left = some b then
            { entries a with left := (SkewHeap.merge (before comp) left right).root? }
          else
            { entries a with right := (SkewHeap.merge (before comp) left right).root? } := by
  obtain ⟨⟨hl, hr⟩, hleft, hright⟩ := hheap
  have hrest := (List.nodup_cons.mp hnodup).2
  obtain ⟨entries', heq, hlinked, hframe, -⟩ := @skewHeapMerge_eq _ _ comp _ _ _ _ hleft.1 hright.1 hrest hfuel
  have hmerged := (@SkewHeap.elements_merge _ (before comp) left right).nodup_iff.mpr hrest
  have hmem {x : α} (hx : x ∉ left.elements ++ right.elements)
      : x ∉ (SkewHeap.merge (before comp) left right).elements :=
    fun hx' => hx ((SkewHeap.elements_merge left right).mem_iff.mp hx')
  have hoff {x : α} (hx : x ∉ left.elements ++ right.elements)
      : setParent entries' (SkewHeap.merge (before comp) left right).root? (some a) x = entries x := by
    rw [setParent_of_ne (fun heq => hmem hx (mem_of_root? heq)), hframe x (hmem hx)]
  have haOff : a ∉ left.elements ++ right.elements := fun hmem => ha (List.mem_cons_of_mem _ hmem)
  have hchild {rep : Option α} {x : α} (hx : x ≠ a) (e : α → SkewHeapEntry α) : replaceChild e a b rep x = e x := by
    rw [replaceChild]
    split
    . exact setChildren_of_ne hx
    . exact setChildren_of_ne hx
  refine ⟨replaceChild (setParent entries' (SkewHeap.merge (before comp) left right).root? (some a)) a b
    (SkewHeap.merge (before comp) left right).root?, ?_, (hlinked.attach (a := a) hmerged).frame hmerged ?_, ?_, ?_⟩
  . intro pool
    rw [skewHeapRemove, hl, hr, heq, hparent]
    rfl
  . intro x hx
    exact hchild (fun heq => hmem haOff (heq ▸ hx)) _
  . intro x hx hxa
    rw [hchild hxa, hoff hx]
  . rw [replaceChild, hoff haOff]
    split
    . rw [setChildren_self, hoff haOff]
    . rw [setChildren_self, hoff haOff]

/--
`skew_heap_remove` of a node that is not the root.
-/
theorem skewHeapRemove_inner (hheap : Linked entries heap) (hnodup : heap.elements.Nodup) (hb : b ∈ heap.elements)
    (hne : heap.root? ≠ some b) (hfuel : heap.size ≤ fuel)
    : ∃ entries', (∀ pool, skewHeapRemove comp fuel entries pool b = some (entries', pool)) ∧
        Linked entries' (SkewHeap.remove (before comp) b heap) ∧
        (∀ x, x ∉ heap.elements → entries' x = entries x) ∧
        ∀ x, heap.root? = some x → (entries' x).parent = (entries x).parent := by
  induction heap with
  | nil => exact nomatch hb
  | node left a right ihLeft ihRight =>
    have hnodup' := hnodup
    rw [SkewHeap.elements, List.nodup_cons, List.mem_append, not_or, List.nodup_append] at hnodup'
    obtain ⟨ha, hnodupLeft, hnodupRight, hdisjoint⟩ := hnodup'
    obtain ⟨⟨hl, hr⟩, hleft, hright⟩ := hheap
    have hba : a ≠ b := fun heq => hne (congrArg some heq)
    simp only [SkewHeap.size] at hfuel
    rw [SkewHeap.remove, if_neg hba]
    rcases List.mem_append.mp ((List.mem_cons.mp hb).resolve_left hba.symm) with hb | hb
    . have hbRight : b ∉ right.elements := fun hb' => hdisjoint b hb b hb' rfl
      rw [SkewHeap.remove_of_notMem hbRight]
      by_cases hroot : left.root? = some b
      . cases left with
        | nil => exact nomatch hb
        | node below c below' =>
          obtain rfl := Option.some_inj.mp hroot
          simp only [SkewHeap.size] at hfuel
          obtain ⟨entries', heq, hattached, hframe, hself⟩ := @skewHeapRemove_child _ _ comp _ _ _ _ _ fuel
            hleft.1 (hleft.2 c rfl) hnodupLeft ha.1 (by omega)
          rw [if_pos (show (entries a).left = some c from hl)] at hself
          rw [SkewHeap.remove_root]
          refine ⟨entries', heq, linked_node ?_ hattached ?_, ?_, ?_⟩
          . rw [hself]
            exact ⟨rfl, hr⟩
          . refine Attached.frame hright hnodupRight ?_
            intro x hx
            refine hframe x (fun hx' => hdisjoint x (List.mem_cons_of_mem _ hx') x hx rfl) ?_
            exact fun heq => ha.2 (heq ▸ hx)
          . intro x hx
            rw [SkewHeap.elements, List.mem_cons, List.mem_append, not_or, not_or] at hx
            exact hframe x (fun hx' => hx.2.1 (List.mem_cons_of_mem _ hx')) hx.1
          . intro x hx
            obtain rfl : a = x := Option.some_inj.mp hx
            rw [hself]
      . obtain ⟨entries', heq, hlinked, hframe, hparent⟩ := ihLeft hleft.1 hnodupLeft hb hroot (by omega)
        refine ⟨entries', heq, linked_node ?_ ⟨hlinked, ?_⟩ ?_, ?_, ?_⟩
        . rw [hframe a ha.1, SkewHeap.root?_remove hroot]
          exact ⟨hl, hr⟩
        . intro x hx
          rw [SkewHeap.root?_remove hroot] at hx
          rw [hparent x hx, hleft.2 x hx]
        . refine Attached.frame hright hnodupRight ?_
          intro x hx
          exact hframe x fun hx' => hdisjoint x hx' x hx rfl
        . intro x hx
          exact hframe x fun hx' => hx (List.mem_cons_of_mem _ (List.mem_append_left _ hx'))
        . intro x hx
          obtain rfl : a = x := Option.some_inj.mp hx
          rw [hframe a ha.1]
    . have hbLeft : b ∉ left.elements := fun hb' => hdisjoint b hb' b hb rfl
      rw [SkewHeap.remove_of_notMem hbLeft]
      by_cases hroot : right.root? = some b
      . cases right with
        | nil => exact nomatch hb
        | node below c below' =>
          obtain rfl := Option.some_inj.mp hroot
          simp only [SkewHeap.size] at hfuel
          obtain ⟨entries', heq, hattached, hframe, hself⟩ := @skewHeapRemove_child _ _ comp _ _ _ _ _ fuel
            hright.1 (hright.2 c rfl) hnodupRight ha.2 (by omega)
          rw [if_neg (fun heq => hbLeft (mem_of_root? (hl.symm.trans heq)))] at hself
          rw [SkewHeap.remove_root]
          refine ⟨entries', heq, linked_node ?_ ?_ hattached, ?_, ?_⟩
          . rw [hself]
            exact ⟨hl, rfl⟩
          . refine Attached.frame hleft hnodupLeft ?_
            intro x hx
            refine hframe x (fun hx' => hdisjoint x hx x (List.mem_cons_of_mem _ hx') rfl) ?_
            exact fun heq => ha.1 (heq ▸ hx)
          . intro x hx
            rw [SkewHeap.elements, List.mem_cons, List.mem_append, not_or, not_or] at hx
            exact hframe x (fun hx' => hx.2.2 (List.mem_cons_of_mem _ hx')) hx.1
          . intro x hx
            obtain rfl : a = x := Option.some_inj.mp hx
            rw [hself]
      . obtain ⟨entries', heq, hlinked, hframe, hparent⟩ := ihRight hright.1 hnodupRight hb hroot (by omega)
        refine ⟨entries', heq, linked_node ?_ ?_ ⟨hlinked, ?_⟩, ?_, ?_⟩
        . rw [hframe a ha.2, SkewHeap.root?_remove hroot]
          exact ⟨hl, hr⟩
        . refine Attached.frame hleft hnodupLeft ?_
          intro x hx
          exact hframe x fun hx' => hdisjoint x hx x hx' rfl
        . intro x hx
          rw [SkewHeap.root?_remove hroot] at hx
          rw [hparent x hx, hright.2 x hx]
        . intro x hx
          exact hframe x fun hx' => hx (List.mem_cons_of_mem _ (List.mem_append_right _ hx'))
        . intro x hx
          obtain rfl : a = x := Option.some_inj.mp hx
          rw [hframe a ha.2]

end Operations

end Ucore

import Ucore.Lib.Run
import Ucore.Libs.SkewHeap.Lemmas

/-!
This module contains the runs of a skew heap from the empty one: its nodes, their order and their parents are right
after every call.
-/

namespace Ucore

open SkewHeapEntry

variable {α β : Type} [DecidableEq α]

namespace SkewHeapSys

variable {comp : β → β → Int} {c c' : SkewHeapSys α β} {heap : SkewHeap α} {fuel : Nat} {b : α}

omit [DecidableEq α] in
theorem size_eq (heap : SkewHeap α) : heap.size = heap.elements.length := by
  induction heap with
  | nil => rfl
  | node left a right ihLeft ihRight =>
    rw [SkewHeap.size, SkewHeap.elements, List.length_cons, List.length_append, ihLeft, ihRight]

/--
The heap is linked in the memory and has the nodes that it should have.
-/
structure Holds (c : SkewHeapSys α β) (heap : SkewHeap α) : Prop where
  linked : Linked c.entries heap
  pool : c.pool = heap.root?
  root : ∀ x, heap.root? = some x → (c.entries x).parent = none
  perm : heap.elements.Perm c.nodes
  nodup : c.nodes.Nodup

/--
No node is smaller than the one above it.
-/
def Above (comp : β → β → Int) (key : α → β) (a b : α) : Prop := comp (key a) (key b) ≤ 0

/--
The comparison of `skew_heap_merge` on the nodes.
-/
def lt (comp : β → β → Int) (key : α → β) : α → α → Bool := before fun a b => comp (key a) (key b)

omit [DecidableEq α] in
theorem Holds.consistent (h : c.Holds heap) (hbelow : heap.Below (Above comp c.key)) : c.Consistent comp := by
  have hmem {x : α} : x ∈ heap.elements ↔ x ∈ c.nodes := h.perm.mem_iff
  constructor
  . exact ⟨heap, h.pool ▸ h.linked.treeAt, h.perm⟩
  . exact h.nodup
  . intro p hp a ha
    exact (h.linked.child (hmem.mpr hp) ha).2.2 _ hbelow
  . intro p hp a ha
    exact (h.linked.child (hmem.mpr hp) ha).2.1
  . intro a ha hne
    obtain ⟨p, hp, hparent⟩ := h.linked.parent (hmem.mpr ha) (h.pool ▸ hne)
    exact ⟨p, hmem.mp hp, hparent⟩
  . intro a ha
    exact h.root a (h.pool ▸ ha)

theorem Holds.insert (h : c.Holds heap) (hb : b ∉ c.nodes) (hfuel : c.nodes.length + 1 < fuel) (k : β)
    : ∃ c', c.step comp fuel (.insert b k) = some c' ∧ c'.key = Function.update c.key b k ∧ c'.nodes = b :: c.nodes ∧
        c'.Holds (SkewHeap.insert (lt comp c'.key) heap b) := by
  have hbHeap : b ∉ heap.elements := fun hmem => hb (h.perm.mem_iff.mp hmem)
  have hnodup := h.perm.nodup_iff.mpr h.nodup
  have hoff {x : α} (hx : x ≠ b) : skewHeapInit c.entries b x = c.entries x := Function.update_of_ne hx ..
  have hself : skewHeapInit c.entries b b = ⟨none, none, none⟩ := Function.update_self ..
  have hheap : Linked (skewHeapInit c.entries b) heap :=
    h.linked.frame hnodup fun x hx => hoff fun heq => hbHeap (heq ▸ hx)
  have hnode : Linked (skewHeapInit c.entries b) (.node .nil b .nil) := by
    refine linked_node ?_ ⟨trivial, fun _ hx => nomatch hx⟩ ⟨trivial, fun _ hx => nomatch hx⟩
    rw [hself]
    exact ⟨rfl, rfl⟩
  have hnodup' : (heap.elements ++ (SkewHeap.node .nil b .nil).elements).Nodup := by
    refine List.nodup_append.mpr ⟨hnodup, by simp [SkewHeap.elements], ?_⟩
    rintro x hx y hy rfl
    exact hbHeap (List.mem_singleton.mp hy ▸ hx)
  obtain ⟨entries', heq, hlinked, -, hroot⟩ := @skewHeapMerge_eq _ _
    (fun x y => comp (Function.update c.key b k x) (Function.update c.key b k y)) _ _ _ fuel hheap hnode hnodup'
    (by rw [size_eq, h.perm.length_eq]; exact hfuel)
  refine ⟨⟨entries', Function.update c.key b k,
    (SkewHeap.insert (lt comp (Function.update c.key b k)) heap b).root?, b :: c.nodes⟩, ?_, rfl, rfl, ?_⟩
  . rw [step, h.pool, skewHeapInsert, show some b = (SkewHeap.node .nil b .nil).root? from rfl, heq]
    rfl
  . refine ⟨hlinked, rfl, ?_, ?_, List.nodup_cons.mpr ⟨hb, h.nodup⟩⟩
    . intro x hx
      refine (hroot x hx).trans ?_
      by_cases hxb : x = b
      . rw [hxb, hself]
      . rw [hoff hxb]
        refine h.root x ?_
        rcases SkewHeap.root?_merge heap (.node .nil b .nil) with hor | hor
        . exact hor.symm.trans hx
        . exact absurd (Option.some_inj.mp (hx.symm.trans hor)) hxb
    . exact (SkewHeap.elements_insert heap b).trans (h.perm.cons b)

theorem Holds.remove (h : c.Holds heap) (hb : b ∈ c.nodes) (hfuel : c.nodes.length < fuel)
    : ∃ c', c.remove comp fuel b = some c' ∧ c'.key = c.key ∧ c'.nodes = c.nodes.erase b ∧
        c'.Holds (SkewHeap.remove (lt comp c.key) b heap) := by
  have hnodup := h.perm.nodup_iff.mpr h.nodup
  have hbHeap := h.perm.mem_iff.mpr hb
  have hlength : heap.size < fuel := by
    rw [size_eq, h.perm.length_eq]
    exact hfuel
  have hperm : (SkewHeap.remove (lt comp c.key) b heap).elements.Perm (c.nodes.erase b) :=
    (SkewHeap.elements_remove hnodup hbHeap).trans (h.perm.erase b)
  have hrest := h.nodup.erase b
  by_cases hroot : heap.root? = some b
  . cases heap with
    | nil => exact nomatch hbHeap
    | node left a right =>
      obtain rfl := Option.some_inj.mp hroot
      rw [SkewHeap.remove_root] at hperm ⊢
      simp only [SkewHeap.size] at hlength
      obtain ⟨entries', heq, hlinked, hparent⟩ := @skewHeapRemove_root _ _
        (fun x y => comp (c.key x) (c.key y)) _ _ _ _ fuel h.linked (h.root a rfl) hnodup (by omega) c.pool
      refine ⟨⟨entries', c.key, _, c.nodes.erase a⟩, ?_, rfl, rfl, ⟨hlinked, rfl, hparent, hperm, hrest⟩⟩
      rw [SkewHeapSys.remove, heq]
      rfl
  . obtain ⟨entries', heq, hlinked, -, hparent⟩ := @skewHeapRemove_inner _ _
      (fun x y => comp (c.key x) (c.key y)) _ _ _ fuel h.linked hnodup hbHeap hroot (Nat.le_of_lt hlength)
    have hsame := @SkewHeap.root?_remove _ (lt comp c.key) _ _ _ hroot
    refine ⟨⟨entries', c.key, c.pool, c.nodes.erase b⟩, ?_, rfl, rfl,
      ⟨hlinked, h.pool.trans hsame.symm, ?_, hperm, hrest⟩⟩
    . rw [SkewHeapSys.remove, heq c.pool]
      rfl
    . intro x hx
      rw [hsame] at hx
      rw [hparent x hx, h.root x hx]

/-! The order of the nodes. -/

omit [DecidableEq α] in
theorem above_trans (hcomp : TotalPreorder comp) (key : α → β)
    : ∀ a b c, Above comp key a b → Above comp key b c → Above comp key a c :=
  fun a b c => hcomp.trans (key a) (key b) (key c)

omit [DecidableEq α] in
/--
A node that is not in front of another one may be below it.
-/
theorem lt_above (hcomp : TotalPreorder comp) (key : α → β) (a b : α)
    : if lt comp key a b then Above comp key a b else Above comp key b a := by
  have hsign := hcomp.sign (key a) (key b)
  have hswap := hcomp.swap (key a) (key b)
  split
  . rename_i hlt
    have hlt : comp (key a) (key b) = -1 := of_decide_eq_true hlt
    rw [Above, hlt]
    decide
  . rename_i hlt
    have hlt : comp (key a) (key b) ≠ -1 := fun heq => hlt (decide_eq_true heq)
    rw [Above, hswap]
    omega

theorem below_update {k : β} (h : heap.Below (Above comp c.key)) (hb : b ∉ heap.elements)
    : heap.Below (Above comp (Function.update c.key b k)) := by
  refine h.congr ?_
  intro x hx y hy hle
  have hxb : x ≠ b := fun heq => hb (heq ▸ hx)
  have hyb : y ≠ b := fun heq => hb (heq ▸ hy)
  rw [Above, Function.update_of_ne hxb, Function.update_of_ne hyb]
  exact hle

/--
The heap is linked, has the nodes that it should have, and is ordered.
-/
def Inv (comp : β → β → Int) (c : SkewHeapSys α β) : Prop :=
  ∃ heap, c.Holds heap ∧ heap.Below (Above comp c.key)

theorem Inv.step (hcomp : TotalPreorder comp) (h : c.Inv comp) {call : SkewHeapCall α β} (hlegal : c.Legal call)
    (hfuel : c.nodes.length + 1 < fuel)
    : ∃ c', c.step comp fuel call = some c' ∧ c'.Inv comp ∧ c'.nodes.length ≤ c.nodes.length + 1 := by
  obtain ⟨heap, h, hbelow⟩ := h
  cases call with
  | insert b k =>
    obtain ⟨c', hstep, hkey, hnodes, h'⟩ := @Holds.insert _ _ _ comp _ _ _ _ h hlegal hfuel k
    have hb : b ∉ heap.elements := fun hmem => hlegal (h.perm.mem_iff.mp hmem)
    refine ⟨c', hstep, ⟨_, h', ?_⟩, Nat.le_of_eq (congrArg List.length hnodes)⟩
    have hbelow' : heap.Below (Above comp c'.key) := hkey ▸ below_update hbelow hb
    refine hbelow'.merge (S := fun _ => True) ?_ (fun _ _ => trivial) (fun _ _ => trivial)
      (above_trans hcomp c'.key) (fun a b _ _ => lt_above hcomp c'.key a b)
    exact ⟨fun _ hx => absurd hx List.not_mem_nil, trivial, trivial⟩
  | remove b =>
    obtain ⟨c', hstep, hkey, hnodes, h'⟩ := @Holds.remove _ _ _ comp _ _ _ _ h hlegal (Nat.lt_of_succ_lt hfuel)
    refine ⟨c', hstep, ⟨_, h', ?_⟩, ?_⟩
    . rw [hkey]
      exact hbelow.remove (above_trans hcomp c.key) (lt_above hcomp c.key)
    . have := c.nodes.length_erase_le (a := b)
      rw [hnodes]
      omega
  | removeChanged k =>
    cases heap with
    | nil =>
      refine ⟨c, ?_, ⟨.nil, h, hbelow⟩, Nat.le_succ _⟩
      simp only [SkewHeapSys.step, h.pool, SkewHeap.root?]
    | node left root right =>
      let c₁ : SkewHeapSys α β := { c with key := Function.update c.key root k }
      have h₁ : c₁.Holds (.node left root right) := ⟨h.linked, h.pool, h.root, h.perm, h.nodup⟩
      obtain ⟨c', hstep, hkey, hnodes, h'⟩ := @Holds.remove _ _ _ comp _ _ _ root h₁
        (h.perm.mem_iff.mp List.mem_cons_self) (Nat.lt_of_succ_lt hfuel)
      have hroot := (List.nodup_cons.mp (h.perm.nodup_iff.mpr h.nodup)).1
      rw [List.mem_append, not_or] at hroot
      have hchanged : c.step comp fuel (.removeChanged k) = c₁.remove comp fuel root := by
        rw [SkewHeapSys.step]
        split
        . rename_i root' hroot'
          obtain rfl := Option.some_inj.mp (hroot'.symm.trans h.pool)
          rfl
        . rename_i hnone
          cases hnone.symm.trans h.pool
      refine ⟨c', hchanged.trans hstep, ⟨_, h', ?_⟩, ?_⟩
      . rw [hkey, SkewHeap.remove_root]
        exact (below_update hbelow.2.1 hroot.1).merge (S := fun _ => True) (below_update hbelow.2.2 hroot.2)
          (fun _ _ => trivial) (fun _ _ => trivial) (above_trans hcomp c₁.key)
          (fun a b _ _ => lt_above hcomp c₁.key a b)
      . have := c.nodes.length_erase_le (a := root)
        rw [hnodes]
        show (c.nodes.erase root).length ≤ _
        omega

/--
In every run from the empty heap all calls end, and the heap is right after each. No call goes deeper than there were
calls.
-/
theorem always_consistent (hcomp : TotalPreorder comp) (entries : α → SkewHeapEntry α) (key : α → β)
    (calls : List (SkewHeapCall α β)) (hfuel : calls.length < fuel)
    (hlegal : Run.Admits (step comp fuel) Legal ⟨entries, key, none, []⟩ calls)
    : Run.Always (step comp fuel) (Consistent comp) ⟨entries, key, none, []⟩ calls := by
  have hrun : ∀ (calls : List (SkewHeapCall α β)) (c : SkewHeapSys α β), c.Inv comp →
      c.nodes.length + calls.length < fuel → Run.Admits (SkewHeapSys.step comp fuel) Legal c calls →
        Run.Always (SkewHeapSys.step comp fuel) (Consistent comp) c calls := by
    intro calls
    induction calls with
    | nil =>
      rintro c ⟨heap, h, hbelow⟩ _ _
      exact h.consistent hbelow
    | cons call calls ih =>
      intro c hinv hfuel hlegal
      rw [List.length_cons] at hfuel
      obtain ⟨c', hstep, hinv', hlength⟩ := @Inv.step _ _ _ _ _ fuel hcomp hinv _ hlegal.1 (by omega)
      obtain ⟨heap, h, hbelow⟩ := hinv
      exact ⟨h.consistent hbelow, c', hstep, ih c' hinv' (by omega) (hlegal.2 c' hstep)⟩
  refine hrun calls _ ⟨.nil, ?_, trivial⟩ (by simpa using hfuel) hlegal
  exact ⟨trivial, rfl, (fun _ hx => nomatch hx), List.Perm.refl _, List.nodup_nil⟩

/--
The keys in the order of the integers.
-/
def compareInt (x y : Int) : Int := if x < y then -1 else if x = y then 0 else 1

theorem totalPreorder_compareInt : TotalPreorder compareInt := by
  constructor
  . intro x y
    rw [compareInt]
    split_ifs <;> simp
  . intro x y
    rw [compareInt, compareInt]
    split_ifs <;> omega
  . intro x y z
    rw [compareInt, compareInt, compareInt]
    split_ifs <;> omega

/--
An inner node and the root, whose key was raised, are removed.
-/
theorem always_consistent_compareInt
    : Run.Always (step compareInt 7) (Consistent compareInt)
        ⟨fun _ => ⟨none, none, none⟩, fun _ => 0, none, []⟩
        [.insert 0 5, .insert 1 3, .insert 2 4, .insert 3 4, .removeChanged 9, .remove 0] :=
  always_consistent (α := Nat) totalPreorder_compareInt _ _ _ (by decide) (by decide +kernel)

end SkewHeapSys
end Ucore

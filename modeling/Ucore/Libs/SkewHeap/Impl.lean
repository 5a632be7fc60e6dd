import Mathlib
import Ucore.Lib.SkewHeap

/-!
This module contains the skew heap of libs/skew_heap.h, whose nodes point to their children and to their parent.

A function of the source that calls itself gets a bound on the depth of its calls, and returns `none` where it is
exceeded.
-/

namespace Ucore

structure SkewHeapEntry (α : Type) where
  parent : Option α
  left : Option α
  right : Option α

variable {α β : Type} [DecidableEq α]

namespace SkewHeapEntry

/-! Assignments to the fields of a node. -/

def setChildren (entries : α → SkewHeapEntry α) (a : α) (left right : Option α) : α → SkewHeapEntry α :=
  Function.update entries a { entries a with left, right }

/--
`if (l) l->parent = p`
-/
def setParent (entries : α → SkewHeapEntry α) (l p : Option α) : α → SkewHeapEntry α :=
  match l with
  | none => entries
  | some a => Function.update entries a { entries a with parent := p }

/--
The children of the parent `p` of `b`, with `rep` in the place of `b`.
-/
def replaceChild (entries : α → SkewHeapEntry α) (p b : α) (rep : Option α) : α → SkewHeapEntry α :=
  if (entries p).left = some b then
    setChildren entries p rep (entries p).right
  else
    setChildren entries p (entries p).left rep

end SkewHeapEntry

open SkewHeapEntry

def skewHeapInit (entries : α → SkewHeapEntry α) (a : α) : α → SkewHeapEntry α :=
  Function.update entries a ⟨none, none, none⟩

def skewHeapMerge (comp : α → α → Int)
    : Nat → (α → SkewHeapEntry α) → Option α → Option α → Option ((α → SkewHeapEntry α) × Option α)
  | 0, _, _, _ => none
  | _ + 1, entries, none, b => some (entries, b)
  | _ + 1, entries, some a, none => some (entries, some a)
  | fuel + 1, entries, some a, some b =>
    if comp a b = -1 then do
      let r := (entries a).left
      let (entries, l) ← skewHeapMerge comp fuel entries (entries a).right (some b)
      return (setParent (setChildren entries a l r) l (some a), some a)
    else do
      let r := (entries b).left
      let (entries, l) ← skewHeapMerge comp fuel entries (some a) (entries b).right
      return (setParent (setChildren entries b l r) l (some b), some b)

def skewHeapInsert (comp : α → α → Int) (fuel : Nat) (entries : α → SkewHeapEntry α) (a : Option α) (b : α)
    : Option ((α → SkewHeapEntry α) × Option α) :=
  skewHeapMerge comp fuel (skewHeapInit entries b) a (some b)

def skewHeapRemove (comp : α → α → Int) (fuel : Nat) (entries : α → SkewHeapEntry α) (a : Option α) (b : α)
    : Option ((α → SkewHeapEntry α) × Option α) := do
  let p := (entries b).parent
  let (entries, rep) ← skewHeapMerge comp fuel entries (entries b).left (entries b).right
  let entries := setParent entries rep p
  match p with
  | some p => return (replaceChild entries p b rep, a)
  | none => return (entries, rep)

/--
A heap with the keys that its comparison looks at, and the nodes that were inserted and not removed since.
-/
structure SkewHeapSys (α β : Type) where
  entries : α → SkewHeapEntry α
  key : α → β
  pool : Option α
  nodes : List α

inductive SkewHeapCall (α β : Type) where
  | insert (b : α) (key : β)
  | remove (b : α)
  /-- The root gets another key, as in `stride_pick_next`, and is removed. -/
  | removeChanged (key : β)

namespace SkewHeapSys

def remove (comp : β → β → Int) (fuel : Nat) (c : SkewHeapSys α β) (b : α) : Option (SkewHeapSys α β) := do
  let (entries, pool) ← skewHeapRemove (fun a b => comp (c.key a) (c.key b)) fuel c.entries c.pool b
  return { c with entries, pool, nodes := c.nodes.erase b }

def step (comp : β → β → Int) (fuel : Nat) (c : SkewHeapSys α β) : SkewHeapCall α β → Option (SkewHeapSys α β)
  | .insert b k => do
    let key := Function.update c.key b k
    let (entries, pool) ← skewHeapInsert (fun a b => comp (key a) (key b)) fuel c.entries c.pool b
    return { entries, key, pool, nodes := b :: c.nodes }
  | .remove b => c.remove comp fuel b
  | .removeChanged k =>
    match c.pool with
    | some root => { c with key := Function.update c.key root k }.remove comp fuel root
    | none => some c

/--
A node is inserted that is not in the heap, or one is removed that is.
-/
def Legal (c : SkewHeapSys α β) : SkewHeapCall α β → Prop
  | .insert b _ => b ∉ c.nodes
  | .remove b => b ∈ c.nodes
  | .removeChanged _ => True

instance (c : SkewHeapSys α β) (call : SkewHeapCall α β) : Decidable (c.Legal call) :=
  match call with
  | .insert .. => inferInstanceAs (Decidable (_ ∉ _))
  | .remove _ => inferInstanceAs (Decidable (_ ∈ _))
  | .removeChanged _ => isTrue trivial

end SkewHeapSys

/--
`comp` is a total preorder and says `-1`, `0` or `1`, as `proc_stride_comp_f` does.
-/
structure TotalPreorder (comp : β → β → Int) : Prop where
  sign : ∀ x y, comp x y = -1 ∨ comp x y = 0 ∨ comp x y = 1
  swap : ∀ x y, comp y x = -comp x y
  trans : ∀ x y z, comp x y ≤ 0 → comp y z ≤ 0 → comp x z ≤ 0

/--
The tree that `p` points to.
-/
def TreeAt (entries : α → SkewHeapEntry α) : Option α → SkewHeap α → Prop
  | p, .nil => p = none
  | p, .node left a right => p = some a ∧ TreeAt entries (entries a).left left ∧ TreeAt entries (entries a).right right

def SkewHeapEntry.IsChild (entries : α → SkewHeapEntry α) (p a : α) : Prop :=
  (entries p).left = some a ∨ (entries p).right = some a

/--
The heap has the nodes that it should have, each once, no node is smaller than its parent, and the fields `parent` point
to the parents.
-/
structure SkewHeapSys.Consistent (comp : β → β → Int) (c : SkewHeapSys α β) : Prop where
  contents : ∃ heap, TreeAt c.entries c.pool heap ∧ heap.elements.Perm c.nodes
  nodup : c.nodes.Nodup
  order : ∀ p ∈ c.nodes, ∀ a, IsChild c.entries p a → comp (c.key p) (c.key a) ≤ 0
  children : ∀ p ∈ c.nodes, ∀ a, IsChild c.entries p a → (c.entries a).parent = some p
  parent : ∀ a ∈ c.nodes, c.pool ≠ some a → ∃ p ∈ c.nodes, (c.entries a).parent = some p ∧ IsChild c.entries p a
  root : ∀ a, c.pool = some a → (c.entries a).parent = none

end Ucore

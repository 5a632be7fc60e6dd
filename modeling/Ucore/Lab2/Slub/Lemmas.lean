import Ucore.Lab2.Buddy.Invariant
import Ucore.Lab2.Slub.Objects
import Ucore.Lib.FieldChain

/-!
This module contains what the loops of the slub allocator do to the memory: the lists of blocks, the objects
of a page and the links of the pages.
-/

namespace Ucore

open BuddyTree

namespace Buddy

variable {s : Buddy} {caps : Nat → Nat} {m : Nat}

theorem convert2PowOf2_one : convert2PowOf2 1 = 1 :=
  convert2PowOf2_eq (k := 0) (by decide) (by decide) (by decide)

/--
In a tree in which nothing is taken the loop goes to the first leaf.
-/
theorem descend_first (hm : 2 ^ (m + 1) ≤ nodes) (hstored : Stored m ∅ (nodeAt caps))
    : ∀ (h l fuel : Nat), l + h = m → h < fuel →
        descend caps 1 fuel (2 ^ h) (2 ^ l - 1) = some (2 ^ m - 1) := by
  intro h
  induction h with
  | zero =>
    intro l fuel hlh hfuel
    obtain ⟨fuel, rfl⟩ := Nat.exists_eq_add_of_le' (Nat.one_le_of_lt hfuel)
    obtain rfl : l = m := by omega
    simp [descend]
  | succ h ih =>
    intro l fuel hlh hfuel
    obtain ⟨fuel, rfl⟩ := Nat.exists_eq_add_of_le' (Nat.one_le_of_lt hfuel)
    have hpos := Nat.two_pow_pos l
    have hlevel : 2 ^ (l + 1) = 2 * 2 ^ l := Nat.pow_succ'
    have hlevel' : 2 ^ (l + 1 + 1) = 2 * 2 ^ (l + 1) := Nat.pow_succ'
    have hread (j : Nat) (hle : 2 ^ (l + 1) ≤ j) (hlt : j < 2 ^ (l + 1 + 1))
        : readNode caps (j - 1) = some (2 ^ h) := by
      have hclear : Clear ∅ h j := fun d _ i _ => by simp
      rw [readNode, if_pos (lt_nodes hm (l := l + 1) (by omega) hlt), Option.some_inj,
        ← capacity_eq_pow_iff.mpr hclear]
      exact hstored (l + 1) h j (by omega) hle hlt
    have hone : 2 ^ (h + 1) ≠ 1 := by
      rw [Nat.pow_succ]
      omega
    have hhalf : 2 ^ (h + 1) / 2 = 2 ^ h := by
      rw [Nat.pow_succ]
      omega
    have hfit : 1 ≤ 2 ^ h := Nat.two_pow_pos h
    rw [descend, if_neg hone, leftChild_eq hpos, rightChild_eq hpos, hread _ (by omega) (by omega),
      hread _ (by omega) (by omega)]
    simp only [Option.bind_eq_bind, Option.bind_some, Nat.lt_irrefl, if_false, hhalf]
    rw [if_pos hfit, ← hlevel]
    exact ih (l + 1) fuel (by omega) (by omega)

theorem root_first (hstored : Stored m ∅ (nodeAt caps)) : caps 0 = 2 ^ m := by
  have hclear : Clear ∅ m 1 := fun d _ i _ => by simp
  rw [← capacity_eq_pow_iff.mpr hclear]
  exact hstored 0 m 1 (by omega) (by simp) (by simp)

/--
The first page handed out is the first one.
-/
theorem buddyAllocPages_first (hm : 2 ^ (m + 1) ≤ nodes) (htotal : s.totalSize = 2 ^ m)
    (hstored : Stored m ∅ (nodeAt s.nodeCapacity)) {r : Nat × Buddy} (halloc : s.buddyAllocPages 1 = some r)
    : r.1 = 0 := by
  have hten := height_lt hm
  have hpos := Nat.two_pow_pos m
  have hdescend := descend_first hm hstored m 0 fuel (by omega) (by unfold fuel; omega)
  have hroot := root_first hstored
  have hlayer : layer (2 ^ m - 1) = some m := by
    apply layer_eq _ _ (by omega)
    . omega
    . rw [Nat.pow_succ]
      omega
  have hread : readNode s.nodeCapacity 0 = some (2 ^ m) := by
    rw [readNode, if_pos (by decide), hroot]
  rw [Nat.pow_zero, Nat.sub_self] at hdescend
  simp only [buddyAllocPages, if_pos Nat.one_pos, hread, Option.bind_eq_bind, Option.bind_some, convert2PowOf2_one,
    htotal, hdescend, hlayer, doubled_eq (show m < 32 by omega), if_neg (Nat.not_lt.mpr hpos)] at halloc
  obtain ⟨caps, -, halloc⟩ := Option.bind_eq_some_iff.mp halloc
  obtain ⟨caps', -, halloc⟩ := Option.bind_eq_some_iff.mp halloc
  obtain rfl := Option.some_inj.mp halloc
  simp [Nat.sub_add_cancel hpos]

end Buddy

namespace Slub

variable {g : Globals} {mem mem' : Nat → Nat} {m : Nat}

theorem load_eq {a : Nat} (ha : pgsize ≤ a) : load mem a = some (mem a) :=
  if_neg (Nat.not_lt.mpr ha)

theorem store_eq {a v : Nat} (ha : pgsize ≤ a) : store mem a v = some (Function.update mem a v) :=
  if_neg (Nat.not_lt.mpr ha)

theorem blockNext_ge {p : Nat} (hp : pgsize ≤ p) : pgsize ≤ blockNext p :=
  Nat.le_add_right_of_le hp

theorem blockPrev_ge {p : Nat} (hp : pgsize ≤ p) : pgsize ≤ blockPrev p :=
  Nat.le_add_right_of_le hp

theorem linkNext_ge {le : Nat} (hle : pgsize ≤ le) : pgsize ≤ linkNext le :=
  Nat.le_add_right_of_le hle

/-! The lists of blocks. -/

/--
The link fields of a `struct block_head`.
-/
def blocks : FieldChain Nat := ⟨blockNext, blockPrev, 0⟩

/--
The headers of two blocks do not overlap.
-/
def Far (x y : Nat) : Prop := x + 24 ≤ y ∨ y + 24 ≤ x

theorem Far.symm {x y : Nat} (h : Far x y) : Far y x := Or.symm h

/--
An address outside of the header of `x`.
-/
def Off (x a : Nat) : Prop := a < x ∨ x + 24 ≤ a

theorem separate_of_far {nodes : List Nat} (h : ∀ x ∈ nodes, ∀ y ∈ nodes, x ≠ y → Far x y)
    : blocks.Separate nodes := by
  constructor
  . intro x _ y _ heq
    exact Nat.add_right_cancel heq
  . intro x _ y _ heq
    exact Nat.add_right_cancel heq
  . intro x hx y hy heq
    have heq : x + 8 = y + 16 := heq
    have hfar := h x hx y hy (by omega)
    unfold Far at hfar
    omega

theorem join_of_off {q y a : Nat} (hq : Off q a) (hy : Off y a) : blocks.join mem q y a = mem a := by
  unfold Off at hq hy
  rw [FieldChain.join, Function.update_of_ne, Function.update_of_ne]
  . show a ≠ q + 8
    omega
  . show a ≠ y + 16
    omega

theorem link_of_off {q o y a : Nat} (hq : Off q a) (ho : Off o a) (hy : Off y a)
    : blocks.link mem q o y a = mem a := by
  unfold Off at hq ho hy
  rw [FieldChain.link, Function.update_of_ne, Function.update_of_ne, Function.update_of_ne, Function.update_of_ne]
  . show a ≠ q + 8
    omega
  . show a ≠ o + 16
    omega
  . show a ≠ o + 8
    omega
  . show a ≠ y + 16
    omega

/--
A memory that agrees outside of other headers has the same list.
-/
theorem chain_congr_of_off {head : Nat} {xs : List Nat} (h : blocks.Chain mem head xs)
    (hsame : ∀ x ∈ head :: xs, ∀ a, ¬Off x a → mem' a = mem a)
    : blocks.Chain mem' head xs := by
  apply h.congr
  . intro x hx
    apply hsame x hx
    show ¬(x + 8 < x ∨ x + 24 ≤ x + 8)
    omega
  . intro x hx
    apply hsame x (List.mem_cons_of_mem _ hx)
    show ¬(x + 16 < x ∨ x + 24 ≤ x + 16)
    omega

theorem freeList_of_chain {head : Nat} {xs : List Nat} (h : blocks.Chain mem head xs) (hxs : ∀ x ∈ xs, x ≠ 0)
    : FreeList mem (mem (blockNext head)) xs := by
  induction xs generalizing head with
  | nil => exact h
  | cons x xs ih =>
    refine ⟨h.1, hxs x (List.mem_cons_self ..), ih h.2.2 ?_⟩
    intro z hz
    exact hxs z (List.mem_cons_of_mem _ hz)

/--
The loop that looks for the place of an object stops at the first block behind it.
-/
theorem insertLoop_eq {object y : Nat} {ys : List Nat}
    : ∀ (xs : List Nat) (p fuel : Nat), blocks.Chain mem p (xs ++ y :: ys) → (∀ x ∈ p :: xs, x < object) →
        object ≤ y → (∀ x ∈ object :: p :: (xs ++ [y]), pgsize ≤ x) →
        (∀ x ∈ p :: xs, blockNext x ≠ blockPrev y) → xs.length + 1 < fuel →
          insertLoop object fuel p mem = some (blocks.link mem (xs.getLastD p) object y) := by
  intro xs
  induction xs with
  | nil =>
    intro p fuel hchain hbelow hle hge hcross hfuel
    obtain ⟨fuel, rfl⟩ := Nat.exists_eq_add_of_le' hfuel
    have hp := hge p (by simp)
    have hy := hge y (by simp)
    have ho := hge object (by simp)
    have hpNext : mem (blockNext p) = y := hchain.1
    have hyPrev : mem (blockPrev y) = p := hchain.2.1
    have hne : y ≠ 0 := by
      unfold pgsize at hy
      omega
    have hkeep : Function.update mem (blockNext p) object (blockPrev y) = p := by
      rw [Function.update_of_ne (hcross p (by simp)).symm, hyPrev]
    rw [show fuel + Nat.succ ([].length + 1) = fuel + 1 + 1 from rfl, insertLoop, if_pos (hbelow p (by simp)),
      load_eq (blockNext_ge hp), hpNext, Option.bind_eq_bind, Option.bind_some, if_neg hne, insertLoop,
      if_neg (Nat.not_lt.mpr hle), load_eq (blockPrev_ge hy), hyPrev]
    simp only [Option.bind_eq_bind, Option.bind_some, store_eq (blockNext_ge hp), load_eq (blockPrev_ge hy), hkeep,
      store_eq (blockPrev_ge ho), store_eq (blockNext_ge ho), store_eq (blockPrev_ge hy)]
    rfl
  | cons x xs ih =>
    intro p fuel hchain hbelow hle hge hcross hfuel
    obtain ⟨fuel, rfl⟩ := Nat.exists_eq_add_of_le' (Nat.one_le_of_lt hfuel)
    have hx := hge x (by simp)
    have hpNext : mem (blockNext p) = x := hchain.1
    have hne : x ≠ 0 := by
      unfold pgsize at hx
      omega
    rw [insertLoop, if_pos (hbelow p (by simp)), load_eq (blockNext_ge (hge p (by simp))), hpNext,
      Option.bind_eq_bind, Option.bind_some, if_neg hne, List.getLastD_cons]
    apply ih x fuel hchain.2.2 _ hle _ _ (Nat.lt_of_succ_lt_succ hfuel)
    . intro z hz
      exact hbelow z (List.mem_cons_of_mem _ hz)
    . intro z hz
      apply hge
      simp only [List.cons_append, List.mem_cons, List.mem_append] at hz ⊢
      tauto
    . intro z hz
      exact hcross z (List.mem_cons_of_mem _ hz)

/--
A list whose last block is not below the object gets the object in front of a block.
-/
theorem insertObject_eq {object last head : Nat} {zs : List Nat} (hchain : blocks.Chain mem head zs)
    (hlast : zs.getLast? = some last) (hle : object ≤ last) (hhead : head < object)
    (hge : ∀ x ∈ object :: head :: zs, pgsize ≤ x)
    (hfar : ∀ x ∈ object :: head :: zs, ∀ y ∈ object :: head :: zs, x ≠ y → Far x y)
    (hnodup : (object :: head :: zs).Nodup)
    : ∃ xs y ys, zs = xs ++ y :: ys
        ∧ insertObject mem head object = some (blocks.link mem (xs.getLastD head) object y)
        ∧ blocks.Chain (blocks.link mem (xs.getLastD head) object y) head (xs ++ object :: y :: ys) := by
  obtain ⟨y, hy⟩ : ∃ y, zs.find? (fun x => object ≤ x) = some y := by
    apply Option.isSome_iff_exists.mp
    rw [List.find?_isSome]
    exact ⟨last, List.mem_of_getLast? hlast, decide_eq_true hle⟩
  obtain ⟨hley, xs, ys, rfl, hbelow⟩ := List.find?_eq_some_iff_append.mp hy
  have hsep := separate_of_far hfar
  have hbelow : ∀ x ∈ head :: xs, x < object := by
    intro x hx
    cases List.mem_cons.mp hx with
    | inl heq => exact heq ▸ hhead
    | inr hmem =>
      have := hbelow x hmem
      simpa using this
  refine ⟨xs, y, ys, rfl, ?_, hchain.link hsep (fun z hz => hz) hnodup⟩
  apply insertLoop_eq xs head _ hchain hbelow (of_decide_eq_true hley)
  . intro x hx
    apply hge
    simp only [List.mem_cons, List.mem_append] at hx ⊢
    tauto
  . intro x hx
    apply hsep.cross
    . simp only [List.mem_cons, List.mem_append] at hx ⊢
      tauto
    . simp
  . -- the blocks below the object are distinct addresses
    have hnodup' : (head :: xs).Nodup := by
      apply List.Nodup.sublist _ (List.nodup_cons.mp hnodup).2
      exact List.Sublist.cons_cons _ (List.sublist_append_left xs _)
    have hsub : head :: xs ⊆ List.range object := fun x hx => List.mem_range.mpr (hbelow x hx)
    have hlength := (List.subperm_of_subset hnodup' hsub).length_le
    rw [List.length_range, List.length_cons] at hlength
    omega

/--
A request when the seller has at least two objects.
-/
theorem allocSeller_cons {s : Slub} {index x y : Nat} {ys : List Nat} (hhead : pgsize ≤ g.objectListHead index)
    (hge : ∀ z ∈ x :: y :: ys, pgsize ≤ z) (hchain : blocks.Chain s.mem (g.objectListHead index) (x :: y :: ys))
    : allocSeller g s index = some (x, { s with mem := blocks.join s.mem (g.objectListHead index) y }) := by
  have hx := hge x (by simp)
  have hy := hge y (by simp)
  have hne : y ≠ 0 := by
    unfold pgsize at hy
    omega
  have hheadNext : s.mem (blockNext (g.objectListHead index)) = x := hchain.1
  have hxNext : s.mem (blockNext x) = y := hchain.2.2.1
  rw [allocSeller]
  simp only [load_eq (blockNext_ge hhead), hheadNext, load_eq (blockNext_ge hx), hxNext,
    store_eq (blockNext_ge hhead), store_eq (blockPrev_ge hy), Option.bind_eq_bind, Option.bind_some, if_pos hne]
  rfl

/--
A request when the seller has one object and no page is full.
-/
theorem allocSeller_last {s : Slub} {index x : Nat} (hhead : pgsize ≤ g.objectListHead index) (hx : pgsize ≤ x)
    (hchain : blocks.Chain s.mem (g.objectListHead index) [x]) (hfull : (s.kmemCacheList index).fullHeads = 0)
    : ∃ s', allocSeller g s index = some (x, s') := by
  have hheadNext : s.mem (blockNext (g.objectListHead index)) = x := hchain.1
  have hxNext : s.mem (blockNext x) = 0 := hchain.2.2
  rw [allocSeller]
  simp only [load_eq (blockNext_ge hhead), hheadNext, load_eq (blockNext_ge hx), hxNext,
    store_eq (blockNext_ge hhead), Option.bind_eq_bind, Option.bind_some, ne_eq, not_true_eq_false, if_false,
    retirePage, hfull]
  exact ⟨_, rfl⟩

/-! The objects of a page. -/

/--
The loop that makes objects: they become one list behind `p`.
-/
theorem linkObjects_eq (index : Nat) {basePage powN : Nat} (hpow : 24 ≤ powN) (hbase : pgsize ≤ basePage)
    : ∀ (n i p : Nat) (mem : Nat → Nat), pgsize ≤ p → p + 24 ≤ basePage + powN * (i + 2) →
        (n = 0 → mem (blockNext p) = 0) →
        ∃ mem', linkObjects basePage powN index n i p mem = some mem'
          ∧ blocks.Chain mem' p ((List.range' i n).map fun i => basePage + powN * (i + 2))
          ∧ ∀ a, a ≠ blockNext p → (∀ j, i ≤ j → j < i + n → Off (basePage + powN * (j + 2)) a) →
              mem' a = mem a := by
  intro n
  induction n with
  | zero =>
    intro i p mem _ _ hnil
    exact ⟨mem, rfl, hnil rfl, fun _ _ _ => rfl⟩
  | succ n ih =>
    intro i p mem hp hfar _
    obtain ⟨temp, hdef⟩ : ∃ temp, temp = basePage + powN * (i + 2) := ⟨_, rfl⟩
    have htemp : pgsize ≤ temp := hdef ▸ Nat.le_add_right_of_le hbase
    have hnext : temp + powN = basePage + powN * (i + 1 + 2) := by
      rw [hdef, Nat.add_assoc, show i + 1 + 2 = i + 2 + 1 from rfl, Nat.mul_succ powN (i + 2)]
    have hlater (j : Nat) (hj : i + 1 ≤ j) : temp + powN ≤ basePage + powN * (j + 2) := by
      rw [hnext]
      exact Nat.add_le_add_left (Nat.mul_le_mul_left powN (by omega)) basePage
    let mem₁ := Function.update (Function.update mem (blockNext temp) 0) (blockPrev temp) 0
    let mem₂ := Function.update mem₁ temp (mem₁ temp - mem₁ temp % 2 ^ 16 + index % 2 ^ 16)
    let mem₃ := Function.update (Function.update mem₂ (blockNext p) temp) (blockPrev temp) p
    have hsame (a : Nat) (ha : a ≠ blockNext p) (hoff : Off temp a) : mem₃ a = mem a := by
      unfold Off at hoff
      unfold blockNext at ha
      simp only [mem₃, mem₂, mem₁, blockNext, blockPrev]
      repeat rw [Function.update_of_ne (by omega)]
    obtain ⟨mem', heq, hchain, hframe⟩ := ih (i + 1) temp mem₃ htemp (by omega) (by
      intro _
      simp only [mem₃, mem₂, mem₁, blockNext, blockPrev]
      rw [Function.update_of_ne (by omega), Function.update_of_ne (by omega), Function.update_of_ne (by omega),
        Function.update_of_ne (by omega), Function.update_self])
    have hkeep (a : Nat) (ha : a ≠ blockNext temp) (hbefore : a < temp + powN) : mem' a = mem₃ a := by
      apply hframe a ha
      intro j hj _
      have := hlater j hj
      exact .inl (by omega)
    refine ⟨mem', ?_, ?_, ?_⟩
    . simp only [linkObjects, initializeBlockHead, storeSize, ← hdef, Option.bind_eq_bind,
        store_eq (blockNext_ge htemp), store_eq (blockPrev_ge htemp), store_eq (blockNext_ge hp), load_eq htemp,
        store_eq htemp, Option.bind_some]
      exact heq
    . rw [List.range'_succ, List.map_cons, ← hdef]
      refine ⟨?_, ?_, hchain⟩
      . show mem' (p + 8) = temp
        rw [hkeep (p + 8) (by unfold blockNext; omega) (by omega)]
        simp only [mem₃, blockNext, blockPrev]
        rw [Function.update_of_ne (by omega), Function.update_self]
      . show mem' (temp + 16) = p
        rw [hkeep (temp + 16) (by unfold blockNext; omega) (by omega)]
        exact Function.update_self ..
    . intro a ha hoff
      have htempOff := hoff i (Nat.le_refl i) (by omega)
      rw [← hdef] at htempOff
      rw [hframe a _ _, hsame a ha htempOff]
      . unfold Off at htempOff
        unfold blockNext
        omega
      . intro j hj hlt
        exact hoff j (by omega) (by omega)

/-! The links of the pages. -/

/--
The link through which `get_page` comes to page `k`: that of page `0` is the head of the list.
-/
def linkOf (g : Globals) : Nat → Nat
  | 0 => g.freeList
  | k + 1 => pageLink (g.page (k + 1))

/--
Each of so many pages is linked to the next one.
-/
def Linked (g : Globals) (mem : Nat → Nat) (total : Nat) : Prop :=
  ∀ k, k + 1 < total → mem (linkNext (linkOf g k)) = linkOf g (k + 1)

theorem linkOf_ge (g : Globals) (k : Nat) : pgsize ≤ linkOf g k := by
  cases k with
  | zero => exact g.freeList_ge
  | succ k =>
    have := g.freeList_ge
    have := g.freeList_le
    simp only [linkOf, pageLink, Globals.page]
    omega

theorem linkOf_lt {k k' : Nat} (hlt : k < k') : linkOf g k + 16 ≤ linkOf g k' := by
  have := g.freeList_le
  obtain ⟨k', rfl⟩ := Nat.exists_eq_add_of_le' (Nat.one_le_of_lt hlt)
  cases k with
  | zero =>
    simp only [linkOf, pageLink, Globals.page, pgsize]
    omega
  | succ k =>
    simp only [linkOf, pageLink, Globals.page, pgsize]
    omega

/--
The loop that links the pages behind page `k`.
-/
theorem linkPages_eq (g : Globals)
    : ∀ (n k : Nat) (mem : Nat → Nat), ∃ mem', linkPages g n (k + 1) (linkOf g k) mem = some mem'
        ∧ (∀ j, k ≤ j → j < k + n → mem' (linkNext (linkOf g j)) = linkOf g (j + 1))
        ∧ ∀ j, j < k → mem' (linkNext (linkOf g j)) = mem (linkNext (linkOf g j)) := by
  intro n
  induction n with
  | zero =>
    intro k mem
    refine ⟨mem, rfl, ?_, fun _ _ => rfl⟩
    intro j hle hlt
    omega
  | succ n ih =>
    intro k mem
    obtain ⟨mem', heq, hlinked, hsame⟩ := ih (k + 1) (Function.update
      (Function.update mem (linkNext (linkOf g k)) (linkOf g (k + 1))) (linkPrev (linkOf g (k + 1))) (linkOf g k))
    have hge := linkOf_ge g k
    have hge' := linkOf_ge g (k + 1)
    refine ⟨mem', ?_, ?_, ?_⟩
    . rw [linkPages, store_eq (linkNext_ge hge), Option.bind_eq_bind, Option.bind_some,
        store_eq (show pgsize ≤ linkPrev (pageLink (g.page (k + 1))) from hge'), Option.bind_some]
      exact heq
    . intro j hle hlt
      by_cases hjk : j = k
      . subst hjk
        have hlt := @linkOf_lt g j (j + 1) (by omega)
        rw [hsame j (by omega), Function.update_of_ne, Function.update_self]
        unfold linkNext linkPrev
        omega
      . exact hlinked j (by omega) (by omega)
    . intro j hjk
      have hlt := @linkOf_lt g j k hjk
      have hlt' := @linkOf_lt g j (k + 1) (by omega)
      rw [hsame j (by omega), Function.update_of_ne, Function.update_of_ne]
      . unfold linkNext
        omega
      . unfold linkNext linkPrev
        omega

theorem walk_eq {total : Nat} (hlinked : Linked g mem total)
    : ∀ n k, k + n < total → walk mem n (linkOf g k) = some (linkOf g (k + n)) := by
  intro n
  induction n with
  | zero =>
    intro k _
    rfl
  | succ n ih =>
    intro k hlt
    rw [walk, load_eq (linkNext_ge (linkOf_ge g k)), Option.bind_eq_bind, Option.bind_some,
      hlinked k (by omega), ih (k + 1) (by omega), Nat.add_right_comm k 1 n]
    rfl

theorem getPage_eq {total offset : Nat} (hlinked : Linked g mem total) (hpos : 0 < offset) (hlt : offset < total)
    : getPage g mem offset = some (g.page offset) := by
  obtain ⟨k, rfl⟩ := Nat.exists_eq_add_of_le' hpos
  have hwalk := walk_eq hlinked (k + 1) 0 (by omega)
  rw [Nat.zero_add] at hwalk
  rw [getPage, show g.freeList = linkOf g 0 from rfl, hwalk]
  exact congrArg some (Nat.add_sub_cancel ..)

end Slub
end Ucore

import Mathlib

/-!
This module contains blocks of memory: intervals of addresses, how often a list of blocks covers an
address, and lists of blocks that are sorted with gaps between them.
-/

structure Block where
  addr : Nat
  units : Nat
  deriving DecidableEq

namespace Block

def stop (b : Block) : Nat := b.addr + b.units

def Has (b : Block) (x : Nat) : Prop := b.addr ≤ x ∧ x < b.stop

instance (b : Block) (x : Nat) : Decidable (b.Has x) := inferInstanceAs (Decidable (_ ∧ _))

/--
The number of blocks that have `x`.
-/
def cover (bs : List Block) (x : Nat) : Nat := bs.countP fun b => b.Has x

variable {a b c : Block} {as bs cs : List Block} {x u v : Nat}

@[simp]
theorem cover_nil : cover [] x = 0 := rfl

theorem cover_cons : cover (b :: bs) x = (if b.Has x then 1 else 0) + cover bs x := by
  rw [cover, List.countP_cons, Nat.add_comm]
  simp [cover]

theorem cover_append : cover (as ++ bs) x = cover as x + cover bs x := List.countP_append

theorem cover_perm (h : as.Perm bs) : cover as x = cover bs x := h.countP_eq _

/--
A block is made of two parts.
-/
theorem has_split
    : (if Has ⟨a.addr, u + v⟩ x then 1 else 0) =
        (if Has ⟨a.addr, u⟩ x then 1 else 0) + if Has ⟨a.addr + u, v⟩ x then 1 else 0 := by
  by_cases h₁ : Has ⟨a.addr, u⟩ x <;> by_cases h₂ : Has ⟨a.addr + u, v⟩ x <;>
    by_cases h : Has ⟨a.addr, u + v⟩ x <;> simp only [h₁, h₂, h, if_true, if_false] <;>
      simp only [Has, stop] at * <;> omega

theorem has_merge (h : a.stop = b.addr)
    : (if Has ⟨a.addr, a.units + b.units⟩ x then 1 else 0) =
        (if a.Has x then 1 else 0) + if b.Has x then 1 else 0 := by
  by_cases h₁ : a.Has x <;> by_cases h₂ : b.Has x <;>
    by_cases h₃ : Has ⟨a.addr, a.units + b.units⟩ x <;> simp only [h₁, h₂, h₃, if_true, if_false] <;>
      simp only [Has, stop] at * <;> omega

theorem has_addr (h : 0 < b.units) : b.Has b.addr := by
  simp only [Has, stop]
  omega

theorem cover_pos (hb : b ∈ bs) (hx : b.Has x) : 0 < cover bs x := by
  rw [cover, List.countP_pos_iff]
  exact ⟨b, hb, by simpa using hx⟩

/--
Blocks that have no address in common lie one behind the other.
-/
theorem apart (ha : 0 < a.units) (hb : 0 < b.units) (h : ∀ x, a.Has x → ¬b.Has x)
    : a.stop ≤ b.addr ∨ b.stop ≤ a.addr := by
  have h₁ := h a.addr
  have h₂ := h b.addr
  simp only [Has, stop] at *
  omega

theorem sum_has {n : Nat} (h : b.stop ≤ n)
    : ∑ x ∈ Finset.range n, (if b.Has x then 1 else 0) = b.units := by
  have hico : (Finset.range n).filter b.Has = Finset.Ico b.addr b.stop := by
    ext x
    simp only [Finset.mem_filter, Finset.mem_range, Finset.mem_Ico, Has]
    omega
  rw [← Finset.card_filter, hico, Nat.card_Ico, stop]
  omega

/--
The units of blocks are counted by the addresses that they cover.
-/
theorem sum_cover {n : Nat} (h : ∀ b ∈ bs, b.stop ≤ n)
    : ∑ x ∈ Finset.range n, cover bs x = (bs.map units).sum := by
  induction bs with
  | nil => simp
  | cons b bs ih =>
    simp only [cover_cons, Finset.sum_add_distrib, List.map_cons, List.sum_cons]
    rw [sum_has (h b List.mem_cons_self), ih fun c hc => h c (List.mem_cons_of_mem _ hc)]

theorem exists_bound (bs : List Block) : ∃ n, ∀ b ∈ bs, b.stop ≤ n := by
  induction bs with
  | nil => exact ⟨0, by simp⟩
  | cons b bs ih =>
    obtain ⟨n, hn⟩ := ih
    refine ⟨max b.stop n, ?_⟩
    intro c hc
    rcases List.mem_cons.mp hc with rfl | hc
    . exact Nat.le_max_left ..
    . exact Nat.le_trans (hn c hc) (Nat.le_max_right ..)

/--
Blocks that cover no more than others have no more units.
-/
theorem units_le_of_cover_le (h : ∀ x, cover as x ≤ cover bs x)
    : (as.map units).sum ≤ (bs.map units).sum := by
  obtain ⟨n, hn⟩ := exists_bound (as ++ bs)
  rw [← sum_cover fun b hb => hn b (List.mem_append_left _ hb),
    ← sum_cover fun b hb => hn b (List.mem_append_right _ hb)]
  exact Finset.sum_le_sum fun x _ => h x

theorem length_le_units (h : ∀ b ∈ bs, 0 < b.units) : bs.length ≤ (bs.map units).sum := by
  induction bs with
  | nil => simp
  | cons b bs ih =>
    have := ih fun c hc => h c (List.mem_cons_of_mem _ hc)
    have := h b List.mem_cons_self
    simp only [List.length_cons, List.map_cons, List.sum_cons]
    omega

/--
Sorted, with a gap behind every block.
-/
def Spaced (bs : List Block) : Prop := bs.Pairwise fun a b => a.stop < b.addr

theorem Spaced.split (h : Spaced bs) (hpos : ∀ c ∈ bs, 0 < c.units)
    (happart : ∀ c ∈ bs, c.stop ≤ b.addr ∨ b.stop ≤ c.addr)
    : ∃ as cs, bs = as ++ cs ∧ (∀ c ∈ as, c.stop ≤ b.addr) ∧ ∀ c ∈ cs, b.stop ≤ c.addr := by
  induction bs with
  | nil => exact ⟨[], [], rfl, by simp, by simp⟩
  | cons c bs ih =>
    obtain ⟨hc, hrest⟩ := List.pairwise_cons.mp h
    rcases happart c List.mem_cons_self with hbefore | hbehind
    . obtain ⟨as, cs, rfl, has, hcs⟩ := ih hrest (fun d hd => hpos d (List.mem_cons_of_mem _ hd))
        fun d hd => happart d (List.mem_cons_of_mem _ hd)
      refine ⟨c :: as, cs, rfl, ?_, hcs⟩
      intro d hd
      rcases List.mem_cons.mp hd with rfl | hd
      . exact hbefore
      . exact has d hd
    . refine ⟨[], c :: bs, rfl, by simp, ?_⟩
      intro d hd
      rcases List.mem_cons.mp hd with rfl | hd
      . exact hbehind
      . have := hc d hd
        simp only [stop] at *
        omega

theorem Spaced.addr_nodup (h : Spaced bs) (hpos : ∀ c ∈ bs, 0 < c.units) : (bs.map addr).Nodup := by
  induction bs with
  | nil => exact List.nodup_nil
  | cons c bs ih =>
    obtain ⟨hc, hrest⟩ := List.pairwise_cons.mp h
    rw [List.map_cons, List.nodup_cons]
    refine ⟨?_, ih hrest fun d hd => hpos d (List.mem_cons_of_mem _ hd)⟩
    intro hmem
    obtain ⟨d, hd, heq⟩ := List.mem_map.mp hmem
    have := hc d hd
    simp only [stop] at this
    omega

/--
The list with the block `b` between `as` and `cs`, merged with the blocks that it touches.
-/
def insertBehind (b : Block) : List Block → List Block
  | [] => [b]
  | c :: cs => if b.stop = c.addr then ⟨b.addr, b.units + c.units⟩ :: cs else b :: c :: cs

/--
`a` takes over the first block of `bs` if that follows without a gap.
-/
def mergeInto (a : Block) : List Block → List Block
  | [] => [a]
  | b :: bs => if a.stop = b.addr then ⟨a.addr, a.units + b.units⟩ :: bs else a :: b :: bs

def insertMerge : List Block → Block → List Block → List Block
  | [], b, cs => mergeInto b cs
  | [a], b, cs => mergeInto a (mergeInto b cs)
  | a :: a' :: as, b, cs => a :: insertMerge (a' :: as) b cs

theorem mergeInto_cons
    : mergeInto a (b :: bs) = if a.stop = b.addr then ⟨a.addr, a.units + b.units⟩ :: bs
        else a :: b :: bs := rfl

theorem mergeInto_append (h : bs ≠ [] ∨ ∀ c ∈ cs.head?, a.stop ≠ c.addr)
    : mergeInto a (bs ++ cs) = mergeInto a bs ++ cs := by
  cases bs with
  | nil =>
    have h := h.resolve_left (by simp)
    cases cs with
    | nil => rfl
    | cons c cs =>
      have hne := h c rfl
      simp only [List.nil_append, mergeInto, hne, if_false, List.cons_append]
  | cons b bs =>
    simp only [List.cons_append, mergeInto]
    split <;> rfl

theorem mergeInto_ne_nil : mergeInto a bs ≠ [] := by
  cases bs with
  | nil => simp [mergeInto]
  | cons b bs =>
    rw [mergeInto_cons]
    split <;> simp

theorem insertMerge_concat : insertMerge (as ++ [a]) b cs = as ++ mergeInto a (mergeInto b cs) := by
  induction as with
  | nil => rfl
  | cons d as ih =>
    cases as with
    | nil => rfl
    | cons d' as =>
      rw [List.cons_append, List.cons_append, List.cons_append, ← List.cons_append, ← ih]
      rfl

theorem cover_mergeInto : cover (mergeInto a bs) x = cover (a :: bs) x := by
  cases bs with
  | nil => rfl
  | cons b bs =>
    rw [mergeInto_cons]
    split
    next h =>
      rw [cover_cons, cover_cons, cover_cons, has_merge h]
      omega
    next => rfl

theorem cover_insertMerge : cover (insertMerge as b cs) x = cover (b :: (as ++ cs)) x := by
  rcases List.eq_nil_or_concat' as with rfl | ⟨as, a, rfl⟩
  . exact cover_mergeInto
  . rw [insertMerge_concat, cover_append, cover_mergeInto, cover_cons, cover_mergeInto, cover_cons,
      cover_cons, cover_append, cover_append, cover_cons, cover_nil]
    omega

theorem mergeInto_pos (ha : 0 < a.units) (h : ∀ c ∈ bs, 0 < c.units) {c : Block}
    (hc : c ∈ mergeInto a bs)
    : 0 < c.units := by
  cases bs with
  | nil => simp_all [mergeInto]
  | cons b bs =>
    rw [mergeInto_cons] at hc
    split at hc
    . rcases List.mem_cons.mp hc with rfl | hc
      . exact Nat.lt_of_lt_of_le ha (Nat.le_add_right ..)
      . exact h c (List.mem_cons_of_mem _ hc)
    . rcases List.mem_cons.mp hc with rfl | hc
      . exact ha
      . exact h c hc

theorem insertMerge_pos (h : ∀ c ∈ as ++ cs, 0 < c.units) (hb : 0 < b.units) {c : Block}
    (hc : c ∈ insertMerge as b cs)
    : 0 < c.units := by
  rcases List.eq_nil_or_concat' as with rfl | ⟨as, a, rfl⟩
  . exact mergeInto_pos hb h hc
  . rw [insertMerge_concat, List.mem_append] at hc
    rcases hc with hc | hc
    . exact h c (by simp [hc])
    . apply mergeInto_pos (h a (by simp)) _ hc
      intro d hd
      exact mergeInto_pos hb (fun d hd => h d (List.mem_append_right _ hd)) hd

/--
Nothing in the merged list begins in front of `a` but what did before.
-/
theorem mergeInto_addr {c : Block} (hc : c ∈ mergeInto a bs)
    : c.addr = a.addr ∨ ∃ d ∈ bs, c.addr = d.addr := by
  cases bs with
  | nil => simp_all [mergeInto]
  | cons b bs =>
    rw [mergeInto_cons] at hc
    split at hc
    . rcases List.mem_cons.mp hc with rfl | hc
      . exact .inl rfl
      . exact .inr ⟨c, List.mem_cons_of_mem _ hc, rfl⟩
    . rcases List.mem_cons.mp hc with rfl | hc
      . exact .inl rfl
      . exact .inr ⟨c, hc, rfl⟩

theorem Spaced.mergeInto (h : Spaced bs) (hbehind : ∀ c ∈ bs, a.stop ≤ c.addr)
    : Spaced (Block.mergeInto a bs) := by
  cases bs with
  | nil => exact List.pairwise_singleton ..
  | cons b bs =>
    obtain ⟨hb, hrest⟩ := List.pairwise_cons.mp h
    have hab := hbehind b List.mem_cons_self
    rw [mergeInto_cons]
    split
    next heq =>
      refine List.pairwise_cons.mpr ⟨?_, hrest⟩
      intro d hd
      have := hb d hd
      simp only [stop] at *
      omega
    next hne =>
      refine List.pairwise_cons.mpr ⟨?_, h⟩
      intro d hd
      rcases List.mem_cons.mp hd with rfl | hd
      . exact Nat.lt_of_le_of_ne hab hne
      . have := hb d hd
        simp only [stop] at *
        omega

theorem Spaced.insertMerge (h : Spaced (as ++ cs)) (hb : 0 < b.units)
    (hbefore : ∀ a ∈ as, a.stop ≤ b.addr) (hbehind : ∀ c ∈ cs, b.stop ≤ c.addr)
    : Spaced (Block.insertMerge as b cs) := by
  obtain ⟨has, hcs, hcross⟩ := List.pairwise_append.mp h
  have hright : Spaced (Block.mergeInto b cs) := Spaced.mergeInto hcs hbehind
  rcases List.eq_nil_or_concat' as with rfl | ⟨as, a, rfl⟩
  . exact hright
  . obtain ⟨has', -, hcross'⟩ := List.pairwise_append.mp has
    have hab := hbefore a (by simp)
    have hfrom : ∀ c ∈ Block.mergeInto b cs, b.addr ≤ c.addr := by
      intro c hc
      rcases mergeInto_addr hc with heq | ⟨d, hd, heq⟩
      . omega
      . have := hbehind d hd
        simp only [stop] at this
        omega
    rw [insertMerge_concat]
    refine List.pairwise_append.mpr ⟨has', Spaced.mergeInto hright ?_, ?_⟩
    . intro c hc
      exact Nat.le_trans hab (hfrom c hc)
    . intro d hd c hc
      have hda := hcross' d hd a (by simp)
      rcases mergeInto_addr hc with heq | ⟨e, he, heq⟩
      . omega
      . have := hfrom e he
        simp only [stop] at *
        omega

/--
A block that `b` does not touch stays as it is.
-/
theorem mem_mergeInto (hc : c ∈ bs) (hne : a.stop ≠ c.addr) : c ∈ mergeInto a bs := by
  cases bs with
  | nil => contradiction
  | cons b bs =>
    rw [mergeInto_cons]
    split
    next h =>
      rcases List.mem_cons.mp hc with rfl | hc
      . contradiction
      . exact List.mem_cons_of_mem _ hc
    next => exact List.mem_cons_of_mem _ hc

theorem mem_mergeInto_self (hne : ∀ b ∈ bs.head?, a.stop ≠ b.addr) : a ∈ mergeInto a bs := by
  cases bs with
  | nil => exact List.mem_singleton_self a
  | cons b bs =>
    rw [mergeInto_cons, if_neg (hne b rfl)]
    exact List.mem_cons_self

theorem mergeInto_head : ∀ d ∈ (mergeInto b cs).head?, d.addr = b.addr := by
  intro d hd
  cases cs with
  | nil =>
    rw [mergeInto, List.head?_cons, Option.mem_def, Option.some_inj] at hd
    rw [hd]
  | cons c cs =>
    rw [mergeInto_cons] at hd
    split at hd <;> rw [List.head?_cons, Option.mem_def, Option.some_inj] at hd <;> rw [← hd]

theorem mem_insertMerge (hc : c ∈ as ++ cs) (hbehind : b.stop ≠ c.addr) (hbefore : c.stop ≠ b.addr)
    (hnext : ∀ a ∈ as, a.stop ≠ c.addr)
    : c ∈ insertMerge as b cs := by
  rcases List.eq_nil_or_concat' as with rfl | ⟨as, a, rfl⟩
  . exact mem_mergeInto hc hbehind
  . rw [insertMerge_concat]
    rw [List.append_assoc, List.mem_append] at hc
    rcases hc with hc | hc
    . exact List.mem_append_left _ hc
    . apply List.mem_append_right
      rcases List.mem_append.mp hc with hc | hc
      . rw [List.mem_singleton] at hc
        subst hc
        apply mem_mergeInto_self
        intro d hd
        rw [mergeInto_head d hd]
        exact hbefore
      . exact mem_mergeInto (mem_mergeInto hc hbehind) (hnext a (by simp))

end Block

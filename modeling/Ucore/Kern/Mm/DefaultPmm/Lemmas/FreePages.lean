import Ucore.Kern.Mm.DefaultPmm.Lemmas.Basic

/-!
This module contains the specification of `default_init_memmap` and `default_free_pages`, which
share the insertion into the list, and of the insertion behind the last entry, which breaks it.
-/

namespace Ucore

open CircularList

theorem Blocks.merge {npage : Nat} {pages pages' : Nat → Page} {pre post : List (Nat × Nat)}
    {b k m : Nat} (h : Blocks npage pages (pre ++ (b, k) :: (b + k, m) :: post))
    (hprop : ∀ x ∈ pre ++ post, (pages' x.1).property = (pages x.1).property)
    (hsame : ∀ p < npage, p ≠ b → p ≠ b + k → (pages' p).isProperty = (pages p).isProperty)
    (hb : (pages' b).property = k + m) (hb' : (pages' b).isProperty = true)
    (hbk : (pages' (b + k)).isProperty = false)
    : Blocks npage pages' (pre ++ (b, k + m) :: post) := by
  have hk := h.pos (b, k) (by simp)
  have hbound := h.bound (b + k, m) (by simp)
  obtain ⟨hsorted, hpre, hpost⟩ := sorted_append_cons_iff.mp h.sorted
  have hpost' := (List.pairwise_cons.mp (List.pairwise_append.mp hsorted).2.1).1
  have h₁ : Blocks npage (Function.update pages b (pages b).clearProperty)
      (pre ++ (b + k, m) :: post) := by
    apply h.erase
    . intro x hx
      grind [Function.update_apply, Page.clearProperty_property]
    . intro p hp hpb
      simp [hpb]
    . simp
  have h₂ : Blocks npage (Function.update (Function.update pages b (pages b).clearProperty) (b + k)
      (pages (b + k)).clearProperty) (pre ++ post) := by
    apply h₁.erase
    . intro x hx
      have := h₁.fst_ne hx
      grind [Function.update_apply, Page.clearProperty_property]
    . intro p hp hpb
      simp [Function.update_apply, hpb]
    . simp
  apply h₂.insert
  . omega
  . simp only at hbound
    omega
  . exact hpre
  . intro x hx
    have := hpost' x hx
    simp only at this
    omega
  . intro x hx
    rw [hprop x hx]
    grind [Function.update_apply, Page.clearProperty_property]
  . intro p hp hpb
    by_cases hpk : p = b + k
    . subst hpk
      simp [hbk]
    . simp [hpk, hpb, hsame p hp hpb hpk]
  . exact hb
  . exact hb'

namespace Pmm

variable {s : Pmm} {blocks pre post : List (Nat × Nat)} {base b k n : Nat}

theorem initPages_eq (pages : Nat → Page) (p n : Nat)
    (h : ∀ q, p ≤ q → q < p + n → (pages q).reserved = true)
    : initPages pages p n
        =
      some fun q => if p ≤ q ∧ q < p + n then { ref := 0, flags := 0, property := 0 } else pages q := by
  induction n generalizing pages p with
  | zero =>
    simp only [initPages, Option.some.injEq]
    funext q
    rw [if_neg (by omega)]
  | succ n ih =>
    simp only [initPages, h p (by omega) (by omega), ↓reduceIte]
    rw [ih]
    . simp only [Option.some.injEq]
      funext q
      grind [Function.update_apply]
    . intro q hpq hq
      rw [Function.update_of_ne (by omega)]
      exact h q (by omega) (by omega)

theorem resetPages_eq (pages : Nat → Page) (p n : Nat)
    (h : ∀ q, p ≤ q → q < p + n → (pages q).reserved = false ∧ (pages q).isProperty = false)
    : resetPages pages p n
        =
      some fun q => if p ≤ q ∧ q < p + n then { pages q with ref := 0, flags := 0 } else pages q := by
  induction n generalizing pages p with
  | zero =>
    simp only [resetPages, Option.some.injEq]
    funext q
    rw [if_neg (by omega)]
  | succ n ih =>
    obtain ⟨hres, hprop⟩ := h p (by omega) (by omega)
    simp only [resetPages, hres, hprop, Bool.not_false, Bool.and_self, ↓reduceIte]
    rw [ih]
    . simp only [Option.some.injEq]
      funext q
      grind [Function.update_apply]
    . intro q hpq hq
      rw [Function.update_of_ne (by omega)]
      exact h q (by omega) (by omega)

/--
Whether `base` is put in front of a block that is already in the list: the case in which the
insertion loop stops with `break`.
-/
def BelowLast (s : Pmm) (base : Nat) : Prop :=
  match listPrev s.links .freeList with
  | .freeList => True
  | .pageLink last => base < last

instance (s : Pmm) (base : Nat) : Decidable (s.BelowLast base) := by
  unfold BelowLast
  split <;> infer_instance

/--
The insertion loop passes over an entry below `base` that is not the last one.
-/
theorem insertLoop_pass {links : Links Entry} {y z : Nat × Nat}
    (h : IsRing links .freeList (entries pre ++ entries (y :: z :: post))) (hy : y.1 < base)
    (fuel : Nat)
    : insertLoop base (fuel + 1) links ((entries pre).getLastD .freeList)
        =
      insertLoop base fuel links ((entries (pre ++ [y])).getLastD .freeList) := by
  have hnext : links.next (.pageLink y.1) = .pageLink z.1 := by
    simpa [entries] using h.next_mid
  rw [insertLoop, listNext, h.next_getLastD]
  simp [entries, listNext, hnext, show ¬base < y.1 by omega]

theorem insertLoop_eq_before {links : Links Entry} {mid post : List (Nat × Nat)} {x : Nat × Nat}
    (h : IsRing links .freeList (entries pre ++ entries (mid ++ x :: post)))
    (hmid : ∀ y ∈ mid, y.1 < base) (hx : base < x.1) (fuel : Nat) (hfuel : mid.length < fuel)
    : insertLoop base fuel links ((entries pre).getLastD .freeList)
        =
      some (listAddBefore links (.pageLink x.1) (.pageLink base)) := by
  induction mid generalizing pre fuel with
  | nil =>
    cases fuel with
    | zero => omega
    | succ fuel =>
      rw [insertLoop, listNext, h.next_getLastD]
      simp [entries, hx]
  | cons y mid ih =>
    cases fuel with
    | zero => omega
    | succ fuel =>
      obtain ⟨z, rest, hrest⟩ : ∃ z rest, mid ++ x :: post = z :: rest := by
        cases mid <;> simp
      have h' : IsRing links .freeList (entries (pre ++ [y]) ++ entries (mid ++ x :: post)) := by
        simpa [entries] using h
      rw [List.cons_append, hrest] at h
      rw [insertLoop_pass h (hmid y (by simp))]
      exact ih h' (fun z hz => hmid z (by simp [hz])) fuel (by simpa using hfuel)

/--
Insertion behind the last entry: the loop goes on after it has inserted `base`, meets `base` as the
new last entry and inserts it once more behind itself.
-/
theorem insertLoop_eq_behind {links : Links Entry} {mid : List (Nat × Nat)} {x : Nat × Nat}
    (h : IsRing links .freeList (entries pre ++ entries (mid ++ [x])))
    (hmid : ∀ y ∈ mid, y.1 < base) (hx : x.1 < base) (fuel : Nat) (hfuel : mid.length + 3 ≤ fuel)
    : ∃ links', insertLoop base fuel links ((entries pre).getLastD .freeList) = some links'
        ∧ links'.prev (.pageLink base) = .pageLink base
        ∧ links'.next (.pageLink base) = .freeList := by
  induction mid generalizing pre fuel with
  | nil =>
    match fuel, hfuel with
    | fuel + 3, _ =>
      have hnext : links.next (.pageLink x.1) = .freeList := by
        simpa [entries] using h.next_mid
      have hne : Entry.pageLink base ≠ .pageLink x.1 := by
        simp only [ne_eq, Entry.pageLink.injEq]
        omega
      rw [insertLoop, listNext, h.next_getLastD]
      simp only [List.nil_append, entries_cons, List.headD_cons, show ¬base < x.1 by omega,
        ↓reduceIte, listNext, hnext]
      rw [insertLoop]
      simp only [listNext, listAdd, listAddAfter, _listAdd, Links.insertBetween_next, hne.symm,
        ↓reduceIte, lt_self_iff_false, hnext]
      rw [insertLoop]
      simp [listNext, Links.insertBetween_next, Links.insertBetween_prev]
  | cons y mid ih =>
    cases fuel with
    | zero => omega
    | succ fuel =>
      obtain ⟨z, rest, hrest⟩ : ∃ z rest, mid ++ [x] = z :: rest := by
        cases mid <;> simp
      have h' : IsRing links .freeList (entries (pre ++ [y]) ++ entries (mid ++ [x])) := by
        simpa [entries] using h
      rw [List.cons_append, hrest] at h
      rw [insertLoop_pass h (hmid y (by simp))]
      exact ih h' (fun z hz => hmid z (by simp [hz])) fuel (by simpa using hfuel)

theorem exists_split (h : Sorted blocks)
    (hapart : ∀ x ∈ blocks, x.1 + x.2 ≤ base ∨ base + n ≤ x.1)
    : ∃ pre post, blocks = pre ++ post ∧ (∀ x ∈ pre, x.1 + x.2 ≤ base)
      ∧ (∀ x ∈ post, base + n ≤ x.1) := by
  induction blocks with
  | nil => exact ⟨[], [], by simp⟩
  | cons b bs ih =>
    obtain ⟨hb, hbs⟩ := List.pairwise_cons.mp h
    cases hapart b (by simp) with
    | inl hle =>
      obtain ⟨pre, post, hsplit, hpre, hpost⟩ := ih hbs (fun x hx => hapart x (by simp [hx]))
      refine ⟨b :: pre, post, by simp [hsplit], ?_, hpost⟩
      simpa [hle] using hpre
    | inr hle =>
      refine ⟨[], b :: bs, by simp, by simp, ?_⟩
      intro x hx
      cases List.mem_cons.mp hx with
      | inl heq => rw [heq]; exact hle
      | inr hx =>
        have := hb x hx
        omega

section Insert

variable (hring : IsRing s.links .freeList (entries pre ++ entries post))
  (hpre : ∀ x ∈ pre, x.1 < base) (hpost : ∀ x ∈ post, base < x.1)

include hring hpre hpost

theorem belowLast_iff : s.BelowLast base ↔ pre = [] ∨ post ≠ [] := by
  rw [BelowLast, listPrev, hring.prev_head, ← entries_append]
  rcases List.eq_nil_or_concat post with rfl | ⟨post', x, rfl⟩
  . rcases List.eq_nil_or_concat pre with rfl | ⟨pre', x, rfl⟩
    . simp [entries]
    . have := hpre x (by simp)
      simp only [entries, List.concat_eq_append, List.append_nil, List.map_append, List.map_cons,
        List.map_nil, List.getLastD_concat]
      simp
      omega
  . have := hpost x (by simp)
    simp [entries, this]

theorem insertFree_of_belowLast (n : Nat) (hlen : (pre ++ post).length ≤ s.npage)
    (hbelow : s.BelowLast base)
    : ∃ links, s.insertFree base = some { s with links }
        ∧ IsRing links .freeList (entries (pre ++ (base, n) :: post)) := by
  have hfresh : Entry.pageLink base ∉ Entry.freeList :: (entries pre ++ entries post) := by
    rw [← entries_append]
    apply notMem_entries
    intro x hx
    cases List.mem_append.mp hx with
    | inl hx => exact Nat.ne_of_lt (hpre x hx)
    | inr hx => exact Nat.ne_of_gt (hpost x hx)
  rw [entries_append, entries_cons]
  cases post with
  | nil =>
    have hpre : pre = [] := by simpa using (belowLast_iff hring hpre hpost).mp hbelow
    subst hpre
    refine ⟨listAdd s.links .freeList (.pageLink base), ?_, ?_⟩
    . rw [insertFree, (listEmpty_iff hring).mpr (by simp [entries]), if_pos rfl]
    . simpa [entries] using listAdd_isRing hring hfresh
  | cons x post =>
    have hloop := @insertLoop_eq_before [] _ _ _ _ _ (by simpa [entries] using hring) hpre
      (hpost x (by simp)) s.fuel (by simp [fuel] at hlen ⊢; omega)
    refine ⟨_, ?_, listAddBefore_isRing hring hfresh⟩
    have hne : listEmpty s.links .freeList = false := by
      rw [Bool.eq_false_iff]
      intro hempty
      simpa [entries] using (listEmpty_iff hring).mp hempty
    simp only [entries, List.map_nil, List.getLastD_nil] at hloop
    simp [insertFree, hne, hloop, entries]

/--
Behind the last entry the insertion leaves `base` as its own predecessor.
-/
theorem insertFree_of_not_belowLast (hlen : (pre ++ post).length ≤ s.npage)
    (hbelow : ¬s.BelowLast base)
    : ∃ links, s.insertFree base = some { s with links }
        ∧ links.prev (.pageLink base) = .pageLink base
        ∧ links.next (.pageLink base) = .freeList := by
  rw [belowLast_iff hring hpre hpost] at hbelow
  obtain ⟨hpre', hpost'⟩ := not_or.mp hbelow
  have hpost' : post = [] := by simpa using hpost'
  subst hpost'
  obtain ⟨mid, x, rfl⟩ := (List.eq_nil_or_concat pre).resolve_left hpre'
  have hne : listEmpty s.links .freeList = false := by
    rw [Bool.eq_false_iff]
    intro hempty
    simpa [entries] using (listEmpty_iff hring).mp hempty
  obtain ⟨links, hloop, hprev, hnext⟩ := @insertLoop_eq_behind [] base _ mid x
    (by simpa [entries] using hring) (fun y hy => hpre y (by simp [hy])) (hpre x (by simp)) s.fuel
    (by simp [fuel] at hlen ⊢; omega)
  simp only [entries, List.map_nil, List.getLastD_nil] at hloop
  exact ⟨links, by simp [insertFree, hne, hloop], hprev, hnext⟩

end Insert

section Merge

theorem mergePrev_npage : (s.mergePrev base).2.npage = s.npage := by
  unfold mergePrev
  split
  . rfl
  . dsimp
    split <;> rfl

theorem mergePrev_reserved (p : Nat)
    : ((s.mergePrev base).2.pages p).reserved = (s.pages p).reserved := by
  unfold mergePrev
  split
  . rfl
  . dsimp
    split
    . simp only [setPage_pages]
      grind [Page.clearProperty_reserved, Page.reserved_with_property]
    . rfl

theorem mergeNext_npage : (s.mergeNext base).npage = s.npage := by
  unfold mergeNext
  split
  . rfl
  . dsimp
    split <;> rfl

theorem mergeNext_reserved (p : Nat)
    : ((s.mergeNext base).pages p).reserved = (s.pages p).reserved := by
  unfold mergeNext
  split
  . rfl
  . dsimp
    split
    . simp only [setPage_pages]
      grind [Page.clearProperty_reserved, Page.reserved_with_property]
    . rfl

/--
`mergePrev` and `mergeNext` write the same descriptors: the first of two adjoining blocks grows by
the second one, which loses its mark.
-/
theorem mergeBlocks (h : s.Represents (pre ++ (b, k) :: (b + k, n) :: post))
    : Blocks s.npage
        ((s.setPage b { s.pages b with property := ((s.pages b).property + n) % 2 ^ 32 }).setPage
          (b + k) (s.pages (b + k)).clearProperty).pages
        (pre ++ (b, k + n) :: post) := by
  have hk := h.marked.pos (b, k) (by simp)
  have hbk := h.marked.property (b, k) (by simp)
  have hlt := s.npage_lt
  have hbound := h.marked.bound (b + k, n) (by simp)
  simp only at hk hbk hbound
  obtain ⟨-, hpre, -⟩ := sorted_append_cons_iff.mp h.marked.sorted
  have hsplit : pre ++ (b, k) :: (b + k, n) :: post = (pre ++ [(b, k)]) ++ (b + k, n) :: post := by
    simp
  have hne : ∀ x ∈ pre ++ post, x.1 ≠ b ∧ x.1 ≠ b + k := by
    intro x hx
    have h₁ := h.marked.fst_ne (x := x) (by grind)
    have h₂ := (hsplit ▸ h.marked).fst_ne (x := x) (by grind)
    have h₃ := (hsplit ▸ h.marked).pos (b + k, n) (by simp)
    simp only at h₃
    omega
  apply h.marked.merge
  . intro x hx
    obtain ⟨h₁, h₂⟩ := hne x hx
    simp [setPage_pages, h₁, h₂]
  . intro p hp hpb hpk
    simp [setPage_pages, hpb, hpk]
  . simp only [setPage_pages, show b ≠ b + k by omega, ↓reduceIte, hbk]
    exact Nat.mod_eq_of_lt (by omega)
  . simp only [setPage_pages, show b ≠ b + k by omega, ↓reduceIte, Page.isProperty_with_property]
    rw [h.marked.isProperty_iff b (by omega)]
    exact ⟨k, by simp⟩
  . simp [setPage_pages]

/--
`mergePrev` keeps the set of free pages; the block it returns is the one `base` is now part of, with a gap
in front of it if there are only gaps before it.
-/
theorem mergePrev_spec (h : s.Represents (pre ++ (base, k) :: post))
    : ∃ pre' b' k', (s.mergePrev base).1 = b'
        ∧ (s.mergePrev base).2.Represents (pre' ++ (b', k') :: post)
        ∧ (∀ p, Covers (pre' ++ (b', k') :: post) p ↔ Covers (pre ++ (base, k) :: post) p)
        ∧ (Coalesced pre → Coalesced (pre' ++ [(b', k')])) := by
  have hring := h.ring_split
  rw [entries_cons] at hring
  unfold mergePrev
  rw [listPrev, hring.prev_mid]
  rcases List.eq_nil_or_concat pre with rfl | ⟨pre', ⟨p, m⟩, rfl⟩
  . exact ⟨[], base, k, by simpa [entries, Coalesced] using h⟩
  . have hlast : (entries (pre'.concat (p, m))).getLastD .freeList = .pageLink p := by
      simp [entries]
    have hpm := h.marked.property (p, m) (by simp)
    have hbk := h.marked.property (base, k) (by simp)
    simp only at hpm hbk
    simp only [hlast, hpm, hbk]
    by_cases hadj : p + m = base
    . subst hadj
      simp only [↓reduceIte]
      refine ⟨pre', p, m + k, rfl, ⟨?_, ?_, ?_⟩, ?_, ?_⟩
      . have := listDel_isRing hring
        simpa [entries] using this
      . have := @mergeBlocks s pre' post p m k
          (by simpa using h)
        have hm := h.marked.pos (p, m) (by simp)
        simp only at hm
        simpa [hpm, setPage_pages, show m ≠ 0 by omega] using this
      . have := h.nrFree
        simp only [List.concat_eq_append, List.map_append, List.map_cons, List.map_nil,
          List.sum_append, List.sum_cons, List.sum_nil] at this
        simp only [setPage_nrFree, this, List.map_append, List.map_cons, List.sum_append,
          List.sum_cons]
        omega
      . intro q
        simp only [List.concat_eq_append, covers_append, covers_cons, covers_nil]
        grind
      . intro hgaps
        rw [List.concat_eq_append, coalesced_append_cons_iff] at hgaps
        rw [coalesced_append_cons_iff]
        exact ⟨hgaps.1, hgaps.2.1, by simp⟩
    . simp only [hadj, ↓reduceIte]
      refine ⟨_, base, k, rfl, h, fun _ => Iff.rfl, ?_⟩
      intro hgaps
      refine coalesced_append_cons_iff.mpr ⟨by simpa using hgaps, ?_, by simp⟩
      -- only the last block in front could end at `base`
      intro x hx
      have hle := (sorted_append_cons_iff.mp h.marked.sorted).2.1
      have hm := h.marked.pos (p, m) (by simp)
      have hlast := hle (p, m) (by simp)
      simp only at hm hlast
      rw [List.concat_eq_append, coalesced_append_cons_iff] at hgaps
      rw [List.concat_eq_append] at hx
      rcases List.mem_append.mp hx with hx | hx
      . have := hgaps.2.1 x hx
        simp only at this ⊢
        omega
      . obtain rfl := List.mem_singleton.mp hx
        simp only
        omega

theorem mergeNext_spec (h : s.Represents (pre ++ (base, k) :: post))
    : ∃ blocks', (s.mergeNext base).Represents blocks'
        ∧ (∀ p, Covers blocks' p ↔ Covers (pre ++ (base, k) :: post) p)
        ∧ (Coalesced (pre ++ [(base, k)]) → Coalesced post → Coalesced blocks') := by
  have hring := h.ring_split
  rw [entries_cons] at hring
  unfold mergeNext
  rw [listNext, hring.next_mid]
  cases post with
  | nil => exact ⟨_, by simpa [entries] using h, fun _ => Iff.rfl, fun hgaps _ => hgaps⟩
  | cons x post =>
    obtain ⟨p, m⟩ := x
    have hbk := h.marked.property (base, k) (by simp)
    have hpm := h.marked.property (p, m) (by simp)
    simp only at hpm hbk
    simp only [entries_cons, List.headD_cons, hbk, hpm]
    by_cases hadj : base + k = p
    . subst hadj
      simp only [↓reduceIte]
      have hk := h.marked.pos (base, k) (by simp)
      simp only at hk
      refine ⟨pre ++ (base, k + m) :: post, ⟨?_, ?_, ?_⟩, ?_, ?_⟩
      . have hring' : IsRing s.links .freeList
            ((entries (pre ++ [(base, k)])) ++ .pageLink (base + k) :: entries post) := by
          simpa [entries] using hring
        simpa [entries] using listDel_isRing hring'
      . have := mergeBlocks h
        simpa [hbk, setPage_pages, show k ≠ 0 by omega] using this
      . have := h.nrFree
        simp only [List.map_append, List.map_cons, List.sum_append, List.sum_cons] at this
        simp only [setPage_nrFree, this, List.map_append, List.map_cons, List.sum_append,
          List.sum_cons]
        omega
      . intro q
        simp only [covers_append, covers_cons]
        grind
      . intro hpre hpost
        obtain ⟨hgaps, hbefore, -⟩ := coalesced_append_cons_iff.mp hpre
        obtain ⟨hbehind, hpost⟩ := List.pairwise_cons.mp hpost
        rw [List.append_nil] at hgaps
        refine coalesced_append_cons_iff.mpr ⟨?_, hbefore, ?_⟩
        . refine List.pairwise_append.mpr ⟨hgaps, hpost, ?_⟩
          intro x hx y hy
          have := hbefore x hx
          have := hbehind y hy
          simp only at *
          omega
        . intro y hy
          have := hbehind y hy
          simp only at *
          omega
    . simp only [hadj, ↓reduceIte]
      refine ⟨_, h, fun _ => Iff.rfl, ?_⟩
      intro hpre hpost
      obtain ⟨hgaps, hbefore, -⟩ := coalesced_append_cons_iff.mp hpre
      obtain ⟨-, -, hbehind⟩ := sorted_append_cons_iff.mp h.marked.sorted
      have hm := h.marked.pos (p, m) (by simp)
      have hnext := hbehind (p, m) (by simp)
      have hrest := (List.pairwise_cons.mp hpost).1
      rw [List.append_nil] at hgaps
      simp only at hm hnext hrest
      have hfar : ∀ y ∈ (p, m) :: post, base + k < y.1 := by
        intro y hy
        rcases List.mem_cons.mp hy with rfl | hy
        . simp only
          omega
        . have := hrest y hy
          omega
      refine coalesced_append_cons_iff.mpr ⟨?_, hbefore, hfar⟩
      refine List.pairwise_append.mpr ⟨hgaps, hpost, ?_⟩
      intro x hx y hy
      have := hbefore x hx
      have := hfar y hy
      simp only at *
      omega

end Merge

/--
The descriptors of `[base, base + n)` are as `default_init_memmap` and `default_free_pages` leave
them before they insert the block; `s` is the state before, `s'` the state after these writes.
-/
structure Marks (s s' : Pmm) (base n : Nat) : Prop where
  npage : s'.npage = s.npage
  links : s'.links = s.links
  nrFree : s'.nrFree = (s.nrFree + n) % 2 ^ 32
  outside : ∀ p, ¬(base ≤ p ∧ p < base + n) → s'.pages p = s.pages p
  property : (s'.pages base).property = n % 2 ^ 32
  isProperty : ∀ p, base ≤ p → p < base + n → ((s'.pages p).isProperty = true ↔ p = base)
  reserved : ∀ p, base ≤ p → p < base + n → (s'.pages p).reserved = false

theorem Marks.of_markFree {pages : Nat → Page} (hn : 0 < n)
    (houtside : ∀ p, ¬(base ≤ p ∧ p < base + n) → pages p = s.pages p)
    (hclear : ∀ p, base ≤ p → p < base + n →
      (pages p).reserved = false ∧ (pages p).isProperty = false)
    : Marks s ({ s with pages }.markFree base n) base n := by
  refine ⟨rfl, rfl, rfl, ?_, ?_, ?_, ?_⟩
  . intro p hp
    simp only [markFree, setPage_pages, show p ≠ base by omega, ↓reduceIte]
    exact houtside p hp
  . simp [markFree, setPage_pages]
  . intro p hle hlt
    by_cases hpb : p = base
    . simp [markFree, setPage_pages, hpb]
    . simp [markFree, setPage_pages, hpb, hclear p hle hlt]
  . intro p hle hlt
    by_cases hpb : p = base
    . simp [markFree, setPage_pages, hpb, hclear base (by omega) (by omega)]
    . simp [markFree, setPage_pages, hpb, hclear p hle hlt]

theorem defaultInitMemmap_eq (hn : 0 < n)
    (hres : ∀ p, base ≤ p → p < base + n → (s.pages p).reserved = true)
    : ∃ s', Marks s s' base n ∧ s.defaultInitMemmap base n = s'.insertFree base := by
  unfold defaultInitMemmap
  rw [if_pos hn, initPages_eq _ _ _ hres]
  refine ⟨_, Marks.of_markFree hn ?_ ?_, rfl⟩
  . intro p hp
    simp [hp]
  . intro p hle hlt
    simp [hle, hlt]

theorem defaultFreePages_eq (hn : 0 < n)
    (hclear : ∀ p, base ≤ p → p < base + n →
      (s.pages p).reserved = false ∧ (s.pages p).isProperty = false)
    : ∃ s', Marks s s' base n
        ∧ s.defaultFreePages base n
            =
          (s'.insertFree base).map fun t => (t.mergePrev base).2.mergeNext (t.mergePrev base).1 := by
  unfold defaultFreePages
  rw [if_pos hn, resetPages_eq _ _ _ hclear]
  let pages := fun q =>
    if base ≤ q ∧ q < base + n then { s.pages q with ref := 0, flags := 0 } else s.pages q
  refine ⟨{ s with pages }.markFree base n, Marks.of_markFree hn ?_ ?_, ?_⟩
  . intro p hp
    simp [pages, hp]
  . intro p hle hlt
    simp [pages, hle, hlt]
  . rw [Option.map_eq_bind]
    rfl

section Marked

variable {s' : Pmm} (h : s.Represents blocks) (hm : Marks s s' base n) (hn : 0 < n)
  (hle : base + n ≤ s.npage) (hapart : ∀ x ∈ blocks, x.1 + x.2 ≤ base ∨ base + n ≤ x.1)
  (hclear : ∀ p, base ≤ p → p < base + n → (s.pages p).isProperty = false)

include h hm hn hle hapart hclear

theorem Marks.blocks_insert (hsplit : blocks = pre ++ post) (hpre : ∀ x ∈ pre, x.1 + x.2 ≤ base)
    (hpost : ∀ x ∈ post, base + n ≤ x.1)
    : Blocks s'.npage s'.pages (pre ++ (base, n) :: post) := by
  subst hsplit
  rw [hm.npage]
  have hlt := s.npage_lt
  apply h.marked.insert hn hle hpre hpost
  . intro x hx
    have := h.marked.pos x hx
    have := hapart x hx
    rw [hm.outside _ (by omega)]
  . intro p hp hpb
    by_cases hin : base ≤ p ∧ p < base + n
    . rw [hclear p hin.1 hin.2]
      have := hm.isProperty p hin.1 hin.2
      simpa [hpb] using this
    . rw [hm.outside p hin]
  . rw [hm.property]
    exact Nat.mod_eq_of_lt (by omega)
  . rw [hm.isProperty base (by omega) (by omega)]

/--
Insertion in front of a block of the list, or into the empty list, adds the block to the list.
-/
theorem Marks.insertFree_represents (hbelow : s.BelowLast base)
    : ∃ t pre post, s'.insertFree base = some t ∧ t.npage = s.npage ∧ t.pages = s'.pages
        ∧ t.Represents (pre ++ (base, n) :: post) ∧ blocks = pre ++ post := by
  obtain ⟨pre, post, hsplit, hpre, hpost⟩ := exists_split h.marked.sorted hapart
  have hblocks := hm.blocks_insert h hn hle hapart hclear hsplit hpre hpost
  subst hsplit
  have hring := h.ring_split
  rw [← hm.links] at hring
  have hpre' : ∀ x ∈ pre, x.1 < base := by
    intro x hx
    have := hpre x hx
    have := h.marked.pos x (by simp [hx])
    omega
  have hpost' : ∀ x ∈ post, base < x.1 := by
    intro x hx
    have := hpost x hx
    omega
  have hlen : (pre ++ post).length ≤ s'.npage := by
    rw [hm.npage]
    exact h.marked.length_le
  have hbelow' : s'.BelowLast base := by
    unfold BelowLast at hbelow ⊢
    rwa [hm.links]
  obtain ⟨links, heq, hring'⟩ := insertFree_of_belowLast hring hpre' hpost' n hlen hbelow'
  refine ⟨_, pre, post, heq, hm.npage, rfl, ⟨hring', hblocks, ?_⟩, rfl⟩
  have hsum := hblocks.sum_le
  have hlt := s'.npage_lt
  simp only [List.map_append, List.map_cons, List.sum_append, List.sum_cons] at hsum
  rw [hm.nrFree, h.nrFree]
  simp only [List.map_append, List.map_cons, List.sum_append, List.sum_cons]
  rw [Nat.mod_eq_of_lt (by omega)]
  omega

omit hle hclear hn in
/--
Insertion behind the last block leaves the new block as its own predecessor.
-/
theorem Marks.insertFree_broken (hn : 0 < n) (hbelow : ¬s.BelowLast base)
    : ∃ links, s'.insertFree base = some { s' with links }
        ∧ links.prev (.pageLink base) = .pageLink base
        ∧ links.next (.pageLink base) = .freeList := by
  obtain ⟨pre, post, hsplit, hpre, hpost⟩ := exists_split h.marked.sorted hapart
  subst hsplit
  have hring := h.ring_split
  rw [← hm.links] at hring
  apply insertFree_of_not_belowLast hring
  . intro x hx
    have := hpre x hx
    have := h.marked.pos x (by simp [hx])
    omega
  . intro x hx
    have := hpost x hx
    omega
  . rw [hm.npage]
    exact h.marked.length_le
  . unfold BelowLast at hbelow ⊢
    rwa [hm.links]

end Marked

/--
`default_free_pages` of a block that goes in front of the last one: its pages join the free ones, and blocks
without neighbours stay so.
-/
theorem defaultFreePages_spec (h : s.Represents blocks) (hn : 0 < n) (hle : base + n ≤ s.npage)
    (hclear : ∀ p, base ≤ p → p < base + n →
      (s.pages p).reserved = false ∧ (s.pages p).isProperty = false)
    (hapart : ∀ x ∈ blocks, x.1 + x.2 ≤ base ∨ base + n ≤ x.1) (hbelow : s.BelowLast base)
    : ∃ s' t blocks', Marks s s' base n ∧ s.defaultFreePages base n = some t ∧ t.Represents blocks'
        ∧ (∀ p, Covers blocks' p ↔ (base ≤ p ∧ p < base + n) ∨ Covers blocks p)
        ∧ (Coalesced blocks → Coalesced blocks') ∧ t.npage = s.npage
        ∧ ∀ p, (t.pages p).reserved = (s'.pages p).reserved := by
  obtain ⟨s', hmarks, heq⟩ := defaultFreePages_eq hn hclear
  obtain ⟨t, pre, post, hins, hnpage, hpages, hrep, rfl⟩ := hmarks.insertFree_represents h hn hle hapart
    (fun p hp hlt => (hclear p hp hlt).2) hbelow
  obtain ⟨pre', b', k', hb', hrep', hcov', hgaps'⟩ := mergePrev_spec hrep
  obtain ⟨blocks', hrep'', hcov'', hgaps''⟩ := mergeNext_spec hrep'
  refine ⟨s', _, blocks', hmarks, by rw [heq, hins, Option.map_some], ?_, ?_, ?_, ?_, ?_⟩
  . rw [hb']
    exact hrep''
  . intro p
    rw [hcov'', hcov']
    simp only [covers_append, covers_cons]
    grind
  . intro hgaps
    obtain ⟨hpre, hpost, -⟩ := List.pairwise_append.mp hgaps
    exact hgaps'' (hgaps' hpre) hpost
  . rw [mergeNext_npage, mergePrev_npage, hnpage]
  . intro p
    rw [mergeNext_reserved, mergePrev_reserved, hpages]

/--
A page with `PG_property` that is its own predecessor in front of the list head.
-/
theorem not_represents_of_broken (hlt : base < s.npage) (hprop : (s.pages base).isProperty = true)
    (hprev : s.links.prev (.pageLink base) = .pageLink base)
    (hnext : s.links.next (.pageLink base) = .freeList)
    : ¬s.Represents blocks := by
  intro hrep
  obtain ⟨m, hm⟩ := (hrep.marked.isProperty_iff base hlt).mp hprop
  have hmem : Entry.pageLink base ∈ entries blocks := List.mem_map.mpr ⟨(base, m), hm, rfl⟩
  have := (hrep.ring.next_prev_eq (List.mem_cons_of_mem _ hmem)).1
  rw [hprev, hnext] at this
  cases this

/--
`default_free_pages` of a block that goes behind the last one.
-/
theorem defaultFreePages_broken (h : s.Represents blocks) (hn : 0 < n) (hle : base + n ≤ s.npage)
    (hclear : ∀ p, base ≤ p → p < base + n →
      (s.pages p).reserved = false ∧ (s.pages p).isProperty = false)
    (hapart : ∀ x ∈ blocks, x.1 + x.2 ≤ base ∨ base + n ≤ x.1) (hbelow : ¬s.BelowLast base)
    : ∃ t, s.defaultFreePages base n = some t ∧ ∀ blocks', ¬t.Represents blocks' := by
  obtain ⟨s', hmarks, heq⟩ := defaultFreePages_eq hn hclear
  obtain ⟨links, hins, hprev, hnext⟩ := hmarks.insertFree_broken h hapart hn hbelow
  have hlt := s.npage_lt
  have hsize : (s'.pages base).property = n := by
    rw [hmarks.property]
    exact Nat.mod_eq_of_lt (by omega)
  -- `base` is its own predecessor, so neither merge finds a neighbour
  have hmergePrev : ({ s' with links } : Pmm).mergePrev base = (base, { s' with links }) := by
    simp [mergePrev, listPrev, hprev, hsize, show n ≠ 0 by omega]
  have hmergeNext : ({ s' with links } : Pmm).mergeNext base = { s' with links } := by
    simp [mergeNext, listNext, hnext]
  refine ⟨{ s' with links }, by rw [heq, hins, Option.map_some, hmergePrev, hmergeNext], ?_⟩
  intro blocks'
  have hmark := hmarks.isProperty base (by omega) (by omega)
  apply not_represents_of_broken _ (by simpa using hmark) hprev hnext
  rw [show ({ s' with links } : Pmm).npage = s.npage from hmarks.npage]
  omega

end Pmm
end Ucore

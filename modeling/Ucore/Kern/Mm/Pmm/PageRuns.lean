import Mathlib
import Ucore.Kern.Mm.Pmm.Lemmas
import Ucore.Lib.Run

/-!
This module contains runs of the mapping functions of kern/mm/pmm.c: the reference count of a mapped
frame is the number of entries that map it.
-/

namespace Ucore

inductive PagingOp (ι : Type) where
  | pgdirAllocPage (i : ι) (la : Nat) (perm : BitVec 10)
  | pageInsert (i : ι) (page la : Nat) (perm : BitVec 10)
  | pageRemove (i : ι) (la : Nat)
  | unmapRange (i : ι) (start stop : Nat)
  | copyRange (dst src : ι) (start stop : Nat)

namespace PagingOp

/--
The entries that an operation is about.
-/
def Names {ι : Type} : PagingOp ι → ι → PteKey → Prop
  | pgdirAllocPage i la _, j, k => j = i ∧ k = pteKey la
  | pageInsert i _ la _, j, k => j = i ∧ k = pteKey la
  | pageRemove i la, j, k => j = i ∧ k = pteKey la
  | unmapRange i start stop, j, k => j = i ∧ ∃ la, start ≤ la ∧ la < stop ∧ k = pteKey la
  | copyRange dst _ start stop, j, k => j = dst ∧ ∃ la, start ≤ la ∧ la < stop ∧ k = pteKey la

end PagingOp

namespace Paging

variable {ι : Type} [DecidableEq ι] [Fintype ι] {pmm : PmmManager} {s t u : Paging ι} {i : ι}
  {la page f : Nat} {pte old : Pte} {perm : BitVec 10} {names : ι → PteKey → Prop}

/--
How many valid leaf entries of all page tables map the frame.
-/
def count (s : Paging ι) (f : Nat) : Nat := (Finset.univ.filter fun x => (s.entries x).Maps f).card

structure Consistent (s : Paging ι) : Prop where
  mapped : ∀ f, 0 < s.count f → s.ref f = s.count f
  free : ∀ f ∈ s.free, s.ref f = 0 ∧ s.count f = 0

/--
One step on the named entries: a frame is given back exactly when its last entry goes.
-/
structure GoesTo (names : ι → PteKey → Prop) (s t : Paging ι) : Prop where
  consistent : Consistent t
  given : ∀ f, (f ∉ s.free ∧ f ∈ t.free) ↔ (s.count f = 1 ∧ t.count f = 0)
  drop : ∀ f, s.count f ≤ t.count f + 1
  others : ∀ i k, ¬names i k → t.entries (i, k) = s.entries (i, k)

omit [DecidableEq ι] in
theorem count_congr (h : t.entries = s.entries) (f : Nat) : t.count f = s.count f := by
  rw [count, count, h]

theorem count_update {x : ι × PteKey} (h : t.entries = Function.update s.entries x pte) (f : Nat)
    : t.count f + (if (s.entries x).Maps f then 1 else 0) =
        s.count f + (if pte.Maps f then 1 else 0) := by
  rw [count, count, h]
  exact card_filter_update s.entries x pte fun pte => pte.Maps f

omit [DecidableEq ι] in
theorem Consistent.not_free (h : Consistent s) (hf : 0 < s.count f) : f ∉ s.free := by
  intro hmem
  have := (h.free f hmem).2
  omega

omit [DecidableEq ι] in
theorem Extends.consistent (hext : Extends s t) (h : Consistent s) : Consistent t := by
  have hcount := count_congr hext.entries
  constructor
  . intro f hf
    rw [hcount] at hf ⊢
    rw [hext.ref f (.inl (h.not_free hf)), h.mapped f hf]
  . intro f hf
    rw [hcount, hext.ref f (.inr hf)]
    exact h.free f (hext.free hf)

omit [DecidableEq ι] in
theorem Extends.goesTo (hext : Extends s t) (h : Consistent s) : GoesTo names s t := by
  have hcount := count_congr hext.entries
  refine ⟨hext.consistent h, ?_, ?_, fun _ _ _ => by rw [hext.entries]⟩
  . intro f
    constructor
    . rintro ⟨hnot, hmem⟩
      exact absurd (hext.free hmem) hnot
    . rintro ⟨hone, hzero⟩
      rw [hcount] at hzero
      omega
  . intro f
    rw [hcount]
    omega

omit [DecidableEq ι] in
theorem Extends.goesTo_trans (hext : Extends s t) (h : Consistent s) (hgoes : GoesTo names t u)
    : GoesTo names s u := by
  have hcount := count_congr hext.entries
  refine ⟨hgoes.consistent, ?_, ?_, ?_⟩
  . intro f
    rw [← hcount f, ← hgoes.given f]
    constructor
    . rintro ⟨hnot, hmem⟩
      exact ⟨fun hf => hnot (hext.free hf), hmem⟩
    . rintro hgiven
      have hone := (hgoes.given f).mp hgiven
      refine ⟨h.not_free ?_, hgiven.2⟩
      rw [← hcount f]
      omega
  . intro f
    rw [← hcount]
    exact hgoes.drop f
  . intro i k hnot
    rw [hgoes.others i k hnot, hext.entries]

omit [DecidableEq ι] in
theorem GoesTo.mono {names' : ι → PteKey → Prop} (h : GoesTo names s t)
    (himp : ∀ i k, names i k → names' i k)
    : GoesTo names' s t :=
  ⟨h.consistent, h.given, h.drop, fun i k hnot => h.others i k fun hn => hnot (himp i k hn)⟩

/--
One entry is replaced: the reference counts follow the entries, and the frame behind the old entry is
free if that was the last one.
-/
theorem Consistent.replace {x : ι × PteKey} (h : Consistent s)
    (hentries : t.entries = Function.update s.entries x pte)
    (hnew : ∀ f, pte.Maps f → f ∉ s.free ∧ s.ref f = s.count f)
    (href : ∀ f, t.ref f = s.ref f + (if pte.Maps f then 1 else 0) -
      (if (s.entries x).Maps f then 1 else 0))
    (hfree : ∀ f, f ∈ t.free ↔ f ∈ s.free ∨ ((s.entries x).Maps f ∧ ¬pte.Maps f ∧ s.count f = 1))
    : GoesTo (fun j k => (j, k) = x) s t := by
  have hcount := count_update hentries
  -- the old entry counts, and the reference count of both frames is right
  have hold : ∀ f, (s.entries x).Maps f → 0 < s.count f := by
    intro f hmaps
    apply Finset.card_pos.mpr
    exact ⟨x, Finset.mem_filter.mpr ⟨Finset.mem_univ x, hmaps⟩⟩
  have hright : ∀ f, 0 < s.count f ∨ pte.Maps f → s.ref f = s.count f := by
    rintro f (hf | hf)
    . exact h.mapped f hf
    . exact (hnew f hf).2
  refine ⟨⟨?_, ?_⟩, ?_, ?_, ?_⟩
  . intro f hf
    have hc := hcount f
    rw [href]
    by_cases hmaps : pte.Maps f
    . have hr := hright f (.inr hmaps)
      rw [if_pos hmaps] at hc ⊢
      split_ifs at hc ⊢ <;> omega
    . rw [if_neg hmaps] at hc ⊢
      have hr := hright f (.inl (by omega))
      split_ifs at hc ⊢ <;> omega
  . intro f hf
    have hc := hcount f
    have ho := hold f
    rw [href]
    rcases (hfree f).mp hf with hf | ⟨hmaps, hnot, hone⟩
    . have hzero := h.free f hf
      have hnm : ¬pte.Maps f := fun hmaps => (hnew f hmaps).1 hf
      have hom : ¬(s.entries x).Maps f := fun hmaps => by
        have := ho hmaps
        omega
      rw [if_neg hnm, if_neg hom] at hc ⊢
      omega
    . have hr := hright f (.inl (ho hmaps))
      rw [if_neg hnot, if_pos hmaps] at hc ⊢
      omega
  . intro f
    have hc := hcount f
    have ho := hold f
    rw [hfree]
    constructor
    . rintro ⟨hout, hin⟩
      obtain ⟨hmaps, hnot, hone⟩ := hin.resolve_left hout
      rw [if_neg hnot, if_pos hmaps] at hc
      omega
    . rintro ⟨hone, hzero⟩
      refine ⟨h.not_free (by omega), .inr ⟨?_, ?_, hone⟩⟩
      . by_contra hmaps
        rw [if_neg hmaps] at hc
        omega
      . intro hmaps
        rw [if_pos hmaps] at hc
        split at hc <;> omega
  . intro f
    have hc := hcount f
    split_ifs at hc <;> omega
  . intro j k hne
    rw [hentries, Function.update_of_ne hne]

theorem pageRemovePte_goesTo (h : Consistent s) (hget : s.getPte i la = some pte)
    : GoesTo (fun j k => j = i ∧ k = pteKey la) s (s.pageRemovePte i la pte) := by
  by_cases hvalid : pte.valid = true
  . obtain ⟨hentries, href, hfree⟩ := pageRemovePte_valid hget hvalid
    have hold : s.entries (i, pteKey la) = pte := entries_of_getPte hget
    have hmaps : ∀ f, pte.Maps f ↔ pte.ppn = f := fun f => by simp only [Pte.Maps, hvalid, true_and]
    have hpos : 0 < s.count pte.ppn := by
      apply Finset.card_pos.mpr
      refine ⟨(i, pteKey la), Finset.mem_filter.mpr ⟨Finset.mem_univ _, ?_⟩⟩
      rw [hold, hmaps]
    have hrefp := h.mapped _ hpos
    apply (h.replace hentries ?_ ?_ ?_).mono
    . intro j k heq
      exact Prod.mk.inj heq
    . exact fun f hmaps => absurd hmaps Pte.not_maps_zero
    . intro f
      rw [href, hold, if_neg Pte.not_maps_zero, Function.update_apply]
      by_cases heq : f = pte.ppn
      . rw [if_pos heq, if_pos ((hmaps f).mpr heq.symm), heq]
        omega
      . rw [if_neg heq, if_neg fun hm => heq ((hmaps f).mp hm).symm]
        omega
    . intro f
      rw [hfree, hold, hmaps]
      split
      next hone =>
        rw [Finset.mem_insert]
        constructor
        . rintro (heq | hmem)
          . subst heq
            exact .inr ⟨rfl, Pte.not_maps_zero, by omega⟩
          . exact .inl hmem
        . rintro (hmem | ⟨heq, -⟩)
          . exact .inr hmem
          . exact .inl heq.symm
      next hone =>
        constructor
        . exact .inl
        . rintro (hmem | ⟨heq, -, hcount⟩)
          . exact hmem
          . subst heq
            omega
  . rw [pageRemovePte, if_neg hvalid]
    exact (Extends.refl s).goesTo h

/--
The entry of `page_insert` behind `get_pte`.
-/
def insertEntry (s : Paging ι) (i : ι) (page la : Nat) (pte : Pte) (perm : BitVec 10) : Paging ι :=
  let s := s.pageRefInc page
  let s :=
    if pte.valid then
      if pte.ppn = page then s.pageRefDec page else s.pageRemovePte i la pte
    else
      s
  s.setPte i la (Pte.pteCreate page (Pte.pteV ||| perm))

theorem insertEntry_goesTo (h : Consistent s) (hget : s.getPte i la = some old) (hpage : page ∉ s.free)
    (href : s.ref page = s.count page)
    : GoesTo (fun j k => j = i ∧ k = pteKey la) s (s.insertEntry i page la old perm) := by
  have hold : s.entries (i, pteKey la) = old := entries_of_getPte hget
  have hmono : ∀ j k, (j, k) = (i, pteKey la) → j = i ∧ k = pteKey la := fun j k heq => Prod.mk.inj heq
  have hnew : ∀ f, (Pte.pteCreate page (Pte.pteV ||| perm)).Maps f → f ∉ s.free ∧ s.ref f = s.count f := by
    intro f hmaps
    rw [Pte.maps_pteCreate] at hmaps
    exact hmaps ▸ ⟨hpage, href⟩
  rw [insertEntry]
  by_cases hvalid : old.valid = true
  . have hmaps : ∀ f, old.Maps f ↔ old.ppn = f := fun f => by simp only [Pte.Maps, hvalid, true_and]
    rw [if_pos hvalid]
    by_cases hsame : old.ppn = page
    . -- the page is mapped there already
      rw [if_pos hsame]
      have hentries := @entries_setPte _ _ ((s.pageRefInc page).pageRefDec page) i la
        (Pte.pteCreate page (Pte.pteV ||| perm)) _ hget
      apply (h.replace hentries hnew ?_ ?_).mono hmono
      . intro f
        rw [hold]
        simp only [Pte.maps_pteCreate, hmaps, hsame]
        by_cases hf : page = f
        . subst hf
          simp [setPte, setPgdir, pageRefDec, pageRefInc, setPageRef]
        . simp [setPte, setPgdir, pageRefDec, pageRefInc, setPageRef, hf]
      . intro f
        rw [hold]
        simp only [Pte.maps_pteCreate, hmaps, hsame]
        constructor
        . exact .inl
        . rintro (hmem | ⟨heq, hne, -⟩)
          . exact hmem
          . exact absurd heq hne
    . -- another page goes
      rw [if_neg hsame]
      have hget' : (s.pageRefInc page).getPte i la = some old := hget
      obtain ⟨hentries, href', hfree'⟩ := pageRemovePte_valid hget' hvalid
      have hset := @entries_setPte _ _ _ i la (Pte.pteCreate page (Pte.pteV ||| perm)) _
        (pageRemovePte_getPte hget' hvalid)
      rw [hentries, Function.update_idem] at hset
      have hrefold : (s.pageRefInc page).ref old.ppn = s.ref old.ppn := by
        simp [pageRefInc, setPageRef, hsame]
      have hpos : 0 < s.count old.ppn := by
        apply Finset.card_pos.mpr
        refine ⟨(i, pteKey la), Finset.mem_filter.mpr ⟨Finset.mem_univ _, ?_⟩⟩
        rw [hold, hmaps]
      have hrefcount := h.mapped _ hpos
      apply (h.replace hset hnew ?_ ?_).mono hmono
      . intro f
        rw [hold]
        simp only [Pte.maps_pteCreate, hmaps, setPte, setPgdir, href', hrefold]
        by_cases hf : old.ppn = f
        . subst hf
          simp [Ne.symm hsame]
        . rw [Function.update_of_ne (Ne.symm hf), if_neg hf]
          by_cases hp : page = f
          . subst hp
            simp [pageRefInc, setPageRef]
          . simp [pageRefInc, setPageRef, hp, Ne.symm hp]
      . intro f
        rw [hold]
        simp only [Pte.maps_pteCreate, hmaps, setPte, setPgdir, hfree', hrefold]
        split
        next hone =>
          rw [Finset.mem_insert]
          constructor
          . rintro (heq | hmem)
            . subst heq
              exact .inr ⟨rfl, Ne.symm hsame, by omega⟩
            . exact .inl hmem
          . rintro (hmem | ⟨heq, -⟩)
            . exact .inr hmem
            . exact .inl heq.symm
        next hone =>
          constructor
          . exact .inl
          . rintro (hmem | ⟨heq, -, hcount⟩)
            . exact hmem
            . subst heq
              omega
  . have hmaps : ∀ f, ¬old.Maps f := fun f hm => hvalid hm.1
    rw [if_neg hvalid]
    have hentries := @entries_setPte _ _ (s.pageRefInc page) i la
      (Pte.pteCreate page (Pte.pteV ||| perm)) _ hget
    apply (h.replace hentries hnew ?_ ?_).mono hmono
    . intro f
      rw [hold, if_neg (hmaps f)]
      simp only [Pte.maps_pteCreate]
      by_cases hf : page = f
      . subst hf
        simp [setPte, setPgdir, pageRefInc, setPageRef]
      . simp [setPte, setPgdir, pageRefInc, setPageRef, hf, Ne.symm hf]
    . intro f
      rw [hold]
      constructor
      . exact .inl
      . rintro (hmem | ⟨hm, -⟩)
        . exact hmem
        . exact absurd hm (hmaps f)

theorem pageInsert_spec (h : Consistent s) (hpage : page ∉ s.free) (href : s.ref page = s.count page)
    : ((s.pageInsert pmm i page la perm).1 ≠ 0 ∧ Extends s (s.pageInsert pmm i page la perm).2) ∨
        ((s.pageInsert pmm i page la perm).1 = 0 ∧
          GoesTo (fun j k => j = i ∧ k = pteKey la) s (s.pageInsert pmm i page la perm).2) := by
  have hext := @getPteCreate_extends ι _ pmm s i la
  rw [pageInsert]
  rcases hcreate : s.getPteCreate pmm i la with ⟨_ | pte, t⟩ <;> rw [hcreate] at hext
  . exact .inl ⟨show -Errno.noMem.toInt ≠ 0 by decide, hext⟩
  . have hget := getPteCreate_getPte hcreate
    have hpage' : page ∉ t.free := fun hmem => hpage (hext.free hmem)
    have href' : t.ref page = t.count page := by
      rw [hext.ref page (.inl hpage), count_congr hext.entries, href]
    exact .inr ⟨rfl, hext.goesTo_trans h (insertEntry_goesTo (hext.consistent h) hget hpage' href')⟩

theorem pgdirAllocPage_goesTo (h : Consistent s)
    : GoesTo (fun j k => j = i ∧ k = pteKey la) s (s.pgdirAllocPage pmm i la perm).2 := by
  rw [pgdirAllocPage]
  cases halloc : s.allocPage pmm with
  | none => exact (Extends.refl s).goesTo h
  | some r =>
    obtain ⟨page, t⟩ := r
    obtain ⟨hext, hmem, hnot, hrefs⟩ := allocPage_extends halloc
    have hzero := h.free page hmem
    have href : t.ref page = t.count page := by
      rw [hrefs, count_congr hext.entries, hzero.1, hzero.2]
      rfl
    rcases @pageInsert_spec ι _ _ pmm t i la page perm (hext.consistent h) hnot href with
      ⟨hret, hins⟩ | ⟨hret, hins⟩
    . -- the page goes back, nobody has mapped it
      simp only [hret, ne_eq, not_false_eq_true, if_true]
      generalize (t.pageInsert pmm i page la perm).2 = u at *
      have hall := hext.trans hins
      apply Extends.goesTo ?_ h
      refine ⟨hall.entries, ?_, ?_⟩
      . intro f hf
        rcases Finset.mem_insert.mp hf with rfl | hf
        . exact hmem
        . exact hall.free hf
      . intro f hf
        by_cases heq : f = page
        . subst heq
          simp [freePage, hzero.1]
        . have hkept : (u.freePage page).ref f = u.ref f := Function.update_of_ne heq ..
          rw [hkept]
          apply hall.ref f
          rcases hf with hf | hf
          . exact .inl hf
          . exact .inr ((Finset.mem_insert.mp hf).resolve_left heq)
    . simp only [hret, ne_eq, not_true_eq_false, if_false]
      exact hext.goesTo_trans h hins

theorem unmapRound_goesTo (h : Consistent s) (start : Nat)
    : GoesTo (fun j k => j = i ∧ k = pteKey start) s (s.unmapRound i start) := by
  rw [unmapRound]
  split
  . exact (Extends.refl s).goesTo h
  next pte hget =>
    split
    . exact pageRemovePte_goesTo h hget
    . exact (Extends.refl s).goesTo h

theorem copyRound_goesTo {dst src : ι} {ret : Int} {start : Nat} (h : Consistent s)
    (hround : s.copyRound pmm dst src start = some (ret, t))
    : GoesTo (fun j k => j = dst ∧ k = pteKey start) s t := by
  have hrefl : ∀ {ret' : Int}, some (ret', s) = some (ret, t) →
      GoesTo (fun j k => j = dst ∧ k = pteKey start) s t := by
    intro ret' heq
    obtain ⟨-, rfl⟩ := Prod.mk.inj (Option.some_inj.mp heq)
    exact (Extends.refl s).goesTo h
  rw [copyRound] at hround
  split at hround
  . exact hrefl hround
  next pte hget =>
    split at hround
    next hvalid =>
      have hext := @getPteCreate_extends ι _ pmm s dst start
      rcases hcreate : s.getPteCreate pmm dst start with ⟨_ | npte, u⟩ <;>
        rw [hcreate] at hext <;> simp only [hcreate] at hround
      . obtain ⟨-, rfl⟩ := Prod.mk.inj (Option.some_inj.mp hround)
        exact hext.goesTo h
      . cases halloc : u.allocPage pmm with
        | none => simp [halloc] at hround
        | some r =>
          obtain ⟨npage, v⟩ := r
          obtain ⟨hext', hmem, hnot, hrefs⟩ := allocPage_extends halloc
          have hu := hext.consistent h
          have hzero := hu.free npage hmem
          have hv := hext'.consistent hu
          simp only [halloc] at hround
          generalize hw : ({ v with data := Function.update v.data npage (v.data pte.ppn) } : Paging ι) = w
            at hround
          have hext'' : Extends v w := by
            subst hw
            exact ⟨rfl, Finset.Subset.refl _, fun _ _ => rfl⟩
          have hnot' : npage ∉ w.free := fun hmem => hnot (hext''.free hmem)
          have href : w.ref npage = w.count npage := by
            rw [hext''.ref npage (.inl hnot), hrefs, count_congr hext''.entries, count_congr hext'.entries,
              hzero.1, hzero.2]
            rfl
          rcases @pageInsert_spec ι _ _ pmm w dst start npage (pte.flags &&& Pte.pteUser)
            (hext''.consistent hv) hnot' href with ⟨hret, hins⟩ | ⟨hret, hins⟩
          . simp [hret] at hround
          . simp only [hret, if_true] at hround
            obtain ⟨-, rfl⟩ := Prod.mk.inj (Option.some_inj.mp hround)
            have hall := (hext.trans hext').trans hext''
            exact hall.goesTo_trans h hins
    . exact hrefl hround

/--
The entries of a range in one page directory.
-/
def RangeNames (i : ι) (start stop : Nat) (j : ι) (k : PteKey) : Prop :=
  j = i ∧ ∃ la, start ≤ la ∧ la < stop ∧ k = pteKey la

omit [DecidableEq ι] [Fintype ι] in
theorem rangeNames_of_eq {start stop : Nat} {j : ι} {k : PteKey} (hle : start ≤ la) (hlt : la < stop)
    (h : j = i ∧ k = pteKey la)
    : RangeNames i start stop j k :=
  ⟨h.1, la, hle, hlt, h.2⟩

/--
Every round of `unmap_range` is a step on an entry of the range.
-/
theorem unmapLoop_chain {s : Paging ι} {low start stop : Nat} (h : Consistent s) (hlow : low ≤ start)
    (hlt : start < stop)
    : List.IsChain (GoesTo (RangeNames i low stop)) (s :: s.unmapLoop i stop start) := by
  have hround := (@unmapRound_goesTo ι _ _ s i h start).mono fun j k => rangeNames_of_eq hlow hlt
  rw [unmapLoop]
  split
  next hnext =>
    have := s.lt_nextAddr i start
    exact List.isChain_cons_cons.mpr ⟨hround, unmapLoop_chain hround.consistent (by omega) hnext.2⟩
  . exact List.isChain_cons_cons.mpr ⟨hround, List.isChain_singleton _⟩
termination_by stop - start
decreasing_by omega

/--
Every round of `copy_range` is a step on an entry of the range.
-/
theorem copyLoop_chain {s : Paging ι} {dst src : ι} {low start stop : Nat} {ret : Int}
    {states : List (Paging ι)} (h : Consistent s) (hlow : low ≤ start) (hlt : start < stop)
    (hloop : s.copyLoop pmm dst src stop start = some (ret, states))
    : List.IsChain (GoesTo (RangeNames dst low stop)) (s :: states) := by
  rw [copyLoop] at hloop
  cases hcopy : s.copyRound pmm dst src start with
  | none => simp [hcopy] at hloop
  | some r =>
    obtain ⟨ret', t⟩ := r
    have hround := (copyRound_goesTo h hcopy).mono fun j k => rangeNames_of_eq hlow hlt
    simp only [hcopy] at hloop
    split at hloop
    . obtain ⟨-, rfl⟩ := Prod.mk.inj (Option.some_inj.mp hloop)
      exact List.isChain_cons_cons.mpr ⟨hround, List.isChain_singleton _⟩
    . split at hloop
      next hnext =>
        have hless := s.lt_nextAddr src start
        obtain ⟨⟨ret'', rest⟩, hrest, heq⟩ := Option.map_eq_some_iff.mp hloop
        obtain ⟨-, rfl⟩ := Prod.mk.inj heq
        have hchain := copyLoop_chain hround.consistent (show low ≤ s.nextAddr src start by omega)
          hnext.2 hrest
        exact List.isChain_cons_cons.mpr ⟨hround, hchain⟩
      . obtain ⟨-, rfl⟩ := Prod.mk.inj (Option.some_inj.mp hloop)
        exact List.isChain_cons_cons.mpr ⟨hround, List.isChain_singleton _⟩
termination_by stop - start
decreasing_by omega

/--
The states that an operation goes through, round by round. `none` stands for a failing assertion.
-/
def rounds (pmm : PmmManager) (s : Paging ι) : PagingOp ι → Option (List (Paging ι))
  | .pgdirAllocPage i la perm => some [(s.pgdirAllocPage pmm i la perm).2]
  | .pageInsert i page la perm => some [(s.pageInsert pmm i page la perm).2]
  | .pageRemove i la => some [s.pageRemove i la]
  | .unmapRange i start stop => s.unmapRange i start stop
  | .copyRange dst src start stop => (s.copyRange pmm dst src start stop).map (·.2)

/--
A page that a caller maps is one that the page manager has given out, with the right count.
-/
def Legal (s : Paging ι) : PmmManager × PagingOp ι → Prop
  | (_, .pageInsert _ page _ _) => page ∉ s.free ∧ s.ref page = s.count page
  | _ => True

def step (s : Paging ι) (op : PmmManager × PagingOp ι) : Option (Paging ι) :=
  (s.rounds op.1 op.2).map fun states => states.getLastD s

theorem rounds_chain {op : PagingOp ι} {states : List (Paging ι)} (h : Consistent s)
    (hlegal : s.Legal (pmm, op)) (hrounds : s.rounds pmm op = some states)
    : List.IsChain (GoesTo op.Names) (s :: states) := by
  cases op with
  | pgdirAllocPage i la perm =>
    rw [rounds, Option.some_inj] at hrounds
    subst hrounds
    exact List.isChain_cons_cons.mpr ⟨pgdirAllocPage_goesTo h, List.isChain_singleton _⟩
  | pageInsert i page la perm =>
    rw [rounds, Option.some_inj] at hrounds
    subst hrounds
    refine List.isChain_cons_cons.mpr ⟨?_, List.isChain_singleton _⟩
    rcases pageInsert_spec h hlegal.1 hlegal.2 with ⟨-, hext⟩ | ⟨-, hgoes⟩
    . exact hext.goesTo h
    . exact hgoes
  | pageRemove i la =>
    rw [rounds, Option.some_inj] at hrounds
    subst hrounds
    refine List.isChain_cons_cons.mpr ⟨?_, List.isChain_singleton _⟩
    rw [pageRemove]
    split
    next pte hget => exact pageRemovePte_goesTo h hget
    . exact (Extends.refl s).goesTo h
  | unmapRange i start stop =>
    rw [rounds, unmapRange] at hrounds
    split at hrounds
    next hassert =>
      rw [Option.some_inj] at hrounds
      subst hrounds
      exact unmapLoop_chain h (Nat.le_refl start) hassert.2.2.2.1
    . contradiction
  | copyRange dst src start stop =>
    rw [rounds, copyRange] at hrounds
    split at hrounds
    next hassert =>
      obtain ⟨⟨ret, rest⟩, hloop, rfl⟩ := Option.map_eq_some_iff.mp hrounds
      exact copyLoop_chain h (Nat.le_refl start) hassert.2.2.2.1 hloop
    . contradiction

omit [DecidableEq ι] in
theorem Consistent.getLastD {states : List (Paging ι)} (h : Consistent s)
    (hchain : List.IsChain (GoesTo names) (s :: states))
    : Consistent (states.getLastD s) := by
  induction states generalizing s with
  | nil => exact h
  | cons t states ih =>
    obtain ⟨hgoes, hrest⟩ := List.isChain_cons_cons.mp hchain
    rw [List.getLastD_cons]
    exact ih hgoes.consistent hrest

theorem run_consistent {ops : List (PmmManager × PagingOp ι)} (h : Consistent s)
    (hlegal : Run.Admits step Legal s ops) (hexec : Run.exec step s ops = some t)
    : Consistent t := by
  have hkeep : ∀ s op t, Consistent s → Legal s op → step s op = some t → Consistent (ι := ι) t := by
    rintro s ⟨pmm, op⟩ t h hlegal hstep
    obtain ⟨states, hrounds, rfl⟩ := Option.map_eq_some_iff.mp hstep
    exact h.getLastD (rounds_chain h hlegal hrounds)
  exact Run.exec_invariant_of_admits hkeep h hlegal hexec

/--
In every run each round of every operation keeps the reference counts of mapped frames at the number of
their entries, gives a frame back exactly when its last entry goes, and changes no other entry.
-/
theorem page_references_counted {ops : List (PmmManager × PagingOp ι)} {op : PagingOp ι}
    {states : List (Paging ι)} (h : Consistent s) (hlegal : Run.Admits step Legal s ops)
    (hexec : Run.exec step s ops = some t) (hop : t.Legal (pmm, op))
    (hrounds : t.rounds pmm op = some states)
    : Consistent t ∧ List.IsChain (GoesTo op.Names) (t :: states) :=
  have hcons := run_consistent h hlegal hexec
  ⟨hcons, rounds_chain hcons hop hrounds⟩

/--
A page manager that gives the first free frame.
-/
def firstPage : PmmManager where
  allocPage free := free.min
  mem h := Finset.mem_of_min h

theorem firstPage_complete : firstPage.Complete := by
  intro free hfree hnone
  exact hfree.ne_empty (Finset.min_eq_top.mp hnone)

/--
Two page directories without entries.
-/
def emptyPaging : Paging (Fin 2) where
  pgdirs _ _ := none
  ref _ := 0
  data _ _ := 0
  free := Finset.range 8

theorem emptyPaging_consistent : Consistent emptyPaging := by
  have hcount : ∀ f, emptyPaging.count f = 0 := by
    intro f
    rw [count, Finset.card_eq_zero, Finset.filter_eq_empty_iff]
    exact fun _ _ => Pte.not_maps_zero
  constructor
  . intro f hf
    rw [hcount] at hf
    contradiction
  . exact fun f _ => ⟨rfl, hcount f⟩

theorem page_references_counted_emptyPaging
    : ∃ t states, Run.exec step emptyPaging [(firstPage, .pgdirAllocPage 0 0x800000 Pte.pteU)] = some t ∧
        t.rounds firstPage (.unmapRange 0 0x800000 0x802000) = some states ∧ Consistent t ∧
        List.IsChain (GoesTo (PagingOp.unmapRange 0 0x800000 0x802000).Names) (t :: states) := by
  have hrun : Run.exec step emptyPaging [(firstPage, .pgdirAllocPage 0 0x800000 Pte.pteU)] =
      some (emptyPaging.pgdirAllocPage firstPage 0 0x800000 Pte.pteU).2 := rfl
  have hrounds : ∀ t : Paging (Fin 2), t.rounds firstPage (.unmapRange 0 0x800000 0x802000) =
      some (t.unmapLoop 0 0x802000 0x800000) := by
    intro t
    rw [rounds, unmapRange, if_pos (by decide)]
  have hlegal : (emptyPaging.pgdirAllocPage firstPage 0 0x800000 Pte.pteU).2.Legal
      (firstPage, .unmapRange 0 0x800000 0x802000) := trivial
  have hadmits : Run.Admits step Legal emptyPaging [(firstPage, .pgdirAllocPage 0 0x800000 Pte.pteU)] :=
    ⟨trivial, fun _ _ => trivial⟩
  exact ⟨_, _, hrun, hrounds _,
    page_references_counted emptyPaging_consistent hadmits hrun hlegal (hrounds _)⟩

end Paging
end Ucore

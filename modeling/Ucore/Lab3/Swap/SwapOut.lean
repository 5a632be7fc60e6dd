import Ucore.Lab3.Swap.Lists

/-!
This module contains the whole loop of `swap_out` of lab3 with each of its managers: kern/mm/swap.c,
kern/mm/swap_fifo.c, kern/mm/swap_clock.c and kern/mm/swap_lru.c. No manager reports that its list is empty.
-/

namespace Ucore
namespace Lab3

inductive ReplacementManager where
  | fifo
  | clock
  | lru
  deriving DecidableEq

namespace PraList

variable {l : PraList} {rm : ReplacementManager}

/--
What the loop of `_lru_swap_out_victim` does to the list: `curr_ptr` goes on to the head, the first entry is taken
off, and `curr_ptr` is left at the one behind it. The pointer `page` is never set.
-/
def lruSwapOutVictim (l : PraList) : PraList := { l with pages := l.pages.tail, currPtr := l.pages.tail.head? }

/--
`swap_out_victim`: its return code, the page that `*ptr_page` points to, and the list. The page is `none` where the
pointer is not that of a page: `NULL` for FIFO, the address in front of `pra_list_head` for the clock, an
indeterminate value for LRU.
-/
def victim (l : PraList) : ReplacementManager → Int × Option Nat × PraList
  | .fifo =>
    match l.fifoSwapOutVictim with
    | some (page, l) => (0, some page, l)
    | none => (0, none, l)
  | .clock =>
    match l.clockSwapOutVictim with
    | some (page, l) => (0, some page, l)
    | none => (0, none, l)
  | .lru => (0, none, l.lruSwapOutVictim)

def Linked (l : PraList) : ReplacementManager → Prop
  | .fifo => l.WellLinked .fifo
  | .clock => l.WellLinked .clock
  | .lru => l.WellLinked .clock

theorem Linked.nodup (h : l.Linked rm) : l.pages.Nodup := by
  cases rm with
  | fifo => exact WellLinked.nodup h
  | clock => exact WellLinked.nodup h
  | lru => exact WellLinked.nodup h

theorem victim_ret (l : PraList) (rm : ReplacementManager) : (l.victim rm).1 = 0 := by
  cases rm with
  | fifo =>
    rw [victim]
    split <;> rfl
  | clock =>
    rw [victim]
    split <;> rfl
  | lru => rfl

theorem clockLoop_nil {fuel : Nat} (hpages : l.pages = []) (hcurr : l.currPtr = none) : l.clockLoop fuel = none := by
  cases fuel with
  | zero => rfl
  | succ fuel => simp [clockLoop, hcurr, hpages, listNext]

/--
On an empty list the return code is that of a success, and the pointer is not that of a page.
-/
theorem victim_nil (h : l.Linked rm) (hpages : l.pages = []) : (l.victim rm).2.1 = none := by
  cases rm with
  | fifo => simp [victim, fifoSwapOutVictim, hpages]
  | clock =>
    have hcurr : l.currPtr = none := by
      cases hptr : l.currPtr with
      | none => rfl
      | some page =>
        have := WellLinked.curr h rfl page hptr
        rw [hpages] at this
        contradiction
    rw [victim, clockSwapOutVictim, clockLoop_nil hpages hcurr]
  | lru => rfl

theorem victim_cons (h : l.Linked rm) (hrm : rm ≠ .lru) (hpages : l.pages ≠ [])
    : ∃ page l', l.victim rm = (0, some page, l') ∧ l.pages.Perm (page :: l'.pages) ∧ l'.Linked rm := by
  cases rm with
  | fifo =>
    have h : l.WellLinked .fifo := h
    obtain ⟨page, l', hvictim, hperm, hlinked⟩ := h.swapOutVictim hpages
    have hvictim : l.fifoSwapOutVictim = some (page, l') := hvictim
    exact ⟨page, l', by rw [victim, hvictim], hperm, hlinked⟩
  | clock =>
    have h : l.WellLinked .clock := h
    obtain ⟨page, l', hvictim, hperm, hlinked⟩ := h.swapOutVictim hpages
    have hvictim : l.clockSwapOutVictim = some (page, l') := hvictim
    exact ⟨page, l', by rw [victim, hvictim], hperm, hlinked⟩
  | lru => contradiction

end PraList

/--
`freed` has the pages given to `free_page`, the last one first.
-/
structure OutSys (κ : Type) where
  mem : SwapMem κ
  list : PraList
  freed : List Nat

namespace OutSys

variable {κ : Type} [DecidableEq κ]

/--
The loop of `swap_out`, `left` being the number of rounds until `i` is equal to `n`. The result is `none` if a
pointer that is not one of a page is dereferenced, or an assertion fails. `swapfs_write` never fails, it panics.
-/
def swapOutLoop (rm : ReplacementManager) (i : κ) : Nat → Nat → OutSys κ → Option (Nat × OutSys κ)
  | 0, done, s => some (done, s)
  | left + 1, done, s =>
    let (r, page, list) := s.list.victim rm
    if r ≠ 0 then
      some (done, { s with list })
    else
      match page with
      | none => none
      | some page =>
        (s.mem.swapOutRound i page).bind fun mem =>
          swapOutLoop rm i left (done + 1) { mem, list, freed := page :: s.freed }

/--
`swap_out(mm, n, 0)`. The counter of the loop goes up from 0 until it is equal to `n`, so for a negative `n` it would
have to go round.
-/
def swapOut (s : OutSys κ) (rm : ReplacementManager) (i : κ) (n : BitVec 32) : Option (Nat × OutSys κ) :=
  swapOutLoop rm i n.toNat 0 s

/--
The pages on the list are those of the address space that can be swapped out: each is behind the entry of its
address, and this address has a slot on the swap device.
-/
structure Swappable (s : OutSys κ) (rm : ReplacementManager) (i : κ) : Prop where
  linked : s.list.Linked rm
  mapped : ∀ page ∈ s.list.pages,
    valid (s.mem.pte i (s.mem.praVaddr page / pgsize)) ∧ pte2page (s.mem.pte i (s.mem.praVaddr page / pgsize)) = page
  slots : ∀ page ∈ s.list.pages, s.mem.praVaddr page / pgsize + 1 < s.mem.maxSwapOffset

/--
These pages have gone from the list to the swap device, and are free.
-/
structure Evicted (i : κ) (s s' : OutSys κ) (pages : List Nat) : Prop where
  list : s.list.pages.Perm (pages ++ s'.list.pages)
  freed : s'.freed = pages.reverse ++ s.freed
  entry : ∀ page ∈ pages, s'.mem.pte i (s.mem.praVaddr page / pgsize) = (s.mem.praVaddr page / pgsize + 1) <<< 8
  disk : ∀ page ∈ pages, s'.mem.disk (s.mem.praVaddr page / pgsize + 1) = s.mem.data page
  entries : ∀ j vpn, (j = i → ∀ page ∈ pages, s.mem.praVaddr page / pgsize ≠ vpn) →
    s'.mem.pte j vpn = s.mem.pte j vpn
  slots : ∀ slot, (∀ page ∈ pages, s.mem.praVaddr page / pgsize + 1 ≠ slot) → s'.mem.disk slot = s.mem.disk slot
  praVaddr : s'.mem.praVaddr = s.mem.praVaddr
  data : s'.mem.data = s.mem.data

/--
`swap_out` comes back, it has evicted `n` pages, or all there are, and returns their number. Where it has asked for
more than there are the manager has reported that.
-/
def Evicts (s : OutSys κ) (rm : ReplacementManager) (i : κ) (n : BitVec 32) : Prop :=
  ∃ ret s' pages, s.swapOut rm i n = some (ret, s') ∧ (ret : Int) = min n.toInt s.list.pages.length ∧
    pages.length = ret ∧ s.Evicted i s' pages ∧ (n.toInt > s.list.pages.length → (s'.list.victim rm).1 ≠ 0)

variable {rm : ReplacementManager} {i : κ} {s s' s₁ : OutSys κ} {pages : List Nat} {page : Nat}

omit [DecidableEq κ] in
theorem Evicted.refl (i : κ) (s : OutSys κ) : s.Evicted i s [] :=
  ⟨.refl _, rfl, nofun, nofun, fun _ _ _ => rfl, fun _ _ => rfl, rfl, rfl⟩

omit [DecidableEq κ] in
/--
Two pages on the list have different addresses.
-/
theorem Swappable.apart (h : s.Swappable rm i) {p q : Nat} (hp : p ∈ s.list.pages) (hq : q ∈ s.list.pages)
    (heq : s.mem.praVaddr p / pgsize = s.mem.praVaddr q / pgsize)
    : p = q := by
  have := (h.mapped p hp).2
  rw [heq, (h.mapped q hq).2] at this
  exact this.symm

theorem Swappable.write (h : s.Swappable rm i) (hmem : page ∈ s.list.pages)
    : ∃ mem, s.mem.swapOutRound i page = some mem ∧ mem.praVaddr = s.mem.praVaddr ∧ mem.data = s.mem.data ∧
      mem.maxSwapOffset = s.mem.maxSwapOffset ∧
      mem.disk = Function.update s.mem.disk (s.mem.praVaddr page / pgsize + 1) (s.mem.data page) ∧
      ∀ j vpn, mem.pte j vpn = if j = i ∧ vpn = s.mem.praVaddr page / pgsize then
        (s.mem.praVaddr page / pgsize + 1) <<< 8 else s.mem.pte j vpn :=
  ⟨_, SwapSys.swapOutRound_eq (h.mapped page hmem).1 (h.slots page hmem), rfl, rfl, rfl, rfl,
    SwapSys.setPte_pte _ _ _ _⟩

/--
One round with a page on the list.
-/
theorem Swappable.round (h : s.Swappable rm i) (hrm : rm ≠ .lru) (hpages : s.list.pages ≠ [])
    : ∃ page s₁, (∀ left done, swapOutLoop rm i (left + 1) done s = swapOutLoop rm i left (done + 1) s₁) ∧
        s₁.Swappable rm i ∧ s.Evicted i s₁ [page] := by
  obtain ⟨page, list, hvictim, hperm, hlinked⟩ := PraList.victim_cons h.linked hrm hpages
  have hmem : page ∈ s.list.pages := hperm.mem_iff.mpr List.mem_cons_self
  obtain ⟨mem, hround, haddr, hdata, hmax, hdisk, hpte⟩ := h.write hmem
  refine ⟨page, ⟨mem, list, page :: s.freed⟩, ?_, ⟨hlinked, ?_, ?_⟩, ⟨hperm, rfl, ?_, ?_, ?_, ?_, haddr, hdata⟩⟩
  . intro left done
    rw [swapOutLoop, hvictim]
    dsimp only
    rw [if_neg (not_not.mpr rfl), hround, Option.bind_some]
  . intro q hq
    have hq' : q ∈ s.list.pages := hperm.mem_iff.mpr (List.mem_cons_of_mem page hq)
    have hne : q ≠ page := by
      rintro rfl
      exact (List.nodup_cons.mp (hperm.nodup_iff.mp h.linked.nodup)).1 hq
    dsimp only
    rw [haddr, hpte, if_neg (fun heq => hne (h.apart hq' hmem heq.2))]
    exact h.mapped q hq'
  . intro q hq
    dsimp only
    rw [haddr, hmax]
    exact h.slots q (hperm.mem_iff.mpr (List.mem_cons_of_mem page hq))
  . intro p hp
    rw [List.mem_singleton.mp hp]
    exact (hpte i _).trans (if_pos ⟨rfl, rfl⟩)
  . intro p hp
    rw [List.mem_singleton.mp hp]
    dsimp only
    rw [hdisk, Function.update_self]
  . intro j vpn hne
    exact (hpte j vpn).trans (if_neg fun heq => hne heq.1 page List.mem_cons_self heq.2.symm)
  . intro slot hne
    dsimp only
    rw [hdisk, Function.update_of_ne (hne page List.mem_cons_self).symm]

omit [DecidableEq κ] in
theorem Evicted.cons (h : s.Evicted i s₁ [page]) (h' : s₁.Evicted i s' pages)
    (happart : ∀ p ∈ pages, s.mem.praVaddr p / pgsize ≠ s.mem.praVaddr page / pgsize)
    : s.Evicted i s' (page :: pages) := by
  have haddr := h.praVaddr
  have hpage : page ∈ [page] := List.mem_cons_self
  refine ⟨?_, ?_, ?_, ?_, ?_, ?_, h'.praVaddr.trans haddr, h'.data.trans h.data⟩
  . exact h.list.trans (List.Perm.cons page h'.list)
  . rw [h'.freed, h.freed]
    simp
  . intro p hp
    rcases List.mem_cons.mp hp with rfl | hp
    . rw [h'.entries i _ (fun _ q hq => haddr ▸ happart q hq)]
      exact h.entry p hpage
    . have := h'.entry p hp
      rwa [haddr] at this
  . intro p hp
    rcases List.mem_cons.mp hp with rfl | hp
    . rw [h'.slots _ (fun q hq => by rw [haddr]; exact fun heq => happart q hq (Nat.succ_inj.mp heq))]
      exact h.disk p hpage
    . have := h'.disk p hp
      rwa [haddr, h.data] at this
  . intro j vpn hne
    rw [h'.entries j vpn (fun hj q hq => haddr ▸ hne hj q (List.mem_cons_of_mem page hq))]
    exact h.entries j vpn (fun hj q hq => List.mem_singleton.mp hq ▸ hne hj page List.mem_cons_self)
  . intro slot hne
    rw [h'.slots slot (fun q hq => haddr ▸ hne q (List.mem_cons_of_mem page hq))]
    exact h.slots slot (fun q hq => List.mem_singleton.mp hq ▸ hne page List.mem_cons_self)

/--
As long as there are pages on the list each round evicts one.
-/
theorem Swappable.loop (h : s.Swappable rm i) (hrm : rm ≠ .lru) (left done : Nat)
    (hle : left ≤ s.list.pages.length)
    : ∃ s' pages, swapOutLoop rm i left done s = some (done + left, s') ∧ pages.length = left ∧
        s.Evicted i s' pages := by
  induction left generalizing s done with
  | zero => exact ⟨s, [], rfl, rfl, .refl i s⟩
  | succ left ih =>
    have hne : s.list.pages ≠ [] := by
      intro hnil
      rw [hnil] at hle
      contradiction
    obtain ⟨page, s₁, hloop, h₁, hevicted⟩ := h.round hrm hne
    have hlength := hevicted.list.length_eq
    rw [List.length_append, List.length_singleton] at hlength
    obtain ⟨s', pages, hrest, hpages, hevicted'⟩ := ih h₁ (done + 1) (by omega)
    refine ⟨s', page :: pages, ?_, by rw [List.length_cons, hpages], hevicted.cons hevicted' ?_⟩
    . rw [hloop, hrest, Nat.add_assoc, Nat.add_comm 1]
    . intro p hp heq
      have hp₁ : p ∈ s₁.list.pages := hevicted'.list.mem_iff.mpr (List.mem_append_left _ hp)
      have hmem : page ∈ s.list.pages := hevicted.list.mem_iff.mpr (by simp)
      have hp' : p ∈ s.list.pages := hevicted.list.mem_iff.mpr (by simp [hp₁])
      obtain rfl := h.apart hp' hmem heq
      exact (List.nodup_cons.mp (hevicted.list.nodup_iff.mp h.linked.nodup)).1 hp₁

/--
The round that finds the list empty dereferences the pointer.
-/
theorem Swappable.loop_beyond (h : s.Swappable rm i) (left done : Nat)
    (hbeyond : rm = .lru ∧ 0 < left ∨ s.list.pages.length < left)
    : swapOutLoop rm i left done s = none := by
  induction left generalizing s done with
  | zero => omega
  | succ left ih =>
    have hnull (hnone : (s.list.victim rm).2.1 = none) : swapOutLoop rm i (left + 1) done s = none := by
      have hret := s.list.victim_ret rm
      rw [swapOutLoop]
      generalize s.list.victim rm = found at hnone hret
      obtain ⟨r, page, list⟩ := found
      obtain rfl : r = 0 := hret
      obtain rfl : page = none := hnone
      rfl
    by_cases hrm : rm = .lru
    . refine hnull ?_
      rw [hrm]
      rfl
    by_cases hnil : s.list.pages = []
    . exact hnull (PraList.victim_nil h.linked hnil)
    . obtain ⟨page, s₁, hloop, h₁, hevicted⟩ := h.round hrm hnil
      have hlength := hevicted.list.length_eq
      rw [hloop]
      have hbeyond := hbeyond.resolve_left fun hlru => hrm hlru.1
      rw [List.length_append, List.length_singleton] at hlength
      exact ih h₁ (done + 1) (.inr (by omega))

/--
`swap_out` does what it should exactly where it is not asked for a page more than there are, and the manager is not
LRU, whose victim is no page.
-/
theorem swap_out_evicts_iff (h : s.Swappable rm i) (n : BitVec 32)
    : s.Evicts rm i n ↔ n = 0 ∨ rm ≠ .lru ∧ 0 ≤ n.toInt ∧ n.toInt ≤ s.list.pages.length := by
  have hsign := n.toInt_eq_toNat_cond
  constructor
  . rintro ⟨ret, s', pages, hout, hret, -, -, -⟩
    by_contra hnot
    have hzero : 0 < n.toNat := by
      refine Nat.pos_of_ne_zero fun hzero => hnot (.inl ?_)
      exact BitVec.eq_of_toNat_eq hzero
    have hbeyond : rm = .lru ∧ 0 < n.toNat ∨ s.list.pages.length < n.toNat := by
      by_cases hrm : rm = .lru
      . exact .inl ⟨hrm, hzero⟩
      . have hrange : ¬(0 ≤ n.toInt ∧ n.toInt ≤ s.list.pages.length) := fun hrange => hnot (.inr ⟨hrm, hrange⟩)
        split at hsign <;> omega
    rw [swapOut, h.loop_beyond n.toNat 0 hbeyond] at hout
    contradiction
  . rintro (rfl | ⟨hrm, hpos, hle⟩)
    . exact ⟨0, s, [], rfl, by simp, rfl, .refl i s, by simp⟩
    . have hnat : (n.toNat : Int) = n.toInt := by
        split at hsign <;> omega
      obtain ⟨s', pages, hloop, hpages, hevicted⟩ := h.loop hrm n.toNat 0 (by omega)
      rw [Nat.zero_add] at hloop
      exact ⟨n.toNat, s', pages, hloop, by omega, hpages, hevicted, fun hgt => absurd hle (not_le.mpr hgt)⟩

/--
An address space with one page, at 0x1000.
-/
def onePage : OutSys Unit where
  mem := { SwapSys.bootMem Unit with
    pte := fun _ vpn => if vpn = 1 then pteCreate 3 (pteV ||| 0x16) else 0
    praVaddr := fun _ => 0x1000 }
  list := ⟨[3], none, fun _ => false⟩
  freed := []

theorem onePage_swappable (rm : ReplacementManager) : onePage.Swappable rm () := by
  refine ⟨?_, ?_, ?_⟩
  . cases rm with
    | fifo => exact ⟨List.nodup_singleton 3, nofun⟩
    | clock => exact ⟨List.nodup_singleton 3, fun _ _ => nofun⟩
    | lru => exact ⟨List.nodup_singleton 3, fun _ _ => nofun⟩
  . intro page hpage
    rw [List.mem_singleton.mp hpage]
    decide +kernel
  . intro page hpage
    rw [List.mem_singleton.mp hpage]
    decide +kernel

theorem swap_out_evicts_iff_onePage : onePage.Evicts .clock () 1 :=
  (swap_out_evicts_iff (onePage_swappable .clock) 1).mpr (.inr ⟨nofun, by decide, by decide⟩)

/--
Two pages are wanted of an address space that has one.
-/
theorem not_swap_out_evicts
    : ¬∀ (s : OutSys Unit) (rm : ReplacementManager) (n : BitVec 32), s.Swappable rm () → s.Evicts rm () n := by
  intro h
  obtain ⟨ret, s', pages, hout, -⟩ := h onePage .fifo 2 (onePage_swappable .fifo)
  have hnone : (onePage.swapOut .fifo () 2).isNone := by decide +kernel
  rw [hout] at hnone
  contradiction

end OutSys
end Lab3
end Ucore

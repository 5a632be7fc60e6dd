import Mathlib
import Ucore.Lib.Run
import Ucore.Lab3.Swap.Impl

/-!
This module contains the slots of the swap device: `swap_out` takes the slot from the virtual address alone, so
the same page of two address spaces has one slot.
-/

namespace Ucore
namespace Lab3

/--
The memory together with what has been on the pages that are swapped out.
-/
structure SwapSys (κ : Type) where
  mem : SwapMem κ
  out : κ → Nat → Option PageData

/--
A page fault, one round of `swap_out`, `page_remove`, and a write of a process to a frame. Where `alloc_page`
has to evict pages, their rounds come before the fault that needs the page.
-/
inductive SwapEvent (κ : Type) where
  | fault (i : κ) (addr page perm : Nat)
  | evict (i : κ) (page : Nat)
  | remove (i : κ) (la : Nat)
  | write (page : Nat) (content : PageData)

namespace SwapSys

variable {κ : Type} [DecidableEq κ]

def init (mem : SwapMem κ) : SwapSys κ := ⟨{ mem with pte := fun _ _ => 0 }, fun _ _ => none⟩

def setOut (s : SwapSys κ) (i : κ) (vpn : Nat) (content : Option PageData) : SwapSys κ :=
  { s with out := Function.update s.out i (Function.update (s.out i) vpn content) }

def step (s : SwapSys κ) : SwapEvent κ → Option (SwapSys κ)
  | .fault i addr page perm =>
    (s.mem.doPgfault i addr page perm).map fun mem => { s with mem }.setOut i (addr / pgsize) none
  | .evict i page =>
    (s.mem.swapOutRound i page).map fun mem =>
      { s with mem }.setOut i (s.mem.praVaddr page / pgsize) (some (s.mem.data page))
  | .remove i la => some { s with mem := s.mem.pageRemove i la }
  | .write page content => some { s with mem := { s.mem with data := Function.update s.mem.data page content } }

/--
A fault is on a page that is not there, a victim is a page that is.
-/
def Legal (s : SwapSys κ) : SwapEvent κ → Prop
  | .fault i addr _ _ => ¬valid (s.mem.pte i (addr / pgsize))
  | .evict i page => valid (s.mem.pte i (s.mem.praVaddr page / pgsize))
  | .remove _ _ => True
  | .write _ _ => True

instance Legal.decidable (s : SwapSys κ) : (ev : SwapEvent κ) → Decidable (s.Legal ev)
  | .fault i addr _ _ => inferInstanceAs (Decidable ¬valid (s.mem.pte i (addr / pgsize)) = true)
  | .evict i page => inferInstanceAs (Decidable (valid (s.mem.pte i (s.mem.praVaddr page / pgsize)) = true))
  | .remove _ _ => isTrue trivial
  | .write _ _ => isTrue trivial

/--
Every page that is swapped out has a slot of its own, in the range of the device, with its contents, and an
entry that says so.
-/
structure SlotsOk (s : SwapSys κ) : Prop where
  entry : ∀ i vpn, s.out i vpn ≠ none → s.mem.pte i vpn ≠ 0 ∧ ¬valid (s.mem.pte i vpn)
  range : ∀ i vpn, s.out i vpn ≠ none → 1 ≤ s.mem.pte i vpn >>> 8 ∧ s.mem.pte i vpn >>> 8 < s.mem.maxSwapOffset
  content : ∀ i vpn content, s.out i vpn = some content → s.mem.disk (s.mem.pte i vpn >>> 8) = content
  distinct : ∀ i vpn j vpn', s.out i vpn ≠ none → s.out j vpn' ≠ none → (i, vpn) ≠ (j, vpn') →
    s.mem.pte i vpn >>> 8 ≠ s.mem.pte j vpn' >>> 8

/--
The slot of the victim is in the range of the device, and no other address space has its page there.
-/
def SlotFree (s : SwapSys κ) : SwapEvent κ → Prop
  | .evict i page =>
    s.mem.praVaddr page / pgsize + 1 < s.mem.maxSwapOffset ∧
      ∀ j ≠ i, s.out j (s.mem.praVaddr page / pgsize) = none
  | _ => True

instance SlotFree.decidable [Fintype κ] (s : SwapSys κ) : (ev : SwapEvent κ) → Decidable (s.SlotFree ev)
  | .fault _ _ _ _ => isTrue trivial
  | .evict i page =>
    inferInstanceAs (Decidable (s.mem.praVaddr page / pgsize + 1 < s.mem.maxSwapOffset ∧
      ∀ j, j ≠ i → s.out j (s.mem.praVaddr page / pgsize) = none))
  | .remove _ _ => isTrue trivial
  | .write _ _ => isTrue trivial

/--
What the entries are.
-/
structure Inv (s : SwapSys κ) : Prop where
  swapped : ∀ i vpn, s.out i vpn ≠ none → s.mem.pte i vpn = (vpn + 1) <<< 8 ∧ vpn + 1 < s.mem.maxSwapOffset
  content : ∀ i vpn content, s.out i vpn = some content → s.mem.disk (vpn + 1) = content
  alone : ∀ i j vpn, s.out i vpn ≠ none → s.out j vpn ≠ none → i = j
  resident : ∀ i vpn, s.out i vpn = none → s.mem.pte i vpn = 0 ∨ valid (s.mem.pte i vpn)

variable {s s' : SwapSys κ} {ev : SwapEvent κ} {i j : κ} {vpn page slot : Nat}

theorem valid_pteCreate (ppn type : Nat) : valid (pteCreate ppn type) = true := by
  simp [valid, pteCreate, pteV]

theorem not_valid_slot (slot : Nat) : ¬valid (slot <<< 8) = true := by
  simp [valid]

theorem slot_ne_zero (slot : Nat) : (slot + 1) <<< 8 ≠ 0 := by
  rw [Nat.shiftLeft_eq]
  omega

theorem slot_shiftRight (slot : Nat) : slot <<< 8 >>> 8 = slot := Nat.shiftLeft_shiftRight slot 8

omit [DecidableEq κ] in
theorem Inv.slotsOk (h : s.Inv) : s.SlotsOk := by
  refine ⟨?_, ?_, ?_, ?_⟩
  . intro i vpn hout
    rw [(h.swapped i vpn hout).1]
    exact ⟨slot_ne_zero vpn, not_valid_slot _⟩
  . intro i vpn hout
    obtain ⟨hpte, hlt⟩ := h.swapped i vpn hout
    rw [hpte, slot_shiftRight]
    exact ⟨Nat.le_add_left 1 vpn, hlt⟩
  . intro i vpn content hout
    rw [(h.swapped i vpn (by simp [hout])).1, slot_shiftRight]
    exact h.content i vpn content hout
  . intro i vpn j vpn' hout hout' hne
    rw [(h.swapped i vpn hout).1, (h.swapped j vpn' hout').1, slot_shiftRight, slot_shiftRight]
    rintro heq
    obtain rfl : vpn = vpn' := by omega
    exact hne (by rw [h.alone i j vpn hout hout'])

theorem setPte_pte (mem : SwapMem κ) (i : κ) (vpn pte : Nat) (j : κ) (vpn' : Nat)
    : (mem.setPte i vpn pte).pte j vpn' = if j = i ∧ vpn' = vpn then pte else mem.pte j vpn' := by
  by_cases hj : j = i
  . subst hj
    by_cases hvpn : vpn' = vpn <;> simp [SwapMem.setPte, hvpn]
  . simp [SwapMem.setPte, hj]

theorem setOut_out (s : SwapSys κ) (i : κ) (vpn : Nat) (content : Option PageData) (j : κ) (vpn' : Nat)
    : (s.setOut i vpn content).out j vpn' = if j = i ∧ vpn' = vpn then content else s.out j vpn' := by
  by_cases hj : j = i
  . subst hj
    by_cases hvpn : vpn' = vpn <;> simp [setOut, hvpn]
  . simp [setOut, hj]

/--
The page gets a valid entry, or none at all.
-/
theorem Inv.resident_entry (h : s.Inv) {mem : SwapMem κ} {pte : Nat} (hpte : pte = 0 ∨ valid pte)
    (hentries : ∀ j vpn', mem.pte j vpn' = if j = i ∧ vpn' = vpn then pte else s.mem.pte j vpn')
    (hdisk : mem.disk = s.mem.disk) (hmax : mem.maxSwapOffset = s.mem.maxSwapOffset)
    : Inv ({ s with mem }.setOut i vpn none) := by
  refine ⟨?_, ?_, ?_, ?_⟩
  . intro j vpn' hout
    rw [setOut_out] at hout
    split at hout
    . contradiction
    next hne =>
      have := h.swapped j vpn' hout
      simp only [setOut, hentries, if_neg hne, hmax]
      exact this
  . intro j vpn' content hout
    rw [setOut_out] at hout
    split at hout
    . contradiction
    . simp only [setOut, hdisk]
      exact h.content j vpn' content hout
  . intro j k vpn' hout hout'
    rw [setOut_out] at hout hout'
    split at hout
    . contradiction
    . split at hout'
      . contradiction
      . exact h.alone j k vpn' hout hout'
  . intro j vpn' hout
    rw [setOut_out] at hout
    simp only [setOut, hentries]
    split at hout
    next heq =>
      rw [if_pos heq]
      exact hpte
    next hne =>
      rw [if_neg hne]
      exact h.resident j vpn' hout

theorem Inv.fault (h : s.Inv) {addr perm : Nat} (hlegal : s.Legal (.fault i addr page perm))
    : ∃ s', s.step (.fault i addr page perm) = some s' ∧ s'.Inv := by
  have haddr : addr / pgsize * pgsize / pgsize = addr / pgsize := Nat.mul_div_cancel _ (by decide)
  simp only [step, SwapMem.doPgfault, SwapMem.swapIn, SwapMem.pageInsert, haddr]
  split
  . refine ⟨_, rfl, h.resident_entry (.inr (valid_pteCreate page (pteV ||| perm))) ?_ rfl rfl⟩
    exact setPte_pte _ _ _ _
  next hne =>
    have hout : s.out i (addr / pgsize) ≠ none := by
      intro hnone
      rcases h.resident i _ hnone with hzero | hvalid
      . exact hne hzero
      . exact hlegal hvalid
    obtain ⟨hpte, hlt⟩ := h.swapped i _ hout
    have hoffset : s.mem.swapOffset (s.mem.pte i (addr / pgsize)) = some (addr / pgsize + 1) := by
      rw [hpte, SwapMem.swapOffset, slot_shiftRight]
      exact if_pos ⟨Nat.succ_pos _, hlt⟩
    simp only [SwapMem.swapfsRead, hoffset, Option.map_some]
    refine ⟨_, rfl, h.resident_entry (.inr (valid_pteCreate page (pteV ||| perm))) ?_ rfl rfl⟩
    exact setPte_pte _ _ _ _

theorem Inv.remove (h : s.Inv) {la : Nat} : Inv { s with mem := s.mem.pageRemove i la } := by
  rw [SwapMem.pageRemove]
  split
  next hvalid =>
    have hout : s.out i (la / pgsize) = none := by
      by_contra hout
      rw [(h.swapped i _ hout).1] at hvalid
      exact not_valid_slot _ hvalid
    have hsame : Function.update s.out i (Function.update (s.out i) (la / pgsize) none) = s.out := by
      rw [← hout, Function.update_eq_self, Function.update_eq_self]
    have hkept : Inv ({ s with mem := s.mem.setPte i (la / pgsize) 0 }.setOut i (la / pgsize) none) :=
      h.resident_entry (.inl rfl) (setPte_pte _ _ _ _) rfl rfl
    rwa [setOut, hsame] at hkept
  . exact h

/--
One round of `swap_out` on a page with a valid entry and a slot on the device.
-/
theorem swapOutRound_eq {mem : SwapMem κ} (hvalid : valid (mem.pte i (mem.praVaddr page / pgsize)))
    (hslot : mem.praVaddr page / pgsize + 1 < mem.maxSwapOffset)
    : mem.swapOutRound i page = some
      ({ mem with disk := Function.update mem.disk (mem.praVaddr page / pgsize + 1) (mem.data page) }.setPte i
        (mem.praVaddr page / pgsize) ((mem.praVaddr page / pgsize + 1) <<< 8)) := by
  have hoffset : mem.swapOffset ((mem.praVaddr page / pgsize + 1) <<< 8) =
      some (mem.praVaddr page / pgsize + 1) := by
    rw [SwapMem.swapOffset, slot_shiftRight]
    exact if_pos ⟨Nat.succ_pos _, hslot⟩
  simp only [SwapMem.swapOutRound, SwapMem.swapfsWrite, hoffset, Option.map_some]
  exact if_pos hvalid

theorem Inv.evict (h : s.Inv) (hlegal : s.Legal (.evict i page)) (hfree : s.SlotFree (.evict i page))
    : ∃ s', s.step (.evict i page) = some s' ∧ s'.Inv := by
  obtain ⟨hlt, hothers⟩ := hfree
  have hstep := swapOutRound_eq hlegal hlt
  refine ⟨_, Option.map_eq_some_iff.mpr ⟨_, hstep, rfl⟩, ?_⟩
  generalize s.mem.praVaddr page / pgsize = vpn at hlt hothers
  refine ⟨?_, ?_, ?_, ?_⟩
  . intro j vpn' hout
    simp only [setOut, setPte_pte]
    rw [setOut_out] at hout
    split
    next heq =>
      rw [heq.2]
      exact ⟨rfl, hlt⟩
    next hne =>
      rw [if_neg hne] at hout
      exact h.swapped j vpn' hout
  . intro j vpn' content hout
    rw [setOut_out] at hout
    simp only [setOut, SwapMem.setPte]
    split at hout
    next heq =>
      rw [heq.2, Function.update_self]
      exact Option.some_inj.mp hout
    next hne =>
      have hvpn : vpn' ≠ vpn := by
        rintro rfl
        have hji : j ≠ i := fun hji => hne ⟨hji, rfl⟩
        have hnone := hothers j hji
        rw [hnone] at hout
        contradiction
      rw [Function.update_of_ne (by omega)]
      exact h.content j vpn' content hout
  . intro j k vpn' hout hout'
    rw [setOut_out] at hout hout'
    split at hout <;> split at hout'
    next heq heq' => exact heq.1.trans heq'.1.symm
    next heq hne' =>
      by_contra hjk
      exact hout' (heq.2 ▸ hothers k fun hki => hjk (heq.1.trans hki.symm))
    next hne heq' =>
      by_contra hjk
      exact hout (heq'.2 ▸ hothers j fun hji => hjk (hji.trans heq'.1.symm))
    . exact h.alone j k vpn' hout hout'
  . intro j vpn' hout
    rw [setOut_out] at hout
    simp only [setOut, setPte_pte]
    split at hout
    . contradiction
    next hne =>
      rw [if_neg hne]
      exact h.resident j vpn' hout

/--
An eviction onto the slot of another page leaves two pages with one slot.
-/
theorem Inv.clash (h : s.Inv) (hfree : ¬s.SlotFree ev) (hstep : s.step ev = some s') : ¬s'.SlotsOk := by
  intro hok
  cases ev with
  | fault i addr page perm => exact hfree trivial
  | remove i la => exact hfree trivial
  | write page content => exact hfree trivial
  | evict i page =>
    obtain ⟨mem, hround, rfl⟩ := Option.map_eq_some_iff.mp hstep
    have hlt : s.mem.praVaddr page / pgsize + 1 < s.mem.maxSwapOffset := by
      by_contra hge
      have hoffset : s.mem.swapOffset ((s.mem.praVaddr page / pgsize + 1) <<< 8) = none := by
        rw [SwapMem.swapOffset, slot_shiftRight]
        exact if_neg fun hrange => hge hrange.2
      simp only [SwapMem.swapOutRound, SwapMem.swapfsWrite, hoffset, Option.map_none] at hround
      split at hround <;> contradiction
    obtain ⟨j, hji, hout⟩ : ∃ j ≠ i, s.out j (s.mem.praVaddr page / pgsize) ≠ none := by
      by_contra hnone
      push Not at hnone
      exact hfree ⟨hlt, hnone⟩
    have hpte : ∀ k vpn', mem.pte k vpn' = if k = i ∧ vpn' = s.mem.praVaddr page / pgsize then
        (s.mem.praVaddr page / pgsize + 1) <<< 8 else s.mem.pte k vpn' := by
      simp only [SwapMem.swapOutRound] at hround
      split at hround
      . obtain ⟨mem', hwrite, rfl⟩ := Option.map_eq_some_iff.mp hround
        obtain ⟨offset, -, rfl⟩ := Option.map_eq_some_iff.mp hwrite
        exact setPte_pte _ _ _ _
      . contradiction
    refine hok.distinct i (s.mem.praVaddr page / pgsize) j (s.mem.praVaddr page / pgsize) ?_ ?_ ?_ ?_
    . rw [setOut_out, if_pos ⟨rfl, rfl⟩]
      simp
    . rw [setOut_out, if_neg fun heq => hji heq.1]
      exact hout
    . intro heq
      exact hji (Prod.mk.inj heq).1.symm
    . simp only [setOut, hpte, if_neg fun heq : j = i ∧ _ => hji heq.1, (h.swapped j _ hout).1]
      simp

omit [DecidableEq κ] in
theorem init_inv (mem : SwapMem κ) : (init mem).Inv :=
  ⟨fun _ _ hout => absurd rfl hout, fun _ _ _ hout => by simp [init] at hout, fun _ _ _ hout => absurd rfl hout,
    fun _ _ _ => .inl rfl⟩

/--
In a run of faults and evictions the pages that are swapped out keep apart, keep their contents, and no
eviction panics, exactly if every eviction finds its slot in the range of the device and no other address space
has its page of that number there.
-/
theorem swap_slots_apart_iff (mem : SwapMem κ) (events : List (SwapEvent κ))
    (hlegal : Run.Admits step Legal (init mem) events)
    : Run.Always step SlotsOk (init mem) events ↔ Run.Admits step SlotFree (init mem) events := by
  refine Run.always_iff_admits (I := Inv) (fun s => Inv.slotsOk) ?_ ?_ (init_inv mem) hlegal
  . intro s ev hinv hlegal hfree
    cases ev with
    | fault i addr page perm => exact hinv.fault hlegal
    | evict i page => exact hinv.evict hlegal hfree
    | remove i la => exact ⟨_, rfl, hinv.remove⟩
    | write page content => exact ⟨_, rfl, hinv.swapped, hinv.content, hinv.alone, hinv.resident⟩
  . intro s ev hinv _ hfree s' hstep
    exact hinv.clash hfree hstep

/--
The device of the kernel has room for seven pages.
-/
def bootMem (κ : Type) : SwapMem κ := ⟨fun _ _ => 0, fun _ => 0, fun _ _ => 0, fun _ _ => 0, 7⟩

theorem swap_slots_apart_reload : Run.Always step SlotsOk (init (bootMem Unit))
    [.fault () 0x1004 3 0x16, .write 3 fun _ => 5, .evict () 3, .fault () 0x2000 3 0x16, .fault () 0x1000 4 0x16] :=
  (swap_slots_apart_iff (bootMem Unit) _ (by decide +kernel)).mpr (by decide +kernel)

theorem not_swap_slots_apart : ¬∀ (mem : SwapMem Bool) (events : List (SwapEvent Bool)),
    Run.Admits step Legal (init mem) events → Run.Always step SlotsOk (init mem) events := by
  intro hclaim
  -- both address spaces use the page at 0x1000, and both of these pages go to slot 2
  obtain ⟨s, hexec, hok⟩ := (hclaim (bootMem Bool)
    [.fault false 0x1000 3 0x16, .fault true 0x1000 4 0x16, .evict false 3, .evict true 4] (by decide +kernel)).exec
  have hslots : (Run.exec step (init (bootMem Bool))
      [.fault false 0x1000 3 0x16, .fault true 0x1000 4 0x16, .evict false 3, .evict true 4]).map (fun s =>
        ((s.out false 1).isSome, (s.out true 1).isSome, s.mem.pte false 1 >>> 8, s.mem.pte true 1 >>> 8)) =
      some (true, true, 2, 2) := by
    decide +kernel
  rw [hexec, Option.map_some, Option.some_inj] at hslots
  simp only [Prod.mk.injEq] at hslots
  obtain ⟨hout, hout', hslot, hslot'⟩ := hslots
  refine hok.distinct false 1 true 1 ?_ ?_ (by decide) (hslot.trans hslot'.symm)
  . exact Option.isSome_iff_ne_none.mp hout
  . exact Option.isSome_iff_ne_none.mp hout'

end SwapSys
end Lab3
end Ucore

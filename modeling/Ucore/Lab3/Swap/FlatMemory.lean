import Ucore.Lab3.Swap.Lists

/-!
This module contains the memory of one address space of lab3 as its process sees it: reads and writes that
fault, `do_pgfault` with the evictions of `alloc_page`, and the flat memory they behave like.
-/

namespace Ucore
namespace Lab3

structure SwapSpace where
  mem : SwapMem Unit
  list : PraList

def pteR : Nat := 0x002

def pteW : Nat := 0x004

def pteU : Nat := 0x010

/--
`VM_WRITE` is bit 1 of the flags of an area.
-/
def vmWrite (flags : Nat) : Bool := flags.testBit 1

/--
The permissions that `do_pgfault` gives to a page.
-/
def perm (flags : Nat) : Nat := if vmWrite flags then pteU ||| (pteR ||| pteW) else pteU

/--
An entry lets the processor load or store.
-/
def allowed (pte : Nat) (store : Bool) : Bool := valid pte && pte.testBit 1 && (!store || pte.testBit 2)

theorem mod_pgsize_lt (addr : Nat) : addr % pgsize < pgsize := Nat.mod_lt addr (by decide)

def pageOffset (addr : Nat) : Fin pgsize := ⟨addr % pgsize, mod_pgsize_lt addr⟩

namespace SwapSpace

/--
`swap_out` of one page, with the frame that it frees.
-/
def swapOut (sm : SwapManager) (s : SwapSpace) : Option (Nat × SwapSpace) :=
  (s.list.swapOutVictim sm).bind fun (page, list) =>
    (s.mem.swapOutRound () page).map fun mem => (page, ⟨mem, list⟩)

/--
`free` is what the manager of the physical pages finds. Where it finds nothing, it finds the victim of
`swap_out` in the next round.
-/
def allocPage (sm : SwapManager) (s : SwapSpace) (free : Option Nat) : Option (Nat × SwapSpace) :=
  match free with
  | some page => some (page, s)
  | none => s.swapOut sm

/--
`page_insert`, `swap_map_swappable` and the assignment of `pra_vaddr`.
-/
def mapPage (sm : SwapManager) (s : SwapSpace) (page la perm : Nat) : SwapSpace :=
  ⟨(s.mem.pageInsert () page la perm).setPraVaddr page la, s.list.mapSwappable page sm⟩

/--
`do_pgfault`, `vmFlags` are the flags of the area that `find_vma` gives for a page. The trap handler panics
where there is none.
-/
def doPgfault (sm : SwapManager) (vmFlags : Nat → Option Nat) (s : SwapSpace) (addr : Nat) (free : Option Nat)
    : Option SwapSpace :=
  (vmFlags (addr / pgsize)).bind fun flags =>
    let la := addr / pgsize * pgsize
    if s.mem.pte () (la / pgsize) = 0 then
      (s.allocPage sm free).map fun (page, s) => s.mapPage sm page la (perm flags)
    else
      (s.allocPage sm free).bind fun (page, s) =>
        (s.mem.swapIn () la page).map fun mem => { s with mem }.mapPage sm page la (perm flags)

/--
The processor repeats the access after each fault. `frees` is for the faults one after the other, there is no
result where the access takes more faults than that.
-/
def access (sm : SwapManager) (vmFlags : Nat → Option Nat) (addr : Nat) (store : Bool) (s : SwapSpace)
    : List (Option Nat) → Option SwapSpace
  | [] => if allowed (s.mem.pte () (addr / pgsize)) store then some s else none
  | free :: frees =>
    if allowed (s.mem.pte () (addr / pgsize)) store then
      some s
    else
      (s.doPgfault sm vmFlags addr free).bind fun s => s.access sm vmFlags addr store frees

def load (s : SwapSpace) (addr : Nat) : BitVec 8 :=
  s.mem.data (pte2page (s.mem.pte () (addr / pgsize))) (pageOffset addr)

def store (s : SwapSpace) (addr : Nat) (b : BitVec 8) : SwapSpace :=
  let page := pte2page (s.mem.pte () (addr / pgsize))
  { s with mem := { s.mem with
    data := Function.update s.mem.data page (Function.update (s.mem.data page) (pageOffset addr) b) } }

/--
The memory of the process, where `flat` has the bytes that it has written.
-/
structure Holds (sm : SwapManager) (vmFlags : Nat → Option Nat) (s : SwapSpace) (flat : Nat → Option (BitVec 8))
    : Prop where
  linked : s.list.WellLinked sm
  resident : ∀ page ∈ s.list.pages, ∃ flags, vmFlags (s.mem.praVaddr page / pgsize) = some flags ∧
    s.mem.pte () (s.mem.praVaddr page / pgsize) = pteCreate page (pteV ||| perm flags)
  entries : ∀ vpn, s.mem.pte () vpn = 0 ∨ (∃ page ∈ s.list.pages, s.mem.praVaddr page / pgsize = vpn) ∨
    s.mem.pte () vpn = (vpn + 1) <<< 8
  range : ∀ vpn, s.mem.pte () vpn ≠ 0 → vpn + 1 < s.mem.maxSwapOffset
  inMemory : ∀ page ∈ s.list.pages, ∀ addr b, addr / pgsize = s.mem.praVaddr page / pgsize → flat addr = some b →
    s.mem.data page (pageOffset addr) = b
  onDisk : ∀ addr b, s.mem.pte () (addr / pgsize) = (addr / pgsize + 1) <<< 8 → flat addr = some b →
    s.mem.disk (addr / pgsize + 1) (pageOffset addr) = b
  untouched : ∀ addr, s.mem.pte () (addr / pgsize) = 0 → flat addr = none

variable {sm : SwapManager} {vmFlags : Nat → Option Nat} {s s' : SwapSpace} {flat : Nat → Option (BitVec 8)}
  {page la addr flags vpn : Nat} {b : BitVec 8}

theorem perm_lt (flags : Nat) : perm flags < 2 ^ 10 := by
  rw [perm]
  split <;> decide

theorem pte2page_perm (page flags : Nat) : pte2page (pteCreate page (pteV ||| perm flags)) = page :=
  ListSys.pte2page_pteCreate (perm_lt flags)

theorem allowed_perm (page : Nat) (hwrite : vmWrite flags) (store : Bool)
    : allowed (pteCreate page (pteV ||| perm flags)) store = true := by
  simp [allowed, valid, pteCreate, perm, hwrite, pteV, pteU, pteR, pteW, show Nat.testBit 23 1 = true by decide,
    show Nat.testBit 23 2 = true by decide]

theorem not_allowed_perm (page : Nat) (hwrite : ¬vmWrite flags) (store : Bool)
    : allowed (pteCreate page (pteV ||| perm flags)) store = false := by
  simp [allowed, pteCreate, perm, hwrite, pteV, pteU, show Nat.testBit 1 1 = false by decide,
    show Nat.testBit 17 1 = false by decide]

theorem Holds.valid_resident (h : s.Holds sm vmFlags flat) (hpage : page ∈ s.list.pages)
    : valid (s.mem.pte () (s.mem.praVaddr page / pgsize)) := by
  obtain ⟨flags, -, hpte⟩ := h.resident page hpage
  rw [hpte]
  exact SwapSys.valid_pteCreate _ _

/--
No two pages on the list are at one address.
-/
theorem Holds.page_unique (h : s.Holds sm vmFlags flat) {p q : Nat} (hp : p ∈ s.list.pages) (hq : q ∈ s.list.pages)
    (hvpn : s.mem.praVaddr p / pgsize = s.mem.praVaddr q / pgsize)
    : p = q := by
  obtain ⟨flags, -, hpte⟩ := h.resident p hp
  obtain ⟨flags', -, hpte'⟩ := h.resident q hq
  rw [← pte2page_perm p flags, ← pte2page_perm q flags', ← hpte, ← hpte', hvpn]

theorem not_valid_zero : ¬valid 0 = true := by decide

/--
The victim of an eviction goes to its slot with its bytes.
-/
theorem Holds.swapOut (h : s.Holds sm vmFlags flat) (hpages : s.list.pages ≠ [])
    : ∃ page s', s.swapOut sm = some (page, s') ∧ s'.Holds sm vmFlags flat ∧ page ∉ s'.list.pages ∧
      s'.mem.maxSwapOffset = s.mem.maxSwapOffset ∧
      ∀ vpn, ¬valid (s.mem.pte () vpn) → s'.mem.pte () vpn = s.mem.pte () vpn := by
  obtain ⟨page, list, hvictim, hperm, hlinked⟩ := h.linked.swapOutVictim hpages
  have hnodup := List.nodup_cons.mp (hperm.nodup_iff.mp h.linked.nodup)
  have hmem : page ∈ s.list.pages := hperm.mem_iff.mpr List.mem_cons_self
  have hsub : ∀ p ∈ list.pages, p ∈ s.list.pages := fun p hp => hperm.mem_iff.mpr (List.mem_cons_of_mem page hp)
  have hvalid := h.valid_resident hmem
  have hne : s.mem.pte () (s.mem.praVaddr page / pgsize) ≠ 0 := by
    intro hzero
    rw [hzero] at hvalid
    exact not_valid_zero hvalid
  have hround := SwapSys.swapOutRound_eq hvalid (h.range _ hne)
  have hstep : s.swapOut sm = some (page, ⟨_, list⟩) :=
    Option.bind_eq_some_iff.mpr ⟨_, hvictim, Option.map_eq_some_iff.mpr ⟨_, hround, rfl⟩⟩
  have hother : ∀ p ∈ list.pages, s.mem.praVaddr p / pgsize ≠ s.mem.praVaddr page / pgsize := by
    intro p hp hvpn
    exact hnodup.1 (h.page_unique (hsub p hp) hmem hvpn ▸ hp)
  refine ⟨page, _, hstep, ⟨hlinked, ?_, ?_, ?_, ?_, ?_, ?_⟩, hnodup.1, rfl, ?_⟩
  . intro p hp
    obtain ⟨flags, hflags, hpte⟩ := h.resident p (hsub p hp)
    refine ⟨flags, hflags, ?_⟩
    rw [SwapSys.setPte_pte, if_neg fun heq => hother p hp heq.2]
    exact hpte
  . intro vpn
    rw [SwapSys.setPte_pte]
    split
    next heq => exact .inr (.inr (by rw [heq.2]))
    next hvpn =>
      rcases h.entries vpn with hzero | ⟨p, hp, rfl⟩ | hslot
      . exact .inl hzero
      . rcases List.mem_cons.mp (hperm.mem_iff.mp hp) with rfl | hp
        . exact absurd ⟨rfl, rfl⟩ hvpn
        . exact .inr (.inl ⟨p, hp, rfl⟩)
      . exact .inr (.inr hslot)
  . intro vpn hnonzero
    rw [SwapSys.setPte_pte] at hnonzero
    split at hnonzero
    next heq =>
      rw [heq.2]
      exact h.range _ hne
    . exact h.range vpn hnonzero
  . intro p hp addr b hvpn hflat
    exact h.inMemory p (hsub p hp) addr b hvpn hflat
  . intro addr b hslot hflat
    rw [SwapSys.setPte_pte] at hslot
    show Function.update s.mem.disk (s.mem.praVaddr page / pgsize + 1) (s.mem.data page) (addr / pgsize + 1)
      (pageOffset addr) = b
    split at hslot
    next heq =>
      rw [heq.2, Function.update_self]
      exact h.inMemory page hmem addr b heq.2 hflat
    next hvpn =>
      rw [Function.update_of_ne fun heq => hvpn ⟨rfl, Nat.succ_injective heq⟩]
      exact h.onDisk addr b hslot hflat
  . intro addr hzero
    rw [SwapSys.setPte_pte] at hzero
    split at hzero
    . exact absurd hzero (SwapSys.slot_ne_zero _)
    . exact h.untouched addr hzero
  . intro vpn hinvalid
    rw [SwapSys.setPte_pte, if_neg]
    rintro ⟨-, rfl⟩
    exact hinvalid hvalid

theorem Holds.allocPage (h : s.Holds sm vmFlags flat) {free : Option Nat}
    (hfree : ∀ page, free = some page → page ∉ s.list.pages) (hpages : free = none → s.list.pages ≠ [])
    : ∃ page s', s.allocPage sm free = some (page, s') ∧ s'.Holds sm vmFlags flat ∧ page ∉ s'.list.pages ∧
      s'.mem.maxSwapOffset = s.mem.maxSwapOffset ∧
      ∀ vpn, ¬valid (s.mem.pte () vpn) → s'.mem.pte () vpn = s.mem.pte () vpn := by
  cases free with
  | some page => exact ⟨page, s, rfl, h, hfree page rfl, rfl, fun _ _ => rfl⟩
  | none => exact h.swapOut (hpages rfl)

/--
A page that is read from the disk into a frame that nobody uses.
-/
theorem Holds.fill (h : s.Holds sm vmFlags flat) (hnew : page ∉ s.list.pages) (content : PageData)
    : Holds sm vmFlags { s with mem := { s.mem with data := Function.update s.mem.data page content } } flat := by
  refine ⟨h.linked, h.resident, h.entries, h.range, ?_, h.onDisk, h.untouched⟩
  intro p hp addr b hvpn hflat
  show Function.update s.mem.data page content p (pageOffset addr) = b
  rw [Function.update_of_ne (ne_of_mem_of_not_mem hp hnew)]
  exact h.inMemory p hp addr b hvpn hflat

/--
A page comes to an address that has none.
-/
theorem Holds.mapPage (h : s.Holds sm vmFlags flat) (hnew : page ∉ s.list.pages)
    (hentry : ¬valid (s.mem.pte () (la / pgsize))) (hflags : vmFlags (la / pgsize) = some flags)
    (hrange : la / pgsize + 1 < s.mem.maxSwapOffset)
    (hcontent : ∀ addr b, addr / pgsize = la / pgsize → flat addr = some b → s.mem.data page (pageOffset addr) = b)
    : (s.mapPage sm page la (perm flags)).Holds sm vmFlags flat := by
  have hlist := s.list.mapSwappable_pages_perm page sm
  have hmem : ∀ p, p ∈ (s.list.mapSwappable page sm).pages ↔ p = page ∨ p ∈ s.list.pages :=
    fun p => hlist.mem_iff.trans List.mem_cons
  have hvaddr : ∀ p ∈ s.list.pages, Function.update s.mem.praVaddr page la p = s.mem.praVaddr p := by
    intro p hp
    exact Function.update_of_ne (ne_of_mem_of_not_mem hp hnew) la s.mem.praVaddr
  have hpte : ∀ vpn, (s.mapPage sm page la (perm flags)).mem.pte () vpn =
      if vpn = la / pgsize then pteCreate page (pteV ||| perm flags) else s.mem.pte () vpn := by
    intro vpn
    have hinsert : (s.mapPage sm page la (perm flags)).mem.pte () vpn = _ :=
      ListSys.pageInsert_pte s.mem () page la (perm flags) () vpn
    simpa only [true_and] using hinsert
  refine ⟨h.linked.mapSwappable hnew, ?_, ?_, ?_, ?_, ?_, ?_⟩
  . intro p hp
    show ∃ flags', vmFlags (Function.update s.mem.praVaddr page la p / pgsize) = some flags' ∧
      (s.mapPage sm page la (perm flags)).mem.pte () (Function.update s.mem.praVaddr page la p / pgsize) =
        pteCreate p (pteV ||| perm flags')
    rcases (hmem p).mp hp with rfl | hp
    . rw [Function.update_self, hpte, if_pos rfl]
      exact ⟨flags, hflags, rfl⟩
    . have hne : s.mem.praVaddr p / pgsize ≠ la / pgsize := by
        intro hvpn
        exact hentry (hvpn ▸ h.valid_resident hp)
      rw [hvaddr p hp, hpte, if_neg hne]
      exact h.resident p hp
  . intro vpn
    rw [hpte]
    split
    next heq =>
      refine .inr (.inl ⟨page, (hmem page).mpr (.inl rfl), ?_⟩)
      show Function.update s.mem.praVaddr page la page / pgsize = vpn
      rw [Function.update_self, heq]
    . rcases h.entries vpn with hzero | ⟨p, hp, hvpn⟩ | hslot
      . exact .inl hzero
      . refine .inr (.inl ⟨p, (hmem p).mpr (.inr hp), ?_⟩)
        show Function.update s.mem.praVaddr page la p / pgsize = vpn
        rw [hvaddr p hp, hvpn]
      . exact .inr (.inr hslot)
  . intro vpn hnonzero
    rw [hpte] at hnonzero
    split at hnonzero
    next heq => exact heq ▸ hrange
    . exact h.range vpn hnonzero
  . intro p hp addr b hvpn hflat
    replace hvpn : addr / pgsize = Function.update s.mem.praVaddr page la p / pgsize := hvpn
    rcases (hmem p).mp hp with rfl | hp
    . rw [Function.update_self] at hvpn
      exact hcontent addr b hvpn hflat
    . rw [hvaddr p hp] at hvpn
      exact h.inMemory p hp addr b hvpn hflat
  . intro addr b hslot hflat
    rw [hpte] at hslot
    split at hslot
    . exact absurd (hslot ▸ SwapSys.valid_pteCreate page (pteV ||| perm flags)) (SwapSys.not_valid_slot _)
    . exact h.onDisk addr b hslot hflat
  . intro addr hzero
    rw [hpte] at hzero
    split at hzero
    . exact absurd (hzero ▸ SwapSys.valid_pteCreate page (pteV ||| perm flags)) not_valid_zero
    . exact h.untouched addr hzero

theorem mapPage_pte (sm : SwapManager) (s : SwapSpace) (page addr perm : Nat)
    : (s.mapPage sm page (addr / pgsize * pgsize) perm).mem.pte () (addr / pgsize) =
      pteCreate page (pteV ||| perm) := by
  have hinsert : (s.mapPage sm page (addr / pgsize * pgsize) perm).mem.pte () (addr / pgsize) = _ :=
    ListSys.pageInsert_pte s.mem () page (addr / pgsize * pgsize) perm () (addr / pgsize)
  rw [hinsert, if_pos ⟨rfl, (Nat.mul_div_cancel _ (by decide)).symm⟩]

/--
After `do_pgfault` the entry has the permissions of the area.
-/
theorem doPgfault_pte {free : Option Nat} (hfault : s.doPgfault sm vmFlags addr free = some s')
    : ∃ flags page, vmFlags (addr / pgsize) = some flags ∧
      s'.mem.pte () (addr / pgsize) = pteCreate page (pteV ||| perm flags) := by
  obtain ⟨flags, hflags, hfault⟩ := Option.bind_eq_some_iff.mp hfault
  refine ⟨flags, ?_⟩
  dsimp only at hfault
  split at hfault
  . obtain ⟨⟨page, s₁⟩, -, rfl⟩ := Option.map_eq_some_iff.mp hfault
    exact ⟨page, hflags, mapPage_pte sm s₁ page addr (perm flags)⟩
  . obtain ⟨⟨page, s₁⟩, -, hfault⟩ := Option.bind_eq_some_iff.mp hfault
    obtain ⟨mem, -, rfl⟩ := Option.map_eq_some_iff.mp hfault
    exact ⟨page, hflags, mapPage_pte sm _ page addr (perm flags)⟩

/--
An access to an area without `VM_WRITE` faults again and again.
-/
theorem access_none (hflags : vmFlags (addr / pgsize) = some flags) (hwrite : ¬vmWrite flags) {store : Bool}
    (hpte : allowed (s.mem.pte () (addr / pgsize)) store = false) (frees : List (Option Nat))
    : s.access sm vmFlags addr store frees = none := by
  induction frees generalizing s with
  | nil => simp [access, hpte]
  | cons free frees ih =>
    simp only [access, hpte, Bool.false_eq_true, if_false, Option.bind_eq_none_iff]
    intro s' hfault
    obtain ⟨flags', page, hflags', hpte'⟩ := doPgfault_pte hfault
    obtain rfl : flags = flags' := by
      rw [hflags, Option.some_inj] at hflags'
      exact hflags'
    exact ih (by rw [hpte', not_allowed_perm page hwrite])

theorem Holds.absent_not_valid (h : s.Holds sm vmFlags flat)
    (habsent : ¬∃ page ∈ s.list.pages, s.mem.praVaddr page / pgsize = vpn)
    : ¬valid (s.mem.pte () vpn) = true := by
  rcases h.entries vpn with hzero | hpage | hslot
  . rw [hzero]
    exact not_valid_zero
  . exact absurd hpage habsent
  . rw [hslot]
    exact SwapSys.not_valid_slot _

/--
`do_pgfault` brings a page that is not there, be it new or on the disk, also where its frame comes from an
eviction.
-/
theorem Holds.doPgfault (h : s.Holds sm vmFlags flat) (hflags : vmFlags (addr / pgsize) = some flags)
    (hrange : addr / pgsize + 1 < s.mem.maxSwapOffset)
    (habsent : ¬∃ page ∈ s.list.pages, s.mem.praVaddr page / pgsize = addr / pgsize) {free : Option Nat}
    (hfree : ∀ page, free = some page → page ∉ s.list.pages) (hpages : free = none → s.list.pages ≠ [])
    : ∃ s', s.doPgfault sm vmFlags addr free = some s' ∧ s'.Holds sm vmFlags flat ∧
      ∃ page ∈ s'.list.pages, s'.mem.praVaddr page / pgsize = addr / pgsize := by
  have hla : addr / pgsize * pgsize / pgsize = addr / pgsize := Nat.mul_div_cancel _ (by decide)
  have hinvalid := h.absent_not_valid habsent
  obtain ⟨page, s₁, halloc, h₁, hnew, hmax, hsame⟩ := h.allocPage hfree hpages
  have hmapped : ∀ s₂ : SwapSpace, ∃ p ∈ (s₂.mapPage sm page (addr / pgsize * pgsize) (perm flags)).list.pages,
      (s₂.mapPage sm page (addr / pgsize * pgsize) (perm flags)).mem.praVaddr p / pgsize = addr / pgsize := by
    intro s₂
    refine ⟨page, (s₂.list.mapSwappable_pages_perm page sm).mem_iff.mpr List.mem_cons_self, ?_⟩
    show Function.update s₂.mem.praVaddr page (addr / pgsize * pgsize) page / pgsize = addr / pgsize
    rw [Function.update_self, hla]
  replace hsame := hsame _ hinvalid
  simp only [SwapSpace.doPgfault, hflags, Option.bind_some, hla, halloc, Option.map_some]
  split
  next hzero =>
    refine ⟨_, rfl, h₁.mapPage hnew ?_ (hla.symm ▸ hflags) ?_ ?_, hmapped s₁⟩
    . rwa [hla, hsame]
    . rwa [hla, hmax]
    . intro addr' b hvpn hflat
      rw [hla] at hvpn
      rw [h.untouched addr' (hvpn ▸ hzero)] at hflat
      contradiction
  next hnonzero =>
    have hslot : s₁.mem.pte () (addr / pgsize) = (addr / pgsize + 1) <<< 8 := by
      rw [hsame]
      exact ((h.entries (addr / pgsize)).resolve_left hnonzero).resolve_left habsent
    have hread : s₁.mem.swapIn () (addr / pgsize * pgsize) page =
        some { s₁.mem with data := Function.update s₁.mem.data page (s₁.mem.disk (addr / pgsize + 1)) } := by
      rw [SwapMem.swapIn, hla, hslot, SwapMem.swapfsRead, SwapMem.swapOffset, SwapSys.slot_shiftRight]
      rw [if_pos ⟨Nat.succ_pos _, by rwa [hmax]⟩, Option.map_some]
    rw [hread, Option.map_some]
    refine ⟨_, rfl, (h₁.fill hnew _).mapPage hnew ?_ (hla.symm ▸ hflags) ?_ ?_, hmapped _⟩
    . rw [hla]
      exact hsame ▸ hinvalid
    . rw [hla]
      exact hmax ▸ hrange
    . intro addr' b hvpn hflat
      rw [hla] at hvpn
      show Function.update s₁.mem.data page (s₁.mem.disk (addr / pgsize + 1)) page (pageOffset addr') = b
      rw [Function.update_self, ← hvpn]
      exact h₁.onDisk addr' b (by rw [hvpn, hslot]) hflat

theorem Holds.allowed_resident (h : s.Holds sm vmFlags flat) (hpage : page ∈ s.list.pages)
    (hvpn : s.mem.praVaddr page / pgsize = vpn) (hflags : vmFlags vpn = some flags) (hwrite : vmWrite flags)
    (store : Bool)
    : allowed (s.mem.pte () vpn) store = true := by
  obtain ⟨flags', hflags', hpte⟩ := h.resident page hpage
  rw [hvpn] at hflags' hpte
  obtain rfl : flags = flags' := by
    rw [hflags, Option.some_inj] at hflags'
    exact hflags'
  rw [hpte]
  exact allowed_perm page hwrite store

/--
An access to an area with `VM_WRITE` ends after one fault at most, with the page in memory.
-/
theorem Holds.access (h : s.Holds sm vmFlags flat) (hflags : vmFlags (addr / pgsize) = some flags)
    (hwrite : vmWrite flags) (hrange : addr / pgsize + 1 < s.mem.maxSwapOffset) {free : Option Nat}
    (hfree : ∀ page, free = some page → page ∉ s.list.pages) (hpages : free = none → s.list.pages ≠ [])
    (store : Bool) (frees : List (Option Nat))
    : ∃ s', s.access sm vmFlags addr store (free :: frees) = some s' ∧ s'.Holds sm vmFlags flat ∧
      ∃ page ∈ s'.list.pages, s'.mem.praVaddr page / pgsize = addr / pgsize := by
  by_cases hpresent : ∃ page ∈ s.list.pages, s.mem.praVaddr page / pgsize = addr / pgsize
  . obtain ⟨page, hpage, hvpn⟩ := hpresent
    refine ⟨s, ?_, h, page, hpage, hvpn⟩
    rw [SwapSpace.access, if_pos (h.allowed_resident hpage hvpn hflags hwrite store)]
  . have hdenied : ¬allowed (s.mem.pte () (addr / pgsize)) store = true := by
      simp [allowed, h.absent_not_valid hpresent]
    obtain ⟨s', hfault, h', page, hpage, hvpn⟩ := h.doPgfault hflags hrange hpresent hfree hpages
    have hallowed := h'.allowed_resident hpage hvpn hflags hwrite store
    refine ⟨s', ?_, h', page, hpage, hvpn⟩
    rw [SwapSpace.access, if_neg hdenied, hfault, Option.bind_some]
    cases frees <;> rw [SwapSpace.access, if_pos hallowed]

/--
A load from a page in memory gives the byte that was written there.
-/
theorem Holds.load (h : s.Holds sm vmFlags flat) (hpage : page ∈ s.list.pages)
    (hvpn : s.mem.praVaddr page / pgsize = addr / pgsize) (hflat : flat addr = some b)
    : s.load addr = b := by
  obtain ⟨flags, -, hpte⟩ := h.resident page hpage
  rw [SwapSpace.load, ← hvpn, hpte, pte2page_perm]
  exact h.inMemory page hpage addr b hvpn.symm hflat

theorem pageOffset_inj {addr addr' : Nat} (hvpn : addr / pgsize = addr' / pgsize)
    (hoffset : pageOffset addr = pageOffset addr')
    : addr = addr' := by
  have hmod : addr % pgsize = addr' % pgsize := congrArg Fin.val hoffset
  rw [← Nat.div_add_mod addr pgsize, ← Nat.div_add_mod addr' pgsize, hvpn, hmod]

theorem Holds.store (h : s.Holds sm vmFlags flat) (hpage : page ∈ s.list.pages)
    (hvpn : s.mem.praVaddr page / pgsize = addr / pgsize)
    : (s.store addr b).Holds sm vmFlags (Function.update flat addr (some b)) := by
  obtain ⟨flags, -, hpte⟩ := h.resident page hpage
  have hstore : pte2page (s.mem.pte () (addr / pgsize)) = page := by rw [← hvpn, hpte, pte2page_perm]
  have hvalid : valid (s.mem.pte () (addr / pgsize)) = true := hvpn ▸ h.valid_resident hpage
  -- the bytes on the disk are those of other pages
  have hother : ∀ addr', ¬valid (s.mem.pte () (addr' / pgsize)) = true →
      Function.update flat addr (some b) addr' = flat addr' := by
    intro addr' hinvalid
    refine Function.update_of_ne ?_ _ _
    rintro rfl
    exact hinvalid hvalid
  refine ⟨h.linked, h.resident, h.entries, h.range, ?_, ?_, ?_⟩
  . intro p hp addr' b' hvpn' hflat
    show Function.update s.mem.data (pte2page (s.mem.pte () (addr / pgsize)))
      (Function.update (s.mem.data (pte2page (s.mem.pte () (addr / pgsize)))) (pageOffset addr) b) p
        (pageOffset addr') = b'
    rw [hstore]
    by_cases haddr : addr' = addr
    . subst haddr
      obtain rfl := h.page_unique hp hpage (hvpn'.symm.trans hvpn.symm)
      rw [Function.update_self, Function.update_self]
      rwa [Function.update_self, Option.some_inj] at hflat
    . rw [Function.update_of_ne haddr] at hflat
      by_cases hsame : p = page
      . subst hsame
        have hoffset : pageOffset addr' ≠ pageOffset addr := fun heq => haddr (pageOffset_inj (hvpn'.trans hvpn) heq)
        rw [Function.update_self, Function.update_of_ne hoffset]
        exact h.inMemory p hp addr' b' hvpn' hflat
      . rw [Function.update_of_ne hsame]
        exact h.inMemory p hp addr' b' hvpn' hflat
  . intro addr' b' hslot hflat
    rw [hother addr' (by
      rw [show s.mem.pte () (addr' / pgsize) = _ from hslot]
      exact SwapSys.not_valid_slot _)] at hflat
    exact h.onDisk addr' b' hslot hflat
  . intro addr' hzero
    rw [hother addr' (by rw [show s.mem.pte () (addr' / pgsize) = 0 from hzero]; exact not_valid_zero)]
    exact h.untouched addr' hzero

end SwapSpace
end Lab3
end Ucore

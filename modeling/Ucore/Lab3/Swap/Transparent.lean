import Ucore.Lab3.Swap.FlatMemory

/-!
This module contains the runs of a process of lab3 whose pages come and go, against the flat memory.
-/

namespace Ucore
namespace Lab3

/--
`flat` is the flat memory, `none` where nothing has been written. `result` is the address and the value of the
last event if it was a read.
-/
structure PagedSys where
  space : SwapSpace
  flat : Nat → Option (BitVec 8)
  result : Option (Nat × BitVec 8)

/--
`free` and `frees` are what the manager of the physical pages finds in the faults of the access. Evictions for
other parts of the kernel, also those for a page table of the access, are events of their own.
-/
inductive PagedEvent where
  | read (addr : Nat) (free : Option Nat) (frees : List (Option Nat))
  | write (addr : Nat) (b : BitVec 8) (free : Option Nat) (frees : List (Option Nat))
  | evict

namespace PagedSys

def init (mem : SwapMem Unit) (visited : Nat → Bool) : PagedSys :=
  ⟨⟨{ mem with pte := fun _ _ => 0 }, ⟨[], none, visited⟩⟩, fun _ => none, none⟩

def step (sm : SwapManager) (vmFlags : Nat → Option Nat) (s : PagedSys) : PagedEvent → Option PagedSys
  | .read addr free frees =>
    (s.space.access sm vmFlags addr false (free :: frees)).map fun space =>
      { s with space, result := some (addr, space.load addr) }
  | .write addr b free frees =>
    (s.space.access sm vmFlags addr true (free :: frees)).map fun space =>
      ⟨space.store addr b, Function.update s.flat addr (some b), none⟩
  | .evict => (s.space.swapOut sm).map fun (_, space) => { s with space, result := none }

/--
The address is in an area, its page has a slot on the device, and a frame that the kernel gives is not in use.
-/
def LegalAccess (vmFlags : Nat → Option Nat) (s : PagedSys) (addr : Nat) (free : Option Nat) : Prop :=
  vmFlags (addr / pgsize) ≠ none ∧ addr / pgsize + 1 < s.space.mem.maxSwapOffset ∧
    ∀ page, free = some page → page ∉ s.space.list.pages

def Legal (vmFlags : Nat → Option Nat) (s : PagedSys) : PagedEvent → Prop
  | .read addr free _ => s.LegalAccess vmFlags addr free
  | .write addr _ free _ => s.LegalAccess vmFlags addr free
  | .evict => True

instance LegalAccess.decidable (vmFlags : Nat → Option Nat) (s : PagedSys) (addr : Nat) (free : Option Nat)
    : Decidable (s.LegalAccess vmFlags addr free) :=
  inferInstanceAs (Decidable (vmFlags (addr / pgsize) ≠ none ∧
    addr / pgsize + 1 < s.space.mem.maxSwapOffset ∧ ∀ page ∈ free, page ∉ s.space.list.pages))

instance Legal.decidable (vmFlags : Nat → Option Nat) (s : PagedSys)
    : (ev : PagedEvent) → Decidable (s.Legal vmFlags ev)
  | .read addr free _ => inferInstanceAs (Decidable (s.LegalAccess vmFlags addr free))
  | .write addr _ free _ => inferInstanceAs (Decidable (s.LegalAccess vmFlags addr free))
  | .evict => isTrue trivial

/--
The area is writable, and there is a frame or a page to evict.
-/
def ServedAccess (vmFlags : Nat → Option Nat) (s : PagedSys) (addr : Nat) (free : Option Nat) : Prop :=
  (∀ flags, vmFlags (addr / pgsize) = some flags → vmWrite flags) ∧ (free = none → s.space.list.pages ≠ [])

def Served (vmFlags : Nat → Option Nat) (s : PagedSys) : PagedEvent → Prop
  | .read addr free _ => s.ServedAccess vmFlags addr free
  | .write addr _ free _ => s.ServedAccess vmFlags addr free
  | .evict => s.space.list.pages ≠ []

instance ServedAccess.decidable (vmFlags : Nat → Option Nat) (s : PagedSys) (addr : Nat) (free : Option Nat)
    : Decidable (s.ServedAccess vmFlags addr free) :=
  inferInstanceAs (Decidable ((∀ flags ∈ vmFlags (addr / pgsize), vmWrite flags = true) ∧
    (free = none → s.space.list.pages ≠ [])))

instance Served.decidable (vmFlags : Nat → Option Nat) (s : PagedSys)
    : (ev : PagedEvent) → Decidable (s.Served vmFlags ev)
  | .read addr free _ => inferInstanceAs (Decidable (s.ServedAccess vmFlags addr free))
  | .write addr _ free _ => inferInstanceAs (Decidable (s.ServedAccess vmFlags addr free))
  | .evict => inferInstanceAs (Decidable (s.space.list.pages ≠ []))

/--
A read has given the value last written to its address.
-/
def Answers (s : PagedSys) : Prop := ∀ addr b, s.result = some (addr, b) → ∀ v, s.flat addr = some v → b = v

structure Inv (sm : SwapManager) (vmFlags : Nat → Option Nat) (s : PagedSys) : Prop where
  holds : s.space.Holds sm vmFlags s.flat
  answers : s.Answers

variable {sm : SwapManager} {vmFlags : Nat → Option Nat} {s s' : PagedSys} {addr : Nat} {free : Option Nat}

theorem Inv.access (h : s.Inv sm vmFlags) (hlegal : s.LegalAccess vmFlags addr free)
    (hserved : s.ServedAccess vmFlags addr free) (store : Bool) (frees : List (Option Nat))
    : ∃ space, s.space.access sm vmFlags addr store (free :: frees) = some space ∧
      space.Holds sm vmFlags s.flat ∧ ∃ page ∈ space.list.pages, space.mem.praVaddr page / pgsize = addr / pgsize := by
  obtain ⟨harea, hrange, hfree⟩ := hlegal
  obtain ⟨flags, hflags⟩ := Option.ne_none_iff_exists'.mp harea
  exact h.holds.access hflags (hserved.1 flags hflags) hrange hfree hserved.2 store frees

theorem Inv.swapOut_none (h : s.Inv sm vmFlags) (hpages : s.space.list.pages = []) : s.space.swapOut sm = none := by
  have hvictim : s.space.list.swapOutVictim sm = none := by
    cases sm with
    | fifo => simp [PraList.swapOutVictim, PraList.fifoSwapOutVictim, hpages]
    | clock =>
      have hcurr : s.space.list.currPtr = none := by
        by_contra hne
        obtain ⟨page, hpage⟩ := Option.ne_none_iff_exists'.mp hne
        have hmem := h.holds.linked.curr rfl page hpage
        rw [hpages] at hmem
        contradiction
      simp [PraList.swapOutVictim, PraList.clockSwapOutVictim, PraList.clockLoop, PraList.listNext, hpages, hcurr]
  rw [SwapSpace.swapOut, hvictim, Option.bind_none]

/--
An access outside of the writable areas does not return, and neither does one that finds neither a frame nor a
page to evict.
-/
theorem Inv.access_none (h : s.Inv sm vmFlags) (hlegal : s.LegalAccess vmFlags addr free)
    (hserved : ¬s.ServedAccess vmFlags addr free) (store : Bool) (frees : List (Option Nat))
    : s.space.access sm vmFlags addr store (free :: frees) = none := by
  obtain ⟨harea, hrange, hfree⟩ := hlegal
  obtain ⟨flags, hflags⟩ := Option.ne_none_iff_exists'.mp harea
  by_cases hwrite : vmWrite flags
  . obtain ⟨hnone, hpages⟩ : free = none ∧ s.space.list.pages = [] := by
      by_contra hsome
      refine hserved ⟨?_, fun hnone hpages => hsome ⟨hnone, hpages⟩⟩
      intro flags' hflags'
      rw [hflags, Option.some_inj] at hflags'
      exact hflags' ▸ hwrite
    have habsent : ¬∃ page ∈ s.space.list.pages, s.space.mem.praVaddr page / pgsize = addr / pgsize := by
      simp [hpages]
    have halloc : s.space.allocPage sm free = none := by rw [hnone, SwapSpace.allocPage, h.swapOut_none hpages]
    have hdenied : ¬allowed (s.space.mem.pte () (addr / pgsize)) store = true := by
      simp [allowed, h.holds.absent_not_valid habsent]
    have hfault : s.space.doPgfault sm vmFlags addr free = none := by
      simp [SwapSpace.doPgfault, hflags, halloc]
    rw [SwapSpace.access, if_neg hdenied, hfault, Option.bind_none]
  . refine SwapSpace.access_none hflags hwrite ?_ _
    rcases h.holds.entries (addr / pgsize) with hzero | ⟨page, hpage, hvpn⟩ | hslot
    . simp [hzero, allowed, SwapSpace.not_valid_zero]
    . obtain ⟨flags', hflags', hpte⟩ := h.holds.resident page hpage
      rw [hvpn] at hflags' hpte
      rw [hflags, Option.some_inj] at hflags'
      rw [hpte, SwapSpace.not_allowed_perm page (hflags' ▸ hwrite)]
    . simp [hslot, allowed, SwapSys.not_valid_slot]

theorem init_inv (mem : SwapMem Unit) (visited : Nat → Bool) : (init mem visited).Inv sm vmFlags :=
  ⟨⟨⟨List.nodup_nil, fun _ _ => nofun⟩, fun _ => nofun, fun _ => .inl rfl, fun _ hne => absurd rfl hne,
    fun _ => nofun, fun _ _ _ => nofun, fun _ _ => rfl⟩, fun _ _ => nofun⟩

/--
Every access returns, and every read gives the value last written, throughout the runs whose accesses are to
writable areas and find a frame or a page to evict, and in no other runs.
-/
theorem swapping_transparent_iff (sm : SwapManager) (vmFlags : Nat → Option Nat) (mem : SwapMem Unit)
    (visited : Nat → Bool) (events : List PagedEvent)
    (hlegal : Run.Admits (step sm vmFlags) (Legal vmFlags) (init mem visited) events)
    : Run.Always (step sm vmFlags) Answers (init mem visited) events ↔
      Run.Admits (step sm vmFlags) (Served vmFlags) (init mem visited) events := by
  refine Run.always_iff_admits (I := Inv sm vmFlags) (fun s h => h.answers) ?_ ?_ (init_inv mem visited) hlegal
  . intro s ev hinv hlegal hserved
    cases ev with
    | read addr free frees =>
      obtain ⟨space, haccess, hholds, page, hpage, hvpn⟩ := hinv.access hlegal hserved false frees
      refine ⟨_, Option.map_eq_some_iff.mpr ⟨space, haccess, rfl⟩, hholds, ?_⟩
      intro addr' b hresult v hflat
      obtain ⟨rfl, rfl⟩ := Prod.mk.inj (Option.some_inj.mp hresult)
      exact hholds.load hpage hvpn hflat
    | write addr b free frees =>
      obtain ⟨space, haccess, hholds, page, hpage, hvpn⟩ := hinv.access hlegal hserved true frees
      exact ⟨_, Option.map_eq_some_iff.mpr ⟨space, haccess, rfl⟩, hholds.store hpage hvpn, fun _ _ => nofun⟩
    | evict =>
      obtain ⟨page, space, hswap, hholds, -⟩ := hinv.holds.swapOut hserved
      exact ⟨_, Option.map_eq_some_iff.mpr ⟨_, hswap, rfl⟩, hholds, fun _ _ => nofun⟩
  . intro s ev hinv hlegal hserved s' hstep
    cases ev with
    | read addr free frees => simp [step, hinv.access_none hlegal hserved] at hstep
    | write addr b free frees => simp [step, hinv.access_none hlegal hserved] at hstep
    | evict => simp [step, hinv.swapOut_none (not_not.mp hserved)] at hstep

theorem swapping_transparent_one_frame
    : Run.Always (step .clock fun _ => some 3) Answers (init (SwapSys.bootMem Unit) fun _ => false)
      [.write 0x1004 7 (some 3) [], .write 0x2000 8 none [], .read 0x1004 none [], .evict, .read 0x2000 (some 5) []] :=
  (swapping_transparent_iff .clock _ _ _ _ (by decide +kernel)).mpr (by decide +kernel)

theorem not_swapping_transparent : ¬∀ (sm : SwapManager) (vmFlags : Nat → Option Nat) (mem : SwapMem Unit)
    (visited : Nat → Bool) (events : List PagedEvent),
      Run.Admits (step sm vmFlags) (Legal vmFlags) (init mem visited) events →
        Run.Always (step sm vmFlags) Answers (init mem visited) events := by
  intro hclaim
  -- an area with VM_READ alone: the page gets PTE_U and nothing else, and its frame is then taken for a slot
  obtain ⟨s, hexec, -⟩ := (hclaim .fifo (fun _ => some 1) (SwapSys.bootMem Unit) (fun _ => false)
    [.read 0x1000 (some 3) [some 4, some 5]] (by decide +kernel)).exec
  have hpanic : (Run.exec (step .fifo fun _ => some 1) (init (SwapSys.bootMem Unit) fun _ => false)
      [.read 0x1000 (some 3) [some 4, some 5]]).isSome = false := by
    decide +kernel
  rw [hexec] at hpanic
  contradiction

end PagedSys
end Lab3
end Ucore

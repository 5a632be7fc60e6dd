import Ucore.Kern.Trap.UserFault

/-!
This module contains what `do_pgfault` does for each kind of access and each combination of the flags of an area: it
does not look at the kind of the access, gives a page `PTE_R` with `VM_WRITE` only and never `PTE_X`, and takes every
entry that is not zero for a swap entry.
-/

namespace Ucore

inductive Access where
  | read
  | write
  | exec
  deriving DecidableEq

namespace Access

/--
The flag of the areas that permit the access.
-/
def vmFlag : Access → BitVec 32
  | .read => Vma.vmRead
  | .write => Vma.vmWrite
  | .exec => Vma.vmExec

/--
The bit of an entry that the processor looks at.
-/
def pteFlag : Access → BitVec 10
  | .read => Pte.pteR
  | .write => Pte.pteW
  | .exec => Pte.pteX

end Access

def Vma.Permits (vma : Vma) (access : Access) : Prop := vma.vmFlags &&& access.vmFlag ≠ 0

instance (vma : Vma) (access : Access) : Decidable (vma.Permits access) := inferInstanceAs (Decidable (_ ≠ _))

/--
An access from user mode does not fault.
-/
def Pte.Allows (pte : Pte) (access : Access) : Prop :=
  pte.valid = true ∧ pte.flags &&& Pte.pteU ≠ 0 ∧ pte.flags &&& access.pteFlag ≠ 0

def Pte.NoWider (pte : Pte) (vma : Vma) : Prop := ∀ access : Access, pte.flags &&& access.pteFlag ≠ 0 → vma.Permits access

namespace Paging

variable {ι : Type} [DecidableEq ι]

/--
The entry that `do_pgfault` hands over to `swap_in`, `none` if it does not come to that.
-/
def swapInEntry (pmm : PmmManager) (vmas : List Vma) (s : Paging ι) (i : ι) (addr : Nat) : Option Pte :=
  match vmas.find? fun vma => vma.Has addr with
  | none => none
  | some _ =>
    match s.getPteCreate pmm i (addr / pgsize * pgsize) with
    | (none, _) => none
    | (some pte, _) => if pte = Pte.zero then none else some pte

/--
A return with 0 leaves the page mapped with no more permissions than its area has, and with the one for an access
that the area permits. A forbidden access gets an error, and no valid entry is taken for a swap entry.
-/
def FaultSound (pmm : PmmManager) (swap : Pte → Option PageData) (vmas : List Vma) (s : Paging ι) (i : ι) (addr : Nat)
    (access : Access) : Prop :=
  (∀ vma t, (vmas.find? fun vma => vma.Has addr) = some vma → s.doPgfault pmm swap vmas i addr = some (0, t) →
    (t.entries (i, pteKey addr)).valid = true ∧
      (vma.Permits access → (t.entries (i, pteKey addr)).Allows access) ∧
      (t.entries (i, pteKey addr)).NoWider vma) ∧
  ((∀ vma, (vmas.find? fun vma => vma.Has addr) = some vma → ¬vma.Permits access) →
    ∃ ret t, s.doPgfault pmm swap vmas i addr = some (ret, t) ∧ ret ≠ 0) ∧
  ∀ pte, s.swapInEntry pmm vmas i addr = some pte → pte.valid = false

/--
There are free frames for the page and its tables, and a page that was touched before is on the swap disk.
-/
def CanLoad (swap : Pte → Option PageData) (s : Paging ι) (i : ι) (addr : Nat) : Prop :=
  UserTrap.tablesMissing s i addr < s.free.card ∧
    (s.entries (i, pteKey addr) = Pte.zero ∨ swap (s.entries (i, pteKey addr)) ≠ none)

/--
The faults that are serviced soundly: loads and stores in areas that can be read and written, on pages that are not
mapped; and those that cannot be serviced for want of memory, unless the access is forbidden and the page is on the
swap disk, where an assertion fails instead of an error.
-/
def Serviceable (swap : Pte → Option PageData) (vma : Vma) (s : Paging ι) (i : ι) (addr : Nat) (access : Access) : Prop :=
  (s.entries (i, pteKey addr)).valid = false ∧
    (vma.Permits .read ∧ vma.Permits .write ∧ access ≠ .exec ∨
      ¬CanLoad swap s i addr ∧ (s.entries (i, pteKey addr) = Pte.zero ∨ vma.Permits access))

variable {pmm : PmmManager} {swap : Pte → Option PageData} {vmas : List Vma} {vma : Vma} {s t : Paging ι} {i : ι}
  {la addr page : Nat} {pte : Pte} {access : Access} {ret : Int}

omit [DecidableEq ι] in
theorem getPte_of_ne_zero (hne : s.entries (i, pteKey la) ≠ Pte.zero)
    : s.getPte i la = some (s.entries (i, pteKey la)) := by
  apply getPte_of_tables
  unfold entries Pgdir.entryAt pteKey at hne
  unfold UserTrap.tablesMissing
  cases hpd : s.pgdirs i (pdx1 la) with
  | none => simp [hpd] at hne
  | some pd =>
    cases hpt : pd.tables (pdx0 la) with
    | none => simp [hpd, hpt] at hne
    | some pt => simp [hpt]

theorem getPteCreate_entries (hcreate : s.getPteCreate pmm i (addr / pgsize * pgsize) = (some pte, t))
    : pte = s.entries (i, pteKey addr) := by
  have hext := @getPteCreate_extends _ _ pmm s i (addr / pgsize * pgsize)
  rw [hcreate] at hext
  rw [← pteKey_pageStart, ← hext.entries, entries_of_getPte (getPteCreate_getPte hcreate)]

/--
Each entry that is not zero is handed over, valid or not.
-/
theorem swapInEntry_eq (hfind : (vmas.find? fun vma => vma.Has addr) = some vma)
    : s.swapInEntry pmm vmas i addr =
        if s.entries (i, pteKey addr) = Pte.zero then none else some (s.entries (i, pteKey addr)) := by
  rw [swapInEntry, hfind]
  dsimp only
  split
  next u hcreate =>
    split
    . rfl
    next hne =>
      rw [← pteKey_pageStart] at hne
      rw [getPteCreate_of_getPte (getPte_of_ne_zero hne)] at hcreate
      exact absurd (congrArg Prod.fst hcreate) (Option.some_ne_none _)
  next pte u hcreate => rw [getPteCreate_entries hcreate]

/--
The result depends on what is on the swap disk only at the entry that is handed over.
-/
theorem doPgfault_congr {swap' : Pte → Option PageData}
    (h : ∀ pte, s.swapInEntry pmm vmas i addr = some pte → swap' pte = swap pte)
    : s.doPgfault pmm swap' vmas i addr = s.doPgfault pmm swap vmas i addr := by
  unfold doPgfault
  unfold swapInEntry at h
  split
  . rfl
  next vma hfind =>
    rw [hfind] at h
    dsimp only at h ⊢
    split
    . rfl
    next pte u hcreate =>
      rw [hcreate] at h
      dsimp only at h
      split
      . rfl
      next hne =>
        rw [if_neg hne] at h
        rw [h pte rfl]

/--
An untouched page never makes an assertion fail.
-/
theorem doPgfault_of_zero (hzero : s.entries (i, pteKey addr) = Pte.zero)
    : ∃ ret t, s.doPgfault pmm swap vmas i addr = some (ret, t) := by
  unfold doPgfault
  split
  . exact ⟨_, _, rfl⟩
  dsimp only
  split
  . exact ⟨_, _, rfl⟩
  next pte u hcreate =>
    rw [if_pos ((getPteCreate_entries hcreate).trans hzero)]
    split <;> exact ⟨_, _, rfl⟩

/--
A page that was touched is brought back, or an assertion fails.
-/
theorem doPgfault_of_ne_zero (hfind : (vmas.find? fun vma => vma.Has addr) = some vma)
    (hne : s.entries (i, pteKey addr) ≠ Pte.zero) (hfault : s.doPgfault pmm swap vmas i addr = some (ret, t))
    : ret = 0 := by
  have hget : s.getPte i (addr / pgsize * pgsize) = some (s.entries (i, pteKey addr)) := by
    rw [← pteKey_pageStart addr] at hne ⊢
    exact getPte_of_ne_zero hne
  rw [doPgfault, hfind] at hfault
  dsimp only at hfault
  rw [getPteCreate_of_getPte hget] at hfault
  dsimp only at hfault
  rw [if_neg hne] at hfault
  split at hfault
  . contradiction
  next page u halloc =>
    split at hfault
    . contradiction
    next content hcontent =>
      have hget' : ({ u with data := Function.update u.data page content } : Paging ι).getPte i
          (addr / pgsize * pgsize) = some (s.entries (i, pteKey addr)) := by
        rw [← hget]
        simp only [getPte, allocPage_pgdirs halloc]
      rw [if_neg (not_not.mpr (pageInsert_of_getPte hget'))] at hfault
      exact (Prod.mk.inj (Option.some_inj.mp hfault)).1.symm

/--
What the entry of a serviced fault allows: loads and stores if the area can be written, and else nothing.
-/
theorem faultPerm_allows (page : Nat) (vma : Vma) (access : Access)
    : (Pte.pteCreate page (Pte.pteV ||| faultPerm vma)).flags &&& access.pteFlag ≠ 0 ↔
        vma.Permits .write ∧ access ≠ .exec := by
  by_cases hwrite : vma.vmFlags &&& Vma.vmWrite ≠ 0
  . have hperm : faultPerm vma = Pte.pteU ||| Pte.readWrite := if_pos hwrite
    have hpermits : vma.Permits .write := hwrite
    simp only [Pte.pteCreate, hperm, hpermits, true_and]
    cases access <;> decide
  . have hperm : faultPerm vma = Pte.pteU := if_neg hwrite
    have hpermits : ¬vma.Permits .write := hwrite
    simp only [Pte.pteCreate, hperm, hpermits, false_and]
    cases access <;> decide

/--
The entry that a service has made is sound exactly for loads and stores in areas that can be read and written.
-/
theorem faultPerm_sound (page : Nat) (vma : Vma) (access : Access)
    : ((Pte.pteCreate page (Pte.pteV ||| faultPerm vma)).Allows access ∧ vma.Permits access ∧
        (Pte.pteCreate page (Pte.pteV ||| faultPerm vma)).NoWider vma) ↔
      vma.Permits .read ∧ vma.Permits .write ∧ access ≠ .exec := by
  have hflags := UserTrap.faultPerm_flags page vma
  have hallows := faultPerm_allows page vma
  constructor
  . intro ⟨⟨_, _, hbit⟩, _, hwider⟩
    obtain ⟨hwrite, hexec⟩ := (hallows access).mp hbit
    exact ⟨hwider .read ((hallows .read).mpr ⟨hwrite, nofun⟩), hwrite, hexec⟩
  . intro ⟨hread, hwrite, hexec⟩
    refine ⟨⟨hflags.1, hflags.2.1, (hallows access).mpr ⟨hwrite, hexec⟩⟩, ?_, ?_⟩
    . cases access with
      | read => exact hread
      | write => exact hwrite
      | exec => contradiction
    . intro access' hbit
      cases access' with
      | read => exact hread
      | write => exact hwrite
      | exec => exact absurd rfl ((hallows .exec).mp hbit).2

theorem FaultSound.serviceable (hpmm : pmm.Complete) (hfind : (vmas.find? fun vma => vma.Has addr) = some vma)
    (h : s.FaultSound pmm swap vmas i addr access)
    : Serviceable swap vma s i addr access := by
  obtain ⟨hret, hforbidden, hvalid⟩ := h
  have hcases := @doPgfault_cases _ _ pmm s i vmas vma swap addr hpmm hfind
  have hentry := @swapInEntry_eq _ _ pmm vmas vma s i addr hfind
  have herror (hnot : ¬vma.Permits access) : ∃ ret t, s.doPgfault pmm swap vmas i addr = some (ret, t) ∧ ret ≠ 0 := by
    refine hforbidden fun v hv => ?_
    rw [hfind] at hv
    obtain rfl := Option.some_inj.mp hv
    exact hnot
  refine ⟨?_, ?_⟩
  . by_cases hzero : s.entries (i, pteKey addr) = Pte.zero
    . rw [hzero]
      rfl
    . rw [if_neg hzero] at hentry
      exact hvalid _ hentry
  by_cases hload : CanLoad swap s i addr
  . have hload' := hload
    unfold CanLoad at hload'
    rw [if_pos hload'] at hcases
    obtain ⟨t, page, hfault, hpte⟩ := hcases
    obtain ⟨-, hallows, hwider⟩ := hret vma t hfind hfault
    have hpermits : vma.Permits access := by
      by_contra hnot
      obtain ⟨ret, t', hfault', hne⟩ := herror hnot
      rw [hfault] at hfault'
      exact hne (Prod.mk.inj (Option.some_inj.mp hfault')).1.symm
    rw [hpte] at hallows hwider
    exact .inl ((faultPerm_sound page vma access).mp ⟨hallows hpermits, hpermits, hwider⟩)
  . refine .inr ⟨hload, ?_⟩
    by_cases hzero : s.entries (i, pteKey addr) = Pte.zero
    . exact .inl hzero
    . right
      by_contra hnot
      obtain ⟨ret, t, hfault, hne⟩ := herror hnot
      exact hne (doPgfault_of_ne_zero hfind hzero hfault)

theorem Serviceable.faultSound (hpmm : pmm.Complete) (hfind : (vmas.find? fun vma => vma.Has addr) = some vma)
    (h : Serviceable swap vma s i addr access)
    : s.FaultSound pmm swap vmas i addr access := by
  obtain ⟨hinvalid, hcase⟩ := h
  have hcases := @doPgfault_cases _ _ pmm s i vmas vma swap addr hpmm hfind
  have hentry := @swapInEntry_eq _ _ pmm vmas vma s i addr hfind
  refine ⟨?_, ?_, ?_⟩
  . intro v t hv hfault
    rw [hfind] at hv
    obtain rfl := Option.some_inj.mp hv
    split at hcases
    next hload =>
      have hrw := hcase.resolve_right fun hno => hno.1 hload
      obtain ⟨t', page, hfault', hpte⟩ := hcases
      rw [hfault] at hfault'
      obtain rfl : t = t' := (Prod.mk.inj (Option.some_inj.mp hfault')).2
      obtain ⟨hallows, -, hwider⟩ := (faultPerm_sound page vma access).mpr hrw
      rw [hpte]
      exact ⟨hallows.1, fun _ => hallows, hwider⟩
    next => exact absurd hfault (hcases t)
  . intro hforbidden
    have hnot := hforbidden vma hfind
    rcases hcase with ⟨hread, hwrite, hexec⟩ | ⟨hload, hzero⟩
    . cases access with
      | read => exact absurd hread hnot
      | write => exact absurd hwrite hnot
      | exec => contradiction
    . have hzero := hzero.resolve_right hnot
      obtain ⟨ret, t, hfault⟩ := @doPgfault_of_zero _ _ pmm swap vmas s i addr hzero
      unfold CanLoad at hload
      rw [if_neg hload] at hcases
      refine ⟨ret, t, hfault, ?_⟩
      rintro rfl
      exact hcases t hfault
  . intro pte hpte
    rw [hentry] at hpte
    split at hpte
    . contradiction
    . obtain rfl := Option.some_inj.mp hpte
      exact hinvalid

end Paging
end Ucore

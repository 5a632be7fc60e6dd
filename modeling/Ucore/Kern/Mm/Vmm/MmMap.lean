import Mathlib
import Ucore.Kern.Mm.Vmm.MmStruct

/-!
This module contains what `mm_map` decides: which ranges it refuses and which it maps. Its lookup of the start of
the range does not see an area that starts inside of the range, and a length can wrap around to an end in the page
of the start.
-/

namespace Ucore

/--
The end of the pages of `[addr, addr + len)`, without the bounds of a machine word.
-/
def rangeEnd (addr len : Nat) : Nat := (addr + len + pgsize - 1) / pgsize * pgsize

def Vma.Intersects (vma : Vma) (start stop : Nat) : Prop := vma.vmStart < stop ∧ start < vma.vmEnd

namespace Vma

variable {vmas res : List Vma} {vma : Vma}

theorem before_ends (hok : AllOk vmas) (hnot : ∀ v ∈ vmas, ¬v.Intersects vma.vmStart vma.vmEnd)
    (hvma : vma.vmStart < vma.vmEnd) {v : Vma} (hv : v ∈ vmas) (hle : v.vmStart ≤ vma.vmStart)
    : checkVmaOverlap v vma := by
  have hpos := (hok.access v hv).2.1
  have hv := hnot v hv
  simp only [Intersects] at hv
  exact ⟨hpos, by omega, hvma⟩

theorem behind_starts (hok : AllOk vmas) (hnot : ∀ v ∈ vmas, ¬v.Intersects vma.vmStart vma.vmEnd)
    (hvma : vma.vmStart < vma.vmEnd) {v : Vma} (hv : v ∈ vmas) (hlt : vma.vmStart < v.vmStart)
    : checkVmaOverlap vma v := by
  have hpos := (hok.access v hv).2.1
  have hv := hnot v hv
  simp only [Intersects] at hv
  exact ⟨hvma, by omega, hpos⟩

/--
The assertions of `insert_vma_struct` hold exactly when the area meets no other one.
-/
theorem insertVmaStruct_eq_some (hok : AllOk vmas) (hvma : vma.vmStart < vma.vmEnd)
    (hnot : ∀ v ∈ vmas, ¬v.Intersects vma.vmStart vma.vmEnd)
    : ∃ before behind, vmas = before ++ behind ∧ insertVmaStruct vmas vma = some (before ++ vma :: behind) := by
  refine ⟨vmas.takeWhile fun prev => prev.vmStart ≤ vma.vmStart, vmas.dropWhile fun prev => prev.vmStart ≤ vma.vmStart,
    List.takeWhile_append_dropWhile.symm, ?_⟩
  refine if_pos ⟨hvma, ?_, ?_⟩
  . intro prev hprev
    have hmem := List.mem_of_mem_getLast? hprev
    have hle := List.mem_takeWhile_imp hmem
    exact before_ends hok hnot hvma ((List.takeWhile_sublist _).mem hmem) (by simpa using hle)
  . intro next hnext
    have hmem := List.mem_of_mem_head? hnext
    have hhead := List.head?_dropWhile_not (fun prev => decide (prev.vmStart ≤ vma.vmStart)) vmas
    rw [Option.mem_def.mp hnext] at hhead
    exact behind_starts hok hnot hvma ((List.dropWhile_sublist _).mem hmem) (by simpa using hhead)

end Vma

namespace MmStruct

variable {mm : MmStruct} {addr len : Nat} {vmFlags : BitVec 32} {created : Bool}

/--
Nothing has changed: the areas, their number, and what `find_vma` gives, so that the cache does not count.
-/
structure Same (mm mm' : MmStruct) : Prop where
  areas : mm'.mmapList = mm.mmapList
  count : mm'.mapCount = mm.mapCount
  lookup : ∀ la, (mm'.findVma la).1 = (mm.findVma la).1

theorem Same.refl (mm : MmStruct) : Same mm mm := ⟨rfl, rfl, fun _ => rfl⟩

theorem findVma_same (hok : mm.Ok) (la : Nat) : Same mm (mm.findVma la).2 := by
  have hareas : (mm.findVma la).2.mmapList = mm.mmapList := by rw [findVma_eq hok]
  refine ⟨hareas, by rw [findVma_eq hok], ?_⟩
  intro addr
  rw [findVma_eq_find? (findVma_ok hok la), findVma_eq_find? hok, hareas]

/--
The pages of the range are not a range of user addresses, or one of them is in an area.
-/
def Unmappable (mm : MmStruct) (addr len : Nat) : Prop :=
  ¬userAccess (addr / pgsize * pgsize) (rangeEnd addr len) ∨
    ∃ vma ∈ mm.mmapList, vma.Intersects (addr / pgsize * pgsize) (rangeEnd addr len)

/--
`mm_map` comes back. It refuses the ranges that cannot be mapped and gives up where there is no memory for the
area, both without a change, and otherwise it adds the one area of the pages of the range.
-/
def MapDecided (mm : MmStruct) (addr len : Nat) (vmFlags : BitVec 32) (created : Bool) : Prop :=
  ∃ ret mm', mm.mmMap addr len vmFlags created = some (ret, mm') ∧
    (ret = -Errno.inval.toInt ↔ mm.Unmappable addr len) ∧
    (mm.Unmappable addr len → Same mm mm') ∧
    (¬mm.Unmappable addr len → created = false → ret = -Errno.noMem.toInt ∧ Same mm mm') ∧
    (¬mm.Unmappable addr len → created = true → ret = 0 ∧ mm'.Ok ∧ mm'.mapCount = mm.mapCount + 1 ∧
      ∃ before behind, mm.mmapList = before ++ behind ∧
        mm'.mmapList = before ++ ⟨addr / pgsize * pgsize, rangeEnd addr len, vmFlags⟩ :: behind)

/--
The start of the range lies in an area, or the range that `mm_map` computes is refused anyway, or its length does
not wrap around and no area starts inside of it.
-/
def SeesAreas (mm : MmStruct) (addr len : Nat) : Prop :=
  (∃ vma ∈ mm.mmapList, vma.Has (addr / pgsize * pgsize)) ∨
    ¬userAccess (addr / pgsize * pgsize) (roundUp ((addr + len) % 2 ^ 64)) ∨
    (addr + len < 2 ^ 64 ∧ ∀ vma ∈ mm.mmapList,
      ¬(addr / pgsize * pgsize < vma.vmStart ∧ vma.vmStart < roundUp ((addr + len) % 2 ^ 64)))

theorem roundUp_eq_rangeEnd (hlt : addr + len + pgsize ≤ 2 ^ 64)
    : roundUp ((addr + len) % 2 ^ 64) = rangeEnd addr len := by
  simp only [roundUp, rangeEnd, pgsize] at *
  rw [Nat.mod_eq_of_lt (show addr + len < 2 ^ 64 by omega),
    Nat.mod_eq_of_lt (show addr + len + 4096 - 1 < 2 ^ 64 by omega)]

/--
Without a wrap the range is refused by its rounded end as by the end in machine words.
-/
theorem userAccess_rangeEnd_iff (hlt : addr + len < 2 ^ 64)
    : userAccess (addr / pgsize * pgsize) (rangeEnd addr len) ↔
        userAccess (addr / pgsize * pgsize) (roundUp ((addr + len) % 2 ^ 64)) := by
  by_cases hle : addr + len + pgsize ≤ 2 ^ 64
  . rw [roundUp_eq_rangeEnd hle]
  . simp only [userAccess, rangeEnd, roundUp, userTop, pgsize] at *
    rw [Nat.mod_eq_of_lt hlt]
    omega

theorem userAccess_rangeEnd_lt (haccess : userAccess (addr / pgsize * pgsize) (rangeEnd addr len))
    : addr + len + pgsize ≤ 2 ^ 64 := by
  simp only [userAccess, rangeEnd, userTop, pgsize] at *
  omega

theorem mmMap_refused (hnot : ¬userAccess (addr / pgsize * pgsize) (roundUp ((addr + len) % 2 ^ 64)))
    : mm.mmMap addr len vmFlags created = some (-Errno.inval.toInt, mm) :=
  if_neg hnot

theorem mmMap_found (hok : mm.Ok) (haccess : userAccess (addr / pgsize * pgsize) (roundUp ((addr + len) % 2 ^ 64)))
    {vma : Vma} (hvma : vma ∈ mm.mmapList) (hhas : vma.Has (addr / pgsize * pgsize))
    : mm.mmMap addr len vmFlags created = some (-Errno.inval.toInt, (mm.findVma (addr / pgsize * pgsize)).2) := by
  have hfind : mm.findVma (addr / pgsize * pgsize) = (some vma, (mm.findVma (addr / pgsize * pgsize)).2) := by
    refine Prod.ext ?_ rfl
    rw [findVma_eq_find? hok, hok.areas.find?_eq hvma hhas]
  have hlt : roundUp ((addr + len) % 2 ^ 64) > vma.vmStart := lt_of_le_of_lt hhas.1 haccess.2.1
  unfold mmMap
  extract_lets start stop
  rw [if_pos haccess, hfind]
  exact if_pos (decide_eq_true hlt)

theorem mmMap_free (hok : mm.Ok) (haccess : userAccess (addr / pgsize * pgsize) (roundUp ((addr + len) % 2 ^ 64)))
    (hnot : ∀ vma ∈ mm.mmapList, ¬vma.Has (addr / pgsize * pgsize))
    : mm.mmMap addr len vmFlags created =
        if created then
          (mm.insertVmaStruct ⟨addr / pgsize * pgsize, roundUp ((addr + len) % 2 ^ 64), vmFlags⟩).map fun mm => (0, mm)
        else some (-Errno.noMem.toInt, mm) := by
  have hfind : mm.mmapList.find? (fun vma => vma.Has (addr / pgsize * pgsize)) = none := by
    simpa using hnot
  unfold mmMap
  extract_lets start stop
  rw [if_pos haccess, findVma_eq hok, hfind]
  rfl

theorem mapDecided_of_refused (hnot : ¬userAccess (addr / pgsize * pgsize) (roundUp ((addr + len) % 2 ^ 64)))
    : mm.MapDecided addr len vmFlags created := by
  have hun : mm.Unmappable addr len := by
    refine .inl fun haccess => hnot ?_
    rwa [roundUp_eq_rangeEnd (userAccess_rangeEnd_lt haccess)]
  exact ⟨_, mm, mmMap_refused hnot, by simp [hun], fun _ => .refl mm, fun h => absurd hun h, fun h => absurd hun h⟩

theorem mapDecided_of_found (hok : mm.Ok)
    (haccess : userAccess (addr / pgsize * pgsize) (roundUp ((addr + len) % 2 ^ 64))) {vma : Vma}
    (hvma : vma ∈ mm.mmapList) (hhas : vma.Has (addr / pgsize * pgsize))
    : mm.MapDecided addr len vmFlags created := by
  have hun : mm.Unmappable addr len := by
    by_cases hend : userAccess (addr / pgsize * pgsize) (rangeEnd addr len)
    . exact .inr ⟨vma, hvma, lt_of_le_of_lt hhas.1 hend.2.1, hhas.2⟩
    . exact .inl hend
  exact ⟨_, _, mmMap_found hok haccess hvma hhas, by simp [hun], fun _ => findVma_same hok _,
    fun h => absurd hun h, fun h => absurd hun h⟩

/--
The range meets no area, so `insert_vma_struct` finds its place.
-/
theorem mapDecided_of_free (hok : mm.Ok)
    (haccess : userAccess (addr / pgsize * pgsize) (roundUp ((addr + len) % 2 ^ 64)))
    (hhas : ∀ vma ∈ mm.mmapList, ¬vma.Has (addr / pgsize * pgsize)) (hlt : addr + len < 2 ^ 64)
    (hinside : ∀ vma ∈ mm.mmapList,
      ¬(addr / pgsize * pgsize < vma.vmStart ∧ vma.vmStart < roundUp ((addr + len) % 2 ^ 64)))
    : mm.MapDecided addr len vmFlags created := by
  have hend : userAccess (addr / pgsize * pgsize) (rangeEnd addr len) := (userAccess_rangeEnd_iff hlt).mpr haccess
  have hmap := @mmMap_free mm addr len vmFlags created hok haccess hhas
  rw [roundUp_eq_rangeEnd (userAccess_rangeEnd_lt hend)] at hinside hmap
  have hnot : ∀ vma ∈ mm.mmapList, ¬vma.Intersects (addr / pgsize * pgsize) (rangeEnd addr len) := by
    intro vma hvma hinter
    refine hinside vma hvma ⟨?_, hinter.1⟩
    by_contra hle
    exact hhas vma hvma ⟨by omega, hinter.2⟩
  have hun : ¬mm.Unmappable addr len := by
    rintro (h | ⟨vma, hvma, hinter⟩)
    . exact h hend
    . exact hnot vma hvma hinter
  cases created with
  | false =>
    exact ⟨_, mm, hmap, by simp [hun, Errno.toInt], fun h => absurd h hun, fun _ _ => ⟨rfl, .refl mm⟩, nofun⟩
  | true =>
    obtain ⟨before, behind, hsplit, hins⟩ := @Vma.insertVmaStruct_eq_some mm.mmapList
      ⟨addr / pgsize * pgsize, rangeEnd addr len, vmFlags⟩ hok.areas hend.2.1 hnot
    have hmap : mm.mmMap addr len vmFlags true = some (0, { mm with
        mmapList := before ++ ⟨addr / pgsize * pgsize, rangeEnd addr len, vmFlags⟩ :: behind
        mapCount := mm.mapCount + 1 }) := by
      rw [hmap, if_pos rfl, insertVmaStruct, hins]
      rfl
    refine ⟨0, _, hmap, by simp [hun, Errno.toInt], fun h => absurd h hun, nofun, fun _ _ => ⟨rfl, ?_, rfl, ?_⟩⟩
    . exact mmMap_ok hok hmap
    . exact ⟨before, behind, hsplit, rfl⟩

/--
An area that starts inside of the range makes the assertion fail, or `mm_map` reports that there is no memory. A
length that wraps around gets an area.
-/
theorem not_mapDecided (hok : mm.Ok)
    (haccess : userAccess (addr / pgsize * pgsize) (roundUp ((addr + len) % 2 ^ 64)))
    (hhas : ∀ vma ∈ mm.mmapList, ¬vma.Has (addr / pgsize * pgsize))
    (hnot : ¬(addr + len < 2 ^ 64 ∧ ∀ vma ∈ mm.mmapList,
      ¬(addr / pgsize * pgsize < vma.vmStart ∧ vma.vmStart < roundUp ((addr + len) % 2 ^ 64))))
    : ¬mm.MapDecided addr len vmFlags created := by
  have hun : mm.Unmappable addr len := by
    by_cases hend : userAccess (addr / pgsize * pgsize) (rangeEnd addr len)
    . have hlt := userAccess_rangeEnd_lt hend
      rw [roundUp_eq_rangeEnd hlt] at hnot
      obtain ⟨vma, hvma, hstart, hstop⟩ : ∃ vma ∈ mm.mmapList,
          addr / pgsize * pgsize < vma.vmStart ∧ vma.vmStart < rangeEnd addr len := by
        by_contra h
        push Not at h
        refine hnot ⟨by simp only [pgsize] at hlt; omega, fun vma hvma hin => ?_⟩
        exact absurd hin.2 (not_lt.mpr (h vma hvma hin.1))
      exact .inr ⟨vma, hvma, hstop, lt_trans hstart (hok.areas.access vma hvma).2.1⟩
    . exact .inl hend
  rintro ⟨ret, mm', hmap, hinval, -⟩
  obtain rfl := hinval.mpr hun
  rw [mmMap_free hok haccess hhas] at hmap
  split at hmap
  . obtain ⟨_, -, h⟩ := Option.map_eq_some_iff.mp hmap
    simp [Errno.toInt] at h
  . simp [Errno.toInt] at hmap

/--
`mm_map` decides as it should exactly where its lookup of the start of the range sees all there is to see.
-/
theorem mm_map_decides_iff (hok : mm.Ok) (addr len : Nat) (vmFlags : BitVec 32) (created : Bool)
    : mm.MapDecided addr len vmFlags created ↔ mm.SeesAreas addr len := by
  by_cases haccess : userAccess (addr / pgsize * pgsize) (roundUp ((addr + len) % 2 ^ 64))
  . by_cases hhas : ∃ vma ∈ mm.mmapList, vma.Has (addr / pgsize * pgsize)
    . obtain ⟨vma, hvma, hin⟩ := hhas
      exact ⟨fun _ => .inl ⟨vma, hvma, hin⟩, fun _ => mapDecided_of_found hok haccess hvma hin⟩
    . have hhas : ∀ vma ∈ mm.mmapList, ¬vma.Has (addr / pgsize * pgsize) := by simpa using hhas
      constructor
      . intro hdecided
        refine .inr (.inr ?_)
        by_contra hnot
        exact not_mapDecided hok haccess hhas hnot hdecided
      . rintro (⟨vma, hvma, hin⟩ | hrefused | ⟨hlt, hinside⟩)
        . exact absurd hin (hhas vma hvma)
        . exact absurd haccess hrefused
        . exact mapDecided_of_free hok haccess hhas hlt hinside
  . exact ⟨fun _ => .inr (.inl haccess), fun _ => mapDecided_of_refused haccess⟩

/--
An address space with one area.
-/
def oneArea : MmStruct := ⟨[⟨0x401000, 0x402000, Vma.vmRead⟩], none, 1⟩

theorem oneArea_ok : oneArea.Ok :=
  ⟨⟨List.pairwise_singleton _ _, by decide, by decide⟩, by simp [oneArea], rfl⟩

theorem mm_map_decides_iff_oneArea
    : oneArea.MapDecided 0x402000 0x1000 Vma.vmRead true ↔ oneArea.SeesAreas 0x402000 0x1000 :=
  mm_map_decides_iff oneArea_ok 0x402000 0x1000 Vma.vmRead true

/--
A range that starts in front of the area and reaches into it fails the assertion of `check_vma_overlap`.
-/
theorem not_mm_map_decides
    : ¬∀ (mm : MmStruct) (addr len : Nat) (vmFlags : BitVec 32) (created : Bool), mm.Ok → addr < 2 ^ 64 →
        len < 2 ^ 64 → mm.MapDecided addr len vmFlags created := by
  intro h
  obtain ⟨ret, mm', hmap, -⟩ := h oneArea 0x400000 0x2000 Vma.vmRead true oneArea_ok (by decide) (by decide)
  have hnone : (oneArea.mmMap 0x400000 0x2000 Vma.vmRead true).isNone := by decide
  rw [hmap] at hnone
  contradiction

end MmStruct
end Ucore

import Ucore.Lib.Run
import Ucore.Kern.Mm.Vmm.Areas

/-!
This module contains `struct mm_struct` with its cache of the last area found, and runs of `mm_map`,
`dup_mmap` and `find_vma` on several address spaces: the areas stay in order, and the cache never changes
what `find_vma` gives.
-/

namespace Ucore

/--
The fields of `struct mm_struct` that the functions on areas use.
-/
structure MmStruct where
  mmapList : List Vma
  mmapCache : Option Vma
  mapCount : Nat

namespace MmStruct

def mmCreate : MmStruct := ⟨[], none, 0⟩

/--
`find_vma`, with the area found in the cache.
-/
def findVma (mm : MmStruct) (addr : Nat) : Option Vma × MmStruct :=
  let vma := mm.mmapCache
  let vma := if vma.any fun vma => vma.Has addr then vma else mm.mmapList.find? fun vma => vma.Has addr
  if vma.isSome then (vma, { mm with mmapCache := vma }) else (vma, mm)

/--
`insert_vma_struct`, `none` if one of its assertions fails.
-/
def insertVmaStruct (mm : MmStruct) (vma : Vma) : Option MmStruct :=
  (Vma.insertVmaStruct mm.mmapList vma).map fun mmapList =>
    { mm with mmapList, mapCount := mm.mapCount + 1 }

/--
`mm_map`, `created` tells whether `vma_create` gets memory. The result is `none` if an assertion fails.
-/
def mmMap (mm : MmStruct) (addr len : Nat) (vmFlags : BitVec 32) (created : Bool) : Option (Int × MmStruct) :=
  let start := addr / pgsize * pgsize
  let stop := roundUp ((addr + len) % 2 ^ 64)
  if userAccess start stop then
    let (vma, mm) := mm.findVma start
    if vma.any fun vma => stop > vma.vmStart then
      some (-Errno.inval.toInt, mm)
    else if created then
      (mm.insertVmaStruct ⟨start, stop, vmFlags⟩).map fun mm => (0, mm)
    else
      some (-Errno.noMem.toInt, mm)
  else
    some (-Errno.inval.toInt, mm)

section DupMmap

variable {κ : Type} [DecidableEq κ]

/--
The loop of `dup_mmap` over the areas from the last one to the first.
-/
def dupMmapLoop (pmm : PmmManager) (created : Vma → Bool) (dst src : κ)
    : List Vma → MmStruct → Paging κ → Option (Int × MmStruct × Paging κ)
  | [], to_, s => some (0, to_, s)
  | vma :: vmas, to_, s =>
    if created vma then
      match to_.insertVmaStruct ⟨vma.vmStart, vma.vmEnd, vma.vmFlags⟩ with
      | none => none
      | some to_ =>
        match s.copyRange pmm dst src vma.vmStart vma.vmEnd with
        | none => none
        | some (ret, states) =>
          let s := states.getLastD s
          if ret ≠ 0 then some (-Errno.noMem.toInt, to_, s) else dupMmapLoop pmm created dst src vmas to_ s
    else
      some (-Errno.noMem.toInt, to_, s)

def dupMmap (pmm : PmmManager) (created : Vma → Bool) (s : Paging κ) (dst src : κ) (to_ from_ : MmStruct)
    : Option (Int × MmStruct × Paging κ) :=
  dupMmapLoop pmm created dst src from_.mmapList.reverse to_ s

end DupMmap

/--
What all functions keep: the areas are in order, the cache holds one of them, and the counter counts them.
-/
structure Ok (mm : MmStruct) : Prop where
  areas : Vma.AllOk mm.mmapList
  cache : ∀ vma ∈ mm.mmapCache, vma ∈ mm.mmapList
  count : mm.mapCount = mm.mmapList.length

variable {mm mm' : MmStruct} {vma : Vma} {addr len : Nat} {vmFlags : BitVec 32} {created : Bool} {ret : Int}

theorem mmCreate_ok : mmCreate.Ok :=
  ⟨⟨List.Pairwise.nil, by simp [mmCreate], by simp [mmCreate]⟩, by simp [mmCreate], rfl⟩

/--
A hit in the cache is the area that the walk over the list finds.
-/
theorem cached_eq_find? (hok : mm.Ok) (addr : Nat)
    : (if mm.mmapCache.any fun vma => vma.Has addr then mm.mmapCache
        else mm.mmapList.find? fun vma => vma.Has addr) = mm.mmapList.find? fun vma => vma.Has addr := by
  cases hcache : mm.mmapCache with
  | none => rfl
  | some vma =>
    by_cases hhas : vma.Has addr
    . rw [hok.areas.find?_eq (hok.cache vma hcache) hhas]
      simp [hhas]
    . simp [hhas]

theorem findVma_eq (hok : mm.Ok) (addr : Nat)
    : mm.findVma addr =
        (mm.mmapList.find? (fun vma => vma.Has addr),
          { mm with mmapCache := (mm.mmapList.find? fun vma => vma.Has addr).or mm.mmapCache }) := by
  rw [findVma, cached_eq_find? hok]
  cases mm.mmapList.find? fun vma => vma.Has addr <;> rfl

theorem findVma_eq_find? (hok : mm.Ok) (addr : Nat)
    : (mm.findVma addr).1 = mm.mmapList.find? fun vma => vma.Has addr := by
  rw [findVma_eq hok]

theorem findVma_ok (hok : mm.Ok) (addr : Nat) : (mm.findVma addr).2.Ok := by
  rw [findVma_eq hok]
  refine ⟨hok.areas, ?_, hok.count⟩
  intro vma hvma
  rcases Option.or_eq_some_iff.mp hvma with hfind | ⟨-, hcache⟩
  . exact List.mem_of_find?_eq_some hfind
  . exact hok.cache vma hcache

theorem insertVmaStruct_ok (hok : mm.Ok) (haligned : vma.vmStart % pgsize = 0 ∧ vma.vmEnd % pgsize = 0)
    (haccess : userAccess vma.vmStart vma.vmEnd) (hins : mm.insertVmaStruct vma = some mm')
    : mm'.Ok := by
  obtain ⟨mmapList, hlist, rfl⟩ := Option.map_eq_some_iff.mp hins
  obtain ⟨hareas, hmem, -⟩ := Vma.insertVmaStruct_ok hok.areas haligned haccess hlist
  refine ⟨hareas, ?_, ?_⟩
  . intro v hv
    exact (hmem v).mpr (.inr (hok.cache v hv))
  . have := Vma.insertVmaStruct_length hlist
    simp [this, hok.count]

theorem mmMap_ok (hok : mm.Ok) (hmap : mm.mmMap addr len vmFlags created = some (ret, mm')) : mm'.Ok := by
  unfold mmMap at hmap
  extract_lets start stop at hmap
  have hfind := findVma_ok hok start
  split at hmap
  next haccess =>
    generalize mm.findVma start = found at hmap hfind
    obtain ⟨vma, mm₁⟩ := found
    dsimp only at hmap hfind
    split at hmap
    . cases hmap
      exact hfind
    split at hmap
    . obtain ⟨mm₂, hins, h⟩ := Option.map_eq_some_iff.mp hmap
      cases h
      refine insertVmaStruct_ok hfind ⟨?_, ?_⟩ haccess hins
      . exact Nat.mul_mod_left _ _
      . exact Nat.mul_mod_left _ _
    . cases hmap
      exact hfind
  . cases hmap
    exact hok

section DupMmap

variable {κ : Type} [DecidableEq κ] {pmm : PmmManager} {dupCreated : Vma → Bool} {dst src : κ}
  {s s' : Paging κ} {to_ from_ : MmStruct}

/--
The areas of the source pass the assertion of `mm_map`, so the copies keep the order of the target.
-/
theorem dupMmapLoop_ok {vmas : List Vma} (hok : to_.Ok)
    (haligned : ∀ vma ∈ vmas, vma.vmStart % pgsize = 0 ∧ vma.vmEnd % pgsize = 0)
    (haccess : ∀ vma ∈ vmas, userAccess vma.vmStart vma.vmEnd)
    (hdup : dupMmapLoop pmm dupCreated dst src vmas to_ s = some (ret, mm', s'))
    : mm'.Ok := by
  induction vmas generalizing to_ s with
  | nil =>
    cases hdup
    exact hok
  | cons vma vmas ih =>
    obtain ⟨halignedVma, haligned⟩ := List.forall_mem_cons.mp haligned
    obtain ⟨haccessVma, haccess⟩ := List.forall_mem_cons.mp haccess
    unfold dupMmapLoop at hdup
    split at hdup
    . split at hdup
      . contradiction
      next to₁ hins =>
        have hok₁ := insertVmaStruct_ok hok halignedVma haccessVma hins
        split at hdup
        . contradiction
        . extract_lets t at hdup
          split at hdup
          . obtain ⟨-, rfl, -⟩ := by simpa using hdup
            exact hok₁
          . exact ih hok₁ haligned haccess hdup
    . cases hdup
      exact hok

theorem dupMmap_ok (hto : to_.Ok) (hfrom : from_.Ok)
    (hdup : dupMmap pmm dupCreated s dst src to_ from_ = some (ret, mm', s'))
    : mm'.Ok :=
  dupMmapLoop_ok hto (fun vma hvma => hfrom.areas.aligned vma (List.mem_reverse.mp hvma))
    (fun vma hvma => hfrom.areas.access vma (List.mem_reverse.mp hvma)) hdup

/--
Without cache and counter the loop is the one on lists of areas.
-/
theorem dupMmapLoop_mmapList (vmas : List Vma) (to_ : MmStruct) (s : Paging κ)
    : (dupMmapLoop pmm dupCreated dst src vmas to_ s).map (fun r => (r.1, r.2.1.mmapList, r.2.2))
        = Paging.dupMmapLoop pmm dupCreated dst src vmas to_.mmapList s := by
  induction vmas generalizing to_ s with
  | nil => rfl
  | cons vma vmas ih =>
    unfold dupMmapLoop Paging.dupMmapLoop insertVmaStruct
    split
    . cases Vma.insertVmaStruct to_.mmapList vma with
      | none => rfl
      | some mmapList =>
        dsimp only [Option.map_some]
        cases s.copyRange pmm dst src vma.vmStart vma.vmEnd with
        | none => rfl
        | some copied =>
          dsimp only
          split
          . rfl
          . exact ih _ _
    . rfl

end DupMmap
end MmStruct

/--
The calls of a run. `pmm`'s pages and the memory of `vma_create` decide which of them succeed.
-/
inductive MmCall (κ : Type) where
  | map (i : κ) (addr len : Nat) (vmFlags : BitVec 32) (created : Bool)
  | dup (dst src : κ) (created : Vma → Bool)
  | find (i : κ) (addr : Nat)

structure MmSys (κ : Type) where
  mms : κ → MmStruct
  paging : Paging κ

namespace MmSys

variable {κ : Type} [DecidableEq κ]

/--
All address spaces come from `mm_create`.
-/
def init (paging : Paging κ) : MmSys κ := ⟨fun _ => MmStruct.mmCreate, paging⟩

def set (s : MmSys κ) (i : κ) (mm : MmStruct) : MmSys κ := { s with mms := Function.update s.mms i mm }

def step (pmm : PmmManager) (s : MmSys κ) : MmCall κ → Option (MmSys κ)
  | .map i addr len vmFlags created =>
    ((s.mms i).mmMap addr len vmFlags created).map fun r => s.set i r.2
  | .dup dst src created =>
    (MmStruct.dupMmap pmm created s.paging dst src (s.mms dst) (s.mms src)).map fun r =>
      { s.set dst r.2.1 with paging := r.2.2 }
  | .find i addr => some (s.set i ((s.mms i).findVma addr).2)

variable {pmm : PmmManager} {s s' : MmSys κ} {call : MmCall κ}

theorem set_ok (hok : ∀ i, (s.mms i).Ok) {j : κ} {mm : MmStruct} (hmm : mm.Ok) (i : κ) : ((s.set j mm).mms i).Ok := by
  by_cases h : i = j
  . subst h
    rw [show (s.set i mm).mms i = mm from Function.update_self ..]
    exact hmm
  . rw [show (s.set j mm).mms i = s.mms i from Function.update_of_ne h ..]
    exact hok i

theorem step_ok (hok : ∀ i, (s.mms i).Ok) (hstep : s.step pmm call = some s') (i : κ) : (s'.mms i).Ok := by
  cases call with
  | map j addr len vmFlags created =>
    obtain ⟨⟨ret, mm⟩, hmap, rfl⟩ := Option.map_eq_some_iff.mp hstep
    exact set_ok hok (MmStruct.mmMap_ok (hok j) hmap) i
  | dup dst src created =>
    obtain ⟨⟨ret, mm, paging⟩, hdup, rfl⟩ := Option.map_eq_some_iff.mp hstep
    exact set_ok hok (MmStruct.dupMmap_ok (hok dst) (hok src) hdup) i
  | find j addr =>
    cases hstep
    exact set_ok hok (MmStruct.findVma_ok (hok j) addr) i

theorem exec_ok {paging : Paging κ} {calls : List (MmCall κ)}
    (hexec : Run.exec (step pmm) (init paging) calls = some s) (i : κ)
    : (s.mms i).Ok :=
  Run.exec_invariant (I := fun s : MmSys κ => ∀ i, (s.mms i).Ok) (fun _ _ _ hok hstep => step_ok hok hstep)
    (fun _ => MmStruct.mmCreate_ok) hexec i

/--
After every run of calls that all come back, the areas of every address space are in order, and `find_vma`
gives the one area that has the address, whatever the cache holds.
-/
theorem find_vma_unique {paging : Paging κ} {calls : List (MmCall κ)}
    (hexec : Run.exec (step pmm) (init paging) calls = some s) (i : κ)
    : (s.mms i).mmapList.Pairwise (fun prev next => prev.vmStart < next.vmStart ∧ prev.vmEnd ≤ next.vmStart) ∧
        (∀ vma ∈ (s.mms i).mmapList, vma.vmStart < vma.vmEnd) ∧
        (s.mms i).mapCount = (s.mms i).mmapList.length ∧
        ∀ addr, ((s.mms i).findVma addr).1 = ((s.mms i).mmapList.find? fun vma => vma.Has addr) ∧
          ∀ vma, ((s.mms i).findVma addr).1 = some vma ↔ vma ∈ (s.mms i).mmapList ∧ vma.Has addr := by
  have hok := exec_ok hexec i
  have hnonempty : ∀ vma ∈ (s.mms i).mmapList, vma.vmStart < vma.vmEnd :=
    fun vma hvma => (hok.areas.access vma hvma).2.1
  refine ⟨?_, hnonempty, hok.count, fun addr => ⟨MmStruct.findVma_eq_find? hok addr, fun vma => ⟨?_, ?_⟩⟩⟩
  . refine hok.areas.sorted.imp_of_mem ?_
    intro prev next hprev _ hle
    exact ⟨lt_of_lt_of_le (hnonempty prev hprev) hle, hle⟩
  . rw [MmStruct.findVma_eq_find? hok addr]
    intro hfind
    exact ⟨List.mem_of_find?_eq_some hfind, by simpa using List.find?_some hfind⟩
  . rw [MmStruct.findVma_eq_find? hok addr]
    intro ⟨hvma, hhas⟩
    exact hok.areas.find?_eq hvma hhas

/--
Two areas, a lookup that fills the cache, and a third area in front of them.
-/
def threeAreas : List (MmCall Bool) :=
  [.map false 0x400000 0x1000 Vma.vmRead true, .map false 0x600000 0x2000 Vma.vmWrite true, .find false 0x600fff,
    .map false 0x300000 0x800 Vma.vmExec true]

def threeMapped : MmStruct :=
  ⟨[⟨0x300000, 0x301000, Vma.vmExec⟩, ⟨0x400000, 0x401000, Vma.vmRead⟩, ⟨0x600000, 0x602000, Vma.vmWrite⟩],
    some ⟨0x600000, 0x602000, Vma.vmWrite⟩, 3⟩

/--
A page manager without pages.
-/
def noPages : PmmManager := ⟨fun _ => none, by simp⟩

def unmapped : Paging Bool := ⟨fun _ _ => none, fun _ => 0, fun _ _ => 0, ∅⟩

theorem threeAreas_mapped : ∃ s, Run.exec (step noPages) (init unmapped) threeAreas = some s ∧
    s.paging = unmapped ∧ s.mms false = threeMapped ∧ s.mms true = MmStruct.mmCreate :=
  ⟨_, rfl, rfl, rfl, rfl⟩

/--
Without page tables `copy_range` goes through its range and does nothing.
-/
theorem unmapped_copyRange {start stop : Nat}
    (hrange : start % pgsize = 0 ∧ stop % pgsize = 0 ∧ userAccess start stop)
    (hstop : stop ≤ (start + ptsize) / ptsize * ptsize)
    : unmapped.copyRange noPages true false start stop = some (0, [unmapped]) := by
  have hnext : unmapped.nextAddr false start = (start + ptsize) / ptsize * ptsize := rfl
  have hround : unmapped.copyRound noPages true false start = some (0, unmapped) := rfl
  unfold Paging.copyRange
  rw [if_pos hrange]
  unfold Paging.copyLoop
  rw [hround]
  dsimp only
  rw [hnext, if_neg (by decide), if_neg (by omega)]

theorem unmapped_dupMmapLoop {vma : Vma} {vmas : List Vma} {to_ to₁ : MmStruct}
    (hins : to_.insertVmaStruct vma = some to₁)
    (hrange : vma.vmStart % pgsize = 0 ∧ vma.vmEnd % pgsize = 0 ∧ userAccess vma.vmStart vma.vmEnd)
    (hstop : vma.vmEnd ≤ (vma.vmStart + ptsize) / ptsize * ptsize)
    : MmStruct.dupMmapLoop noPages (fun _ => true) true false (vma :: vmas) to_ unmapped =
        MmStruct.dupMmapLoop noPages (fun _ => true) true false vmas to₁ unmapped := by
  rw [MmStruct.dupMmapLoop, if_pos rfl, hins]
  dsimp only
  rw [unmapped_copyRange hrange hstop]
  rfl

theorem unmapped_dupMmap
    : MmStruct.dupMmap noPages (fun _ => true) unmapped true false MmStruct.mmCreate threeMapped =
        some (0, { threeMapped with mmapCache := none }, unmapped) := by
  simp only [MmStruct.dupMmap, threeMapped, List.reverse_cons, List.reverse_nil, List.nil_append, List.cons_append]
  rw [unmapped_dupMmapLoop rfl (by decide) (by decide), unmapped_dupMmapLoop rfl (by decide) (by decide),
    unmapped_dupMmapLoop rfl (by decide) (by decide)]
  rfl

theorem find_vma_unique_threeAreas
    : ∃ s, Run.exec (step noPages) (init unmapped) (threeAreas ++ [.dup true false fun _ => true]) = some s ∧
        (s.mms true).mapCount = (s.mms true).mmapList.length := by
  obtain ⟨s, hmapped, hpaging, hfrom, hto⟩ := threeAreas_mapped
  have hdup : Run.exec (step noPages) s [.dup true false fun _ => true] =
      some { s.set true { threeMapped with mmapCache := none } with paging := unmapped } := by
    simp only [Run.exec, step, hpaging, hfrom, hto, unmapped_dupMmap, Option.map_some, Option.bind_some]
  have hexec := Run.exec_append hmapped hdup
  exact ⟨_, hexec, (find_vma_unique hexec true).2.2.1⟩

end MmSys
end Ucore

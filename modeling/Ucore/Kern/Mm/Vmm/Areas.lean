import Ucore.Kern.Mm.Vmm.DupMmap

/-!
This module contains the order of the areas of an address space: an insertion keeps it, and an address is in
at most one area.
-/

namespace Ucore
namespace Vma

variable {vmas res : List Vma} {vma v w : Vma} {la : Nat}

/--
The check against the last area in front is enough for all areas in front.
-/
theorem before_of_getLast (hsorted : vmas.Pairwise fun prev next => prev.vmEnd ≤ next.vmStart)
    (hlast : ∀ prev ∈ vmas.getLast?, checkVmaOverlap prev vma)
    : ∀ v ∈ vmas, v.vmEnd ≤ vma.vmStart := by
  intro v hv
  have hne : vmas ≠ [] := List.ne_nil_of_mem hv
  have hcheck := hlast (vmas.getLast hne) (List.getLast?_eq_some_getLast hne)
  rw [← List.dropLast_append_getLast hne] at hv hsorted
  rcases List.mem_append.mp hv with hv | hv
  . have := (List.pairwise_append.mp hsorted).2.2 v hv _ List.mem_cons_self
    have := hcheck.1
    have := hcheck.2.1
    omega
  . rw [List.mem_singleton.mp hv]
    exact hcheck.2.1

theorem behind_of_head (hsorted : vmas.Pairwise fun prev next => prev.vmEnd ≤ next.vmStart)
    (hhead : ∀ next ∈ vmas.head?, checkVmaOverlap vma next)
    : ∀ v ∈ vmas, vma.vmEnd ≤ v.vmStart := by
  cases vmas with
  | nil => exact fun v hv => absurd hv List.not_mem_nil
  | cons next rest =>
    have hcheck := hhead next rfl
    have hrest := (List.pairwise_cons.mp hsorted).1
    intro v hv
    rcases List.mem_cons.mp hv with rfl | hv
    . exact hcheck.2.1
    . have := hrest v hv
      have := hcheck.2.1
      have := hcheck.2.2
      omega

/--
`insert_vma_struct` only compares an area with its two neighbours, the order of the list does the rest.
-/
theorem insertVmaStruct_ok (hok : AllOk vmas)
    (haligned : vma.vmStart % pgsize = 0 ∧ vma.vmEnd % pgsize = 0)
    (haccess : userAccess vma.vmStart vma.vmEnd) (hins : insertVmaStruct vmas vma = some res)
    : AllOk res ∧ (∀ v, v ∈ res ↔ v = vma ∨ v ∈ vmas) ∧
        ∀ v ∈ vmas, v.vmEnd ≤ vma.vmStart ∨ vma.vmEnd ≤ v.vmStart := by
  unfold insertVmaStruct at hins
  extract_lets before behind at hins
  have hsplit : before ++ behind = vmas := List.takeWhile_append_dropWhile
  split at hins
  next hchecks =>
    obtain rfl := Option.some_inj.mp hins
    have hmem : ∀ v, v ∈ before ++ vma :: behind ↔ v = vma ∨ v ∈ vmas := by
      intro v
      rw [← hsplit, List.mem_append, List.mem_append, List.mem_cons]
      tauto
    have hsorted := hok.sorted
    rw [← hsplit] at hsorted
    obtain ⟨hsortedBefore, hsortedBehind, hcross⟩ := List.pairwise_append.mp hsorted
    have hbefore := before_of_getLast hsortedBefore hchecks.2.1
    have hbehind := behind_of_head hsortedBehind hchecks.2.2
    refine ⟨⟨?_, ?_, ?_⟩, hmem, ?_⟩
    . refine List.pairwise_append.mpr ⟨hsortedBefore, List.pairwise_cons.mpr ⟨hbehind, hsortedBehind⟩, ?_⟩
      intro v hv w hw
      rcases List.mem_cons.mp hw with rfl | hw
      . exact hbefore v hv
      . exact hcross v hv w hw
    . intro v hv
      rcases (hmem v).mp hv with rfl | hv
      . exact haligned
      . exact hok.aligned v hv
    . intro v hv
      rcases (hmem v).mp hv with rfl | hv
      . exact haccess
      . exact hok.access v hv
    . intro v hv
      rw [← hsplit] at hv
      exact (List.mem_append.mp hv).imp (hbefore v) (hbehind v)
  . contradiction

/--
An insertion adds one area.
-/
theorem insertVmaStruct_length (hins : insertVmaStruct vmas vma = some res) : res.length = vmas.length + 1 := by
  unfold insertVmaStruct at hins
  extract_lets before behind at hins
  have hsplit : before ++ behind = vmas := List.takeWhile_append_dropWhile
  split at hins
  . obtain rfl := Option.some_inj.mp hins
    rw [← hsplit, List.length_append, List.length_append, List.length_cons, Nat.add_assoc]
  . contradiction

theorem AllOk.eq_of_has (hok : AllOk vmas) (hv : v ∈ vmas) (hw : w ∈ vmas) (hla : v.Has la) (hla' : w.Has la)
    : v = w := by
  have happart : vmas.Pairwise fun a b => a.vmEnd ≤ b.vmStart ∨ b.vmEnd ≤ a.vmStart :=
    hok.sorted.imp .inl
  have hsymm : Std.Symm fun a b : Vma => a.vmEnd ≤ b.vmStart ∨ b.vmEnd ≤ a.vmStart := ⟨fun _ _ => .symm⟩
  by_contra hne
  have := happart.forall hv hw hne
  have := hla.1
  have := hla.2
  have := hla'.1
  have := hla'.2
  omega

/--
An area that has the address is the one that `find_vma` finds.
-/
theorem AllOk.find?_eq (hok : AllOk vmas) (hv : v ∈ vmas) (hla : v.Has la)
    : (vmas.find? fun vma => vma.Has la) = some v := by
  cases hfind : vmas.find? fun vma => vma.Has la with
  | none => exact absurd (decide_eq_true hla) (List.find?_eq_none.mp hfind v hv)
  | some w =>
    have hw := List.mem_of_find?_eq_some hfind
    have hla' : w.Has la := by simpa using List.find?_some hfind
    rw [hok.eq_of_has hv hw hla hla']

end Vma
end Ucore

import Ucore.Kern.Mm.Vmm.MmStruct

/-!
This module contains `user_mem_check`, which goes from area to area through a range of user addresses, and which
bytes it lets pass.
-/

namespace Ucore

def kernBase : Nat := 0xFFFFFFFFC0200000

def kernTop : Nat := kernBase + 0x7E00000

/--
`KERN_ACCESS`.
-/
def kernAccess (start stop : Nat) : Prop := kernBase ≤ start ∧ start < stop ∧ stop ≤ kernTop

instance (start stop : Nat) : Decidable (kernAccess start stop) := inferInstanceAs (Decidable (_ ∧ _))

namespace Vma

/--
The flag that an access needs.
-/
def accessFlag (write : Bool) : BitVec 32 := if write then vmWrite else vmRead

end Vma

namespace MmStruct

variable {mm : MmStruct} {addr len start stop : Nat} {write : Bool}

theorem findVma_has {vma : Vma} (hfind : (mm.findVma addr).1 = some vma) : vma.Has addr := by
  unfold findVma at hfind
  extract_lets cache found at hfind
  have hfound : found = some vma := by
    split at hfind <;> exact hfind
  simp only [found] at hfound
  split at hfound
  next hcache =>
    rw [hfound] at hcache
    simpa using hcache
  next => simpa using List.find?_some hfound

/--
The loop of `user_mem_check`, which ends since an area ends behind the address that it has.
-/
def userMemLoop (mm : MmStruct) (write : Bool) (stop start : Nat) : Bool × MmStruct :=
  if start < stop then
    match hfind : mm.findVma start with
    | (none, mm) => (false, mm)
    | (some vma, mm) =>
      if start < vma.vmStart then
        (false, mm)
      else if vma.vmFlags &&& Vma.accessFlag write = 0 then
        (false, mm)
      else if write ∧ vma.vmFlags &&& Vma.vmStack ≠ 0 ∧ start < (vma.vmStart + pgsize) % 2 ^ 64 then
        (false, mm)
      else
        userMemLoop mm write stop vma.vmEnd
  else
    (true, mm)
  termination_by stop - start
  decreasing_by
    have hhas := findVma_has (congrArg Prod.fst hfind)
    have := hhas.2
    omega

/--
`user_mem_check`. The second component is the address space with what the lookups leave in its cache.
-/
def userMemCheck (mm : Option MmStruct) (addr len : Nat) (write : Bool) : Bool × Option MmStruct :=
  let stop := (addr + len) % 2 ^ 64
  match mm with
  | some mm =>
    if userAccess addr stop then
      let (ret, mm) := mm.userMemLoop write stop addr
      (ret, some mm)
    else
      (false, some mm)
  | none => (decide (kernAccess addr stop), none)

/--
The byte belongs to an area that permits the access, and a write does not go to the lowest page of a stack.
-/
def Permits (mm : MmStruct) (write : Bool) (la : Nat) : Prop :=
  (∃ vma ∈ mm.mmapList, vma.Has la ∧ vma.vmFlags &&& Vma.accessFlag write ≠ 0) ∧
    (write = true → ∀ vma ∈ mm.mmapList, vma.vmFlags &&& Vma.vmStack ≠ 0 →
      ¬(vma.vmStart ≤ la ∧ la < vma.vmStart + pgsize))

/--
A byte of an area passes by the flags of this area, and by its place in it.
-/
theorem permits_iff (hok : mm.Ok) {vma : Vma} {la : Nat} (hvma : vma ∈ mm.mmapList) (hhas : vma.Has la)
    : mm.Permits write la ↔ vma.vmFlags &&& Vma.accessFlag write ≠ 0 ∧
        ¬(write = true ∧ vma.vmFlags &&& Vma.vmStack ≠ 0 ∧ la < vma.vmStart + pgsize) := by
  constructor
  . rintro ⟨⟨v, hv, hin, hflag⟩, hguard⟩
    obtain rfl := hok.areas.eq_of_has hv hvma hin hhas
    exact ⟨hflag, fun ⟨hwrite, hstack, hlt⟩ => hguard hwrite v hv hstack ⟨hhas.1, hlt⟩⟩
  . intro ⟨hflag, hguard⟩
    refine ⟨⟨vma, hvma, hhas, hflag⟩, ?_⟩
    intro hwrite v hv hstack ⟨hle, hlt⟩
    -- the lowest page is one of the area's own
    have haligned := hok.areas.aligned v hv
    have haccess := hok.areas.access v hv
    have hin : v.Has la := by
      refine ⟨hle, ?_⟩
      have := haccess.2.1
      simp only [pgsize] at *
      omega
    obtain rfl := hok.areas.eq_of_has hv hvma hin hhas
    exact hguard ⟨hwrite, hstack, hlt⟩

theorem findVma_mmapList (mm : MmStruct) (la : Nat) : (mm.findVma la).2.mmapList = mm.mmapList := by
  unfold findVma
  extract_lets cache found
  split <;> rfl

theorem permits_congr {mm' : MmStruct} (h : mm'.mmapList = mm.mmapList) {la : Nat}
    : mm'.Permits write la ↔ mm.Permits write la := by
  rw [Permits, Permits, h]

/--
One round stands for all bytes up to the end of the area.
-/
theorem permits_area (hok : mm.Ok) {vma : Vma} (hvma : vma ∈ mm.mmapList) (hhas : vma.Has start)
    (hpermits : mm.Permits write start) {la : Nat} (hle : start ≤ la) (hlt : la < vma.vmEnd)
    : mm.Permits write la := by
  obtain ⟨hflag, hguard⟩ := (permits_iff hok hvma hhas).mp hpermits
  refine (permits_iff hok hvma ⟨le_trans hhas.1 hle, hlt⟩).mpr ⟨hflag, ?_⟩
  intro ⟨hwrite, hstack, hlow⟩
  exact hguard ⟨hwrite, hstack, lt_of_le_of_lt hle hlow⟩

/--
The loop lets a range pass exactly when it lets each byte pass.
-/
theorem userMemLoop_spec (hok : mm.Ok)
    : (mm.userMemLoop write stop start).2.Ok ∧
        (mm.userMemLoop write stop start).2.mmapList = mm.mmapList ∧
        ((mm.userMemLoop write stop start).1 = true ↔ ∀ la, start ≤ la → la < stop → mm.Permits write la) := by
  induction hn : stop - start using Nat.strong_induction_on generalizing mm start with
  | _ n ih =>
    have hfindOk := findVma_ok hok start
    have hareas := findVma_mmapList mm start
    rw [userMemLoop]
    split
    next hlt =>
      -- a byte that does not pass stops the loop
      have hstop (hnot : ¬mm.Permits write start)
          : false = true ↔ ∀ la, start ≤ la → la < stop → mm.Permits write la :=
        ⟨nofun, fun h => absurd (h start (le_refl _) hlt) hnot⟩
      split
      next mm₁ hfind =>
        rw [hfind] at hfindOk hareas
        refine ⟨hfindOk, hareas, hstop ?_⟩
        rintro ⟨⟨vma, hvma, hhas, -⟩, -⟩
        have hnone := congrArg Prod.fst hfind
        rw [findVma_eq_find? hok, hok.areas.find?_eq hvma hhas] at hnone
        contradiction
      next vma mm₁ hfind =>
        have hsome := congrArg Prod.fst hfind
        have hhas : vma.Has start := findVma_has hsome
        rw [findVma_eq_find? hok] at hsome
        have hvma : vma ∈ mm.mmapList := List.mem_of_find?_eq_some hsome
        rw [hfind] at hfindOk hareas
        dsimp only at hfindOk hareas
        have hpermits := @permits_iff mm write hok vma start hvma hhas
        have hnowrap : (vma.vmStart + pgsize) % 2 ^ 64 = vma.vmStart + pgsize := by
          have := hok.areas.access vma hvma
          simp only [userAccess, userTop, pgsize] at *
          omega
        rw [if_neg (not_lt.mpr hhas.1), hnowrap]
        split
        next hflag => exact ⟨hfindOk, hareas, hstop fun h => (hpermits.mp h).1 hflag⟩
        next hflag =>
          split
          next hguard => exact ⟨hfindOk, hareas, hstop fun h => (hpermits.mp h).2 hguard⟩
          next hguard =>
            have hstart := hpermits.mpr ⟨hflag, hguard⟩
            have hend := hhas.2
            obtain ⟨hok', hareas', hiff⟩ := ih (stop - vma.vmEnd) (by omega) hfindOk rfl
            refine ⟨hok', hareas'.trans hareas, hiff.trans ⟨?_, ?_⟩⟩
            . intro h la hle hlt
              by_cases hla : la < vma.vmEnd
              . exact permits_area hok hvma hhas hstart hle hla
              . exact (permits_congr hareas).mp (h la (by omega) hlt)
            . intro h la hle hlt
              exact (permits_congr hareas).mpr (h la (by omega) hlt)
    next hge => exact ⟨hok, rfl, fun _ la hle hlt => absurd (lt_of_le_of_lt hle hlt) hge, fun _ => rfl⟩

/--
`user_mem_check` lets a range of user memory pass exactly when it is a range of user addresses that does not wrap
around, each byte of it is in an area that permits the access, and no write goes to the lowest page of a stack.
-/
theorem user_mem_check_exact (hok : mm.Ok) (addr len : Nat) (write : Bool) (hlen : len < 2 ^ 64)
    : (userMemCheck (some mm) addr len write).1 = true ↔
        0 < len ∧ addr + len < 2 ^ 64 ∧ userBase ≤ addr ∧ addr + len ≤ userTop ∧
          (∀ la, addr ≤ la → la < addr + len →
            ∃ vma ∈ mm.mmapList, vma.Has la ∧ vma.vmFlags &&& Vma.accessFlag write ≠ 0) ∧
          (write = true → ∀ la, addr ≤ la → la < addr + len → ∀ vma ∈ mm.mmapList,
            vma.vmFlags &&& Vma.vmStack ≠ 0 → ¬(vma.vmStart ≤ la ∧ la < vma.vmStart + pgsize)) := by
  unfold userMemCheck
  dsimp only
  split
  next haccess =>
    have hnowrap : addr + len < 2 ^ 64 := by
      by_contra hwrap
      simp only [userAccess, userTop] at haccess
      omega
    rw [Nat.mod_eq_of_lt hnowrap] at haccess ⊢
    rw [(userMemLoop_spec hok).2.2]
    constructor
    . intro h
      have hpos := haccess.2.1
      exact ⟨by omega, hnowrap, haccess.1, haccess.2.2, fun la hle hlt => (h la hle hlt).1,
        fun hwrite la hle hlt => (h la hle hlt).2 hwrite⟩
    . intro ⟨_, _, _, _, hareas, hguard⟩ la hle hlt
      exact ⟨hareas la hle hlt, fun hwrite => hguard hwrite la hle hlt⟩
  next haccess =>
    refine ⟨nofun, fun ⟨hpos, hnowrap, hbase, htop, _⟩ => absurd ?_ haccess⟩
    rw [Nat.mod_eq_of_lt hnowrap]
    exact ⟨hbase, by omega, htop⟩

/--
An address space with the same areas, in order.
-/
structure SameAreas (mm mm' : Option MmStruct) : Prop where
  mmapList : mm'.map mmapList = mm.map mmapList
  ok : ∀ m ∈ mm', m.Ok

section SameAreas

variable {mm mm' mm'' : Option MmStruct}

theorem SameAreas.refl (hok : ∀ m ∈ mm, m.Ok) : SameAreas mm mm := ⟨rfl, hok⟩

theorem SameAreas.trans (h : SameAreas mm mm') (h' : SameAreas mm' mm'') : SameAreas mm mm'' :=
  ⟨h'.mmapList.trans h.mmapList, h'.ok⟩

theorem SameAreas.isSome (h : SameAreas mm mm') : mm'.isSome = mm.isSome := by
  have := congrArg Option.isSome h.mmapList
  simpa using this

theorem userMemCheck_sameAreas (hok : ∀ m ∈ mm, m.Ok) : SameAreas mm (userMemCheck mm addr len write).2 := by
  cases hmm : mm with
  | none => exact ⟨rfl, nofun⟩
  | some m =>
    have hm := hok m hmm
    have hloop := @userMemLoop_spec m addr ((addr + len) % 2 ^ 64) write hm
    simp only [userMemCheck]
    split
    . refine ⟨congrArg some hloop.2.1, ?_⟩
      intro m' hm'
      obtain rfl := Option.some_inj.mp hm'
      exact hloop.1
    . refine ⟨rfl, ?_⟩
      intro m' hm'
      obtain rfl := Option.some_inj.mp hm'
      exact hm

/--
A byte that `user_mem_check` lets pass: of the user, or of the kernel if there is no address space.
-/
def PassesByte (mm : Option MmStruct) (write : Bool) (la : Nat) : Prop :=
  match mm with
  | some mm => userBase ≤ la ∧ la < userTop ∧ mm.Permits write la
  | none => kernBase ≤ la ∧ la < kernTop

theorem SameAreas.passesByte (h : SameAreas mm mm') {la : Nat} : PassesByte mm' write la ↔ PassesByte mm write la := by
  have hlist := h.mmapList
  cases mm with
  | none =>
    cases mm' with
    | none => rfl
    | some m' => exact nomatch hlist
  | some m =>
    cases mm' with
    | none => exact nomatch hlist
    | some m' =>
      rw [PassesByte, PassesByte, permits_congr (Option.some_inj.mp hlist)]

/--
`user_mem_check` lets a range pass exactly when it lets each byte pass.
-/
theorem userMemCheck_iff_passesByte (hok : ∀ m ∈ mm, m.Ok) (hpos : 0 < len) (hlen : len < 2 ^ 64)
    : (userMemCheck mm addr len write).1 = true ↔ ∀ i < len, PassesByte mm write (addr + i) := by
  cases mm with
  | none =>
    rw [userMemCheck, decide_eq_true_eq]
    constructor
    . rintro ⟨hbase, hlt, htop⟩ i hi
      have hmod : (addr + len) % 2 ^ 64 ≤ addr + len := Nat.mod_le _ _
      have hnowrap : addr + len < 2 ^ 64 := by
        by_contra hwrap
        omega
      rw [Nat.mod_eq_of_lt hnowrap] at htop
      exact ⟨by omega, by omega⟩
    . intro hbytes
      have hfirst := (hbytes 0 hpos).1
      have htop := (hbytes (len - 1) (by omega)).2
      have hkernTop : kernTop < 2 ^ 64 := by decide
      rw [Nat.mod_eq_of_lt (by omega)]
      exact ⟨by omega, by omega, by omega⟩
  | some m =>
    rw [user_mem_check_exact (hok m rfl) addr len write hlen]
    constructor
    . rintro ⟨-, hnowrap, hbase, htop, hareas, hguard⟩ i hi
      refine ⟨by omega, by omega, hareas _ (by omega) (by omega), ?_⟩
      exact fun hwrite => hguard hwrite _ (by omega) (by omega)
    . intro hbytes
      have hfirst := (hbytes 0 hpos).1
      have htop := (hbytes (len - 1) (by omega)).2.1
      have huserTop : userTop < 2 ^ 64 := by decide
      have hpermits {la : Nat} (hle : addr ≤ la) (hlt : la < addr + len) : m.Permits write la := by
        have hbyte := (hbytes (la - addr) (by omega)).2.2
        rwa [Nat.add_sub_cancel' hle] at hbyte
      exact ⟨hpos, by omega, by omega, by omega, fun la hle hlt => (hpermits hle hlt).1,
        fun hwrite la hle hlt => (hpermits hle hlt).2 hwrite⟩

end SameAreas

/--
An area for a program with a stack right behind it.
-/
def codeAndStack : MmStruct :=
  ⟨[⟨0x400000, 0x401000, Vma.vmRead⟩, ⟨0x401000, 0x404000, Vma.vmRead ||| Vma.vmWrite ||| Vma.vmStack⟩], none, 2⟩

theorem codeAndStack_ok : codeAndStack.Ok :=
  ⟨⟨List.pairwise_pair.mpr (by decide), by decide, by decide⟩, by simp [codeAndStack], rfl⟩

theorem user_mem_check_exact_codeAndStack : (userMemCheck (some codeAndStack) 0x400800 0x1000 false).1 = true := by
  refine (user_mem_check_exact codeAndStack_ok 0x400800 0x1000 false (by decide)).mpr
    ⟨by decide, by decide, by decide, by decide, ?_, nofun⟩
  intro la hle hlt
  by_cases hcode : la < 0x401000
  . exact ⟨_, List.mem_cons_self, ⟨show 0x400000 ≤ la by omega, hcode⟩, by decide⟩
  . have hstack : 0x401000 ≤ la ∧ la < 0x404000 := by omega
    exact ⟨_, List.mem_cons_of_mem _ List.mem_cons_self, hstack, by decide⟩

end MmStruct
end Ucore

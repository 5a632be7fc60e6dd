import Ucore.Kern.Mm.Vmm.DupMmap

/-!
This module contains the handling of synchronous exceptions from user mode in kern/trap/trap.c: which of
them the kernel survives, and what is left of the process.
-/

namespace Ucore

/--
What a trap frame says about an exception.
-/
structure UserTrap where
  cause : Nat
  tval : Nat
  epc : BitVec 64
  a0 : BitVec 64
  a7 : BitVec 64

namespace UserTrap

variable {ι : Type} [DecidableEq ι]

/--
The system calls that have an entry in the table of `syscall`.
-/
def syscalls : List Nat :=
  [1, 2, 3, 4, 10, 11, 12, 17, 18, 30, 31, 100, 101, 102, 103, 104, 110, 111, 121, 128, 130, 255]

/--
The check of the number in `syscall`, which is an `int`. `none` stands for the panic.
-/
def syscallNum (tf : UserTrap) : Option Nat :=
  let num := (tf.a0.truncate 32).toInt
  if 0 ≤ num ∧ num.toNat ∈ syscalls then some num.toNat else none

/--
How `exception_handler` ends: with a panic, in the function of a system call, or it returns.
-/
inductive Handled (ι : Type) where
  | panics
  | syscall (num : Nat)
  | returns (epc : BitVec 64) (s : Paging ι)

def syscall (tf : UserTrap) : Handled ι :=
  match tf.syscallNum with
  | some num => .syscall num
  | none => .panics

/--
The page fault branches.
-/
def pgfault (pmm : PmmManager) (swap : Pte → Option PageData) (vmas : List Vma) (s : Paging ι) (i : ι)
    (tf : UserTrap) : Handled ι :=
  match s.doPgfault pmm swap vmas i tf.tval with
  | none => .panics
  | some (ret, s) => if ret ≠ 0 then .panics else .returns tf.epc s

def exceptionHandler (pmm : PmmManager) (swap : Pte → Option PageData) (vmas : List Vma) (s : Paging ι)
    (i : ι) (tf : UserTrap) : Handled ι :=
  match tf.cause with
  -- CAUSE_BREAKPOINT
  | 3 => if tf.a7 = 10 then tf.syscall else .returns tf.epc s
  -- CAUSE_LOAD_ACCESS
  | 5 => tf.pgfault pmm swap vmas s i
  -- CAUSE_MISALIGNED_STORE
  | 6 => .panics
  -- CAUSE_STORE_ACCESS
  | 7 => tf.pgfault pmm swap vmas s i
  -- CAUSE_USER_ECALL
  | 8 => tf.syscall
  -- CAUSE_SUPERVISOR_ECALL
  | 9 => tf.syscall
  -- CAUSE_LOAD_PAGE_FAULT
  | 13 => tf.pgfault pmm swap vmas s i
  -- CAUSE_STORE_PAGE_FAULT
  | 15 => tf.pgfault pmm swap vmas s i
  -- the other causes are only printed
  | _ => .returns tf.epc s

/--
How `trap` ends: as `exception_handler`, or behind it in `do_exit`, or in user mode.
-/
inductive TrapEnd (ι : Type) where
  | panics
  | syscall (num : Nat)
  | exits (err : Int) (s : Paging ι)
  | resumes (epc : BitVec 64) (s : Paging ι)

/--
`exiting` is the flag `PF_EXITING` of the process.
-/
def trap (pmm : PmmManager) (swap : Pte → Option PageData) (vmas : List Vma) (exiting : Bool)
    (s : Paging ι) (i : ι) (tf : UserTrap) : TrapEnd ι :=
  match tf.exceptionHandler pmm swap vmas s i with
  | .panics => .panics
  | .syscall num => .syscall num
  | .returns epc s => if exiting then .exits (-Errno.killed.toInt) s else .resumes epc s

/--
The access of a load or a store is allowed now.
-/
def Allowed (s : Paging ι) (i : ι) (tf : UserTrap) : Prop :=
  let pte := s.entries (i, pteKey tf.tval)
  pte.valid = true ∧ pte.flags &&& Pte.pteU ≠ 0 ∧
    ((tf.cause = 5 ∨ tf.cause = 13) ∧ pte.flags &&& Pte.pteR ≠ 0 ∨
      (tf.cause = 7 ∨ tf.cause = 15) ∧ pte.flags &&& Pte.pteW ≠ 0)

/--
The memory of all other processes is as it was.
-/
def OthersKept (swap : Pte → Option PageData) (s t : Paging ι) (i : ι) : Prop :=
  ∀ j, j ≠ i → (∀ k, t.entries (j, k) = s.entries (j, k)) ∧
    ∀ la, t.pageRead swap j la = s.pageRead swap j la

/--
A fault stays in its process: no panic, and the process does not come back to an instruction that faults
again.
-/
def StaysInProcess (swap : Pte → Option PageData) (s : Paging ι) (i : ι) (tf : UserTrap)
    : TrapEnd ι → Prop
  | .panics => False
  | .syscall _ => True
  | .exits _ t => OthersKept swap s t i
  | .resumes epc t => OthersKept swap s t i ∧ (epc ≠ tf.epc ∨ Allowed t i tf)

/--
The tables that `get_pte` has to create.
-/
def tablesMissing (s : Paging ι) (i : ι) (la : Nat) : Nat :=
  match s.pgdirs i (pdx1 la) with
  | none => 2
  | some pd => if (pd.tables (pdx0 la)).isSome then 0 else 1

/--
What a load or store needs: an area, which is writable unless the process is about to exit, free frames
for the page and its tables, and a page that was not touched or is on the swap disk.
-/
def FaultServed (swap : Pte → Option PageData) (vmas : List Vma) (exiting : Bool) (s : Paging ι) (i : ι)
    (tf : UserTrap) : Prop :=
  ∃ vma, vmas.find? (fun vma => vma.Has tf.tval) = some vma ∧
    (exiting = true ∨ vma.vmFlags &&& Vma.vmWrite ≠ 0) ∧ tablesMissing s i tf.tval < s.free.card ∧
    (s.entries (i, pteKey tf.tval) = Pte.zero ∨ swap (s.entries (i, pteKey tf.tval)) ≠ none)

/--
The exceptions that stay in their process.
-/
def Served (swap : Pte → Option PageData) (vmas : List Vma) (exiting : Bool) (s : Paging ι) (i : ι)
    (tf : UserTrap) : Prop :=
  match tf.cause with
  | 3 => if tf.a7 = 10 then tf.syscallNum ≠ none else exiting = true
  | 5 => FaultServed swap vmas exiting s i tf
  | 6 => False
  | 7 => FaultServed swap vmas exiting s i tf
  | 8 => tf.syscallNum ≠ none
  | 9 => tf.syscallNum ≠ none
  | 13 => FaultServed swap vmas exiting s i tf
  | 15 => FaultServed swap vmas exiting s i tf
  | _ => exiting = true

end UserTrap

namespace Paging

variable {ι : Type} [DecidableEq ι] {pmm : PmmManager} {s t u : Paging ι} {i : ι} {la page : Nat}
  {pte : Pte} {perm : BitVec 10} {vmas : List Vma} {vma : Vma} {swap : Pte → Option PageData}

omit [DecidableEq ι] in
theorem allocPage_complete (hpmm : pmm.Complete) (hfree : 0 < s.free.card)
    : ∃ page t, s.allocPage pmm = some (page, t) ∧ t.free.card = s.free.card - 1 ∧ t.pgdirs = s.pgdirs := by
  obtain ⟨page, hpage⟩ := Option.ne_none_iff_exists'.mp (hpmm s.free (Finset.card_pos.mp hfree))
  refine ⟨page, { s with free := s.free.erase page }, by rw [allocPage, hpage]; rfl, ?_, rfl⟩
  exact Finset.card_erase_of_mem (pmm.mem hpage)

omit [DecidableEq ι] in
theorem allocPage_empty (hfree : s.free.card = 0) : s.allocPage pmm = none := by
  cases halloc : s.allocPage pmm with
  | none => rfl
  | some r =>
    have hmem := (allocPage_extends halloc).2.1
    rw [Finset.card_eq_zero.mp hfree] at hmem
    contradiction

omit [DecidableEq ι] in
theorem getPte_of_tables (h : UserTrap.tablesMissing s i la = 0)
    : s.getPte i la = some (s.entries (i, pteKey la)) := by
  have hsome : ∃ pte, s.getPte i la = some pte := by
    unfold UserTrap.tablesMissing at h
    split at h
    . contradiction
    next pd hpd =>
      split at h
      next hpt =>
        obtain ⟨pt, hpt⟩ := Option.isSome_iff_exists.mp hpt
        exact ⟨pt.entries (ptx la), by simp [getPte, Pgdir.getPte, hpd, hpt]⟩
      . contradiction
  obtain ⟨pte, hget⟩ := hsome
  rw [hget, entries_of_getPte hget]

omit [DecidableEq ι] in
theorem tables_of_getPte (h : s.getPte i la = some pte) : UserTrap.tablesMissing s i la = 0 := by
  obtain ⟨pd, hpd, hpt⟩ := Option.bind_eq_some_iff.mp h
  obtain ⟨pt, hpt, -⟩ := Option.map_eq_some_iff.mp hpt
  simp [UserTrap.tablesMissing, hpd, hpt]

theorem getPteCreate_of_getPte (h : s.getPte i la = some pte) : s.getPteCreate pmm i la = (some pte, s) := by
  obtain ⟨pd, hpd, hpt⟩ := Option.bind_eq_some_iff.mp h
  obtain ⟨pt, hpt', -⟩ := Option.map_eq_some_iff.mp hpt
  simp [getPteCreate, createPageDir, createPageTable, hpd, hpt', h]

/--
The second level of `get_pte` takes a frame if the page table is missing.
-/
theorem createPageTable_cases (hpmm : pmm.Complete) {pd : PageDir} (hpd : s.pgdirs i (pdx1 la) = some pd)
    : if (pd.tables (pdx0 la)).isSome then s.createPageTable pmm i la = (true, s)
      else if s.free.card = 0 then (s.createPageTable pmm i la).1 = false
      else (s.createPageTable pmm i la).1 = true ∧
        (s.createPageTable pmm i la).2.free.card = s.free.card - 1 ∧
        UserTrap.tablesMissing (s.createPageTable pmm i la).2 i la = 0 := by
  cases hpt : pd.tables (pdx0 la) with
  | some pt => simp [createPageTable, hpd, hpt]
  | none =>
    simp only [Option.isSome_none, Bool.false_eq_true, if_false]
    split
    next hempty => simp [createPageTable, hpd, hpt, allocPage_empty hempty]
    next hfree =>
      obtain ⟨page, t, halloc, hcard, hpgdirs⟩ := allocPage_complete hpmm (Nat.pos_of_ne_zero hfree)
      simp [createPageTable, hpd, hpt, halloc, setPageRef, setPgdir, hcard, UserTrap.tablesMissing]

/--
`get_pte` with `create` needs a free frame for each missing table.
-/
theorem getPteCreate_cases (hpmm : pmm.Complete)
    : if s.free.card < UserTrap.tablesMissing s i la then (s.getPteCreate pmm i la).1 = none
      else ∃ u, s.getPteCreate pmm i la = (some (s.entries (i, pteKey la)), u) ∧
        u.free.card = s.free.card - UserTrap.tablesMissing s i la ∧
        u.getPte i la = some (s.entries (i, pteKey la)) := by
  have hfinal : ∀ {u : Paging ι}, UserTrap.tablesMissing u i la = 0 → u.entries = s.entries →
      u.getPte i la = some (s.entries (i, pteKey la)) := by
    intro u hu hentries
    rw [getPte_of_tables hu, hentries]
  have hextDir := @createPageDir_extends ι _ pmm s i la
  -- what the second level does to a state with the first level
  have hsecond : ∀ {t : Paging ι} {pd : PageDir}, s.createPageDir pmm i la = (true, t) →
      t.pgdirs i (pdx1 la) = some pd →
      if t.free.card < UserTrap.tablesMissing t i la then (s.getPteCreate pmm i la).1 = none
      else ∃ u, s.getPteCreate pmm i la = (some (s.entries (i, pteKey la)), u) ∧
        u.free.card = t.free.card - UserTrap.tablesMissing t i la ∧
        u.getPte i la = some (s.entries (i, pteKey la)) := by
    intro t pd hdir hpd
    rw [hdir] at hextDir
    have hcases := @createPageTable_cases ι _ pmm t i la hpmm pd hpd
    have hextTable := @createPageTable_extends ι _ pmm t i la
    by_cases hpt : (pd.tables (pdx0 la)).isSome
    . have hmissing : UserTrap.tablesMissing t i la = 0 := by simp [UserTrap.tablesMissing, hpd, hpt]
      rw [if_pos hpt] at hcases
      rw [hmissing, if_neg (Nat.not_lt_zero _)]
      have hget := hfinal hmissing hextDir.entries
      exact ⟨t, by simp [getPteCreate, hdir, hcases, hget], rfl, hget⟩
    . have hmissing : UserTrap.tablesMissing t i la = 1 := by simp [UserTrap.tablesMissing, hpd, hpt]
      rw [if_neg hpt] at hcases
      rw [hmissing]
      rcases hcreate : t.createPageTable pmm i la with ⟨b, u⟩
      rw [hcreate] at hcases hextTable
      split at hcases
      next hempty =>
        rw [if_pos (by omega)]
        simp only at hcases
        simp [getPteCreate, hdir, hcreate, hcases]
      next hfree =>
        obtain ⟨hb, hcard, htables⟩ := hcases
        rw [if_neg (by omega)]
        have hget := hfinal htables (hextTable.entries.trans hextDir.entries)
        simp only at hb
        exact ⟨u, by simp [getPteCreate, hdir, hcreate, hb, hget], hcard, hget⟩
  cases hpd : s.pgdirs i (pdx1 la) with
  | some pd => exact hsecond (by simp [createPageDir, hpd]) hpd
  | none =>
    have hmissing : UserTrap.tablesMissing s i la = 2 := by simp [UserTrap.tablesMissing, hpd]
    rw [hmissing]
    by_cases hempty : s.free.card = 0
    . rw [if_pos (by omega)]
      simp [getPteCreate, createPageDir, hpd, allocPage_empty hempty]
    . obtain ⟨page, t, halloc, hcard, hpgdirs⟩ := allocPage_complete hpmm (Nat.pos_of_ne_zero hempty)
      have hdir : s.createPageDir pmm i la = (true, (t.setPageRef page 1).setPgdir i
          (Function.update ((t.setPageRef page 1).pgdirs i) (pdx1 la) (some ⟨page, fun _ => none⟩))) := by
        simp [createPageDir, hpd, halloc]
      have hres := @hsecond _ ⟨page, fun _ => none⟩ hdir (by simp [setPgdir])
      generalize hw : (t.setPageRef page 1).setPgdir i _ = w at hdir hres
      have hwcard : w.free.card = s.free.card - 1 := by
        subst hw
        exact hcard
      have hwmissing : UserTrap.tablesMissing w i la = 1 := by
        subst hw
        simp [UserTrap.tablesMissing, setPgdir]
      rw [hwmissing, hwcard] at hres
      split at hres
      next hshort => rwa [if_pos (by omega)]
      next henough =>
        obtain ⟨u, hu, hucard, huget⟩ := hres
        rw [if_neg (by omega)]
        exact ⟨u, hu, by omega, huget⟩

theorem pageInsert_of_getPte (h : s.getPte i la = some pte) : (s.pageInsert pmm i page la perm).1 = 0 := by
  rw [pageInsert, getPteCreate_of_getPte h]

omit [DecidableEq ι] in
theorem tables_page (addr : Nat)
    : UserTrap.tablesMissing s i (addr / pgsize * pgsize) = UserTrap.tablesMissing s i addr := by
  obtain ⟨h₁, h⟩ := Prod.mk.inj (pteKey_pageStart addr)
  obtain ⟨h₀, -⟩ := Prod.mk.inj h
  rw [UserTrap.tablesMissing, UserTrap.tablesMissing, h₁, h₀]

/--
`pgdir_alloc_page` where the tables are there needs one free frame.
-/
theorem pgdirAllocPage_cases (hpmm : pmm.Complete) (hget : s.getPte i la = some pte)
    : if s.free.card = 0 then (s.pgdirAllocPage pmm i la perm).1 = none
      else ∃ page t, s.pgdirAllocPage pmm i la perm = (some page, t) ∧
        t.entries = Function.update s.entries (i, pteKey la) (Pte.pteCreate page (Pte.pteV ||| perm)) := by
  split
  next hempty => rw [pgdirAllocPage, allocPage_empty hempty]
  next hfree =>
    obtain ⟨page, t, halloc, -, hpgdirs⟩ := allocPage_complete hpmm (Nat.pos_of_ne_zero hfree)
    have hget' : t.getPte i la = some pte := by
      rw [getPte, hpgdirs]
      exact hget
    have hret := @pageInsert_of_getPte _ _ pmm t i la page pte perm hget'
    refine ⟨page, (t.pageInsert pmm i page la perm).2, ?_, ?_⟩
    . simp [pgdirAllocPage, halloc, hret]
    . rw [pageInsert_entries hret, (allocPage_extends halloc).1.entries]

/--
The permissions that `do_pgfault` gives a page.
-/
def faultPerm (vma : Vma) : BitVec 10 :=
  if vma.vmFlags &&& Vma.vmWrite ≠ 0 then Pte.pteU ||| Pte.readWrite else Pte.pteU

/--
When `do_pgfault` serves an address of an area, and the entry that it makes.
-/
theorem doPgfault_cases {addr : Nat} (hpmm : pmm.Complete)
    (hfind : (vmas.find? fun vma => vma.Has addr) = some vma)
    : if UserTrap.tablesMissing s i addr < s.free.card ∧
          (s.entries (i, pteKey addr) = Pte.zero ∨ swap (s.entries (i, pteKey addr)) ≠ none) then
        ∃ t page, s.doPgfault pmm swap vmas i addr = some (0, t) ∧
          t.entries (i, pteKey addr) = Pte.pteCreate page (Pte.pteV ||| faultPerm vma)
      else ∀ t, s.doPgfault pmm swap vmas i addr ≠ some (0, t) := by
  have hkey := pteKey_pageStart addr
  have hcreate := @getPteCreate_cases _ _ pmm s i (addr / pgsize * pgsize) hpmm
  have hext := @getPteCreate_extends _ _ pmm s i (addr / pgsize * pgsize)
  rw [tables_page, hkey] at hcreate
  have hnomem : ∀ {r : Paging ι} t, some (-Errno.noMem.toInt, r) ≠ some (0, t) := by
    intro r t heq
    exact absurd (Prod.mk.inj (Option.some_inj.mp heq)).1 (by decide)
  rw [doPgfault, hfind]
  simp only
  rw [← faultPerm]
  generalize s.getPteCreate pmm i (addr / pgsize * pgsize) = r at *
  obtain ⟨pte?, u⟩ := r
  split at hcreate
  next hshort =>
    simp only at hcreate
    subst hcreate
    rw [if_neg (by omega)]
    exact hnomem
  next henough =>
    obtain ⟨u', heq, hcard, hget⟩ := hcreate
    obtain ⟨rfl, rfl⟩ := Prod.mk.inj heq
    simp only at hext
    by_cases hzero : s.entries (i, pteKey addr) = Pte.zero
    . have halloc := @pgdirAllocPage_cases _ _ pmm u i _ _ (faultPerm vma) hpmm hget
      simp only [hzero, true_or, and_true, if_true]
      split at halloc
      next hempty =>
        rw [if_neg (by omega)]
        generalize u.pgdirAllocPage pmm i (addr / pgsize * pgsize) (faultPerm vma) = r at *
        obtain ⟨page?, t⟩ := r
        simp only at halloc
        subst halloc
        exact hnomem
      next hfree =>
        rw [if_pos (by omega)]
        obtain ⟨page, t, halloc, hentries⟩ := halloc
        rw [halloc]
        refine ⟨t, page, rfl, ?_⟩
        rw [hentries, hkey, Function.update_self]
    . simp only [hzero, false_or, if_false]
      by_cases hempty : u.free.card = 0
      . rw [if_neg (by omega), allocPage_empty hempty]
        simp
      . obtain ⟨page, v, halloc, -, hpgdirs⟩ := allocPage_complete hpmm (Nat.pos_of_ne_zero hempty)
        simp only [halloc]
        cases hswap : swap (s.entries (i, pteKey addr)) with
        | none =>
          rw [if_neg (by simp)]
          simp
        | some content =>
          rw [if_pos ⟨by omega, Option.some_ne_none content⟩]
          generalize hw : ({ v with data := Function.update v.data page content } : Paging ι) = w
          have hget' : w.getPte i (addr / pgsize * pgsize) = some (s.entries (i, pteKey addr)) := by
            subst hw
            rw [← hget]
            simp only [getPte, hpgdirs]
          have hret := @pageInsert_of_getPte _ _ pmm w i _ page _ (faultPerm vma) hget'
          refine ⟨(w.pageInsert pmm i page (addr / pgsize * pgsize) (faultPerm vma)).2, page, ?_, ?_⟩
          . subst hw
            simp [hret]
          . rw [pageInsert_entries hret, hkey, Function.update_self]

end Paging

namespace UserTrap

open Paging

variable {ι : Type} [DecidableEq ι] [Fintype ι] {pmm : PmmManager} {s t : Paging ι} {i : ι} {tf : UserTrap}
  {vmas : List Vma} {swap : Pte → Option PageData} {exiting : Bool}

omit [DecidableEq ι] [Fintype ι] in
theorem OthersKept.refl : OthersKept swap s s i := fun _ _ => ⟨fun _ => rfl, fun _ => rfl⟩

omit [DecidableEq ι] in
theorem othersKept_of_enters (hs : Consistent s) (h : Enters s t i) : OthersKept swap s t i := by
  intro j hj
  have hentries : ∀ k, t.entries (j, k) = s.entries (j, k) := fun k =>
    (h.entries (j, k)).resolve_right fun hnew => hj hnew.1
  exact ⟨hentries, fun la => pageRead_congr (hentries _) fun hvalid => h.data _ (hs.ppn_not_free hvalid)⟩

/--
A page that `do_pgfault` has mapped can be used if its area is writable.
-/
theorem faultPerm_flags (page : Nat) (vma : Vma)
    : let pte := Pte.pteCreate page (Pte.pteV ||| faultPerm vma)
      pte.valid = true ∧ pte.flags &&& Pte.pteU ≠ 0 ∧
        (pte.flags &&& Pte.pteR ≠ 0 ↔ vma.vmFlags &&& Vma.vmWrite ≠ 0) ∧
        (pte.flags &&& Pte.pteW ≠ 0 ↔ vma.vmFlags &&& Vma.vmWrite ≠ 0) := by
  simp only [faultPerm]
  split
  next h =>
    simp only [Pte.pteCreate, Pte.valid, h, ne_eq, not_false_eq_true, iff_true]
    exact ⟨by decide, by decide, by decide, by decide⟩
  next h =>
    simp only [Pte.pteCreate, Pte.valid, h, iff_false]
    exact ⟨by decide, by decide, by decide, by decide⟩

/--
The page fault branches of the handler.
-/
theorem pgfault_stays (hs : Consistent s) (hpmm : pmm.Complete)
    (hcause : tf.cause = 5 ∨ tf.cause = 13 ∨ tf.cause = 7 ∨ tf.cause = 15)
    (htrap : tf.exceptionHandler pmm swap vmas s i = tf.pgfault pmm swap vmas s i)
    : StaysInProcess swap s i tf (tf.trap pmm swap vmas exiting s i) ↔
        FaultServed swap vmas exiting s i tf := by
  rw [trap, htrap, pgfault]
  cases hfind : vmas.find? fun vma => vma.Has tf.tval with
  | none =>
    have hfault : s.doPgfault pmm swap vmas i tf.tval = some (-Errno.inval.toInt, s) := by
      rw [doPgfault, hfind]
    have hne : -Errno.inval.toInt ≠ 0 := by decide
    simp [hfault, hne, StaysInProcess, FaultServed, hfind]
  | some vma =>
    have hcases := @doPgfault_cases _ _ pmm s i vmas vma swap tf.tval hpmm hfind
    have hserved : FaultServed swap vmas exiting s i tf ↔
        (exiting = true ∨ vma.vmFlags &&& Vma.vmWrite ≠ 0) ∧ tablesMissing s i tf.tval < s.free.card ∧
          (s.entries (i, pteKey tf.tval) = Pte.zero ∨ swap (s.entries (i, pteKey tf.tval)) ≠ none) := by
      simp only [FaultServed, hfind, Option.some_inj, exists_eq_left']
    rw [hserved]
    split at hcases
    next hok =>
      obtain ⟨t, page, hfault, hentry⟩ := hcases
      have hkept : OthersKept swap s t i := othersKept_of_enters hs (doPgfault_enters hs hfault).1
      have hflags := faultPerm_flags page vma
      simp only [← hentry] at hflags
      simp only [hfault, ne_eq, not_true_eq_false, if_false, hok, and_true]
      cases exiting with
      | true => simp [StaysInProcess, hkept]
      | false =>
        obtain ⟨hvalid, huser, hread, hwrite⟩ := hflags
        have hall : Allowed t i tf ↔ vma.vmFlags &&& Vma.vmWrite ≠ 0 := by
          simp only [Allowed, hvalid, true_and, hread, hwrite]
          constructor
          . rintro ⟨-, ⟨-, hw⟩ | ⟨-, hw⟩⟩
            . exact hw
            . exact hw
          . intro hw
            refine ⟨huser, ?_⟩
            rcases hcause with h | h | h | h
            . exact .inl ⟨.inl h, hw⟩
            . exact .inl ⟨.inr h, hw⟩
            . exact .inr ⟨.inl h, hw⟩
            . exact .inr ⟨.inr h, hw⟩
        simp [StaysInProcess, hkept, hall]
    next hfails =>
      have hnot : ¬((exiting = true ∨ vma.vmFlags &&& Vma.vmWrite ≠ 0) ∧
          tablesMissing s i tf.tval < s.free.card ∧ (s.entries (i, pteKey tf.tval) = Pte.zero ∨
            swap (s.entries (i, pteKey tf.tval)) ≠ none)) := fun h => hfails h.2
      simp only [hnot, iff_false]
      cases hfault : s.doPgfault pmm swap vmas i tf.tval with
      | none => exact fun h => h
      | some r =>
        obtain ⟨ret, t⟩ := r
        have hret : ret ≠ 0 := by
          rintro rfl
          exact hcases t hfault
        simp [hret, StaysInProcess]

omit [Fintype ι] in
/--
The branches that only print.
-/
theorem printed_stays (hhandler : tf.exceptionHandler pmm swap vmas s i = .returns tf.epc s)
    (hcause : ¬(tf.cause = 5 ∨ tf.cause = 13 ∨ tf.cause = 7 ∨ tf.cause = 15))
    : StaysInProcess swap s i tf (tf.trap pmm swap vmas exiting s i) ↔ exiting = true := by
  rw [trap, hhandler]
  cases exiting with
  | true => simp [StaysInProcess, OthersKept.refl]
  | false =>
    have hnot : ¬Allowed s i tf := by
      rintro ⟨-, -, ⟨h, -⟩ | ⟨h, -⟩⟩ <;> omega
    simp [StaysInProcess, hnot]

omit [Fintype ι] in
theorem syscall_stays (hhandler : tf.exceptionHandler pmm swap vmas s i = tf.syscall)
    : StaysInProcess swap s i tf (tf.trap pmm swap vmas exiting s i) ↔ tf.syscallNum ≠ none := by
  rw [trap, hhandler, syscall]
  cases tf.syscallNum with
  | none => simp [StaysInProcess]
  | some num => simp [StaysInProcess]

/--
Which exceptions stay in their process, for every cause, address and register contents.
-/
theorem user_fault_stays (hs : Consistent s) (hpmm : pmm.Complete)
    : StaysInProcess swap s i tf (tf.trap pmm swap vmas exiting s i) ↔ Served swap vmas exiting s i tf := by
  rw [Served]
  split
  next hcause =>
    by_cases hecall : tf.a7 = 10
    . rw [if_pos hecall]
      exact syscall_stays (by simp only [exceptionHandler, hcause, hecall, if_true])
    . rw [if_neg hecall]
      exact printed_stays (by simp only [exceptionHandler, hcause, hecall, if_false]) (by omega)
  next hcause => exact pgfault_stays hs hpmm (by omega) (by simp only [exceptionHandler, hcause])
  next hcause =>
    have hhandler : tf.exceptionHandler pmm swap vmas s i = .panics := by
      simp only [exceptionHandler, hcause]
    rw [trap, hhandler]
    rfl
  next hcause => exact pgfault_stays hs hpmm (by omega) (by simp only [exceptionHandler, hcause])
  next hcause => exact syscall_stays (by simp only [exceptionHandler, hcause])
  next hcause => exact syscall_stays (by simp only [exceptionHandler, hcause])
  next hcause => exact pgfault_stays hs hpmm (by omega) (by simp only [exceptionHandler, hcause])
  next hcause => exact pgfault_stays hs hpmm (by omega) (by simp only [exceptionHandler, hcause])
  next h₃ h₅ h₆ h₇ h₈ h₉ h₁₃ h₁₅ =>
    apply printed_stays
    . unfold exceptionHandler
      split <;> first | rfl | contradiction
    . rintro (h | h | h | h)
      . exact h₅ h
      . exact h₁₃ h
      . exact h₇ h
      . exact h₁₅ h

/--
A store to an untouched page of a writable area.
-/
theorem user_fault_stays_store
    : StaysInProcess (fun _ => none) emptyPaging 0 ⟨15, 0x800004, 0x800100, 0, 0⟩
        (trap firstPage (fun _ => none) onePage false emptyPaging 0 ⟨15, 0x800004, 0x800100, 0, 0⟩) := by
  have hserved : Served (fun _ => none) onePage false emptyPaging 0 ⟨15, 0x800004, 0x800100, 0, 0⟩ :=
    ⟨⟨0x800000, 0x801000, Vma.vmRead ||| Vma.vmWrite⟩, by decide, .inr (by decide), by decide, .inl rfl⟩
  exact (user_fault_stays emptyPaging_consistent firstPage_complete).mpr hserved

/--
An illegal instruction is only printed, and the process comes back to it.
-/
theorem user_fault_stays_illegal
    : ¬(∀ (pmm : PmmManager) (swap : Pte → Option PageData) (vmas : List Vma) (exiting : Bool)
        (s : Paging (Fin 2)) (i : Fin 2) (tf : UserTrap), Consistent s → pmm.Complete →
        StaysInProcess swap s i tf (tf.trap pmm swap vmas exiting s i)) := by
  intro hall
  have hstays := hall firstPage (fun _ => none) [] false emptyPaging 0 ⟨2, 0, 0x800100, 0, 0⟩
    emptyPaging_consistent firstPage_complete
  have hhandler : exceptionHandler firstPage (fun _ => none) [] emptyPaging 0 ⟨2, 0, 0x800100, 0, 0⟩ =
      .returns 0x800100 emptyPaging := rfl
  exact absurd ((printed_stays hhandler (by decide)).mp hstays) (by decide)

end UserTrap

end Ucore

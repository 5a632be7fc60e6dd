import Ucore.Kern.Mm.Vmm.Copies

/-!
This module contains what `dup_mmap` gives a child: its areas, the contents of its pages, and that later
writes of one process do not reach the other.
-/

namespace Ucore

namespace Vma

/--
What `mm_map` and `insert_vma_struct` keep of the areas of an address space.
-/
structure AllOk (vmas : List Vma) : Prop where
  sorted : vmas.Pairwise fun prev next => prev.vmEnd ≤ next.vmStart
  aligned : ∀ vma ∈ vmas, vma.vmStart % pgsize = 0 ∧ vma.vmEnd % pgsize = 0
  access : ∀ vma ∈ vmas, userAccess vma.vmStart vma.vmEnd

variable {vmas to_ : List Vma} {vma : Vma}

/--
An area in front of all others is put at the head of the list.
-/
theorem insertVmaStruct_head (h : AllOk (vma :: to_)) {res : List Vma}
    (hins : insertVmaStruct to_ vma = some res)
    : res = vma :: to_ := by
  have hfirst := (List.pairwise_cons.mp h.sorted).1
  have hnone : ∀ next ∈ to_, ¬next.vmStart ≤ vma.vmStart := by
    intro next hnext hle
    have := hfirst next hnext
    have := (h.access vma List.mem_cons_self).2.1
    omega
  have hbefore : (to_.takeWhile fun prev => prev.vmStart ≤ vma.vmStart) = [] := by
    cases to_ with
    | nil => rfl
    | cons next rest => simp [hnone next List.mem_cons_self]
  have hbehind : (to_.dropWhile fun prev => prev.vmStart ≤ vma.vmStart) = to_ := by
    cases to_ with
    | nil => rfl
    | cons next rest => simp [hnone next List.mem_cons_self]
  simp only [insertVmaStruct, hbefore, hbehind] at hins
  split at hins
  . exact (Option.some_inj.mp hins).symm
  . contradiction

end Vma

namespace Paging

variable {ι : Type} [DecidableEq ι] [Fintype ι] {pmm : PmmManager} {s t u : Paging ι} {dst src i j : ι}
  {la page f : Nat} {pte old : Pte} {vmas to_ res : List Vma} {vma : Vma} {created : Vma → Bool}
  {swap : Pte → Option PageData}

/--
The entries of the pages of the areas.
-/
def InAreas (vmas : List Vma) (k : PteKey) : Prop := ∃ vma ∈ vmas, InRange vma.vmStart vma.vmEnd k

/--
A new address space: `setup_pgdir` copies only what is mapped in the kernel.
-/
def Fresh (s : Paging ι) (i : ι) : Prop := ∀ k, s.entries (i, k) = Pte.zero

theorem dupMmapLoop_copies {rest : List Vma} (hs : Consistent s) (hne : src ≠ dst)
    (hok : Vma.AllOk (rest.reverse ++ to_))
    (hzero : ∀ k, InAreas rest k → (s.entries (dst, k)).valid = false)
    (hdup : dupMmapLoop pmm created dst src rest to_ s = some (0, res, t))
    : res = rest.reverse ++ to_ ∧ Copies s t dst src (InAreas rest) ∧ Consistent t := by
  induction rest generalizing s to_ with
  | nil =>
    rw [dupMmapLoop, Option.some_inj] at hdup
    obtain ⟨-, hdup⟩ := Prod.mk.inj hdup
    obtain ⟨rfl, rfl⟩ := Prod.mk.inj hdup
    refine ⟨rfl, Copies.refl ?_, hs⟩
    rintro k ⟨vma, hmem, -⟩
    contradiction
  | cons vma rest ih =>
    rw [List.reverse_cons, List.append_assoc, List.singleton_append] at hok
    rw [dupMmapLoop] at hdup
    have hnomem : ∀ {r : List Vma × Paging ι}, some (-Errno.noMem.toInt, r) ≠ some (0, res, t) := by
      intro r heq
      exact absurd (Prod.mk.inj (Option.some_inj.mp heq)).1 (by decide)
    split at hdup
    . have hokHead : Vma.AllOk (vma :: to_) :=
        ⟨(List.pairwise_append.mp hok.sorted).2.1, fun v hv => hok.aligned v (List.mem_append_right _ hv),
          fun v hv => hok.access v (List.mem_append_right _ hv)⟩
      cases hins : Vma.insertVmaStruct to_ vma with
      | none => simp [hins] at hdup
      | some res' =>
        have hres := Vma.insertVmaStruct_head hokHead hins
        subst hres
        simp only [hins] at hdup
        cases hcopy : s.copyRange pmm dst src vma.vmStart vma.vmEnd with
        | none => simp [hcopy] at hdup
        | some r =>
          obtain ⟨ret, states⟩ := r
          simp only [hcopy] at hdup
          by_cases hret : ret = 0
          . subst hret
            simp only [ne_eq, not_true_eq_false, if_false] at hdup
            have haccess := hokHead.access vma List.mem_cons_self
            have haligned := hokHead.aligned vma List.mem_cons_self
            rw [copyRange] at hcopy
            split at hcopy
            next hassert =>
              have htop : vma.vmEnd ≤ 2 ^ 39 := Nat.le_trans haccess.2.2 (by decide)
              have hrange := copyLoop_copies hs hne haligned.1 haccess.2.1 htop
                (fun la hle hlt => hzero _ ⟨vma, List.mem_cons_self, la, hle, hlt, rfl⟩) hcopy
              have hcons := hs.getLastD
                (copyLoop_chain hs (Nat.le_refl vma.vmStart) haccess.2.1 hcopy)
              -- the other areas lie in front of this one
              have hdisj : ∀ k, InRange vma.vmStart vma.vmEnd k → ¬InAreas rest k := by
                rintro k hk ⟨other, hother, hin⟩
                have hfirst := (List.pairwise_append.mp hok.sorted).2.2 other
                  (List.mem_reverse.mpr hother) vma List.mem_cons_self
                obtain ⟨la, hle, hlt, heq⟩ := hin
                exact inRange_disjoint haligned.1 htop ⟨la, hle, Nat.lt_of_lt_of_le hlt hfirst, heq⟩ hk
              have hzeroRest : ∀ k, InAreas rest k → ((states.getLastD s).entries (dst, k)).valid = false := by
                intro k hk
                rw [hrange.others dst k fun h => hdisj k h.2 hk]
                obtain ⟨other, hother, hin⟩ := hk
                exact hzero k ⟨other, List.mem_cons_of_mem _ hother, hin⟩
              obtain ⟨hres, hcopies, hconsistent⟩ := ih hcons hok hzeroRest hdup
              refine ⟨?_, ?_, hconsistent⟩
              . rw [hres, List.reverse_cons, List.append_assoc, List.singleton_append]
              . apply (Copies.trans hs hne hrange hcopies hdisj).congr
                intro k
                simp only [InAreas, List.exists_mem_cons_iff]
            . contradiction
          . simp only [ne_eq, hret, not_false_eq_true, if_true] at hdup
            exact absurd hdup hnomem
    . exact absurd hdup hnomem

/--
A successful `dup_mmap` into a new address space.
-/
theorem dupMmap_copies (hs : Consistent s) (hne : src ≠ dst) (hok : Vma.AllOk vmas) (hfresh : s.Fresh dst)
    (hdup : s.dupMmap pmm created dst src vmas = some (0, res, t))
    : res = vmas ∧ Copies s t dst src (InAreas vmas) ∧ Consistent t := by
  have hok' : Vma.AllOk (vmas.reverse.reverse ++ []) := by
    rw [List.reverse_reverse, List.append_nil]
    exact hok
  have hzero : ∀ k, InAreas vmas.reverse k → (s.entries (dst, k)).valid = false := by
    intro k _
    rw [hfresh]
    rfl
  obtain ⟨hres, hcopies, hcons⟩ := dupMmapLoop_copies hs hne hok' hzero hdup
  refine ⟨by simpa using hres, hcopies.congr fun k => ?_, hcons⟩
  simp only [InAreas, List.mem_reverse]

omit [DecidableEq ι] [Fintype ι] in
theorem pageRead_eq
    : s.pageRead swap i la =
        if (s.entries (i, pteKey la)).valid then some (s.data (s.entries (i, pteKey la)).ppn)
        else if s.entries (i, pteKey la) = Pte.zero then none else swap (s.entries (i, pteKey la)) := by
  rw [pageRead]
  cases hget : s.getPte i la with
  | none =>
    rw [entries_of_getPte_none hget rfl rfl]
    rfl
  | some pte => rw [entries_of_getPte hget]

/--
What a process can do to memory later: write a byte, or have a page fault.
-/
inductive UserOp (ι : Type) where
  | write (i : ι) (la : Nat) (off : Fin pgsize) (byte : BitVec 8)
  | fault (i : ι) (pmm : PmmManager) (vmas : List Vma) (addr : Nat)

def UserOp.proc : UserOp ι → ι
  | write i _ _ _ => i
  | fault i _ _ _ => i

def userStep (swap : Pte → Option PageData) (s : Paging ι) : UserOp ι → Option (Paging ι)
  | .write i la off byte => some (s.writeByte i la off byte)
  | .fault i pmm vmas addr => (s.doPgfault pmm swap vmas i addr).map (·.2)

/--
No frame is mapped in both address spaces.
-/
def Apart (s : Paging ι) (i j : ι) : Prop :=
  ∀ k k', (s.entries (i, k)).valid = true → (s.entries (j, k')).valid = true →
    (s.entries (i, k)).ppn ≠ (s.entries (j, k')).ppn

/--
One process maps frames that were free, nothing else changes.
-/
structure Enters (s t : Paging ι) (i : ι) : Prop where
  entries : ∀ x, t.entries x = s.entries x ∨ x.1 = i ∧ (t.entries x).ppn ∈ s.free
  data : ∀ f, f ∉ s.free → t.data f = s.data f

omit [DecidableEq ι] [Fintype ι] in
theorem Enters.of_entries (hentries : t.entries = s.entries) (hdata : ∀ f, f ∉ s.free → t.data f = s.data f)
    : Enters s t i :=
  ⟨fun x => .inl (by rw [hentries]), hdata⟩

omit [DecidableEq ι] [Fintype ι] in
theorem Enters.of_extends (hext : Extends s t) (hdata : ∀ f, f ∉ s.free → t.data f = s.data f)
    (h : Enters t u i)
    : Enters s u i := by
  constructor
  . intro x
    rcases h.entries x with heq | ⟨hx, hmem⟩
    . exact .inl (by rw [heq, hext.entries])
    . exact .inr ⟨hx, hext.free hmem⟩
  . intro f hf
    rw [h.data f fun hmem => hf (hext.free hmem), hdata f hf]

theorem pageInsert_enters (hs : Consistent s) (hmem : page ∈ s.free) (h : Extends s t) {perm : BitVec 10}
    (hnot : page ∉ t.free) (href : t.ref = s.ref) (hdata : ∀ f, f ∉ s.free → t.data f = s.data f)
    : Enters s (t.pageInsert pmm i page la perm).2 i ∧
        Consistent (t.pageInsert pmm i page la perm).2 := by
  have ht := h.consistent hs
  have hzero := hs.free page hmem
  have hcount : t.ref page = t.count page := by
    rw [href, count_congr h.entries, hzero.1, hzero.2]
    rfl
  have hdata' : ∀ f, f ∉ s.free → (t.pageInsert pmm i page la perm).2.data f = s.data f := by
    intro f hf
    rw [pageInsert_data, hdata f hf]
  rcases @pageInsert_spec ι _ _ pmm t i la page perm ht hnot hcount with ⟨-, hext⟩ | ⟨hret, hgoes⟩
  . exact ⟨Enters.of_entries ((h.trans hext).entries) hdata', hext.consistent ht⟩
  . refine ⟨⟨?_, hdata'⟩, hgoes.consistent⟩
    intro x
    rw [pageInsert_entries hret, Function.update_apply]
    split
    next heq =>
      subst heq
      exact .inr ⟨rfl, hmem⟩
    next heq => exact .inl (by rw [h.entries])

theorem pgdirAllocPage_enters (hs : Consistent s) {perm : BitVec 10}
    : Enters s (s.pgdirAllocPage pmm i la perm).2 i := by
  rw [pgdirAllocPage]
  cases halloc : s.allocPage pmm with
  | none => exact Enters.of_entries rfl fun _ _ => rfl
  | some r =>
    obtain ⟨page, t⟩ := r
    obtain ⟨hext, hmem, hnot, href⟩ := allocPage_extends halloc
    have hdata : ∀ f, f ∉ s.free → t.data f = s.data f := fun f _ => by rw [allocPage_data halloc]
    have hins := (@pageInsert_enters ι _ _ pmm s t i la page hs hmem hext perm hnot href hdata).1
    simp only
    split
    . exact ⟨hins.entries, hins.data⟩
    . exact hins

/--
`do_pgfault` maps at most a frame that was free.
-/
theorem doPgfault_enters {addr : Nat} {ret : Int} (hs : Consistent s)
    (hfault : s.doPgfault pmm swap vmas i addr = some (ret, t))
    : Enters s t i ∧ Consistent t := by
  rw [doPgfault] at hfault
  split at hfault
  . obtain ⟨-, rfl⟩ := Prod.mk.inj (Option.some_inj.mp hfault)
    exact ⟨Enters.of_entries rfl fun _ _ => rfl, hs⟩
  next vma _ =>
    generalize (if vma.vmFlags &&& Vma.vmWrite ≠ 0 then Pte.pteU ||| Pte.readWrite else Pte.pteU) = perm
      at hfault
    simp only at hfault
    have hext := @getPteCreate_extends ι _ pmm s i (addr / pgsize * pgsize)
    have hdata := @getPteCreate_data ι _ pmm s i (addr / pgsize * pgsize)
    rcases hcreate : s.getPteCreate pmm i (addr / pgsize * pgsize) with ⟨_ | pte, u⟩ <;>
      rw [hcreate] at hext hdata <;> simp only [hcreate] at hfault
    . obtain ⟨-, rfl⟩ := Prod.mk.inj (Option.some_inj.mp hfault)
      exact ⟨Enters.of_entries hext.entries fun f _ => by rw [hdata], hext.consistent hs⟩
    . have hu := hext.consistent hs
      have hdataU : ∀ f, f ∉ s.free → u.data f = s.data f := fun f _ => by rw [hdata]
      split at hfault
      . -- the page was not touched before
        have henters := @pgdirAllocPage_enters ι _ _ pmm u i (addr / pgsize * pgsize) hu perm
        have hgoes := @pgdirAllocPage_goesTo ι _ _ pmm u i (addr / pgsize * pgsize) perm hu
        rcases halloc : u.pgdirAllocPage pmm i (addr / pgsize * pgsize) perm with ⟨_ | page, v⟩ <;>
          rw [halloc] at henters hgoes <;> simp only [halloc] at hfault <;>
          obtain ⟨-, rfl⟩ := Prod.mk.inj (Option.some_inj.mp hfault) <;>
          exact ⟨Enters.of_extends hext hdataU henters, hgoes.consistent⟩
      . -- the page comes from the swap disk
        cases halloc : u.allocPage pmm with
        | none => simp [halloc] at hfault
        | some r =>
          obtain ⟨page, v⟩ := r
          obtain ⟨hext', hmem, hnot, href⟩ := allocPage_extends halloc
          simp only [halloc] at hfault
          cases hswap : swap pte with
          | none => simp [hswap] at hfault
          | some content =>
            simp only [hswap] at hfault
            have hextW : Extends u { v with data := Function.update v.data page content } :=
              ⟨hext'.entries, hext'.free, hext'.ref⟩
            have hdataW : ∀ f, f ∉ u.free → Function.update v.data page content f = u.data f := by
              intro f hf
              rw [Function.update_of_ne, allocPage_data halloc]
              rintro rfl
              exact hf hmem
            obtain ⟨henters, hcons⟩ := @pageInsert_enters ι _ _ pmm u
              { v with data := Function.update v.data page content } i (addr / pgsize * pgsize) page hu hmem
              hextW perm hnot href hdataW
            split at hfault <;> obtain ⟨-, rfl⟩ := Prod.mk.inj (Option.some_inj.mp hfault) <;>
              exact ⟨Enters.of_extends hext hdataU henters, hcons⟩

omit [DecidableEq ι] [Fintype ι] in
theorem writeByte_cases {off : Fin pgsize} {byte : BitVec 8}
    : s.writeByte i la off byte = s ∨ ∃ d, (s.entries (i, pteKey la)).valid = true ∧
        s.writeByte i la off byte =
          { s with data := Function.update s.data (s.entries (i, pteKey la)).ppn d } := by
  rw [writeByte]
  split
  . exact .inl rfl
  next pte hget =>
    rw [entries_of_getPte hget]
    split
    next hvalid => exact .inr ⟨_, hvalid.1, rfl⟩
    . exact .inl rfl

/--
The state in which two processes go on after a `fork`.
-/
structure Later (s : Paging ι) (dst src : ι) : Prop where
  consistent : Consistent s
  apart : Apart s dst src
  ne : src ≠ dst

omit [DecidableEq ι] in
theorem Later.symm (h : Later s dst src) : Later s src dst :=
  ⟨h.consistent, fun k k' hk hk' heq => h.apart k' k hk' hk heq.symm, h.ne.symm⟩

omit [DecidableEq ι] [Fintype ι] in
theorem pageRead_congr (hentry : t.entries (i, pteKey la) = s.entries (i, pteKey la))
    (hdata : (s.entries (i, pteKey la)).valid = true →
      t.data (s.entries (i, pteKey la)).ppn = s.data (s.entries (i, pteKey la)).ppn)
    : t.pageRead swap i la = s.pageRead swap i la := by
  rw [pageRead_eq, pageRead_eq, hentry]
  split
  next hvalid => rw [hdata hvalid]
  . rfl

omit [DecidableEq ι] in
/--
A step of one process leaves what the other one reads, and the frames stay apart.
-/
theorem Later.enters (h : Later s dst src) (henters : Enters s t dst) (ht : Consistent t)
    : Later t dst src ∧ ∀ la, t.pageRead swap src la = s.pageRead swap src la := by
  have hsrc : ∀ k, t.entries (src, k) = s.entries (src, k) := fun k =>
    (henters.entries (src, k)).resolve_right fun hnew => h.ne hnew.1
  refine ⟨⟨ht, ?_, h.ne⟩, ?_⟩
  . intro k k' hk hk' heq
    rw [hsrc] at hk' heq
    rcases henters.entries (dst, k) with hold | ⟨-, hmem⟩
    . rw [hold] at hk heq
      exact h.apart k k' hk hk' heq
    . rw [heq] at hmem
      exact h.consistent.ppn_not_free hk' hmem
  . intro la
    exact pageRead_congr (hsrc _) fun hvalid => henters.data _ (h.consistent.ppn_not_free hvalid)

omit [DecidableEq ι] in
theorem Later.write (h : Later s dst src) {off : Fin pgsize} {byte : BitVec 8}
    : Later (s.writeByte dst la off byte) dst src ∧
        ∀ la', (s.writeByte dst la off byte).pageRead swap src la' = s.pageRead swap src la' := by
  rcases @writeByte_cases ι s dst la off byte with heq | ⟨d, hvalid, heq⟩ <;> rw [heq]
  . exact ⟨h, fun _ => rfl⟩
  . refine ⟨⟨⟨h.consistent.mapped, h.consistent.free⟩, h.apart, h.ne⟩, ?_⟩
    intro la'
    have hkept : (s.entries (src, pteKey la')).valid = true →
        Function.update s.data (s.entries (dst, pteKey la)).ppn d (s.entries (src, pteKey la')).ppn =
          s.data (s.entries (src, pteKey la')).ppn := fun hvalid' =>
      Function.update_of_ne (Ne.symm (h.apart _ _ hvalid hvalid')) ..
    exact @pageRead_congr _ s { s with data := _ } _ _ _ rfl hkept

theorem Later.step (h : Later s dst src) {op : UserOp ι} (hproc : op.proc = dst)
    (hstep : userStep swap s op = some t)
    : Later t dst src ∧ ∀ la, t.pageRead swap src la = s.pageRead swap src la := by
  cases op with
  | write i la off byte =>
    rw [userStep, Option.some_inj] at hstep
    subst hproc hstep
    exact h.write
  | fault i pmm vmas addr =>
    subst hproc
    obtain ⟨⟨ret, t⟩, hfault, rfl⟩ := Option.map_eq_some_iff.mp hstep
    obtain ⟨henters, ht⟩ := doPgfault_enters h.consistent hfault
    exact h.enters henters ht

/--
The steps of the two processes in any order keep their frames apart.
-/
theorem Later.run {ops : List (UserOp ι)} (h : Later s dst src)
    (hops : ∀ op ∈ ops, op.proc = dst ∨ op.proc = src) (hexec : Run.exec (userStep swap) s ops = some t)
    : Later t dst src := by
  induction ops generalizing s with
  | nil =>
    rw [Run.exec, Option.some_inj] at hexec
    exact hexec ▸ h
  | cons op ops ih =>
    obtain ⟨u, hstep, hrest⟩ := Option.bind_eq_some_iff.mp hexec
    have hu : Later u dst src := by
      rcases hops op List.mem_cons_self with hproc | hproc
      . exact (h.step hproc hstep).1
      . exact (h.symm.step hproc hstep).1.symm
    exact ih hu (fun o ho => hops o (List.mem_cons_of_mem _ ho)) hrest

/--
What a `fork` promises of the child's address space, and of everything that comes later.
-/
structure Forked (swap : Pte → Option PageData) (s t : Paging ι) (dst src : ι) (vmas to_ : List Vma)
    : Prop where
  areas : to_ = vmas
  contents : ∀ vma ∈ vmas, ∀ la, vma.Has la → ∀ d, s.pageRead swap src la = some d →
    t.pageRead swap dst la = some d
  rights : ∀ vma ∈ vmas, ∀ la, vma.Has la → (s.entries (src, pteKey la)).valid = true →
    (t.entries (dst, pteKey la)).flags &&& Pte.pteUser = (s.entries (src, pteKey la)).flags &&& Pte.pteUser
  kept : ∀ la, t.pageRead swap src la = s.pageRead swap src la
  frames : Apart t dst src
  independent : ∀ ops op u v, (∀ o ∈ op :: ops, o.proc = dst ∨ o.proc = src) →
    Run.exec (userStep swap) t ops = some u → userStep swap u op = some v →
    ∀ j la, (j = dst ∨ j = src) → j ≠ op.proc → v.pageRead swap j la = u.pageRead swap j la

/--
The page is on the swap disk.
-/
def SwappedOut (swap : Pte → Option PageData) (s : Paging ι) (i : ι) (la : Nat) : Prop :=
  (s.entries (i, pteKey la)).valid = false ∧ s.entries (i, pteKey la) ≠ Pte.zero ∧
    swap (s.entries (i, pteKey la)) ≠ none

theorem user_flags : ∀ flags : BitVec 10, flags.getLsbD 0 = true →
    (Pte.pteV ||| (Pte.pteV ||| (flags &&& Pte.pteUser))) &&& Pte.pteUser = flags &&& Pte.pteUser := by
  decide +kernel

omit [Fintype ι] in
/--
The child has no entry for a page on the swap disk.
-/
theorem not_forked_of_swappedOut (hfresh : s.Fresh dst) (hcopies : Copies s t dst src (InAreas vmas))
    (hmem : vma ∈ vmas) (hla : vma.Has la) (hout : SwappedOut swap s src la)
    : ¬Forked swap s t dst src vmas to_ := by
  intro hforked
  obtain ⟨hinvalid, hne, hswap⟩ := hout
  obtain ⟨d, hd⟩ := Option.ne_none_iff_exists'.mp hswap
  have hread : s.pageRead swap src la = some d := by
    rw [pageRead_eq, hinvalid, if_neg hne, hd]
    rfl
  have hentry := hcopies.copied (pteKey la) ⟨vma, hmem, la, hla.1, hla.2, rfl⟩
  rw [CopiedEntry, hinvalid, hfresh] at hentry
  have hchild := hforked.contents vma hmem la hla d hread
  rw [pageRead_eq, hentry] at hchild
  contradiction

theorem Copies.forked (hs : Consistent s) (hne : src ≠ dst) (hfresh : s.Fresh dst)
    (hcopies : Copies s t dst src (InAreas vmas)) (ht : Consistent t)
    (hin : ∀ vma ∈ vmas, ∀ la, vma.Has la → ¬SwappedOut swap s src la)
    : Forked swap s t dst src vmas vmas := by
  have hsrc : ∀ k, t.entries (src, k) = s.entries (src, k) := fun k =>
    hcopies.others src k fun h => hne h.1
  have hcopied : ∀ vma ∈ vmas, ∀ la, vma.Has la → CopiedEntry s t dst src (pteKey la) :=
    fun vma hmem la hla => hcopies.copied _ ⟨vma, hmem, la, hla.1, hla.2, rfl⟩
  have hapart : Apart t dst src := by
    intro k k' hk hk' heq
    rw [hsrc] at hk' heq
    have hnot := hs.ppn_not_free hk'
    by_cases hin : InAreas vmas k
    . have hentry := hcopies.copied k hin
      rw [CopiedEntry] at hentry
      split at hentry
      . obtain ⟨p, hmem, -, -, hentry⟩ := hentry
        rw [← heq, hentry] at hnot
        exact hnot hmem
      . rw [hentry, hfresh] at hk
        contradiction
    . rw [hcopies.others dst k fun h => hin h.2, hfresh] at hk
      contradiction
  have hlater : Later t dst src := ⟨ht, hapart, hne⟩
  refine ⟨rfl, ?_, ?_, ?_, hapart, ?_⟩
  . intro vma hmem la hla d hread
    have hentry := hcopied vma hmem la hla
    rw [pageRead_eq] at hread
    rw [CopiedEntry] at hentry
    split at hread
    next hvalid =>
      rw [if_pos hvalid] at hentry
      obtain ⟨p, -, -, hdata, hentry⟩ := hentry
      have hmaps : (t.entries (dst, pteKey la)).Maps p := hentry ▸ Pte.maps_pteCreate.mpr rfl
      rw [pageRead_eq, if_pos hmaps.1, hmaps.2, hdata]
      exact hread
    next hinvalid =>
      split at hread
      . contradiction
      next hzero =>
        refine absurd ⟨by simpa using hinvalid, hzero, ?_⟩ (hin vma hmem la hla)
        rw [hread]
        exact Option.some_ne_none d
  . intro vma hmem la hla hvalid
    have hentry := hcopied vma hmem la hla
    rw [CopiedEntry, if_pos hvalid] at hentry
    obtain ⟨p, -, -, -, hentry⟩ := hentry
    rw [hentry]
    exact user_flags _ hvalid
  . intro la
    exact pageRead_congr (hsrc _) fun hvalid => hcopies.data _ (hs.ppn_not_free hvalid)
  . intro ops op u v hops hexec hstep j la hj hother
    have hu := hlater.run (fun o ho => hops o (List.mem_cons_of_mem _ ho)) hexec
    rcases hops op List.mem_cons_self with hproc | hproc <;> rcases hj with rfl | rfl
    . exact absurd hproc.symm hother
    . exact (hu.step hproc hstep).2 la
    . exact (hu.symm.step hproc hstep).2 la
    . exact absurd hproc.symm hother

/--
A parent with one page that is mapped.
-/
def mappedParent : Paging (Fin 2) :=
  (emptyPaging.pgdirAllocPage firstPage 0 0x800000 (Pte.pteU ||| Pte.readWrite)).2

/--
A parent with one page that is on the swap disk.
-/
def swappedParent : Paging (Fin 2) :=
  let pt : PageTable := ⟨9, Function.update (fun _ => Pte.zero) (ptx 0x800000) ⟨0x200, 0x100⟩⟩
  let pd : PageDir := ⟨8, Function.update (fun _ => none) (pdx0 0x800000) (some pt)⟩
  emptyPaging.setPgdir 0 (Function.update (fun _ => none) (pdx1 0x800000) (some pd))

def onePage : List Vma := [⟨0x800000, 0x801000, Vma.vmRead ||| Vma.vmWrite⟩]

theorem onePage_ok : Vma.AllOk onePage := by
  refine ⟨List.pairwise_singleton .., ?_, ?_⟩ <;> decide

theorem swappedParent_not_maps (x : Fin 2 × PteKey) (f : Nat) : ¬(swappedParent.entries x).Maps f := by
  obtain ⟨i, k₁, k₀, k⟩ := x
  rintro ⟨hvalid, -⟩
  by_cases hi : i = 0 <;> by_cases h₁ : k₁ = pdx1 0x800000 <;> by_cases h₀ : k₀ = pdx0 0x800000 <;>
    by_cases hk : k = ptx 0x800000 <;>
    simp [swappedParent, emptyPaging, setPgdir, entries, Pgdir.entryAt, hi, h₁, h₀, hk,
      Pte.valid, Pte.zero] at hvalid

theorem mappedParent_dupMmap
    : ∃ t, mappedParent.dupMmap firstPage (fun _ => true) 1 0 onePage = some (0, onePage, t) := by
  have hround : ∃ t, mappedParent.copyRound firstPage 1 0 0x800000 = some (0, t) := ⟨_, rfl⟩
  obtain ⟨t, hround⟩ := hround
  have hnext : mappedParent.nextAddr 0 0x800000 = 0x801000 := by decide
  have hloop : mappedParent.copyLoop firstPage 1 0 0x801000 0x800000 = some (0, [t]) := by
    rw [copyLoop]
    simp [hround, hnext]
  have hrange : mappedParent.copyRange firstPage 1 0 0x800000 0x801000 = some (0, [t]) := by
    rw [copyRange, if_pos (by decide), hloop]
  have hinsert : Vma.insertVmaStruct [] ⟨0x800000, 0x801000, Vma.vmRead ||| Vma.vmWrite⟩ =
      some onePage := by decide
  refine ⟨t, ?_⟩
  simp only [dupMmap, onePage, List.reverse_singleton, dupMmapLoop, if_true, hinsert, hrange]
  rfl

theorem swappedParent_dupMmap
    : swappedParent.dupMmap firstPage (fun _ => true) 1 0 onePage = some (0, onePage, swappedParent) := by
  have hloop : swappedParent.copyLoop firstPage 1 0 0x801000 0x800000 = some (0, [swappedParent]) := by
    rw [copyLoop]
    rfl
  have hrange : swappedParent.copyRange firstPage 1 0 0x800000 0x801000 = some (0, [swappedParent]) := by
    rw [copyRange, if_pos (by decide), hloop]
  have hinsert : Vma.insertVmaStruct [] ⟨0x800000, 0x801000, Vma.vmRead ||| Vma.vmWrite⟩ =
      some onePage := by decide
  simp only [dupMmap, onePage, List.reverse_singleton, dupMmapLoop, if_true, hinsert, hrange]
  rfl

theorem swappedParent_consistent : Consistent swappedParent := by
  have hcount : ∀ f, swappedParent.count f = 0 := by
    intro f
    rw [count, Finset.card_eq_zero, Finset.filter_eq_empty_iff]
    exact fun x _ => swappedParent_not_maps x f
  constructor
  . intro f hf
    rw [hcount] at hf
    contradiction
  . exact fun f _ => ⟨rfl, hcount f⟩

end Paging
end Ucore

import Ucore.Kern.Process.LoadIcode.Lemmas.Segment

/-!
This module contains the stack of a new process: its pages, the page faults while the arguments are stored,
and that a byte which is not stored keeps what was in the frame.
-/

namespace Ucore

namespace Paging

variable {ι : Type} {s t : Paging ι} {i : ι} {la page : Nat}

theorem writeByte_of_valid (hvalid : (s.entries (i, pteKey la)).valid = true)
    (hwrite : (s.entries (i, pteKey la)).flags &&& Pte.pteW ≠ 0) (off : Fin pgsize) (byte : BitVec 8)
    : s.writeByte i la off byte =
        { s with
          data := Function.update s.data (s.entries (i, pteKey la)).ppn
            (Function.update (s.data (s.entries (i, pteKey la)).ppn) off byte) } := by
  rw [writeByte]
  cases hget : s.getPte i la with
  | none =>
    rw [entries_of_getPte_none hget rfl rfl] at hvalid
    contradiction
  | some pte =>
    have hentry := entries_of_getPte hget
    rw [hentry] at hvalid hwrite
    simp only [hentry, hvalid, hwrite, ne_eq, not_false_eq_true, and_self, if_true]

variable [DecidableEq ι] {pmm : PmmManager} {swap : Pte → Option PageData} {vmas : List Vma} {vma : Vma}

/--
A page fault where nothing is mapped enters a free frame as it is.
-/
theorem doPgfault_allocated (hzero : s.entries (i, pteKey la) = Pte.zero)
    (hfind : (vmas.find? fun vma => vma.Has la) = some vma) (hwrite : vma.vmFlags &&& Vma.vmWrite ≠ 0)
    (h : s.doPgfault pmm swap vmas i la = some (0, t))
    : ∃ page, Allocated s t i la page (Pte.pteU ||| Pte.readWrite) := by
  have hkey := pteKey_pageStart la
  have hext := @getPteCreate_extends ι _ pmm s i (la / pgsize * pgsize)
  have hdata := @getPteCreate_data ι _ pmm s i (la / pgsize * pgsize)
  rw [doPgfault, hfind] at h
  simp only [if_pos hwrite] at h
  rcases hcreate : s.getPteCreate pmm i (la / pgsize * pgsize) with ⟨_ | pte, u⟩ <;>
    rw [hcreate] at h hext hdata
  . exact absurd (Prod.mk.inj (Option.some_inj.mp h)).1 (by decide)
  . have hpte : pte = Pte.zero := by
      have hentry := entries_of_getPte (getPteCreate_getPte hcreate)
      rw [← hentry, hext.entries, hkey, hzero]
    simp only [if_pos hpte] at h
    rcases halloc : u.pgdirAllocPage pmm i (la / pgsize * pgsize) (Pte.pteU ||| Pte.readWrite)
      with ⟨_ | page, v⟩ <;> rw [halloc] at h
    . exact absurd (Prod.mk.inj (Option.some_inj.mp h)).1 (by decide)
    . obtain ⟨-, rfl⟩ := Prod.mk.inj (Option.some_inj.mp h)
      have hinvalid : (u.entries (i, pteKey (la / pgsize * pgsize))).valid = false := by
        rw [hext.entries, hkey, hzero]
        rfl
      have hal := pgdirAllocPage_allocated hinvalid halloc
      refine ⟨page, hext.free hal.mem, hal.notMem, hal.free.trans hext.free, hal.data.trans hdata, ?_⟩
      rw [hal.entries, hext.entries, hkey]

end Paging

namespace LoadM

open Paging (InAreas InRange Allocated)

variable {ι : Type} {s t base : Loading ι} {s₀ p : Paging ι} {i : ι} {env : LoadEnv} {K : PteKey → Prop}
  {k : PteKey} {perm : BitVec 10} {page la addr : Nat} {byte : BitVec 8}

/--
The area of the stack.
-/
def ustack : Vma := ⟨ustacktop - ustacksize, ustacktop, Vma.vmRead ||| Vma.vmWrite ||| Vma.vmStack⟩

/--
What holds while the stack is built: `base` is the state with the area of the stack. Where `K` holds the
first byte of a page is the one that was in the frame from the start.
-/
structure OnStack (s₀ : Paging ι) (i : ι) (base : Loading ι) (K : PteKey → Prop) (s : Loading ι) : Prop where
  inv : Inv s₀ i s
  area : ustack ∈ s.mmapList
  mmapList : s.mmapList = base.mmapList
  file : s.file = base.file
  entries : ∀ k, ¬InRange ustack.vmStart ustack.vmEnd k →
    s.paging.entries (i, k) = base.paging.entries (i, k)
  contents : ∀ k, ¬InRange ustack.vmStart ustack.vmEnd k →
    s.paging.contents i k = base.paging.contents i k
  writable : ∀ k, InRange ustack.vmStart ustack.vmEnd k → (s.paging.entries (i, k)).valid = true →
    (s.paging.entries (i, k)).flags &&& Pte.pteW ≠ 0
  untouched : ∀ k, K k → (s.paging.entries (i, k)).valid = true → (s.paging.entries (i, k)).ppn ∈ s₀.free ∧
    s.paging.data (s.paging.entries (i, k)).ppn (pageOff 0) =
      s₀.data (s.paging.entries (i, k)).ppn (pageOff 0)

/--
Less is known about the pages that nothing has been written to.
-/
theorem OnStack.anti {K' : PteKey → Prop} (h : OnStack s₀ i base K s) (hK : ∀ k, K' k → K k)
    : OnStack s₀ i base K' s :=
  ⟨h.inv, h.area, h.mmapList, h.file, h.entries, h.contents, h.writable, fun k hk => h.untouched k (hK k hk)⟩

theorem inRange_ustack (h : ustack.Has addr) : InRange ustack.vmStart ustack.vmEnd (pteKey addr) :=
  ⟨addr, h.1, h.2, rfl⟩

/--
A byte of a page that is mapped is stored.
-/
theorem OnStack.write (h : OnStack s₀ i base K s) (hla : ustack.Has addr)
    (hvalid : (s.paging.entries (i, pteKey addr)).valid = true) (hK : K (pteKey addr) → pageOff addr ≠ pageOff 0)
    : OnStack s₀ i base K { s with paging := s.paging.writeByte i addr (pageOff addr) byte } := by
  have hrange := inRange_ustack hla
  rw [Paging.writeByte_of_valid hvalid (h.writable _ hrange hvalid)]
  generalize hpage : (s.paging.entries (i, pteKey addr)).ppn = page
  have hmaps : (s.paging.entries (i, pteKey addr)).Maps page := ⟨hvalid, hpage⟩
  have hcontents := h.inv.priv.contents_write hmaps
    (d := Function.update (s.paging.data page) (pageOff addr) byte)
  refine ⟨⟨?_, h.inv.ok, h.inv.inAreas, h.inv.free, ?_⟩, h.area, h.mmapList, h.file, h.entries, ?_,
    h.writable, ?_⟩
  . exact h.inv.priv.of_entries rfl (Finset.Subset.refl _)
  . intro f hf
    have hne : f ≠ page := by
      rintro rfl
      exact h.inv.priv.not_free _ hvalid (hpage ▸ hf)
    exact (Function.update_of_ne hne _ _).trans (h.inv.stale f hf)
  . intro k hk
    have hne : k ≠ pteKey addr := by
      rintro rfl
      exact hk hrange
    rw [hcontents, Function.update_of_ne hne, h.contents k hk]
  . intro k hk hvalid'
    obtain ⟨hmem, hdata⟩ := h.untouched k hk hvalid'
    refine ⟨hmem, ?_⟩
    change Function.update s.paging.data page _ (s.paging.entries (i, k)).ppn (pageOff 0) =
      s₀.data (s.paging.entries (i, k)).ppn (pageOff 0)
    by_cases hsame : (s.paging.entries (i, k)).ppn = page
    . -- the page itself: the byte is not its first one
      have hkey : k = pteKey addr := h.inv.priv.inj k _ hvalid' hvalid (hsame.trans hpage.symm)
      have hoff := hK (hkey ▸ hk)
      rw [hsame] at hdata ⊢
      rw [Function.update_self, Function.update_of_ne hoff.symm, hdata]
    . rw [Function.update_of_ne hsame, hdata]

variable [DecidableEq ι]

/--
A page of the stack is mapped.
-/
theorem OnStack.alloc (h : OnStack s₀ i base K s) (hal : Allocated s.paging p i la page perm)
    (hla : ustack.Has la) (hperm : (Pte.pteV ||| (Pte.pteV ||| perm)) &&& Pte.pteW ≠ 0)
    : OnStack s₀ i base K { s with paging := p } := by
  have hrange := inRange_ustack hla
  have hnew : p.entries (i, pteKey la) = Pte.pteCreate page (Pte.pteV ||| perm) := by
    rw [hal.entries, Function.update_self]
  have hother : ∀ k, ¬InRange ustack.vmStart ustack.vmEnd k → k ≠ pteKey la := by
    rintro k hk rfl
    exact hk hrange
  refine ⟨⟨hal.private h.inv.priv, h.inv.ok, ?_, hal.free.trans h.inv.free, ?_⟩, h.area, h.mmapList, h.file,
    ?_, ?_, ?_, ?_⟩
  . intro k hvalid
    by_cases hk : k = pteKey la
    . rw [hk]
      exact ⟨ustack, h.area, hrange⟩
    . simp only [hal.entries_of_ne hk] at hvalid
      exact h.inv.inAreas k hvalid
  . intro f hf
    simp only [hal.data]
    exact h.inv.stale f (hal.free hf)
  . intro k hk
    rw [← h.entries k hk]
    exact hal.entries_of_ne (hother k hk)
  . intro k hk
    rw [← h.contents k hk]
    exact (congrFun hal.contents k).trans (Function.update_of_ne (hother k hk) _ _)
  . intro k hk hvalid
    by_cases hkey : k = pteKey la
    . simp only [hkey, hnew]
      exact hperm
    . simp only [hal.entries_of_ne hkey] at hvalid ⊢
      exact h.writable k hk hvalid
  . intro k hk hvalid
    by_cases hkey : k = pteKey la
    . simp only [hkey, hal.maps.2, hal.data]
      exact ⟨h.inv.free hal.mem, by rw [h.inv.stale page hal.mem]⟩
    . simp only [hal.entries_of_ne hkey, hal.data] at hvalid ⊢
      exact h.untouched k hk hvalid

theorem stackPage_ok (h : OnStack s₀ i base K s) (hla : la % pgsize = 0) (hlow : ustack.vmStart ≤ la)
    (hhigh : la + pgsize ≤ ustack.vmEnd)
    (hunmapped : ∀ va, ustack.vmStart ≤ va → va < la + pgsize →
      (s.paging.entries (i, pteKey va)).valid = false)
    (hok : stackPage env i la s = .ok () t)
    : OnStack s₀ i base K t ∧
        ∀ va, ustack.vmStart ≤ va → va < la → (t.paging.entries (i, pteKey va)).valid = false := by
  have hps : 0 < pgsize := by decide
  have htop : ustack.vmEnd ≤ 2 ^ 39 := by decide
  rw [stackPage, Prog.get_bind_run] at hok
  rcases halloc : s.paging.pgdirAllocPage env.pmm i la Pte.pteUser with ⟨_ | page, p⟩ <;> rw [halloc] at hok
  . cases hok
  . obtain ⟨-, rfl⟩ := Outcome.ok.inj hok
    have hal := Paging.pgdirAllocPage_allocated (hunmapped la hlow (by omega)) halloc
    refine ⟨h.alloc hal ⟨hlow, by omega⟩ (by decide), fun va hva hva' => ?_⟩
    have hne := pteKey_ne hla (by omega) (show va < 2 ^ 39 by omega) (.inl hva')
    rw [← hunmapped va hva (by omega)]
    exact congrArg Pte.valid (hal.entries_of_ne hne)

/--
The stack gets an area of its own, and no byte of its pages is written.
-/
theorem buildStack_ok (hs : Inv s₀ i s) (h : buildStack env i s = .ok () t)
    : ∃ base, AreaAdded ustack s base ∧ OnStack s₀ i base (InRange ustack.vmStart ustack.vmEnd) t := by
  obtain ⟨_, base, hmap, hbehind⟩ := Prog.bind_run_eq_ok.mp h
  obtain ⟨_, s₁, h₁, hbehind⟩ := Prog.bind_run_eq_ok.mp hbehind
  obtain ⟨_, s₂, h₂, hbehind⟩ := Prog.bind_run_eq_ok.mp hbehind
  obtain ⟨_, s₃, h₃, h₄⟩ := Prog.bind_run_eq_ok.mp hbehind
  have hadded : AreaAdded ustack s base := mmMap_added hs.ok hmap
  have hunmapped : ∀ va, ustack.vmStart ≤ va → va < ustacktop →
      (base.paging.entries (i, pteKey va)).valid = false :=
    fun va hva hva' => hadded.unmapped hs ⟨va, hva, hva', rfl⟩
  have hbase : OnStack s₀ i base (InRange ustack.vmStart ustack.vmEnd) base := by
    refine ⟨hadded.inv hs, hadded.self_mem, rfl, rfl, fun _ _ => rfl, fun _ _ => rfl, ?_, ?_⟩
    . rintro k ⟨va, hva, hva', rfl⟩ hvalid
      rw [hunmapped va hva hva'] at hvalid
      contradiction
    . rintro k ⟨va, hva, hva', rfl⟩ hvalid
      rw [hunmapped va hva hva'] at hvalid
      contradiction
  obtain ⟨hs₁, hunmapped⟩ := stackPage_ok hbase (by decide) (by decide) (by decide) hunmapped h₁
  obtain ⟨hs₂, hunmapped⟩ := stackPage_ok hs₁ (by decide) (by decide) (by decide) hunmapped h₂
  obtain ⟨hs₃, hunmapped⟩ := stackPage_ok hs₂ (by decide) (by decide) (by decide) hunmapped h₃
  obtain ⟨hs₄, -⟩ := stackPage_ok hs₃ (by decide) (by decide) (by decide) hunmapped h₄
  exact ⟨base, hadded, hs₄⟩

/--
The page of an address is mapped when a store is done for the last time, after a page fault if there was none. The
pages that were mapped before are as they were.
-/
structure Faulted (s₀ : Paging ι) (i : ι) (base : Loading ι) (K : PteKey → Prop) (s : Loading ι) (addr : Nat)
    (p : Paging ι) : Prop where
  onStack : OnStack s₀ i base K { s with paging := p }
  valid : (p.entries (i, pteKey addr)).valid = true
  keeps : ∀ k, (s.paging.entries (i, k)).valid = true →
    p.entries (i, k) = s.paging.entries (i, k) ∧ p.contents i k = s.paging.contents i k

theorem storeByte_faulted (h : OnStack s₀ i base K s) (hla : ustack.Has addr)
    (hok : storeByte env i addr byte s = .ok () t)
    : ∃ p, Faulted s₀ i base K s addr p ∧ t = { s with paging := p.writeByte i addr (pageOff addr) byte } := by
  have hrange := inRange_ustack hla
  unfold storeByte at hok
  rw [Prog.get_bind_run] at hok
  by_cases hvalid : (s.paging.entries (i, pteKey addr)).valid = true
  . have hwrite := h.writable _ hrange hvalid
    have hany : ((s.paging.getPte i addr).any fun pte => pte.valid ∧ pte.flags &&& Pte.pteW ≠ 0) = true := by
      cases hget : s.paging.getPte i addr with
      | none =>
        rw [Paging.entries_of_getPte_none hget rfl rfl] at hvalid
        contradiction
      | some pte =>
        rw [Paging.entries_of_getPte hget] at hvalid hwrite
        simp only [Option.any_some, decide_eq_true_eq]
        exact ⟨hvalid, hwrite⟩
    rw [if_pos hany] at hok
    obtain ⟨-, rfl⟩ := Outcome.ok.inj hok
    exact ⟨s.paging, ⟨h, hvalid, fun _ _ => ⟨rfl, rfl⟩⟩, rfl⟩
  . have hzero := h.inv.priv.zero _ (Bool.eq_false_iff.mpr hvalid)
    have hany : ¬((s.paging.getPte i addr).any fun pte => pte.valid ∧ pte.flags &&& Pte.pteW ≠ 0) = true := by
      cases hget : s.paging.getPte i addr with
      | none => simp
      | some pte =>
        rw [Paging.entries_of_getPte hget] at hvalid
        simp [hvalid]
    rw [if_neg hany] at hok
    cases hfault : s.paging.doPgfault env.pmm env.swap s.mmapList i addr with
    | none =>
      rw [hfault] at hok
      cases hok
    | some r =>
      obtain ⟨ret, p⟩ := r
      simp only [hfault] at hok
      split at hok
      next hret =>
        subst hret
        obtain ⟨-, rfl⟩ := Outcome.ok.inj hok
        obtain ⟨page, hal⟩ := Paging.doPgfault_allocated hzero (h.inv.ok.find?_eq h.area hla) (by decide) hfault
        refine ⟨p, ⟨h.alloc hal hla (by decide), hal.maps.1, ?_⟩, rfl⟩
        intro k hk
        have hne : k ≠ pteKey addr := by
          rintro rfl
          exact hvalid hk
        exact ⟨hal.entries_of_ne hne, (congrFun hal.contents k).trans (Function.update_of_ne hne _ _)⟩
      . cases hok

omit [DecidableEq ι] in
theorem Faulted.entries_write {p : Paging ι} (h : Faulted s₀ i base K s addr p) (hla : ustack.Has addr)
    : (p.writeByte i addr (pageOff addr) byte).entries = p.entries := by
  have hwrite := h.onStack.writable _ (inRange_ustack hla) h.valid
  rw [Paging.writeByte_of_valid h.valid hwrite]
  rfl

/--
A store maps its page if there is none yet, all pages stay mapped.
-/
theorem storeByte_ok (h : OnStack s₀ i base K s) (hla : ustack.Has addr)
    (hK : K (pteKey addr) → pageOff addr ≠ pageOff 0) (hok : storeByte env i addr byte s = .ok () t)
    : OnStack s₀ i base K t ∧ (t.paging.entries (i, pteKey addr)).valid = true ∧
        ∀ k, (s.paging.entries (i, k)).valid = true → (t.paging.entries (i, k)).valid = true := by
  obtain ⟨p, hp, rfl⟩ := storeByte_faulted h hla hok
  have hentries : (p.writeByte i addr (pageOff addr) byte).entries = p.entries := hp.entries_write hla
  refine ⟨hp.onStack.write hla hp.valid hK, ?_, fun k hk => ?_⟩
  . simp only [hentries, hp.valid]
  . simp only [hentries, (hp.keeps k hk).1, hk]

theorem storeBytes_ok {stores : List (Nat × BitVec 8)} (h : OnStack s₀ i base K s)
    (hstores : ∀ store ∈ stores, ustack.Has store.1 ∧ (K (pteKey store.1) → pageOff store.1 ≠ pageOff 0))
    (hok : storeBytes env i stores s = .ok () t)
    : OnStack s₀ i base K t ∧
        (∀ store ∈ stores, (t.paging.entries (i, pteKey store.1)).valid = true) ∧
          ∀ k, (s.paging.entries (i, k)).valid = true → (t.paging.entries (i, k)).valid = true := by
  induction stores generalizing s with
  | nil =>
    obtain ⟨-, rfl⟩ := Outcome.ok.inj hok
    exact ⟨h, fun _ hmem => absurd hmem List.not_mem_nil, fun _ => id⟩
  | cons store rest ih =>
    obtain ⟨addr, byte⟩ := store
    obtain ⟨_, u, hstore, hrest⟩ := Prog.bind_run_eq_ok.mp hok
    obtain ⟨hhas, hK⟩ := hstores _ List.mem_cons_self
    obtain ⟨hu, hvalid, hkeep⟩ := storeByte_ok h hhas hK hstore
    obtain ⟨ht, hvalid', hkeep'⟩ := ih hu (fun store hmem => hstores store (List.mem_cons_of_mem _ hmem)) hrest
    refine ⟨ht, fun store hmem => ?_, fun k hk => hkeep' k (hkeep k hk)⟩
    rcases List.mem_cons.mp hmem with rfl | hmem
    . exact hkeep' _ hvalid
    . exact hvalid' store hmem

end LoadM
end Ucore

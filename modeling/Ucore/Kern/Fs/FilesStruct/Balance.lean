import Mathlib
import Ucore.Kern.Fs.File.Lemmas
import Ucore.Kern.Fs.FilesStruct.Impl
import Ucore.Kern.Fs.Vfs.Lemmas

/-!
This module contains the balance of the inode counts: every reference is the one of a slot, of a current
directory, of a device or of the boot file system, and what the functions on `files_struct`s do to it.
-/

namespace Ucore

def File.holds (f : File) (n : Nat) : Int :=
  if (f.status = .fdOpened ∨ f.status = .fdClosed) ∧ f.node = some n then 1 else 0

/--
How many slots of the table hold an inode.
-/
def FileTable.holds (t : FileTable) (n : Nat) : Int := ∑ fd, (t.slots fd).holds n

theorem sum_change {ι : Type} [DecidableEq ι] {l : Finset ι} {f g : ι → Int} {a : ι} (ha : a ∈ l)
    (h : ∀ x, x ≠ a → g x = f x)
    : ∑ x ∈ l, g x = ∑ x ∈ l, f x + (g a - f a) := by
  have hrest : ∑ x ∈ l.erase a, g x = ∑ x ∈ l.erase a, f x :=
    Finset.sum_congr rfl fun x hx => h x (Finset.ne_of_mem_erase hx)
  rw [← Finset.add_sum_erase l g ha, ← Finset.add_sum_erase l f ha, hrest]
  omega

theorem FileTable.holds_change {t u : FileTable} {file : Fd} (n : Nat)
    (h : ∀ x, x ≠ file → u.slots x = t.slots x)
    : u.holds n = t.holds n + ((u.slots file).holds n - (t.slots file).holds n) :=
  sum_change (Finset.mem_univ file) fun x hx => by rw [h x hx]

theorem File.holds_of_ne {f : File} (hopened : f.status ≠ .fdOpened) (hclosed : f.status ≠ .fdClosed)
    (n : Nat)
    : f.holds n = 0 := by
  simp [holds, hopened, hclosed]

theorem File.holds_opened {f : File} {node : Nat} (hstatus : f.status = .fdOpened)
    (hnode : f.node = some node) (n : Nat)
    : f.holds n = (Pi.single node 1 : Nat → Int) n := by
  rw [← Vfs.optRef_some]
  simp [holds, hstatus, hnode, Vfs.optRef]

namespace Vfs

def slotRefs (s : Vfs) (n : Nat) : Int := ∑ a ∈ s.live, (s.files a).table.holds n

def cwdRefs (s : Vfs) (l : Finset Nat) (n : Nat) : Int := ∑ a ∈ l, optRef (s.files a).pwd n

def devRefs (env : VfsEnv) (n : Nat) : Int := if env.IsDevice n then 1 else 0

/--
The counts are right, where the slots have the given roles and the `files_struct`s in `l` still have the
reference of their current directory.
-/
structure Counted (env : VfsEnv) (s : Vfs) (busy : Nat → Fd → Multiset Role) (l : Finset Nat)
    : Prop where
  tables : ∀ a ∈ s.live, (s.files a).table.Inv 0 (busy a)
  refCount : ∀ n, s.refCount n =
    s.slotRefs n + s.cwdRefs l n + devRefs env n + optRef s.bootfsNode n
  openCount : ∀ n, s.openCount n = s.slotRefs n

/--
The same processes and `files_struct`s, with the same counts of users.
-/
structure SameOwners (s t : Vfs) : Prop where
  live : t.live = s.live
  procs : t.procs = s.procs
  filesCount : ∀ a, (t.files a).filesCount = (s.files a).filesCount

theorem SameOwners.refl (s : Vfs) : s.SameOwners s := ⟨rfl, rfl, fun _ => rfl⟩

theorem SameOwners.trans {s t u : Vfs} (h : s.SameOwners t) (h₁ : t.SameOwners u) : s.SameOwners u :=
  ⟨h₁.live.trans h.live, h₁.procs.trans h.procs, fun a => (h₁.filesCount a).trans (h.filesCount a)⟩

variable {env : VfsEnv} {s t : Vfs} {busy busy₁ : Nat → Fd → Multiset Role} {l : Finset Nat}
  {a node : Nat} {file : Fd}

theorem holds_nonneg (t : FileTable) (n : Nat) : 0 ≤ t.holds n := by
  apply Finset.sum_nonneg
  intro fd _
  unfold File.holds
  split <;> decide

theorem optRef_nonneg (o : Option Nat) (n : Nat) : 0 ≤ optRef o n := by
  unfold optRef
  split <;> decide

theorem Counted.sound (h : s.Counted env busy l) : s.Sound env := by
  have hslots : ∀ n, 0 ≤ s.slotRefs n := fun n => Finset.sum_nonneg fun a _ => holds_nonneg _ n
  have hcwds : ∀ n, 0 ≤ s.cwdRefs l n := fun n => Finset.sum_nonneg fun a _ => optRef_nonneg _ n
  have hboot : ∀ n, 0 ≤ optRef s.bootfsNode n := fun n => optRef_nonneg _ n
  have hdev : ∀ n, 0 ≤ devRefs env n := by
    intro n
    unfold devRefs
    split <;> decide
  constructor
  . intro n
    rw [h.openCount]
    exact hslots n
  . intro n
    have := hslots n
    have := hcwds n
    have := hboot n
    have := hdev n
    rw [h.openCount, h.refCount]
    omega
  . intro n hn
    have := hslots n
    have := hcwds n
    have := hboot n
    rw [h.refCount, devRefs, if_pos hn]
    omega

/--
A change to one `files_struct` and to the boot file system that keeps the books.
-/
theorem Counted.change (h : s.Counted env busy l) (ha : a ∈ s.live) {d c : Nat → Int}
    (hlive : t.live = s.live) (hfiles : ∀ b, b ≠ a → t.files b = s.files b)
    (hbusy : ∀ b, b ≠ a → busy₁ b = busy b) (hinv : (t.files a).table.Inv 0 (busy₁ a))
    (hslots : ∀ n, (t.files a).table.holds n = (s.files a).table.holds n + d n)
    (hcwd : ∀ n, t.cwdRefs l n = s.cwdRefs l n + c n)
    (href : ∀ n, t.refCount n =
      s.refCount n + d n + c n + (optRef t.bootfsNode n - optRef s.bootfsNode n))
    (hopen : ∀ n, t.openCount n = s.openCount n + d n)
    : t.Counted env busy₁ l := by
  have hsum : ∀ n, t.slotRefs n = s.slotRefs n + d n := by
    intro n
    unfold slotRefs
    rw [hlive, sum_change (f := fun b => (s.files b).table.holds n) ha fun b hb => by rw [hfiles b hb],
      hslots n]
    omega
  constructor
  . intro b hb
    by_cases hba : b = a
    . subst hba
      exact hinv
    . rw [hfiles b hba, hbusy b hba]
      exact h.tables b (hlive ▸ hb)
  . intro n
    rw [href, hsum, hcwd, h.refCount]
    omega
  . intro n
    rw [hopen, hsum, h.openCount]

@[simp]
theorem setTable_files_self (u : FileTable) : (s.setTable a u).files a = { s.files a with table := u } := by
  simp [setTable]

@[simp]
theorem setTable_files_of_ne (u : FileTable) {b : Nat} (h : b ≠ a)
    : (s.setTable a u).files b = s.files b := by
  simp [setTable, h]

theorem setTable_owners (u : FileTable) : s.SameOwners (s.setTable a u) := by
  constructor
  . rfl
  . rfl
  . intro b
    by_cases hb : b = a
    . subst hb
      simp
    . simp [hb]

theorem setTable_cwdRefs (u : FileTable) (n : Nat) : (s.setTable a u).cwdRefs l n = s.cwdRefs l n := by
  apply Finset.sum_congr rfl
  intro b _
  by_cases hb : b = a
  . subst hb
    simp
  . simp [hb]

theorem onTable_run {α : Type} {f : FileTable → Option (α × FileTable)} {x : α} {u : FileTable}
    (h : f (s.files a).table = some (x, u))
    : onTable a f s = .ok x (s.setTable a u) := by
  simp [onTable, h]

theorem sound_congr (h : s.Sound env) (href : t.refCount = s.refCount) (hopen : t.openCount = s.openCount)
    : t.Sound env := by
  constructor
  . rw [hopen]
    exact h.openCount_nonneg
  . rw [href, hopen]
    exact h.openCount_le
  . rw [href]
    exact h.device

/--
The close of a slot gives back the reference of the slot and frees it.
-/
theorem fdArrayClose_run (h : s.Counted env busy l) (ha : a ∈ s.live) (hidle : busy a = 0)
    (hstatus : ((s.files a).table.slots file).status = .fdOpened)
    : ∃ t, fdArrayClose env a file s = .ok () t ∧ t.Counted env busy l ∧ s.SameOwners t ∧
      ((t.files a).table.slots file).status = .fdNone ∧
      ∀ x, x ≠ file → (t.files a).table.slots x = (s.files a).table.slots x := by
  have hinv := h.tables a ha
  rw [hidle] at hinv
  obtain ⟨node, u, hnode, hclose, hother, hunode, hfreed⟩ := hinv.fdArrayClose_idle hstatus 0 0
  have hslots : ∀ x, x ≠ file → (u.setNone file).slots x = (s.files a).table.slots x := by
    intro x hx
    simp [FileTable.setNone, hx, hother x hx]
  have hnone : ((u.setNone file).slots file).status = .fdNone := by
    simp [FileTable.setNone]
  -- What is left when the count of the node is one less and the slot is free.
  let t : Vfs := { s.setTable a (u.setNone file) with
    refCount := s.refCount - Pi.single node 1
    openCount := s.openCount - Pi.single node 1 }
  have hcounted : t.Counted env busy l := by
    apply h.change (d := -Pi.single node 1) (c := 0) ha
    . rfl
    . intro b hb
      exact setTable_files_of_ne _ hb
    . exact fun _ _ => rfl
    . have : (t.files a).table = u.setNone file := by
        simp [t]
      rw [this, hidle]
      exact hfreed
    . intro n
      have : (t.files a).table = u.setNone file := by
        simp [t]
      rw [this, FileTable.holds_change n hslots, File.holds_of_ne (by simp [hnone]) (by simp [hnone]),
        File.holds_opened hstatus hnode]
      simp
    . intro n
      rw [Pi.zero_apply, add_zero]
      exact setTable_cwdRefs (u.setNone file) n
    . intro n
      simp only [t, setTable, Pi.sub_apply, Pi.neg_apply, Pi.zero_apply]
      omega
    . intro n
      simp only [t, Pi.sub_apply, Pi.neg_apply]
      omega
  have hstate : s.setTable a u = opened { s.setTable a u with
      refCount := s.refCount - Pi.single node 1
      openCount := s.openCount - Pi.single node 1 } node := by
    simp only [opened, sub_add_cancel]
    rfl
  have hsound := sound_congr (t := { s.setTable a u with
      refCount := s.refCount - Pi.single node 1
      openCount := s.openCount - Pi.single node 1 }) hcounted.sound rfl rfl
  refine ⟨t, ?_, hcounted, ?_, ?_, ?_⟩
  . unfold fdArrayClose
    rw [Prog.bind_run_ok (onTable_run hclose)]
    simp only [endFree, Prog.get_bind_run, setTable_files_self, hunode, Prog.forSome]
    rw [hstate, Prog.bind_run_ok (vfsClose_run hsound)]
    simp only [onTable, t, setTable, Function.update_self, Function.update_idem]
  . have howners := setTable_owners (s := s) (a := a) (u.setNone file)
    exact ⟨howners.live, howners.procs, howners.filesCount⟩
  . simpa [t] using hnone
  . intro x hx
    simpa [t] using hslots x hx

theorem closeIfOpened_run (h : s.Counted env busy l) (ha : a ∈ s.live) (hidle : busy a = 0)
    (file : Fd)
    : ∃ t, closeIfOpened env a file s = .ok () t ∧ t.Counted env busy l ∧ s.SameOwners t ∧
      ((t.files a).table.slots file).status = .fdNone ∧
      ∀ x, x ≠ file → (t.files a).table.slots x = (s.files a).table.slots x := by
  unfold closeIfOpened
  simp only [Prog.get_bind_run]
  by_cases hstatus : ((s.files a).table.slots file).status = .fdOpened
  . rw [Prog.when_pos hstatus]
    exact fdArrayClose_run h ha hidle hstatus
  . rw [Prog.when_neg hstatus]
    refine ⟨s, rfl, h, SameOwners.refl s, ?_, fun _ _ => rfl⟩
    -- Between the calls a slot is free or open.
    have hinv := h.tables a ha file
    rw [hidle] at hinv
    obtain ⟨life, -, hagrees⟩ := hinv
    cases life with
    | none => exact hagrees.1
    | init =>
      have := hagrees.2.2.2
      simp at this
    | opened node calls => exact absurd hagrees.1 hstatus
    | closed node calls =>
      obtain ⟨-, -, -, hpos, hroles⟩ := hagrees
      have := congrArg Multiset.card hroles
      simp at this hpos
      omega
    | freeing =>
      have := hagrees.2.2.2
      simp at this

theorem closeSlots_run (fds : List Fd) (h : s.Counted env busy l) (ha : a ∈ s.live) (hidle : busy a = 0)
    : ∃ t, closeSlots env a fds s = .ok () t ∧ t.Counted env busy l ∧ s.SameOwners t := by
  induction fds generalizing s with
  | nil => exact ⟨s, rfl, h, SameOwners.refl s⟩
  | cons file fds ih =>
    obtain ⟨t, hclose, hcounted, howners, -⟩ := closeIfOpened_run h ha hidle file
    obtain ⟨u, hrest, hcounted, howners₁⟩ := ih hcounted (howners.live ▸ ha)
    refine ⟨u, ?_, hcounted, howners.trans howners₁⟩
    unfold closeSlots
    rw [Prog.bind_run_ok hclose, hrest]

theorem destroySlots_run (fds : List Fd) (h : s.Counted env busy l) (ha : a ∈ s.live)
    (hidle : busy a = 0)
    : ∃ t, destroySlots env a fds s = .ok () t ∧ t.Counted env busy l ∧ s.SameOwners t ∧
      ∀ x, x ∈ fds ∨ ((s.files a).table.slots x).status = .fdNone →
        ((t.files a).table.slots x).status = .fdNone := by
  induction fds generalizing s with
  | nil => exact ⟨s, rfl, h, SameOwners.refl s, fun x hx => hx.resolve_left List.not_mem_nil⟩
  | cons file fds ih =>
    obtain ⟨t, hclose, hcounted, howners, hnone, hother⟩ := closeIfOpened_run h ha hidle file
    obtain ⟨u, hrest, hcounted, howners₁, hfree⟩ := ih hcounted (howners.live ▸ ha)
    refine ⟨u, ?_, hcounted, howners.trans howners₁, ?_⟩
    . unfold destroySlots
      rw [Prog.bind_run_ok hclose]
      simp only [Prog.get_bind_run]
      rw [Prog.assert_bind_run hnone, hrest]
    . intro x hx
      by_cases hxf : x = file
      . subst hxf
        exact hfree x (.inr hnone)
      . apply hfree
        rw [hother x hxf]
        exact hx.imp_left fun hmem => (List.mem_cons.mp hmem).resolve_left hxf

/--
The last user of a `files_struct` gives back its current directory and its slots.
-/
theorem filesDestroy_run (h : s.Counted env busy s.live) (ha : a ∈ s.live) (hidle : busy a = 0)
    (hcount : (s.files a).filesCount = 0)
    : ∃ t, filesDestroy env a s = .ok () t ∧ t.Counted env busy t.live ∧ t.live = s.live.erase a ∧
      t.procs = s.procs ∧ (∀ b, (t.files b).filesCount = (s.files b).filesCount) ∧
      ∀ x, ((t.files a).table.slots x).status = .fdNone := by
  -- The directory is given back first, the slots are closed without it.
  have hgive : ∃ u, Prog.forSome (s.files a).pwd (inodeRefDec env) s = .ok () u
      ∧ u.Counted env busy (s.live.erase a) ∧ s.SameOwners u := by
    have hcwds : ∀ n, s.cwdRefs s.live n = s.cwdRefs (s.live.erase a) n + optRef (s.files a).pwd n := by
      intro n
      unfold cwdRefs
      rw [← Finset.add_sum_erase s.live _ ha, add_comm]
    cases hpwd : (s.files a).pwd with
    | none =>
      refine ⟨s, rfl, ⟨h.tables, ?_, h.openCount⟩, SameOwners.refl s⟩
      intro n
      rw [h.refCount, hcwds n, hpwd, optRef_none]
      simp
    | some node =>
      have hcounted : (s.drop node).Counted env busy (s.live.erase a) := by
        refine ⟨h.tables, ?_, h.openCount⟩
        intro n
        have := h.refCount n
        rw [hcwds n, hpwd, optRef_some] at this
        simp only [drop, Pi.sub_apply, slotRefs, cwdRefs] at this ⊢
        omega
      exact ⟨s.drop node, inodeRefDec_drop hcounted.sound, hcounted, ⟨rfl, rfl, fun _ => rfl⟩⟩
  obtain ⟨u, hdec, hcounted, howners⟩ := hgive
  obtain ⟨t, hslots, hcounted, howners₁, hfree⟩ := destroySlots_run (List.finRange filesStructNentry)
    hcounted (howners.live ▸ ha) hidle
  have howners := howners.trans howners₁
  refine ⟨{ t with live := t.live.erase a }, ?_, ?_, ?_, howners.procs, howners.filesCount,
    fun x => hfree x (.inl (List.mem_finRange x))⟩
  . unfold filesDestroy
    simp only [Prog.get_bind_run]
    rw [Prog.assert_bind_run hcount, Prog.bind_run_ok hdec, Prog.bind_run_ok hslots]
    rfl
  . have hnone : ∀ n, (t.files a).table.holds n = 0 := by
      intro n
      apply Finset.sum_eq_zero
      intro x _
      have := hfree x (.inl (List.mem_finRange x))
      exact File.holds_of_ne (by simp [this]) (by simp [this]) n
    have hlive : a ∈ t.live := by
      rw [howners.live]
      exact ha
    have hsum : ∀ n, t.slotRefs n = Vfs.slotRefs { t with live := t.live.erase a } n := by
      intro n
      unfold slotRefs
      rw [← Finset.add_sum_erase t.live _ hlive, hnone n, zero_add]
    refine ⟨fun b hb => hcounted.tables b (Finset.mem_of_mem_erase hb), ?_, ?_⟩
    . intro n
      rw [← hsum n, howners.live]
      exact hcounted.refCount n
    . intro n
      rw [← hsum n]
      exact hcounted.openCount n
  . rw [howners.live]

/--
A slot that is reserved for an open. Nothing else has changed.
-/
structure Reserved (env : VfsEnv) (s : Vfs) (a : Nat) (file : Fd) (t : Vfs) : Prop where
  counted : t.Counted env (Function.update 0 a (Pi.single file {.opening})) t.live
  owners : s.SameOwners t
  refCount : t.refCount = s.refCount
  openCount : t.openCount = s.openCount
  files : ∀ b, b ≠ a → t.files b = s.files b
  slots : ∀ x, x ≠ file → (t.files a).table.slots x = (s.files a).table.slots x
  free : ((s.files a).table.slots file).status = .fdNone
  init : ((t.files a).table.slots file).status = .fdInit

theorem fdArrayAlloc_sat (h : s.Counted env 0 s.live) (ha : a ∈ s.live) (fd : Int)
    : (fdArrayAlloc a fd s).Sat (fun file t => Reserved env s a file t) (fun _ t => t = s)
      (fun _ => False) := by
  have hsame : s.setTable a (s.files a).table = s := by
    simp [setTable]
  unfold fdArrayAlloc
  cases (h.tables a ha).fdArrayAlloc fd with
  | inl hfull =>
    obtain ⟨e, hfull⟩ := hfull
    rw [Prog.bind_run_ok (onTable_run hfull), hsame]
    rfl
  | inr hfound =>
    obtain ⟨file, u, hfound, hfree, hother, hinit, hinv⟩ := hfound
    rw [Prog.bind_run_ok (onTable_run hfound)]
    refine ⟨?_, setTable_owners u, rfl, rfl, fun _ hb => setTable_files_of_ne u hb, ?_, hfree, ?_⟩
    . apply h.change (d := 0) (c := 0) ha
      . rfl
      . exact fun _ hb => setTable_files_of_ne u hb
      . intro b hb
        simp [hb]
      . simpa using hinv
      . intro n
        rw [setTable_files_self, FileTable.holds_change n hother,
          File.holds_of_ne (by simp [hinit]) (by simp [hinit]),
          File.holds_of_ne (by simp [hfree]) (by simp [hfree])]
        simp
      . intro n
        exact (setTable_cwdRefs u n).trans (add_zero _).symm
      . intro n
        simp [setTable]
      . intro n
        simp [setTable]
    . intro x hx
      simpa using hother x hx
    . simpa using hinit

/--
A slot whose open has failed is free again.
-/
theorem Reserved.fdArrayFree_run {u : Vfs} (h : Reserved env s a file u) (ha : a ∈ s.live)
    : ∃ t, fdArrayFree env a file u = .ok () t ∧ t.Counted env 0 t.live ∧ s.SameOwners t ∧
      t.refCount = s.refCount ∧ t.openCount = s.openCount := by
  have hlive : a ∈ u.live := by
    rw [h.owners.live]
    exact ha
  have hinv := h.counted.tables a hlive
  rw [Function.update_self] at hinv
  have hfree : (u.files a).table.fdArrayFree file 0 0 =
      some (.returned 0 0, (u.files a).table.setNone file) := by
    simp [FileTable.fdArrayFree, h.init, hinv.of_opening.2]
  refine ⟨u.setTable a ((u.files a).table.setNone file), ?_, ?_,
    h.owners.trans (setTable_owners _), h.refCount, h.openCount⟩
  . unfold fdArrayFree
    rw [Prog.bind_run_ok (onTable_run hfree)]
    rfl
  . have hother : ∀ x, x ≠ file →
        ((u.files a).table.setNone file).slots x = (u.files a).table.slots x := by
      intro x hx
      simp [FileTable.setNone, hx]
    apply h.counted.change (d := 0) (c := 0) hlive
    . rfl
    . exact fun _ hb => setTable_files_of_ne _ hb
    . intro b hb
      simp [hb]
    . rw [← add_zero (Pi.single file _)] at hinv
      simpa using hinv.setNone_opening
    . intro n
      rw [setTable_files_self, FileTable.holds_change n hother,
        File.holds_of_ne (by simp [FileTable.setNone]) (by simp [FileTable.setNone]),
        File.holds_of_ne (by simp [h.init]) (by simp [h.init])]
      simp
    . intro n
      exact (setTable_cwdRefs _ n).trans (add_zero _).symm
    . intro n
      simp [setTable]
    . intro n
      simp [setTable]

end Vfs
end Ucore

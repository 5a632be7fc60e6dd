import Ucore.Kern.Fs.FilesStruct.Balance

/-!
This module contains the calls on files and directories: each keeps the balance of the inode counts, and
one that fails leaves the counts as they were.
-/

namespace Ucore
namespace Vfs

/--
The balance of the counts between two calls, with the same users of the `files_struct`s as in `s`.
-/
structure Balanced (env : VfsEnv) (s t : Vfs) : Prop where
  counted : t.Counted env 0 t.live
  owners : s.SameOwners t

/--
All references that have been taken since `s` have been given back.
-/
structure Returned (env : VfsEnv) (s t : Vfs) : Prop extends Balanced env s t where
  refCount : t.refCount = s.refCount
  openCount : t.openCount = s.openCount

/--
What a call does that balances the counts.
-/
def Balances {α : Type} (env : VfsEnv) (s : Vfs) (o : Outcome Errno VfsPanic Vfs α) : Prop :=
  o.Sat (fun _ t => Balanced env s t) (fun _ t => Returned env s t) (fun p => ¬p.OfCounts)

variable {env : VfsEnv} {s t : Vfs} {busy busy₁ : Nat → Fd → Multiset Role} {l : Finset Nat}
  {a node : Nat} {file : Fd} {ans : VfsAnswer}

theorem Counted.returned (h : s.Counted env 0 s.live) : Returned env s s :=
  ⟨⟨h, SameOwners.refl s⟩, rfl, rfl⟩

theorem opened_owners : s.SameOwners (s.opened node) := ⟨rfl, rfl, fun _ => rfl⟩

/--
A reserved slot becomes the slot of an open file, and the reference of the open becomes its reference.
-/
theorem Counted.fill (h : s.Counted env busy l) (busy₁ : Nat → Fd → Multiset Role) (ha : a ∈ s.live)
    (hbusy : busy a = Pi.single file {.opening}) (hidle : busy₁ a = 0)
    (hother : ∀ b, b ≠ a → busy₁ b = busy b) {f : File → File}
    (hstatus : (f ((s.files a).table.slots file)).status = ((s.files a).table.slots file).status)
    (hcount : (f ((s.files a).table.slots file)).openCount = ((s.files a).table.slots file).openCount)
    (hnode : (f ((s.files a).table.slots file)).node = some node)
    : ∃ u, ((s.files a).table.modify file f).fdArrayOpen file = some u ∧
      (∀ x, x ≠ file → u.slots x = (s.files a).table.slots x) ∧
      ((s.setTable a u).opened node).Counted env busy₁ l := by
  have hinv := h.tables a ha
  rw [hbusy] at hinv
  have hinit : (f ((s.files a).table.slots file)).status = .fdInit := by
    rw [hstatus, hinv.of_opening.1]
  rw [← add_zero (Pi.single file _)] at hinv
  obtain ⟨u, hrun, hopened⟩ := (hinv.modify_opening hstatus hcount).fdArrayOpen
    (show _ = some node by simpa using hnode)
  have hu : u = (((s.files a).table.modify file f).modify file fun f =>
      { f with status := .fdOpened, openCount := f.openCount + 1 }).record file (.setOpened node) := by
    simpa [FileTable.fdArrayOpen, hnode, hinit] using hrun.symm
  have hslots : ∀ x, x ≠ file → u.slots x = (s.files a).table.slots x := by
    intro x hx
    rw [hu]
    simp [hx]
  refine ⟨u, hrun, hslots, ?_⟩
  apply h.change (d := Pi.single node 1) (c := 0) ha
  . rfl
  . exact fun b hb => setTable_files_of_ne u hb
  . exact hother
  . rw [hidle]
    simpa [opened] using hopened
  . intro n
    have hnew : (u.slots file).holds n = (Pi.single node 1 : Nat → Int) n := by
      apply File.holds_opened
      . rw [hu]
        simp
      . rw [hu]
        simpa using hnode
    have hold : ((s.files a).table.slots file).holds n = 0 := by
      rw [hstatus] at hinit
      exact File.holds_of_ne (by simp [hinit]) (by simp [hinit]) n
    simp only [opened, setTable_files_self]
    rw [FileTable.holds_change n hslots, hnew, hold, sub_zero]
  . intro n
    rw [Pi.zero_apply, add_zero]
    exact setTable_cwdRefs u n
  . intro n
    simp [opened, setTable]
  . intro n
    simp [opened, setTable]

theorem Reserved.mem_live {u : Vfs} (h : Reserved env s a file u) (ha : a ∈ s.live) : a ∈ u.live := by
  rw [h.owners.live]
  exact ha

/--
The open of a reserved slot ends with the reference in the slot.
-/
theorem Reserved.fill {u : Vfs} (h : Reserved env s a file u) (ha : a ∈ s.live) {f : File → File}
    (hstatus : (f ((u.files a).table.slots file)).status = ((u.files a).table.slots file).status)
    (hcount : (f ((u.files a).table.slots file)).openCount = ((u.files a).table.slots file).openCount)
    (hnode : (f ((u.files a).table.slots file)).node = some node)
    : ∃ v, ((u.files a).table.modify file f).fdArrayOpen file = some v ∧
      Balanced env s ((u.setTable a v).opened node) := by
  obtain ⟨v, hrun, -, hcounted⟩ := h.counted.fill 0 (h.mem_live ha)
    (Function.update_self ..) rfl (fun b hb => (Function.update_of_ne hb ..).symm) hstatus hcount hnode
  exact ⟨v, hrun, hcounted, (h.owners.trans (setTable_owners v)).trans opened_owners⟩

theorem filePos_keeps (openFlags : BitVec 32) : s.Keeps (filePos openFlags ans s) := by
  unfold filePos
  split
  . cases ans.fstat <;> rfl
  . rfl

/--
A `file_open` that fails behind `vfs_open` closes the inode and frees the slot.
-/
theorem fileOpen_balances (h : s.Counted env 0 s.live) (ha : a ∈ s.live) {path : List Char}
    {openFlags : BitVec 32}
    (hleak : ∀ file t, fdArrayAlloc a noFd s = .ok file t → ¬t.Leaks env a path openFlags ans)
    : Balances env s (fileOpen env a path openFlags ans s) := by
  unfold fileOpen
  cases FileTable.accessMode openFlags with
  | none => exact h.returned
  | some mode =>
    have halloc := fdArrayAlloc_sat h ha noFd
    simp only
    cases hfound : fdArrayAlloc a noFd s with
    | error e t =>
      rw [hfound, Outcome.sat_error] at halloc
      subst halloc
      rw [Prog.bind_run_error hfound]
      exact h.returned
    | panic p =>
      rw [hfound] at halloc
      exact halloc.elim
    | ok file u =>
      rw [hfound, Outcome.sat_ok] at halloc
      rw [Prog.bind_run_ok hfound]
      have hfree : ∀ e : Errno, (fdArrayFree env a file u).Sat (fun _ t => Returned env s t)
          (fun _ t => Returned env s t) (fun p => ¬p.OfCounts) := by
        intro e
        obtain ⟨t, hrun, hcounted, howners, href, hopen⟩ := halloc.fdArrayFree_run ha
        rw [hrun]
        exact ⟨⟨hcounted, howners⟩, href, hopen⟩
      have hopen : (Prog.onError (vfsOpen env a path openFlags ans) (fdArrayFree env a file) u).Sat
          (fun node t => t = u.opened node) (fun _ t => Returned env s t) (fun p => ¬p.OfCounts) := by
        apply Prog.sat_onError (vfsOpen_sat halloc.counted.sound (hleak file u hfound))
        . intro e t ht
          subst ht
          exact hfree e
        . exact fun _ => id
      apply Prog.sat_bind hopen
      . intro node t ht
        subst ht
        have hpos : (Prog.onError (filePos openFlags ans)
            (do
              vfsClose env node
              fdArrayFree env a file) (u.opened node)).Sat (fun _ t => t = u.opened node)
            (fun _ t => Returned env s t) (fun p => ¬p.OfCounts) := by
          apply Prog.sat_onError (filePos_keeps openFlags)
          . intro e t ht
            subst ht
            rw [Prog.bind_run_ok (vfsClose_run halloc.counted.sound)]
            exact hfree e
          . exact fun _ => id
        apply Prog.sat_bind hpos
        . intro pos t ht
          subst ht
          obtain ⟨v, hrun, hbalanced⟩ := halloc.fill ha
            (f := fun f => { f with pos, node := some node, readable := mode.1, writable := mode.2 })
            rfl rfl rfl
          have htable : ((u.opened node).files a).table = (u.files a).table := rfl
          simp only [onTable, htable, hrun, Option.map_some]
          exact hbalanced
        . exact fun _ _ => id
        . exact fun _ => id
      . exact fun _ _ => id
      . exact fun _ => id

theorem fd2file_sat (fd : Int)
    : (fd2file a fd s).Sat
      (fun file t => t = s ∧ ((s.files a).table.slots file).status = .fdOpened) (fun _ t => t = s)
      (fun _ => False) := by
  unfold fd2file
  simp only [Prog.get_bind_run]
  cases hfound : (s.files a).table.fd2file fd with
  | ok file => exact ⟨rfl, FileTable.fd2file_status hfound⟩
  | error e => rfl

theorem fileClose_balances (h : s.Counted env 0 s.live) (ha : a ∈ s.live) (fd : Int)
    : Balances env s (fileClose env a fd s) := by
  unfold fileClose
  apply Prog.sat_bind (fd2file_sat fd)
  . intro file t ⟨ht, hstatus⟩
    subst ht
    obtain ⟨u, hclose, hcounted, howners, -⟩ := fdArrayClose_run h ha rfl hstatus
    rw [hclose]
    refine ⟨?_, howners⟩
    rw [howners.live]
    exact hcounted
  . intro e t ht
    subst ht
    exact h.returned
  . exact fun _ hfalse => hfalse.elim

/--
A duplicate takes a reference of its own.
-/
theorem Counted.fdArrayDup_run (h : s.Counted env busy l) (busy₁ : Nat → Fd → Multiset Role)
    (ha : a ∈ s.live)
    (hbusy : busy a = Pi.single file {.opening}) (hidle : busy₁ a = 0)
    (hother : ∀ b, b ≠ a → busy₁ b = busy b) (src : File) (hopened : src.status = .fdOpened)
    (hnode : src.node = some node)
    : ∃ u, fdArrayDup a file src s = .ok () ((s.setTable a u).opened node) ∧
      (∀ x, x ≠ file → u.slots x = (s.files a).table.slots x) ∧
      ((s.setTable a u).opened node).Counted env busy₁ l := by
  obtain ⟨u, hrun, hslots, hcounted⟩ := h.fill busy₁ ha hbusy hidle hother
    (f := fun f =>
      { f with pos := src.pos, readable := src.readable, writable := src.writable, node := some node })
    rfl rfl rfl
  have hinv := h.tables a ha
  rw [hbusy] at hinv
  have hdup : (s.files a).table.fdArrayDupFrom file src = some u := by
    simp only [FileTable.fdArrayDupFrom, hinv.of_opening.1, hopened, hnode, and_self, if_true]
    exact hrun
  refine ⟨u, ?_, hslots, hcounted⟩
  unfold fdArrayDup
  rw [Prog.bind_run_ok (onTable_run (x := ()) (u := u) (by simp [hdup]))]
  simp only [hnode, Prog.forSome, inodeRefInc_bind_run]
  exact hold_openInc

theorem fileDup_balances (h : s.Counted env 0 s.live) (ha : a ∈ s.live) (fd1 fd2 : Int)
    : Balances env s (fileDup a fd1 fd2 s) := by
  unfold fileDup
  apply Prog.sat_bind (fd2file_sat fd1)
  . intro file1 t ⟨ht, hopened⟩
    subst ht
    apply Prog.sat_bind (fdArrayAlloc_sat h ha fd2)
    . intro file2 u hres
      simp only [Prog.get_bind_run]
      -- The new slot was free, so it is not the one that is duplicated.
      have hne : file1 ≠ file2 := by
        intro heq
        have := hres.free
        rw [← heq, hopened] at this
        contradiction
      obtain ⟨node, -, -, hnode, -⟩ := (h.tables a ha file1).of_opened hopened
      obtain ⟨v, hdup, -, hcounted⟩ := hres.counted.fdArrayDup_run 0 (hres.mem_live ha)
        (Function.update_self ..) rfl (fun b hb => (Function.update_of_ne hb ..).symm)
        ((u.files a).table.slots file1) (by rw [hres.slots file1 hne]; exact hopened)
        (by rw [hres.slots file1 hne]; exact hnode)
      rw [Prog.bind_run_ok hdup]
      exact ⟨hcounted, (hres.owners.trans (setTable_owners v)).trans opened_owners⟩
    . intro e t ht
      subst ht
      exact h.returned
    . exact fun _ hfalse => hfalse.elim
  . intro e t ht
    subst ht
    exact h.returned
  . exact fun _ hfalse => hfalse.elim

theorem Counted.chdirTo (h : s.Counted env busy s.live) (ha : a ∈ s.live) (dir : Nat)
    : (s.chdirTo a dir).Counted env busy (s.chdirTo a dir).live := by
  apply h.change (d := 0) (c := fun n => (Pi.single dir 1 : Nat → Int) n - optRef (s.files a).pwd n) ha
  . rfl
  . intro b hb
    simp [Vfs.chdirTo, hb]
  . exact fun _ _ => rfl
  . simpa [Vfs.chdirTo] using h.tables a ha
  . simp [Vfs.chdirTo]
  . intro n
    unfold cwdRefs
    rw [sum_change (f := fun b => optRef (s.files b).pwd n) ha fun b hb => by simp [Vfs.chdirTo, hb]]
    simp only [Vfs.chdirTo, Function.update_self, optRef_some]
  . intro n
    simp only [Vfs.chdirTo, Pi.add_apply, Pi.sub_apply, Pi.zero_apply]
    omega
  . intro n
    simp [Vfs.chdirTo]

theorem chdirTo_owners {dir : Nat} : s.SameOwners (s.chdirTo a dir) := by
  refine ⟨rfl, rfl, ?_⟩
  intro b
  by_cases hb : b = a
  . subst hb
    simp [chdirTo]
  . simp [chdirTo, hb]

theorem vfsChdir_balances (h : s.Counted env 0 s.live) (ha : a ∈ s.live) (path : List Char)
    : Balances env s (vfsChdir env a path ans s) := by
  apply (vfsChdir_sat h.sound fun dir => (h.chdirTo ha dir).sound).mono
  . intro _ t ⟨dir, ht⟩
    subst ht
    exact ⟨h.chdirTo ha dir, chdirTo_owners⟩
  . intro e t ht
    subst ht
    exact h.returned
  . exact fun _ => id

theorem Counted.bootTo (h : s.Counted env busy l) (o : Option Nat)
    : (s.bootTo o).Counted env busy l := by
  refine ⟨h.tables, ?_, h.openCount⟩
  intro n
  have := h.refCount n
  simp only [Vfs.bootTo, Pi.add_apply, Pi.sub_apply, slotRefs, cwdRefs] at this ⊢
  omega

/--
The boot file system has a reference to its root, the one before gives its reference back.
-/
theorem vfsSetBootfs_balances (h : s.Counted env 0 s.live) (ha : a ∈ s.live)
    (fsname : Option (List Char))
    : Balances env s (vfsSetBootfs env a fsname ans s) := by
  unfold vfsSetBootfs
  cases fsname with
  | none =>
    have hrun := changeBootfs_run none (h.bootTo none).sound
    rw [optRef_none, add_zero] at hrun
    simp only [hrun]
    exact ⟨h.bootTo none, ⟨rfl, rfl, fun _ => rfl⟩⟩
  | some fsname =>
    simp only
    split
    . exact h.returned
    apply Prog.sat_bind (vfsChdir_sat h.sound fun dir => (h.chdirTo ha dir).sound)
    . intro _ t ⟨dir, ht⟩
      subst ht
      have hcounted := h.chdirTo ha dir
      have hcurdir : vfsGetCurdir a (s.chdirTo a dir) = .ok dir ((s.chdirTo a dir).hold dir) := by
        simp [vfsGetCurdir, Vfs.chdirTo, Vfs.hold]
      have hrun := changeBootfs_run (some dir) (hcounted.bootTo (some dir)).sound
      rw [optRef_some] at hrun
      rw [Prog.bind_run_ok hcurdir]
      simp only [Vfs.hold, hrun]
      exact ⟨hcounted.bootTo (some dir), chdirTo_owners.trans ⟨rfl, rfl, fun _ => rfl⟩⟩
    . intro e t ht
      subst ht
      exact h.returned
    . exact fun _ => id

end Vfs
end Ucore

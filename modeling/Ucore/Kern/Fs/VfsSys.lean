import Ucore.Kern.Fs.FilesStruct.Users
import Ucore.Lib.Run

/-!
This module contains the processes that open and close files, change their directories, fork, exec and
exit in any order, and that the counts of the inodes stay balanced.
-/

namespace Ucore

/--
A call of a process. `fresh` is what `kmalloc` hands out for a new `files_struct`.
-/
inductive VfsCall where
  | fileOpen (path : List Char) (openFlags : BitVec 32) (ans : VfsAnswer)
  | fileClose (fd : Int)
  | fileDup (fd1 fd2 : Int)
  | vfsChdir (path : List Char) (ans : VfsAnswer)
  | vfsSetBootfs (fsname : Option (List Char)) (ans : VfsAnswer)
  | doFork (cloneFs : Bool) (fresh : Option Nat)
  | doExecve
  | doExit

namespace Vfs

/--
The call `c` of process `i`.
-/
def call (env : VfsEnv) (i : Nat) (p : VfsProc) : VfsCall → VfsProg Unit
  | .fileOpen path openFlags ans => do
    let _ ← fileOpen env p.filesp path openFlags ans
  | .fileClose fd => fileClose env p.filesp fd
  | .fileDup fd1 fd2 => do
    let _ ← fileDup p.filesp fd1 fd2
  | .vfsChdir path ans => vfsChdir env p.filesp path ans
  | .vfsSetBootfs fsname ans => vfsSetBootfs env p.filesp fsname ans
  | .doFork cloneFs fresh => doFork p cloneFs fresh
  | .doExecve => doExecve env i p
  | .doExit => doExit env i p

/--
`kmalloc` hands out no address that is in use.
-/
def Possible (s : Vfs) : VfsCall → Prop
  | .doFork _ (some a) => a ∉ s.live
  | _ => True

instance (s : Vfs) : (c : VfsCall) → Decidable (s.Possible c)
  | .doFork _ (some a) => inferInstanceAs (Decidable (a ∉ s.live))
  | .doFork _ none => isTrue trivial
  | .fileOpen .. => isTrue trivial
  | .fileClose .. => isTrue trivial
  | .fileDup .. => isTrue trivial
  | .vfsChdir .. => isTrue trivial
  | .vfsSetBootfs .. => isTrue trivial
  | .doExecve => isTrue trivial
  | .doExit => isTrue trivial

/--
A process makes a call. A process that does not exist or has exited makes none.
-/
def step (env : VfsEnv) (s : Vfs) (i : Nat × VfsCall) : Option Vfs :=
  match s.procs[i.1]? with
  | some p => if p.exited = false ∧ s.Possible i.2 then (call env i.1 p i.2 s).state else some s
  | none => some s

/--
`initproc` at its first call. `slots` is what has been left in the memory.
-/
def start (env : VfsEnv) (slots : Nat → Fd → File) : Vfs where
  refCount := devRefs env
  openCount := 0
  bootfsNode := none
  live := {0}
  files := fun a => { pwd := none, filesCount := 1, table := FileTable.fdArrayInit (slots a) }
  procs := [{ filesp := 0, mm := false, exited := false, put := false }]

/--
The `vfs_open` of a `file_open` finds the inode but is not to open one that exists.
-/
def OpenLeaks (env : VfsEnv) (s : Vfs) (filesp : Nat) (path : List Char) (openFlags : BitVec 32)
    (ans : VfsAnswer) : Prop :=
  (fdArrayAlloc filesp noFd s).Sat (fun _ t => t.Leaks env filesp path openFlags ans)
    (fun _ _ => False) (fun _ => False)

instance (env : VfsEnv) (s : Vfs) (filesp : Nat) (path : List Char) (openFlags : BitVec 32)
    (ans : VfsAnswer)
    : Decidable (s.OpenLeaks env filesp path openFlags ans) :=
  inferInstanceAs (Decidable (Outcome.Sat ..))

def CallLeaks (env : VfsEnv) (s : Vfs) (p : VfsProc) : VfsCall → Prop
  | .fileOpen path openFlags ans => s.OpenLeaks env p.filesp path openFlags ans
  | _ => False

instance (env : VfsEnv) (s : Vfs) (p : VfsProc) : (c : VfsCall) → Decidable (s.CallLeaks env p c)
  | .fileOpen path openFlags ans =>
    inferInstanceAs (Decidable (s.OpenLeaks env p.filesp path openFlags ans))
  | .fileClose .. => isFalse id
  | .fileDup .. => isFalse id
  | .vfsChdir .. => isFalse id
  | .vfsSetBootfs .. => isFalse id
  | .doFork .. => isFalse id
  | .doExecve => isFalse id
  | .doExit => isFalse id

def NoLeak (env : VfsEnv) (s : Vfs) (i : Nat × VfsCall) : Prop :=
  ∀ p ∈ s.procs[i.1]?, ¬s.CallLeaks env p i.2

instance (env : VfsEnv) (s : Vfs) (i : Nat × VfsCall) : Decidable (s.NoLeak env i) :=
  inferInstanceAs (Decidable (∀ p ∈ s.procs[i.1]?, _))

/--
The counts of an inode are those of the references to it.
-/
structure Accounted (env : VfsEnv) (s : Vfs) (node : Nat) : Prop where
  openCount : s.openCount node = s.slotRefs node
  refCount : s.refCount node =
    s.slotRefs node + s.cwdRefs s.live node + devRefs env node + optRef s.bootfsNode node
  le : s.openCount node ≤ s.refCount node
  nonneg : 0 ≤ s.openCount node

/--
A function that fails has given back the references it took.
-/
structure ErrorsReturn (env : VfsEnv) (s : Vfs) : Prop where
  vfsOpen : ∀ filesp path openFlags ans e t, ¬s.Leaks env filesp path openFlags ans →
    vfsOpen env filesp path openFlags ans s = .error e t → t = s
  fileOpen : ∀ filesp ∈ s.live, ∀ path openFlags ans e t, ¬s.OpenLeaks env filesp path openFlags ans →
    fileOpen env filesp path openFlags ans s = .error e t →
      t.refCount = s.refCount ∧ t.openCount = s.openCount
  vfsSetCurdir : ∀ filesp ∈ s.live, ∀ dir e t, vfsSetCurdir env filesp dir s = .error e t → t = s
  vfsChdir : ∀ filesp ∈ s.live, ∀ path ans e t, vfsChdir env filesp path ans s = .error e t → t = s

variable {env : VfsEnv} {s t : Vfs} {i : Nat} {p : VfsProc} {c : VfsCall}

theorem fileOpen_balances_of_noLeak (h : s.Consistent env) {filesp : Nat} (hmem : filesp ∈ s.live)
    {path : List Char} {openFlags : BitVec 32} {ans : VfsAnswer}
    (hleak : ¬s.OpenLeaks env filesp path openFlags ans)
    : Balances env s (fileOpen env filesp path openFlags ans s) := by
  apply fileOpen_balances h.counted hmem
  intro file t halloc
  unfold OpenLeaks at hleak
  rw [halloc] at hleak
  exact hleak

theorem call_keepsCounts (h : s.Consistent env) (hi : s.procs[i]? = some p)
    (hexited : p.exited = false) (hpossible : s.Possible c) (hleak : s.NoLeak env (i, c))
    : KeepsCounts env s (call env i p c s) := by
  have hp := List.mem_of_getElem? hi
  have hput := h.owned.exited p hp hexited
  have hmem := h.owned.live p hp hput
  have hdrop : ∀ {α : Type} {m : VfsProg α}, Balances env s (m s) →
      KeepsCounts env s ((do let _ ← m : VfsProg Unit) s) := by
    intro α m hm
    apply Prog.sat_bind_imp (hm.keepsCounts h.owned)
    exact fun _ _ => id
  cases c with
  | fileOpen path openFlags ans =>
    have hleak := hleak p hi
    exact hdrop (fileOpen_balances_of_noLeak h hmem hleak)
  | fileClose fd => exact (fileClose_balances h.counted hmem fd).keepsCounts h.owned
  | fileDup fd1 fd2 => exact hdrop (fileDup_balances h.counted hmem fd1 fd2)
  | vfsChdir path ans => exact (vfsChdir_balances h.counted hmem path).keepsCounts h.owned
  | vfsSetBootfs fsname ans => exact (vfsSetBootfs_balances h.counted hmem fsname).keepsCounts h.owned
  | doFork cloneFs fresh =>
    apply doFork_keepsCounts h hp hput
    intro a ha
    subst ha
    exact hpossible
  | doExecve => exact doExecve_keepsCounts h hi hput
  | doExit => exact doExit_keepsCounts h hi hput

theorem step_consistent (h : s.Consistent env) {i : Nat × VfsCall} (hleak : s.NoLeak env i)
    (hstep : step env s i = some t)
    : t.Consistent env := by
  unfold step at hstep
  split at hstep
  next p hi =>
    split at hstep
    next hcond =>
      have hcall := call_keepsCounts h hi hcond.1 hcond.2 hleak
      cases hrun : call env i.1 p i.2 s with
      | ok a u =>
        rw [hrun] at hcall hstep
        rw [Outcome.state, Option.some_inj] at hstep
        exact hstep ▸ hcall
      | error e u =>
        rw [hrun] at hcall hstep
        rw [Outcome.state, Option.some_inj] at hstep
        exact hstep ▸ hcall.1
      | panic q =>
        rw [hrun] at hstep
        contradiction
    next =>
      rw [Option.some_inj] at hstep
      exact hstep ▸ h
  next =>
    rw [Option.some_inj] at hstep
    exact hstep ▸ h

theorem start_consistent (slots : Nat → Fd → File) : (start env slots).Consistent env := by
  have hholds : ∀ n, (start env slots).slotRefs n = 0 := by
    intro n
    simp [slotRefs, start, FileTable.holds, FileTable.fdArrayInit, File.holds]
  refine ⟨⟨?_, ?_, ?_⟩, ?_, ?_, ?_⟩
  . intro a _ x
    exact ⟨.none, rfl, rfl, rfl, rfl, rfl⟩
  . intro n
    rw [hholds]
    simp [start, cwdRefs, optRef]
  . intro n
    rw [hholds]
    rfl
  . intro p hp _
    simp only [start, List.mem_singleton] at hp
    subst hp
    exact Finset.mem_singleton_self 0
  . intro a ha
    rw [Finset.mem_singleton.mp ha]
    rfl
  . intro p hp _
    simp only [start, List.mem_singleton] at hp
    subst hp
    rfl

theorem Consistent.accounted (h : s.Consistent env) (node : Nat) : Accounted env s node := by
  have hsound := h.counted.sound
  exact ⟨h.counted.openCount node, h.counted.refCount node, hsound.openCount_le node,
    hsound.openCount_nonneg node⟩

theorem inodeRefDec_sat {node : Nat}
    : (inodeRefDec env node s).Sat (fun _ _ => True) (fun _ _ => False) (fun _ => True) := by
  unfold inodeRefDec
  simp only [Prog.get_bind_run]
  by_cases hpos : 0 < s.refCount node
  . rw [Prog.assert_bind_run hpos, Prog.modify_bind_run]
    unfold Prog.when vopReclaim
    split
    . split
      . exact trivial
      . simp only [Prog.get_bind_run, Prog.assert]
        split <;> exact trivial
    . exact trivial
  . rw [Prog.assert_bind_run_panic hpos]
    exact trivial

theorem vfsSetCurdir_none_sat {filesp : Nat}
    : (vfsSetCurdir env filesp none s).Sat (fun _ _ => True) (fun _ _ => False) (fun _ => True) := by
  unfold vfsSetCurdir
  simp only [Prog.get_bind_run]
  split
  . rw [setCwd, Prog.modify_bind_run]
    cases (s.files filesp).pwd with
    | some old => exact inodeRefDec_sat
    | none => exact trivial
  . exact trivial

theorem Consistent.errorsReturn (h : s.Consistent env) : ErrorsReturn env s := by
  constructor
  . intro filesp path openFlags ans e t hleak hrun
    have := vfsOpen_sat h.counted.sound hleak
    rw [hrun] at this
    exact this
  . intro filesp hmem path openFlags ans e t hleak hrun
    have := fileOpen_balances_of_noLeak h hmem hleak
    rw [hrun] at this
    exact ⟨this.refCount, this.openCount⟩
  . intro filesp hmem dir e t hrun
    cases dir with
    | some dir =>
      have := vfsSetCurdir_sat (h.counted.chdirTo hmem dir).sound
      rw [hrun] at this
      exact this
    | none =>
      have hsat : (vfsSetCurdir env filesp none s).Sat _ _ _ := vfsSetCurdir_none_sat
      rw [hrun] at hsat
      exact hsat.elim
  . intro filesp hmem path ans e t hrun
    have hsat : (vfsChdir env filesp path ans s).Sat _ _ _ := vfsChdir_sat h.counted.sound fun dir =>
      (h.counted.chdirTo hmem dir).sound
    rw [hrun] at hsat
    exact hsat

end Vfs

/--
The devices stdin, stdout and disk0 with the root directory of its file system.
-/
def VfsEnv.disk0 : VfsEnv where
  devs :=
    [⟨['s', 't', 'd', 'i', 'n'], none, false⟩, ⟨['s', 't', 'd', 'o', 'u', 't'], none, false⟩,
      ⟨['d', 'i', 's', 'k', '0'], some 0, true⟩]
  isDir := fun k => k = 1
  fsOf := fun _ => 0
  root := fun _ => 1

/--
Everything succeeds, the search finds inode `k`.
-/
def VfsAnswer.finds (k : Nat) : VfsAnswer where
  root := true
  lookup := .ok k
  dopOpen := .ok ()
  truncate := .ok ()
  fstat := .ok 0

def VfsAnswer.misses : VfsAnswer := { VfsAnswer.finds 0 with lookup := .error .noent }

def File.zero : File := ⟨.fdNone, false, false, 0, 0, none, 0⟩

/--
An open, an open of a missing name, a dup, a fork with shared files and an exit behind the start of
user_main.
-/
def VfsCall.userMain : List (Nat × VfsCall) :=
  [(0, .vfsSetBootfs (some ['d', 'i', 's', 'k', '0', ':']) (.finds 0)),
    (0, .doFork false (some 1)), (1, .doExecve), (1, .fileOpen ['f'] 0 (.finds 7)),
    (1, .fileOpen ['g'] 0 .misses), (1, .fileDup 0 noFd), (1, .doFork true none), (2, .fileClose 0),
    (1, .doExit)]

end Ucore

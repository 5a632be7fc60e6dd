import Mathlib
import Ucore.Kern.Fs.Vfs.Impl

/-!
This module contains what the functions of kern/fs/vfs do to the counts of the inodes: a function that
succeeds leaves the references it is to leave, one that fails leaves none.
-/

namespace Ucore

/--
The panics that are about counts and tables.
-/
def VfsPanic.OfCounts : VfsPanic → Prop
  | .vopReclaim => True
  | .inodeRefDec => True
  | .inodeOpenDec => True
  | .inodeKill => True
  | .fdArray => True
  | .dupFiles => True
  | .filesDestroy => True
  | .filesCloseall => True
  | _ => False

namespace Vfs

/--
One more reference to `node`.
-/
def hold (s : Vfs) (node : Nat) : Vfs :=
  { s with refCount := s.refCount + Pi.single node 1 }

/--
One more open of `node`, with the reference that belongs to it.
-/
def opened (s : Vfs) (node : Nat) : Vfs :=
  { s with
    refCount := s.refCount + Pi.single node 1
    openCount := s.openCount + Pi.single node 1 }

/--
No count is negative, every open has a reference, and a device has one for its registration.
-/
structure Sound (env : VfsEnv) (s : Vfs) : Prop where
  openCount_nonneg : ∀ n, 0 ≤ s.openCount n
  openCount_le : ∀ n, s.openCount n ≤ s.refCount n
  device : ∀ n, env.IsDevice n → 0 < s.refCount n

variable {env : VfsEnv} {s : Vfs} {node n m : Nat} {filesp : Nat} {path : List Char} {ans : VfsAnswer}

theorem single_nonneg (node n : Nat) : (0 : Int) ≤ (Pi.single node 1 : Nat → Int) n := by
  by_cases hn : n = node
  . simp [hn]
  . simp [hn]

theorem hold_comm : (s.hold n).hold m = (s.hold m).hold n := by
  simp only [hold]
  rw [add_right_comm]

theorem Sound.hold (h : s.Sound env) (node : Nat) : (s.hold node).Sound env := by
  constructor
  . exact h.openCount_nonneg
  . intro n
    have := h.openCount_le n
    have := single_nonneg node n
    simp only [Vfs.hold, Pi.add_apply]
    omega
  . intro n hn
    have := h.device n hn
    have := single_nonneg node n
    simp only [Vfs.hold, Pi.add_apply]
    omega

theorem update_add_one (f : Nat → Int) (node : Nat)
    : Function.update f node (f node + 1) = f + Pi.single node 1 := by
  funext n
  by_cases hn : n = node
  . subst hn
    simp
  . simp [hn]

theorem update_sub_one (f : Nat → Int) (node : Nat)
    : Function.update (f + Pi.single node 1) node ((f + Pi.single node 1 : Nat → Int) node - 1) = f := by
  funext n
  by_cases hn : n = node
  . subst hn
    simp
  . simp [hn]

@[simp]
theorem inodeRefInc_run : inodeRefInc node s = .ok () (s.hold node) := by
  simp only [inodeRefInc, Prog.modify_run, update_add_one]
  rfl

@[simp]
theorem inodeRefInc_bind_run {α : Type} {f : Unit → VfsProg α}
    : (inodeRefInc node >>= f) s = f () (s.hold node) :=
  Prog.bind_run_ok inodeRefInc_run

theorem hold_openInc
    : inodeOpenInc node (s.hold node) = .ok () (s.opened node) := by
  simp only [inodeOpenInc, Prog.modify_run, hold, update_add_one]
  rfl

/--
A reference that has been taken can be given back.
-/
theorem inodeRefDec_run (h : s.Sound env) : inodeRefDec env node (s.hold node) = .ok () s := by
  have hnonneg := h.openCount_nonneg node
  have hle := h.openCount_le node
  have hcount : (s.hold node).refCount node = s.refCount node + 1 := by
    simp [hold]
  have hstate : { s.hold node with
      refCount := Function.update (s.hold node).refCount node ((s.hold node).refCount node - 1) } = s := by
    simp only [hold, update_sub_one]
  simp only [inodeRefDec, Prog.get_bind_run]
  rw [Prog.assert_bind_run (by omega), Prog.modify_bind_run, hstate]
  by_cases hlast : (s.hold node).refCount node - 1 = 0
  . have hdevice : ¬env.IsDevice node := by
      intro hdevice
      have := h.device node hdevice
      omega
    rw [Prog.when_pos hlast]
    simp only [vopReclaim, if_neg hdevice, Prog.get_bind_run, Prog.assert]
    exact if_pos ⟨by omega, by omega⟩
  . rw [Prog.when_neg hlast]
    rfl

/--
One reference less to `node`.
-/
def drop (s : Vfs) (node : Nat) : Vfs :=
  { s with refCount := s.refCount - Pi.single node 1 }

theorem inodeRefDec_drop (h : (s.drop node).Sound env)
    : inodeRefDec env node s = .ok () (s.drop node) := by
  have hstate : s = (s.drop node).hold node := by
    simp only [drop, Vfs.hold, sub_add_cancel]
  calc inodeRefDec env node s
      = inodeRefDec env node ((s.drop node).hold node) := by rw [← hstate]
    _ = .ok () (s.drop node) := inodeRefDec_run h

theorem inodeRefDec_bind_run {α : Type} {f : Unit → VfsProg α} (h : s.Sound env)
    : (inodeRefDec env node >>= f) (s.hold node) = f () s :=
  Prog.bind_run_ok (inodeRefDec_run h)

/--
A file that has been opened can be closed.
-/
theorem vfsClose_run (h : s.Sound env) : vfsClose env node (s.opened node) = .ok () s := by
  have hnonneg := h.openCount_nonneg node
  have hcount : (s.opened node).openCount node = s.openCount node + 1 := by
    simp [opened]
  have hdec : inodeOpenDec node (s.opened node) = .ok () (s.hold node) := by
    simp only [inodeOpenDec, Prog.get_bind_run]
    rw [Prog.assert_bind_run (by omega)]
    simp only [Prog.modify_run, opened, update_sub_one]
    rfl
  unfold vfsClose
  rw [Prog.bind_run_ok hdec, inodeRefDec_run h]

/--
What a function does that hands back an inode with a reference.
-/
def Holds (s : Vfs) (o : Outcome Errno VfsPanic Vfs Nat) : Prop :=
  o.Sat (fun node t => t = s.hold node) (fun _ t => t = s) (fun p => ¬p.OfCounts)

theorem fsopGetRoot_holds (fs : Nat) : s.Holds (fsopGetRoot env fs ans s) := by
  unfold fsopGetRoot
  split
  . rw [inodeRefInc_bind_run]
    rfl
  . exact id

theorem vfsGetRoot_holds (devname : List Char) : s.Holds (vfsGetRoot env devname ans s) := by
  unfold vfsGetRoot
  cases env.devs.zipIdx.find? fun d => d.1.devname = devname with
  | none => rfl
  | some found =>
    cases found with
    | mk dev node =>
      simp only
      cases dev.fs with
      | some fs => exact fsopGetRoot_holds fs
      | none =>
        simp only
        split
        . rfl
        . rw [inodeRefInc_bind_run]
          rfl

theorem vfsGetCurdir_holds : s.Holds (vfsGetCurdir filesp s) := by
  unfold vfsGetCurdir
  simp only [Prog.get_bind_run]
  cases (s.files filesp).pwd with
  | some node =>
    simp only [inodeRefInc_bind_run]
    rfl
  | none => rfl

theorem vfsGetBootfs_holds : s.Holds (vfsGetBootfs s) := by
  unfold vfsGetBootfs
  simp only [Prog.get_bind_run]
  cases s.bootfsNode with
  | some node =>
    simp only [inodeRefInc_bind_run]
    rfl
  | none => rfl

theorem getCurfs_holds (h : s.Sound env) : s.Holds (getCurfs env filesp ans s) := by
  unfold getCurfs
  apply Prog.sat_bind vfsGetCurdir_holds
  . intro node t ht
    subst ht
    cases env.inFs node with
    | none => exact id
    | some fs =>
      by_cases hroot : ans.root = true
      . simp only [fsopGetRoot, if_pos hroot, Prog.bind_assoc_run, inodeRefInc_bind_run,
          Prog.pure_bind_run]
        rw [hold_comm, inodeRefDec_bind_run (h.hold _)]
        rfl
      . simp only [fsopGetRoot, if_neg hroot]
        exact id
  . exact fun _ _ => id
  . exact fun _ => id

/--
The inode a path starts from is handed out with a reference.
-/
theorem getDevice_sat (h : s.Sound env)
    : (getDevice env filesp path ans s).Sat (fun r t => t = s.hold r.2) (fun _ t => t = s)
      (fun p => ¬p.OfCounts) := by
  have hwith : ∀ {m : VfsProg Nat} {f : Nat → List Char × Nat}, s.Holds (m s) →
      (∀ node, (f node).2 = node) →
      ((m >>= fun node => pure (f node)) s).Sat (fun r t => t = s.hold r.2) (fun _ t => t = s)
        (fun p => ¬p.OfCounts) := by
    intro m f hm hf
    apply Prog.sat_bind hm
    . intro node t ht
      simp only [Prog.pure_run, Outcome.sat_ok]
      rw [hf, ht]
    . exact fun _ _ => id
    . exact fun _ => id
  unfold getDevice
  dsimp only
  split
  . exact hwith vfsGetCurdir_holds fun _ => rfl
  . split
    . exact hwith (vfsGetRoot_holds _) fun _ => rfl
    . split
      . exact hwith vfsGetBootfs_holds fun _ => rfl
      . exact hwith (getCurfs_holds h) fun _ => rfl

theorem sfsLookup_holds (h : s.Sound env) : s.Holds (sfsLookup env node path ans s) := by
  unfold sfsLookup
  by_cases hpath : path ≠ [] ∧ path.head? ≠ some '/'
  . rw [Prog.assert_bind_run hpath, inodeRefInc_bind_run]
    cases ans.lookup with
    | error e =>
      simp only
      rw [inodeRefDec_bind_run h]
      rfl
    | ok k =>
      simp only [inodeRefInc_bind_run]
      rw [hold_comm, inodeRefDec_bind_run (h.hold _)]
      rfl
  . rw [Prog.assert_bind_run_panic hpath]
    exact id

theorem vopLookup_holds (h : s.Sound env) : s.Holds (vopLookup env node path ans s) := by
  unfold vopLookup
  split
  . unfold devLookup
    split
    . rfl
    . rw [inodeRefInc_bind_run]
      rfl
  . split
    . exact sfsLookup_holds h
    . exact id

/--
The state behind an `attempt`.
-/
def Attempted {α : Type} (done : α → Vfs) (failed t : Vfs) : Except Errno α → Prop
  | .ok a => t = done a
  | .error _ => t = failed

theorem vfsLookup_holds (h : s.Sound env) : s.Holds (vfsLookup env filesp path ans s) := by
  unfold vfsLookup
  apply Prog.sat_bind_imp (getDevice_sat h)
  intro start t ht
  subst ht
  split
  . rfl
  . have hlookup : (Prog.attempt (vopLookup env start.2 start.1 ans) (s.hold start.2)).Sat
        (fun r t => Attempted (fun node => (s.hold start.2).hold node) (s.hold start.2) t r) (fun _ _ => False)
        (fun p => ¬p.OfCounts) := by
      apply Prog.sat_attempt
      exact vopLookup_holds (h.hold start.2)
    apply Prog.sat_bind hlookup
    . intro r t ht
      cases r with
      | ok node =>
        obtain rfl : t = (s.hold start.2).hold node := ht
        simp only
        rw [hold_comm, inodeRefDec_bind_run (h.hold node)]
        rfl
      | error e =>
        obtain rfl : t = s.hold start.2 := ht
        rw [inodeRefDec_bind_run h]
        rfl
    . exact fun _ _ hfalse => hfalse.elim
    . exact fun _ => id

/--
What a function does that leaves everything as it is.
-/
def Keeps {α : Type} (s : Vfs) (o : Outcome Errno VfsPanic Vfs α) : Prop :=
  o.Sat (fun _ t => t = s) (fun _ t => t = s) (fun p => ¬p.OfCounts)

theorem vopOpen_keeps (openFlags : BitVec 32) : s.Keeps (vopOpen env node openFlags ans s) := by
  unfold vopOpen
  split
  . unfold devOpen
    split
    . rfl
    . cases ans.dopOpen <;> rfl
  . split
    . unfold sfsOpendir
      split <;> rfl
    . rfl

theorem vopTruncate_keeps : s.Keeps (vopTruncate env node ans s) := by
  unfold vopTruncate
  split
  . exact id
  . cases ans.truncate <;> rfl

/--
`vfs_open` finds the inode but is not to open one that exists.
-/
def Leaks (env : VfsEnv) (s : Vfs) (filesp : Nat) (path : List Char) (openFlags : BitVec 32)
    (ans : VfsAnswer) : Prop :=
  openFlags &&& oExcl ≠ 0 ∧ openFlags &&& oCreat ≠ 0 ∧ (vfsLookup env filesp path ans s).isOk = true

instance (s : Vfs) (filesp : Nat) (path : List Char) (openFlags : BitVec 32) (ans : VfsAnswer)
    : Decidable (s.Leaks env filesp path openFlags ans) :=
  inferInstanceAs (Decidable (_ ∧ _ ∧ _))

theorem vfsOpenNode_holds (h : s.Sound env) {openFlags : BitVec 32}
    (hleak : ¬s.Leaks env filesp path openFlags ans)
    : s.Holds (vfsOpenNode env filesp path (openFlags &&& oExcl ≠ 0) (openFlags &&& oCreat ≠ 0) ans
      s) := by
  have hlookup : s.Holds (vfsLookup env filesp path ans s) := vfsLookup_holds h
  unfold vfsOpenNode
  cases hfound : vfsLookup env filesp path ans s with
  | ok node t =>
    rw [hfound] at hlookup
    rw [Prog.bind_run_ok (Prog.attempt_ok hfound)]
    simp only
    split
    next hexists =>
      exact absurd ⟨by simpa using hexists.1, by simpa using hexists.2, by rw [hfound]; rfl⟩ hleak
    . exact hlookup
  | error e t =>
    rw [hfound] at hlookup
    simp only [Holds, Outcome.sat_error] at hlookup
    subst hlookup
    rw [Prog.bind_run_ok (Prog.attempt_error hfound)]
    simp only
    split
    . apply Prog.sat_bind_imp (getDevice_sat h)
      exact fun _ _ _ => id
    . rfl
  | panic p =>
    rw [hfound] at hlookup
    rw [Prog.bind_run_panic (Prog.attempt_panic hfound)]
    exact hlookup

/--
An open that succeeds leaves the reference of the open, one that fails leaves none.
-/
theorem vfsOpen_sat (h : s.Sound env) {openFlags : BitVec 32}
    (hleak : ¬s.Leaks env filesp path openFlags ans)
    : (vfsOpen env filesp path openFlags ans s).Sat (fun node t => t = s.opened node)
      (fun _ t => t = s) (fun p => ¬p.OfCounts) := by
  unfold vfsOpen
  cases FileTable.accessMode openFlags with
  | none => rfl
  | some mode =>
    simp only
    split
    . rfl
    apply Prog.sat_bind_imp (vfsOpenNode_holds h hleak)
    intro node t ht
    subst ht
    have hopen : (Prog.onError (vopOpen env node openFlags ans) (inodeRefDec env node)
        (s.hold node)).Sat (fun _ t => t = s.hold node) (fun _ t => t = s)
        (fun p => ¬p.OfCounts) := by
      apply Prog.sat_onError (vopOpen_keeps openFlags)
      . intro e t ht
        subst ht
        rw [inodeRefDec_run h]
        rfl
      . exact fun _ => id
    apply Prog.sat_bind hopen
    . intro _ t ht
      subst ht
      rw [Prog.bind_run_ok hold_openInc]
      have htrunc : (Prog.when (openFlags &&& oTrunc ≠ 0 ∨ openFlags &&& oCreat ≠ 0)
          (Prog.onError (vopTruncate env node ans) (vfsClose env node)) (s.opened node)).Sat
          (fun _ t => t = s.opened node) (fun _ t => t = s) (fun p => ¬p.OfCounts) := by
        unfold Prog.when
        split
        . apply Prog.sat_onError vopTruncate_keeps
          . intro e t ht
            subst ht
            rw [vfsClose_run h]
            rfl
          . exact fun _ => id
        . rfl
      apply Prog.sat_bind htrunc
      . intro _ t ht
        exact ht
      . exact fun _ _ => id
      . exact fun _ => id
    . exact fun _ _ => id
    . exact fun _ => id

/--
The reference of a pointer to an inode.
-/
def optRef (o : Option Nat) (n : Nat) : Int := if o = some n then 1 else 0

theorem optRef_some (node : Nat) : optRef (some node) = Pi.single node 1 := by
  funext n
  by_cases hn : n = node
  . subst hn
    simp [optRef]
  . simp [optRef, hn, Ne.symm hn]

theorem optRef_none : optRef none = 0 := rfl

/--
The current directory of the `files_struct` is `dir`, and the references are moved with it.
-/
def chdirTo (s : Vfs) (filesp dir : Nat) : Vfs :=
  { s with
    refCount := s.refCount + Pi.single dir 1 - optRef (s.files filesp).pwd
    files := Function.update s.files filesp { s.files filesp with pwd := some dir } }

/--
The boot file system is the one with this root, and the references are moved with it.
-/
def bootTo (s : Vfs) (node : Option Nat) : Vfs :=
  { s with
    refCount := s.refCount + optRef node - optRef s.bootfsNode
    bootfsNode := node }

theorem chdirTo_same {dir : Nat} (h : (s.files filesp).pwd = some dir) : s.chdirTo filesp dir = s := by
  have hfiles : { s.files filesp with pwd := some dir } = s.files filesp := by
    rw [← h]
  simp only [chdirTo, hfiles, h, optRef_some, Function.update_eq_self, add_sub_cancel_right]

theorem hold_chdirTo {dir : Nat} : (s.hold node).chdirTo filesp dir = (s.chdirTo filesp dir).hold node := by
  simp only [chdirTo, hold, Vfs.mk.injEq, and_true]
  abel

/--
`vfs_set_curdir` moves a reference from the old directory to the new one or does nothing.
-/
theorem vfsSetCurdir_sat {dir : Nat} (h : (s.chdirTo filesp dir).Sound env)
    : (vfsSetCurdir env filesp (some dir) s).Sat (fun _ t => t = s.chdirTo filesp dir)
      (fun _ t => t = s) (fun p => ¬p.OfCounts) := by
  unfold vfsSetCurdir
  simp only [Prog.get_bind_run]
  split
  next =>
    by_cases hdir : env.IsDirectory dir
    . simp only [if_pos hdir, inodeRefInc_bind_run, setCwd, Prog.modify_bind_run]
      cases hold : (s.files filesp).pwd with
      | none =>
        simp only [Prog.forSome, Prog.pure_run, Outcome.sat_ok, chdirTo, hold, optRef_none, sub_zero]
        rfl
      | some old =>
        have hstate : { s.hold dir with
            files := Function.update (s.hold dir).files filesp
              { (s.hold dir).files filesp with pwd := some dir } } =
            (s.chdirTo filesp dir).hold old := by
          simp only [chdirTo, Vfs.hold, hold, optRef_some, sub_add_cancel]
        simp only [hstate, Prog.forSome]
        rw [inodeRefDec_run h]
        rfl
    . simp only [if_neg hdir, Prog.throw_bind_run]
      rfl
  next hsame =>
    rw [chdirTo_same (by simpa using hsame)]
    rfl

/--
`vfs_chdir` gives back the reference of its lookup in every case.
-/
theorem vfsChdir_sat (h : s.Sound env)
    (hto : ∀ dir, (s.chdirTo filesp dir).Sound env)
    : (vfsChdir env filesp path ans s).Sat (fun _ t => ∃ dir, t = s.chdirTo filesp dir)
      (fun _ t => t = s) (fun p => ¬p.OfCounts) := by
  unfold vfsChdir
  apply Prog.sat_bind_imp (vfsLookup_holds h)
  intro node t ht
  subst ht
  have hset : (Prog.attempt (vfsSetCurdir env filesp (some node)) (s.hold node)).Sat
      (fun r t => Attempted (fun _ => (s.chdirTo filesp node).hold node) (s.hold node) t r) (fun _ _ => False)
      (fun p => ¬p.OfCounts) := by
    apply Prog.sat_attempt
    rw [← hold_chdirTo]
    exact vfsSetCurdir_sat (by rw [hold_chdirTo]; exact (hto node).hold node)
  apply Prog.sat_bind hset
  . intro r t ht
    cases r with
    | ok _ =>
      obtain rfl : t = (s.chdirTo filesp node).hold node := ht
      rw [inodeRefDec_bind_run (hto node)]
      exact ⟨node, rfl⟩
    | error e =>
      obtain rfl : t = s.hold node := ht
      rw [inodeRefDec_bind_run h]
      rfl
  . exact fun _ _ hfalse => hfalse.elim
  . exact fun _ => id

theorem changeBootfs_run (o : Option Nat) (h : (s.bootTo o).Sound env)
    : changeBootfs env o { s with refCount := s.refCount + optRef o } = .ok () (s.bootTo o) := by
  unfold changeBootfs
  simp only [Prog.get_bind_run, Prog.modify_bind_run]
  cases hold : s.bootfsNode with
  | none =>
    simp only [Prog.forSome, Prog.pure_run, bootTo, hold, optRef_none, sub_zero]
  | some old =>
    have hstate : { s with refCount := s.refCount + optRef o, bootfsNode := o } =
        (s.bootTo o).hold old := by
      simp only [bootTo, Vfs.hold, hold, optRef_some, sub_add_cancel]
    simp only [hstate, Prog.forSome]
    rw [inodeRefDec_run h]

end Vfs
end Ucore

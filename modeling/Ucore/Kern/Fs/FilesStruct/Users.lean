import Mathlib
import Ucore.Kern.Fs.FilesStruct.Calls
import Ucore.Lib.Threads

/-!
This module contains the users of the `files_struct`s: `files_count` is the number of processes that have
not put their files, and fork, exec and exit keep that and the balance of the inode counts.
-/

namespace Ucore

def VfsProc.uses (p : VfsProc) (a : Nat) : Int := if p.put = false ∧ p.filesp = a then 1 else 0

namespace Vfs

/--
How many processes use the `files_struct` at `a`.
-/
def users (procs : List VfsProc) (a : Nat) : Int := Threads.total (fun p => p.uses a) procs

structure Owned (s : Vfs) : Prop where
  live : ∀ p ∈ s.procs, p.put = false → p.filesp ∈ s.live
  filesCount : ∀ a ∈ s.live, (s.files a).filesCount = users s.procs a
  exited : ∀ p ∈ s.procs, p.exited = false → p.put = false

/--
The counts of the inodes and of the `files_struct`s between two calls.
-/
structure Consistent (env : VfsEnv) (s : Vfs) : Prop where
  counted : s.Counted env 0 s.live
  owned : s.Owned

variable {env : VfsEnv} {s t : Vfs} {busy : Nat → Fd → Multiset Role} {l : Finset Nat}
  {procs : List VfsProc} {p q : VfsProc} {i a : Nat} {ans : VfsAnswer}

theorem uses_of_put (h : p.put = true) (a : Nat) : p.uses a = 0 := by
  simp [VfsProc.uses, h]

theorem uses_self (h : p.put = false) : p.uses p.filesp = 1 := by
  simp [VfsProc.uses, h]

theorem uses_le_users (h : p ∈ procs) : p.uses a ≤ users procs a := by
  apply List.single_le_sum
  . intro x hx
    obtain ⟨q, -, rfl⟩ := List.mem_map.mp hx
    unfold VfsProc.uses
    split <;> decide
  . exact List.mem_map_of_mem h

theorem users_append : users (procs ++ [p]) a = users procs a + p.uses a := by
  simp [users, Threads.total]

theorem users_set (h : procs[i]? = some p) : users (procs.set i q) a = users procs a - p.uses a + q.uses a := by
  obtain ⟨rest, htotal, hset⟩ := Threads.total_set (fun p => p.uses a) h
  unfold users
  rw [htotal, hset q]
  omega

theorem users_fresh (h : s.Owned) (ha : a ∉ s.live) : users s.procs a = 0 := by
  apply Threads.total_eq_zero
  intro p hp
  unfold VfsProc.uses
  split
  next huse =>
    have := h.live p hp huse.1
    rw [huse.2] at this
    exact absurd this ha
  . rfl

theorem Owned.pos (h : s.Owned) (hp : p ∈ s.procs) (hput : p.put = false)
    : 0 < (s.files p.filesp).filesCount := by
  have := uses_le_users (a := p.filesp) hp
  rw [uses_self hput] at this
  rw [h.filesCount _ (h.live p hp hput)]
  omega

theorem Owned.congr (h : s.Owned) (howners : s.SameOwners t) : t.Owned := by
  constructor
  . rw [howners.procs, howners.live]
    exact h.live
  . intro a ha
    rw [howners.live] at ha
    rw [howners.filesCount, howners.procs, h.filesCount a ha]
  . rw [howners.procs]
    exact h.exited

/--
What a call does that keeps all counts.
-/
def KeepsCounts {α : Type} (env : VfsEnv) (s : Vfs) (o : Outcome Errno VfsPanic Vfs α) : Prop :=
  o.Sat (fun _ t => t.Consistent env)
    (fun _ t => t.Consistent env ∧ t.refCount = s.refCount ∧ t.openCount = s.openCount)
    (fun p => ¬p.OfCounts)

theorem Balances.keepsCounts {α : Type} {o : Outcome Errno VfsPanic Vfs α} (h : Balances env s o)
    (howned : s.Owned)
    : KeepsCounts env s o := by
  apply h.mono
  . intro _ t ht
    exact ⟨ht.counted, howned.congr ht.owners⟩
  . intro _ t ht
    exact ⟨⟨ht.counted, howned.congr ht.owners⟩, ht.refCount, ht.openCount⟩
  . exact fun _ => id

/--
The `files_struct` at `a` has `n` users.
-/
def counting (s : Vfs) (a : Nat) (n : Int) : Vfs :=
  { s with files := Function.update s.files a { s.files a with filesCount := n } }

@[simp]
theorem counting_files_self (n : Int)
    : (s.counting a n).files a = { s.files a with filesCount := n } := by
  simp [counting]

@[simp]
theorem counting_files_of_ne (n : Int) {b : Nat} (h : b ≠ a)
    : (s.counting a n).files b = s.files b := by
  simp [counting, h]

theorem Counted.counting (h : s.Counted env busy l) (ha : a ∈ s.live) (n : Int)
    : (s.counting a n).Counted env busy l := by
  apply h.change (d := 0) (c := 0) ha
  . rfl
  . exact fun b hb => counting_files_of_ne n hb
  . exact fun _ _ => rfl
  . simpa using h.tables a ha
  . simp
  . intro m
    rw [Pi.zero_apply, add_zero]
    apply Finset.sum_congr rfl
    intro b _
    by_cases hb : b = a
    . subst hb
      simp
    . simp [hb]
  . intro m
    simp [Vfs.counting]
  . intro m
    simp [Vfs.counting]

theorem filesCountInc_run
    : filesCountInc a s = .ok () (s.counting a ((s.files a).filesCount + 1)) := rfl

/--
The counts of the inodes do not depend on the processes.
-/
theorem Counted.withProcs (h : s.Counted env busy l) (procs : List VfsProc)
    : Counted env { s with procs } busy l :=
  ⟨h.tables, h.refCount, h.openCount⟩

/--
A new `files_struct` holds nothing.
-/
theorem filesCreate_run (h : s.Counted env 0 s.live) (ha : a ∉ s.live)
    : ∃ t, filesCreate a s = .ok () t ∧ t.Counted env 0 t.live ∧ t.live = insert a s.live ∧
      t.procs = s.procs ∧ (t.files a).filesCount = 0 ∧ (t.files a).pwd = none ∧
      (∀ x, ((t.files a).table.slots x).status = .fdNone) ∧ ∀ b, b ≠ a → t.files b = s.files b := by
  let new : FilesStruct :=
    { pwd := none, filesCount := 0, table := FileTable.fdArrayInit (s.files a).table.slots }
  let t : Vfs := { s with live := insert a s.live, files := Function.update s.files a new }
  have hfiles : ∀ b, b ≠ a → t.files b = s.files b := by
    intro b hb
    simp [t, hb]
  have hslots : ∀ n, t.slotRefs n = s.slotRefs n := by
    intro n
    have hnew : (t.files a).table.holds n = 0 := by
      simp [t, new, FileTable.holds, FileTable.fdArrayInit, File.holds]
    unfold slotRefs
    rw [Finset.sum_insert ha, hnew, zero_add]
    exact Finset.sum_congr rfl fun b hb => by rw [hfiles b (ne_of_mem_of_not_mem hb ha)]
  have hcwds : ∀ n, t.cwdRefs t.live n = s.cwdRefs s.live n := by
    intro n
    have hnew : optRef (t.files a).pwd n = 0 := by
      simp [t, new, optRef]
    unfold cwdRefs
    rw [Finset.sum_insert ha, hnew, zero_add]
    exact Finset.sum_congr rfl fun b hb => by rw [hfiles b (ne_of_mem_of_not_mem hb ha)]
  refine ⟨t, rfl, ?_, rfl, rfl, ?_, ?_, ?_, hfiles⟩
  . constructor
    . intro b hb
      by_cases hba : b = a
      . subst hba
        simp only [t, Function.update_self]
        intro x
        exact ⟨.none, rfl, rfl, rfl, rfl, rfl⟩
      . rw [hfiles b hba]
        exact h.tables b ((Finset.mem_insert.mp hb).resolve_left hba)
    . intro n
      rw [hslots n, hcwds n]
      exact h.refCount n
    . intro n
      rw [hslots n]
      exact h.openCount n
  . simp [t, new]
  . simp [t, new]
  . intro x
    simp [t, new, FileTable.fdArrayInit]

/--
What `dup_files` does with an open slot.
-/
theorem dupSlot_run {dst : Nat} {file : Fd} {src : File} {node : Nat} (h : s.Counted env 0 s.live)
    (hdst : dst ∈ s.live) (hnone : ((s.files dst).table.slots file).status = .fdNone)
    (hopened : src.status = .fdOpened) (hnode : src.node = some node)
    : ∃ t, (do
        onTable dst fun t =>
          some ((), (t.modify file fun f => { f with status := .fdInit }).record file .setInit)
        fdArrayDup dst file src : VfsProg Unit) s = .ok () t ∧ t.Counted env 0 t.live ∧
      s.SameOwners t ∧ (∀ b, b ≠ dst → t.files b = s.files b) ∧
      ∀ x, x ≠ file → (t.files dst).table.slots x = (s.files dst).table.slots x := by
  let u := ((s.files dst).table.modify file fun f => { f with status := .fdInit }).record file .setInit
  have hother : ∀ x, x ≠ file → u.slots x = (s.files dst).table.slots x := by
    intro x hx
    simp [u, hx]
  have hcounted : (s.setTable dst u).Counted env (Function.update 0 dst (Pi.single file {.opening}))
      s.live := by
    apply h.change (d := 0) (c := 0) hdst
    . rfl
    . exact fun b hb => setTable_files_of_ne u hb
    . intro b hb
      simp [hb]
    . rw [setTable_files_self, Function.update_self]
      have := (h.tables dst hdst).setInit hnone ((s.files dst).table.slots file).node
      rw [Pi.zero_apply, add_zero] at this
      exact this
    . intro n
      rw [setTable_files_self, FileTable.holds_change n hother,
        File.holds_of_ne (by simp [u]) (by simp [u]),
        File.holds_of_ne (by simp [hnone]) (by simp [hnone])]
      simp
    . intro n
      exact (setTable_cwdRefs u n).trans (add_zero _).symm
    . intro n
      simp [setTable]
    . intro n
      simp [setTable]
  obtain ⟨v, hdup, hslots, hcounted⟩ := hcounted.fdArrayDup_run 0 hdst
    (Function.update_self ..) rfl (fun b hb => (Function.update_of_ne hb ..).symm) src hopened
    hnode
  refine ⟨_, ?_, hcounted, ((setTable_owners u).trans (setTable_owners v)).trans opened_owners, ?_, ?_⟩
  . rw [Prog.bind_run_ok (onTable_run (x := ()) (u := u) rfl), hdup]
  . intro b hb
    simp [opened, hb]
  . intro x hx
    simp only [opened, setTable_files_self]
    rw [hslots x hx, setTable_files_self]
    exact hother x hx

theorem dupSlots_run {dst : Nat} (source : Nat) (fds : List Fd) (hnodup : fds.Nodup)
    (h : s.Counted env 0 s.live) (hdst : dst ∈ s.live) (hsource : source ∈ s.live)
    (hnone : ∀ x ∈ fds, ((s.files dst).table.slots x).status = .fdNone)
    : ∃ t, dupSlots dst source fds s = .ok () t ∧ t.Counted env 0 t.live ∧ s.SameOwners t := by
  induction fds generalizing s with
  | nil => exact ⟨s, rfl, h, SameOwners.refl s⟩
  | cons file fds ih =>
    have hdup : ∃ t, Prog.when (((s.files source).table.slots file).status = .fdOpened) (do
        onTable dst fun t =>
          some ((), (t.modify file fun f => { f with status := .fdInit }).record file .setInit)
        fdArrayDup dst file ((s.files source).table.slots file) : VfsProg Unit) s = .ok () t ∧
        t.Counted env 0 t.live ∧ s.SameOwners t ∧
        ∀ x, x ≠ file → (t.files dst).table.slots x = (s.files dst).table.slots x := by
      by_cases hopened : ((s.files source).table.slots file).status = .fdOpened
      . rw [Prog.when_pos hopened]
        obtain ⟨node, -, -, hnode, -⟩ := (h.tables source hsource file).of_opened hopened
        obtain ⟨t, hrun, hcounted, howners, -, hslots⟩ := dupSlot_run h hdst (hnone file (by simp))
          hopened hnode
        exact ⟨t, hrun, hcounted, howners, hslots⟩
      . rw [Prog.when_neg hopened]
        exact ⟨s, rfl, h, SameOwners.refl s, fun _ _ => rfl⟩
    obtain ⟨t, hrun, hcounted, howners, hslots⟩ := hdup
    obtain ⟨hfile, hnodup⟩ := List.nodup_cons.mp hnodup
    obtain ⟨u, hrest, hcounted, howners₁⟩ := ih hnodup hcounted (howners.live ▸ hdst)
      (howners.live ▸ hsource) fun x hx => by
        rw [hslots x (ne_of_mem_of_not_mem hx hfile)]
        exact hnone x (List.mem_cons_of_mem _ hx)
    refine ⟨u, ?_, hcounted, howners.trans howners₁⟩
    unfold dupSlots
    simp only [Prog.get_bind_run]
    rw [Prog.bind_run_ok hrun, hrest]

/--
The duplicate has a reference to the current directory and to the open files.
-/
theorem dupFiles_run {dst source : Nat} (h : s.Counted env 0 s.live) (hdst : dst ∈ s.live)
    (hsource : source ∈ s.live) (hnew : (s.files dst).filesCount = 0)
    (hused : 0 < (s.files source).filesCount) (hpwd : (s.files dst).pwd = none)
    (hnone : ∀ x, ((s.files dst).table.slots x).status = .fdNone)
    : ∃ t, dupFiles dst source s = .ok () t ∧ t.Counted env 0 t.live ∧ s.SameOwners t := by
  have hcwd : ∃ u, (do
      setCwd dst (s.files source).pwd
      Prog.forSome (s.files source).pwd inodeRefInc : VfsProg Unit) s = .ok () u ∧
      u.Counted env 0 u.live ∧ s.SameOwners u ∧ (u.files dst).table = (s.files dst).table := by
    cases hdir : (s.files source).pwd with
    | none =>
      have hsame : { s.files dst with pwd := none } = s.files dst := by
        rw [← hpwd]
      refine ⟨s, ?_, h, SameOwners.refl s, rfl⟩
      simp [setCwd, Prog.forSome, hsame]
    | some dir =>
      refine ⟨s.chdirTo dst dir, ?_, h.chdirTo hdst dir, chdirTo_owners, by simp [chdirTo]⟩
      simp [setCwd, Prog.forSome, chdirTo, Vfs.hold, hpwd, optRef_none]
  obtain ⟨u, hrun, hcounted, howners, htable⟩ := hcwd
  obtain ⟨t, hslots, hcounted, howners₁⟩ := dupSlots_run source
    (List.finRange filesStructNentry) (List.nodup_finRange _) hcounted (howners.live ▸ hdst)
    (howners.live ▸ hsource) fun x _ => by
      rw [htable]
      exact hnone x
  refine ⟨t, ?_, hcounted, howners.trans howners₁⟩
  unfold dupFiles
  simp only [Prog.get_bind_run]
  rw [Prog.assert_bind_run ⟨hnew, hused⟩]
  rw [← Prog.bind_assoc_run, Prog.bind_run_ok hrun, hslots]

/--
The `files_struct` at `a` has a user more than there are processes, the one that is made.
-/
structure Extra (env : VfsEnv) (s : Vfs) (a : Nat) (t : Vfs) : Prop where
  counted : t.Counted env 0 t.live
  procs : t.procs = s.procs
  live : s.live ⊆ t.live
  mem : a ∈ t.live
  filesCount : ∀ b ∈ t.live, (t.files b).filesCount = users s.procs b + if b = a then 1 else 0

theorem Extra.of_counting (ht : t.Counted env 0 t.live) (hprocs : t.procs = s.procs)
    (hlive : s.live ⊆ t.live) (ha : a ∈ t.live)
    (hcount : ∀ b ∈ t.live, (t.files b).filesCount = users s.procs b)
    : Extra env s a (t.counting a ((t.files a).filesCount + 1)) := by
  refine ⟨ht.counting ha _, hprocs, hlive, ha, ?_⟩
  intro b hb
  by_cases hba : b = a
  . subst hba
    simp [hcount b ha]
  . simp [hba, hcount b hb]

theorem copyFiles_sat (h : s.Consistent env) (hp : p ∈ s.procs) (hput : p.put = false)
    (cloneFs : Bool) (fresh : Option Nat) (hfresh : ∀ a, fresh = some a → a ∉ s.live)
    : (copyFiles cloneFs p.filesp fresh s).Sat (fun a t => Extra env s a t) (fun _ t => t = s)
      (fun p => ¬p.OfCounts) := by
  have hsource := h.owned.live p hp hput
  unfold copyFiles
  split
  . rw [Prog.bind_run_ok filesCountInc_run]
    exact Extra.of_counting h.counted rfl (Finset.Subset.refl _) hsource h.owned.filesCount
  . cases fresh with
    | none => rfl
    | some a =>
      have ha := hfresh a rfl
      obtain ⟨t, hcreate, hcounted, hlive, hprocs, hzero, hpwd, hnone, hfiles⟩ :=
        filesCreate_run h.counted ha
      have hsub : s.live ⊆ t.live := by
        rw [hlive]
        exact Finset.subset_insert a s.live
      have hmem : a ∈ t.live := by
        rw [hlive]
        exact Finset.mem_insert_self a s.live
      have hused : 0 < (t.files p.filesp).filesCount := by
        rw [hfiles _ (ne_of_mem_of_not_mem hsource ha)]
        exact h.owned.pos hp hput
      obtain ⟨u, hdup, hcounted, howners⟩ := dupFiles_run hcounted hmem (hsub hsource) hzero hused hpwd
        hnone
      simp only
      rw [Prog.bind_run_ok hcreate, Prog.bind_run_ok hdup, Prog.bind_run_ok filesCountInc_run]
      apply Extra.of_counting hcounted (howners.procs.trans hprocs)
      . rw [howners.live]
        exact hsub
      . rw [howners.live]
        exact hmem
      . intro b hb
        rw [howners.live, hlive] at hb
        rw [howners.filesCount]
        cases Finset.mem_insert.mp hb with
        | inl hba =>
          subst hba
          rw [hzero, users_fresh h.owned ha]
        | inr hb =>
          rw [hfiles b (ne_of_mem_of_not_mem hb ha)]
          exact h.owned.filesCount b hb

theorem doFork_keepsCounts (h : s.Consistent env) (hp : p ∈ s.procs) (hput : p.put = false)
    (cloneFs : Bool) (fresh : Option Nat) (hfresh : ∀ a, fresh = some a → a ∉ s.live)
    : KeepsCounts env s (doFork p cloneFs fresh s) := by
  unfold doFork
  apply Prog.sat_bind (copyFiles_sat h hp hput cloneFs fresh hfresh)
  . intro a t ht
    refine ⟨ht.counted.withProcs _, ?_, ?_, ?_⟩
    . intro q hq hqput
      simp only [ht.procs, List.mem_append, List.mem_singleton] at hq
      cases hq with
      | inl hq => exact ht.live (h.owned.live q hq hqput)
      | inr hq =>
        subst hq
        exact ht.mem
    . intro b hb
      simp only [ht.procs, users_append, ht.filesCount b hb, VfsProc.uses, true_and, eq_comm]
    . intro q hq hexited
      simp only [ht.procs, List.mem_append, List.mem_singleton] at hq
      cases hq with
      | inl hq => exact h.owned.exited q hq hexited
      | inr hq =>
        subst hq
        rfl
  . intro e t ht
    subst ht
    exact ⟨h, rfl, rfl⟩
  . exact fun _ => id

/--
A process that goes on with the same `files_struct` in the same use.
-/
theorem Owned.set (h : s.Owned) (hi : s.procs[i]? = some p) (hput : q.put = p.put)
    (hfilesp : q.filesp = p.filesp) (hexited : q.exited = false → q.put = false)
    : Owned { s with procs := s.procs.set i q } := by
  have hp := List.mem_of_getElem? hi
  constructor
  . intro r hr hrput
    cases List.mem_or_eq_of_mem_set hr with
    | inl hr => exact h.live r hr hrput
    | inr hr =>
      subst hr
      rw [hfilesp]
      exact h.live p hp (hput.symm.trans hrput)
  . intro a ha
    have huses : q.uses a = p.uses a := by
      simp only [VfsProc.uses, hput, hfilesp]
    simp only [users_set hi, huses, h.filesCount a ha]
    omega
  . intro r hr hrexited
    cases List.mem_or_eq_of_mem_set hr with
    | inl hr => exact h.exited r hr hrexited
    | inr hr =>
      subst hr
      exact hexited hrexited

/--
A process that puts its files, the last one destroys them.
-/
theorem putFiles_run (h : s.Consistent env) (hi : s.procs[i]? = some p) (hput : p.put = false)
    (hq : q.put = true) (hqexited : q.exited = true)
    : ∃ t, putFiles env p.filesp s = .ok () t ∧ t.procs = s.procs ∧
      Consistent env { t with procs := s.procs.set i q } ∧
      (t.live = s.live ∧ (s.files p.filesp).filesCount - 1 ≠ 0 ∨
        t.live = s.live.erase p.filesp ∧ (s.files p.filesp).filesCount - 1 = 0 ∧
          ∀ x, ((t.files p.filesp).table.slots x).status = .fdNone) := by
  have hp := List.mem_of_getElem? hi
  have hmem := h.owned.live p hp hput
  have hcount := h.owned.filesCount p.filesp hmem
  let u := s.counting p.filesp ((s.files p.filesp).filesCount - 1)
  have hcounted : u.Counted env 0 u.live := h.counted.counting hmem _
  have husers : ∀ a, users (s.procs.set i q) a = users s.procs a - if a = p.filesp then 1 else 0 := by
    intro a
    rw [users_set hi, uses_of_put hq, add_zero]
    simp only [VfsProc.uses, hput, true_and, eq_comm]
  have hfiles : ∀ a ∈ s.live, (u.files a).filesCount = users (s.procs.set i q) a := by
    intro a ha
    rw [husers]
    by_cases hap : a = p.filesp
    . subst hap
      simp [u, hcount]
    . simp [u, hap, h.owned.filesCount a ha]
  have hlive : ∀ r ∈ s.procs.set i q, r.put = false → r.filesp ∈ s.live := by
    intro r hr hrput
    cases List.mem_or_eq_of_mem_set hr with
    | inl hr => exact h.owned.live r hr hrput
    | inr hr =>
      subst hr
      rw [hq] at hrput
      contradiction
  have hexited : ∀ r ∈ s.procs.set i q, r.exited = false → r.put = false := by
    intro r hr hrexited
    cases List.mem_or_eq_of_mem_set hr with
    | inl hr => exact h.owned.exited r hr hrexited
    | inr hr =>
      subst hr
      rw [hqexited] at hrexited
      contradiction
  by_cases hlast : (s.files p.filesp).filesCount - 1 = 0
  . obtain ⟨t, hdestroy, hcounted, htlive, hprocs, htfiles, hclosed⟩ := filesDestroy_run hcounted hmem rfl
      (by simpa [u] using hlast)
    refine ⟨t, ?_, hprocs, ⟨hcounted.withProcs _, ?_, ?_, hexited⟩, .inr ⟨htlive, hlast, hclosed⟩⟩
    . unfold putFiles
      simp only [Prog.get_bind_run]
      rw [Prog.when_pos hlast]
      exact hdestroy
    . intro r hr hrput
      rw [htlive]
      apply Finset.mem_erase_of_ne_of_mem _ (hlive r hr hrput)
      -- Nobody else has been using it.
      intro heq
      have := uses_le_users (a := r.filesp) hr
      rw [uses_self hrput, heq, ← hfiles _ hmem] at this
      simp [u] at this
      omega
    . intro a ha
      rw [htlive] at ha
      rw [htfiles]
      exact hfiles a (Finset.mem_of_mem_erase ha)
  . refine ⟨u, ?_, rfl, ⟨hcounted.withProcs _, hlive, hfiles, hexited⟩, .inl ⟨rfl, hlast⟩⟩
    unfold putFiles
    simp only [Prog.get_bind_run]
    rw [Prog.when_neg hlast]
    rfl

theorem doExit_keepsCounts (h : s.Consistent env) (hi : s.procs[i]? = some p) (hput : p.put = false)
    : KeepsCounts env s (doExit env i p s) := by
  unfold doExit
  split
  . exact id
  . cases hmm : p.mm with
    | true =>
      obtain ⟨t, hrun, hprocs, hconsistent, -⟩ := putFiles_run
        (q := { p with mm := false, exited := true, put := true }) h hi hput rfl rfl
      rw [Prog.when_pos rfl, Prog.bind_run_ok hrun]
      simp only [Prog.modify_run, hprocs]
      exact hconsistent
    | false =>
      rw [Prog.when_neg (by decide)]
      exact ⟨h.counted.withProcs _, h.owned.set hi hput.symm rfl fun _ => rfl⟩

theorem doExecve_keepsCounts (h : s.Consistent env) (hi : s.procs[i]? = some p) (hput : p.put = false)
    : KeepsCounts env s (doExecve env i p s) := by
  have hp := List.mem_of_getElem? hi
  obtain ⟨t, hclose, hcounted, howners⟩ := closeSlots_run ((List.finRange filesStructNentry).drop 2)
    h.counted (h.owned.live p hp hput) rfl
  have howned := h.owned.congr howners
  unfold doExecve filesCloseall
  simp only [Prog.bind_assoc_run, Prog.get_bind_run]
  rw [Prog.assert_bind_run (h.owned.pos hp hput), Prog.bind_run_ok hclose]
  rw [← howners.live] at hcounted
  rw [← howners.procs] at hi
  exact ⟨hcounted.withProcs _, howned.set hi rfl rfl fun _ => hput⟩

end Vfs
end Ucore

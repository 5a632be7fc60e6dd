import Ucore.Kern.Fs.VfsSys

/-!
This module contains the processes that fork, exec, exit and wait (kern/process/proc.c) with the
`files_struct`s they share: when the counts of these are right and when one is destroyed.
-/

namespace Ucore

/--
A call of a process. In `doExecve` `args` says whether the arguments are in order and `load` whether
`load_icode` succeeds, `child` has exited.
-/
inductive FilesCall where
  | doFork (cloneFs : Bool) (fresh : Option Nat)
  | doExecve (args : Bool) (path : List Char) (ans : VfsAnswer) (load : Bool)
  | doExit
  | doWait (child : Nat)

structure ProcFiles where
  vfs : Vfs
  reaped : Finset Nat

namespace ProcFiles

/--
`initproc` is the first process, `idleproc` the second one.
-/
def idleproc : Nat := 1

/--
`initproc` at its first call. `slots` is what has been left in the memory.
-/
def start (env : VfsEnv) (slots : Nat → Fd → File) : ProcFiles where
  vfs :=
    { refCount := Vfs.devRefs env
      openCount := 0
      bootfsNode := none
      live := {0, 1}
      files := fun a => { pwd := none, filesCount := 1, table := FileTable.fdArrayInit (slots a) }
      procs :=
        [{ filesp := 0, mm := false, exited := false, put := false },
          { filesp := 1, mm := false, exited := false, put := false }] }
  reaped := ∅

def openProgram (env : VfsEnv) (p : VfsProc) (path : List Char) (ans : VfsAnswer) : VfsProg Int := do
  Vfs.filesCloseall env p.filesp
  Vfs.fileOpen env p.filesp path 0 ans

/--
A program that cannot be opened ends the process with its old `mm`, one that cannot be loaded ends it
without any.
-/
def doExecve (env : VfsEnv) (i : Nat) (p : VfsProc) (args : Bool) (path : List Char) (ans : VfsAnswer)
    (load : Bool) : VfsProg Unit := do
  if args then
    match ← Prog.attempt (openProgram env p path ans) with
    | .error _ => Vfs.doExit env i p
    | .ok _ =>
      if load then
        Prog.modify fun s => { s with procs := s.procs.set i { p with mm := true } }
      else
        Vfs.doExit env i { p with mm := false }
  else
    Prog.throw .inval

def call (env : VfsEnv) (i : Nat) (p : VfsProc) : FilesCall → VfsProg Unit
  | .doFork cloneFs fresh => Vfs.doFork p cloneFs fresh
  | .doExecve args path ans load => doExecve env i p args path ans load
  | .doExit => Vfs.doExit env i p
  | .doWait _ => pure ()

/--
`kmalloc` hands out no address that is in use, and `do_wait` finds a process that has exited and has not
been waited for.
-/
def Possible (s : ProcFiles) : FilesCall → Prop
  | .doFork _ (some a) => a ∉ s.vfs.live
  | .doWait child => (∃ p ∈ s.vfs.procs[child]?, p.exited = true) ∧ child ∉ s.reaped
  | _ => True

instance (s : ProcFiles) : (c : FilesCall) → Decidable (s.Possible c)
  | .doFork _ (some a) => inferInstanceAs (Decidable (a ∉ s.vfs.live))
  | .doFork _ none => isTrue trivial
  | .doExecve .. => isTrue trivial
  | .doExit => isTrue trivial
  | .doWait child =>
    inferInstanceAs (Decidable ((∃ p ∈ s.vfs.procs[child]?, p.exited = true) ∧ child ∉ s.reaped))

def reap (s : ProcFiles) : FilesCall → Finset Nat
  | .doWait child => insert child s.reaped
  | _ => s.reaped

/--
A process that is alive makes a call. `idleproc` makes none.
-/
def step (env : VfsEnv) (s : ProcFiles) (i : Nat × FilesCall) : Option ProcFiles :=
  match s.vfs.procs[i.1]? with
  | some p =>
    if i.1 ≠ idleproc ∧ p.exited = false ∧ s.Possible i.2 then
      (call env i.1 p i.2 s.vfs).state.map fun vfs => { vfs, reaped := s.reap i.2 }
    else
      none
  | none => none

/--
If the call comes to `do_exit`, the process still has an `mm` there.
-/
def ExitsWithMm (env : VfsEnv) (s : Vfs) (p : VfsProc) : FilesCall → Prop
  | .doExit => p.mm = true
  | .doExecve args path ans load =>
    args = true → if (openProgram env p path ans s).isOk = true then load = true else p.mm = true
  | _ => True

instance (env : VfsEnv) (s : Vfs) (p : VfsProc) : (c : FilesCall) → Decidable (ExitsWithMm env s p c)
  | .doExit => inferInstanceAs (Decidable (p.mm = true))
  | .doExecve _ path ans _ =>
    if h : (openProgram env p path ans s).isOk = true then
      decidable_of_iff (_ → _) (by rw [ExitsWithMm, if_pos h])
    else
      decidable_of_iff (_ → _) (by rw [ExitsWithMm, if_neg h])
  | .doFork .. => isTrue trivial
  | .doWait _ => isTrue trivial

def Keeps (env : VfsEnv) (s : ProcFiles) (i : Nat × FilesCall) : Prop :=
  ∀ p ∈ s.vfs.procs[i.1]?, ExitsWithMm env s.vfs p i.2

instance (env : VfsEnv) (s : ProcFiles) (i : Nat × FilesCall) : Decidable (s.Keeps env i) :=
  inferInstanceAs (Decidable (∀ p ∈ s.vfs.procs[i.1]?, _))

end ProcFiles

namespace Vfs

/--
The number of processes alive whose `filesp` is `a`.
-/
def holders (s : Vfs) (a : Nat) : Nat := s.procs.countP fun p => !p.exited && p.filesp = a

/--
Everything in the table of `a` is closed.
-/
def AllClosed (s : Vfs) (a : Nat) : Prop := ∀ x, ((s.files a).table.slots x).status = .fdNone

/--
A process uses its `files_struct` until it exits, and every `files_struct` is used.
-/
structure Held (env : VfsEnv) (s : Vfs) : Prop where
  consistent : s.Consistent env
  put : ∀ p ∈ s.procs, p.exited = true → p.put = true
  used : ∀ a ∈ s.live, 0 < users s.procs a

/--
What a call does that keeps this and closes what it destroys.
-/
def Releases (env : VfsEnv) (s t : Vfs) : Prop :=
  t.Held env ∧ ∀ a ∈ s.live, a ∉ t.live → t.AllClosed a

variable {env : VfsEnv} {s t u : Vfs} {p q : VfsProc} {i a : Nat} {ans : VfsAnswer}

theorem Held.releases (h : t.Held env) (hlive : s.live ⊆ t.live) : Releases env s t :=
  ⟨h, fun _ ha hnot => absurd (hlive ha) hnot⟩

theorem Held.balanced (h : s.Held env) (hbalanced : Balanced env s t) : t.Held env := by
  have howners := hbalanced.owners
  constructor
  . exact ⟨hbalanced.counted, h.consistent.owned.congr howners⟩
  . rw [howners.procs]
    exact h.put
  . rw [howners.live, howners.procs]
    exact h.used

theorem users_eq_holders (h : s.Held env) (a : Nat) : users s.procs a = s.holders a := by
  have hput : ∀ p ∈ s.procs, p.put = p.exited := by
    intro p hp
    cases hexited : p.exited with
    | true => exact h.put p hp hexited
    | false => exact h.consistent.owned.exited p hp hexited
  have hcount : ∀ procs : List VfsProc, (∀ p ∈ procs, p.put = p.exited) →
      users procs a = (procs.countP fun p => !p.exited && p.filesp = a : Nat) := by
    intro procs hprocs
    induction procs with
    | nil => rfl
    | cons p procs ih =>
      have hrest := ih fun q hq => hprocs q (List.mem_cons_of_mem p hq)
      have hp := hprocs p List.mem_cons_self
      simp only [users, Threads.total, List.map_cons, List.sum_cons] at hrest ⊢
      rw [hrest, List.countP_cons, VfsProc.uses, hp]
      cases p.exited <;> by_cases ha : p.filesp = a <;> simp [ha, add_comm]
  exact hcount s.procs hput

theorem Held.filesCount (h : s.Held env) (ha : a ∈ s.live) : (s.files a).filesCount = s.holders a := by
  rw [h.consistent.owned.filesCount a ha, users_eq_holders h]

theorem Held.mem_live_iff (h : s.Held env) : a ∈ s.live ↔ 0 < s.holders a := by
  have hholders := users_eq_holders h a
  constructor
  . intro ha
    have := h.used a ha
    omega
  . intro hpos
    by_contra ha
    have := users_fresh h.consistent.owned ha
    omega

/--
A process that goes on with another `mm`.
-/
theorem Held.setMm (h : s.Held env) (hi : s.procs[i]? = some p) (mm : Bool)
    : Held env { s with procs := s.procs.set i { p with mm } } := by
  have hp := List.mem_of_getElem? hi
  constructor
  . exact ⟨h.consistent.counted.withProcs _,
      h.consistent.owned.set hi rfl rfl fun hexited => h.consistent.owned.exited p hp hexited⟩
  . intro q hq hexited
    cases List.mem_or_eq_of_mem_set hq with
    | inl hq => exact h.put q hq hexited
    | inr hq =>
      subst hq
      exact h.put p hp hexited
  . intro a ha
    have huses : ({ p with mm } : VfsProc).uses a = p.uses a := rfl
    show 0 < users (s.procs.set i { p with mm }) a
    rw [users_set hi, huses]
    have := h.used a ha
    omega

/--
A process with an `mm` exits.
-/
theorem Held.doExit (h : s.Held env) (hi : s.procs[i]? = some p) (hexited : p.exited = false)
    (hmm : p.mm = true)
    : (Vfs.doExit env i p s).Sat (fun _ t => Releases env s t) (fun _ _ => False)
      (fun _ => True) := by
  have hp := List.mem_of_getElem? hi
  have hput := h.consistent.owned.exited p hp hexited
  unfold Vfs.doExit
  split
  . exact trivial
  . obtain ⟨t, hrun, hprocs, hconsistent, hlive⟩ := putFiles_run
      (q := { p with mm := false, exited := true, put := true }) h.consistent hi hput rfl rfl
    rw [hmm, Prog.when_pos rfl, Prog.bind_run_ok hrun]
    simp only [Prog.modify_run, hprocs]
    have husers : ∀ a, users (s.procs.set i { p with mm := false, exited := true, put := true }) a =
        users s.procs a - if p.filesp = a then 1 else 0 := by
      intro a
      rw [users_set hi]
      simp [VfsProc.uses, hput]
    have hcount := h.consistent.owned.filesCount p.filesp (h.consistent.owned.live p hp hput)
    refine ⟨⟨hconsistent, ?_, ?_⟩, ?_⟩
    . intro q hq hqexited
      cases List.mem_or_eq_of_mem_set hq with
      | inl hq => exact h.put q hq hqexited
      | inr hq =>
        subst hq
        rfl
    . intro a ha
      show 0 < users (s.procs.set i _) a
      rw [husers]
      have ha' : a ∈ t.live := ha
      rcases hlive with ⟨hsame, hothers⟩ | ⟨herased, -, -⟩
      . rw [hsame] at ha'
        have := h.used a ha'
        split
        next heq =>
          subst heq
          omega
        next => omega
      . rw [herased, Finset.mem_erase] at ha'
        rw [if_neg (Ne.symm ha'.1), sub_zero]
        exact h.used a ha'.2
    . intro a ha hnot
      have hnot' : a ∉ t.live := hnot
      rcases hlive with ⟨hsame, -⟩ | ⟨herased, -, hclosed⟩
      . rw [hsame] at hnot'
        exact absurd ha hnot'
      . have haf : a = p.filesp := by
          by_contra hne
          apply hnot'
          rw [herased, Finset.mem_erase]
          exact ⟨hne, ha⟩
        subst haf
        exact hclosed

/--
There is at most one new `files_struct`.
-/
theorem copyFiles_live (h : s.Consistent env) (hp : p ∈ s.procs) (hput : p.put = false)
    (cloneFs : Bool) (fresh : Option Nat) (hfresh : ∀ a, fresh = some a → a ∉ s.live)
    : (copyFiles cloneFs p.filesp fresh s).Sat (fun a t => ∀ b ∈ t.live, b ∈ s.live ∨ b = a)
      (fun _ _ => True) (fun _ => True) := by
  have hsource := h.owned.live p hp hput
  unfold copyFiles
  split
  . rw [Prog.bind_run_ok filesCountInc_run]
    exact fun b hb => .inl hb
  . cases fresh with
    | none => exact trivial
    | some a =>
      have ha := hfresh a rfl
      obtain ⟨t, hcreate, hcounted, hlive, -, hzero, hpwd, hnone, hfiles⟩ := filesCreate_run h.counted ha
      have hmem : a ∈ t.live := by
        rw [hlive]
        exact Finset.mem_insert_self a s.live
      have hsource' : p.filesp ∈ t.live := by
        rw [hlive]
        exact Finset.mem_insert_of_mem hsource
      have hused : 0 < (t.files p.filesp).filesCount := by
        rw [hfiles _ (ne_of_mem_of_not_mem hsource ha)]
        exact h.owned.pos hp hput
      obtain ⟨u, hdup, -, howners⟩ := dupFiles_run hcounted hmem hsource' hzero hused hpwd hnone
      simp only
      rw [Prog.bind_run_ok hcreate, Prog.bind_run_ok hdup, Prog.bind_run_ok filesCountInc_run]
      intro b hb
      have hb' : b ∈ u.live := hb
      rw [howners.live, hlive] at hb'
      exact (Finset.mem_insert.mp hb').symm

end Vfs

namespace ProcFiles

open Vfs

variable {env : VfsEnv} {s t : Vfs} {p : VfsProc} {i a : Nat} {ans : VfsAnswer} {path : List Char}

theorem openProgram_balanced (h : s.Held env) (hp : p ∈ s.procs) (hput : p.put = false)
    : (openProgram env p path ans s).Sat (fun _ t => Balanced env s t) (fun _ t => Balanced env s t)
      (fun _ => True) := by
  have hmem := h.consistent.owned.live p hp hput
  obtain ⟨t, hclose, hcounted, howners⟩ := closeSlots_run ((List.finRange filesStructNentry).drop 2)
    h.consistent.counted hmem rfl
  have hcloseall : filesCloseall env p.filesp s = .ok () t := by
    unfold filesCloseall
    simp only [Prog.get_bind_run]
    rw [Prog.assert_bind_run (h.consistent.owned.pos hp hput), hclose]
  unfold openProgram
  rw [Prog.bind_run_ok hcloseall]
  have hcounted' : t.Counted env 0 t.live := howners.live ▸ hcounted
  -- the program is opened without O_EXCL
  have hopen : (fileOpen env p.filesp path 0 ans t).Sat _ _ _ := fileOpen_balances hcounted'
    (howners.live ▸ hmem) fun file u _ hleak => hleak.1 (by decide)
  apply hopen.mono
  . intro _ u hu
    exact ⟨hu.counted, howners.trans hu.owners⟩
  . intro _ u hu
    exact ⟨hu.counted, howners.trans hu.owners⟩
  . exact fun _ _ => trivial

theorem doFork_releases (h : s.Held env) (hp : p ∈ s.procs) (hexited : p.exited = false)
    (cloneFs : Bool) (fresh : Option Nat) (hfresh : ∀ a, fresh = some a → a ∉ s.live)
    : (Vfs.doFork p cloneFs fresh s).Sat (fun _ t => Releases env s t) (fun _ t => Releases env s t)
      (fun _ => True) := by
  have hput := h.consistent.owned.exited p hp hexited
  have hcounts := doFork_keepsCounts h.consistent hp hput cloneFs fresh hfresh
  have hcopy := copyFiles_sat h.consistent hp hput cloneFs fresh hfresh
  have hnew := copyFiles_live h.consistent hp hput cloneFs fresh hfresh
  unfold Vfs.doFork at hcounts ⊢
  cases hrun : copyFiles cloneFs p.filesp fresh s with
  | ok a t =>
    rw [hrun] at hcopy hnew
    rw [Prog.bind_run_ok hrun] at hcounts ⊢
    apply Held.releases
    . constructor
      . exact hcounts
      . intro q hq hqexited
        simp only [hcopy.procs, List.mem_append, List.mem_singleton] at hq
        cases hq with
        | inl hq => exact h.put q hq hqexited
        | inr hq =>
          subst hq
          contradiction
      . intro b hb
        have hb' : b ∈ t.live := hb
        have hle : users s.procs b ≤ users (t.procs ++ [⟨a, p.mm, false, false⟩]) b := by
          rw [hcopy.procs, users_append]
          unfold VfsProc.uses
          split <;> omega
        show 0 < users (t.procs ++ [⟨a, p.mm, false, false⟩]) b
        cases hnew b hb' with
        | inl hold =>
          have := h.used b hold
          omega
        | inr heq =>
          subst heq
          have hself : (⟨b, p.mm, false, false⟩ : VfsProc).uses b = 1 := uses_self rfl
          have hle := uses_le_users (a := b)
            (List.mem_append_right t.procs (List.mem_singleton_self (⟨b, p.mm, false, false⟩ : VfsProc)))
          omega
    . exact hcopy.live
  | error e t =>
    rw [hrun] at hcopy
    rw [Prog.bind_run_error hrun]
    subst hcopy
    exact h.releases (Finset.Subset.refl _)
  | panic q =>
    rw [Prog.bind_run_panic hrun]
    exact trivial

/--
The exit of a process that `s` has become alive with.
-/
theorem doExit_releases (h : t.Held env) (hbalanced : Balanced env s t) (hi : s.procs[i]? = some p)
    (hexited : p.exited = false) (hmm : p.mm = true)
    : (Vfs.doExit env i p t).Sat (fun _ u => Releases env s u) (fun _ u => Releases env s u)
      (fun _ => True) := by
  rw [← hbalanced.owners.procs] at hi
  apply (h.doExit hi hexited hmm).mono
  . intro _ u hu
    refine ⟨hu.1, ?_⟩
    rw [← hbalanced.owners.live]
    exact hu.2
  . exact fun _ _ => False.elim
  . exact fun _ _ => trivial

theorem doExecve_releases (h : s.Held env) (hi : s.procs[i]? = some p) (hexited : p.exited = false)
    {args load : Bool} (hkeeps : ExitsWithMm env s p (.doExecve args path ans load))
    : (doExecve env i p args path ans load s).Sat (fun _ t => Releases env s t)
      (fun _ t => Releases env s t) (fun _ => True) := by
  have hp := List.mem_of_getElem? hi
  have hopen : (openProgram env p path ans s).Sat _ _ _ :=
    openProgram_balanced h hp (h.consistent.owned.exited p hp hexited)
  cases args with
  | false => exact h.releases (Finset.Subset.refl _)
  | true =>
    have hkeeps := hkeeps rfl
    simp only [doExecve, if_true]
    cases hrun : openProgram env p path ans s with
    | ok fd t =>
      rw [hrun] at hopen hkeeps
      have hload : load = true := hkeeps
      rw [Prog.bind_run_ok (Prog.attempt_ok hrun), hload]
      have hi' : t.procs[i]? = some p := by
        rw [hopen.owners.procs]
        exact hi
      apply Held.releases
      . exact (h.balanced hopen).setMm hi' true
      . show s.live ⊆ t.live
        rw [hopen.owners.live]
    | error e t =>
      rw [hrun] at hopen hkeeps
      have hmm : p.mm = true := hkeeps
      rw [Prog.bind_run_ok (Prog.attempt_error hrun)]
      exact doExit_releases (h.balanced hopen) hopen hi hexited hmm
    | panic q =>
      rw [Prog.bind_run_panic (Prog.attempt_panic hrun)]
      exact trivial

theorem call_releases {s : ProcFiles} (h : s.vfs.Held env) (hi : s.vfs.procs[i]? = some p)
    (hexited : p.exited = false) {c : FilesCall} (hpossible : s.Possible c)
    (hkeeps : ExitsWithMm env s.vfs p c)
    : (call env i p c s.vfs).Sat (fun _ t => Releases env s.vfs t) (fun _ t => Releases env s.vfs t)
      (fun _ => True) := by
  have hp := List.mem_of_getElem? hi
  cases c with
  | doFork cloneFs fresh =>
    apply doFork_releases h hp hexited
    intro a ha
    subst ha
    exact hpossible
  | doExecve args path ans load => exact doExecve_releases h hi hexited hkeeps
  | doExit =>
    have hself : Balanced env s.vfs s.vfs := ⟨h.consistent.counted, SameOwners.refl _⟩
    exact doExit_releases h hself hi hexited hkeeps
  | doWait child => exact h.releases (Finset.Subset.refl _)

/--
A step in which nobody exits without an `mm`.
-/
theorem step_releases {s t : ProcFiles} {i : Nat × FilesCall} (h : s.vfs.Held env)
    (hkeeps : s.Keeps env i) (hstep : step env s i = some t)
    : Releases env s.vfs t.vfs := by
  unfold step at hstep
  split at hstep
  next p hi =>
    split at hstep
    next hcond =>
      have hcall := call_releases h hi hcond.2.1 hcond.2.2 (hkeeps p hi)
      obtain ⟨vfs, hstate, rfl⟩ := Option.map_eq_some_iff.mp hstep
      cases hrun : call env i.1 p i.2 s.vfs with
      | ok a u =>
        rw [hrun] at hcall hstate
        rw [Outcome.state, Option.some_inj] at hstate
        exact hstate ▸ hcall
      | error e u =>
        rw [hrun] at hcall hstate
        rw [Outcome.state, Option.some_inj] at hstate
        exact hstate ▸ hcall
      | panic q =>
        rw [hrun] at hstate
        contradiction
    next => contradiction
  next => contradiction

theorem start_held (slots : Nat → Fd → File) : (start env slots).vfs.Held env := by
  have hholds : ∀ n, (start env slots).vfs.slotRefs n = 0 := by
    intro n
    simp [slotRefs, start, FileTable.holds, FileTable.fdArrayInit, File.holds]
  have huses : ∀ a ∈ (start env slots).vfs.live, users (start env slots).vfs.procs a = 1 := by
    intro a ha
    simp only [start, Finset.mem_insert, Finset.mem_singleton] at ha
    rcases ha with rfl | rfl <;> rfl
  refine ⟨⟨⟨?_, ?_, ?_⟩, ?_, ?_, ?_⟩, ?_, ?_⟩
  . intro a _ x
    exact ⟨.none, rfl, rfl, rfl, rfl, rfl⟩
  . intro n
    rw [hholds]
    simp [start, cwdRefs, optRef]
  . intro n
    rw [hholds]
    rfl
  . intro p hp _
    simp only [start, List.mem_cons, List.not_mem_nil, or_false] at hp
    rcases hp with rfl | rfl <;> simp [start]
  . intro a ha
    rw [huses a ha]
    rfl
  . intro p hp _
    simp only [start, List.mem_cons, List.not_mem_nil, or_false] at hp
    rcases hp with rfl | rfl <;> rfl
  . intro p hp hexited
    simp only [start, List.mem_cons, List.not_mem_nil, or_false] at hp
    rcases hp with rfl | rfl <;> contradiction
  . intro a ha
    rw [huses a ha]
    decide

/--
The count of a `files_struct` is the number of processes alive that point to it, it exists as long as
there are any, and when it is destroyed everything in it is closed.
-/
structure Released (env : VfsEnv) (s : ProcFiles) : Prop where
  filesCount : ∀ a ∈ s.vfs.live, (s.vfs.files a).filesCount = s.vfs.holders a
  live : ∀ a, a ∈ s.vfs.live ↔ 0 < s.vfs.holders a
  uses : ∀ p ∈ s.vfs.procs, p.exited = false → p.filesp ∈ s.vfs.live
  destroyed : ∀ i t, s.Keeps env i → step env s i = some t → ∀ a ∈ s.vfs.live,
    (a ∉ t.vfs.live ↔ t.vfs.holders a = 0) ∧ (a ∉ t.vfs.live → t.vfs.AllClosed a)

end ProcFiles

/--
In every run in which no process exits without an `mm` the open files are released.
-/
theorem open_files_released (env : VfsEnv) (slots : Nat → Fd → File) (calls : List (Nat × FilesCall))
    (s : ProcFiles)
    (hadmits : Run.Admits (ProcFiles.step env) (ProcFiles.Keeps env) (ProcFiles.start env slots) calls)
    (hexec : Run.exec (ProcFiles.step env) (ProcFiles.start env slots) calls = some s)
    : s.Released env := by
  have h : s.vfs.Held env :=
    Run.exec_invariant_of_admits (I := fun s => s.vfs.Held env)
      (fun s i t h hkeeps hstep => (ProcFiles.step_releases h hkeeps hstep).1)
      (ProcFiles.start_held slots) hadmits hexec
  constructor
  . exact fun a ha => h.filesCount ha
  . exact fun a => h.mem_live_iff
  . intro p hp hexited
    exact h.consistent.owned.live p hp (h.consistent.owned.exited p hp hexited)
  . intro i t hkeeps hstep a ha
    obtain ⟨ht, hclosed⟩ := ProcFiles.step_releases h hkeeps hstep
    refine ⟨?_, hclosed a ha⟩
    rw [ht.mem_live_iff]
    omega

/--
The path of a program on disk0.
-/
def FilesCall.disk0 : List Char := ['d', 'i', 's', 'k', '0', ':', 'x']

/--
user_main is made, starts a program and forks twice, the children exit and are waited for.
-/
def FilesCall.userMain : List (Nat × FilesCall) :=
  [(0, .doFork false (some 2)), (2, .doExecve true FilesCall.disk0 (.finds 7) true),
    (2, .doFork true none), (2, .doFork false (some 3)), (4, .doExecve true FilesCall.disk0 .misses true),
    (3, .doExit), (2, .doWait 3), (2, .doExecve false FilesCall.disk0 (.finds 7) true)]

theorem open_files_released_userMain
    : ∃ s, Run.exec (ProcFiles.step .disk0) (ProcFiles.start .disk0 fun _ _ => .zero)
        FilesCall.userMain = some s ∧ s.Released .disk0 := by
  have hsome : (Run.exec (ProcFiles.step .disk0) (ProcFiles.start .disk0 fun _ _ => .zero)
      FilesCall.userMain).isSome = true := by decide +kernel
  obtain ⟨s, hexec⟩ := Option.isSome_iff_exists.mp hsome
  exact ⟨s, hexec, open_files_released .disk0 (fun _ _ => .zero) FilesCall.userMain s (by decide +kernel)
    hexec⟩

/--
A program that opens and cannot be loaded leaves its `files_struct` behind.
-/
theorem open_files_released_badImage
    : ∃ s, Run.exec (ProcFiles.step .disk0) (ProcFiles.start .disk0 fun _ _ => .zero)
        [(0, .doFork false (some 2)), (2, .doExecve true FilesCall.disk0 (.finds 7) true),
          (2, .doFork false (some 3)), (3, .doExecve true FilesCall.disk0 (.finds 8) false)] = some s ∧
      3 ∈ s.vfs.live ∧ (s.vfs.files 3).filesCount = 1 ∧ s.vfs.holders 3 = 0 := by
  have hrun : ∃ s ∈ Run.exec (ProcFiles.step .disk0) (ProcFiles.start .disk0 fun _ _ => .zero)
      [(0, .doFork false (some 2)), (2, .doExecve true FilesCall.disk0 (.finds 7) true),
        (2, .doFork false (some 3)), (3, .doExecve true FilesCall.disk0 (.finds 8) false)],
      3 ∈ s.vfs.live ∧ (s.vfs.files 3).filesCount = 1 ∧ s.vfs.holders 3 = 0 := by
    decide +kernel
  exact hrun

end Ucore

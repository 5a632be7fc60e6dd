import Ucore.Kern.Process.Proc.Lemmas.Family

/-!
This module contains what `do_fork` does to the process table and that it keeps the invariants.
-/

namespace Ucore

open Siblings

namespace ProcTable

/--
The table behind a `do_fork` that succeeds with the new process `proc`.
-/
def forked (s : ProcTable) (proc : Nat) (pid nextSafe : Int) : ProcTable :=
  { s with
    procs := fun x =>
      if x = proc then
        { state := .runnable
          pid
          parent := some s.current
          flags := 0
          exitCode := (s.procs proc).exitCode
          waitState := 0
          cptr := none
          yptr := none
          optr := s.links.first s.current }
      else
        { s.procs x with
          cptr := if x = s.current then some proc else (s.procs x).cptr
          yptr := if s.links.first s.current = some x then some proc else (s.procs x).yptr }
    allocated := Function.update s.allocated proc true
    procList := proc :: s.procList
    hashList := Function.update s.hashList (pidHashfn pid) (proc :: s.hashList (pidHashfn pid))
    nrProcess := s.nrProcess + 1
    lastPid := pid
    nextSafe }

/--
The table in front of the calls in `do_fork` that can fail.
-/
def prepared (s : ProcTable) (proc : Nat) : ProcTable :=
  (s.allocProc proc).setParent proc (some s.current)

variable {s : ProcTable} {kids : Nat → List Nat} {proc : Nat} {pid nextSafe : Int} {ans : ForkAnswers}

theorem prepared_eq
    : s.prepared proc =
        { s.modify proc (fun p =>
            { p with
              state := .uninit, pid := -1, parent := some s.current, flags := 0, waitState := 0
              cptr := none, yptr := none, optr := none }) with
          allocated := Function.update s.allocated proc true } := by
  simp [prepared, allocProc, setParent, modify]

theorem prepared_procs (x : Nat)
    : (s.prepared proc).procs x =
        if x = proc then
          { state := .uninit
            pid := -1
            parent := some s.current
            flags := 0
            exitCode := (s.procs proc).exitCode
            waitState := 0
            cptr := none
            yptr := none
            optr := none }
        else
          s.procs x := by
  simp only [prepared_eq, modify_procs]

theorem prepared_pids (hnot : proc ∉ s.procList) : (s.prepared proc).pids = s.pids := by
  apply List.map_congr_left
  intro x hx
  have hne : x ≠ proc := fun h => hnot (h ▸ hx)
  rw [prepared_procs, if_neg hne]

/--
The new process once it has its pid and is in the hash table.
-/
def hashed (s : ProcTable) (proc : Nat) (pid nextSafe : Int) : ProcTable :=
  (({ s.prepared proc with lastPid := pid, nextSafe } : ProcTable).modify proc
    fun p => { p with pid }).hashProc proc

theorem hashed_procs (x : Nat)
    : (s.hashed proc pid nextSafe).procs x =
        if x = proc then { (s.prepared proc).procs proc with pid } else s.procs x := by
  simp only [hashed, hashProc, modify_procs]
  split
  . rfl
  . next h => rw [prepared_procs, if_neg h]

theorem hashed_eq
    : s.hashed proc pid nextSafe =
        { s with
          procs := (s.hashed proc pid nextSafe).procs
          allocated := Function.update s.allocated proc true
          hashList :=
            Function.update s.hashList (pidHashfn pid) (proc :: s.hashList (pidHashfn pid))
          lastPid := pid
          nextSafe } := by
  simp [hashed, hashProc, prepared_eq, modify]

theorem hashed_setLinks (hne : s.current ≠ proc) (hfirst : s.links.first s.current ≠ some proc)
    : (s.hashed proc pid nextSafe).setLinks proc >>= (·.wakeupProc proc) =
        some (s.forked proc pid nextSafe) := by
  have hprocs := @hashed_procs s proc pid nextSafe
  have hcptr : (s.hashed proc pid nextSafe).links.first s.current = s.links.first s.current := by
    simp [links, hprocs, hne]
  have hparent : ((s.hashed proc pid nextSafe).procs proc).parent = some s.current := by
    simp [hprocs, prepared_procs]
  rw [setLinks_eq hparent (by rwa [hcptr])]
  have hstate : ((s.hashed proc pid nextSafe).procs proc).state = .uninit := by
    simp [hprocs, prepared_procs]
  rw [Option.bind_eq_bind, Option.bind_some, wakeupProc_eq (by simp [relink, hstate])
    (by simp [relink, hstate]), Option.some_inj, hashed_eq, modify]
  simp only [forked, relink, ProcTable.mk.injEq, and_true]
  funext x
  by_cases hx : x = proc
  . subst hx
    simp [hprocs, prepared_procs, Links.push, links, hne, Ne.symm hne]
  . by_cases hc : x = s.current
    . simp [hprocs, Links.push, links, hne, hc]
    . simp [hprocs, hx, Links.push, links, hne, hc]
      congr

theorem first_ne (hfam : s.Family kids) (hcur : s.current ∈ s.all) (hnot : proc ∉ s.all)
    : s.links.first s.current ≠ some proc := by
  intro h
  exact hnot (mem_all_of_mem (hfam.mem_procList hcur ((hfam.children _ hcur).first_mem h)))

/--
The table behind a `do_fork` that fails: nothing has changed but memory that is no process.
-/
theorem prepared_kfree_sameTree (hnot : proc ∉ s.all) (hfree : s.allocated proc = false)
    : s.SameTree ((s.prepared proc).kfree proc) ∧
        ∀ p ∈ s.all, ((s.prepared proc).kfree proc).procs p = s.procs p := by
  have heq : (s.prepared proc).kfree proc = s.modify proc fun p =>
      { p with
        state := .uninit, pid := -1, parent := some s.current, flags := 0, waitState := 0
        cptr := none, yptr := none, optr := none } := by
    have hupdate : Function.update s.allocated proc false = s.allocated := by
      rw [← hfree, Function.update_eq_self]
    rw [prepared_eq]
    simp only [kfree, Function.update_idem, hupdate]
    rfl
  rw [heq]
  refine ⟨.modify_outside hnot, ?_⟩
  intro p hp
  have hne : p ≠ proc := fun h => hnot (h ▸ hp)
  rw [modify_procs, if_neg hne]

/--
A `do_fork` fails without a trace, or it makes a new child of `current` with a pid that is not in use.
-/
theorem doFork_spec (hfam : s.Family kids) (hreg : s.Registered) (hcur : s.current ∈ s.all)
    (hwait : (s.procs s.current).waitState = 0)
    (hnot : ∀ proc, ans.proc = some proc → s.allocated proc = false)
    : ∃ r s', s.doFork ans = some (r, s') ∧
        (((maxProcess ≤ s.nrProcess ∨ ans.proc = none ∨
            (ans.kstack && ans.mm && ans.files) = false) ∧
          (∃ e, r = .error e) ∧ s.SameTree s' ∧ ∀ p ∈ s.all, s'.procs p = s.procs p) ∨
          ∃ proc pid nextSafe, ans.proc = some proc ∧ proc ∉ s.all ∧ r = .ok pid ∧
            s' = s.forked proc pid nextSafe ∧
            (s.prepared proc).getPid =
              some (pid, { s.prepared proc with lastPid := pid, nextSafe }) ∧
            ValidPid pid ∧ pid ∉ s.pids ∧ nextSafe ≤ maxPid ∧ Unused s.pids (pid + 1) nextSafe) := by
  by_cases hnr : s.nrProcess ≥ maxProcess
  . exact ⟨_, s, by rw [doFork, if_pos hnr], .inl ⟨.inl hnr, ⟨_, rfl⟩, .refl s, fun _ _ => rfl⟩⟩
  cases hproc : ans.proc with
  | none =>
    exact ⟨_, s, by rw [doFork, if_neg hnr, hproc],
      .inl ⟨.inr (.inl rfl), ⟨_, rfl⟩, .refl s, fun _ _ => rfl⟩⟩
  | some proc =>
    have hfree := hnot proc hproc
    have hall : proc ∉ s.all := by
      rw [← hreg.allocated, hfree]
      simp
    have hne : s.current ≠ proc := fun h => hall (h ▸ hcur)
    have hwait' : ((s.prepared proc).procs (s.prepared proc).current).waitState = 0 := by
      rw [prepared_procs]
      exact (if_neg hne) ▸ hwait
    have hbody : s.doFork ans =
        if ((s.prepared proc).procs (s.prepared proc).current).waitState ≠ 0 then none
        else if (!(ans.kstack && ans.mm && ans.files)) = true then
          some (.error .noMem, (s.prepared proc).kfree proc)
        else
          (s.prepared proc).getPid.bind fun r =>
            (((r.2.modify proc fun p => { p with pid := r.1 }).hashProc proc).setLinks proc).bind fun s =>
              (s.wakeupProc proc).bind fun s => some (.ok r.1, s) := by
      rw [doFork, if_neg hnr, hproc]
      rfl
    rw [if_neg (by simp [hwait'])] at hbody
    by_cases hans : (!(ans.kstack && ans.mm && ans.files)) = true
    . rw [if_pos hans] at hbody
      exact ⟨_, _, hbody,
        .inl ⟨.inr (.inr (by grind)), ⟨_, rfl⟩, prepared_kfree_sameTree hall hfree⟩⟩
    . have hpids : (s.prepared proc).pids = s.pids :=
        prepared_pids fun h => hall (mem_all_of_mem h)
      have hlast : (s.prepared proc).lastPid = s.lastPid := rfl
      have hnext : (s.prepared proc).nextSafe = s.nextSafe := rfl
      have hcached : (s.prepared proc).PidsCached :=
        ⟨hlast ▸ hreg.cached.lastPid_nonneg, hnext ▸ hreg.cached.nextSafe_le,
          by rw [hpids, hlast, hnext]; exact hreg.cached.unused⟩
      -- the limit of do_fork leaves get_pid more pids than there are processes
      have hlen : (s.prepared proc).pids.length + 1 < maxPid := by
        have hcount := hreg.nrProcess
        have hmax := maxPid_eq
        rw [hpids, pids, List.length_map]
        simp only [maxProcess] at hnr
        omega
      obtain ⟨pid, nextSafe, hget, hvalid, hfresh, hle, hunused⟩ := getPid_spec hcached hlen
      rw [hpids] at hfresh hunused
      obtain ⟨t, hset, hwake⟩ := Option.bind_eq_some_iff.mp
        (@hashed_setLinks s proc pid nextSafe hne (first_ne hfam hcur hall))
      have hset' : ((({ s.prepared proc with lastPid := pid, nextSafe } : ProcTable).modify proc
          fun p => { p with pid }).hashProc proc).setLinks proc = some t := hset
      refine ⟨.ok pid, _, ?_, .inr ⟨proc, pid, nextSafe, rfl, hall, rfl, rfl, hget, hvalid, hfresh,
        hle, hunused⟩⟩
      rw [hbody, if_neg hans, hget]
      simp only [Option.bind_some, hset', hwake]

theorem mem_forked_all {x : Nat} : x ∈ (s.forked proc pid nextSafe).all ↔ x = proc ∨ x ∈ s.all := by
  simp only [all, forked, List.mem_cons]
  tauto

theorem forked_procs_of_ne {x : Nat} (h : x ≠ proc)
    : (s.forked proc pid nextSafe).procs x =
        { s.procs x with
          cptr := if x = s.current then some proc else (s.procs x).cptr
          yptr := if s.links.first s.current = some x then some proc else (s.procs x).yptr } := by
  simp [forked, h]

theorem forked_procs_self
    : (s.forked proc pid nextSafe).procs proc =
        { state := .runnable
          pid
          parent := some s.current
          flags := 0
          exitCode := (s.procs proc).exitCode
          waitState := 0
          cptr := none
          yptr := none
          optr := s.links.first s.current } := by
  simp [forked]

theorem forked_links (hne : s.current ≠ proc)
    : (s.forked proc pid nextSafe).links =
        ({ s.links with first := Function.update s.links.first proc none } : Links Nat).push
          s.current proc := by
  simp only [links, Links.push, Links.mk.injEq]
  refine ⟨?_, ?_, ?_⟩ <;> funext x <;> by_cases hx : x = proc
  . simp [hx, forked_procs_self, Ne.symm hne]
  . rw [forked_procs_of_ne hx]
    simp [Function.update_apply, hx]
  . simp [hx, forked_procs_self, hne, links]
  . rw [forked_procs_of_ne hx]
    simp [hx]
  . simp [hx, forked_procs_self]
  . rw [forked_procs_of_ne hx]
    simp [hx, hne, links]
    congr

theorem forked_family (hfam : s.Family kids) (hreg : s.Registered) (hcur : s.current ∈ s.all)
    (halive : (s.procs s.current).state ≠ .zombie) (hnot : proc ∉ s.all)
    : (s.forked proc pid nextSafe).Family
        (Function.update (Function.update kids proc []) s.current (proc :: kids s.current)) := by
  have hne : s.current ≠ proc := fun h => hnot (h ▸ hcur)
  have hnotKid : ∀ p ∈ s.all, proc ∉ kids p :=
    fun p hp h => hnot (mem_all_of_mem (hfam.mem_procList hp h))
  have hbase : ∀ p ∈ s.all, ChildrenFrom
      { s.links with first := Function.update s.links.first proc none } none p (kids p) := by
    intro p hp
    have hpne : p ≠ proc := fun h => hnot (h ▸ hp)
    exact (hfam.children p hp).congr (by simp [hpne]) fun _ _ => ⟨rfl, rfl⟩
  have hparent : ∀ x, x ≠ proc → ((s.forked proc pid nextSafe).procs x).parent =
      (s.procs x).parent := by
    intro x hx
    rw [forked_procs_of_ne hx]
  constructor
  . intro p hp
    rw [forked_links hne]
    by_cases hpc : p = s.current
    . subst hpc
      rw [Function.update_self]
      exact (hbase _ hcur).push (hnotKid _ hcur)
    . rw [Function.update_of_ne hpc]
      by_cases hpp : p = proc
      . subst hpp
        rw [Function.update_self]
        exact ⟨by simp [Links.push, hpc], trivial, by simp⟩
      . have hp' : p ∈ s.all := (mem_forked_all.mp hp).resolve_left hpp
        rw [Function.update_of_ne hpp]
        exact (hbase p hp').push_other (hbase _ hcur) hpc (hnotKid p hp')
          fun x hx => hfam.disjoint hp' hcur hpc hx
  . intro p hp c
    have hlist : (s.forked proc pid nextSafe).procList = proc :: s.procList := rfl
    rw [hlist, List.mem_cons]
    by_cases hc : c = proc
    . subst hc
      rw [forked_procs_self]
      by_cases hpc : p = s.current
      . simp [hpc]
      . rw [Function.update_of_ne hpc]
        by_cases hpp : p = c
        . simp [hpp, hne]
        . rw [Function.update_of_ne hpp]
          simp [hnotKid p ((mem_forked_all.mp hp).resolve_left hpp), Ne.symm hpc]
    . rw [hparent c hc]
      by_cases hpc : p = s.current
      . subst hpc
        simp [hc, hfam.mem_kids _ hcur]
      . rw [Function.update_of_ne hpc]
        by_cases hpp : p = proc
        . subst hpp
          simp only [Function.update_self, List.not_mem_nil, hc, false_or, false_iff, not_and]
          intro hmem hparent
          obtain ⟨q, hq, hq', -⟩ := hfam.parent c hmem
          rw [hparent] at hq'
          exact hnot (Option.some_inj.mp hq' ▸ hq)
        . rw [Function.update_of_ne hpp]
          simp [hc, hfam.mem_kids p ((mem_forked_all.mp hp).resolve_left hpp)]
  . intro c hc
    by_cases hcp : c = proc
    . subst hcp
      refine ⟨s.current, mem_forked_all.mpr (.inr hcur), by rw [forked_procs_self], ?_⟩
      rw [forked_procs_of_ne hne]
      exact halive
    . obtain ⟨p, hp, hcparent, hpalive⟩ := hfam.parent c ((List.mem_cons.mp hc).resolve_left hcp)
      have hpne : p ≠ proc := fun h => hnot (h ▸ hp)
      refine ⟨p, mem_forked_all.mpr (.inr hp), by rw [hparent c hcp, hcparent], ?_⟩
      rw [forked_procs_of_ne hpne]
      exact hpalive
  . intro c hc
    by_cases hcp : c = proc
    . subst hcp
      rw [forked_procs_self]
      simpa using hne
    . rw [hparent c hcp]
      exact hfam.irrefl c ((List.mem_cons.mp hc).resolve_left hcp)
  . have hidle : s.idleproc ≠ proc := fun h => hnot (h ▸ s.idle_mem_all)
    have hidle' : (s.forked proc pid nextSafe).idleproc = s.idleproc := rfl
    have hfirst : s.links.first s.current ≠ some s.idleproc := fun h =>
      hreg.idle_notMem (hfam.mem_procList hcur ((hfam.children _ hcur).first_mem h))
    obtain ⟨h₁, h₂, h₃⟩ := hfam.root
    rw [hidle', hparent _ hidle, forked_links hne]
    exact ⟨h₁, by simp [Links.push, hidle, h₂], by simp [Links.push, hidle, hne, hfirst, h₃]⟩

theorem forked_pids (hnot : proc ∉ s.all)
    : (s.forked proc pid nextSafe).pids = pid :: s.pids := by
  have hlist : (s.forked proc pid nextSafe).procList = proc :: s.procList := rfl
  rw [pids, hlist, List.map_cons, forked_procs_self, pids]
  congr 1
  apply List.map_congr_left
  intro x hx
  have hne : x ≠ proc := fun h => hnot (h ▸ mem_all_of_mem hx)
  rw [forked_procs_of_ne hne]

theorem forked_registered (hreg : s.Registered) (hnot : proc ∉ s.all) (hvalid : ValidPid pid)
    (hfresh : pid ∉ s.pids) (hle : nextSafe ≤ maxPid) (hunused : Unused s.pids (pid + 1) nextSafe)
    : (s.forked proc pid nextSafe).Registered := by
  have hpids := @forked_pids s proc pid nextSafe hnot
  constructor
  . have hperm : (s.forked proc pid nextSafe).all.Perm (proc :: s.all) := List.Perm.swap ..
    exact hperm.nodup_iff.mpr (List.nodup_cons.mpr ⟨hnot, hreg.nodup⟩)
  . intro p
    rw [mem_forked_all, ← hreg.allocated]
    by_cases hp : p = proc <;> simp [forked, hp]
  . have := hreg.nrProcess
    simp only [forked, List.length_cons]
    omega
  . intro i
    simp only [forked, Function.update_apply]
    split
    . refine List.nodup_cons.mpr ⟨?_, hreg.hash_nodup _⟩
      intro h
      exact hnot (mem_all_of_mem ((hreg.mem_hash _ _).mp h).1)
    . exact hreg.hash_nodup i
  . intro i p
    have hhash : (s.forked proc pid nextSafe).hashList i =
        if i = pidHashfn pid then proc :: s.hashList (pidHashfn pid) else s.hashList i := by
      simp [forked, Function.update_apply]
    have hlist : (s.forked proc pid nextSafe).procList = proc :: s.procList := rfl
    rw [hhash, hlist, List.mem_cons]
    by_cases hp : p = proc
    . subst hp
      have hp' : ∀ i, p ∉ s.hashList i :=
        fun i h => hnot (mem_all_of_mem ((hreg.mem_hash i p).mp h).1)
      rw [forked_procs_self]
      by_cases hi : i = pidHashfn pid <;> simp [hi, hp', eq_comm]
    . rw [forked_procs_of_ne hp]
      by_cases hi : i = pidHashfn pid <;> simp [hi, hp, hreg.mem_hash]
  . rw [hpids]
    exact List.nodup_cons.mpr ⟨hfresh, hreg.pids_nodup⟩
  . rw [hpids]
    intro q hq
    rcases List.mem_cons.mp hq with rfl | hq
    . exact hvalid
    . exact hreg.validPid q hq
  . have hlast : (s.forked proc pid nextSafe).lastPid = pid := rfl
    have hnext : (s.forked proc pid nextSafe).nextSafe = nextSafe := rfl
    have hpos := hvalid.1
    refine ⟨by omega, by omega, ?_⟩
    rw [hpids, hlast, hnext]
    exact unused_cons.mpr ⟨by omega, hunused⟩

end ProcTable
end Ucore

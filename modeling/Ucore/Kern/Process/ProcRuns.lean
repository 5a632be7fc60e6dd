import Ucore.Kern.Process.ProcInvariant

/-!
This module contains what holds in every run of the process system: pids are unique, the links between
processes form a tree, and no exit of a child is lost.
-/

namespace Ucore

open Siblings ProcTable

namespace ProcTable

theorem idleTable_family (procs : Nat → ProcStruct) (idle : Nat)
    : (idleTable procs idle).Family fun _ => [] := by
  have hall : (idleTable procs idle).all = [idle] := rfl
  have hlist : (idleTable procs idle).procList = [] := rfl
  refine ⟨?_, ?_, ?_, ?_, ?_⟩
  . intro p hp
    rw [hall, List.mem_singleton] at hp
    subst hp
    exact ⟨by simp [idleTable, links, modify, allocProc], trivial, by simp⟩
  . simp [hlist]
  . simp [hlist]
  . simp [hlist]
  . simp [idleTable, links, modify, allocProc]

theorem idleTable_allocated (procs : Nat → ProcStruct) (idle p : Nat)
    : (idleTable procs idle).allocated p = true ↔ p = idle := by
  by_cases hp : p = idle <;> simp [idleTable, allocProc, modify, hp]

theorem idleTable_procs (procs : Nat → ProcStruct) (idle : Nat)
    : ((idleTable procs idle).procs idle).state = .runnable ∧
        ((idleTable procs idle).procs idle).waitState = 0 := by
  simp [idleTable, allocProc, modify]

theorem idleTable_registered (procs : Nat → ProcStruct) (idle : Nat)
    : (idleTable procs idle).Registered := by
  have hall : (idleTable procs idle).all = [idle] := rfl
  have hlist : (idleTable procs idle).procList = [] := rfl
  have hpids : (idleTable procs idle).pids = [] := rfl
  have hhash : (idleTable procs idle).hashList = fun _ => [] := rfl
  have hcached : 0 ≤ maxPid ∧ maxPid ≤ maxPid := by decide
  refine ⟨by simp [hall], ?_, rfl, by simp [hhash], by simp [hhash, hlist], by simp [hpids],
    by simp [hpids], ⟨hcached.1, hcached.2, by simp [hpids, Unused]⟩⟩
  intro p
  rw [hall, List.mem_singleton]
  exact idleTable_allocated ..

end ProcTable

namespace ProcSys

/--
The invariant holds at the end of `proc_init`.
-/
theorem boot_inv {procs : Nat → ProcStruct} {idle init : Nat} {tab : ProcTable} (hne : init ≠ idle)
    (h : procInit procs idle init = some tab)
    : ∃ kids, (boot tab).Inv kids := by
  have hfam := idleTable_family procs idle
  have hreg := idleTable_registered procs idle
  obtain ⟨hstate, hwait⟩ := idleTable_procs procs idle
  have hlist₀ : (idleTable procs idle).procList = [] := rfl
  have hcur₀ : (idleTable procs idle).current = idle := rfl
  have hfree : (idleTable procs idle).allocated init = false := by
    rw [Bool.eq_false_iff, ne_eq, idleTable_allocated]
    exact hne
  obtain ⟨r, s, hfork, hcases⟩ := @doFork_spec (idleTable procs idle) _
    { proc := some init, kstack := true, mm := true, files := true } hfam hreg idle_mem_all hwait
    (by simp [hfree])
  unfold procInit at h
  obtain ⟨⟨r', s'⟩, hfork', h⟩ := Option.bind_eq_some_iff.mp h
  rw [hfork, Option.some_inj, Prod.mk.injEq] at hfork'
  rw [← hfork'.1, ← hfork'.2] at h
  rcases hcases with ⟨-, ⟨e, rfl⟩, -⟩ | ⟨proc, pid, nextSafe, hproc, hnot, rfl, rfl, -, hvalid, hfresh,
    hle, hunused⟩
  . simp at h
  . have hproc' : init = proc := Option.some_inj.mp hproc
    subst hproc'
    have hfam' := @forked_family _ _ init pid nextSafe hfam hreg idle_mem_all
      (by rw [hcur₀, hstate]; simp) hnot
    have hreg' := forked_registered hreg hnot hvalid hfresh hle hunused
    have hlist : ((idleTable procs idle).forked init pid nextSafe).procList = [init] := rfl
    have hself := @forked_procs_self (idleTable procs idle) init pid nextSafe
    have hidle : ((idleTable procs idle).forked init pid nextSafe).procs idle = _ :=
      forked_procs_of_ne (Ne.symm hne)
    simp only at h
    split at h
    . contradiction
    . obtain ⟨initproc, hfind, h⟩ := Option.bind_eq_some_iff.mp h
      obtain ⟨hmem, hpid⟩ := hreg'.findProc_eq_some_iff.mp hfind
      rw [hlist, List.mem_singleton] at hmem
      subst hmem
      simp only [Option.ite_none_right_eq_some, Option.some_inj] at h
      obtain ⟨-, rfl⟩ := h
      refine ⟨_, ⟨hfam'.children, hfam'.mem_kids, hfam'.parent, hfam'.irrefl, hfam'.root⟩,
        ⟨hreg'.nodup, hreg'.allocated, hreg'.nrProcess, hreg'.hash_nodup, hreg'.mem_hash,
          hreg'.pids_nodup, hreg'.validPid, ⟨hreg'.cached.lastPid_nonneg, hreg'.cached.nextSafe_le,
            hreg'.cached.unused⟩⟩, ?_, ?_, ?_, ?_, ?_, ?_, ?_, ?_, ?_, ?_⟩
      . exact List.mem_cons_self
      . have hidleState : (((idleTable procs idle).forked initproc pid nextSafe).procs idle).state ≠
            .zombie ∧ (((idleTable procs idle).forked initproc pid nextSafe).procs idle).waitState =
              0 := by
          rw [hidle]
          exact ⟨by simp [hstate], hwait⟩
        exact hidleState
      . exact List.mem_singleton_self _
      . simp [boot, hself]
      . simp [boot, hself, hcur₀]
        rfl
      . intro p hp hwait'
        have : p = initproc := List.mem_singleton.mp hp
        subst this
        simp [boot, hself] at hwait'
      . simp [boot]
      . intro p hp hwait'
        have : p = initproc := List.mem_singleton.mp hp
        subst this
        simp only [boot, hself] at hwait'
        exact absurd hwait' zero_ne_wtChild
      . intro c hc
        have : c = initproc := List.mem_singleton.mp hc
        subst this
        simp [ParentOrInit, boot, hself, hcur₀]
        rfl
      . intro p
        have hno : ¬(boot { (idleTable procs idle).forked initproc pid nextSafe with
            initproc }).Zombie p := by
          rintro ⟨hmem, hz⟩
          have : p = initproc := List.mem_singleton.mp hmem
          subst this
          simp [boot, hself] at hz
        simp only [hno, if_false]
        rfl

theorem Reachable.inv {s : ProcSys} (h : s.Reachable) : ∃ kids, s.Inv kids := by
  obtain ⟨procs, idle, init, tab, events, hne, hboot, hexec⟩ := h
  apply Run.exec_invariant (I := fun s => ∃ kids, s.Inv kids) _ (boot_inv hne hboot) hexec
  intro s ev s' ⟨kids, hinv⟩ hstep
  exact hinv.step hstep

def bootTable : ProcTable :=
  (procInit (fun _ => ⟨.uninit, 0, none, 0, 0, 0, none, none, none⟩) 1 2).get (by decide)

/--
`initproc` makes a child and sleeps for it, the child makes one of its own and exits.
-/
def orphanRun : ProcSys :=
  (Run.exec step (boot bootTable) [.schedule 2, .fork ⟨some 3, true, true, true⟩, .wait 0 none,
    .schedule 3, .fork ⟨some 4, true, true, true⟩, .exit 0]).get (by decide)

theorem orphanRun_reachable : orphanRun.Reachable :=
  ⟨_, 1, 2, bootTable, _, by decide, (Option.some_get _).symm, (Option.some_get _).symm⟩

example : (orphanRun.tab.procs 4).parent = some 2 ∧ (orphanRun.tab.procs 2).state = .runnable := by
  decide

/--
In every state of a run `get_pid` comes to an end with a pid that no process has, as long as there are
fewer than `MAX_PROCESS` processes, and `find_proc` finds the only process with a pid.
-/
theorem getPid_fresh {s : ProcSys} (h : s.Reachable) (hlen : s.tab.procList.length < maxProcess)
    : (∃ pid tab, s.tab.getPid = some (pid, tab) ∧ ValidPid pid ∧
          ∀ p ∈ s.tab.procList, (s.tab.procs p).pid ≠ pid) ∧
        (∀ p ∈ s.tab.procList, ValidPid (s.tab.procs p).pid) ∧
        (∀ p ∈ s.tab.procList, ∀ q ∈ s.tab.procList,
          (s.tab.procs p).pid = (s.tab.procs q).pid → p = q) ∧
        ∀ pid p, s.tab.findProc pid = some p ↔ p ∈ s.tab.procList ∧ (s.tab.procs p).pid = pid := by
  obtain ⟨kids, hinv⟩ := h.inv
  have hreg := hinv.registered
  have hpids : s.tab.pids.length + 1 < maxPid := by
    have hmax := maxPid_eq
    rw [pids, List.length_map]
    simp only [maxProcess] at hlen
    omega
  obtain ⟨pid, nextSafe, hget, hvalid, hfresh, -, -⟩ := getPid_spec hreg.cached hpids
  refine ⟨⟨pid, _, hget, hvalid, ?_⟩, ?_, fun p hp q hq => hreg.pid_inj hp hq,
    fun pid p => hreg.findProc_eq_some_iff⟩
  . intro p hp heq
    exact hfresh (heq ▸ List.mem_map_of_mem hp)
  . intro p hp
    exact hreg.validPid _ (List.mem_map_of_mem hp)

theorem getPid_fresh_orphanRun
    : orphanRun.tab.procList.length < maxProcess ∧
        ∃ pid tab, orphanRun.tab.getPid = some (pid, tab) ∧
          ∀ p ∈ orphanRun.tab.procList, (orphanRun.tab.procs p).pid ≠ pid := by
  have hlen : orphanRun.tab.procList.length < maxProcess := by decide
  obtain ⟨⟨pid, tab, hget, -, hfresh⟩, -⟩ := getPid_fresh orphanRun_reachable hlen
  exact ⟨hlen, pid, tab, hget, hfresh⟩

end ProcSys

namespace ProcTable

/--
The links between the processes: `cptr` and `optr` lead through the children of a process and `yptr`
leads back, every process but `idleproc` is registered once, and no link leads to freed memory.
-/
structure TreeConsistent (s : ProcTable) : Prop where
  children : ∀ p, s.allocated p = true → ∃ xs, IsChildren s.links p xs ∧
    ∀ c, c ∈ xs ↔ s.allocated c = true ∧ (s.procs c).parent = some p
  listed : ∀ p, s.allocated p = true → p ≠ s.idleproc → s.procList.count p = 1 ∧
    ∀ i, (s.hashList i).count p = if i = pidHashfn (s.procs p).pid then 1 else 0
  idle : s.idleproc ∉ s.procList ∧ ∀ i, s.idleproc ∉ s.hashList i
  nrProcess : s.nrProcess = s.procList.length + 1
  listsAllocated : (∀ p ∈ s.procList, s.allocated p = true) ∧
    ∀ i, ∀ p ∈ s.hashList i, s.allocated p = true
  linksAllocated : ∀ p, s.allocated p = true → ∀ q, (s.procs p).parent = some q ∨
    (s.procs p).cptr = some q ∨ (s.procs p).yptr = some q ∨ (s.procs p).optr = some q →
    s.allocated q = true

variable {s : ProcTable} {kids : Nat → List Nat}

theorem Family.sibling_mem (hfam : s.Family kids) {p q : Nat} (hp : p ∈ s.procList)
    (hq : s.links.prev p = some q ∨ s.links.next p = some q)
    : q ∈ s.procList := by
  obtain ⟨parent, hmem, hparent, -⟩ := hfam.parent p hp
  have hkid := (hfam.mem_kids _ hmem p).mpr ⟨hp, hparent⟩
  obtain ⟨pre, post, hsplit⟩ := List.append_of_mem hkid
  have hchain := hsplit ▸ (hfam.children _ hmem).chain
  apply hfam.mem_procList hmem
  rw [hsplit]
  cases hq with
  | inl hprev =>
    rw [hchain.prev_mid, Option.or_none] at hprev
    exact List.mem_append_left _ (List.mem_of_getLast? hprev)
  | inr hnext =>
    rw [hchain.next_mid] at hnext
    exact List.mem_append_right _ (List.mem_cons_of_mem _ (List.mem_of_head? hnext))

theorem Family.treeConsistent (hfam : s.Family kids) (hreg : s.Registered) : s.TreeConsistent := by
  have hsplit : ∀ {p}, s.allocated p = true ↔ p = s.idleproc ∨ p ∈ s.procList := by
    intro p
    rw [hreg.allocated]
    exact List.mem_cons
  have hidle := hreg.idle_notMem
  constructor
  . intro p hp
    rw [hreg.allocated] at hp
    refine ⟨kids p, hfam.children p hp, ?_⟩
    intro c
    rw [hfam.mem_kids p hp, hsplit]
    constructor
    . intro ⟨hc, hparent⟩
      exact ⟨.inr hc, hparent⟩
    . intro ⟨hc, hparent⟩
      rcases hc with rfl | hc
      . rw [hfam.root.1] at hparent
        contradiction
      . exact ⟨hc, hparent⟩
  . intro p hp hne
    have hmem := (hsplit.mp hp).resolve_left hne
    refine ⟨List.count_eq_one_of_mem (List.nodup_cons.mp hreg.nodup).2 hmem, ?_⟩
    intro i
    split
    . next hi => exact List.count_eq_one_of_mem (hreg.hash_nodup i) ((hreg.mem_hash i p).mpr ⟨hmem, hi.symm⟩)
    . next hi =>
      apply List.count_eq_zero_of_not_mem
      intro hin
      exact hi ((hreg.mem_hash i p).mp hin).2.symm
  . exact ⟨hidle, fun i hin => hidle ((hreg.mem_hash i _).mp hin).1⟩
  . exact hreg.nrProcess
  . exact ⟨fun p hp => hsplit.mpr (.inr hp), fun i p hp => hsplit.mpr (.inr ((hreg.mem_hash i p).mp hp).1)⟩
  . intro p hp q hq
    have hpAll := (hreg.allocated p).mp hp
    obtain ⟨hroot₁, hroot₂, hroot₃⟩ := hfam.root
    rcases hq with hq | hq | hq | hq
    . rcases hsplit.mp hp with rfl | hp
      . rw [hroot₁] at hq
        contradiction
      . obtain ⟨parent, hmem, hparent, -⟩ := hfam.parent p hp
        rw [hparent, Option.some_inj] at hq
        exact (hreg.allocated q).mpr (hq ▸ hmem)
    . exact hsplit.mpr (.inr (hfam.mem_procList hpAll ((hfam.children p hpAll).first_mem hq)))
    . rcases hsplit.mp hp with rfl | hp
      . rw [yptr_eq, hroot₃] at hq
        contradiction
      . exact hsplit.mpr (.inr (hfam.sibling_mem hp (.inl hq)))
    . rcases hsplit.mp hp with rfl | hp
      . rw [optr_eq, hroot₂] at hq
        contradiction
      . exact hsplit.mpr (.inr (hfam.sibling_mem hp (.inr hq)))

end ProcTable

namespace ProcSys

/--
The links are consistent in every state of a run.
-/
theorem tree_consistent {s : ProcSys} (h : s.Reachable) : s.tab.TreeConsistent := by
  obtain ⟨kids, hinv⟩ := h.inv
  exact hinv.family.treeConsistent hinv.registered

theorem tree_consistent_orphanRun : orphanRun.tab.TreeConsistent :=
  tree_consistent orphanRun_reachable

/--
Nobody sleeps for a child that has exited, every zombie has a parent that is alive, namely the process
that has made it or `initproc` if that one has exited since, and every process that has exited has been
freed once or is still a zombie.
-/
structure NoLostExit (s : ProcSys) : Prop where
  asleep : ∀ p, s.tab.allocated p = true → (s.tab.procs p).state = .sleeping →
    (s.tab.procs p).waitState = wtChild → ∃ pid, s.waiting p = some pid ∧
      ∀ c, s.tab.allocated c = true → (s.tab.procs c).parent = some p →
        (s.tab.procs c).state = .zombie → ¬(pid = 0 ∨ (s.tab.procs c).pid = pid)
  parent : ∀ c, s.tab.allocated c = true → (s.tab.procs c).state = .zombie →
    ∃ p, (s.tab.procs c).parent = some p ∧ s.tab.allocated p = true ∧
      (s.tab.procs p).state ≠ .zombie ∧
      p = if s.exited (s.origin c).1 = (s.origin c).2 then (s.origin c).1 else s.tab.initproc
  freedOnce : ∀ p, s.exited p =
    s.freed p + if s.tab.allocated p = true ∧ (s.tab.procs p).state = .zombie then 1 else 0

/--
No exit of a child is lost in any run.
-/
theorem no_lost_exit {s : ProcSys} (h : s.Reachable) : s.NoLostExit := by
  obtain ⟨kids, hinv⟩ := h.inv
  have hreg := hinv.registered
  have hsplit : ∀ {p}, s.tab.allocated p = true ↔ p = s.tab.idleproc ∨ p ∈ s.tab.procList := by
    intro p
    rw [hreg.allocated]
    exact List.mem_cons
  have hlisted : ∀ {p}, s.tab.allocated p = true → (s.tab.procs p).state = .zombie →
      p ∈ s.tab.procList := by
    intro p hp hz
    apply (hsplit.mp hp).resolve_left
    intro heq
    exact hinv.idle.1 (heq ▸ hz)
  constructor
  . intro p hp _ hwait
    have hmem : p ∈ s.tab.procList := by
      apply (hsplit.mp hp).resolve_left
      intro heq
      rw [heq, hinv.idle.2] at hwait
      exact zero_ne_wtChild hwait
    obtain ⟨pid, hpid, hno⟩ := hinv.asleep p hmem hwait
    exact ⟨pid, hpid, fun c hc hparent hz => hno c (hlisted hc hz) hparent hz⟩
  . intro c hc hz
    have hmem := hlisted hc hz
    obtain ⟨p, hp, hparent, halive⟩ := hinv.family.parent c hmem
    have horigin := (hinv.origin c hmem).2
    rw [hparent, Option.some_inj] at horigin
    exact ⟨p, hparent, (hreg.allocated p).mpr hp, halive, horigin⟩
  . intro p
    rw [hinv.counts p]
    have hz : s.Zombie p ↔ s.tab.allocated p = true ∧ (s.tab.procs p).state = .zombie :=
      ⟨fun h => ⟨hsplit.mpr (.inr h.1), h.2⟩, fun h => ⟨hlisted h.1 h.2, h.2⟩⟩
    simp only [hz]

theorem no_lost_exit_orphanRun : orphanRun.Zombie 3 ∧ orphanRun.NoLostExit :=
  ⟨by decide, no_lost_exit orphanRun_reachable⟩

end ProcSys
end Ucore

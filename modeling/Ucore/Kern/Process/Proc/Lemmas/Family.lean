import Ucore.Kern.Process.Proc.Lemmas.GetPid
import Ucore.Kern.Process.Proc.Lemmas.Links

/-!
This module contains the invariants of the process table: the sibling pointers form the tree that the
parent pointers describe, and the global list, the hash table, the counter and the pids agree with
the processes that exist.
-/

namespace Ucore

open Siblings

namespace ProcTable

/--
All processes: `idleproc` is the only one outside `proc_list`.
-/
def all (s : ProcTable) : List Nat := s.idleproc :: s.procList

/--
`kids p` are the children of `p` in the order of the sibling pointers. Every parent is alive.
-/
structure Family (s : ProcTable) (kids : Nat → List Nat) : Prop where
  children : ∀ p ∈ s.all, ChildrenFrom s.links none p (kids p)
  mem_kids : ∀ p ∈ s.all, ∀ c, c ∈ kids p ↔ c ∈ s.procList ∧ (s.procs c).parent = some p
  parent : ∀ c ∈ s.procList, ∃ p ∈ s.all, (s.procs c).parent = some p ∧ (s.procs p).state ≠ .zombie
  irrefl : ∀ c ∈ s.procList, (s.procs c).parent ≠ some c
  root : (s.procs s.idleproc).parent = none ∧ s.links.next s.idleproc = none ∧
    s.links.prev s.idleproc = none

structure Registered (s : ProcTable) : Prop where
  nodup : s.all.Nodup
  allocated : ∀ p, s.allocated p = true ↔ p ∈ s.all
  nrProcess : s.nrProcess = s.procList.length + 1
  hash_nodup : ∀ i, (s.hashList i).Nodup
  mem_hash : ∀ i p, p ∈ s.hashList i ↔ p ∈ s.procList ∧ pidHashfn (s.procs p).pid = i
  pids_nodup : s.pids.Nodup
  validPid : ∀ pid ∈ s.pids, ValidPid pid
  cached : s.PidsCached

/--
As far as processes that exist go, the two tables differ in nothing but flags, exit codes, wait states
and whether a process that is alive sleeps or runs.
-/
structure SameTree (s s' : ProcTable) : Prop where
  first : ∀ x ∈ s.all, s'.links.first x = s.links.first x
  siblings : ∀ x ∈ s.all, s'.links.next x = s.links.next x ∧ s'.links.prev x = s.links.prev x
  parent : ∀ x ∈ s.all, (s'.procs x).parent = (s.procs x).parent
  pid : ∀ x ∈ s.all, (s'.procs x).pid = (s.procs x).pid
  zombie : ∀ x ∈ s.all, (s'.procs x).state = .zombie ↔ (s.procs x).state = .zombie
  globals : s' = { s with procs := s'.procs }

section SameTree

variable {s s' s'' : ProcTable} {kids : Nat → List Nat} {x : Nat} {f : ProcStruct → ProcStruct}

theorem mem_all_of_mem (h : x ∈ s.procList) : x ∈ s.all := List.mem_cons_of_mem _ h

theorem idle_mem_all : s.idleproc ∈ s.all := List.mem_cons_self

theorem Family.mem_procList {p : Nat} (h : s.Family kids) (hp : p ∈ s.all) (hx : x ∈ kids p)
    : x ∈ s.procList :=
  ((h.mem_kids p hp x).mp hx).1

theorem SameTree.procList (h : s.SameTree s') : s'.procList = s.procList := by rw [h.globals]

theorem SameTree.idleproc (h : s.SameTree s') : s'.idleproc = s.idleproc := by rw [h.globals]

theorem SameTree.initproc (h : s.SameTree s') : s'.initproc = s.initproc := by rw [h.globals]

theorem SameTree.current (h : s.SameTree s') : s'.current = s.current := by rw [h.globals]

theorem SameTree.all (h : s.SameTree s') : s'.all = s.all := by
  simp only [ProcTable.all, h.procList, h.idleproc]

theorem SameTree.refl (s : ProcTable) : s.SameTree s :=
  ⟨fun _ _ => rfl, fun _ _ => ⟨rfl, rfl⟩, fun _ _ => rfl, fun _ _ => rfl, fun _ _ => Iff.rfl, rfl⟩

theorem SameTree.trans (h : s.SameTree s') (h' : s'.SameTree s'') : s.SameTree s'' := by
  have hall := h.all
  constructor
  . intro x hx
    rw [h'.first x (hall ▸ hx), h.first x hx]
  . intro x hx
    rw [(h'.siblings x (hall ▸ hx)).1, (h'.siblings x (hall ▸ hx)).2]
    exact h.siblings x hx
  . intro x hx
    rw [h'.parent x (hall ▸ hx), h.parent x hx]
  . intro x hx
    rw [h'.pid x (hall ▸ hx), h.pid x hx]
  . intro x hx
    rw [h'.zombie x (hall ▸ hx), h.zombie x hx]
  . rw [h'.globals, h.globals]

theorem modify_procs (s : ProcTable) (x : Nat) (f : ProcStruct → ProcStruct) (y : Nat)
    : (s.modify x f).procs y = if y = x then f (s.procs x) else s.procs y := by
  simp [modify, Function.update_apply]

@[simp]
theorem modify_current : (s.modify x f).current = s.current := rfl

@[simp]
theorem modify_siblingFuel : (s.modify x f).siblingFuel = s.siblingFuel := rfl

/--
A process gets other flags, another wait state or another state.
-/
theorem SameTree.modify
    (hlinks : ∀ p, (f p).cptr = p.cptr ∧ (f p).yptr = p.yptr ∧ (f p).optr = p.optr)
    (hparent : ∀ p, (f p).parent = p.parent) (hpid : ∀ p, (f p).pid = p.pid)
    (hzombie : (f (s.procs x)).state = .zombie ↔ (s.procs x).state = .zombie)
    : s.SameTree (s.modify x f) := by
  refine ⟨?_, ?_, ?_, ?_, ?_, rfl⟩ <;> intro y _ <;> simp only [links, modify_procs] <;> split <;>
    simp_all

/--
What is written to memory that is no process does not matter.
-/
theorem SameTree.modify_outside (hx : x ∉ s.all) : s.SameTree (s.modify x f) := by
  have hprocs : ∀ y ∈ s.all, (s.modify x f).procs y = s.procs y := by
    intro y hy
    have hne : y ≠ x := fun h => hx (h ▸ hy)
    rw [modify_procs, if_neg hne]
  refine ⟨?_, ?_, ?_, ?_, ?_, rfl⟩ <;> intro y hy <;> simp only [links, hprocs y hy, and_self]

theorem SameTree.family (h : s.SameTree s') (hfam : s.Family kids) : s'.Family kids := by
  constructor
  . intro p hp
    rw [h.all] at hp
    apply (hfam.children p hp).congr (h.first p hp)
    intro x hx
    exact h.siblings x (mem_all_of_mem (hfam.mem_procList hp hx))
  . intro p hp c
    rw [h.all] at hp
    rw [h.procList, hfam.mem_kids p hp c]
    apply and_congr_right
    intro hc
    rw [h.parent c (mem_all_of_mem hc)]
  . intro c hc
    rw [h.procList] at hc
    obtain ⟨p, hp, hparent, halive⟩ := hfam.parent c hc
    refine ⟨p, h.all ▸ hp, by rw [h.parent c (mem_all_of_mem hc), hparent], ?_⟩
    rwa [ne_eq, h.zombie p hp]
  . intro c hc
    rw [h.procList] at hc
    rw [h.parent c (mem_all_of_mem hc)]
    exact hfam.irrefl c hc
  . have hmem := s.idle_mem_all
    rw [h.idleproc, h.parent _ hmem, (h.siblings _ hmem).1, (h.siblings _ hmem).2]
    exact hfam.root

/--
The registration depends on pids and global variables only.
-/
theorem Registered.congr (hreg : s.Registered) (hg : s' = { s with procs := s'.procs })
    (hpid : ∀ x ∈ s.all, (s'.procs x).pid = (s.procs x).pid)
    : s'.Registered := by
  have hlist : s'.procList = s.procList := by rw [hg]
  have hidle : s'.idleproc = s.idleproc := by rw [hg]
  have hall : s'.all = s.all := by simp only [ProcTable.all, hlist, hidle]
  have hpids : s'.pids = s.pids := by
    rw [pids, pids, hlist]
    apply List.map_congr_left
    intro x hx
    exact hpid x (mem_all_of_mem hx)
  have hhash : s'.hashList = s.hashList := by rw [hg]
  have halloc : s'.allocated = s.allocated := by rw [hg]
  have hnr : s'.nrProcess = s.nrProcess := by rw [hg]
  have hlast : s'.lastPid = s.lastPid := by rw [hg]
  have hnext : s'.nextSafe = s.nextSafe := by rw [hg]
  constructor
  . rw [hall]
    exact hreg.nodup
  . rw [hall, halloc]
    exact hreg.allocated
  . rw [hlist, hnr]
    exact hreg.nrProcess
  . rw [hhash]
    exact hreg.hash_nodup
  . intro i p
    rw [hhash, hlist, hreg.mem_hash]
    apply and_congr_right
    intro hp
    rw [hpid p (mem_all_of_mem hp)]
  . rw [hpids]
    exact hreg.pids_nodup
  . rw [hpids]
    exact hreg.validPid
  . exact ⟨by rw [hlast]; exact hreg.cached.lastPid_nonneg,
      by rw [hnext]; exact hreg.cached.nextSafe_le,
      by rw [hpids, hlast, hnext]; exact hreg.cached.unused⟩

theorem SameTree.registered (h : s.SameTree s') (hreg : s.Registered) : s'.Registered :=
  hreg.congr h.globals h.pid

end SameTree

section Facts

variable {s : ProcTable} {kids : Nat → List Nat} {p q c : Nat}

/--
No process is a child of two processes.
-/
theorem Family.disjoint (h : s.Family kids) (hp : p ∈ s.all) (hq : q ∈ s.all) (hne : p ≠ q)
    (hc : c ∈ kids p)
    : c ∉ kids q := by
  intro hcq
  have h₁ := ((h.mem_kids p hp c).mp hc).2
  have h₂ := ((h.mem_kids q hq c).mp hcq).2
  rw [h₁] at h₂
  exact hne (Option.some_inj.mp h₂)

/--
A zombie has no children, they have moved to `initproc`.
-/
theorem Family.kids_of_zombie (h : s.Family kids) (hp : p ∈ s.all)
    (hz : (s.procs p).state = .zombie)
    : kids p = [] := by
  apply List.eq_nil_iff_forall_not_mem.mpr
  intro c hc
  obtain ⟨hlist, hparent⟩ := (h.mem_kids p hp c).mp hc
  obtain ⟨q, -, hq, halive⟩ := h.parent c hlist
  rw [hparent] at hq
  exact halive (Option.some_inj.mp hq ▸ hz)

theorem Family.length_kids_le (h : s.Family kids) (hp : p ∈ s.all)
    : (kids p).length ≤ s.procList.length :=
  ((h.children p hp).nodup.subperm fun _ hc => h.mem_procList hp hc).length_le

theorem Registered.idle_notMem (h : s.Registered) : s.idleproc ∉ s.procList :=
  (List.nodup_cons.mp h.nodup).1

theorem Registered.ne_idle (h : s.Registered) (hp : p ∈ s.procList) : p ≠ s.idleproc :=
  fun heq => h.idle_notMem (heq ▸ hp)

theorem Registered.pid_inj (h : s.Registered) (hp : p ∈ s.procList) (hq : q ∈ s.procList)
    (heq : (s.procs p).pid = (s.procs q).pid)
    : p = q :=
  List.inj_on_of_nodup_map h.pids_nodup hp hq heq

/--
`find_proc` finds the process with the pid and no other.
-/
theorem Registered.findProc_eq_some_iff (h : s.Registered) {pid : Int}
    : s.findProc pid = some p ↔ p ∈ s.procList ∧ (s.procs p).pid = pid := by
  unfold findProc
  constructor
  . intro hfind
    split at hfind
    . have hmem := List.mem_of_find?_eq_some hfind
      have hpid := List.find?_some hfind
      exact ⟨((h.mem_hash _ p).mp hmem).1, by simpa using hpid⟩
    . contradiction
  . intro ⟨hmem, hpid⟩
    have hvalid := h.validPid pid (hpid ▸ List.mem_map_of_mem hmem)
    have hin : p ∈ s.hashList (pidHashfn pid) := (h.mem_hash _ p).mpr ⟨hmem, by rw [hpid]⟩
    rw [if_pos ⟨by have := hvalid.1; omega, hvalid.2⟩]
    cases hfind : (s.hashList (pidHashfn pid)).find? fun proc => (s.procs proc).pid = pid with
    | none =>
      have := List.find?_eq_none.mp hfind p hin
      simp [hpid] at this
    | some q =>
      have hq := List.mem_of_find?_eq_some hfind
      have hqpid := List.find?_some hfind
      rw [h.pid_inj ((h.mem_hash _ q).mp hq).1 hmem (by rw [hpid]; simpa using hqpid)]

theorem Registered.findProc_eq_none_iff (h : s.Registered) {pid : Int}
    : s.findProc pid = none ↔ ∀ p ∈ s.procList, (s.procs p).pid ≠ pid := by
  constructor
  . intro hnone p hp hpid
    have := h.findProc_eq_some_iff.mpr ⟨hp, hpid⟩
    simp [hnone] at this
  . intro hall
    cases hfind : s.findProc pid with
    | none => rfl
    | some p =>
      obtain ⟨hp, hpid⟩ := h.findProc_eq_some_iff.mp hfind
      exact absurd hpid (hall p hp)

end Facts

end ProcTable
end Ucore

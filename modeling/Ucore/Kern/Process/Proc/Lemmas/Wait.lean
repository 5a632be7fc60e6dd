import Ucore.Kern.Process.Proc.Lemmas.Family

/-!
This module contains what `do_wait` finds and that freeing a child keeps the invariants.
-/

namespace Ucore

open Siblings

namespace ProcTable

variable {s : ProcTable} {kids : Nat → List Nat} {proc parent : Nat} {pid : Int}

/--
The loop of `do_wait` stops at the first zombie among the children.
-/
theorem findZombie_eq {before : Option Nat} {xs : List Nat} (h : Chain s.links before xs) {fuel : Nat}
    (hfuel : xs.length < fuel) (haskid : Bool)
    : s.findZombie fuel xs.head? haskid =
        match xs.find? fun c => (s.procs c).state = .zombie with
        | some c => some (true, some c)
        | none => some (haskid || !xs.isEmpty, none) := by
  induction fuel generalizing before xs haskid with
  | zero => omega
  | succ fuel ih =>
    cases xs with
    | nil => simp [findZombie]
    | cons c xs =>
      obtain ⟨-, hnext, hrest⟩ := h
      rw [List.head?_cons, findZombie, List.find?_cons]
      by_cases hz : (s.procs c).state = .zombie
      . simp [hz]
      . have hoptr : (s.procs c).optr = xs.head? := hnext
        simp only [hz, if_false, decide_false, hoptr]
        rw [ih hrest (by simpa using hfuel) true]
        simp

/--
Whether `do_wait` with this argument waits for a child with that pid.
-/
def WaitsFor (pid childPid : Int) : Prop := pid = 0 ∨ childPid = pid

/--
The scan of `do_wait` finds a zombie that the caller waits for if there is one.
-/
theorem waitScan_spec (hfam : s.Family kids) (hreg : s.Registered) (hcur : s.current ∈ s.all)
    : ∃ haskid found, s.waitScan pid = some (haskid, found) ∧
        (∀ c, found = some c → c ∈ s.procList ∧ (s.procs c).parent = some s.current ∧
          (s.procs c).state = .zombie ∧ WaitsFor pid (s.procs c).pid) ∧
        (found = none → ∀ c ∈ s.procList, (s.procs c).parent = some s.current →
          (s.procs c).state = .zombie → ¬WaitsFor pid (s.procs c).pid) := by
  unfold waitScan WaitsFor
  by_cases hpid : pid ≠ 0
  . rw [if_pos hpid]
    cases hfind : s.findProc pid with
    | none =>
      refine ⟨false, none, rfl, by simp, ?_⟩
      intro _ c hc _ _
      have := hreg.findProc_eq_none_iff.mp hfind c hc
      simp [hpid, this]
    | some proc =>
      obtain ⟨hproc, hprocPid⟩ := hreg.findProc_eq_some_iff.mp hfind
      have honly : ∀ c ∈ s.procList, (s.procs c).pid = pid → c = proc :=
        fun c hc h => hreg.pid_inj hc hproc (by rw [h, hprocPid])
      by_cases hparent : (s.procs proc).parent = some s.current
      . simp only [hparent, if_true]
        by_cases hz : (s.procs proc).state = .zombie
        . exact ⟨true, some proc, by simp [hz], by simp_all, by simp⟩
        . refine ⟨true, none, by simp [hz], by simp, ?_⟩
          intro _ c hc _ hcz h
          have := honly c hc (h.resolve_left hpid)
          simp_all
      . simp only [hparent, if_false]
        refine ⟨false, none, rfl, by simp, ?_⟩
        intro _ c hc hcp _ h
        have := honly c hc (h.resolve_left hpid)
        simp_all
  . rw [if_neg hpid]
    have hzero : pid = 0 := by simpa using hpid
    have hchildren := hfam.children _ hcur
    have hmem := hfam.mem_kids _ hcur
    have hfirst : (s.procs s.current).cptr = (kids s.current).head? := hchildren.first
    have hscan := findZombie_eq hchildren.chain
      (Nat.lt_succ_of_le (hfam.length_kids_le hcur)) false
    rw [hfirst, siblingFuel, hscan]
    cases hfind : (kids s.current).find? fun c => (s.procs c).state = .zombie with
    | none =>
      refine ⟨_, none, rfl, by simp, ?_⟩
      intro _ c hc hparent hz
      have := List.find?_eq_none.mp hfind c ((hmem c).mpr ⟨hc, hparent⟩)
      simp [hz] at this
    | some c =>
      obtain ⟨hc, hparent⟩ := (hmem c).mp (List.mem_of_find?_eq_some hfind)
      have hz := List.find?_some hfind
      refine ⟨true, some c, rfl, ?_, by simp⟩
      intro c' h
      rw [Option.some_inj] at h
      subst h
      exact ⟨hc, hparent, by simpa using hz, .inl hzero⟩

/--
The table behind the part of `do_wait` that frees `proc`.
-/
def reaped (s : ProcTable) (parent proc : Nat) : ProcTable :=
  { s.relink (s.links.unlink parent proc) with
    procList := s.procList.erase proc
    hashList := fun i => (s.hashList i).erase proc
    nrProcess := s.nrProcess - 1
    allocated := Function.update s.allocated proc false }

theorem reap_eq (hfam : s.Family kids) (hreg : s.Registered) (hmem : parent ∈ s.all)
    (hproc : proc ∈ s.procList) (hparent : (s.procs proc).parent = some parent)
    (hinit : proc ≠ s.initproc)
    : s.reap proc = some ((s.procs proc).exitCode, s.reaped parent proc) := by
  have hkid : proc ∈ kids parent := (hfam.mem_kids _ hmem _).mpr ⟨hproc, hparent⟩
  have hchildren := hfam.children _ hmem
  obtain ⟨pre, post, hsplit⟩ := List.append_of_mem hkid
  rw [hsplit] at hchildren
  have hnext : s.links.next proc ≠ some proc := by
    rw [hchildren.chain.next_mid]
    intro h
    have hnodup := hchildren.nodup
    have := List.mem_of_head? h
    grind
  have hremove := @removeLinks_eq (s.unhashProc proc) proc parent hparent hnext
  unfold reap
  rw [if_neg (by simp [hreg.ne_idle hproc, hinit]), hremove]
  rfl

theorem mem_reaped_all (hreg : s.Registered) (hproc : proc ∈ s.procList) {x : Nat}
    : x ∈ (s.reaped parent proc).all ↔ x ∈ s.all ∧ x ≠ proc := by
  have hnodup := (List.nodup_cons.mp hreg.nodup).2
  have hne := hreg.ne_idle hproc
  simp only [all, reaped, relink, List.mem_cons, hnodup.mem_erase_iff]
  grind

theorem reaped_family (hfam : s.Family kids) (hreg : s.Registered) (hmem : parent ∈ s.all)
    (hproc : proc ∈ s.procList) (hparent : (s.procs proc).parent = some parent)
    (hz : (s.procs proc).state = .zombie)
    : (s.reaped parent proc).Family (Function.update kids parent ((kids parent).erase proc)) := by
  have hkid : proc ∈ kids parent := (hfam.mem_kids _ hmem _).mpr ⟨hproc, hparent⟩
  have hchildren := hfam.children _ hmem
  obtain ⟨pre, post, hsplit⟩ := List.append_of_mem hkid
  rw [hsplit] at hchildren
  have hnodup := (List.nodup_cons.mp hreg.nodup).2
  have herase : (kids parent).erase proc = pre ++ post := by
    rw [hsplit, List.erase_append_right _ (by have := hchildren.nodup; grind), List.erase_cons_head]
  have hlist : ∀ x, x ∈ (s.reaped parent proc).procList ↔ x ≠ proc ∧ x ∈ s.procList :=
    fun x => hnodup.mem_erase_iff
  have hlinks : (s.reaped parent proc).links = s.links.unlink parent proc := rfl
  have hparents : ∀ x, ((s.reaped parent proc).procs x).parent = (s.procs x).parent := fun _ => rfl
  constructor
  . intro p hp
    have hp' := ((mem_reaped_all hreg hproc).mp hp).1
    rw [hlinks]
    by_cases hpp : p = parent
    . subst hpp
      rw [Function.update_self, herase]
      exact hchildren.unlink
    . rw [Function.update_of_ne hpp]
      apply (hfam.children p hp').unlink_other hchildren hpp
      intro x hx
      rw [← hsplit]
      exact hfam.disjoint hp' hmem hpp hx
  . intro p hp c
    have hp' := ((mem_reaped_all hreg hproc).mp hp).1
    rw [hlist, hparents]
    by_cases hpp : p = parent
    . subst hpp
      rw [Function.update_self, (hfam.children _ hmem).nodup.mem_erase_iff, hfam.mem_kids _ hmem]
      tauto
    . rw [Function.update_of_ne hpp, hfam.mem_kids p hp']
      constructor
      . intro ⟨hc, hcp⟩
        refine ⟨⟨?_, hc⟩, hcp⟩
        intro heq
        subst heq
        rw [hparent, Option.some_inj] at hcp
        exact hpp hcp.symm
      . intro ⟨⟨_, hc⟩, hcp⟩
        exact ⟨hc, hcp⟩
  . intro c hc
    obtain ⟨p, hp, hcp, halive⟩ := hfam.parent c ((hlist c).mp hc).2
    have hne : p ≠ proc := fun h => halive (h ▸ hz)
    exact ⟨p, (mem_reaped_all hreg hproc).mpr ⟨hp, hne⟩, hcp, halive⟩
  . intro c hc
    exact hfam.irrefl c ((hlist c).mp hc).2
  . have hidle : (s.reaped parent proc).idleproc = s.idleproc := rfl
    have hnot : s.idleproc ∉ pre ++ proc :: post := by
      rw [← hsplit]
      exact fun h => hreg.idle_notMem (hfam.mem_procList hmem h)
    obtain ⟨h₁, h₂, h₃⟩ := hfam.root
    have hprev : s.links.prev proc ≠ some s.idleproc := by
      rw [hchildren.chain.prev_mid, Option.or_none]
      intro h
      exact hnot (List.mem_append_left _ (List.mem_of_getLast? h))
    have hnext : s.links.next proc ≠ some s.idleproc := by
      rw [hchildren.chain.next_mid]
      intro h
      exact hnot (List.mem_append_right _ (List.mem_cons_of_mem _ (List.mem_of_head? h)))
    rw [hidle, hlinks]
    exact ⟨h₁, by simp [Links.unlink, hprev, h₂], by simp [Links.unlink, hnext, h₃]⟩

theorem reaped_registered (hreg : s.Registered) (hproc : proc ∈ s.procList)
    : (s.reaped parent proc).Registered := by
  have hnodup := (List.nodup_cons.mp hreg.nodup).2
  have hlist : ∀ x, x ∈ (s.reaped parent proc).procList ↔ x ≠ proc ∧ x ∈ s.procList :=
    fun x => hnodup.mem_erase_iff
  have hpids : ∀ x, ((s.reaped parent proc).procs x).pid = (s.procs x).pid := fun _ => rfl
  have hsub : (s.reaped parent proc).pids.Sublist s.pids :=
    List.erase_sublist.map _
  constructor
  . have : (s.idleproc :: s.procList.erase proc).Sublist s.all :=
      List.erase_sublist.cons_cons _
    exact this.nodup hreg.nodup
  . intro p
    rw [mem_reaped_all hreg hproc, ← hreg.allocated]
    by_cases hp : p = proc <;> simp [reaped, hp]
  . have := hreg.nrProcess
    have hlen := List.length_erase_of_mem hproc
    have hpos := List.length_pos_of_mem hproc
    simp only [reaped]
    omega
  . intro i
    exact (hreg.hash_nodup i).erase _
  . intro i p
    have hmem : p ∈ (s.reaped parent proc).hashList i ↔ p ≠ proc ∧ p ∈ s.hashList i :=
      (hreg.hash_nodup i).mem_erase_iff
    rw [hmem, hlist, hpids, hreg.mem_hash]
    tauto
  . exact hsub.nodup hreg.pids_nodup
  . exact fun p hp => hreg.validPid p (hsub.subset hp)
  . exact ⟨hreg.cached.lastPid_nonneg, hreg.cached.nextSafe_le,
      fun p hp => hreg.cached.unused p (hsub.subset hp)⟩

end ProcTable
end Ucore

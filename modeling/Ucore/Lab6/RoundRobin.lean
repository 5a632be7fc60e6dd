import Mathlib
import Ucore.Kern.Process.Proc.Impl
import Ucore.Lib.Run
import Ucore.Libs.List

/-!
This module contains the round robin scheduler of lab6 (kern/schedule/default_sched_c.c) under kern/schedule/sched.c and
the timer interrupt of kern/trap/trap.c: no assertion fails, and every process that can run has its turn in time.
-/

namespace Ucore

open CircularList

def listDelInit {α : Type} [DecidableEq α] (l : Links α) (listelm : α) : Links α := listInit (listDel l listelm) listelm

/--
The fields of `struct proc_struct` that the scheduler of lab6 reads and writes. `rq` says that the pointer to the run
queue is set. The `int` of the time slice is never decremented below zero.
-/
structure RrProc where
  state : ProcState
  waitState : BitVec 32
  runs : Nat
  needResched : Bool
  rq : Bool
  timeSlice : Int

/--
The run queue, whose list has the node `none` for `run_list` and the node `some proc` for the `run_link` of a process.
-/
structure RrSched where
  procs : Nat → RrProc
  links : Links (Option Nat)
  procNum : Nat
  current : Nat
  idleproc : Nat

inductive RrEvent where
  | tick (inKernel : Bool)
  | schedule
  | leave (state : ProcState)
  | wakeup (proc : Nat)
  deriving DecidableEq

/--
The number of ticks in user mode in an event.
-/
def RrEvent.ticks (e : RrEvent) : Nat := if e = .tick false then 1 else 0

namespace RrSched

abbrev maxTimeSlice : Int := 5

def modify (s : RrSched) (proc : Nat) (f : RrProc → RrProc) : RrSched :=
  { s with procs := Function.update s.procs proc (f (s.procs proc)) }

def rrEnqueue (s : RrSched) (proc : Nat) : Option RrSched :=
  if listEmpty s.links (some proc) then
    let s := { s with links := listAddBefore s.links none (some proc), procNum := s.procNum + 1 }
    some (s.modify proc fun p =>
      { p with
        timeSlice := if p.timeSlice = 0 ∨ p.timeSlice > maxTimeSlice then maxTimeSlice else p.timeSlice
        rq := true })
  else
    none

def rrDequeue (s : RrSched) (proc : Nat) : Option RrSched :=
  if ¬listEmpty s.links (some proc) ∧ (s.procs proc).rq then
    some { s with links := listDelInit s.links (some proc), procNum := s.procNum - 1 }
  else
    none

/--
`NULL` for an empty queue.
-/
def rrPickNext (s : RrSched) : Option Nat := listNext s.links none

def rrProcTick (s : RrSched) (proc : Nat) : RrSched :=
  let s := s.modify proc fun p => if p.timeSlice > 0 then { p with timeSlice := p.timeSlice - 1 } else p
  s.modify proc fun p => if p.timeSlice = 0 then { p with needResched := true } else p

def schedClassEnqueue (s : RrSched) (proc : Nat) : Option RrSched :=
  if proc ≠ s.idleproc then s.rrEnqueue proc else some s

def schedClassProcTick (s : RrSched) (proc : Nat) : RrSched :=
  if proc ≠ s.idleproc then s.rrProcTick proc else s.modify proc fun p => { p with needResched := true }

def wakeupProc (s : RrSched) (proc : Nat) : Option RrSched :=
  if (s.procs proc).state = .zombie then
    none
  else if (s.procs proc).state ≠ .runnable then
    let s := s.modify proc fun p => { p with state := .runnable, waitState := 0 }
    if proc ≠ s.current then s.schedClassEnqueue proc else some s
  else
    some s

/--
The part of `schedule` behind the choice of the next process, which `proc_run` makes the current one.
-/
def run (s : RrSched) (next : Nat) : RrSched :=
  { s.modify next fun p => { p with runs := p.runs + 1 } with current := next }

def schedule (s : RrSched) : Option RrSched :=
  let s := s.modify s.current fun p => { p with needResched := false }
  (if (s.procs s.current).state = .runnable then s.schedClassEnqueue s.current else some s).bind fun s =>
    match s.rrPickNext with
    | none => some (s.run s.idleproc)
    | some next => (s.rrDequeue next).map fun s => s.run next

/--
The timer interrupt. On the way back to user mode `trap` calls `schedule` if that is needed.
-/
def timerTrap (s : RrSched) (inKernel : Bool) : Option RrSched :=
  let s := s.schedClassProcTick s.current
  if !inKernel ∧ (s.procs s.current).needResched then s.schedule else some s

/--
`leave` is a process that goes to sleep or exits, which calls `schedule` with its new state.
-/
def step (s : RrSched) : RrEvent → Option RrSched
  | .tick inKernel => s.timerTrap inKernel
  | .schedule => s.schedule
  | .leave state => (s.modify s.current fun p => { p with state }).schedule
  | .wakeup proc => s.wakeupProc proc

/--
`idleproc` does not sleep, and nobody wakes up what has exited.
-/
def Legal (s : RrSched) : RrEvent → Prop
  | .leave state => s.current ≠ s.idleproc ∧ state ≠ .runnable
  | .wakeup proc => (s.procs proc).state ≠ .zombie
  | _ => True

instance (s : RrSched) : (e : RrEvent) → Decidable (s.Legal e)
  | .leave _ => inferInstanceAs (Decidable (_ ∧ _))
  | .wakeup _ => inferInstanceAs (Decidable (_ ≠ _))
  | .tick _ | .schedule => isTrue trivial

/--
The scheduler behind `sched_init`, with processes that have been allocated and not been woken up.
-/
structure Start (s : RrSched) : Prop where
  current : s.current = s.idleproc
  idle : (s.procs s.idleproc).state = .runnable
  others : ∀ p, p ≠ s.idleproc → (s.procs p).state ≠ .runnable
  links : ∀ n, s.links.next n = n ∧ s.links.prev n = n
  procNum : s.procNum = 0
  timeSlice : ∀ p, 0 ≤ (s.procs p).timeSlice

/--
Process `p` is in the run queue behind `k` others.
-/
def Waiting (s : RrSched) (p k : Nat) : Prop :=
  ∃ l r : List Nat, IsRing s.links none ((l ++ p :: r).map some) ∧ l.length = k

/--
The ticks of a run that come in user mode.
-/
def userTicks (evs : List RrEvent) : Nat := evs.count (.tick false)

/--
Every process that can run is the current one, `idleproc` or in the run queue.
-/
def NoneLost (s : RrSched) : Prop :=
  ∀ p, (s.procs p).state = .runnable → p = s.current ∨ p = s.idleproc ∨ ∃ k < s.procNum, s.Waiting p k

/--
A process with `k` others in front of it has its turn within `k + 1` full time slices.
-/
def Fair (s : RrSched) : Prop :=
  ∀ p k, s.Waiting p k → ∀ evs, Run.Admits step Legal s evs → maxTimeSlice.toNat * (k + 1) ≤ userTicks evs →
    ∃ front back, evs = front ++ back ∧ ∃ t, Run.exec step s front = some t ∧ t.current = p

variable {s t u : RrSched} {p k : Nat} {q : List Nat} {e : RrEvent}

/--
The queue has the processes `q`.
-/
structure Queued (s : RrSched) (q : List Nat) : Prop where
  ring : IsRing s.links none (q.map some)
  alone : ∀ p ∉ q, s.links.next (some p) = some p ∧ s.links.prev (some p) = some p
  procNum : s.procNum = q.length
  rq : ∀ p ∈ q, (s.procs p).rq = true
  runnable : ∀ p ∈ q, (s.procs p).state = .runnable
  slice : ∀ p ∈ q, 0 < (s.procs p).timeSlice ∧ (s.procs p).timeSlice ≤ maxTimeSlice
  slice_nonneg : ∀ p, 0 ≤ (s.procs p).timeSlice
  idle : s.idleproc ∉ q ∧ (s.procs s.idleproc).state = .runnable

/--
What holds between two events.
-/
structure Inv (s : RrSched) (q : List Nat) : Prop extends Queued s q where
  current : s.current ∉ q ∧ (s.procs s.current).state = .runnable
  mem : ∀ p, (s.procs p).state = .runnable → p ∈ q ∨ p = s.current ∨ p = s.idleproc
  currentSlice : s.current ≠ s.idleproc → (s.procs s.current).timeSlice ≤ maxTimeSlice ∧
    ((s.procs s.current).timeSlice = 0 → (s.procs s.current).needResched = true)

theorem nodup_of_ring (h : IsRing s.links none (q.map some)) : q.Nodup :=
  List.Nodup.of_map some (List.nodup_cons.mp h.nodup).2

@[simp]
theorem modify_links (s : RrSched) (p : Nat) (f : RrProc → RrProc) : (s.modify p f).links = s.links := rfl

@[simp]
theorem modify_current (s : RrSched) (p : Nat) (f : RrProc → RrProc) : (s.modify p f).current = s.current := rfl

@[simp]
theorem modify_idleproc (s : RrSched) (p : Nat) (f : RrProc → RrProc) : (s.modify p f).idleproc = s.idleproc := rfl

@[simp]
theorem modify_procNum (s : RrSched) (p : Nat) (f : RrProc → RrProc) : (s.modify p f).procNum = s.procNum := rfl

@[simp]
theorem modify_self (s : RrSched) (p : Nat) (f : RrProc → RrProc) : (s.modify p f).procs p = f (s.procs p) :=
  Function.update_self ..

theorem modify_of_ne (s : RrSched) (f : RrProc → RrProc) {p x : Nat} (h : x ≠ p)
    : (s.modify p f).procs x = s.procs x :=
  Function.update_of_ne h ..

theorem listEmpty_of_queued (h : s.Queued q) : listEmpty s.links (some p) = true ↔ p ∉ q := by
  rw [listEmpty, decide_eq_true_iff]
  constructor
  . intro hself hp
    obtain ⟨l, r, rfl⟩ := List.append_of_mem hp
    have hring := h.ring
    rw [List.map_append, List.map_cons] at hring
    have hnext := hring.next_mid
    rw [hself] at hnext
    have hnodup := List.Nodup.of_append_right (List.nodup_cons.mp hring.nodup).2
    cases r with
    | nil => simp at hnext
    | cons x r =>
      simp only [List.map_cons, List.headD_cons, Option.some_inj] at hnext
      subst hnext
      exact (List.nodup_cons.mp hnodup).1 List.mem_cons_self
  . exact fun hp => (h.alone p hp).1

/--
Links that are the same at the nodes of a ring.
-/
theorem isRing_congr {α : Type} {l l' : Links α} {head : α} {xs : List α} (h : IsRing l head xs)
    (hnext : ∀ x ∈ head :: xs, l'.next x = l.next x) (hprev : ∀ x ∈ head :: xs, l'.prev x = l.prev x)
    : IsRing l' head xs := by
  refine ⟨h.nodup, isChain_adjacent_congr (fun x hx => hnext x ?_) (fun x hx => hprev x ?_) h.chain⟩
  . rwa [List.dropLast_concat] at hx
  . simp only [List.cons_append, List.tail_cons, List.mem_append, List.mem_singleton] at hx
    cases hx with
    | inl hx => exact List.mem_cons_of_mem _ hx
    | inr hx => exact hx ▸ List.mem_cons_self

theorem chain_unique {α : Type} {l : Links α} {head a : α} {xs ys : List α} (hx : head ∉ xs) (hy : head ∉ ys)
    (hxs : ((a :: xs) ++ [head]).IsChain l.Adjacent) (hys : ((a :: ys) ++ [head]).IsChain l.Adjacent)
    : xs = ys := by
  induction xs generalizing a ys with
  | nil =>
    cases ys with
    | nil => rfl
    | cons y ys =>
      simp only [List.cons_append, List.nil_append, List.isChain_cons_cons] at hxs hys
      exact absurd (hxs.1.1.symm.trans hys.1.1) fun heq => hy (heq ▸ List.mem_cons_self)
  | cons x xs ih =>
    cases ys with
    | nil =>
      simp only [List.cons_append, List.nil_append, List.isChain_cons_cons] at hxs hys
      exact absurd (hys.1.1.symm.trans hxs.1.1) fun heq => hx (heq ▸ List.mem_cons_self)
    | cons y ys =>
      simp only [List.cons_append, List.isChain_cons_cons] at hxs hys
      obtain rfl : x = y := hxs.1.1.symm.trans hys.1.1
      rw [ih (fun h => hx (List.mem_cons_of_mem _ h)) (fun h => hy (List.mem_cons_of_mem _ h)) hxs.2 hys.2]

/--
The links of a ring determine its nodes.
-/
theorem isRing_unique {α : Type} {l : Links α} {head : α} {xs ys : List α} (hx : IsRing l head xs)
    (hy : IsRing l head ys)
    : xs = ys :=
  chain_unique (List.nodup_cons.mp hx.nodup).1 (List.nodup_cons.mp hy.nodup).1 hx.chain hy.chain

/--
A process goes to the end of the queue, with a full slice if it has used up its own.
-/
theorem rrEnqueue_queued (h : s.Queued q) (hp : p ∉ q) (hidle : p ≠ s.idleproc)
    (hstate : (s.procs p).state = .runnable)
    : ∃ t, s.rrEnqueue p = some t ∧ t.Queued (q ++ [p]) ∧ t.current = s.current ∧ t.idleproc = s.idleproc ∧
        (∀ x, (t.procs x).state = (s.procs x).state) ∧ ∀ x, x ≠ p → t.procs x = s.procs x := by
  unfold rrEnqueue
  rw [if_pos ((listEmpty_of_queued h).mpr hp)]
  refine ⟨_, rfl, ?_, rfl, rfl, fun x => ?_, fun x hx => modify_of_ne _ _ hx⟩
  . have hring : IsRing s.links none (q.map some ++ []) := by
      rw [List.append_nil]
      exact h.ring
    have hnot : some p ∉ (none : Option Nat) :: (q.map some ++ []) := by
      simpa using hp
    have hprev : s.links.prev none ∈ none :: q.map some := by
      rw [h.ring.prev_head]
      exact List.getLastD_mem_cons
    constructor
    . rw [List.map_append]
      exact listAddBefore_isRing hring hnot
    . intro x hx
      rw [List.mem_append, List.mem_singleton, not_or] at hx
      obtain ⟨hnext, hprev'⟩ := h.alone x hx.1
      have hne : (some x : Option Nat) ≠ some p := fun heq => hx.2 (Option.some_inj.mp heq)
      have hlast : (some x : Option Nat) ≠ s.links.prev none := by
        intro heq
        rw [← heq] at hprev
        simp only [List.mem_cons, reduceCtorEq, List.mem_map, Option.some_inj, exists_eq_right, false_or] at hprev
        exact hx.1 hprev
      refine ⟨?_, ?_⟩
      . simp only [modify_links, listAddBefore, _listAdd, Links.insertBetween_next, if_neg hne, if_neg hlast, hnext]
      . simp only [modify_links, listAddBefore, _listAdd, Links.insertBetween_prev, if_neg hne, reduceCtorEq, if_false,
          hprev']
    . simp only [modify_procNum, List.length_append, List.length_singleton, h.procNum]
    . intro x hx
      by_cases hxp : x = p
      . rw [hxp, modify_self]
      . rw [modify_of_ne _ _ hxp]
        exact h.rq x ((List.mem_append.mp hx).resolve_right fun hx => hxp (List.mem_singleton.mp hx))
    . intro x hx
      by_cases hxp : x = p
      . rw [hxp, modify_self]
        exact hstate
      . rw [modify_of_ne _ _ hxp]
        exact h.runnable x ((List.mem_append.mp hx).resolve_right fun hx => hxp (List.mem_singleton.mp hx))
    . intro x hx
      by_cases hxp : x = p
      . have hnonneg := h.slice_nonneg p
        rw [hxp, modify_self]
        simp only [maxTimeSlice]
        split <;> omega
      . rw [modify_of_ne _ _ hxp]
        exact h.slice x ((List.mem_append.mp hx).resolve_right fun hx => hxp (List.mem_singleton.mp hx))
    . intro x
      by_cases hxp : x = p
      . have hnonneg := h.slice_nonneg p
        rw [hxp, modify_self]
        simp only [maxTimeSlice]
        split <;> omega
      . rw [modify_of_ne _ _ hxp]
        exact h.slice_nonneg x
    . rw [modify_idleproc, modify_of_ne _ _ (Ne.symm hidle)]
      refine ⟨fun hx => ?_, h.idle.2⟩
      cases List.mem_append.mp hx with
      | inl hx => exact h.idle.1 hx
      | inr hx => exact hidle (List.mem_singleton.mp hx).symm
  . by_cases hx : x = p
    . rw [hx, modify_self]
    . rw [modify_of_ne _ _ hx]

/--
The first process of the queue is taken out, and its node is a list of its own.
-/
theorem rrDequeue_queued (h : s.Queued (p :: q))
    : ∃ t, s.rrDequeue p = some t ∧ t.Queued q ∧ t.current = s.current ∧ t.idleproc = s.idleproc ∧
        t.procs = s.procs := by
  have hmem : p ∈ p :: q := List.mem_cons_self
  have hlinked : ¬listEmpty s.links (some p) = true := fun hempty => (listEmpty_of_queued h).mp hempty hmem
  unfold rrDequeue
  rw [if_pos ⟨by simpa using hlinked, h.rq p hmem⟩]
  refine ⟨_, rfl, ?_, rfl, rfl, rfl⟩
  have hnodup : (p :: q).Nodup := nodup_of_ring h.ring
  have hring : IsRing (listDel s.links (some p)) none (q.map some) := by
    have hfirst : IsRing s.links none ([] ++ some p :: q.map some) := by
      have := h.ring
      rwa [List.map_cons] at this
    exact listDel_isRing hfirst
  have hnot : some p ∉ (none : Option Nat) :: q.map some := by
    simpa using (List.nodup_cons.mp hnodup).1
  have hinit : ∀ x, x ≠ some p → (listDelInit s.links (some p)).next x = (listDel s.links (some p)).next x ∧
      (listDelInit s.links (some p)).prev x = (listDel s.links (some p)).prev x := by
    intro x hx
    simp only [listDelInit, listInit, Links.setNext, Links.setPrev, Function.update_of_ne hx, and_self]
  constructor
  . refine isRing_congr hring (fun x hx => (hinit x ?_).1) fun x hx => (hinit x ?_).2
    . exact fun heq => hnot (heq ▸ hx)
    . exact fun heq => hnot (heq ▸ hx)
  . intro x hx
    by_cases hxp : x = p
    . subst hxp
      simp only [listDelInit, listInit, Links.setNext, Links.setPrev, Function.update_self, and_self]
    . have hxq : x ∉ p :: q := by
        rw [List.mem_cons, not_or]
        exact ⟨hxp, hx⟩
      have hne : (some x : Option Nat) ≠ some p := fun heq => hxp (Option.some_inj.mp heq)
      obtain ⟨hnext, hprev⟩ := h.alone x hxq
      have hadj := h.ring.next_prev_eq (x := some p) (by simp)
      have hother : ∀ y, y = s.links.prev (some p) ∨ y = s.links.next (some p) → (some x : Option Nat) ≠ y := by
        rintro y hy rfl
        cases hy with
        | inl hy =>
          rw [← hy, hnext] at hadj
          exact hne hadj.1
        | inr hy =>
          rw [← hy, hprev] at hadj
          exact hne hadj.2
      rw [(hinit _ hne).1, (hinit _ hne).2, listDel, _listDel, Links.join_next, Links.join_prev,
        if_neg (hother _ (Or.inl rfl)), if_neg (hother _ (Or.inr rfl))]
      exact ⟨hnext, hprev⟩
  . rw [h.procNum, List.length_cons, Nat.add_sub_cancel]
  . exact fun x hx => h.rq x (List.mem_cons_of_mem _ hx)
  . exact fun x hx => h.runnable x (List.mem_cons_of_mem _ hx)
  . exact fun x hx => h.slice x (List.mem_cons_of_mem _ hx)
  . exact h.slice_nonneg
  . exact ⟨fun hx => h.idle.1 (List.mem_cons_of_mem _ hx), h.idle.2⟩

/--
What `schedule` needs: everything that can run is in the queue, current or `idleproc`.
-/
structure Settled (s : RrSched) (q : List Nat) : Prop extends Queued s q where
  current : s.current ∉ q
  mem : ∀ p, (s.procs p).state = .runnable → p ∈ q ∨ p = s.current ∨ p = s.idleproc

/--
The queue behind the first part of `schedule`.
-/
def putBack (s : RrSched) (q : List Nat) : List Nat :=
  if (s.procs s.current).state = .runnable ∧ s.current ≠ s.idleproc then q ++ [s.current] else q

/--
A change of a process outside the queue.
-/
theorem Queued.modify (h : s.Queued q) (hp : p ∉ q) {f : RrProc → RrProc} (hslice : 0 ≤ (f (s.procs p)).timeSlice)
    (hstate : p = s.idleproc → (f (s.procs p)).state = .runnable)
    : (s.modify p f).Queued q := by
  have hne : ∀ x ∈ q, x ≠ p := fun x hx heq => hp (heq ▸ hx)
  refine ⟨h.ring, h.alone, h.procNum, fun x hx => ?_, fun x hx => ?_, fun x hx => ?_, fun x => ?_, h.idle.1, ?_⟩
  . rw [modify_of_ne _ _ (hne x hx)]
    exact h.rq x hx
  . rw [modify_of_ne _ _ (hne x hx)]
    exact h.runnable x hx
  . rw [modify_of_ne _ _ (hne x hx)]
    exact h.slice x hx
  . by_cases hx : x = p
    . rw [hx, modify_self]
      exact hslice
    . rw [modify_of_ne _ _ hx]
      exact h.slice_nonneg x
  . rw [modify_idleproc]
    by_cases hidle : s.idleproc = p
    . rw [hidle, modify_self]
      exact hstate hidle.symm
    . rw [modify_of_ne _ _ hidle]
      exact h.idle.2

theorem Settled.modify_current (h : s.Settled q) {f : RrProc → RrProc}
    (hslice : 0 ≤ (f (s.procs s.current)).timeSlice)
    (hstate : s.current = s.idleproc → (f (s.procs s.current)).state = .runnable)
    : (s.modify s.current f).Settled q := by
  refine ⟨h.toQueued.modify h.current hslice hstate, h.current, fun x hx => ?_⟩
  by_cases hxc : x = s.current
  . exact Or.inr (Or.inl hxc)
  . rw [modify_of_ne _ _ hxc] at hx
    exact h.mem x hx

theorem modify_state {f : RrProc → RrProc} (hf : (f (s.procs p)).state = (s.procs p).state) (x : Nat)
    : ((s.modify p f).procs x).state = (s.procs x).state := by
  by_cases hx : x = p
  . rw [hx, modify_self, hf]
  . rw [modify_of_ne _ _ hx]

/--
The first part of `schedule`: the current process is put back, after which all that can run is in the queue.
-/
theorem Settled.enqueueCurrent (h : s.Settled q)
    : ∃ t, (if (s.procs s.current).state = .runnable then s.schedClassEnqueue s.current else some s) = some t ∧
        t.Queued (s.putBack q) ∧ t.idleproc = s.idleproc ∧
        ∀ x, (t.procs x).state = .runnable → x ∈ s.putBack q ∨ x = s.idleproc := by
  unfold putBack
  by_cases hback : (s.procs s.current).state = .runnable ∧ s.current ≠ s.idleproc
  . rw [if_pos hback.1, if_pos hback, schedClassEnqueue, if_pos hback.2]
    obtain ⟨t, ht, hq, -, hidle, hstate, -⟩ := rrEnqueue_queued h.toQueued h.current hback.2 hback.1
    refine ⟨t, ht, hq, hidle, fun x hx => ?_⟩
    rw [hstate] at hx
    rw [List.mem_append, List.mem_singleton]
    have hall := h.mem x hx
    tauto
  . have hstay : (if (s.procs s.current).state = .runnable then s.schedClassEnqueue s.current else some s) =
        some s := by
      split
      next hstate => rw [schedClassEnqueue, if_neg fun hne => hback ⟨hstate, hne⟩]
      next => rfl
    rw [if_neg hback]
    refine ⟨s, hstay, h.toQueued, rfl, fun x hx => ?_⟩
    rcases h.mem x hx with hxq | rfl | hxi
    . exact Or.inl hxq
    . exact Or.inr (not_not.mp fun hne => hback ⟨hx, hne⟩)
    . exact Or.inr hxi

/--
The last part of `schedule`: a process that can run, and is not in the queue, becomes the current one.
-/
theorem Queued.run (h : s.Queued q) (hp : p ∉ q) (hrun : (s.procs p).state = .runnable)
    (hslice : p ≠ s.idleproc → 0 < (s.procs p).timeSlice ∧ (s.procs p).timeSlice ≤ maxTimeSlice)
    (hmem : ∀ x, (s.procs x).state = .runnable → x ∈ q ∨ x = p ∨ x = s.idleproc)
    : (s.run p).Inv q := by
  have hm : (s.modify p fun proc => { proc with runs := proc.runs + 1 }).Queued q :=
    h.modify hp (h.slice_nonneg p) fun _ => hrun
  have hproc : (s.run p).procs p = { s.procs p with runs := (s.procs p).runs + 1 } := by
    simp only [RrSched.run, modify_self]
  refine ⟨⟨hm.ring, hm.alone, hm.procNum, hm.rq, hm.runnable, hm.slice, hm.slice_nonneg, hm.idle⟩, ⟨hp, ?_⟩,
    fun x hx => ?_, fun hne => ?_⟩
  . exact (congrArg RrProc.state hproc).trans hrun
  . simp only [RrSched.run] at hx
    rw [modify_state (by rfl)] at hx
    exact hmem x hx
  . have hpos := hslice hne
    have htime : ((s.run p).procs p).timeSlice = (s.procs p).timeSlice := by rw [hproc]
    refine ⟨htime.trans_le hpos.2, fun hzero => ?_⟩
    have hzero' : (s.procs p).timeSlice = 0 := htime.symm.trans hzero
    omega

/--
`schedule` makes the first process of the queue the current one.
-/
theorem schedule_inv (h : s.Settled q)
    : ∃ t, s.schedule = some t ∧ t.idleproc = s.idleproc ∧ t.current = (s.putBack q).headD s.idleproc ∧
        t.Inv (s.putBack q).tail := by
  generalize hs' : (s.modify s.current fun p => { p with needResched := false }) = s'
  have hsettled : s'.Settled q := hs' ▸ h.modify_current (h.slice_nonneg _) fun heq => heq ▸ h.idle.2
  have hcur : s'.current = s.current := hs' ▸ rfl
  have hidle : s'.idleproc = s.idleproc := hs' ▸ rfl
  have hsame : s'.putBack q = s.putBack q := by
    rw [putBack, putBack, hcur, hidle, ← hs', modify_state rfl]
  obtain ⟨u, hu, hq, huidle, hmem⟩ := hsettled.enqueueCurrent
  rw [hidle] at huidle
  rw [hidle, hsame] at hmem
  rw [hsame] at hq
  have hpick : u.rrPickNext = (s.putBack q).head? := by
    rw [rrPickNext, listNext, hq.ring.next_head]
    cases s.putBack q with
    | nil => rfl
    | cons x r => rfl
  unfold schedule
  simp only [hs', hu, Option.bind_some, hpick]
  generalize s.putBack q = q' at hq hmem
  cases q' with
  | nil =>
    refine ⟨_, rfl, huidle, huidle, hq.run List.not_mem_nil hq.idle.2 (fun hne => absurd rfl hne) fun x hx => ?_⟩
    exact Or.inr (Or.inr (((hmem x hx).resolve_left List.not_mem_nil).trans huidle.symm))
  | cons x r =>
    obtain ⟨v, hv, hvq, -, hvidle, hvprocs⟩ := rrDequeue_queued hq
    have hnodup := List.nodup_cons.mp (nodup_of_ring hq.ring)
    have hself : v.procs x = u.procs x := congrFun hvprocs x
    refine ⟨v.run x, ?_, hvidle.trans huidle, rfl, hvq.run hnodup.1 ?_ (fun _ => ?_) fun y hy => ?_⟩
    . simp only [List.head?_cons, hv, Option.map_some]
    . rw [hself]
      exact hq.runnable x List.mem_cons_self
    . rw [hself]
      exact hq.slice x List.mem_cons_self
    . rw [hvprocs] at hy
      rw [hvidle, huidle]
      have hin := hmem y hy
      rw [List.mem_cons] at hin
      tauto

/--
The ticks in user mode that are left until the current process has to leave.
-/
def budget (s : RrSched) : Nat := if s.current = s.idleproc then 1 else max (s.procs s.current).timeSlice.toNat 1

/--
An event without a call of `schedule`: processes may come to the end of the queue.
-/
structure Stays (s t : RrSched) (q q' : List Nat) (ticks : Nat) : Prop where
  queue : ∃ new, q' = q ++ new
  current : t.current = s.current
  budget : t.budget + ticks ≤ s.budget

/--
An event with a call of `schedule`.
-/
structure Switches (s t : RrSched) (q q' : List Nat) : Prop where
  queue : ∃ new, t.current = (q ++ new).headD s.idleproc ∧ q' = (q ++ new).tail
  budget : t.budget ≤ maxTimeSlice.toNat

theorem budget_pos (s : RrSched) : 1 ≤ s.budget := by
  unfold budget
  split
  . exact Nat.le_refl 1
  . exact Nat.le_max_right _ _

theorem Inv.budget_le (h : s.Inv q) : s.budget ≤ maxTimeSlice.toNat := by
  unfold budget
  split
  . decide
  next hne =>
    have hle := (h.currentSlice hne).1
    simp only [maxTimeSlice] at hle ⊢
    omega

theorem Settled.switches (h : s.Settled q) : ∃ t q', s.schedule = some t ∧ t.idleproc = s.idleproc ∧ t.Inv q' ∧
    Switches s t q q' := by
  obtain ⟨t, ht, hidle, hcur, hinv⟩ := schedule_inv h
  refine ⟨t, _, ht, hidle, hinv, ⟨?_, hinv.budget_le⟩⟩
  unfold putBack at hcur ⊢
  split at hcur
  next hback =>
    rw [if_pos hback]
    exact ⟨[s.current], hcur, rfl⟩
  next hback =>
    rw [if_neg hback]
    exact ⟨[], by rwa [List.append_nil], by rw [List.append_nil]⟩

theorem Inv.settled (h : s.Inv q) : s.Settled q := ⟨h.toQueued, h.current.1, h.mem⟩

/--
What a tick does to the current process.
-/
def tickProc (p : RrProc) : RrProc :=
  let p := if p.timeSlice > 0 then { p with timeSlice := p.timeSlice - 1 } else p
  if p.timeSlice = 0 then { p with needResched := true } else p

theorem rrProcTick_eq (s : RrSched) (p : Nat) : s.rrProcTick p = s.modify p tickProc := by
  simp only [rrProcTick, RrSched.modify, Function.update_self, Function.update_idem]
  rfl

theorem tickProc_spec (p : RrProc) (h : 0 ≤ p.timeSlice)
    : (tickProc p).state = p.state ∧ (tickProc p).timeSlice = max (p.timeSlice - 1) 0 ∧
        ((tickProc p).timeSlice = 0 → (tickProc p).needResched = true) := by
  unfold tickProc
  by_cases hpos : p.timeSlice > 0
  . simp only [if_pos hpos]
    split
    next hzero => exact ⟨rfl, by simp only; omega, fun _ => rfl⟩
    next hzero => exact ⟨rfl, by simp only; omega, fun h => absurd h hzero⟩
  . simp only [if_neg hpos]
    rw [if_pos (by omega)]
    exact ⟨rfl, by simp only; omega, fun _ => rfl⟩

/--
What the class does at a tick keeps the invariant, and marks a process that has no time left.
-/
theorem Inv.schedClassProcTick (h : s.Inv q) (ht : s.schedClassProcTick s.current = t)
    : t.Inv q ∧ t.idleproc = s.idleproc ∧ t.current = s.current ∧
        (s.current = s.idleproc → (t.procs s.current).needResched = true) ∧
        (s.current ≠ s.idleproc → (t.procs s.current).timeSlice = max ((s.procs s.current).timeSlice - 1) 0) := by
  have hnonneg := h.slice_nonneg s.current
  subst ht
  unfold RrSched.schedClassProcTick
  by_cases hne : s.current ≠ s.idleproc
  . obtain ⟨hstate, hslice, hresched⟩ := tickProc_spec (s.procs s.current) hnonneg
    rw [if_pos hne, rrProcTick_eq]
    have hsettled := h.settled.modify_current (f := tickProc) (by rw [hslice]; omega) fun heq => absurd heq hne
    refine ⟨⟨hsettled.toQueued, ⟨hsettled.current, ?_⟩, hsettled.mem, fun _ => ?_⟩, rfl, rfl,
      fun heq => absurd heq hne, fun _ => ?_⟩
    . rw [RrSched.modify_current, modify_self, hstate]
      exact h.current.2
    . rw [RrSched.modify_current, modify_self]
      have hle := (h.currentSlice hne).1
      refine ⟨?_, hresched⟩
      rw [hslice]
      simp only [maxTimeSlice] at hle ⊢
      omega
    . rw [modify_self, hslice]
  . rw [if_neg hne]
    have hidle := not_not.mp hne
    have hsettled := h.settled.modify_current (f := fun p => { p with needResched := true }) hnonneg
      fun _ => h.current.2
    refine ⟨⟨hsettled.toQueued, ⟨hsettled.current, ?_⟩, hsettled.mem, fun hne' => absurd hidle hne'⟩, rfl, rfl,
      fun _ => ?_, fun hne' => absurd hidle hne'⟩
    . rw [RrSched.modify_current, modify_self]
      exact h.current.2
    . rw [modify_self]

theorem Inv.tick (h : s.Inv q) (inKernel : Bool)
    : ∃ t q', s.timerTrap inKernel = some t ∧ t.idleproc = s.idleproc ∧ t.Inv q' ∧
        (Stays s t q q' (RrEvent.ticks (.tick inKernel)) ∨ Switches s t q q') := by
  generalize hs' : s.schedClassProcTick s.current = s'
  obtain ⟨hinv, hidle, hcur, hmark, hslice⟩ := h.schedClassProcTick hs'
  unfold timerTrap
  simp only [hs']
  rw [hcur]
  by_cases hsched : (!inKernel) = true ∧ (s'.procs s.current).needResched = true
  . rw [if_pos hsched]
    obtain ⟨t, q', ht, htidle, htinv, hqueue, hbudget⟩ := hinv.settled.switches
    refine ⟨t, q', ht, htidle.trans hidle, htinv, Or.inr ⟨?_, hbudget⟩⟩
    rwa [hidle] at hqueue
  . rw [if_neg hsched]
    refine ⟨s', q, rfl, hidle, hinv, Or.inl ⟨⟨[], (List.append_nil q).symm⟩, hcur, ?_⟩⟩
    have hbudget : s'.budget = if s.current = s.idleproc then 1 else max (s'.procs s.current).timeSlice.toNat 1 := by
      rw [budget, hcur, hidle]
    rw [hbudget, budget]
    by_cases hne : s.current = s.idleproc
    . rw [if_pos hne, if_pos hne]
      cases inKernel with
      | false => exact absurd ⟨rfl, hmark hne⟩ hsched
      | true => exact Nat.le_refl 1
    . rw [if_neg hne, if_neg hne, hslice hne]
      cases inKernel with
      | false =>
        have hnot : (s'.procs s.current).timeSlice ≠ 0 := by
          intro hzero
          have hmark' := (hinv.currentSlice (by rwa [hcur, hidle])).2
          rw [hcur] at hmark'
          exact hsched ⟨rfl, hmark' hzero⟩
        rw [hslice hne] at hnot
        have hticks : RrEvent.ticks (.tick false) = 1 := rfl
        rw [hticks]
        omega
      | true =>
        have hticks : RrEvent.ticks (.tick true) = 0 := rfl
        rw [hticks]
        omega

theorem Inv.wakeup (h : s.Inv q) (hzombie : (s.procs p).state ≠ .zombie)
    : ∃ t q', s.wakeupProc p = some t ∧ t.idleproc = s.idleproc ∧ t.Inv q' ∧ Stays s t q q' 0 := by
  unfold wakeupProc
  rw [if_neg hzombie]
  by_cases hrun : (s.procs p).state ≠ .runnable
  . have hcur : p ≠ s.current := fun heq => hrun (heq ▸ h.current.2)
    have hidle : p ≠ s.idleproc := fun heq => hrun (heq ▸ h.idle.2)
    have hp : p ∉ q := fun hp => hrun (h.runnable p hp)
    generalize hs' : (s.modify p fun p => { p with state := .runnable, waitState := 0 }) = s'
    have hs'cur : s'.current = s.current := hs' ▸ rfl
    have hs'idle : s'.idleproc = s.idleproc := hs' ▸ rfl
    have hself : (s'.procs p).state = .runnable := by
      rw [← hs', modify_self]
    have hother : ∀ x, x ≠ p → s'.procs x = s.procs x := by
      intro x hx
      rw [← hs', modify_of_ne _ _ hx]
    have hqueued : s'.Queued q := hs' ▸ h.toQueued.modify hp (h.slice_nonneg p) fun _ => rfl
    obtain ⟨t, ht, htq, htcur, htidle, htstate, htother⟩ := rrEnqueue_queued hqueued hp (hs'idle ▸ hidle) hself
    have hcurrent : t.procs t.current = s.procs s.current := by
      rw [htcur, hs'cur, htother _ (Ne.symm hcur), hother _ (Ne.symm hcur)]
    refine ⟨t, q ++ [p], ?_, htidle.trans hs'idle, ⟨htq, ⟨?_, ?_⟩, fun x hx => ?_, fun hne => ?_⟩,
      ⟨[p], rfl⟩, htcur.trans hs'cur, ?_⟩
    . simp only [if_pos hrun, hs'cur, ne_eq, hcur, not_false_eq_true, if_true, schedClassEnqueue, hs'idle, hidle]
      exact ht
    . rw [htcur, hs'cur, List.mem_append, List.mem_singleton, not_or]
      exact ⟨h.current.1, Ne.symm hcur⟩
    . rw [hcurrent]
      exact h.current.2
    . rw [htstate] at hx
      by_cases hxp : x = p
      . exact Or.inl (List.mem_append.mpr (Or.inr (List.mem_singleton.mpr hxp)))
      . rw [hother x hxp] at hx
        rw [htcur, hs'cur, htidle, hs'idle]
        exact (h.mem x hx).imp_left fun hxq => List.mem_append.mpr (Or.inl hxq)
    . rw [hcurrent]
      refine h.currentSlice ?_
      rwa [htcur, hs'cur, htidle, hs'idle] at hne
    . rw [budget, budget, hcurrent, htcur, hs'cur, htidle, hs'idle]
      exact Nat.le_refl _
  . rw [if_neg hrun]
    exact ⟨s, q, rfl, rfl, h, ⟨[], (List.append_nil q).symm⟩, rfl, Nat.le_refl _⟩

/--
What one event does.
-/
theorem Inv.step (h : s.Inv q) (hlegal : s.Legal e)
    : ∃ t q', s.step e = some t ∧ t.idleproc = s.idleproc ∧ t.Inv q' ∧
        (Stays s t q q' e.ticks ∨ Switches s t q q') := by
  cases e with
  | tick inKernel => exact h.tick inKernel
  | schedule =>
    obtain ⟨t, q', ht, hidle, hinv, hswitches⟩ := h.settled.switches
    exact ⟨t, q', ht, hidle, hinv, Or.inr hswitches⟩
  | leave state =>
    have hsettled := h.settled.modify_current (f := fun p => { p with state }) (h.slice_nonneg _)
      fun heq => absurd heq hlegal.1
    obtain ⟨t, q', ht, hidle, hinv, hswitches⟩ := hsettled.switches
    exact ⟨t, q', ht, hidle, hinv, Or.inr ⟨hswitches.queue, hswitches.budget⟩⟩
  | wakeup proc =>
    obtain ⟨t, q', ht, hidle, hinv, hstays⟩ := h.wakeup hlegal
    exact ⟨t, q', ht, hidle, hinv, Or.inl hstays⟩

/--
A process with `l` in front of it runs when the slices of these and of the current one are used up. The induction is
on the run, and the number of ticks that are left bounds the wait.
-/
theorem Inv.turn {l r : List Nat} {evs : List RrEvent} (h : s.Inv (l ++ p :: r))
    (hadmits : Run.Admits RrSched.step Legal s evs)
    (hticks : maxTimeSlice.toNat * l.length + s.budget ≤ userTicks evs)
    : ∃ front back, evs = front ++ back ∧ ∃ u, Run.exec RrSched.step s front = some u ∧ u.current = p := by
  induction evs generalizing s l r with
  | nil =>
    have hpos := s.budget_pos
    have hzero : userTicks [] = 0 := rfl
    omega
  | cons e evs ih =>
    obtain ⟨t, q', ht, -, hinv, hstep⟩ := h.step hadmits.1
    have hcount : userTicks (e :: evs) = userTicks evs + e.ticks := by
      rw [userTicks, List.count_cons, userTicks, RrEvent.ticks]
      simp only [beq_iff_eq]
    rw [hcount] at hticks
    have hbudget := s.budget_pos
    cases hstep with
    | inl hstays =>
      obtain ⟨⟨new, hq⟩, -, hle⟩ := hstays
      rw [List.append_assoc, List.cons_append] at hq
      rw [hq] at hinv
      obtain ⟨front, back, hevs, u, hu, hcur⟩ := ih hinv (hadmits.2 t ht) (by omega)
      exact ⟨e :: front, back, by rw [hevs, List.cons_append], u, Option.bind_eq_some_iff.mpr ⟨t, ht, hu⟩, hcur⟩
    | inr hswitches =>
      obtain ⟨⟨new, hcur, hq⟩, hle⟩ := hswitches
      cases l with
      | nil => exact ⟨[e], evs, rfl, t, Option.bind_eq_some_iff.mpr ⟨t, ht, rfl⟩, hcur⟩
      | cons x l =>
        simp only [List.cons_append, List.tail_cons, List.append_assoc] at hq
        rw [hq] at hinv
        have hone : e.ticks ≤ 1 := by
          unfold RrEvent.ticks
          split <;> omega
        rw [List.length_cons] at hticks
        obtain ⟨front, back, hevs, u, hu, hcur'⟩ := ih hinv (hadmits.2 t ht) (by
          have hmax : maxTimeSlice.toNat = 5 := rfl
          rw [hmax] at hticks hle ⊢
          omega)
        exact ⟨e :: front, back, by rw [hevs, List.cons_append], u, Option.bind_eq_some_iff.mpr ⟨t, ht, hu⟩, hcur'⟩

theorem Start.inv (h : s.Start) : s.Inv [] := by
  refine ⟨⟨IsRing.empty (h.links none).1 (h.links none).2, fun p _ => h.links (some p), h.procNum,
    List.forall_mem_nil _, List.forall_mem_nil _, List.forall_mem_nil _, h.timeSlice, List.not_mem_nil, h.idle⟩,
    ⟨List.not_mem_nil, h.current ▸ h.idle⟩, fun p hp => ?_, fun hne => ?_⟩
  . by_cases hidle : p = s.idleproc
    . exact Or.inr (Or.inr hidle)
    . exact absurd hp (h.others p hidle)
  . exact absurd h.current hne

/--
The start with processes that sleep.
-/
def sleepers : RrSched where
  procs p :=
    { state := if p = 0 then .runnable else .sleeping
      waitState := 0
      runs := 0
      needResched := false
      rq := false
      timeSlice := 0 }
  links := ⟨id, id⟩
  procNum := 0
  current := 0
  idleproc := 0

theorem sleepers_start : sleepers.Start := by
  constructor
  . rfl
  . rfl
  . intro p hp
    have hne : p ≠ 0 := hp
    simp [sleepers, hne]
  . exact fun _ => ⟨rfl, rfl⟩
  . rfl
  . exact fun _ => Int.le_refl _

end RrSched
end Ucore

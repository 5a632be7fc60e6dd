import Mathlib
import Ucore.Kern.Fs.File.Impl

/-!
This module contains the life cycle of a slot of the table of open files as an automaton, and what the
functions of kern/fs/file.c on one slot do to it.
-/

namespace Ucore

/--
Where a slot is between two opens. `opened` and `closed` know the node of the open and how many calls
are being made on it, `freeing` is a slot whose node has been given back with `vfs_close`.
-/
inductive Life where
  | none
  | init
  | opened (node calls : Nat)
  | closed (node calls : Nat)
  | freeing

/--
What a thread does with a slot in which it waits.
-/
inductive Role where
  | opening
  | calling (node : Nat)
  | freeing

namespace Life

/--
The acts that are in order. Calls go to the node of the open while it is opened or closed, `vfs_close`
comes when the slot is closed and no call is being made, and nothing but the end of the cycle comes
behind it.
-/
def step : Life → SlotAct → Option Life
  | .none, .setInit => some .init
  | .init, .setNone => some .none
  | .init, .setOpened node => some (.opened node 0)
  | .opened node calls, .call n => if n = node then some (.opened node (calls + 1)) else Option.none
  | .opened node (calls + 1), .ret n => if n = node then some (.opened node calls) else Option.none
  | .opened node calls, .setClosed => some (.closed node calls)
  | .closed node calls, .call n => if n = node then some (.closed node (calls + 1)) else Option.none
  | .closed node (calls + 1), .ret n => if n = node then some (.closed node calls) else Option.none
  | .closed node 0, .vfsClose n => if n = node then some .freeing else Option.none
  | .freeing, .setNone => some .none
  | _, _ => Option.none

def run (life : Life) (acts : List SlotAct) : Option Life :=
  acts.foldlM step life

theorem run_snoc (life : Life) (acts : List SlotAct) (act : SlotAct)
    : life.run (acts ++ [act]) = (life.run acts).bind (step · act) := by
  simp [run, List.foldlM_append]

/--
The slot `f` is at this point of the cycle, where `held` acquisitions are in the hand of the running
thread and the other threads have the given roles.
-/
def Agrees (life : Life) (f : File) (held : Nat) (roles : Multiset Role) : Prop :=
  match life with
  | .none => f.status = .fdNone ∧ f.openCount = 0 ∧ held = 0 ∧ roles = 0
  | .init => f.status = .fdInit ∧ f.openCount = 0 ∧ held = 0 ∧ roles = {.opening}
  | .opened node calls =>
    f.status = .fdOpened ∧ f.node = some node ∧ f.openCount = 1 + held + calls ∧
      roles = Multiset.replicate calls (.calling node)
  | .closed node calls =>
    f.status = .fdClosed ∧ f.node = some node ∧ f.openCount = held + calls ∧ 0 < held + calls ∧
      roles = Multiset.replicate calls (.calling node)
  | .freeing => f.status = .fdClosed ∧ f.openCount = 0 ∧ held = 0 ∧ roles = {.freeing}

end Life

/--
All that has been done with the slot was in order, and the slot is where that leads.
-/
def SlotInv (f : File) (log : List SlotAct) (held : Nat) (roles : Multiset Role) : Prop :=
  ∃ life, Life.none.run log = some life ∧ life.Agrees f held roles

/--
The steps of the cycle. A slot skips the open if the open fails.
-/
def FdStatus.Moves : FdStatus → FdStatus → Prop
  | .fdNone, .fdInit => True
  | .fdInit, .fdOpened => True
  | .fdInit, .fdNone => True
  | .fdOpened, .fdClosed => True
  | .fdClosed, .fdNone => True
  | _, _ => False

/--
The status that an act assigns.
-/
def SlotAct.assigns : SlotAct → Option FdStatus
  | .setNone => some .fdNone
  | .setInit => some .fdInit
  | .setOpened _ => some .fdOpened
  | .setClosed => some .fdClosed
  | _ => none

def SlotAct.opens : SlotAct → Bool
  | .setOpened _ => true
  | _ => false

def SlotAct.vfsCloses : SlotAct → Bool
  | .vfsClose _ => true
  | _ => false

namespace Life

def status : Life → FdStatus
  | .none => .fdNone
  | .init => .fdInit
  | .opened .. => .fdOpened
  | .closed .. => .fdClosed
  | .freeing => .fdClosed

/--
How many opens still await their `vfs_close`.
-/
def pending : Life → Nat
  | .opened .. => 1
  | .closed .. => 1
  | _ => 0

theorem step_status {life later : Life} {act : SlotAct} (h : life.step act = some later)
    : match act.assigns with
      | some status => life.status.Moves status ∧ later.status = status
      | Option.none => later.status = life.status := by
  unfold step at h
  split at h <;>
    first
    | contradiction
    | (obtain rfl := Option.some.inj h; simp [SlotAct.assigns, status, FdStatus.Moves])
    | (split at h
       . obtain rfl := Option.some.inj h
         simp [SlotAct.assigns, status]
       . contradiction)

theorem step_pending {life later : Life} {act : SlotAct} (h : life.step act = some later)
    : later.pending + (if act.vfsCloses then 1 else 0) =
      life.pending + if act.opens then 1 else 0 := by
  unfold step at h
  split at h <;>
    first
    | contradiction
    | (obtain rfl := Option.some.inj h; simp [SlotAct.opens, SlotAct.vfsCloses, pending])
    | (split at h
       . obtain rfl := Option.some.inj h
         simp [SlotAct.opens, SlotAct.vfsCloses, pending]
       . contradiction)

/--
The statuses of a slot follow the cycle, and it ends in the last one.
-/
theorem run_moves {acts : List SlotAct} {life : Life} (h : Life.none.run acts = some life)
    : (.fdNone :: acts.filterMap SlotAct.assigns).IsChain FdStatus.Moves ∧
      (.fdNone :: acts.filterMap SlotAct.assigns).getLast? = some life.status := by
  induction acts using List.reverseRecOn generalizing life with
  | nil =>
    obtain rfl := Option.some.inj h
    exact ⟨List.isChain_singleton _, rfl⟩
  | append_singleton acts act ih =>
    rw [run_snoc] at h
    obtain ⟨before, hbefore, hstep⟩ := Option.bind_eq_some_iff.mp h
    obtain ⟨hchain, hlast⟩ := ih hbefore
    have hstatus := step_status hstep
    cases hact : act.assigns with
    | none =>
      simp only [hact] at hstatus
      rw [List.filterMap_append, List.filterMap_cons_none hact, List.filterMap_nil, List.append_nil]
      exact ⟨hchain, by rw [hlast, hstatus]⟩
    | some status =>
      simp only [hact] at hstatus
      rw [List.filterMap_append, List.filterMap_cons_some hact, List.filterMap_nil,
        ← List.cons_append]
      constructor
      . apply hchain.append (List.isChain_singleton _)
        intro x hx y hy
        rw [hlast, Option.mem_def, Option.some_inj] at hx
        rw [List.head?_cons, Option.mem_def, Option.some_inj] at hy
        rw [← hx, ← hy]
        exact hstatus.1
      . rw [List.getLast?_append, List.getLast?_singleton, Option.some_or, hstatus.2]

/--
Every open gets one `vfs_close`.
-/
theorem run_pending {acts : List SlotAct} {life : Life} (h : Life.none.run acts = some life)
    : acts.countP SlotAct.opens = acts.countP SlotAct.vfsCloses + life.pending := by
  induction acts using List.reverseRecOn generalizing life with
  | nil =>
    obtain rfl := Option.some.inj h
    rfl
  | append_singleton acts act ih =>
    rw [run_snoc] at h
    obtain ⟨before, hbefore, hstep⟩ := Option.bind_eq_some_iff.mp h
    have hcount := ih hbefore
    have := step_pending hstep
    simp only [List.countP_append, List.countP_singleton]
    omega

end Life

namespace SlotInv

variable {f g : File} {log : List SlotAct} {held : Nat} {roles : Multiset Role} {node : Nat}

/--
Only the status, the node and the count of a slot matter.
-/
theorem congr (h : SlotInv f log held roles) (hstatus : g.status = f.status)
    (hnode : g.node = f.node) (hcount : g.openCount = f.openCount)
    : SlotInv g log held roles := by
  obtain ⟨life, hrun, hagrees⟩ := h
  exists life, hrun
  cases life <;> simpa only [Life.Agrees, hstatus, hnode, hcount] using hagrees

theorem of_none (h : SlotInv f log held roles) (hstatus : f.status = .fdNone)
    : Life.none.run log = some .none ∧ f.openCount = 0 ∧ held = 0 ∧ roles = 0 := by
  obtain ⟨life, hrun, hagrees⟩ := h
  cases life <;> simp_all [Life.Agrees]

theorem of_opened (h : SlotInv f log held roles) (hstatus : f.status = .fdOpened)
    : ∃ node calls, Life.none.run log = some (.opened node calls) ∧ f.node = some node ∧
      f.openCount = 1 + held + calls ∧ roles = Multiset.replicate calls (.calling node) := by
  obtain ⟨life, hrun, hagrees⟩ := h
  cases life <;> simp_all [Life.Agrees]

theorem of_opening (h : SlotInv f log held ({.opening} + roles))
    : Life.none.run log = some .init ∧ f.status = .fdInit ∧ f.openCount = 0 ∧ held = 0 ∧
      roles = 0 := by
  obtain ⟨life, hrun, hagrees⟩ := h
  have hmem : Role.opening ∈ {Role.opening} + roles := by simp
  cases life with
  | none => simp_all [Life.Agrees]
  | init =>
    obtain ⟨hstatus, hcount, hheld, hroles⟩ := hagrees
    exact ⟨hrun, hstatus, hcount, hheld, add_eq_left.mp hroles⟩
  | opened node calls =>
    rw [hagrees.2.2.2] at hmem
    cases Multiset.eq_of_mem_replicate hmem
  | closed node calls =>
    rw [hagrees.2.2.2.2] at hmem
    cases Multiset.eq_of_mem_replicate hmem
  | freeing =>
    rw [hagrees.2.2.2] at hmem
    cases Multiset.mem_singleton.mp hmem

theorem of_freeing (h : SlotInv f log held ({.freeing} + roles))
    : Life.none.run log = some .freeing ∧ f.openCount = 0 ∧ held = 0 ∧ roles = 0 := by
  obtain ⟨life, hrun, hagrees⟩ := h
  have hmem : Role.freeing ∈ {Role.freeing} + roles := by simp
  cases life with
  | none => simp_all [Life.Agrees]
  | init =>
    rw [hagrees.2.2.2] at hmem
    cases Multiset.mem_singleton.mp hmem
  | opened node calls =>
    rw [hagrees.2.2.2] at hmem
    cases Multiset.eq_of_mem_replicate hmem
  | closed node calls =>
    rw [hagrees.2.2.2.2] at hmem
    cases Multiset.eq_of_mem_replicate hmem
  | freeing =>
    obtain ⟨hstatus, hcount, hheld, hroles⟩ := hagrees
    exact ⟨hrun, hcount, hheld, add_eq_left.mp hroles⟩

/--
A slot in the hand of a thread is opened or closed, and its count covers the acquisition.
-/
theorem of_held (h : SlotInv f log 1 roles)
    : ∃ node calls, f.node = some node ∧ roles = Multiset.replicate calls (.calling node) ∧
      (f.status = .fdOpened ∧ Life.none.run log = some (.opened node calls) ∧
          f.openCount = 2 + calls ∨
        f.status = .fdClosed ∧ Life.none.run log = some (.closed node calls) ∧
          f.openCount = 1 + calls) := by
  obtain ⟨life, hrun, hagrees⟩ := h
  cases life with
  | none => simp_all [Life.Agrees]
  | init => simp_all [Life.Agrees]
  | opened node calls =>
    obtain ⟨hstatus, hnode, hcount, hroles⟩ := hagrees
    exact ⟨node, calls, hnode, hroles, .inl ⟨hstatus, hrun, by omega⟩⟩
  | closed node calls =>
    obtain ⟨hstatus, hnode, hcount, -, hroles⟩ := hagrees
    exact ⟨node, calls, hnode, hroles, .inr ⟨hstatus, hrun, by omega⟩⟩
  | freeing => simp_all [Life.Agrees]

theorem setInit (h : SlotInv f log held roles) (hstatus : f.status = .fdNone) (node : Option Nat)
    : SlotInv { f with status := .fdInit, node } (log ++ [.setInit]) held ({.opening} + roles) := by
  obtain ⟨hrun, hcount, hheld, hroles⟩ := h.of_none hstatus
  exists .init
  constructor
  . rw [Life.run_snoc, hrun]
    rfl
  . simp [Life.Agrees, hcount, hheld, hroles]

/--
The open for which the slot has been reserved has failed.
-/
theorem setNone_opening (h : SlotInv f log held ({.opening} + roles))
    : SlotInv { f with status := .fdNone } (log ++ [.setNone]) held roles := by
  obtain ⟨hrun, -, hcount, hheld, hroles⟩ := h.of_opening
  exists .none
  constructor
  . rw [Life.run_snoc, hrun]
    rfl
  . simp [Life.Agrees, hcount, hheld, hroles]

theorem setNone_freeing (h : SlotInv f log held ({.freeing} + roles))
    : SlotInv { f with status := .fdNone } (log ++ [.setNone]) held roles := by
  obtain ⟨hrun, hcount, hheld, hroles⟩ := h.of_freeing
  exists .none
  constructor
  . rw [Life.run_snoc, hrun]
    rfl
  . simp [Life.Agrees, hcount, hheld, hroles]

theorem setOpened (h : SlotInv f log held ({.opening} + roles)) (hnode : f.node = some node)
    : SlotInv { f with status := .fdOpened, openCount := f.openCount + 1 } (log ++ [.setOpened node])
      held roles := by
  obtain ⟨hrun, -, hcount, hheld, hroles⟩ := h.of_opening
  exists .opened node 0
  constructor
  . rw [Life.run_snoc, hrun]
    rfl
  . simp [Life.Agrees, hcount, hheld, hroles, hnode]

theorem acquire (h : SlotInv f log 0 roles) (hstatus : f.status = .fdOpened)
    : SlotInv { f with openCount := f.openCount + 1 } log 1 roles := by
  obtain ⟨node, calls, hrun, hnode, hcount, hroles⟩ := h.of_opened hstatus
  exists .opened node calls, hrun
  simp only [Life.Agrees]
  exact ⟨hstatus, hnode, by omega, hroles⟩

theorem call (h : SlotInv f log 1 roles) (hnode : f.node = some node)
    : SlotInv f (log ++ [.call node]) 0 ({.calling node} + roles) := by
  obtain ⟨n, calls, hn, rfl, hlife⟩ := h.of_held
  obtain rfl : n = node := by
    rw [hnode] at hn
    exact (Option.some.inj hn).symm
  have hroles : ({Role.calling n} : Multiset Role) + Multiset.replicate calls (.calling n) =
      Multiset.replicate (calls + 1) (.calling n) := by
    rw [Multiset.singleton_add, Multiset.replicate_succ]
  cases hlife with
  | inl h =>
    obtain ⟨hstatus, hrun, hcount⟩ := h
    exists .opened n (calls + 1)
    constructor
    . rw [Life.run_snoc, hrun]
      exact if_pos rfl
    . exact ⟨hstatus, hn, by omega, hroles⟩
  | inr h =>
    obtain ⟨hstatus, hrun, hcount⟩ := h
    exists .closed n (calls + 1)
    constructor
    . rw [Life.run_snoc, hrun]
      exact if_pos rfl
    . exact ⟨hstatus, hn, by omega, by omega, hroles⟩

/--
One of the calls on a node has come back.
-/
theorem replicate_calling {calls n : Nat}
    (h : ({.calling node} : Multiset Role) + roles = Multiset.replicate calls (.calling n))
    : node = n ∧ ∃ k, calls = k + 1 ∧ roles = Multiset.replicate k (.calling n) := by
  have hmem : Role.calling node ∈ Multiset.replicate calls (Role.calling n) := by
    rw [← h]
    simp
  have hnode := Role.calling.inj (Multiset.eq_of_mem_replicate hmem)
  exists hnode
  cases calls with
  | zero => simp at hmem
  | succ k =>
    exists k, rfl
    rw [hnode, Multiset.replicate_succ, Multiset.singleton_add, Multiset.cons_inj_right] at h
    exact h

theorem ret (h : SlotInv f log 0 ({.calling node} + roles))
    : SlotInv f (log ++ [.ret node]) 1 roles := by
  obtain ⟨life, hrun, hagrees⟩ := h
  cases life with
  | none => simp_all [Life.Agrees]
  | init =>
    have hmem : Role.calling node ∈ ({Role.opening} : Multiset Role) := by
      rw [← hagrees.2.2.2]
      simp
    cases Multiset.mem_singleton.mp hmem
  | opened n calls =>
    obtain ⟨hstatus, hnode, hcount, hroles⟩ := hagrees
    obtain ⟨rfl, k, rfl, hrest⟩ := replicate_calling hroles
    exists .opened node k
    constructor
    . rw [Life.run_snoc, hrun]
      exact if_pos rfl
    . exact ⟨hstatus, hnode, by omega, hrest⟩
  | closed n calls =>
    obtain ⟨hstatus, hnode, hcount, hpos, hroles⟩ := hagrees
    obtain ⟨rfl, k, rfl, hrest⟩ := replicate_calling hroles
    exists .closed node k
    constructor
    . rw [Life.run_snoc, hrun]
      exact if_pos rfl
    . exact ⟨hstatus, hnode, by omega, by omega, hrest⟩
  | freeing =>
    have hmem : Role.calling node ∈ ({Role.freeing} : Multiset Role) := by
      rw [← hagrees.2.2.2]
      simp
    cases Multiset.mem_singleton.mp hmem

/--
The open itself is one acquisition, a close takes it into the hand of the closing thread.
-/
theorem setClosed (h : SlotInv f log 0 roles) (hstatus : f.status = .fdOpened)
    : SlotInv { f with status := .fdClosed } (log ++ [.setClosed]) 1 roles := by
  obtain ⟨node, calls, hrun, hnode, hcount, hroles⟩ := h.of_opened hstatus
  exists .closed node calls
  constructor
  . rw [Life.run_snoc, hrun]
    cases calls <;> rfl
  . exact ⟨rfl, hnode, by simp only [hcount]; omega, by omega, hroles⟩

theorem vfsClose (h : SlotInv f log 1 roles) (hcount : f.openCount = 1)
    : f.status = .fdClosed ∧ ∃ node, f.node = some node ∧
      SlotInv { f with openCount := f.openCount - 1 } (log ++ [.vfsClose node]) 0
        ({.freeing} + roles) := by
  obtain ⟨node, calls, hnode, rfl, hlife⟩ := h.of_held
  cases hlife with
  | inl h =>
    -- An open slot has the acquisition of the open beside the one of the thread.
    have := h.2.2
    omega
  | inr h =>
    obtain ⟨hstatus, hrun, hcalls⟩ := h
    obtain rfl : calls = 0 := by omega
    refine ⟨hstatus, node, hnode, .freeing, ?_, ?_⟩
    . rw [Life.run_snoc, hrun]
      exact if_pos rfl
    . simp [Life.Agrees, hstatus, hcount]

theorem release (h : SlotInv f log 1 roles) (hcount : f.openCount ≠ 1)
    : SlotInv { f with openCount := f.openCount - 1 } log 0 roles := by
  obtain ⟨node, calls, hnode, hroles, hlife⟩ := h.of_held
  cases hlife with
  | inl h =>
    obtain ⟨hstatus, hrun, hcalls⟩ := h
    exact ⟨.opened node calls, hrun, hstatus, hnode, by simp only [hcalls]; omega, hroles⟩
  | inr h =>
    obtain ⟨hstatus, hrun, hcalls⟩ := h
    exact ⟨.closed node calls, hrun, hstatus, hnode, by simp only [hcalls]; omega, by omega, hroles⟩

end SlotInv
end Ucore

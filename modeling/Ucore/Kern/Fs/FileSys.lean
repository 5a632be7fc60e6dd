import Ucore.Kern.Fs.File.Lemmas
import Ucore.Lib.Threads

/-!
This module contains the threads that share a table of open files, and that every slot goes through
its life cycle in whatever order they wait and go on.
-/

namespace Ucore

inductive FileCall where
  | fileOpen (openFlags : BitVec 32)
  | fileClose (fd : Int)
  | fileRead (fd : Int)
  | fileWrite (fd : Int)
  | fileSeek (fd : Int) (pos : BitVec 64) (whence : Int)
  | fileFstat (fd : Int)
  | fileFsync (fd : Int)
  | fileGetdirentry (fd : Int)
  | fileDup (fd1 fd2 : Int)

/--
A thread makes a call, or goes on behind its call into vfs with an answer of vfs.
-/
inductive FileEvent where
  | call (c : FileCall)
  | wake (ans : Answer)

namespace FileTable

def call (t : FileTable) : FileCall → Option (Control × FileTable)
  | .fileOpen openFlags => t.fileOpen openFlags
  | .fileClose fd => t.fileClose fd
  | .fileRead fd => t.fileRead fd
  | .fileWrite fd => t.fileWrite fd
  | .fileSeek fd pos whence => t.fileSeek fd pos whence
  | .fileFstat fd => t.fileFstat fd
  | .fileFsync fd => t.fileFsync fd
  | .fileGetdirentry fd => t.fileGetdirentry fd
  | .fileDup fd1 fd2 => t.fileDup fd1 fd2

/--
A thread that waits makes no call.
-/
def run (t : FileTable) (c : Control) : FileEvent → Option (FileTable × Control)
  | .call k =>
    match c with
    | .returned .. => (t.call k).map Prod.swap
    | _ => some (t, c)
  | .wake ans => (t.wake c ans).map Prod.swap

/--
A new table that `n` threads share.
-/
def start (slots : Fd → File) (n : Nat) : Threads.System FileTable Control where
  shared := fdArrayInit slots
  threads := List.replicate n (.returned 0 0)

variable {t : FileTable} {file : Fd} {rest : Fd → Multiset Role} {fd : Int} {ans : Answer}

theorem Inv.returned (h : t.Inv 0 rest) {err : Int} {copied : BitVec 64}
    : t.Inv 0 ((Control.returned err copied).roles + rest) := by
  rw [Control.roles, zero_add]
  exact h

theorem fileOpen_goes (h : t.Inv 0 rest) (openFlags : BitVec 32)
    : Goes (t.fileOpen openFlags) rest := by
  unfold fileOpen
  split
  . exact .returned h
  next readable writable _ =>
    cases h.fdArrayAlloc noFd with
    | inl halloc =>
      obtain ⟨e, halloc⟩ := halloc
      rw [halloc]
      exact .returned h
    | inr halloc =>
      obtain ⟨file, u, halloc, -, -, -, hinv⟩ := halloc
      rw [halloc]
      exact ⟨_, u, rfl, hinv⟩

theorem fileClose_goes (h : t.Inv 0 rest) (fd : Int) : Goes (t.fileClose fd) rest := by
  unfold fileClose
  split
  . exact .returned h
  next file hfile => exact h.fdArrayClose (fd2file_status hfile)

theorem fileRw_goes (h : t.Inv 0 rest) (fd : Int) (permission : File → Bool)
    : Goes (t.fileRw fd permission) rest := by
  unfold fileRw
  split
  . exact .returned h
  next file hfile =>
    split
    . obtain ⟨u, hacquire, hinv⟩ := h.fdArrayAcquire (fd2file_status hfile)
      rw [hacquire]
      exact hinv.callVop fun _ => rfl
    . exact .returned h

theorem fileSeek_goes (h : t.Inv 0 rest) (fd : Int) (pos : BitVec 64) (whence : Int)
    : Goes (t.fileSeek fd pos whence) rest := by
  unfold fileSeek
  split
  . exact .returned h
  next file hfile =>
    obtain ⟨u, hacquire, hinv⟩ := h.fdArrayAcquire (fd2file_status hfile)
    rw [hacquire, Option.bind_some]
    split
    . exact hinv.callVop fun _ => rfl
    . split
      . exact hinv.callVop fun _ => rfl
      . split
        . exact hinv.callVop fun _ => rfl
        . exact hinv.fdArrayRelease

theorem fileVop_goes (h : t.Inv 0 rest) (fd : Int) : Goes (t.fileVop fd) rest := by
  unfold fileVop
  split
  . exact .returned h
  next file hfile =>
    obtain ⟨u, hacquire, hinv⟩ := h.fdArrayAcquire (fd2file_status hfile)
    rw [hacquire]
    exact hinv.callVop fun _ => rfl

theorem fileDup_goes (h : t.Inv 0 rest) (fd1 fd2 : Int) : Goes (t.fileDup fd1 fd2) rest := by
  unfold fileDup
  split
  . exact .returned h
  next file1 hfile =>
    have hopened := fd2file_status hfile
    obtain ⟨node, -, -, hnode, -⟩ := (h file1).of_opened hopened
    cases h.fdArrayAlloc fd2 with
    | inl halloc =>
      obtain ⟨e, halloc⟩ := halloc
      rw [halloc]
      exact .returned h
    | inr halloc =>
      obtain ⟨file2, u, halloc, hnone, hslots, hinit, hinv⟩ := halloc
      rw [halloc]
      -- The new slot was free, so it is not the one that is duplicated.
      have hne : file1 ≠ file2 := by
        intro heq
        rw [heq, hnone] at hopened
        contradiction
      have hdup : ((u.slots file2).status = .fdInit ∧ (u.slots file1).status = .fdOpened) := by
        rw [hslots file1 hne]
        exact ⟨hinit, hopened⟩
      have hsrc : (u.slots file1).node = some node := by
        rw [hslots file1 hne]
        exact hnode
      simp only [fdArrayDup, fdArrayDupFrom, if_pos hdup, hsrc]
      obtain ⟨v, hopen, hinv⟩ := (hinv.modify_opening (f := fun f =>
        { f with
          pos := (u.slots file1).pos
          readable := (u.slots file1).readable
          writable := (u.slots file1).writable
          node := some node }) rfl rfl).fdArrayOpen
          (show _ = some node by simp)
      rw [hopen]
      exact .returned hinv

theorem call_goes (h : t.Inv 0 rest) (c : FileCall) : Goes (t.call c) rest := by
  cases c with
  | fileOpen openFlags => exact fileOpen_goes h openFlags
  | fileClose fd => exact fileClose_goes h fd
  | fileRead fd => exact fileRw_goes h fd _
  | fileWrite fd => exact fileRw_goes h fd _
  | fileSeek fd pos whence => exact fileSeek_goes h fd pos whence
  | fileFstat fd => exact fileVop_goes h fd
  | fileFsync fd => exact fileVop_goes h fd
  | fileGetdirentry fd => exact fileVop_goes h fd
  | fileDup fd1 fd2 => exact fileDup_goes h fd1 fd2

theorem fileOpened_goes (h : t.Inv 0 (Pi.single file {.opening} + rest)) (node : Nat)
    (readable writable : Bool)
    : Goes (t.fileOpened file node readable writable) rest := by
  obtain ⟨u, hopen, hinv⟩ := (h.modify_opening (f := fun f =>
    { f with node := some node, readable, writable }) rfl rfl).fdArrayOpen
          (show _ = some node by simp)
  unfold fileOpened
  rw [hopen]
  exact .returned hinv

theorem wake_goes {c : Control} (h : t.Inv 0 (c.roles + rest)) (ans : Answer)
    : Goes (t.wake c ans) rest := by
  cases c with
  | returned err copied => exact ⟨_, t, rfl, h⟩
  | fileOpenVfsOpen file readable writable append =>
    rw [Control.roles] at h
    rw [wake]
    split
    . exact h.fdArrayFree_opening
    . dsimp only
      have hpos := h.modify_opening (f := fun f => { f with pos := 0 }) rfl rfl
      split
      . exact ⟨_, _, rfl, hpos⟩
      . exact fileOpened_goes hpos ans.node readable writable
  | fileOpenFstat file node readable writable =>
    rw [Control.roles] at h
    rw [wake]
    split
    . exact ⟨_, t, rfl, h⟩
    . exact fileOpened_goes (h.modify_opening (f := fun f => { f with pos := ans.stSize }) rfl rfl)
        node readable writable
  | fileOpenVfsClose file err => exact h.fdArrayFree_opening
  | fileRw file node =>
    have hret := h.ret
    rw [wake]
    apply Inv.fdArrayRelease
    split
    . exact hret.modify rfl rfl rfl
    . exact hret
  | fileSeekFstat file node pos =>
    have hret := h.ret
    rw [wake]
    split
    . exact hret.callVop fun _ => rfl
    . exact hret.fdArrayRelease
  | fileSeekTryseek file node pos =>
    have hret := h.ret
    rw [wake]
    apply Inv.fdArrayRelease
    split
    . exact hret.modify rfl rfl rfl
    . exact hret
  | fileVop file node => exact h.ret.fdArrayRelease
  | fdArrayFree file err copied => exact .returned h.setNone_freeing

theorem run_inv (t : FileTable) (c : Control) (e : FileEvent) (rest : Fd → Multiset Role)
    (h : t.Inv 0 (c.roles + rest))
    : ∃ u d, t.run c e = some (u, d) ∧ u.Inv 0 (d.roles + rest) := by
  cases e with
  | call k =>
    cases c with
    | returned err copied =>
      rw [Control.roles, zero_add] at h
      obtain ⟨d, u, hcall, hinv⟩ := call_goes h k
      exact ⟨u, d, by simp [run, hcall], hinv⟩
    | _ => exact ⟨t, _, rfl, h⟩
  | wake ans =>
    obtain ⟨d, u, hwake, hinv⟩ := wake_goes h ans
    exact ⟨u, d, by simp [run, hwake], hinv⟩

theorem start_inv (slots : Fd → File) (n : Nat)
    : (start slots n).shared.Inv 0 (Threads.total Control.roles (start slots n).threads) := by
  rw [Threads.total_eq_zero]
  . intro x
    exact ⟨.none, rfl, rfl, rfl, rfl, rfl⟩
  . intro c hc
    obtain ⟨-, rfl⟩ := List.mem_replicate.mp hc
    rfl

/--
The statuses that a slot has had.
-/
def statuses (t : FileTable) (file : Fd) : List FdStatus :=
  .fdNone :: (t.log file).filterMap SlotAct.assigns

end FileTable

/--
The slot has gone through its statuses in the order of the cycle, `vfs_close` has been called once for
every open that is over, and all calls to a node have been made and have come back between the open of
the slot with that node and this `vfs_close`. The count of the slot is one for the open itself and one
for every thread in a call on its node.
-/
structure SlotCycle (s : Threads.System FileTable Control) (file : Fd) : Prop where
  moves : (s.shared.statuses file).IsChain FdStatus.Moves
  last : (s.shared.statuses file).getLast? = some (s.shared.slots file).status
  inOrder : ∃ life, Life.none.run (s.shared.log file) = some life ∧
    life.Agrees (s.shared.slots file) 0 (Threads.total Control.roles s.threads file)
  closedOnce : (s.shared.log file).countP SlotAct.opens =
    (s.shared.log file).countP SlotAct.vfsCloses +
      if 0 < (s.shared.slots file).openCount then 1 else 0

theorem SlotInv.cycle {s : Threads.System FileTable Control} {file : Fd}
    (h : SlotInv (s.shared.slots file) (s.shared.log file) 0
      (Threads.total Control.roles s.threads file))
    : SlotCycle s file := by
  obtain ⟨life, hrun, hagrees⟩ := h
  have hstatus : (s.shared.slots file).status = life.status := by
    cases life <;> exact hagrees.1
  have hpending : life.pending = if 0 < (s.shared.slots file).openCount then 1 else 0 := by
    cases life with
    | none => simp [Life.pending, hagrees.2.1]
    | init => simp [Life.pending, hagrees.2.1]
    | opened node calls =>
      have := hagrees.2.2.1
      exact (if_pos (by omega)).symm
    | closed node calls =>
      obtain ⟨-, -, hcount, hpos, -⟩ := hagrees
      exact (if_pos (by omega)).symm
    | freeing => simp [Life.pending, hagrees.2.1]
  obtain ⟨hmoves, hlast⟩ := Life.run_moves hrun
  constructor
  . exact hmoves
  . rw [hstatus]
    exact hlast
  . exact ⟨life, hrun, hagrees⟩
  . rw [← hpending]
    exact Life.run_pending hrun

/--
No assertion of file.c fails, and every slot stays in its cycle, for any number of threads and in any
order of their calls and of the answers of vfs.
-/
theorem slot_life_cycle (slots : Fd → File) (n : Nat) (events : List (Nat × FileEvent))
    : ∃ s, Run.exec (Threads.step FileTable.run) (FileTable.start slots n) events = some s ∧
      ∀ file, SlotCycle s file := by
  obtain ⟨s, hexec, hinv⟩ := Threads.exec_invariant_of_total FileTable.run_inv
    (FileTable.start_inv slots n) events
  exact ⟨s, hexec, fun file => (hinv file).cycle⟩

/--
The cycle without the step that skips the open.
-/
def FdStatus.next : FdStatus → FdStatus
  | .fdNone => .fdInit
  | .fdInit => .fdOpened
  | .fdOpened => .fdClosed
  | .fdClosed => .fdNone

/--
An open of a name that is missing takes its slot from `FD_INIT` back to `FD_NONE`.
-/
theorem slot_life_cycle_open_fails
    : ∃ s, Run.exec (Threads.step FileTable.run)
        (FileTable.start (fun _ => ⟨.fdNone, false, false, 0, 0, none, 0⟩) 1)
        [(0, .call (.fileOpen FileTable.oRdonly)), (0, .wake ⟨-Errno.noent.toInt, 0, 0, 0⟩)] = some s ∧
      ∃ file, ¬(s.shared.statuses file).IsChain fun a b => b = a.next := by
  refine ⟨_, rfl, ⟨0, by decide⟩, ?_⟩
  decide

end Ucore

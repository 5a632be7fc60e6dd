import Mathlib
import Ucore.Kern.Fs.File.SlotLife

/-!
This module contains what the functions of kern/fs/file.c do to the table of open files, in terms of
the life cycles of its slots.
-/

namespace Ucore

/--
The roles in which a thread waits in the slots.
-/
def Control.roles : Control → Fd → Multiset Role
  | .returned .. => 0
  | .fileOpenVfsOpen file .. => Pi.single file {.opening}
  | .fileOpenFstat file .. => Pi.single file {.opening}
  | .fileOpenVfsClose file .. => Pi.single file {.opening}
  | .fileRw file node => Pi.single file {.calling node}
  | .fileSeekFstat file node _ => Pi.single file {.calling node}
  | .fileSeekTryseek file node _ => Pi.single file {.calling node}
  | .fileVop file node => Pi.single file {.calling node}
  | .fdArrayFree file .. => Pi.single file {.freeing}

namespace FileTable

section Slots

variable {t : FileTable} {file x : Fd} {f : File → File} {act : SlotAct}

@[simp]
theorem modify_slots_self : (t.modify file f).slots file = f (t.slots file) := by
  simp [modify]

@[simp]
theorem modify_slots_of_ne (h : x ≠ file) : (t.modify file f).slots x = t.slots x := by
  simp [modify, h]

@[simp]
theorem modify_log : (t.modify file f).log = t.log := rfl

@[simp]
theorem record_slots : (t.record file act).slots = t.slots := rfl

@[simp]
theorem record_log_self : (t.record file act).log file = t.log file ++ [act] := by
  simp [record]

@[simp]
theorem record_log_of_ne (h : x ≠ file) : (t.record file act).log x = t.log x := by
  simp [record, h]

end Slots

/--
Every slot is where its life cycle says, where the running thread has `held` acquisitions in its hand
and the other threads have the given roles.
-/
def Inv (t : FileTable) (held : Fd → Nat) (roles : Fd → Multiset Role) : Prop :=
  ∀ x, SlotInv (t.slots x) (t.log x) (held x) (roles x)

/--
The call goes on to a return or to the next wait, and the roles are right again there.
-/
def Goes (r : Option (Control × FileTable)) (rest : Fd → Multiset Role) : Prop :=
  ∃ d u, r = some (d, u) ∧ u.Inv 0 (d.roles + rest)

variable {t u : FileTable} {file : Fd} {held held₁ : Fd → Nat} {rest roles roles₁ : Fd → Multiset Role}
  {node : Nat} {err : Int} {copied : BitVec 64}

namespace Inv

/--
A change to one slot is all that matters when the rest stays.
-/
theorem update (h : t.Inv held roles) (file : Fd)
    (hslots : ∀ x, x ≠ file → u.slots x = t.slots x) (hlog : ∀ x, x ≠ file → u.log x = t.log x)
    (hheld : ∀ x, x ≠ file → held₁ x = held x) (hroles : ∀ x, x ≠ file → roles₁ x = roles x)
    (hfile : SlotInv (t.slots file) (t.log file) (held file) (roles file) →
      SlotInv (u.slots file) (u.log file) (held₁ file) (roles₁ file))
    : u.Inv held₁ roles₁ := by
  intro x
  by_cases heq : x = file
  . subst heq
    exact hfile (h x)
  . rw [hslots x heq, hlog x heq, hheld x heq, hroles x heq]
    exact h x

/--
What a slot looks like that is reserved for an open.
-/
theorem of_opening (h : t.Inv 0 (Pi.single file {.opening}))
    : (t.slots file).status = .fdInit ∧ (t.slots file).openCount = 0 := by
  have hfile : SlotInv (t.slots file) (t.log file) 0 ({.opening} + 0) := by
    simpa using h file
  obtain ⟨-, hstatus, hcount, -⟩ := hfile.of_opening
  exact ⟨hstatus, hcount⟩

theorem setInit (h : t.Inv 0 rest) (hstatus : (t.slots file).status = .fdNone) (node : Option Nat)
    : ((t.modify file fun f => { f with status := .fdInit, node }).record file .setInit).Inv 0
      (Pi.single file {.opening} + rest) := by
  apply h.update file <;> simp +contextual
  intro hfile
  simpa using hfile.setInit hstatus node

theorem setNone_opening (h : t.Inv 0 (Pi.single file {.opening} + rest))
    : (t.setNone file).Inv 0 rest := by
  apply h.update file <;> simp +contextual [FileTable.setNone]
  intro hfile
  simpa using SlotInv.setNone_opening (by simpa using hfile)

theorem setNone_freeing (h : t.Inv 0 (Pi.single file {.freeing} + rest))
    : (t.setNone file).Inv 0 rest := by
  apply h.update file <;> simp +contextual [FileTable.setNone]
  intro hfile
  simpa using SlotInv.setNone_freeing (by simpa using hfile)

/--
A slot may be changed as long as its status, its node and its count stay.
-/
theorem modify (h : t.Inv held roles) {f : File → File}
    (hstatus : (f (t.slots file)).status = (t.slots file).status)
    (hnode : (f (t.slots file)).node = (t.slots file).node)
    (hcount : (f (t.slots file)).openCount = (t.slots file).openCount)
    : (t.modify file f).Inv held roles := by
  apply h.update file <;> simp +contextual
  intro hfile
  exact hfile.congr hstatus hnode hcount

/--
A slot that is reserved for an open may be filled in.
-/
theorem modify_opening (h : t.Inv 0 (Pi.single file {.opening} + rest)) {f : File → File}
    (hstatus : (f (t.slots file)).status = (t.slots file).status)
    (hcount : (f (t.slots file)).openCount = (t.slots file).openCount)
    : (t.modify file f).Inv 0 (Pi.single file {.opening} + rest) := by
  apply h.update file <;> simp +contextual
  intro hfile
  obtain ⟨hrun, hinit, hzero, -, hroles⟩ := SlotInv.of_opening (by simpa using hfile)
  exists .init, hrun
  simp [Life.Agrees, hstatus, hcount, hinit, hzero, hroles]

theorem fdArrayOpen (h : t.Inv 0 (Pi.single file {.opening} + rest))
    (hnode : (t.slots file).node = some node)
    : ∃ u, t.fdArrayOpen file = some u ∧ u.Inv 0 rest := by
  have hfile := h file
  simp only [Pi.zero_apply, Pi.add_apply, Pi.single_eq_same] at hfile
  have hstatus := hfile.of_opening.2.1
  refine ⟨_, by simp only [FileTable.fdArrayOpen, hnode, if_pos hstatus]; rfl, ?_⟩
  apply h.update file <;> simp +contextual
  intro _
  simpa using hfile.setOpened hnode

theorem fdArrayAcquire (h : t.Inv 0 rest) (hstatus : (t.slots file).status = .fdOpened)
    : ∃ u, t.fdArrayAcquire file = some u ∧ u.Inv (Pi.single file 1) rest := by
  refine ⟨_, if_pos hstatus, ?_⟩
  apply h.update file <;> simp +contextual
  intro hfile
  exact hfile.acquire hstatus

theorem callVop (h : t.Inv (Pi.single file 1) rest) {wait : Nat → Control}
    (hwait : ∀ node, (wait node).roles = Pi.single file {.calling node})
    : Goes (t.callVop file wait) rest := by
  have hfile := h file
  rw [Pi.single_eq_same] at hfile
  obtain ⟨node, -, hnode, -⟩ := hfile.of_held
  refine ⟨wait node, _, by simp only [FileTable.callVop, hnode]; rfl, ?_⟩
  rw [hwait node]
  apply h.update file <;> simp +contextual
  intro _
  simpa using hfile.call hnode

theorem ret (h : t.Inv 0 (Pi.single file {.calling node} + rest))
    : (t.record file (.ret node)).Inv (Pi.single file 1) rest := by
  apply h.update file <;> simp +contextual
  intro hfile
  exact SlotInv.ret (by simpa using hfile)

theorem setClosed (h : t.Inv 0 rest) (hstatus : (t.slots file).status = .fdOpened)
    : ((t.modify file fun f => { f with status := .fdClosed }).record file .setClosed).Inv
      (Pi.single file 1) rest := by
  apply h.update file <;> simp +contextual
  intro hfile
  exact hfile.setClosed hstatus

theorem fdArrayFree_opening (h : t.Inv 0 (Pi.single file {.opening} + rest))
    : Goes (t.fdArrayFree file err copied) rest := by
  have hfile := h file
  simp only [Pi.zero_apply, Pi.add_apply, Pi.single_eq_same] at hfile
  obtain ⟨-, hstatus, hcount, -⟩ := hfile.of_opening
  refine ⟨.returned err copied, t.setNone file, ?_, ?_⟩
  . simp [FileTable.fdArrayFree, hstatus, hcount]
  . rw [Control.roles, zero_add]
    exact h.setNone_opening

theorem fopenCountDec (h : t.Inv (Pi.single file 1) rest)
    : Goes (t.fopenCountDec file err copied) rest := by
  have hfile := h file
  rw [Pi.single_eq_same] at hfile
  unfold FileTable.fopenCountDec
  simp only [modify_slots_self]
  split
  next hzero =>
    obtain ⟨hstatus, node, hnode, hinv⟩ := hfile.vfsClose (by omega)
    refine ⟨.fdArrayFree file err copied, (t.modify file fun f =>
      { f with openCount := f.openCount - 1 }).record file (.vfsClose node), ?_, ?_⟩
    . simp [FileTable.fdArrayFree, hstatus, hnode, hzero]
    . rw [Control.roles]
      apply h.update file <;> simp +contextual
      intro _
      simpa using hinv
  next hpos =>
    refine ⟨.returned err copied, _, rfl, ?_⟩
    rw [Control.roles, zero_add]
    apply h.update file <;> simp +contextual
    intro _
    exact hfile.release (by omega)

theorem fdArrayRelease (h : t.Inv (Pi.single file 1) rest)
    : Goes (t.fdArrayRelease file err copied) rest := by
  have hfile := h file
  rw [Pi.single_eq_same] at hfile
  obtain ⟨node, calls, -, -, hlife⟩ := hfile.of_held
  have hassert : ((t.slots file).status = .fdOpened ∨ (t.slots file).status = .fdClosed) ∧
      0 < (t.slots file).openCount := by
    cases hlife with
    | inl hlife => exact ⟨.inl hlife.1, by have := hlife.2.2; omega⟩
    | inr hlife => exact ⟨.inr hlife.1, by have := hlife.2.2; omega⟩
  unfold FileTable.fdArrayRelease
  rw [if_pos hassert]
  exact h.fopenCountDec

theorem fdArrayClose (h : t.Inv 0 rest) (hstatus : (t.slots file).status = .fdOpened)
    : Goes (t.fdArrayClose file err copied) rest := by
  obtain ⟨node, calls, -, -, hcount, -⟩ := (h file).of_opened hstatus
  unfold FileTable.fdArrayClose
  rw [if_pos ⟨hstatus, by simp only [hcount]; omega⟩]
  exact (h.setClosed hstatus).fopenCountDec

end Inv

theorem Goes.returned (h : t.Inv 0 rest) : Goes (some (.returned err copied, t)) rest := by
  refine ⟨_, t, rfl, ?_⟩
  rw [Control.roles, zero_add]
  exact h

theorem firstNone_status (h : t.firstNone = some file) : (t.slots file).status = .fdNone := by
  simpa using List.find?_some h

/--
An allocated slot is reserved for the caller, an allocation that fails changes nothing. The slot was
not in use.
-/
theorem Inv.fdArrayAlloc (h : t.Inv 0 rest) (fd : Int)
    : (∃ e, t.fdArrayAlloc fd = some (.error e, t)) ∨
      ∃ file u, t.fdArrayAlloc fd = some (.ok file, u) ∧ (t.slots file).status = .fdNone ∧
        (∀ x, x ≠ file → u.slots x = t.slots x) ∧ (u.slots file).status = .fdInit ∧
        u.Inv 0 (Pi.single file {.opening} + rest) := by
  have hfound : ∀ file, (t.slots file).status = .fdNone →
      ∃ u, t.found file = some (.ok file, u) ∧ (t.slots file).status = .fdNone ∧
        (∀ x, x ≠ file → u.slots x = t.slots x) ∧ (u.slots file).status = .fdInit ∧
        u.Inv 0 (Pi.single file {.opening} + rest) := by
    intro file hstatus
    obtain ⟨-, hcount, -⟩ := (h file).of_none hstatus
    refine ⟨_, if_pos hcount, hstatus, ?_, ?_, h.setInit hstatus none⟩
    . simp +contextual
    . simp
  unfold FileTable.fdArrayAlloc
  split
  . split
    next file hfirst => exact .inr ⟨file, hfound file (firstNone_status hfirst)⟩
    . exact .inl ⟨_, rfl⟩
  . split
    next htest =>
      by_cases hstatus : (t.slots ⟨fd.toNat, by have := htest.1; have := htest.2; omega⟩).status = .fdNone
      . rw [if_pos hstatus]
        exact .inr ⟨_, hfound _ hstatus⟩
      . rw [if_neg hstatus]
        exact .inl ⟨_, rfl⟩
    . exact .inl ⟨_, rfl⟩

theorem fd2file_status {fd : Int} (h : t.fd2file fd = .ok file)
    : (t.slots file).status = .fdOpened := by
  unfold fd2file at h
  split at h
  . simp only at h
    split at h
    next hopened =>
      rw [Except.ok.injEq] at h
      exact h ▸ hopened.1
    . contradiction
  . contradiction

/--
The close of a slot that no thread is using goes on to the `vfs_close`, and the slot is free afterwards.
-/
theorem Inv.fdArrayClose_idle (h : t.Inv 0 0) (hstatus : (t.slots file).status = .fdOpened)
    (err : Int) (copied : BitVec 64)
    : ∃ node u, (t.slots file).node = some node ∧
      t.fdArrayClose file err copied = some (.fdArrayFree file err copied, u) ∧
      (∀ x, x ≠ file → u.slots x = t.slots x) ∧ (u.slots file).node = some node ∧
      (u.setNone file).Inv 0 0 := by
  obtain ⟨node, calls, -, hnode, hcount, hroles⟩ := (h file).of_opened hstatus
  obtain rfl : calls = 0 := by
    have := congrArg Multiset.card hroles
    simpa using this.symm
  have hone : (t.slots file).openCount = 1 := by simpa using hcount
  obtain ⟨d, u, hclose, hinv⟩ : Goes (t.fdArrayClose file err copied) 0 := h.fdArrayClose hstatus
  have hrun : t.fdArrayClose file err copied = some (.fdArrayFree file err copied,
      (((t.modify file fun f => { f with status := .fdClosed }).record file .setClosed).modify file
        fun f => { f with openCount := f.openCount - 1 }).record file (.vfsClose node)) := by
    simp [FileTable.fdArrayClose, FileTable.fopenCountDec, FileTable.fdArrayFree, hstatus, hone, hnode]
  rw [hrun, Option.some_inj, Prod.mk.injEq] at hclose
  obtain ⟨rfl, rfl⟩ := hclose
  refine ⟨node, _, hnode, hrun, ?_, ?_, hinv.setNone_freeing⟩
  . simp +contextual
  . simp [hnode]

end FileTable
end Ucore

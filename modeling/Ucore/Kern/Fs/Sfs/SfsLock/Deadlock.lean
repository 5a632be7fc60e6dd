import Mathlib
import Ucore.Kern.Fs.Sfs.SfsLock.Impl
import Ucore.Kern.Sync.LockRuns

/-!
This module contains the order of the locks of the file system: every function takes them in this order and gives
back on every way out what it has taken. So the calls of any number of threads in any interleaving have no deadlock.
-/

namespace Ucore
namespace SfsLock

open LockProg

def rank : SfsLock → Fin 4
  | fs => 0
  | sin _ => 1
  | io => 2
  | disk0 => 3

variable {node : Nat} {r : Fin 4}

/--
A program that takes no lock below `r`.
-/
abbrev From (r : Fin 4) {α : Type} (m : LockProg SfsLock α) : Prop := m.Nested rank r

theorem sin_lt_io (node : Nat) : rank (sin node) < 2 := by
  change (1 : Fin 4) < 2
  decide

theorem from_disk0Io : From 3 disk0Io := by
  apply nested_test.bind
  intro unaligned
  apply nested_test.bind
  intro pastEnd
  apply nested_test.bind
  intro nothing
  split
  . exact nested_done false
  . split
    . exact nested_done true
    . apply nested_lock (releases_unlock (nested_done true))
      exact le_refl (rank disk0)

/--
A transfer that holds `io_sem`.
-/
theorem from_locked_io {m : LockProg SfsLock Bool} (hm : From 3 m)
    : From 2 (do
        lock io
        let ok ← m
        unlock io
        return ok) := by
  apply nested_lock ?_ (le_refl (rank io))
  apply Releases.bind hm (by decide)
  intro ok
  exact releases_unlock (nested_done ok)

theorem from_sfsRwblock : From 2 sfsRwblock := by
  apply nested_lock ?_ (le_refl (rank io))
  apply releases_count
  intro nblks
  apply Releases.bind (from_disk0Io.rounds nblks) (by decide)
  intro ok
  exact releases_unlock (nested_done ok)

theorem from_sfsRbuf : From 2 sfsRbuf := from_locked_io from_disk0Io

theorem from_sfsWbuf : From 2 sfsWbuf := from_locked_io (from_disk0Io.andThen from_disk0Io)

theorem from_sfsSyncSuper : From 2 sfsSyncSuper := from_locked_io from_disk0Io

theorem from_sfsClearBlock : From 2 sfsClearBlock := from_sfsRwblock

theorem from_sfsBlockAlloc : From 2 sfsBlockAlloc := by
  apply nested_test.bind
  intro found
  split
  . exact from_sfsClearBlock
  . exact nested_done false

theorem from_allocEntry : From 2 allocEntry := from_sfsBlockAlloc.andThen from_sfsWbuf

theorem from_sfsBmapGetSubNolock (create : Bool) : From 2 (sfsBmapGetSubNolock create) := by
  apply nested_test.bind
  intro entp
  split
  . apply from_sfsRbuf.andThen
    apply nested_test.bind
    intro ino
    split
    . exact nested_done true
    . exact from_allocEntry
  . split
    . exact nested_done true
    . exact from_sfsBlockAlloc.andThen from_allocEntry

theorem from_sfsBmapGetNolock (create : Bool) : From 2 (sfsBmapGetNolock create) := by
  apply nested_test.bind
  intro direct
  split
  . apply nested_test.bind
    intro ino
    split
    . exact from_sfsBlockAlloc
    . exact nested_done true
  . exact from_sfsBmapGetSubNolock create

theorem from_sfsBmapLoadNolock : From 2 sfsBmapLoadNolock := nested_test.bind from_sfsBmapGetNolock

theorem from_sfsBmapTruncateNolock : From 2 sfsBmapTruncateNolock := by
  apply nested_test.bind
  intro indirect
  split
  . apply from_sfsRbuf.andThen
    apply nested_test.bind
    intro ino
    split
    . exact from_sfsWbuf
    . exact nested_done true
  . exact nested_done true

theorem from_direntLoop (nslots : Nat) : From 2 (direntLoop nslots) := by
  induction nslots with
  | zero => exact nested_done false
  | succ nslots ih =>
    apply (from_sfsBmapLoadNolock.andThen from_sfsRbuf).andThen
    apply nested_test.bind
    intro found
    split
    . exact nested_done true
    . exact ih

theorem from_sfsDirentSearchNolock : From 2 sfsDirentSearchNolock := by
  apply nested_test.bind
  intro noMem
  apply nested_count.bind
  intro nslots
  split
  . exact nested_done false
  . exact from_direntLoop nslots

theorem from_sfsGetdirentrySubNolock : From 2 sfsGetdirentrySubNolock := nested_count.bind from_direntLoop

/--
`sfs_load_inode` has four ways out.
-/
theorem from_sfsLoadInode : From 0 sfsLoadInode := by
  apply nested_lock ?_ (le_refl (rank fs))
  apply releases_test
  intro cached
  apply releases_test
  intro noMem
  split
  . exact releases_unlock (nested_done true)
  . split
    . exact releases_unlock (nested_done false)
    . apply Releases.bind from_sfsRbuf (by decide)
      intro ok
      apply releases_test
      intro created
      split
      . exact releases_unlock (nested_done false)
      . split
        . exact releases_unlock (nested_done false)
        . exact releases_unlock (nested_done true)

/--
The inode is loaded when the directory has been given back.
-/
theorem from_sfsLookupOnce : From 0 (sfsLookupOnce node) := by
  apply nested_lock ?_ (Fin.zero_le (rank (sin node)))
  apply Releases.bind from_sfsDirentSearchNolock (sin_lt_io node)
  intro ok
  apply releases_unlock
  split
  . exact from_sfsLoadInode
  . exact nested_done false

theorem from_partialBlock (write : Bool) : From 2 (partialBlock write) := by
  apply from_sfsBmapLoadNolock.andThen
  split
  . exact from_sfsWbuf
  . exact from_sfsRbuf

theorem from_alignedPart (write : Bool) : From 2 (alignedPart write) := by
  apply nested_test.bind
  intro nblks
  apply nested_test.bind
  intro size
  apply Nested.andThen
  . split
    . exact from_sfsBmapLoadNolock.andThen from_sfsRwblock
    . exact nested_done true
  . split
    . exact from_partialBlock write
    . exact nested_done true

theorem from_sfsIoNolock (write : Bool) : From 2 (sfsIoNolock write) := by
  apply nested_test.bind
  intro inval
  apply nested_test.bind
  intro nothing
  apply nested_test.bind
  intro pastSize
  apply nested_test.bind
  intro blkoff
  apply nested_test.bind
  intro nblks
  split
  . exact nested_done false
  . split
    . exact nested_done true
    . split
      . apply (from_partialBlock write).andThen
        split
        . exact from_alignedPart write
        . exact nested_done true
      . exact from_alignedPart write

theorem from_sfsIo (write : Bool) : From 1 (sfsIo node write) := by
  apply nested_lock ?_ (le_refl (rank (sin node)))
  apply Releases.bind (from_sfsIoNolock write) (sin_lt_io node)
  intro ok
  exact releases_unlock (nested_done ok)

theorem from_sfsFsync : From 1 (sfsFsync node) := by
  have from_write (dirty : Bool) : From 2 (if dirty then sfsWbuf else pure true) := by
    split
    . exact from_sfsWbuf
    . exact nested_done true
  apply nested_test.bind
  intro dirty
  split
  . apply nested_lock ?_ (le_refl (rank (sin node)))
    apply releases_test
    intro dirty
    apply Releases.bind (from_write dirty) (sin_lt_io node)
    intro ok
    exact releases_unlock (nested_done ok)
  . exact nested_done true

theorem from_sfsTruncfile : From 1 (sfsTruncfile node) := by
  apply nested_test.bind
  intro inval
  apply nested_test.bind
  intro same
  split
  . exact nested_done false
  . split
    . exact nested_done true
    . apply nested_lock ?_ (le_refl (rank (sin node)))
      apply releases_test
      intro grows
      apply releases_count
      intro n
      have hround : From 2 (if grows then sfsBmapLoadNolock else sfsBmapTruncateNolock) := by
        split
        . exact from_sfsBmapLoadNolock
        . exact from_sfsBmapTruncateNolock
      apply Releases.bind (hround.rounds n) (sin_lt_io node)
      intro ok
      exact releases_unlock (nested_done ok)

theorem from_sfsGetdirentry : From 1 (sfsGetdirentry node) := by
  apply nested_test.bind
  intro noMem
  apply nested_test.bind
  intro inval
  apply nested_test.bind
  intro noent
  split
  . exact nested_done false
  . apply nested_lock ?_ (le_refl (rank (sin node)))
    apply Releases.bind from_sfsGetdirentrySubNolock (sin_lt_io node)
    intro ok
    apply releases_test
    intro moved
    split
    . exact releases_unlock (nested_done false)
    . exact releases_unlock (nested_done moved)

/--
`sfs_reclaim` truncates and writes back the inode with the lock of the file system.
-/
theorem from_sfsReclaim : From 0 (sfsReclaim node) := by
  have from_truncate (nlinks : Bool) : From 1 (if nlinks then pure true else sfsTruncfile node) := by
    split
    . exact nested_done true
    . exact from_sfsTruncfile
  have from_write (dirty : Bool) : From 1 (if dirty then sfsFsync node else pure true) := by
    split
    . exact from_sfsFsync
    . exact nested_done true
  apply nested_lock ?_ (le_refl (rank fs))
  apply releases_test
  intro busy
  apply releases_test
  intro nlinks
  split
  . exact releases_unlock (nested_done false)
  . apply Releases.bind (from_truncate nlinks) (by decide)
    intro ok
    split
    . exact releases_unlock (nested_done false)
    . apply releases_test
      intro dirty
      apply Releases.bind (from_write dirty) (by decide)
      intro ok
      split
      . exact releases_unlock (nested_done false)
      . exact releases_unlock (nested_done true)

theorem from_syncLoop (n : Nat) : From 1 (syncLoop n) := by
  induction n with
  | zero => exact nested_done ()
  | succ n ih =>
    apply nested_count.bind
    intro node
    apply from_sfsFsync.bind
    intro ok
    exact ih

theorem from_sfsSync : From 0 sfsSync := by
  apply nested_lock ?_ (le_refl (rank fs))
  apply releases_count
  intro n
  apply Releases.bind (from_syncLoop n) (by decide)
  intro _
  apply releases_unlock
  apply nested_test.bind
  intro superDirty
  split
  . exact (from_sfsSyncSuper.andThen from_sfsRwblock).mono (Fin.zero_le _)
  . exact nested_done true

end SfsLock

theorem SfsCall.nested_prog (call : SfsCall) : SfsLock.From 0 call.prog := by
  cases call with
  | io node write => exact (SfsLock.from_sfsIo write).mono (Fin.zero_le _)
  | truncfile node => exact SfsLock.from_sfsTruncfile.mono (Fin.zero_le _)
  | fsync node => exact SfsLock.from_sfsFsync.mono (Fin.zero_le _)
  | lookupOnce node => exact SfsLock.from_sfsLookupOnce
  | getdirentry node => exact SfsLock.from_sfsGetdirentry.mono (Fin.zero_le _)
  | loadInode => exact SfsLock.from_sfsLoadInode
  | reclaim node => exact SfsLock.from_sfsReclaim
  | sync => exact SfsLock.from_sfsSync

namespace SfsCall

variable {s : LockSys SfsLock Bool}

/--
Threads that wait for each other never form a cycle, so none waits for a lock that it holds. A thread that has come
back from its call holds no lock, and where a thread waits another one can go on, whatever its data says.
-/
theorem locks_deadlock_free (h : s.Reachable prog true)
    : (∀ t, ¬Relation.TransGen s.WaitsFor t t) ∧
        (∀ t l, t ∈ (s.sems l).waitQueue → ¬s.Holds t l) ∧
        (∀ t, (s.threads t).Idle → ∀ l, ¬s.Holds t l) ∧
        ∀ t l, t ∈ (s.sems l).waitQueue → ∃ u, ∀ answer, s.go u answer ≠ none := by
  have hinv := h.inv SfsCall.nested_prog
  refine ⟨hinv.acyclic, ?_, fun t hidle => hinv.not_holds_of_idle hidle, fun t l hmem => hinv.exists_goes_on hmem⟩
  intro t l hmem hholds
  exact hinv.acyclic t (.single ⟨l, hmem, hholds⟩)

/--
The first thread has an inode, the one in `sfs_sync` waits for it with the lock of the file system, for which the
third one waits.
-/
def syncRun : List (LockEvent SfsCall) :=
  [.start 1 (.io 7 true), .go 1 0, .start 0 .sync, .go 0 0, .go 0 1, .go 0 7, .go 0 1, .go 0 0,
    .start 2 .loadInode, .go 2 0]

def endOf (events : List (LockEvent SfsCall)) : LockSys SfsLock Bool :=
  (Run.exec (LockSys.step prog) (LockSys.init true) events).getD (LockSys.init true)

theorem locks_deadlock_free_syncRun
    : 0 ∈ ((endOf syncRun).sems (.sin 7)).waitQueue ∧ 2 ∈ ((endOf syncRun).sems .fs).waitQueue ∧
        ¬Relation.TransGen (endOf syncRun).WaitsFor 2 2 := by
  have hreachable : (endOf syncRun).Reachable prog true := by
    have hsome : (Run.exec (LockSys.step prog) (LockSys.init true) syncRun).isSome := by decide +kernel
    obtain ⟨s, hs⟩ := Option.isSome_iff_exists.mp hsome
    exact ⟨syncRun, by rw [endOf, hs, Option.getD_some]⟩
  exact ⟨by decide +kernel, by decide +kernel, (locks_deadlock_free hreachable).1 2⟩

end SfsCall
end Ucore

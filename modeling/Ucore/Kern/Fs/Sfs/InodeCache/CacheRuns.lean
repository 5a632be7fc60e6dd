import Ucore.Kern.Fs.Sfs.InodeCache.Invariant
import Ucore.Lib.Threads

/-!
This module contains the threads that use the inodes in memory, and that an inode is in memory once
and is freed once, when it has been given back, in whatever order the threads go on.
-/

namespace Ucore

/--
The calls that change a count. `touch` stands for the file operations that leave an inode dirty or
write it back.
-/
inductive CacheCall where
  | load (ino : BitVec 32)
  | refInc (node : Nat)
  | refDec (node : Nat)
  | openInc (node : Nat)
  | openDec (node : Nat)
  | touch (node : Nat) (dirty : Bool)

inductive CacheEvent where
  | call (k : CacheCall)
  | wake (ans : CacheAnswer)

/--
What stops the kernel in `sfs_load_inode`: the block of the inode is not in use, or it has no links.
-/
def CacheEvent.Panics : CacheEvent → Prop
  | .call _ => False
  | .wake ans => ans.inuse = false ∨ ans.nlinks = 0

/--
A caller has a reference to the inode that it uses, it gives back a reference that does not belong to
an open, and it opens with such a reference.
-/
def CacheCall.Entitled (s : InodeCache) : CacheCall → Prop
  | .load _ => True
  | .refInc node => 0 < s.refs node
  | .refDec node => 0 < s.refs node ∧ ∀ sin ∈ s.nodes node, sin.openCount < sin.refCount
  | .openInc node => 0 < s.refs node ∧ ∀ sin ∈ s.nodes node, sin.openCount < sin.refCount
  | .openDec node => 0 < s.refs node ∧ ∀ sin ∈ s.nodes node, 0 < sin.openCount
  | .touch node _ => 0 < s.refs node

instance (s : InodeCache) : (k : CacheCall) → Decidable (k.Entitled s)
  | .load _ => inferInstanceAs (Decidable True)
  | .refInc _ => inferInstanceAs (Decidable (_ < _))
  | .refDec _ => inferInstanceAs (Decidable (_ ∧ _))
  | .openInc _ => inferInstanceAs (Decidable (_ ∧ _))
  | .openDec _ => inferInstanceAs (Decidable (_ ∧ _))
  | .touch _ _ => inferInstanceAs (Decidable (_ < _))

/--
A thread in this control is in a call of `sfs_reclaim` for the inode.
-/
def CacheControl.Reclaims (c : CacheControl) (node : Nat) : Prop :=
  c = .reclaimLock node ∨ c = .reclaimTruncate node ∨ c = .reclaimFsync node

namespace InodeCache

def call (s : InodeCache) : CacheCall → Option (InodeCache × CacheControl)
  | .load ino => some (s, .loadLock ino)
  | .refInc node => (s.inodeRefInc node).map fun r => (r.2, .returned r.1 none)
  | .refDec node => s.inodeRefDec node
  | .openInc node => (s.inodeOpenInc node).map fun r => (r.2, .returned r.1 none)
  | .openDec node => (s.inodeOpenDec node).map fun r => (r.2, .returned r.1 none)
  | .touch node dirty => some (s.modify node fun sin => { sin with dirty }, .returned 0 none)

/--
A thread that waits makes no call, and `kmalloc` hands out memory that is free.
-/
def run (s : InodeCache) (c : CacheControl) : CacheEvent → Option (InodeCache × CacheControl)
  | .call k =>
    match c with
    | .returned .. => if k.Entitled s then s.call k else some (s, c)
    | _ => some (s, c)
  | .wake ans => if ∀ node ∈ ans.node, s.nodes node = none then s.wake c ans else some (s, c)

/--
A file system behind its mount that `n` threads use, no inode is in memory.
-/
def start (n : Nat) : Threads.System InodeCache CacheControl where
  shared := {
    nodes := fun _ => none
    hashList := fun _ => []
    locked := false
    refs := fun _ => 0
    failed := fun _ => false
    made := fun _ => 0
    freed := fun _ => 0 }
  threads := List.replicate n (.returned 0 none)

variable {s : InodeCache} {rest : CacheShare}

theorem Inv.call (h : s.Inv rest) {k : CacheCall} (hk : k.Entitled s)
    : ∃ t d, s.call k = some (t, d) ∧ t.Inv (d.owns + rest) := by
  cases k with
  | load ino =>
    refine ⟨s, .loadLock ino, rfl, ?_⟩
    simpa [CacheControl.owns] using h
  | refInc node =>
    obtain ⟨ret, t, hinc, hinv⟩ := h.inodeRefInc hk
    refine ⟨t, .returned ret none, by simp [InodeCache.call, hinc], ?_⟩
    rw [CacheControl.returned_owns_add]
    exact hinv
  | refDec node => exact h.inodeRefDec hk.1 hk.2
  | openInc node =>
    obtain ⟨ret, t, hinc, hinv⟩ := h.inodeOpenInc hk.1 hk.2
    refine ⟨t, .returned ret none, by simp [InodeCache.call, hinc], ?_⟩
    rw [CacheControl.returned_owns_add]
    exact hinv
  | openDec node =>
    obtain ⟨ret, t, hdec, hinv⟩ := h.inodeOpenDec hk.1 hk.2
    refine ⟨t, .returned ret none, by simp [InodeCache.call, hdec], ?_⟩
    rw [CacheControl.returned_owns_add]
    exact hinv
  | touch node dirty =>
    obtain ⟨sin, hsin⟩ := h.alive hk
    have hcounts := h.counts node sin hsin
    refine ⟨_, .returned 0 none, rfl, ?_⟩
    rw [CacheControl.returned_owns_add]
    exact h.modify_open hk hsin rfl rfl rfl hcounts.openCount_nonneg hcounts.openCount_le

theorem Inv.run {c : CacheControl} (h : s.Inv (c.owns + rest)) (e : CacheEvent)
    : s.run c e = none ∧ e.Panics ∨ ∃ t d, s.run c e = some (t, d) ∧ t.Inv (d.owns + rest) := by
  cases e with
  | call k =>
    cases c with
    | returned ret nodeStore =>
      right
      unfold InodeCache.run
      simp only
      split
      next hk =>
        rw [CacheControl.returned_owns_add] at h
        exact h.call hk
      . exact ⟨s, _, rfl, h⟩
    | _ => exact .inr ⟨s, _, rfl, h⟩
  | wake ans =>
    unfold InodeCache.run
    simp only
    split
    next hfree => exact h.wake hfree
    . exact .inr ⟨s, _, rfl, h⟩

theorem start_inv (n : Nat)
    : (start n).shared.Inv (Threads.total CacheControl.owns (start n).threads) := by
  rw [Threads.total_eq_zero]
  . constructor <;> simp [start]
  . intro c hc
    obtain ⟨-, rfl⟩ := List.mem_replicate.mp hc
    rfl

/--
The number of threads that have given back the last reference to the inode and are yet to get the lock.
-/
def pendingReclaims (threads : List CacheControl) (node : Nat) : Nat :=
  threads.countP fun c => c = .reclaimLock node

theorem total_pending (threads : List CacheControl) (node : Nat)
    : (Threads.total CacheControl.owns threads).1 node = pendingReclaims threads node := by
  induction threads with
  | nil => rfl
  | cons c threads ih =>
    have hcons : Threads.total CacheControl.owns (c :: threads) =
        c.owns + Threads.total CacheControl.owns threads := by
      simp [Threads.total]
    rw [hcons, Prod.fst_add, Pi.add_apply, ih, pendingReclaims, pendingReclaims, List.countP_cons]
    cases c with
    | reclaimLock n =>
      by_cases hn : node = n
      . subst hn
        simp [CacheControl.owns, add_comm]
      . simp [CacheControl.owns, hn, Ne.symm hn]
    | _ => simp [CacheControl.owns]

theorem total_reclaiming {threads : List CacheControl} {node : Nat}
    (h : .reclaiming node ∈ (Threads.total CacheControl.owns threads).2)
    : ∃ c ∈ threads, c.Reclaims node := by
  induction threads with
  | nil => simp [Threads.total] at h
  | cons c threads ih =>
    have hcons : Threads.total CacheControl.owns (c :: threads) =
        c.owns + Threads.total CacheControl.owns threads := by
      simp [Threads.total]
    rw [hcons, Prod.snd_add, Multiset.mem_add] at h
    cases h with
    | inl hc =>
      refine ⟨c, List.mem_cons_self, ?_⟩
      cases c <;> simp_all [CacheControl.owns, CacheControl.Reclaims]
    | inr hrest =>
      obtain ⟨d, hd, hreclaims⟩ := ih hrest
      exact ⟨d, List.mem_cons_of_mem _ hd, hreclaims⟩

end InodeCache

/--
There is one inode in memory for a number. It is in memory as long as there is a reference to it or a
reclaim of it to come, and `reclaim_count` is the number of reclaims to come with the one of the
references that are left. What has been made is freed once or is in memory, and if it is in memory
without a reference and no thread is in a reclaim of it, then the last one could not write it back.
-/
structure CacheLifeCycle (s : Threads.System InodeCache CacheControl) : Prop where
  unique : ∀ n m x y, s.shared.nodes n = some x → s.shared.nodes m = some y → x.ino = y.ino → n = m
  inMemory : ∀ n, 0 < s.shared.refs n ∨ 0 < InodeCache.pendingReclaims s.threads n →
    ∃ sin, s.shared.nodes n = some sin
  counts : ∀ n sin, s.shared.nodes n = some sin → sin.refCount = s.shared.refs n ∧
    sin.reclaimCount =
      InodeCache.pendingReclaims s.threads n + if 0 < s.shared.refs n then 1 else 0
  freedOnce : ∀ n, s.shared.made n = s.shared.freed n + if (s.shared.nodes n).isSome then 1 else 0
  reclaimed : ∀ n sin, s.shared.nodes n = some sin → s.shared.refs n = 0 →
    (∀ c ∈ s.threads, ¬c.Reclaims n) → s.shared.failed n = true

theorem InodeCache.Inv.lifeCycle {s : Threads.System InodeCache CacheControl}
    (h : s.shared.Inv (Threads.total CacheControl.owns s.threads))
    : CacheLifeCycle s := by
  constructor
  . exact h.unique
  . intro n hn
    cases hnode : s.shared.nodes n with
    | none =>
      obtain ⟨hrefs, hpending⟩ := h.dead n hnode
      rw [InodeCache.total_pending] at hpending
      omega
    | some sin => exact ⟨sin, rfl⟩
  . intro n sin hsin
    have hcounts := h.counts n sin hsin
    rw [InodeCache.total_pending] at hcounts
    exact ⟨hcounts.refCount, hcounts.reclaimCount⟩
  . exact h.once
  . intro n sin hsin hrefs hno
    have hpending : (Threads.total CacheControl.owns s.threads).1 n = 0 := by
      rw [InodeCache.total_pending, InodeCache.pendingReclaims, List.countP_eq_zero]
      intro c hc hlock
      exact hno c hc (.inl (by simpa using hlock))
    cases h.written n sin hsin hrefs hpending with
    | inl hfailed => exact hfailed
    | inr hmem =>
      obtain ⟨c, hc, hreclaims⟩ := InodeCache.total_reclaiming hmem
      exact absurd hreclaims (hno c hc)

/--
Every run of any number of threads keeps the life cycle of the inodes, up to a load that panics.
-/
theorem inode_cache_life_cycle (n : Nat) (events : List (Nat × CacheEvent))
    : Run.exec (Threads.step InodeCache.run) (InodeCache.start n) events = none ∧
        (∃ e ∈ events, e.2.Panics) ∨
      ∃ s, Run.exec (Threads.step InodeCache.run) (InodeCache.start n) events = some s ∧
        CacheLifeCycle s := by
  cases Threads.exec_invariant CacheEvent.Panics (fun _ _ e _ h => h.run e)
    (InodeCache.start_inv n) events with
  | inl hpanics => exact .inl hpanics
  | inr hends =>
    obtain ⟨s, hexec, hinv⟩ := hends
    exact .inr ⟨s, hexec, hinv.lifeCycle⟩

-- A lookup revives the inode between the drop of its last reference and the reclaim.
example : (Run.exec (Threads.step InodeCache.run) (InodeCache.start 2)
    [(0, .call (.load 5)), (0, .wake ⟨true, true, 0, 1, none, false⟩),
      (0, .wake ⟨true, true, 0, 1, some 7, false⟩), (0, .call (.refDec 7)), (1, .call (.load 5)),
      (1, .wake ⟨true, true, 0, 1, none, false⟩), (0, .wake ⟨true, true, 0, 1, none, false⟩),
      (1, .call (.refDec 7)), (1, .wake ⟨true, true, 0, 1, none, false⟩)]).map
        (fun s => (s.shared.made 7, s.shared.freed 7)) = some (1, 1) := by
  decide

end Ucore

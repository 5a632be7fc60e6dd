import Mathlib
import Ucore.Kern.Fs.Sfs.InodeCache.Impl

/-!
This module contains the invariant of the inodes in memory, which counts the references to an inode
and the threads on their way into `sfs_reclaim`, and that every function keeps it.
-/

namespace Ucore

/--
What the thread that has `fs_sem` waits for.
-/
inductive Holder where
  | loading (ino : BitVec 32)
  | reclaiming (node : Nat)

/--
How many threads are about to reclaim an inode, and the threads that have `fs_sem`.
-/
abbrev CacheShare := (Nat → Nat) × Multiset Holder

def CacheControl.owns : CacheControl → CacheShare
  | .returned .. => 0
  | .loadLock _ => 0
  | .loadRead ino => (0, {.loading ino})
  | .reclaimLock node => (Pi.single node 1, 0)
  | .reclaimTruncate node => (0, {.reclaiming node})
  | .reclaimFsync node => (0, {.reclaiming node})

theorem CacheControl.returned_owns_add (ret : Int) (nodeStore : Option Nat) (rest : CacheShare)
    : (returned ret nodeStore).owns + rest = rest :=
  zero_add rest

/--
`reclaim_count` is the number of reclaims that are still to come, the one of the references that are
left included.
-/
structure SfsNode.Counts (sin : SfsNode) (refs pending : Nat) : Prop where
  refCount : sin.refCount = refs
  reclaimCount : sin.reclaimCount = pending + if 0 < refs then 1 else 0
  openCount_nonneg : 0 ≤ sin.openCount
  openCount_le : sin.openCount ≤ sin.refCount

namespace InodeCache

structure Inv (s : InodeCache) (o : CacheShare) : Prop where
  hashed : ∀ b n, n ∈ s.hashList b ↔ ∃ sin, s.nodes n = some sin ∧ sinHashfn sin.ino = b
  nodup : ∀ b, (s.hashList b).Nodup
  unique : ∀ n m x y, s.nodes n = some x → s.nodes m = some y → x.ino = y.ino → n = m
  counts : ∀ n sin, s.nodes n = some sin → sin.Counts (s.refs n) (o.1 n)
  dead : ∀ n, s.nodes n = none → s.refs n = 0 ∧ o.1 n = 0
  holder : o.2.card = if s.locked then 1 else 0
  loading : ∀ ino, .loading ino ∈ o.2 → ∀ n sin, s.nodes n = some sin → sin.ino ≠ ino
  reclaiming : ∀ n, .reclaiming n ∈ o.2 →
    ∃ sin, s.nodes n = some sin ∧ s.refs n = 0 ∧ o.1 n = 0
  written : ∀ n sin, s.nodes n = some sin → s.refs n = 0 → o.1 n = 0 →
    s.failed n = true ∨ .reclaiming n ∈ o.2
  once : ∀ n, s.made n = s.freed n + if (s.nodes n).isSome then 1 else 0

/--
Nothing but the inode at `node` differs, its lock apart.
-/
structure SameBut (s : InodeCache) (node : Nat) (t : InodeCache) : Prop where
  nodes : ∀ n, n ≠ node → t.nodes n = s.nodes n
  hashList : t.hashList = s.hashList
  refs : ∀ n, n ≠ node → t.refs n = s.refs n
  failed : ∀ n, n ≠ node → t.failed n = s.failed n
  made : t.made = s.made
  freed : t.freed = s.freed

variable {s t : InodeCache} {o p rest : CacheShare} {node : Nat} {sin : SfsNode}
  {ino : BitVec 32} {ans : CacheAnswer}

theorem find_node {found : Nat}
    (hfind : (s.hashList (sinHashfn ino)).find? (fun n => (s.nodes n).any (·.ino = ino)) = some found)
    : ∃ sin, s.nodes found = some sin ∧ sin.ino = ino := by
  have hany := List.find?_some hfind
  cases hnode : s.nodes found with
  | none => simp [hnode] at hany
  | some sin =>
    rw [hnode] at hany
    exact ⟨sin, rfl, by simpa using hany⟩

namespace Inv

/--
A change to one inode in memory leaves the invariant of the others as it is.
-/
theorem change (h : s.Inv o) (sout : SfsNode) (hsin : s.nodes node = some sin) (hsame : s.SameBut node t)
    (hself : t.nodes node = some sout) (hino : sout.ino = sin.ino)
    (hpending : ∀ n, n ≠ node → p.1 n = o.1 n) (hcounts : sout.Counts (t.refs node) (p.1 node))
    (hholder : p.2.card = if t.locked then 1 else 0)
    (hloading : ∀ i, .loading i ∈ p.2 → .loading i ∈ o.2)
    (hreclaiming : .reclaiming node ∈ p.2 → t.refs node = 0 ∧ p.1 node = 0)
    (hothers : ∀ n, n ≠ node → (.reclaiming n ∈ p.2 ↔ .reclaiming n ∈ o.2))
    (hwritten : t.refs node = 0 → p.1 node = 0 → t.failed node = true ∨ .reclaiming node ∈ p.2)
    : t.Inv p := by
  have hback : ∀ n x, t.nodes n = some x → ∃ y, s.nodes n = some y ∧ x.ino = y.ino := by
    intro n x hx
    by_cases hn : n = node
    . subst hn
      rw [hself, Option.some_inj] at hx
      exact ⟨sin, hsin, hx ▸ hino⟩
    . rw [hsame.nodes n hn] at hx
      exact ⟨x, hx, rfl⟩
  constructor
  . intro b n
    rw [hsame.hashList, h.hashed]
    by_cases hn : n = node
    . subst hn
      simp [hself, hsin, hino]
    . rw [hsame.nodes n hn]
  . rw [hsame.hashList]
    exact h.nodup
  . intro n m x y hx hy heq
    obtain ⟨x₀, hx₀, hxino⟩ := hback n x hx
    obtain ⟨y₀, hy₀, hyino⟩ := hback m y hy
    exact h.unique n m x₀ y₀ hx₀ hy₀ (by rw [← hxino, ← hyino, heq])
  . intro n x hx
    by_cases hn : n = node
    . subst hn
      rw [hself, Option.some_inj] at hx
      exact hx ▸ hcounts
    . rw [hsame.nodes n hn] at hx
      rw [hsame.refs n hn, hpending n hn]
      exact h.counts n x hx
  . intro n hnone
    by_cases hn : n = node
    . subst hn
      rw [hself] at hnone
      contradiction
    . rw [hsame.nodes n hn] at hnone
      rw [hsame.refs n hn, hpending n hn]
      exact h.dead n hnone
  . exact hholder
  . intro i hi n x hx
    obtain ⟨y, hy, hyino⟩ := hback n x hx
    rw [hyino]
    exact h.loading i (hloading i hi) n y hy
  . intro n hmem
    by_cases hn : n = node
    . subst hn
      exact ⟨sout, hself, hreclaiming hmem⟩
    . rw [hsame.nodes n hn, hsame.refs n hn, hpending n hn]
      exact h.reclaiming n ((hothers n hn).mp hmem)
  . intro n x hx hzero hnone
    by_cases hn : n = node
    . subst hn
      exact hwritten hzero hnone
    . rw [hsame.nodes n hn] at hx
      rw [hsame.refs n hn] at hzero
      rw [hpending n hn] at hnone
      rw [hsame.failed n hn, hothers n hn]
      exact h.written n x hx hzero hnone
  . intro n
    rw [hsame.made, hsame.freed, h.once n]
    by_cases hn : n = node
    . subst hn
      simp [hself, hsin]
    . rw [hsame.nodes n hn]

/--
The case in which nobody reclaims the inode and the lock stays as it is.
-/
theorem change_unheld (h : s.Inv o) (sout : SfsNode) (hsin : s.nodes node = some sin)
    (hsame : s.SameBut node t)
    (hself : t.nodes node = some sout) (hino : sout.ino = sin.ino) (hlocked : t.locked = s.locked)
    (hheld : p.2 = o.2) (hnot : .reclaiming node ∉ o.2)
    (hpending : ∀ n, n ≠ node → p.1 n = o.1 n) (hcounts : sout.Counts (t.refs node) (p.1 node))
    (hwritten : t.refs node = 0 → p.1 node = 0 → t.failed node = true)
    : t.Inv p := by
  apply h.change _ hsin hsame hself hino hpending hcounts
  . rw [hheld, hlocked]
    exact h.holder
  . rw [hheld]
    exact fun _ hi => hi
  . rw [hheld]
    exact fun hmem => absurd hmem hnot
  . rw [hheld]
    exact fun _ _ => Iff.rfl
  . exact fun hzero hnone => .inl (hwritten hzero hnone)

/--
Nobody reclaims an inode to which there are references.
-/
theorem not_reclaiming (h : s.Inv o) (hrefs : 0 < s.refs node) : .reclaiming node ∉ o.2 := by
  intro hmem
  obtain ⟨-, -, hzero, -⟩ := h.reclaiming node hmem
  omega

theorem alive (h : s.Inv o) (hrefs : 0 < s.refs node) : ∃ sin, s.nodes node = some sin := by
  cases hnode : s.nodes node with
  | none =>
    have := (h.dead node hnode).1
    omega
  | some sin => exact ⟨sin, rfl⟩

theorem inodeRefInc (h : s.Inv o) (hrefs : 0 < s.refs node)
    : ∃ ret t, s.inodeRefInc node = some (ret, t) ∧ t.Inv o := by
  obtain ⟨sin, hsin⟩ := h.alive hrefs
  have hcounts := h.counts node sin hsin
  refine ⟨sin.refCount + 1, _, by simp only [InodeCache.inodeRefInc, hsin]; rfl, ?_⟩
  apply h.change_unheld { sin with refCount := sin.refCount + 1 } hsin
  . constructor <;> simp +contextual [modify]
  . simp [modify, hsin]
  . rfl
  . rfl
  . rfl
  . exact h.not_reclaiming hrefs
  . exact fun _ _ => rfl
  . have hreclaim := hcounts.reclaimCount
    have hopen := hcounts.openCount_le
    rw [if_pos hrefs] at hreclaim
    constructor
    . simp [hcounts.refCount]
    . simp [hreclaim]
    . exact hcounts.openCount_nonneg
    . exact hopen.trans (by simp only; omega)
  . simp

/--
A reference that belongs to no open is given back. The last one makes a reclaim pending.
-/
theorem inodeRefDec (h : s.Inv rest) (hrefs : 0 < s.refs node)
    (hopen : ∀ sin, s.nodes node = some sin → sin.openCount < sin.refCount)
    : ∃ t d, s.inodeRefDec node = some (t, d) ∧ t.Inv (d.owns + rest) := by
  obtain ⟨sin, hsin⟩ := h.alive hrefs
  have hcounts := h.counts node sin hsin
  have hcount := hcounts.refCount
  have hreclaim := hcounts.reclaimCount
  have hlt := hopen sin hsin
  rw [if_pos hrefs] at hreclaim
  unfold InodeCache.inodeRefDec
  simp only [hsin]
  rw [if_pos (by omega)]
  split
  next hlast =>
    have hone : s.refs node = 1 := by omega
    refine ⟨_, .reclaimLock node, rfl, ?_⟩
    apply h.change_unheld { sin with refCount := sin.refCount - 1 } hsin
    . constructor <;> simp +contextual [modify]
    . simp [modify, hsin]
    . rfl
    . rfl
    . simp [CacheControl.owns]
    . exact h.not_reclaiming hrefs
    . intro n hn
      simp [CacheControl.owns, hn]
    . constructor
      . simp [hone, hlast]
      . simp only [hone, CacheControl.owns, Function.update_self, Prod.fst_add, Pi.add_apply,
          Pi.single_eq_same]
        rw [hreclaim]
        simp
        omega
      . exact hcounts.openCount_nonneg
      . simp only
        omega
    . simp [CacheControl.owns]
  next hmore =>
    refine ⟨_, .returned (sin.refCount - 1) none, rfl, ?_⟩
    rw [CacheControl.returned_owns_add]
    apply h.change_unheld { sin with refCount := sin.refCount - 1 } hsin
    . constructor <;> simp +contextual [modify]
    . simp [modify, hsin]
    . rfl
    . rfl
    . rfl
    . exact h.not_reclaiming hrefs
    . exact fun _ _ => rfl
    . constructor
      . simp only [Function.update_self]
        omega
      . simp only [Function.update_self]
        rw [hreclaim, if_pos (by omega)]
      . exact hcounts.openCount_nonneg
      . simp only
        omega
    . simp only [Function.update_self]
      intro hzero
      omega

/--
The number of opens may change as long as it stays between zero and the number of references, and
whether the inode is dirty does not matter.
-/
theorem modify_open (h : s.Inv o) (hrefs : 0 < s.refs node) (hsin : s.nodes node = some sin)
    {f : SfsNode → SfsNode} (hino : (f sin).ino = sin.ino) (hcount : (f sin).refCount = sin.refCount)
    (hreclaim : (f sin).reclaimCount = sin.reclaimCount) (hnonneg : 0 ≤ (f sin).openCount)
    (hle : (f sin).openCount ≤ sin.refCount)
    : (s.modify node f).Inv o := by
  have hcounts := h.counts node sin hsin
  apply h.change_unheld (f sin) hsin
  . constructor <;> simp +contextual [modify]
  . simp [modify, hsin]
  . exact hino
  . rfl
  . rfl
  . exact h.not_reclaiming hrefs
  . exact fun _ _ => rfl
  . constructor
    . exact hcount.trans hcounts.refCount
    . exact hreclaim.trans hcounts.reclaimCount
    . exact hnonneg
    . rw [hcount]
      exact hle
  . intro hzero
    simp only [modify] at hzero
    omega

theorem inodeOpenInc (h : s.Inv o) (hrefs : 0 < s.refs node)
    (hopen : ∀ sin, s.nodes node = some sin → sin.openCount < sin.refCount)
    : ∃ ret t, s.inodeOpenInc node = some (ret, t) ∧ t.Inv o := by
  obtain ⟨sin, hsin⟩ := h.alive hrefs
  have hlt := hopen sin hsin
  have hnonneg := (h.counts node sin hsin).openCount_nonneg
  refine ⟨sin.openCount + 1, _, by simp only [InodeCache.inodeOpenInc, hsin]; rfl, ?_⟩
  exact h.modify_open hrefs hsin rfl rfl rfl (by simp only; omega) (by simp only; omega)

theorem inodeOpenDec (h : s.Inv o) (hrefs : 0 < s.refs node)
    (hopen : ∀ sin, s.nodes node = some sin → 0 < sin.openCount)
    : ∃ ret t, s.inodeOpenDec node = some (ret, t) ∧ t.Inv o := by
  obtain ⟨sin, hsin⟩ := h.alive hrefs
  have hpos := hopen sin hsin
  have hle := (h.counts node sin hsin).openCount_le
  refine ⟨sin.openCount - 1, _, by simp only [InodeCache.inodeOpenDec, hsin, if_pos hpos]; rfl, ?_⟩
  exact h.modify_open hrefs hsin rfl rfl rfl (by simp only; omega) (by simp only; omega)

/--
Nobody waits with the lock if the lock is free.
-/
theorem unlocked (h : s.Inv o) (hlocked : s.locked = false) : o.2 = 0 := by
  have := h.holder
  rw [hlocked] at this
  exact Multiset.card_eq_zero.mp (by simpa using this)

/--
An inode in memory is found on its hash list.
-/
theorem find_none (h : s.Inv o)
    (hfind : (s.hashList (sinHashfn ino)).find? (fun n => (s.nodes n).any (·.ino = ino)) = none)
    : ∀ n sin, s.nodes n = some sin → sin.ino ≠ ino := by
  intro n sin hsin heq
  have hmem : n ∈ s.hashList (sinHashfn ino) := (h.hashed _ n).mpr ⟨sin, hsin, by rw [heq]⟩
  have := List.find?_eq_none.mp hfind n hmem
  simp [hsin, heq] at this

theorem lookupSfsNolock (h : s.Inv o) (hlocked : s.locked = false) (ino : BitVec 32)
    : (∃ found t, s.lookupSfsNolock ino = (some found, t) ∧ t.Inv o) ∨
      s.lookupSfsNolock ino = (none, s) ∧ ∀ n sin, s.nodes n = some sin → sin.ino ≠ ino := by
  unfold InodeCache.lookupSfsNolock
  split
  next hfind => exact .inr ⟨rfl, h.find_none hfind⟩
  next found hfind =>
    obtain ⟨sin, hsin, -⟩ := find_node hfind
    have hcounts := h.counts found sin hsin
    refine .inl ⟨found, _, rfl, ?_⟩
    apply h.change_unheld _ hsin
    . constructor <;> simp +contextual [modify]
    . simp [modify, hsin]
      rfl
    . rfl
    . rfl
    . rfl
    . rw [h.unlocked hlocked]
      exact Multiset.notMem_zero _
    . exact fun _ _ => rfl
    . have hcount := hcounts.refCount
      have hopen := hcounts.openCount_le
      constructor
      . simp [hcount]
      . simp only [Function.update_self, hcounts.reclaimCount, hcount]
        -- A lookup that finds no reference makes one more reclaim due.
        by_cases hrefs : 0 < s.refs found
        . rw [if_neg (by omega), if_pos hrefs, if_pos (by omega)]
        . rw [if_pos (by omega), if_neg hrefs, if_pos (by omega)]
          omega
      . exact hcounts.openCount_nonneg
      . simp only
        omega
    . simp

/--
One thread at a time has the lock.
-/
theorem alone {holder : Holder} (h : s.Inv ((0, {holder}) + rest)) : s.locked = true ∧ rest.2 = 0 := by
  have hcard := h.holder
  rw [Prod.snd_add, Multiset.card_add, Multiset.card_singleton] at hcard
  split at hcard
  next hlocked => exact ⟨hlocked, Multiset.card_eq_zero.mp (by omega)⟩
  next => omega

/--
The inode that a thread reclaims is in memory without a reference, and no other reclaim of it is to
come.
-/
theorem held (h : s.Inv ((0, {.reclaiming node}) + rest))
    : ∃ sin, s.nodes node = some sin ∧ s.refs node = 0 ∧ rest.1 node = 0 := by
  obtain ⟨sin, hsin, hrefs, hpending⟩ := h.reclaiming node (by simp)
  exact ⟨sin, hsin, hrefs, by simpa using hpending⟩

theorem reclaimFailed (h : s.Inv ((0, {.reclaiming node}) + rest))
    : ∃ t d, s.reclaimFailed node = some (t, d) ∧ t.Inv (d.owns + rest) := by
  obtain ⟨-, hrest⟩ := h.alone
  obtain ⟨sin, hsin, hrefs, hpending⟩ := h.held
  have hcounts := h.counts node sin hsin
  refine ⟨_, _, rfl, ?_⟩
  rw [CacheControl.returned_owns_add]
  apply h.change _ hsin
  . constructor <;> simp +contextual
  . exact hsin
  . rfl
  . simp
  . simpa using hcounts
  . simp [hrest]
  . simp [hrest]
  . simp [hrest]
  . intro n hn
    simp [hrest, hn]
  . simp

theorem reclaimKill (h : s.Inv ((0, {.reclaiming node}) + rest))
    : ∃ t d, s.reclaimKill node = some (t, d) ∧ t.Inv (d.owns + rest) := by
  obtain ⟨-, hrest⟩ := h.alone
  obtain ⟨sin, hsin, hrefs, hpending⟩ := h.held
  have hcounts := h.counts node sin hsin
  have hcount := hcounts.refCount
  have hnonneg := hcounts.openCount_nonneg
  have hle := hcounts.openCount_le
  have hassert : sin.refCount = 0 ∧ sin.openCount = 0 := by omega
  refine ⟨{ s with
    nodes := Function.update s.nodes node none
    hashList := Function.update s.hashList (sinHashfn sin.ino)
      ((s.hashList (sinHashfn sin.ino)).erase node)
    locked := false
    freed := Function.update s.freed node (s.freed node + 1) }, .returned 0 none, ?_, ?_⟩
  . simp [InodeCache.reclaimKill, hsin, inodeKill, sfsRemoveLinks, hassert]
  rw [CacheControl.returned_owns_add]
  have hother : ∀ {n x}, Function.update s.nodes node none n = some x → n ≠ node ∧ s.nodes n = some x := by
    intro n x hx
    by_cases hn : n = node
    . subst hn
      simp at hx
    . rw [Function.update_of_ne hn] at hx
      exact ⟨hn, hx⟩
  constructor
  . intro b n
    simp only
    by_cases hb : b = sinHashfn sin.ino
    . subst hb
      rw [Function.update_self, (h.nodup _).mem_erase_iff, h.hashed]
      constructor
      . intro ⟨hn, x, hx, hhash⟩
        exact ⟨x, by rw [Function.update_of_ne hn, hx], hhash⟩
      . intro ⟨x, hx, hhash⟩
        exact ⟨(hother hx).1, x, (hother hx).2, hhash⟩
    . rw [Function.update_of_ne hb, h.hashed]
      constructor
      . intro ⟨x, hx, hhash⟩
        have hn : n ≠ node := by
          intro heq
          rw [heq, hsin, Option.some_inj] at hx
          exact hb (by rw [hx, hhash])
        exact ⟨x, by rw [Function.update_of_ne hn, hx], hhash⟩
      . intro ⟨x, hx, hhash⟩
        exact ⟨x, (hother hx).2, hhash⟩
  . intro b
    simp only
    by_cases hb : b = sinHashfn sin.ino
    . subst hb
      rw [Function.update_self]
      exact (h.nodup _).erase node
    . rw [Function.update_of_ne hb]
      exact h.nodup b
  . intro n m x y hx hy heq
    exact h.unique n m x y (hother hx).2 (hother hy).2 heq
  . intro n x hx
    simpa using h.counts n x (hother hx).2
  . intro n hnone
    by_cases hn : n = node
    . subst hn
      exact ⟨hrefs, hpending⟩
    . simp only [Function.update_of_ne hn] at hnone
      simpa using h.dead n hnone
  . simp [hrest]
  . simp [hrest]
  . simp [hrest]
  . intro n x hx hzero hnone
    obtain ⟨hn, hx⟩ := hother hx
    have := h.written n x hx hzero (by simpa using hnone)
    simpa [hrest, hn] using this
  . intro n
    by_cases hn : n = node
    . subst hn
      have := h.once n
      simp only [hsin, Option.isSome_some, if_true] at this
      simp [this]
    . simpa [hn] using h.once n

theorem reclaimDirty (h : s.Inv ((0, {.reclaiming node}) + rest))
    : ∃ t d, s.reclaimDirty node = some (t, d) ∧ t.Inv (d.owns + rest) := by
  obtain ⟨hlocked, -⟩ := h.alone
  obtain ⟨sin, hsin, -⟩ := h.held
  unfold InodeCache.reclaimDirty
  simp only [hsin]
  split
  . refine ⟨_, .reclaimFsync node, rfl, ?_⟩
    have : { s with locked := true } = s := by
      rw [← hlocked]
    rw [this]
    exact h
  . exact h.reclaimKill

/--
The flags of an inode that is reclaimed do not matter.
-/
theorem modify_held (h : s.Inv ((0, {.reclaiming node}) + rest)) {f : SfsNode → SfsNode}
    (hf : ∀ sin refs pending, sin.Counts refs pending → (f sin).Counts refs pending)
    (hino : ∀ sin, (f sin).ino = sin.ino)
    : (s.modify node f).Inv ((0, {.reclaiming node}) + rest) := by
  obtain ⟨hlocked, hrest⟩ := h.alone
  obtain ⟨sin, hsin, hrefs, hpending⟩ := h.held
  apply h.change (f sin) hsin
  . constructor <;> simp +contextual [modify]
  . simp [modify, hsin]
  . exact hino sin
  . exact fun _ _ => rfl
  . exact hf sin _ _ (h.counts node sin hsin)
  . exact h.holder
  . exact fun _ hi => hi
  . intro _
    exact ⟨hrefs, by simpa using hpending⟩
  . exact fun _ _ => Iff.rfl
  . simp

/--
The last reclaim of an inode takes it in hand.
-/
theorem sfsReclaim (h : s.Inv ((Pi.single node 1, 0) + rest)) (hlocked : s.locked = false)
    : ∃ t d, s.sfsReclaim node = some (t, d) ∧ t.Inv (d.owns + rest) := by
  have hrest : rest.2 = 0 := by simpa using h.unlocked hlocked
  obtain ⟨sin, hsin⟩ : ∃ sin, s.nodes node = some sin := by
    cases hnode : s.nodes node with
    | none => simpa using (h.dead node hnode).2
    | some sin => exact ⟨sin, rfl⟩
  have hcounts := h.counts node sin hsin
  have hcount := hcounts.refCount
  have hreclaim := hcounts.reclaimCount
  have hle := hcounts.openCount_le
  simp only [Prod.fst_add, Pi.add_apply, Pi.single_eq_same] at hreclaim
  have hpos : 0 < sin.reclaimCount := by
    split at hreclaim <;> omega
  unfold InodeCache.sfsReclaim
  simp only [hsin, if_pos hpos]
  split
  next hbusy =>
    refine ⟨_, _, rfl, ?_⟩
    rw [CacheControl.returned_owns_add]
    apply h.change_unheld { sin with reclaimCount := sin.reclaimCount - 1 } hsin
    . constructor <;> simp +contextual [modify]
    . simp [modify, hsin]
    . rfl
    . rfl
    . simp
    . simp [hrest]
    . intro n hn
      simp [hn]
    . constructor
      . exact hcount
      . simp only [modify, hreclaim]
        push_cast
        omega
      . exact hcounts.openCount_nonneg
      . exact hle
    . -- Another reclaim is to come or there is a reference.
      simp only [modify]
      intro hzero hnone
      rw [if_neg (by omega)] at hreclaim
      omega
  next hidle =>
    have hzero : s.refs node = 0 := by omega
    have hnone : rest.1 node = 0 := by
      rw [if_neg (by omega)] at hreclaim
      omega
    have hinv : InodeCache.Inv
        { s.modify node fun sin => { sin with reclaimCount := sin.reclaimCount - 1 } with locked := true }
        ((0, {.reclaiming node}) + rest) := by
      apply h.change { sin with reclaimCount := sin.reclaimCount - 1 } hsin
      . constructor <;> simp +contextual [modify]
      . simp [modify, hsin]
      . rfl
      . intro n hn
        simp [hn]
      . constructor
        . exact hcount
        . simp only [modify, Prod.fst_add, Pi.add_apply, Pi.zero_apply]
          rw [hreclaim]
          push_cast
          omega
        . exact hcounts.openCount_nonneg
        . exact hle
      . simp [hrest]
      . simp [hrest]
      . intro _
        exact ⟨hzero, by simpa using hnone⟩
      . intro n hn
        simp [hrest, hn]
      . simp
    split
    . exact ⟨_, .reclaimTruncate node, rfl, hinv⟩
    . exact hinv.reclaimDirty

/--
A load that finds no inode takes the lock with it to the disk.
-/
theorem sfsLoadInode (h : s.Inv rest) (hlocked : s.locked = false) (ino : BitVec 32)
    (ans : CacheAnswer)
    : s.sfsLoadInode ino ans = none ∧ ans.inuse = false ∨
      ∃ t d, s.sfsLoadInode ino ans = some (t, d) ∧ t.Inv (d.owns + rest) := by
  unfold InodeCache.sfsLoadInode
  cases h.lookupSfsNolock hlocked ino with
  | inl hfound =>
    obtain ⟨found, t, hlookup, hinv⟩ := hfound
    rw [hlookup]
    refine .inr ⟨t, _, rfl, ?_⟩
    rw [CacheControl.returned_owns_add]
    exact hinv
  | inr hmissing =>
    obtain ⟨hlookup, hno⟩ := hmissing
    have hrest := h.unlocked hlocked
    rw [hlookup]
    simp only
    split
    . split
      . refine .inr ⟨_, .loadRead ino, rfl, ?_⟩
        constructor
        . exact h.hashed
        . exact h.nodup
        . exact h.unique
        . simpa [CacheControl.owns] using h.counts
        . simpa [CacheControl.owns] using h.dead
        . simp [CacheControl.owns, hrest]
        . simpa [CacheControl.owns, hrest] using hno
        . simp [CacheControl.owns, hrest]
        . simpa [CacheControl.owns, hrest] using h.written
        . exact h.once
      next hinuse => exact .inl ⟨rfl, by simpa using hinuse⟩
    . refine .inr ⟨s, _, rfl, ?_⟩
      rw [CacheControl.returned_owns_add]
      exact h

/--
A load that fails behind the disk gives the lock back.
-/
theorem unlock (h : s.Inv ((0, {.loading ino}) + rest)) : InodeCache.Inv { s with locked := false } rest := by
  obtain ⟨-, hrest⟩ := h.alone
  constructor
  . exact h.hashed
  . exact h.nodup
  . exact h.unique
  . simpa using h.counts
  . simpa using h.dead
  . simp [hrest]
  . simp [hrest]
  . simp [hrest]
  . simpa [hrest] using h.written
  . exact h.once

/--
No other inode with this number can have come into memory while the disk was read.
-/
theorem create (h : s.Inv ((0, {.loading ino}) + rest)) (hfree : s.nodes node = none) (nlinks : BitVec 16)
    : InodeCache.Inv
      { (s.sfsCreateInode node nlinks ino).sfsSetLinks node ino with locked := false } rest := by
  have hno := h.loading ino (by simp)
  obtain ⟨hrefs, hpending⟩ := h.dead node hfree
  have hrest := h.alone.2
  have h := h.unlock
  have hfresh : ∀ b, node ∉ s.hashList b := by
    intro b hmem
    obtain ⟨sin, hsin, -⟩ := (h.hashed b node).mp hmem
    simp [hfree] at hsin
  have hback : ∀ {n x}, Function.update s.nodes node (some ⟨ino, nlinks, false, 1, 1, 0⟩) n = some x →
      n = node ∧ x.ino = ino ∨ n ≠ node ∧ s.nodes n = some x := by
    intro n x hx
    by_cases hn : n = node
    . subst hn
      rw [Function.update_self, Option.some_inj] at hx
      exact .inl ⟨rfl, by rw [← hx]⟩
    . rw [Function.update_of_ne hn] at hx
      exact .inr ⟨hn, hx⟩
  constructor
  . intro b n
    simp only [sfsSetLinks, sfsCreateInode]
    by_cases hn : n = node
    . subst hn
      by_cases hb : b = sinHashfn ino
      . simp [hb]
      . simp [hb, hfresh, Ne.symm hb]
    . rw [Function.update_of_ne hn]
      by_cases hb : b = sinHashfn ino
      . simp [hb, hn, h.hashed]
      . simp [hb, h.hashed]
  . intro b
    simp only [sfsSetLinks, sfsCreateInode]
    by_cases hb : b = sinHashfn ino
    . subst hb
      rw [Function.update_self]
      exact List.nodup_cons.mpr ⟨hfresh _, h.nodup _⟩
    . rw [Function.update_of_ne hb]
      exact h.nodup b
  . intro n m x y hx hy heq
    rcases hback hx with ⟨hn, hxino⟩ | ⟨hn, hx⟩ <;> rcases hback hy with ⟨hm, hyino⟩ | ⟨hm, hy⟩
    . rw [hn, hm]
    . exact absurd (by rw [← heq, hxino]) (hno m y hy)
    . exact absurd (by rw [heq, hyino]) (hno n x hx)
    . exact h.unique n m x y hx hy heq
  . intro n x hx
    by_cases hn : n = node
    . subst hn
      simp only [sfsSetLinks, sfsCreateInode, Function.update_self, Option.some_inj] at hx ⊢
      rw [← hx]
      have hzero : rest.1 n = 0 := by simpa using hpending
      constructor <;> simp [hzero]
    . simp only [sfsSetLinks, sfsCreateInode, Function.update_of_ne hn] at hx ⊢
      exact h.counts n x hx
  . intro n hnone
    by_cases hn : n = node
    . subst hn
      simp [sfsSetLinks, sfsCreateInode] at hnone
    . simp only [sfsSetLinks, sfsCreateInode, Function.update_of_ne hn] at hnone ⊢
      exact h.dead n hnone
  . simp [hrest]
  . simp [hrest]
  . simp [hrest]
  . intro n x hx hzero hnone
    by_cases hn : n = node
    . subst hn
      simp [sfsSetLinks, sfsCreateInode] at hzero
    . simp only [sfsSetLinks, sfsCreateInode, Function.update_of_ne hn] at hx hzero ⊢
      exact h.written n x hx hzero hnone
  . intro n
    by_cases hn : n = node
    . subst hn
      have := h.once n
      simp only [hfree] at this
      simp [sfsSetLinks, sfsCreateInode, this]
    . simpa [sfsSetLinks, sfsCreateInode, hn] using h.once n

theorem loadedInode (h : s.Inv ((0, {.loading ino}) + rest))
    (hfree : ∀ n, ans.node = some n → s.nodes n = none)
    : s.loadedInode ino ans = none ∧ ans.nlinks = 0 ∨
      ∃ t d, s.loadedInode ino ans = some (t, d) ∧ t.Inv (d.owns + rest) := by
  unfold InodeCache.loadedInode
  split
  . refine .inr ⟨_, _, rfl, ?_⟩
    rw [CacheControl.returned_owns_add]
    exact h.unlock
  . split
    next hnlinks => exact .inl ⟨rfl, hnlinks⟩
    . split
      . refine .inr ⟨_, _, rfl, ?_⟩
        rw [CacheControl.returned_owns_add]
        exact h.unlock
      next node hnode =>
        refine .inr ⟨_, _, rfl, ?_⟩
        rw [CacheControl.returned_owns_add]
        exact h.create (hfree node hnode) ans.nlinks

/--
A thread that goes on keeps the invariant, unless a load comes upon a block that is not in use or an
inode without links.
-/
theorem wake {c : CacheControl} (h : s.Inv (c.owns + rest))
    (hfree : ∀ n, ans.node = some n → s.nodes n = none)
    : s.wake c ans = none ∧ (ans.inuse = false ∨ ans.nlinks = 0) ∨
      ∃ t d, s.wake c ans = some (t, d) ∧ t.Inv (d.owns + rest) := by
  cases c with
  | returned ret nodeStore => exact .inr ⟨s, _, rfl, h⟩
  | loadLock ino =>
    rw [InodeCache.wake]
    split
    . exact .inr ⟨s, _, rfl, h⟩
    next hlocked =>
      have h : s.Inv rest := by simpa [CacheControl.owns] using h
      cases h.sfsLoadInode (by simpa using hlocked) ino ans with
      | inl hpanic => exact .inl ⟨hpanic.1, .inl hpanic.2⟩
      | inr hgoes => exact .inr hgoes
  | loadRead ino =>
    rw [InodeCache.wake]
    cases h.loadedInode hfree with
    | inl hpanic => exact .inl ⟨hpanic.1, .inr hpanic.2⟩
    | inr hgoes => exact .inr hgoes
  | reclaimLock node =>
    rw [InodeCache.wake]
    split
    . exact .inr ⟨s, _, rfl, h⟩
    next hlocked => exact .inr (h.sfsReclaim (by simpa using hlocked))
  | reclaimTruncate node =>
    rw [InodeCache.wake]
    split
    . exact .inr h.reclaimFailed
    . right
      apply Inv.reclaimDirty
      apply h.modify_held
      . intro sin refs pending hcounts
        exact ⟨hcounts.refCount, hcounts.reclaimCount, hcounts.openCount_nonneg, hcounts.openCount_le⟩
      . exact fun _ => rfl
  | reclaimFsync node =>
    rw [InodeCache.wake]
    split
    . exact .inr h.reclaimFailed
    . right
      apply Inv.reclaimKill
      apply h.modify_held
      . intro sin refs pending hcounts
        exact ⟨hcounts.refCount, hcounts.reclaimCount, hcounts.openCount_nonneg, hcounts.openCount_le⟩
      . exact fun _ => rfl

end Inv
end InodeCache
end Ucore

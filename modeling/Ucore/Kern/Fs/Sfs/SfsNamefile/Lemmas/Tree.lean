import Ucore.Kern.Fs.Sfs.SfsDirent.Lemmas
import Ucore.Kern.Fs.Sfs.SfsNamefile.Impl

/-!
This module contains what the searches for an entry of a directory find, the directory trees of file systems, and what
may change without changing the tree.
-/

namespace Ucore

namespace SfsCtx

variable {s : SfsCtx} {p : SfsDiskEntry → Bool}

/--
All entries of the directory, also those that are empty.
-/
def slots (s : SfsCtx) : List SfsDiskEntry := (List.range' 0 s.sin.din.blocks).map s.entry

theorem Requested.slots {s' : SfsCtx} (h : Requested s s') : s'.slots = s.slots := by
  rw [SfsCtx.slots, SfsCtx.slots, h.entry, h.sin]

/--
The loop finds the first entry that it is to find.
-/
theorem DirOk.direntLoop (h : s.DirOk) {n i : Nat} (hn : i + n = s.sin.din.blocks)
    : (direntLoop p n i s).Sat
        (fun r s' => ((List.range' i n).map s.entry).find? p = some r.1 ∧ Requested s s')
        (fun _ s' => Requested s s' ∧
          (s.sfs.env = Faults.never → ((List.range' i n).map s.entry).find? p = none))
        (fun _ => False) := by
  induction n generalizing s i with
  | zero => exact ⟨Requested.refl s, fun _ => rfl⟩
  | succ n ih =>
    rw [SfsCtx.direntLoop, List.range'_succ, List.map_cons, List.find?_cons]
    apply Prog.sat_bind (h.sfsDirentReadNolock (by omega))
    . rintro e s' ⟨rfl, hreq⟩
      cases hp : p (s.entry i) with
      | true => exact ⟨rfl, hreq⟩
      | false =>
        have hrest := ih (hreq.dirOk h) (i := i + 1) (by rw [hreq.sin]; omega)
        rw [hreq.entry] at hrest
        rw [if_neg Bool.false_ne_true]
        exact hrest.mono (fun r t ht => ⟨ht.1, hreq.trans ht.2⟩)
          (fun e t ht => ⟨hreq.trans ht.1, fun hnever => ht.2 (hreq.never hnever)⟩) fun _ => id
    . exact fun e s' ht => ⟨ht.1, fun hnever => absurd hnever ht.2⟩
    . exact fun _ => id

/--
The search for an entry that there is fails only where the environment does.
-/
theorem DirOk.sfsDirentSearchNolock (h : s.DirOk) {name : List UInt8} (hname : name.length ≤ sfsMaxFnameLen)
    {entry : SfsDiskEntry}
    (hentry : s.slots.find? (fun entry => entry.ino ≠ 0 ∧ name = entry.cname) = some entry)
    : (sfsDirentSearchNolock name s).Sat (fun r s' => r.1 = entry.ino ∧ Requested s s')
        (fun _ s' => Requested s s' ∧ s.sfs.env ≠ Faults.never) (fun _ => False) := by
  unfold SfsCtx.sfsDirentSearchNolock
  rw [Prog.assert_bind_run hname]
  apply sat_bind_onSfs s.sfs.kmalloc_sat
  . rintro _ _ ⟨c, rfl⟩
    have hreq : Requested s { s with sfs := s.sfs.requested c } := ⟨c, rfl⟩
    have hdir := hreq.dirOk h
    rw [Prog.get_bind_run, hdir.nslots]
    have hloop := hdir.direntLoop (p := fun entry => entry.ino ≠ 0 ∧ name = entry.cname) (Nat.zero_add _)
    rw [← SfsCtx.slots, hreq.slots, hentry] at hloop
    apply Prog.sat_bind hloop
    . rintro ⟨found, slot⟩ s' ⟨hfound, hreq'⟩
      obtain rfl := Option.some_inj.mp hfound
      exact ⟨rfl, hreq.trans hreq'⟩
    . intro e s' ⟨hreq', hnone⟩
      exact ⟨hreq.trans hreq', fun hnever => nomatch hnone (hreq.never hnever)⟩
    . exact fun _ => id
  . rintro _ _ ⟨-, ⟨c, rfl⟩, hnever⟩
    exact ⟨⟨c, rfl⟩, hnever⟩
  . exact fun _ => id

theorem DirOk.sfsDirentFindinoNolock (h : s.DirOk) {ino : Nat} {entry : SfsDiskEntry}
    (hentry : s.slots.find? (fun entry => entry.ino = ino) = some entry)
    : (sfsDirentFindinoNolock ino s).Sat (fun e s' => e = entry ∧ Requested s s')
        (fun _ s' => Requested s s' ∧ s.sfs.env ≠ Faults.never) (fun _ => False) := by
  unfold SfsCtx.sfsDirentFindinoNolock
  rw [Prog.get_bind_run, h.nslots]
  have hloop := h.direntLoop (p := fun entry => entry.ino = ino) (Nat.zero_add _)
  rw [← SfsCtx.slots, hentry] at hloop
  apply Prog.sat_bind hloop
  . rintro ⟨found, slot⟩ s' ⟨hfound, hreq⟩
    obtain rfl := Option.some_inj.mp hfound
    exact ⟨rfl, hreq⟩
  . intro e s' ⟨hreq, hnone⟩
    exact ⟨hreq, fun hnever => nomatch hnone hnever⟩
  . exact fun _ => id

end SfsCtx

/--
The directories of a file system: the parent of each, its name there, and how deep it is.
-/
structure DirTree where
  dirs : Nat → Prop
  parent : Nat → Nat
  name : Nat → List UInt8
  depth : Nat → Nat
  parent_mem : ∀ d, dirs d → dirs (parent d)
  parent_eq_iff : ∀ d, dirs d → (parent d = d ↔ depth d = 0)
  depth_eq : ∀ d, dirs d → depth d ≠ 0 → depth d = depth (parent d) + 1

namespace SfsMount

variable {T : DirTree} {s t u : SfsMount} {d node : Nat} {n : SfsMemInode}

/--
The inode with a number, from memory or from the disk.
-/
def din (s : SfsMount) (d : Nat) : SfsDiskInode :=
  match s.inodes d with
  | some n => n.sin.din
  | none => SfsDiskInode.ofBytes (s.sfs.dev.data d)

/--
The directory with a number.
-/
def ctx (s : SfsMount) (d : Nat) : SfsCtx := ⟨s.sfs, ⟨s.din d, d, false, 0⟩⟩

/--
The reference count of an inode, which is 0 if it is not in memory.
-/
def refs (s : SfsMount) (d : Nat) : Int :=
  match s.inodes d with
  | some n => n.refCount
  | none => 0

/--
How often an inode is open.
-/
def opens (s : SfsMount) (d : Nat) : Int :=
  match s.inodes d with
  | some n => n.openCount
  | none => 0

/--
An inode in memory that nobody is about to reclaim.
-/
structure MemOk (s : SfsMount) (d : Nat) (n : SfsMemInode) : Prop where
  ino : n.sin.ino = d
  refCount : 0 ≤ n.refCount
  openCount : 0 ≤ n.openCount ∧ n.openCount ≤ n.refCount
  reclaimCount : n.sin.reclaimCount = if n.refCount = 0 then 0 else 1
  clean : n.sin.dirty = false → SfsDiskInode.ofBytes (s.sfs.dev.data d) = n.sin.din

/--
The file system holds the tree: each directory has a right `..`, and exactly one entry in its parent.
-/
structure Consistent (T : DirTree) (s : SfsMount) : Prop where
  ok : s.sfs.Ok
  inUse : ∀ d, T.dirs d → s.sfs.vol.InUse d
  dir : ∀ d, T.dirs d → (s.ctx d).DirOk
  nlinks : ∀ d, T.dirs d → (s.din d).nlinks ≠ 0
  apart : ∀ d d', T.dirs d → T.dirs d' → ¬s.sfs.vol.Owns (s.din d) d'
  mem : ∀ d, T.dirs d → ∀ n, s.inodes d = some n → s.MemOk d n
  dotdot : ∀ d, T.dirs d → ∃ entry,
    (s.ctx d).slots.find? (fun entry => entry.ino ≠ 0 ∧ dotdot = entry.cname) = some entry ∧ entry.ino = T.parent d
  entry : ∀ d, T.dirs d → T.depth d ≠ 0 → ∃ entry,
    (s.ctx (T.parent d)).slots.filter (fun entry => entry.ino = d) = [entry] ∧ entry.cname = T.name d

/--
Nothing but the blocks of the inodes themselves and the counts has changed.
-/
structure Like (T : DirTree) (s t : SfsMount) : Prop where
  ok : t.sfs.Ok
  blocks : t.sfs.vol.blocks = s.sfs.vol.blocks
  free : t.sfs.vol.free = s.sfs.vol.free
  data : ∀ b, ¬T.dirs b → t.sfs.vol.data b = s.sfs.vol.data b
  din : ∀ d, T.dirs d → t.din d = s.din d
  mem : ∀ d, T.dirs d → ∀ n, t.inodes d = some n → t.MemOk d n

/--
The references have changed by `δ`, and the tree has not changed.
-/
structure Acts (T : DirTree) (δ : Nat → Int) (s t : SfsMount) : Prop where
  like : Like T s t
  never : s.sfs.env = Faults.never → t.sfs.env = Faults.never
  refs : ∀ d, t.refs d = s.refs d + δ d
  opens : ∀ d, t.opens d = s.opens d

/--
One reference.
-/
def one (node : Nat) : Nat → Int := Pi.single node 1

theorem Like.trans (h : Like T s t) (h' : Like T t u) : Like T s u where
  ok := h'.ok
  blocks := h'.blocks.trans h.blocks
  free := h'.free.trans h.free
  data := fun b hb => (h'.data b hb).trans (h.data b hb)
  din := fun d hd => (h'.din d hd).trans (h.din d hd)
  mem := h'.mem

theorem Acts.trans {δ ε : Nat → Int} (h : Acts T δ s t) (h' : Acts T ε t u) : Acts T (δ + ε) s u where
  like := h.like.trans h'.like
  never := fun hnever => h'.never (h.never hnever)
  refs := by
    intro d
    rw [h'.refs, h.refs, Pi.add_apply, add_assoc]
  opens := fun d => (h'.opens d).trans (h.opens d)

/--
A tree stays in the file system.
-/
theorem Like.consistent (h : Like T s t) (hs : Consistent T s) : Consistent T t := by
  have howned {d b : Nat} (hd : T.dirs d) (hb : s.sfs.vol.Owns (s.din d) b) : t.sfs.vol.data b = s.sfs.vol.data b :=
    h.data b fun hb' => hs.apart d b hd hb' hb
  have hind {d : Nat} (hd : T.dirs d) (hne : (s.din d).indirect ≠ 0)
      : t.sfs.vol.data (s.din d).indirect = s.sfs.vol.data (s.din d).indirect :=
    howned hd (.inr ⟨hne, rfl⟩)
  have hbmap {d : Nat} (hd : T.dirs d) (i : Nat)
      : t.sfs.vol.bmap (t.din d) i = s.sfs.vol.bmap (s.din d) i := by
    rw [h.din d hd]
    exact Vol.bmap_congr (hind hd)
  have hslots {d : Nat} (hd : T.dirs d) : (t.ctx d).slots = (s.ctx d).slots := by
    have hblocks : (t.ctx d).sin.din.blocks = (s.ctx d).sin.din.blocks := congrArg SfsDiskInode.blocks (h.din d hd)
    rw [SfsCtx.slots, SfsCtx.slots, hblocks]
    apply List.map_congr_left
    intro i hi
    rw [List.mem_range'_1] at hi
    have hentry : t.sfs.vol.data (t.sfs.vol.bmap (t.din d) i) = s.sfs.vol.data (s.sfs.vol.bmap (s.din d) i) := by
      rw [hbmap hd]
      exact howned hd (.inl ⟨i, by simpa [ctx] using hi.2, rfl⟩)
    exact congrArg SfsDiskEntry.ofBytes hentry
  have howns {d b : Nat} (hd : T.dirs d) (hb : t.sfs.vol.Owns (t.din d) b) : s.sfs.vol.Owns (s.din d) b := by
    rw [h.din d hd] at hb
    cases hb with
    | inl hb =>
      obtain ⟨i, hi, rfl⟩ := hb
      have := hbmap hd i
      rw [h.din d hd] at this
      exact .inl ⟨i, hi, this.symm⟩
    | inr hb => exact .inr hb
  refine ⟨h.ok, ?_, ?_, ?_, ?_, h.mem, ?_, ?_⟩
  . intro d hd
    obtain ⟨hvalid, hfree⟩ := hs.inUse d hd
    exact ⟨⟨hvalid.1, h.blocks ▸ hvalid.2⟩, h.free ▸ hfree⟩
  . intro d hd
    have hdir := hs.dir d hd
    refine ⟨h.ok, ?_, (congrArg SfsDiskInode.type (h.din d hd)).trans hdir.type⟩
    have hmap : t.sfs.vol.MapOk (s.din d) :=
      hdir.mapOk.congr (hind hd) h.blocks fun b hb => h.free ▸ hb
    show t.sfs.vol.MapOk (t.din d)
    rw [h.din d hd]
    exact hmap
  . intro d hd
    rw [h.din d hd]
    exact hs.nlinks d hd
  . exact fun d d' hd hd' howns' => hs.apart d d' hd hd' (howns hd howns')
  . intro d hd
    rw [hslots hd]
    exact hs.dotdot d hd
  . intro d hd hdepth
    rw [hslots (T.parent_mem d hd)]
    exact hs.entry d hd hdepth

end SfsMount
end Ucore

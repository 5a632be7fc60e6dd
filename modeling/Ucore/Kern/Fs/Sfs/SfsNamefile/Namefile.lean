import Ucore.Kern.Fs.Sfs.NewFs
import Ucore.Kern.Fs.Sfs.SfsNamefile.Lemmas.Inode

/-!
This module contains the proof that `sfs_namefile` writes the path of a directory, and leaves all references as they
are.
-/

namespace Ucore

namespace DirTree

/--
The names from `k` levels above a directory down to it, each with a slash behind it.
-/
def pathFrom (T : DirTree) : Nat → Nat → List UInt8
  | 0, _ => []
  | k + 1, d => T.pathFrom k (T.parent d) ++ (T.name d ++ [SfsMount.slash])

/--
The names from the root to a directory, each with a slash behind it.
-/
def path (T : DirTree) (d : Nat) : List UInt8 := T.pathFrom (T.depth d) d

variable {T : DirTree} {d : Nat}

theorem path_root (hdepth : T.depth d = 0) : T.path d = [] := by
  rw [path, hdepth, pathFrom]

theorem path_child (hd : T.dirs d) (hdepth : T.depth d ≠ 0)
    : T.path d = T.path (T.parent d) ++ (T.name d ++ [SfsMount.slash]) := by
  rw [path, T.depth_eq d hd hdepth, pathFrom, path]

theorem path_eq_nil_iff (hd : T.dirs d) : T.path d = [] ↔ T.depth d = 0 := by
  refine ⟨fun hnil => ?_, path_root⟩
  by_contra hdepth
  rw [path_child hd hdepth] at hnil
  simp at hnil

end DirTree

namespace SfsMount

variable {T : DirTree} {s : SfsMount} {d : Nat}

/--
What the loop returns: it breaks with the path in front of what was in the buffer, or there is an error.
-/
def Named (T : DirTree) (s : SfsMount) (d : Nat) (b : NameBuf) : Option Errno × NameBuf → Prop
  | (none, b') => (T.path d).length ≤ b.resid ∧ b' = {
      buf := b.buf.copy (b.ptr - (T.path d).length) (Bytes.ofList (T.path d)) (T.path d).length
      ptr := b.ptr - (T.path d).length
      resid := b.resid - (T.path d).length }
  | (some e, b') => (∀ i, i < b.ptr - b.resid ∨ b.ptr ≤ i → b'.buf i = b.buf i) ∧
      (s.sfs.env = Faults.never → e = .noMem ∧ b.resid < (T.path d).length)

/--
A round of the loop puts the name of a directory in front of that of its parent.
-/
theorem named_push {t : SfsMount} (hd : T.dirs d) (hdepth : T.depth d ≠ 0)
    (hacts : s.sfs.env = Faults.never → t.sfs.env = Faults.never) {b : NameBuf} (hptr : b.resid ≤ b.ptr)
    (hfits : (T.name d).length + 1 ≤ b.resid) {r : Option Errno × NameBuf}
    (h : Named T t (T.parent d) (b.push (T.name d)) r)
    : Named T s d b r := by
  have hpath := DirTree.path_child hd hdepth
  have hlen : (T.path d).length = (T.path (T.parent d)).length + ((T.name d).length + 1) := by
    rw [hpath]
    simp
  obtain ⟨ret, b'⟩ := r
  cases ret with
  | none =>
    obtain ⟨hroom, rfl⟩ := h
    simp only [NameBuf.push] at hroom ⊢
    refine ⟨by omega, ?_⟩
    have happend := @Bytes.copy_append b.buf b.ptr (T.path (T.parent d)) (T.name d ++ [slash])
      (by simp only [List.length_append, List.length_singleton]; omega)
    rw [← hpath] at happend
    simp only [List.length_append, List.length_singleton] at happend
    rw [happend, hlen]
    simp only [NameBuf.mk.injEq, true_and]
    omega
  | some e =>
    obtain ⟨hsame, hnever⟩ := h
    simp only [NameBuf.push] at hsame hnever
    refine ⟨fun i hi => ?_, fun hs => ?_⟩
    . rw [hsame i (by omega), Bytes.copy_of_not_mem _ _ (by omega)]
    . obtain ⟨he, hroom⟩ := hnever (hacts hs)
      exact ⟨he, by omega⟩

theorem one_self (d : Nat) : one d d = 1 := Pi.single_eq_same ..

theorem one_of_ne {d d' : Nat} (h : d' ≠ d) : one d d' = 0 := Pi.single_eq_of_ne h ..

theorem one_nonneg (d d' : Nat) : 0 ≤ one d d' := by
  by_cases h : d' = d
  . rw [h, one_self]
    exact Int.one_nonneg
  . rw [one_of_ne h]

/--
The loop gives back the reference to the directory that it starts from, and has one reference to the directory that it
is at until then.
-/
theorem Consistent.namefileLoop {fuel : Nat} (hs : Consistent T s) (hd : T.dirs d) (href : s.opens d < s.refs d)
    {b : NameBuf} (hfuel : b.resid < fuel) (hptr : b.resid ≤ b.ptr)
    : (namefileLoop fuel d b s).Sat (fun r t => Acts T (-one d) s t ∧ Named T s d b r) (fun _ _ => False)
        (fun _ => False) := by
  induction fuel generalizing s d b with
  | zero => omega
  | succ fuel ih =>
    obtain ⟨n, hn⟩ := exists_of_refs_pos (Int.lt_of_le_of_lt (hs.opens_le hd).1 href)
    rw [SfsMount.namefileLoop]
    apply Prog.sat_bind_imp (Prog.sat_attempt (E := fun _ _ => False) (X := fun _ => False)
      (Q := fun r t => match r with
        | .ok r => r.1 = T.parent d ∧ Acts T (one (T.parent d)) s t
        | .error _ => Acts T 0 s t ∧ s.sfs.env ≠ Faults.never) (hs.sfsLookupOnce hd hn))
    rintro (e | ⟨parent, slot⟩) t ht
    . obtain ⟨hacts, hnever⟩ := ht
      have ht := hacts.like.consistent hs
      apply Prog.sat_bind_imp (ht.inodeRefDec hd (by rw [hacts.opens, hacts.refs, Pi.zero_apply]; omega))
      intro _ u hu
      exact ⟨(hacts.trans hu).of_eq (zero_add _), fun _ _ => rfl, fun h => absurd h hnever⟩
    . obtain ⟨rfl, hacts⟩ := ht
      have ht := hacts.like.consistent hs
      have hreft : t.opens d < t.refs d := by
        have := one_nonneg (T.parent d) d
        rw [hacts.opens, hacts.refs]
        omega
      obtain ⟨n', hn'⟩ := exists_of_refs_pos (Int.lt_of_le_of_lt (ht.opens_le hd).1 hreft)
      dsimp only
      rw [Prog.bind_run_ok (deref_run hn'), (ht.mem d hd n' hn').ino]
      apply Prog.sat_bind_imp (ht.inodeRefDec hd hreft)
      intro _ u hdec
      have hsu := hacts.trans hdec
      have hu := hdec.like.consistent ht
      by_cases hroot : d = T.parent d
      . rw [if_pos hroot]
        have hdepth := (T.parent_eq_iff d hd).mp hroot.symm
        rw [← hroot] at hsu
        have hrefu : u.opens d < u.refs d := by
          rw [hsu.opens, hsu.refs, Pi.add_apply, Pi.neg_apply]
          omega
        apply Prog.sat_bind_imp (hu.inodeRefDec hd hrefu)
        intro _ v hv
        refine ⟨(hsu.trans hv).of_eq (by rw [add_neg_cancel, zero_add]), ?_⟩
        simp [Named, DirTree.path_root hdepth]
      . rw [if_neg hroot]
        have hdepth : T.depth d ≠ 0 := fun h => hroot ((T.parent_eq_iff d hd).mpr h).symm
        have hp := T.parent_mem d hd
        have hrefu : u.opens (T.parent d) < u.refs (T.parent d) := by
          have := hs.opens_le hp
          rw [hsu.opens, hsu.refs, Pi.add_apply, Pi.neg_apply, one_self, one_of_ne (Ne.symm hroot)]
          omega
        obtain ⟨m, hm⟩ := exists_of_refs_pos (Int.lt_of_le_of_lt (hu.opens_le hp).1 hrefu)
        have hino : d ≠ m.sin.ino := by rwa [(hu.mem _ hp m hm).ino]
        have htype : m.sin.din.type = sfsTypeDir := (hu.dirOk hp hm).1.type
        rw [Prog.bind_run_ok (deref_run hm), Prog.assert_bind_run ⟨hino, htype⟩]
        apply Prog.sat_bind_imp (Prog.sat_attempt (E := fun _ _ => False) (X := fun _ => False)
          (Q := fun r t => match r with
            | .ok entry => entry.cname = T.name d ∧ Acts T 0 u t
            | .error _ => Acts T 0 u t ∧ u.sfs.env ≠ Faults.never) (hu.sfsDirentFindinoNolock hd hdepth hm))
        have hrefv {v : SfsMount} (hv : Acts T 0 u v) : v.opens (T.parent d) < v.refs (T.parent d) := by
          rw [hv.opens, hv.refs, Pi.zero_apply]
          omega
        -- each exit gives back the reference to the parent
        have hback {v w : SfsMount} (hv : Acts T 0 u v) (hw : Acts T (-one (T.parent d)) v w)
            : Acts T (-one d) s w := by
          apply ((hsu.trans hv).trans hw).of_eq
          rw [add_zero, add_assoc, add_comm, add_assoc, neg_add_cancel, add_zero]
        rintro (e | entry) v hv
        . obtain ⟨hv, hnever⟩ := hv
          have hvs := hv.like.consistent hu
          apply Prog.sat_bind_imp (hvs.inodeRefDec hp (hrefv hv))
          intro _ w hw
          exact ⟨hback hv hw, fun _ _ => rfl, fun h => absurd (hsu.never h) hnever⟩
        . obtain ⟨hname, hv⟩ := hv
          have hvs := hv.like.consistent hu
          dsimp only
          rw [hname]
          by_cases hroom : (T.name d).length + 1 > b.resid
          . rw [if_pos hroom]
            apply Prog.sat_bind_imp (hvs.inodeRefDec hp (hrefv hv))
            intro _ w hw
            refine ⟨hback hv hw, fun _ _ => rfl, fun _ => ⟨rfl, ?_⟩⟩
            rw [DirTree.path_child hd hdepth]
            simp only [List.length_append, List.length_singleton]
            omega
          . rw [if_neg hroom]
            have hrest := ih hvs hp (hrefv hv) (b := b.push (T.name d)) (by simp only [NameBuf.push]; omega)
              (by simp only [NameBuf.push]; omega)
            apply hrest.imp
            intro r w ⟨hw, hnamed⟩
            exact ⟨hback hv hw,
              named_push hd hdepth (fun h => hv.never (hsu.never h)) hptr (by omega) hnamed⟩

/--
The bytes of a buffer from where it is filled next that `n` bytes go to.
-/
def written (iob : Iobuf) (buf : Bytes) (n : Nat) : List UInt8 := (List.range' iob.iobufUsed n).map buf

/--
`sfs_namefile` stays inside the buffer and leaves all references as they are. It writes the path with a slash in front
of it and a zero behind it, or fails with `-E_NO_MEM` since they do not fit, unless the environment refuses a request.
-/
def NamefileOk (T : DirTree) (s : SfsMount) (d : Nat) (iob : Iobuf) : Prop :=
  (sfsNamefile d iob s).Sat
    (fun r t => (∀ node, t.refs node = s.refs node) ∧
      (∀ i, i < iob.iobufUsed ∨ iob.iobufUsed + iob.resid ≤ i → r.2.buf i = iob.buf i) ∧
      match r.1 with
      | none => (T.path d).length + 2 ≤ iob.resid ∧
          written iob r.2.buf ((T.path d).length + 2) = slash :: (T.path d ++ [0])
      | some e => s.sfs.env = Faults.never → e = .noMem ∧ iob.resid < (T.path d).length + 2)
    (fun _ _ => False) (fun _ => False)

/--
The path is moved from the end of the buffer to its start.
-/
theorem namefileMove_run {iob : Iobuf} (hroom : (T.path d).length ≤ iob.resid - 2) (hresid : 2 < iob.resid)
    {b : NameBuf} (hnamed : Named T s d ⟨iob.buf, iob.iobufUsed + iob.resid, iob.resid - 2⟩ (none, b)) (t : SfsMount)
    : ∃ iob', namefileMove iob b t = .ok (none, iob') t ∧
        (∀ i, i < iob.iobufUsed ∨ iob.iobufUsed + iob.resid ≤ i → iob'.buf i = iob.buf i) ∧
        written iob iob'.buf ((T.path d).length + 2) = slash :: (T.path d ++ [0]) := by
  obtain ⟨-, rfl⟩ := hnamed
  have halen : iob.resid - (iob.resid - 2 - (T.path d).length) - 2 = (T.path d).length := by omega
  unfold namefileMove
  simp only [halen]
  refine ⟨_, Prog.bind_run_ok (Iobuf.iobufSkip_run (by dsimp only; omega) t), ?_, ?_⟩
  . intro i hi
    dsimp only
    rw [Function.update_of_ne (by omega), Function.update_of_ne (by omega), Bytes.copy_of_not_mem _ _ (by omega),
      Bytes.copy_of_not_mem _ _ (by omega)]
  . apply List.ext_getElem
    . simp [written]
    . intro i hi hi'
      simp only [written, List.length_map, List.length_range'] at hi
      simp only [written, List.getElem_map, List.getElem_range', Nat.one_mul]
      by_cases hlast : i = (T.path d).length + 1
      . subst hlast
        rw [show iob.iobufUsed + ((T.path d).length + 1) = iob.iobufUsed + 1 + (T.path d).length by omega,
          Function.update_self]
        simp
      rw [Function.update_of_ne (by omega)]
      cases i with
      | zero => simp
      | succ i =>
        have hlt : i < (T.path d).length := by omega
        rw [Function.update_of_ne (by omega), Bytes.copy_of_mem _ _ (by omega) (by omega), Bytes.drop_apply,
          Bytes.copy_of_mem _ _ (by omega) (by omega), List.getElem_cons_succ, List.getElem_append_left hlt,
          Bytes.ofList,
          show iob.iobufUsed + iob.resid - (T.path d).length + (iob.iobufUsed + (i + 1) - (iob.iobufUsed + 1)) -
            (iob.iobufUsed + iob.resid - (T.path d).length) = i by omega, List.getD_eq_getElem _ _ hlt]

/--
A buffer of more than two bytes.
-/
theorem Consistent.namefileOk (hs : Consistent T s) (hd : T.dirs d) (href : 0 < s.refs d) {iob : Iobuf}
    (hresid : 2 < iob.resid)
    : NamefileOk T s d iob := by
  unfold NamefileOk sfsNamefile
  rw [if_neg (by omega)]
  apply Prog.sat_bind_imp (Prog.sat_attempt (E := fun _ _ => False) (X := fun _ => False)
    (Q := fun r t => match r with
      | .ok _ => t.inodes = s.inodes ∧ Acts T 0 s t
      | .error e => e = .noMem ∧ Acts T 0 s t ∧ s.sfs.env ≠ Faults.never) hs.kmalloc)
  rintro (e | _) t ht
  . obtain ⟨-, hacts, hnever⟩ := ht
    refine ⟨fun node => ?_, fun _ _ => rfl, fun h => absurd h hnever⟩
    rw [hacts.refs, Pi.zero_apply, Int.add_zero]
  . obtain ⟨hsame, hacts⟩ := ht
    have ht := hacts.like.consistent hs
    obtain ⟨n, hn⟩ := exists_of_refs_pos href
    have hcount : 0 < n.refCount := by rwa [refs_of_some hn] at href
    apply Prog.sat_bind_imp (ht.inodeRefInc hd (by rw [hsame, hn]) hcount)
    intro _ u hinc
    have hsu := hacts.trans hinc
    have hu := hinc.like.consistent ht
    have hrefu : u.opens d < u.refs d := by
      have := hs.opens_le hd
      rw [hsu.opens, hsu.refs, Pi.add_apply, Pi.zero_apply, one_self]
      omega
    apply Prog.sat_bind_imp (hu.namefileLoop hd hrefu
      (b := ⟨iob.buf, iob.iobufUsed + iob.resid, iob.resid - 2⟩) (by show iob.resid - 2 < _; omega)
      (by show iob.resid - 2 ≤ iob.iobufUsed + iob.resid; omega))
    rintro ⟨ret, b⟩ v ⟨hback, hnamed⟩
    have hrefs (node : Nat) : v.refs node = s.refs node := by
      rw [(hsu.trans hback).refs, zero_add, add_neg_cancel, Pi.zero_apply, Int.add_zero]
    cases ret with
    | some e =>
      obtain ⟨hkept, hnever⟩ := hnamed
      refine ⟨hrefs, fun i hi => hkept i ?_, fun h => ?_⟩
      . dsimp only
        omega
      . obtain ⟨he, hroom⟩ := hnever (hsu.never h)
        dsimp only at hroom
        exact ⟨he, by omega⟩
    | none =>
      have hroom : (T.path d).length ≤ iob.resid - 2 := hnamed.1
      obtain ⟨iob', hmove, hkept, hpath⟩ := namefileMove_run hroom hresid hnamed v
      dsimp only
      rw [hmove]
      exact ⟨hrefs, hkept, by omega, hpath⟩

/--
A buffer of two bytes or less is refused.
-/
theorem namefileOk_small_iff {iob : Iobuf} (hresid : iob.resid ≤ 2)
    : NamefileOk T s d iob ↔ (s.sfs.env = Faults.never → iob.resid < (T.path d).length + 2) := by
  unfold NamefileOk sfsNamefile
  rw [if_pos hresid]
  constructor
  . intro ⟨_, _, h⟩ hnever
    exact (h hnever).2
  . exact fun h => ⟨fun _ => rfl, fun _ _ => rfl, fun hnever => ⟨rfl, h hnever⟩⟩

/--
`sfs_namefile` does what it is for, unless it refuses to name the root in a buffer of exactly the two bytes that it
takes.
-/
theorem sfs_namefile_iff (hs : Consistent T s) (hd : T.dirs d) (href : 0 < s.refs d) (iob : Iobuf)
    : NamefileOk T s d iob ↔ (s.sfs.env = Faults.never → ¬(T.depth d = 0 ∧ iob.resid = 2)) := by
  by_cases hresid : 2 < iob.resid
  . exact iff_of_true (hs.namefileOk hd href hresid) fun _ h => by omega
  . rw [namefileOk_small_iff (by omega), ← DirTree.path_eq_nil_iff hd, ← List.length_eq_zero_iff]
    exact forall_congr' fun _ => by omega

/--
The root is inode 1, and has a directory `a`, which is inode 5.
-/
def rootAndA : DirTree where
  dirs d := d = 1 ∨ d = 5
  parent _ := 1
  name d := if d = 5 then [0x61] else []
  depth d := if d = 5 then 1 else 0
  parent_mem := fun _ _ => .inl rfl
  parent_eq_iff := by
    rintro d (rfl | rfl)
    . decide
    . decide
  depth_eq := by
    rintro d (rfl | rfl)
    . decide
    . decide

/--
An entry with a short name as the bytes of a block.
-/
def entryBytes (ino : UInt8) (name : List UInt8) : Bytes := Bytes.ofList ([ino, 0, 0, 0] ++ name)

/--
Both directories are in memory, and have not been written to the disk yet. The entries of the root are in the blocks 3
and 4, and the one of `a` is in block 6.
-/
def rootAndAMount : SfsMount where
  sfs := { SfsFs.new 100 8 with
    dev := {
      dBlocks := 100
      data := fun b =>
        if b = 3 ∨ b = 6 then
          entryBytes 1 dotdot
        else if b = 4 then
          entryBytes 5 [0x61]
        else
          Bytes.zero } }
  inodes d :=
    if d = 1 then
      some {
        sin := {
          din := (((SfsDiskInode.new sfsTypeDir sfsTypeDir_lt).setDirect ⟨0, zero_lt_sfsNdirect⟩ 3).setDirect
            ⟨1, one_lt_sfsNdirect⟩ 4).setBlocks 2
          ino := 1
          dirty := true
          reclaimCount := 1 }
        refCount := 1
        openCount := 0 }
    else if d = 5 then
      some {
        sin := {
          din := ((SfsDiskInode.new sfsTypeDir sfsTypeDir_lt).setDirect ⟨0, zero_lt_sfsNdirect⟩ 6).setBlocks 1
          ino := 5
          dirty := true
          reclaimCount := 1 }
        refCount := 1
        openCount := 0 }
    else
      none

theorem rootAndAMount_consistent : Consistent rootAndA rootAndAMount := by
  have hok : (SfsFs.new 100 8).Ok := SfsFs.new_ok (by decide) (by decide)
  have hok : rootAndAMount.sfs.Ok := ⟨hok.1, hok.2, hok.3, hok.4, hok.5, hok.6⟩
  have hinUse {b : Nat} (hpos : b ≠ 0) (hlt : b < 8) : rootAndAMount.sfs.vol.InUse b :=
    SfsFs.new_inUse (by decide) hpos hlt
  have hroot (i : Fin sfsNdirect)
      : (rootAndAMount.din 1).direct i = if i.val < (rootAndAMount.din 1).blocks then 3 + i.val else 0 := by
    revert i
    decide
  have ha (i : Fin sfsNdirect)
      : (rootAndAMount.din 5).direct i = if i.val < (rootAndAMount.din 5).blocks then 6 + i.val else 0 := by
    revert i
    decide
  have hrootMap := @Vol.bmap_consecutive rootAndAMount.sfs.vol (rootAndAMount.din 1) 3 hroot rfl (by decide)
  have haMap := @Vol.bmap_consecutive rootAndAMount.sfs.vol (rootAndAMount.din 5) 6 ha rfl (by decide)
  have hrootSlots : (rootAndAMount.ctx 1).slots
      = [SfsDiskEntry.ofBytes (entryBytes 1 dotdot), SfsDiskEntry.ofBytes (entryBytes 5 [0x61])] := by
    rfl
  have haSlots : (rootAndAMount.ctx 5).slots = [SfsDiskEntry.ofBytes (entryBytes 1 dotdot)] := by
    rfl
  refine ⟨hok, ?_, ?_, ?_, ?_, ?_, ?_, ?_⟩
  . rintro d (rfl | rfl)
    . exact hinUse (by decide) (by decide)
    . exact hinUse (by decide) (by decide)
  . rintro d (rfl | rfl)
    . refine ⟨hok, Vol.mapOk_consecutive 3 hroot rfl (by decide) fun i hi => ?_, rfl⟩
      have hi : i < 2 := hi
      exact hinUse (by omega) (by omega)
    . refine ⟨hok, Vol.mapOk_consecutive 6 ha rfl (by decide) fun i hi => ?_, rfl⟩
      have hi : i < 1 := hi
      exact hinUse (by omega) (by omega)
  . rintro d (rfl | rfl)
    . decide
    . decide
  . rintro d d' hd hd' (⟨i, hi, hmap⟩ | ⟨hind, -⟩)
    . rcases hd with rfl | rfl
      . rw [hrootMap, if_pos hi] at hmap
        have hi : i < 2 := hi
        rcases hd' with rfl | rfl
        . omega
        . omega
      . rw [haMap, if_pos hi] at hmap
        rcases hd' with rfl | rfl
        . omega
        . omega
    . rcases hd with rfl | rfl
      . exact hind rfl
      . exact hind rfl
  . rintro d (rfl | rfl) n hn
    . obtain rfl := Option.some_inj.mp hn
      exact ⟨rfl, by decide, ⟨by decide, by decide⟩, rfl, fun h => nomatch h⟩
    . obtain rfl := Option.some_inj.mp hn
      exact ⟨rfl, by decide, ⟨by decide, by decide⟩, rfl, fun h => nomatch h⟩
  . rintro d (rfl | rfl)
    . rw [hrootSlots]
      exact ⟨_, rfl, rfl⟩
    . rw [haSlots]
      exact ⟨_, rfl, rfl⟩
  . rintro d (rfl | rfl) hdepth
    . exact absurd rfl hdepth
    . show ∃ entry, (rootAndAMount.ctx 1).slots.filter (fun entry => entry.ino = 5) = [entry] ∧ _
      rw [hrootSlots]
      refine ⟨SfsDiskEntry.ofBytes (entryBytes 5 [0x61]), rfl, ?_⟩
      decide +kernel

/--
The path of `a` takes four bytes.
-/
theorem sfs_namefile_iff_a
    : NamefileOk rootAndA rootAndAMount 5 (Iobuf.iobufInit Bytes.zero 4 0) ↔
        (rootAndAMount.sfs.env = Faults.never →
          ¬(rootAndA.depth 5 = 0 ∧ (Iobuf.iobufInit Bytes.zero 4 0).resid = 2)) :=
  sfs_namefile_iff rootAndAMount_consistent (.inr rfl) (by decide) _

/--
The path of the root fits in two bytes.
-/
theorem not_sfs_namefile
    : ¬∀ (T : DirTree) (s : SfsMount) (d : Nat) (iob : Iobuf), Consistent T s → T.dirs d → 0 < s.refs d →
        NamefileOk T s d iob := by
  intro hall
  have hroot := hall rootAndA rootAndAMount 1 (Iobuf.iobufInit Bytes.zero 2 0) rootAndAMount_consistent (.inl rfl)
    (by decide)
  have hlt := (namefileOk_small_iff (by decide)).mp hroot rfl
  exact absurd hlt (by decide)

end SfsMount
end Ucore

import Ucore.Kern.Fs.Sfs.NewFs
import Ucore.Kern.Fs.Sfs.SfsFs.Sync

/-!
This module contains what `sfs_sync` does with writes that fail, and when it tells the truth about them.
-/

namespace Ucore

open Faults (cost)

namespace SfsFs

variable {sfs sfs' sfs'' : SfsFs} {req : Request} {blkno : Nat}

/--
Only the contents of the device and the requests to come are different.
-/
structure SameMeta (sfs sfs' : SfsFs) : Prop where
  super : sfs'.super = sfs.super
  freemap : sfs'.freemap = sfs.freemap
  superDirty : sfs'.superDirty = sfs.superDirty
  dBlocks : sfs'.dev.dBlocks = sfs.dev.dBlocks

theorem SameMeta.refl (sfs : SfsFs) : SameMeta sfs sfs := ⟨rfl, rfl, rfl, rfl⟩

theorem SameMeta.trans (h : SameMeta sfs sfs') (h' : SameMeta sfs' sfs'') : SameMeta sfs sfs'' :=
  ⟨h'.super.trans h.super, h'.freemap.trans h.freemap, h'.superDirty.trans h.superDirty, h'.dBlocks.trans h.dBlocks⟩

theorem SameMeta.ok (h : SameMeta sfs sfs') (hok : sfs.Ok) : sfs'.Ok := by
  obtain ⟨hsuper, hfreemap, -, hdBlocks⟩ := h
  constructor
  . exact hfreemap ▸ hok.freemap
  . rw [hsuper, hfreemap]
    exact hok.blocks_le_nbits
  . rw [hsuper, hdBlocks]
    exact hok.blocks_le_dBlocks
  . rw [hdBlocks]
    exact hok.dBlocks_le
  . rw [hsuper, hfreemap]
    exact hok.free_valid
  . rw [hsuper, hfreemap]
    exact hok.unusedBlocks

/--
The requests of `sfs_wbuf`, one for the read and one for the write.
-/
theorem sfsWbuf_requests (hok : sfs.Ok) (h : sfs.vol.Valid blkno) (buf : Bytes) {len off : Nat}
    (hoff : off < sfsBlksize) (hlen : off + len ≤ sfsBlksize)
    : (sfsWbuf req buf len blkno off sfs).Sat
        (fun _ sfs' => sfs.env req 0 = none ∧ sfs.env req 1 = none ∧
          sfs' = (sfs.requested (cost req 2)).setBlock blkno
            ((sfs.dev.data blkno).copy 0 ((sfs.dev.data blkno).copy off buf len) sfsBlksize))
        (fun _ sfs' => sfs.env req 0 ≠ none ∧ sfs' = sfs.requested (cost req 1) ∨
          sfs.env req 0 = none ∧ sfs.env req 1 ≠ none ∧ sfs' = sfs.requested (cost req 2))
        (fun _ => False) := by
  have hsum : cost req 1 + cost req 1 = cost req 2 := Faults.cost_add req 1 1
  have hsecond : (sfs.requested (cost req 1)).env req 0 = sfs.env req 1 := by
    simp [requested, Faults.drop, cost]
  have htwice : (sfs.requested (cost req 1)).requested (cost req 1) = sfs.requested (cost req 2) := by
    simp only [requested, Faults.drop_drop, hsum]
  unfold sfsWbuf
  rw [Prog.assert_bind_run ⟨hoff, hlen⟩]
  apply Prog.sat_bind (sfsRblockNolock_sat hok h)
  . rintro b _ ⟨rfl, rfl, hfirst⟩
    rw [Faults.answers_cost_one] at hfirst
    apply (sfsWblockNolock_sat (hok.requested _) h _).mono
    . rintro _ _ ⟨rfl, hans⟩
      rw [Faults.answers_cost_one, hsecond] at hans
      rw [htwice]
      exact ⟨hfirst, hans, rfl⟩
    . rintro _ _ ⟨rfl, hans⟩
      rw [Faults.answers_cost_one, hsecond] at hans
      rw [htwice]
      exact Or.inr ⟨hfirst, hans, rfl⟩
    . exact fun _ => id
  . rintro _ _ ⟨rfl, hans⟩
    rw [Faults.answers_cost_one] at hans
    exact Or.inl ⟨hans, rfl⟩
  . exact fun _ => id

theorem sfsSyncSuper_sat (hok : sfs.Ok) (hblocks : 0 < sfs.super.blocks)
    : (sfsSyncSuper sfs).Sat
        (fun _ sfs' => sfs.env.Answers (cost .super 1) ∧
          sfs' = (sfs.requested (cost .super 1)).setBlock sfsBlknSuper ((sfs.dev.data sfsBlknSuper).copy 0
            (Bytes.zero.copy 0 sfs.super.toBytes SfsSuper.byteSize) sfsBlksize))
        (fun _ sfs' => ¬sfs.env.Answers (cost .super 1) ∧ sfs' = sfs.requested (cost .super 1))
        (fun _ => False) := by
  have hdisk : diskBlkno sfsBlknSuper = sfsBlknSuper := rfl
  have hin : ¬sfsBlknSuper + 1 > (sfs.requested (cost .super 1)).dev.dBlocks :=
    Nat.not_lt.mpr (Nat.le_trans hblocks hok.blocks_le_dBlocks)
  unfold sfsSyncSuper disk0Write
  rw [Prog.get_bind_run, Prog.assert_bind_run hblocks]
  apply Prog.sat_bind request_sat
  . rintro _ _ ⟨rfl, hans⟩
    rw [Prog.get_bind_run, hdisk, if_neg hin]
    exact ⟨hans, rfl⟩
  . exact fun _ _ herror => herror.symm
  . exact fun _ => id

end SfsFs

namespace Vol

variable {p n b : Nat}

theorem writeRun_outside (v : Vol) (src : Bytes) (h : ¬(p ≤ b ∧ b < p + n)) : (v.writeRun p n src).data b = v.data b :=
  if_neg h

theorem writeRun_inside (v : Vol) (src : Bytes) {k : Nat} (h : k < n)
    : (v.writeRun p n src).data (p + k) = (v.data (p + k)).copy 0 (src.drop (k * sfsBlksize)) sfsBlksize := by
  have hin : p ≤ p + k ∧ p + k < p + n := by omega
  have hrun : (v.writeRun p n src).data (p + k) =
      (v.data (p + k)).copy 0 (src.drop ((p + k - p) * sfsBlksize)) sfsBlksize := if_pos hin
  rwa [Nat.add_sub_cancel_left] at hrun

end Vol

namespace Transfer

variable {t : Transfer} {req : Request} {pos p n : Nat}

theorem sfsRwblock_meta (hok : t.sfs.Ok) (hvalid : ∀ i < n, t.sfs.vol.Valid (p + i))
    : (sfsRwblock req true pos p n t).Sat (fun _ t' => SfsFs.SameMeta t.sfs t'.sfs)
        (fun _ t' => SfsFs.SameMeta t.sfs t'.sfs) (fun _ => False) := by
  induction n generalizing t pos p with
  | zero => exact SfsFs.SameMeta.refl _
  | succ n ih =>
    unfold sfsRwblock
    simp only [if_true]
    rw [Prog.get_bind_run]
    apply sat_bind_onSfs (SfsFs.sfsWblockNolock_sat hok (hvalid 0 (by omega)) _)
    . rintro _ _ ⟨rfl, -⟩
      have hsame : SfsFs.SameMeta t.sfs ((t.sfs.requested (cost req 1)).setBlock (p + 0)
          ((t.sfs.dev.data (p + 0)).copy 0 (t.buf.drop pos) sfsBlksize)) := ⟨rfl, rfl, rfl, rfl⟩
      have hnext : ∀ i < n, t.sfs.vol.Valid (p + 1 + i) := by
        intro i hi
        have := hvalid (i + 1) (by omega)
        rwa [Nat.add_comm i, ← Nat.add_assoc] at this
      exact (@ih ⟨_, t.buf⟩ _ _ (hsame.ok hok) hnext).mono (fun _ _ h => hsame.trans h) (fun _ _ h => hsame.trans h)
        fun _ => id
    . rintro _ _ ⟨rfl, -⟩
      exact ⟨rfl, rfl, rfl, rfl⟩
    . exact fun _ => id

end Transfer

namespace SfsFs

variable {sfs : SfsFs}

theorem sfsSyncFreemap_sat (hok : sfs.Ok) (hle : sfsBlknFreemap + sfs.super.freemapBlocks ≤ sfs.super.blocks)
    : (sfsSyncFreemap sfs).Sat
        (fun _ sfs' => SameMeta sfs sfs' ∧ sfs.env.Answers (cost .freemap sfs.super.freemapBlocks) ∧
          sfs'.vol = (sfs.vol.requested (cost .freemap sfs.super.freemapBlocks)).writeRun sfsBlknFreemap
            sfs.super.freemapBlocks sfs.freemap.bitmapGetdata)
        (fun _ sfs' => SameMeta sfs sfs' ∧ ¬sfs.env.Answers (cost .freemap sfs.super.freemapBlocks) ∧
          ∃ c, ∃ k < sfs.super.freemapBlocks, sfs'.vol =
            (sfs.vol.requested c).writeRun sfsBlknFreemap k sfs.freemap.bitmapGetdata)
        (fun _ => False) := by
  have hvalid : ∀ i < sfs.super.freemapBlocks, sfs.vol.Valid (sfsBlknFreemap + i) := by
    intro i hi
    have hlt : sfsBlknFreemap + i < sfs.super.blocks := by omega
    refine ⟨?_, hlt⟩
    simp only [sfsBlknFreemap]
    omega
  unfold sfsSyncFreemap
  rw [Prog.get_bind_run]
  apply Prog.sat_zoom
  apply ((Transfer.sfsRwblock_write_sat hok hvalid).and (Transfer.sfsRwblock_meta hok hvalid)).mono
  . rintro _ t ⟨⟨-, -, hvol, hans⟩, hsame⟩
    simp only [Bytes.drop_zero] at hvol
    exact ⟨hsame, hans, hvol⟩
  . rintro _ t ⟨⟨-, -, hvol, hans⟩, hsame⟩
    simp only [Bytes.drop_zero] at hvol
    exact ⟨hsame, hans, hvol⟩
  . exact fun _ h => h.1

end SfsFs

namespace SfsCtx

variable {s : SfsCtx}

theorem sfsFsync_clean (h : s.sin.dirty = false) : sfsFsync s = .ok () s := by
  unfold sfsFsync
  rw [Prog.get_bind_run, Prog.when_neg (by rw [h]; exact Bool.false_ne_true)]
  rfl

/--
What the write of an inode that is marked as dirty leaves.
-/
def Fsynced (s t : SfsCtx) : Prop :=
  ∃ sfs dirty, t = ⟨sfs, { s.sin with dirty }⟩ ∧ SfsFs.SameMeta s.sfs sfs ∧
    (∀ k, k ≠ .inode → sfs.env k = s.sfs.env k) ∧
    (dirty, sfs.env .inode) = SfsMount.fsyncFlag true (s.sfs.env .inode) ∧
    (∀ b, b ≠ s.sin.ino → sfs.dev.data b = s.sfs.dev.data b) ∧
    (dirty = false → ∀ i < SfsDiskInode.byteSize, sfs.dev.data s.sin.ino i = s.sin.din.toBytes i)

theorem sfsFsync_dirty (hok : s.sfs.Ok) (hvalid : s.sfs.vol.Valid s.sin.ino) (hdirty : s.sin.dirty = true)
    : (sfsFsync s).Sat (fun _ t => s.Fsynced t) (fun _ t => s.Fsynced t) (fun _ => False) := by
  have henv : ∀ c, ∀ k, k ≠ .inode → (s.sfs.requested (cost .inode c)).env k = s.sfs.env k := by
    intro c k hk
    funext i
    simp only [SfsFs.requested, Faults.drop, cost, if_neg hk, Nat.zero_add]
  have hreq : ∀ c, (s.sfs.requested (cost .inode c)).env .inode = fun i => s.sfs.env .inode (c + i) := by
    intro c
    funext i
    simp only [SfsFs.requested, Faults.drop, cost, if_true]
  have hwrite : (onSfs (SfsFs.sfsWbuf .inode s.sin.din.toBytes SfsDiskInode.byteSize s.sin.ino 0)
      (s.setDirty false)).Sat (fun _ t => s.Fsynced t) (fun _ t => s.Fsynced (t.setDirty true)) (fun _ => False) := by
    apply Prog.sat_zoom
    have hoff : 0 < sfsBlksize := by decide
    have hlen : 0 + SfsDiskInode.byteSize ≤ sfsBlksize := by decide
    apply (SfsFs.sfsWbuf_requests hok hvalid s.sin.din.toBytes hoff hlen).mono
    . rintro _ _ ⟨hfirst, hsecond, rfl⟩
      refine ⟨_, false, rfl, ⟨rfl, rfl, rfl, rfl⟩, henv 2, ?_, ?_, ?_⟩
      . simp only [SfsMount.fsyncFlag, hfirst, hsecond]
        exact congrArg _ (hreq 2)
      . exact fun b hb => Function.update_of_ne hb ..
      . intro _ i hi
        refine (congrFun (Function.update_self ..) i).trans ?_
        rw [Bytes.copy_of_mem _ _ (Nat.zero_le _) (by simp only [SfsDiskInode.byteSize, sfsBlksize] at *; omega),
          Nat.sub_zero, Bytes.copy_of_mem _ _ (Nat.zero_le _) (by omega), Nat.sub_zero]
    . rintro _ _ (⟨hfirst, rfl⟩ | ⟨hfirst, hsecond, rfl⟩)
      . refine ⟨_, true, rfl, ⟨rfl, rfl, rfl, rfl⟩, henv 1, ?_, fun _ _ => rfl, Bool.noConfusion⟩
        simp only [SfsMount.fsyncFlag, if_true, if_pos hfirst]
        exact congrArg _ (hreq 1)
      . refine ⟨_, true, rfl, ⟨rfl, rfl, rfl, rfl⟩, henv 2, ?_, fun _ _ => rfl, Bool.noConfusion⟩
        simp only [SfsMount.fsyncFlag, if_true, if_neg (not_not.mpr hfirst), decide_eq_true hsecond]
        exact congrArg _ (hreq 2)
    . exact fun _ => id
  unfold sfsFsync
  rw [Prog.get_bind_run, Prog.when_pos hdirty, Prog.modify_bind_run]
  apply Prog.sat_onError hwrite
  . exact fun _ _ h => h
  . exact fun _ => id

end SfsCtx

namespace SfsMount

variable {list list' : List Nat} {s t u : SfsMount} {node : Nat} {n : SfsMemInode}

theorem SameMemory.refl (s : SfsMount) : s.SameMemory s := ⟨rfl, rfl, fun _ => rfl⟩

theorem SameMemory.trans (h : s.SameMemory t) (h' : t.SameMemory u) : s.SameMemory u :=
  ⟨h'.super.trans h.super, h'.freemap.trans h.freemap, fun node => (h'.inode node).trans (h.inode node)⟩

theorem dirtyInode_of_some (hn : s.inodes node = some n) : s.dirtyInode node = n.sin.dirty := by
  rw [dirtyInode, hn, Option.any_some]

theorem SuperSaved.congr (h : s.SuperSaved) (hsuper : t.sfs.super = s.sfs.super)
    (hdata : t.sfs.dev.data sfsBlknSuper = s.sfs.dev.data sfsBlknSuper)
    : t.SuperSaved := by
  intro i hi
  rw [hdata, hsuper]
  exact h i hi

theorem FreemapSaved.congr (h : s.FreemapSaved) (hsuper : t.sfs.super = s.sfs.super)
    (hfreemap : t.sfs.freemap = s.sfs.freemap)
    (hdata : ∀ k < s.sfs.super.freemapBlocks,
      t.sfs.dev.data (sfsBlknFreemap + k) = s.sfs.dev.data (sfsBlknFreemap + k))
    : t.FreemapSaved := by
  intro k hk i hi
  rw [hsuper] at hk
  rw [hdata k hk, hfreemap]
  exact h k hk i hi

theorem Listed.congr (h : s.Listed list) (hok : t.sfs.Ok) (hsuper : t.sfs.super = s.sfs.super)
    (hinodes : ∀ node, (t.inodes node).map (fun n => n.sin.ino) = (s.inodes node).map fun n => n.sin.ino)
    : t.Listed list := by
  constructor
  . exact hok
  . rw [hsuper]
    exact h.freemap_le
  . exact h.nodup
  . intro node
    rw [h.mem, ← Option.isSome_map (f := fun n : SfsMemInode => n.sin.ino), ← hinodes, Option.isSome_map]
  . intro node n hn
    have hino := hinodes node
    rw [hn, Option.map_some, eq_comm, Option.map_eq_some_iff] at hino
    obtain ⟨m, hm, heq⟩ := hino
    rw [← heq]
    exact h.ino node m hm
  . intro node hnode
    have hvalid := h.valid node hnode
    exact ⟨hvalid.1, show node < t.sfs.super.blocks from hsuper ▸ hvalid.2⟩
  . rw [hsuper]
    exact h.outside

/--
What the write of one inode does.
-/
structure Fsynced (list : List Nat) (node : Nat) (s u : SfsMount) : Prop where
  listed : u.Listed list
  flagged : u.Flagged
  sameMeta : SfsFs.SameMeta s.sfs u.sfs
  sameMemory : s.SameMemory u
  env : ∀ k, k ≠ .inode → u.sfs.env k = s.sfs.env k
  flag : (u.dirtyInode node, u.sfs.env .inode) = fsyncFlag (s.dirtyInode node) (s.sfs.env .inode)
  other : ∀ node', node' ≠ node → u.dirtyInode node' = s.dirtyInode node'

/--
The state with the inode, its flag and the device changed.
-/
theorem fsynced_of (hs : s.Listed list) (hflagged : s.Flagged) (hn : s.inodes node = some n) {sfs : SfsFs}
    {dirty : Bool} (hmeta : SfsFs.SameMeta s.sfs sfs) (henv : ∀ k, k ≠ .inode → sfs.env k = s.sfs.env k)
    (hflag : (dirty, sfs.env .inode) = fsyncFlag n.sin.dirty (s.sfs.env .inode))
    (hdata : ∀ b, b ≠ node → sfs.dev.data b = s.sfs.dev.data b)
    (hsaved : dirty = false → ∀ i < SfsDiskInode.byteSize, sfs.dev.data node i = n.sin.din.toBytes i)
    : Fsynced list node s ({ s with sfs }.setInode node { n with sin := { n.sin with dirty } }) := by
  have hself : (Function.update s.inodes node (some { n with sin := { n.sin with dirty } })) node
      = some { n with sin := { n.sin with dirty } } := Function.update_self ..
  have hother : ∀ node', node' ≠ node →
      Function.update s.inodes node (some { n with sin := { n.sin with dirty } }) node' = s.inodes node' :=
    fun node' hne => Function.update_of_ne hne ..
  have hmem : node ∈ list := (hs.mem node).mpr (by rw [hn]; rfl)
  have hino : n.sin.ino = node := hs.ino node n hn
  constructor
  . refine hs.congr (hmeta.ok hs.ok) hmeta.super fun node' => ?_
    by_cases hnode : node' = node
    . rw [hnode, hn]
      have hmap := congrArg (Option.map fun n : SfsMemInode => n.sin.ino) hself
      exact hmap
    . exact congrArg _ (hother node' hnode)
  . constructor
    . intro hclean
      obtain ⟨hsuper, hfreemap⟩ := hflagged.super (hmeta.superDirty.symm.trans hclean)
      refine ⟨hsuper.congr hmeta.super (hdata _ (hs.valid node hmem).1.symm), ?_⟩
      refine hfreemap.congr hmeta.super hmeta.freemap fun k hk => hdata _ ?_
      have := hs.outside node hmem
      omega
    . intro node' m hm hclean
      by_cases hnode : node' = node
      . subst hnode
        obtain rfl := Option.some_inj.mp (hself.symm.trans hm)
        intro i hi
        exact (congrFun (congrArg sfs.dev.data hino) i).trans (hsaved hclean i hi)
      . have hm' := (hother node' hnode).symm.trans hm
        intro i hi
        have hsame : sfs.dev.data m.sin.ino = s.sfs.dev.data m.sin.ino :=
          hdata _ (by rw [hs.ino node' m hm']; exact hnode)
        exact (congrFun hsame i).trans (hflagged.inode node' m hm' hclean i hi)
  . exact hmeta
  . refine ⟨hmeta.super, hmeta.freemap, fun node' => ?_⟩
    by_cases hnode : node' = node
    . rw [hnode, hn]
      have hmap := congrArg (Option.map fun n : SfsMemInode => n.sin.din) hself
      exact hmap
    . exact congrArg _ (hother node' hnode)
  . exact henv
  . rw [dirtyInode_of_some hn, dirtyInode_of_some hself]
    exact hflag
  . intro node' hne
    exact congrArg _ (hother node' hne)

/--
One round of the loop of `sfs_sync`.
-/
theorem fsync_sat (hs : s.Listed list) (hflagged : s.Flagged) (hnode : node ∈ list)
    : (Prog.attempt (onNode node SfsCtx.sfsFsync) s).Sat (fun _ u => Fsynced list node s u) (fun _ _ => False)
        (fun _ => False) := by
  obtain ⟨n, hn⟩ := Option.isSome_iff_exists.mp ((hs.mem node).mp hnode)
  have hino : n.sin.ino = node := hs.ino node n hn
  have hderef : deref node s = .ok n s := by
    simp only [deref, hn]
  apply Prog.sat_attempt
  unfold onNode
  rw [Prog.bind_run_ok hderef]
  apply Prog.sat_zoom
  cases hdirty : n.sin.dirty with
  | false =>
    rw [SfsCtx.sfsFsync_clean hdirty]
    refine fsynced_of hs hflagged hn (SfsFs.SameMeta.refl _) (fun _ _ => rfl) ?_ (fun _ _ => rfl) fun _ => ?_
    . rw [hdirty]
      rfl
    . exact hino ▸ hflagged.inode node n hn hdirty
  | true =>
    have hwritten : ∀ t, SfsCtx.Fsynced ⟨s.sfs, n.sin⟩ t →
        Fsynced list node s ({ s with sfs := t.sfs }.setInode node { n with sin := t.sin }) := by
      rintro _ ⟨sfs, dirty, rfl, hmeta, henv, hflag, hdata, hsaved⟩
      simp only [hino] at hdata hsaved
      exact fsynced_of hs hflagged hn hmeta henv (hdirty ▸ hflag) hdata hsaved
    exact (SfsCtx.sfsFsync_dirty hs.ok (hino ▸ hs.valid node hnode) hdirty).mono (fun _ t h => hwritten t h)
      (fun _ t h => hwritten t h) fun _ => id

theorem failedInodes_congr {dirty dirty' : Nat → Bool} (h : ∀ node ∈ list, dirty node = dirty' node)
    (env : Nat → Option Errno)
    : failedInodes dirty env list = failedInodes dirty' env list := by
  induction list generalizing env with
  | nil => rfl
  | cons node list ih =>
    simp only [failedInodes]
    rw [h node (List.mem_cons_self ..), ih fun node' hmem => h node' (List.mem_cons_of_mem _ hmem)]

theorem mem_of_mem_failedInodes {dirty : Nat → Bool} {env : Nat → Option Errno}
    (h : node ∈ failedInodes dirty env list)
    : node ∈ list := by
  induction list generalizing env with
  | nil => exact h
  | cons node' list ih =>
    simp only [failedInodes] at h
    split at h
    . rw [List.mem_cons] at h ⊢
      exact h.imp_right fun h => ih h
    . exact List.mem_cons_of_mem _ (ih h)

/--
What the loop over the inodes does.
-/
structure SyncedInodes (list list' : List Nat) (s t : SfsMount) : Prop where
  listed : t.Listed list
  flagged : t.Flagged
  sameMeta : SfsFs.SameMeta s.sfs t.sfs
  sameMemory : s.SameMemory t
  env : ∀ k, k ≠ .inode → t.sfs.env k = s.sfs.env k
  flag : ∀ node ∈ list', t.dirtyInode node = decide (node ∈ s.lost list')
  other : ∀ node ∉ list', t.dirtyInode node = s.dirtyInode node

theorem lost_cons (h : Fsynced list node s u) (hnode : node ∉ list')
    : s.lost (node :: list') = if u.dirtyInode node then node :: u.lost list' else u.lost list' := by
  have hrest : failedInodes s.dirtyInode (u.sfs.env .inode) list' = u.lost list' := by
    refine failedInodes_congr (fun node' hmem => ?_) _
    have hne : node' ≠ node := fun heq => hnode (heq ▸ hmem)
    exact (h.other node' hne).symm
  rw [lost, failedInodes, ← h.flag, hrest]

theorem syncInodes_sat (hs : s.Listed list) (hflagged : s.Flagged) (hsub : ∀ node ∈ list', node ∈ list)
    (hnodup : list'.Nodup)
    : (syncInodes list' s).Sat (fun _ t => SyncedInodes list list' s t) (fun _ _ => False) (fun _ => False) := by
  induction list' generalizing s with
  | nil =>
    exact ⟨hs, hflagged, SfsFs.SameMeta.refl _, SameMemory.refl _, fun _ _ => rfl, nofun, fun _ _ => rfl⟩
  | cons node list' ih =>
    rw [List.nodup_cons] at hnodup
    apply Prog.sat_bind_imp (fsync_sat hs hflagged (hsub node (List.mem_cons_self ..)))
    intro _ u hu
    have hrest := ih hu.listed hu.flagged (fun node' hmem => hsub node' (List.mem_cons_of_mem _ hmem)) hnodup.2
    apply hrest.imp
    intro _ t ht
    have hlost := lost_cons hu hnodup.1
    refine ⟨ht.listed, ht.flagged, hu.sameMeta.trans ht.sameMeta, hu.sameMemory.trans ht.sameMemory,
      fun k hk => (ht.env k hk).trans (hu.env k hk), ?_, ?_⟩
    . intro node' hmem
      by_cases heq : node' = node
      . subst heq
        have hout : node' ∉ u.lost list' := fun h => hnodup.1 (mem_of_mem_failedInodes h)
        rw [ht.other node' hnodup.1, hlost]
        cases u.dirtyInode node' with
        | true => simp
        | false => simp [hout]
      . rw [ht.flag node' ((List.mem_cons.mp hmem).resolve_left heq), hlost]
        split
        . simp [heq]
        . rfl
    . intro node' hmem
      rw [List.mem_cons, not_or] at hmem
      rw [ht.other node' hmem.2, hu.other node' hmem.1]

/--
What the write of the superblock and the freemap does.
-/
structure Stored (list : List Nat) (s t : SfsMount) (superDirty : Bool) : Prop where
  listed : t.Listed list
  sameMemory : s.SameMemory t
  flagged : t.Flagged
  superDirty : t.sfs.superDirty = superDirty
  inodes : t.inodes = s.inodes

theorem stored_of (hs : s.Listed list) (hflagged : s.Flagged) {sfs : SfsFs}
    (hmeta : SfsFs.SameMeta { s.sfs with superDirty := sfs.superDirty } sfs)
    (hdata : ∀ b, b ≠ sfsBlknSuper →
      (b < sfsBlknFreemap ∨ sfsBlknFreemap + s.sfs.super.freemapBlocks ≤ b) → sfs.dev.data b = s.sfs.dev.data b)
    (hsaved : sfs.superDirty = false → SuperSaved { s with sfs } ∧ FreemapSaved { s with sfs })
    : Stored list s { s with sfs } sfs.superDirty := by
  have hok : { s.sfs with superDirty := sfs.superDirty }.Ok :=
    ⟨hs.ok.1, hs.ok.2, hs.ok.3, hs.ok.4, hs.ok.5, hs.ok.6⟩
  constructor
  . exact hs.congr (hmeta.ok hok) hmeta.super fun _ => rfl
  . exact ⟨hmeta.super, hmeta.freemap, fun _ => rfl⟩
  . refine ⟨hsaved, fun node n hn hclean i hi => ?_⟩
    have hnode : node ∈ list := (hs.mem node).mpr (by rw [show s.inodes node = some n from hn]; rfl)
    have hsame : sfs.dev.data n.sin.ino = s.sfs.dev.data n.sin.ino := by
      rw [hs.ino node n hn]
      exact hdata node (hs.valid node hnode).1 (hs.outside node hnode)
    exact (congrFun hsame i).trans (hflagged.inode node n hn hclean i hi)
  . rfl
  . rfl

theorem stored_error (hs : s.Listed list) (hflagged : s.Flagged) {sfs : SfsFs}
    (hmeta : SfsFs.SameMeta { s.sfs with superDirty := false } sfs)
    (hdata : ∀ b, b ≠ sfsBlknSuper →
      (b < sfsBlknFreemap ∨ sfsBlknFreemap + s.sfs.super.freemapBlocks ≤ b) → sfs.dev.data b = s.sfs.dev.data b)
    : Stored list s (setSuperDirty { s with sfs } true) true := by
  have hmeta' : SfsFs.SameMeta { s.sfs with superDirty := true } { sfs with superDirty := true } :=
    ⟨hmeta.super, hmeta.freemap, rfl, hmeta.dBlocks⟩
  exact stored_of hs hflagged hmeta' hdata nofun

theorem freshOk (hs : s.Listed list) : (s.setSuperDirty false).sfs.Ok :=
  ⟨hs.ok.1, hs.ok.2, hs.ok.3, hs.ok.4, hs.ok.5, hs.ok.6⟩

/--
The state behind the write of the superblock.
-/
def superWritten (s : SfsMount) : SfsMount :=
  { s with
    sfs := ((s.setSuperDirty false).sfs.requested (cost .super 1)).setBlock sfsBlknSuper
      ((s.sfs.dev.data sfsBlknSuper).copy 0 (Bytes.zero.copy 0 s.sfs.super.toBytes SfsSuper.byteSize) sfsBlksize) }

theorem superWritten_data {b : Nat} (h : b ≠ sfsBlknSuper) : s.superWritten.sfs.dev.data b = s.sfs.dev.data b :=
  Function.update_of_ne h ..

theorem superWritten_saved : s.superWritten.SuperSaved := by
  intro i hi
  have hlt : i < sfsBlksize := Nat.lt_trans hi (by decide)
  have hself : s.superWritten.sfs.dev.data sfsBlknSuper = (s.sfs.dev.data sfsBlknSuper).copy 0
      (Bytes.zero.copy 0 s.sfs.super.toBytes SfsSuper.byteSize) sfsBlksize := by
    simp [superWritten, SfsFs.setBlock, SfsFs.requested, setSuperDirty]
  rw [hself, Bytes.copy_of_mem _ _ (Nat.zero_le _) (by omega), Nat.sub_zero,
    Bytes.copy_of_mem _ _ (Nat.zero_le _) (by omega), Nat.sub_zero]
  rfl

theorem storeSuper_sat (hs : s.Listed list) (hflagged : s.Flagged) (hdirty : s.sfs.superDirty = true)
    : (Prog.onError (onSfs SfsFs.sfsSyncSuper) (Prog.modify fun s => s.setSuperDirty true) (s.setSuperDirty false)).Sat
        (fun _ t => s.sfs.env.Answers (cost .super 1) ∧ t = s.superWritten)
        (fun _ t => Stored list s t true ∧ s.SuperFails) (fun _ => False) := by
  have hblocks : 0 < (s.setSuperDirty false).sfs.super.blocks :=
    Nat.lt_of_lt_of_le (by decide) (Nat.le_trans (Nat.le_add_right sfsBlknFreemap _) hs.freemap_le)
  have hwrite : (onSfs SfsFs.sfsSyncSuper (s.setSuperDirty false)).Sat
      (fun _ t => s.sfs.env.Answers (cost .super 1) ∧ t = s.superWritten)
      (fun _ t => Stored list s (t.setSuperDirty true) true ∧ s.SuperFails) (fun _ => False) := by
    apply Prog.sat_zoom
    apply (SfsFs.sfsSyncSuper_sat (freshOk hs) hblocks).mono
    . rintro _ _ ⟨hans, rfl⟩
      exact ⟨hans, rfl⟩
    . rintro _ _ ⟨hans, rfl⟩
      exact ⟨stored_error hs hflagged ⟨rfl, rfl, rfl, rfl⟩ fun _ _ _ => rfl, hdirty,
        Faults.not_answers_add_left hans⟩
    . exact fun _ => id
  apply Prog.sat_onError hwrite
  . exact fun _ _ h => h
  . exact fun _ => id

theorem storeFreemap_sat (hs : s.Listed list) (hflagged : s.Flagged) (hdirty : s.sfs.superDirty = true)
    (hans : s.sfs.env.Answers (cost .super 1))
    : (Prog.onError (onSfs SfsFs.sfsSyncFreemap) (Prog.modify fun s => s.setSuperDirty true) s.superWritten).Sat
        (fun _ t => Stored list s t false ∧ ¬s.SuperFails)
        (fun _ t => Stored list s t true ∧ s.SuperFails) (fun _ => False) := by
  have hok : s.superWritten.sfs.Ok := ((freshOk hs).requested _).setBlock _ _
  have houtside : ∀ {v : Vol} {k b : Nat}, v.data = s.superWritten.sfs.dev.data → k ≤ s.sfs.super.freemapBlocks →
      b ≠ sfsBlknSuper → (b < sfsBlknFreemap ∨ sfsBlknFreemap + s.sfs.super.freemapBlocks ≤ b) →
      (v.writeRun sfsBlknFreemap k s.sfs.freemap.bitmapGetdata).data b = s.sfs.dev.data b := by
    intro v k b hv hk hb hout
    have hnot : ¬(sfsBlknFreemap ≤ b ∧ b < sfsBlknFreemap + k) := by omega
    rw [Vol.writeRun_outside _ _ hnot, hv, superWritten_data hb]
  have hwrite : (onSfs SfsFs.sfsSyncFreemap s.superWritten).Sat
      (fun _ t => Stored list s t false ∧ ¬s.SuperFails)
      (fun _ t => Stored list s (t.setSuperDirty true) true ∧ s.SuperFails) (fun _ => False) := by
    apply Prog.sat_zoom
    apply (SfsFs.sfsSyncFreemap_sat hok hs.freemap_le).mono
    . rintro _ sfs ⟨hmeta, hans', hvol⟩
      have hdata : sfs.dev.data = sfs.vol.data := rfl
      have hclean : sfs.superDirty = false := hmeta.superDirty
      have hstored : Stored list s { s with sfs } sfs.superDirty := by
        refine stored_of hs hflagged ⟨hmeta.super, hmeta.freemap, rfl, hmeta.dBlocks⟩ ?_ fun _ => ⟨?_, ?_⟩
        . intro b hb hout
          rw [hdata, hvol]
          exact houtside rfl (Nat.le_refl _) hb hout
        . refine superWritten_saved.congr hmeta.super ?_
          have hnot : ¬(sfsBlknFreemap ≤ sfsBlknSuper ∧
              sfsBlknSuper < sfsBlknFreemap + s.sfs.super.freemapBlocks) := fun h => absurd h.1 (by decide)
          exact (congrFun (congrArg Vol.data hvol) _).trans (Vol.writeRun_outside _ _ hnot)
        . intro k hk i hi
          have hk' : k < s.superWritten.sfs.super.freemapBlocks := hmeta.super ▸ hk
          have hblock := (congrFun (congrArg Vol.data hvol) (sfsBlknFreemap + k)).trans (Vol.writeRun_inside _ _ hk')
          refine (congrFun hblock i).trans ?_
          rw [Bytes.copy_of_mem _ _ (Nat.zero_le _) (by omega), Nat.sub_zero, Bytes.drop_apply]
          exact congrFun (congrArg Bitmap.bitmapGetdata hmeta.freemap.symm) _
      rw [hclean] at hstored
      exact ⟨hstored, fun hfails => hfails.2 (Faults.answers_add.mpr ⟨hans, hans'⟩)⟩
    . rintro _ sfs ⟨hmeta, hans', c, k, hk, hvol⟩
      refine ⟨stored_error hs hflagged ⟨hmeta.super, hmeta.freemap, hmeta.superDirty, hmeta.dBlocks⟩ ?_, hdirty,
        Faults.not_answers_add_right hans'⟩
      intro b hb hout
      rw [show sfs.dev.data = sfs.vol.data from rfl, hvol]
      exact houtside rfl (Nat.le_of_lt hk) hb hout
    . exact fun _ => id
  apply Prog.sat_onError hwrite
  . exact fun _ _ h => h
  . exact fun _ => id

theorem syncSuper_sat (hs : s.Listed list) (hflagged : s.Flagged)
    : (syncSuper s).Sat (fun _ t => Stored list s t false ∧ ¬s.SuperFails)
        (fun _ t => Stored list s t true ∧ s.SuperFails) (fun _ => False) := by
  unfold syncSuper
  rw [Prog.get_bind_run]
  cases hdirty : s.sfs.superDirty with
  | false =>
    rw [Prog.when_neg Bool.false_ne_true]
    refine ⟨⟨hs, SameMemory.refl s, hflagged, hdirty, rfl⟩, fun hfails => ?_⟩
    rw [hfails.1] at hdirty
    contradiction
  | true =>
    rw [Prog.when_pos rfl, Prog.modify_bind_run]
    apply Prog.sat_bind_imp (storeSuper_sat hs hflagged hdirty)
    rintro _ _ ⟨hans, rfl⟩
    exact storeFreemap_sat hs hflagged hdirty hans

theorem superFails_congr (h : SyncedInodes list list' s t) : t.SuperFails ↔ s.SuperFails := by
  have hans : ∀ n, t.sfs.env.Answers (cost .super 1 + cost .freemap n) ↔
      s.sfs.env.Answers (cost .super 1 + cost .freemap n) := by
    intro n
    refine forall_congr' fun k => forall_congr' fun i => ?_
    by_cases hk : k = .inode
    . subst hk
      simp [cost]
    . rw [h.env k hk]
  rw [SuperFails, SuperFails, h.sameMeta.superDirty, h.sameMeta.super, hans]

/--
What a call of `sfs_sync` does.
-/
structure Synced (list : List Nat) (s t : SfsMount) (superDirty : Bool) : Prop where
  sameMemory : s.SameMemory t
  flagged : t.Flagged
  superDirty : t.sfs.superDirty = superDirty
  flag : ∀ node ∈ list, t.dirtyInode node = decide (node ∈ s.lost list)
  mem : ∀ node, node ∈ list ↔ (t.inodes node).isSome = true

theorem sfsSync_sat (hs : s.Listed list) (hflagged : s.Flagged)
    : (sfsSync list s).Sat (fun _ t => Synced list s t false ∧ ¬s.SuperFails)
        (fun _ t => Synced list s t true ∧ s.SuperFails) (fun _ => False) := by
  have hsynced : ∀ {u t superDirty}, SyncedInodes list list s u → Stored list u t superDirty →
      Synced list s t superDirty := by
    intro u t superDirty hu ht
    refine ⟨hu.sameMemory.trans ht.sameMemory, ht.flagged, ht.superDirty, fun node hnode => ?_, ht.listed.mem⟩
    rw [← hu.flag node hnode, dirtyInode, dirtyInode, ht.inodes]
  unfold sfsSync
  have hloop := syncInodes_sat hs hflagged (fun _ => id) hs.nodup
  apply Prog.sat_bind hloop
  . intro _ u hu
    apply (syncSuper_sat hu.listed hu.flagged).mono
    . exact fun _ t ht => ⟨hsynced hu ht.1, mt (superFails_congr hu).mpr ht.2⟩
    . exact fun _ t ht => ⟨hsynced hu ht.1, (superFails_congr hu).mp ht.2⟩
    . exact fun _ => id
  . exact fun _ _ h => h.elim
  . exact fun _ => id

theorem Synced.saved (h : Synced list s t false) (hlost : s.lost list = []) : t.Saved := by
  obtain ⟨hsuper, hfreemap⟩ := h.flagged.super h.superDirty
  refine ⟨hsuper, hfreemap, fun node n hn => h.flagged.inode node n hn ?_⟩
  have hnode : node ∈ list := (h.mem node).mpr (by rw [hn]; rfl)
  rw [← dirtyInode_of_some hn, h.flag node hnode, hlost]
  rfl

theorem truthful_of_written (hs : s.Listed list) (hflagged : s.Flagged) (h : s.lost list = [] ∨ s.SuperFails)
    : s.Truthful list := by
  apply (sfsSync_sat hs hflagged).mono
  . intro _ t ⟨ht, hsuper⟩
    have hlost := h.resolve_right hsuper
    exact ⟨ht.sameMemory, ht.saved hlost, hlost, hsuper⟩
  . intro _ t ⟨ht, hsuper⟩
    refine ⟨ht.sameMemory, ht.flagged, fun node hnode => ?_, fun _ => ht.superDirty⟩
    rw [ht.flag node (mem_of_mem_failedInodes hnode)]
    exact decide_eq_true hnode
  . exact fun _ => id

theorem written_of_truthful (hs : s.Listed list) (hflagged : s.Flagged) (h : s.Truthful list)
    : s.lost list = [] ∨ s.SuperFails := by
  have hsync := sfsSync_sat hs hflagged
  rw [Truthful] at h
  cases hout : sfsSync list s with
  | ok a t =>
    rw [hout] at h
    exact Or.inl h.2.2.1
  | error e t =>
    rw [hout] at hsync
    exact Or.inr hsync.2
  | panic p =>
    rw [hout] at h
    exact h.elim

theorem unmountSafe (hs : s.Listed list) (hflagged : s.Flagged) (devs : List VfsDev) (devname : List Char)
    : s.UnmountSafe devs devname list := by
  unfold UnmountSafe vfsUnmount
  cases findMount devs devname with
  | none => exact ⟨SameMemory.refl s, hflagged⟩
  | some vdev =>
    simp only
    split
    . exact ⟨SameMemory.refl s, hflagged⟩
    . apply Prog.sat_bind (sfsSync_sat hs hflagged)
      . rintro _ t ⟨ht, -⟩
        unfold sfsUnmount
        by_cases hlist : list = []
        . subst hlist
          rw [if_neg (not_not.mpr rfl), Prog.bind_assoc_run, Prog.get_bind_run, Prog.assert_bind_run ht.superDirty]
          exact ⟨ht.sameMemory, ht.saved rfl⟩
        . rw [if_pos hlist]
          exact ⟨ht.sameMemory, ht.flagged⟩
      . exact fun _ t ht => ⟨ht.1.sameMemory, ht.1.flagged⟩
      . exact fun _ => id

/--
A volume of four blocks with one inode that is marked as dirty, whose write fails.
-/
def oneDirty : SfsMount where
  sfs :=
    { SfsFs.new 4 4 with
      superDirty := true
      env := fun req i => if req = .inode ∧ i = 1 then some .inval else none }
  inodes := fun node =>
    if node = 3 then
      some
        { sin := { din := SfsDiskInode.new sfsTypeFile sfsTypeFile_lt, ino := 3, dirty := true, reclaimCount := 1 }
          refCount := 1
          openCount := 0 }
    else none

theorem oneDirty_listed : oneDirty.Listed [3] := by
  have hok := @SfsFs.new_ok 4 4 (by decide) (by decide)
  constructor
  . exact ⟨hok.1, hok.2, hok.3, hok.4, hok.5, hok.6⟩
  . decide
  . decide
  . intro node
    by_cases hnode : node = 3
    . simp [oneDirty, hnode]
    . simp [oneDirty, hnode]
  . intro node n hn
    by_cases hnode : node = 3
    . simp only [oneDirty, if_pos hnode, Option.some_inj] at hn
      rw [← hn, hnode]
    . simp [oneDirty, hnode] at hn
  . intro node hnode
    rw [List.mem_singleton.mp hnode]
    exact ⟨by decide, show 3 < 4 by decide⟩
  . intro node hnode
    rw [List.mem_singleton.mp hnode]
    decide

theorem oneDirty_flagged : oneDirty.Flagged := by
  constructor
  . exact nofun
  . intro node n hn hclean
    by_cases hnode : node = 3
    . simp only [oneDirty, if_pos hnode, Option.some_inj] at hn
      rw [← hn] at hclean
      contradiction
    . simp [oneDirty, hnode] at hn

/--
The write of an inode fails and `sfs_sync` returns 0.
-/
theorem not_sfs_sync
    : ¬∀ (list : List Nat) (s : SfsMount), s.Listed list → s.Flagged →
        s.Truthful list ∧ ∀ devs devname, s.UnmountSafe devs devname list := by
  intro hall
  cases written_of_truthful oneDirty_listed oneDirty_flagged (hall _ _ oneDirty_listed oneDirty_flagged).1 with
  | inl hlost => exact absurd hlost (by decide)
  | inr hsuper =>
    refine hsuper.2 fun k n hn => if_neg ?_
    rintro ⟨rfl, -⟩
    exact absurd hn (Nat.not_lt_zero n)

/--
`sfs_sync` tells the truth exactly when no write of an inode fails, or a write of the superblock or the freemap fails
too.
-/
theorem sfs_sync_iff (hs : s.Listed list) (hflagged : s.Flagged)
    : (s.Truthful list ∧ ∀ devs devname, s.UnmountSafe devs devname list) ↔ s.lost list = [] ∨ s.SuperFails :=
  ⟨fun h => written_of_truthful hs hflagged h.1,
    fun h => ⟨truthful_of_written hs hflagged h, unmountSafe hs hflagged⟩⟩

theorem sfs_sync_oneDirty
    : (oneDirty.Truthful [3] ∧ ∀ devs devname, oneDirty.UnmountSafe devs devname [3]) ↔
        oneDirty.lost [3] = [] ∨ oneDirty.SuperFails :=
  sfs_sync_iff oneDirty_listed oneDirty_flagged

end SfsMount
end Ucore

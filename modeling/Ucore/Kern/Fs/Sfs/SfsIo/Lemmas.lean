import Ucore.Kern.Fs.Sfs.Bitmap.Lemmas
import Ucore.Kern.Fs.Sfs.SfsIo.Impl

/-!
This module contains the volume a mounted file system stands for, and the specification of the
transfers in terms of it.
-/

namespace Ucore

open Faults (cost)

/--
What matters of a mounted file system: its size, the free blocks in the order in which they are
handed out, the contents of the blocks and the faults to come.
-/
@[ext]
structure Vol where
  blocks : Nat
  free : List Nat
  data : Nat → Bytes
  env : Faults Request Errno

namespace Vol

/--
The volume after `c k` requests of each kind `k`.
-/
def requested (v : Vol) (c : Request → Nat) : Vol := { v with env := v.env.drop c }

/--
The volume with `n` bytes of block `b` replaced.
-/
def write (v : Vol) (b off : Nat) (src : Bytes) (n : Nat) : Vol :=
  { v with data := Function.update v.data b ((v.data b).copy off src n) }

def clear (v : Vol) (b : Nat) : Vol := v.write b 0 Bytes.zero sfsBlksize

def setFree (v : Vol) (free : List Nat) : Vol := { v with free }

/--
The volume with block `b` put back among the free blocks.
-/
def release (v : Vol) (b : Nat) : Vol := v.setFree (v.free.orderedInsert (· ≤ ·) b)

/--
A block that `sfs_rwblock_nolock` accepts.
-/
abbrev Valid (v : Vol) (b : Nat) : Prop := b ≠ 0 ∧ b < v.blocks

/--
A block that `sfs_block_inuse` finds in use.
-/
def InUse (v : Vol) (b : Nat) : Prop := v.Valid b ∧ b ∉ v.free

theorem valid_run {v : Vol} {p n : Nat} (hp : v.Valid p) (hn : ¬v.blocks < p + n)
    : ∀ k < n, v.Valid (p + k) := by
  intro k hk
  have := hp.1
  exact ⟨by omega, by omega⟩

@[simp]
theorem setFree_blocks (v : Vol) (free : List Nat) : (v.setFree free).blocks = v.blocks := rfl

@[simp]
theorem setFree_free (v : Vol) (free : List Nat) : (v.setFree free).free = free := rfl

@[simp]
theorem setFree_data (v : Vol) (free : List Nat) : (v.setFree free).data = v.data := rfl

@[simp]
theorem setFree_env (v : Vol) (free : List Nat) : (v.setFree free).env = v.env := rfl

@[simp]
theorem release_blocks (v : Vol) (b : Nat) : (v.release b).blocks = v.blocks := rfl

@[simp]
theorem release_data (v : Vol) (b : Nat) : (v.release b).data = v.data := rfl

@[simp]
theorem release_env (v : Vol) (b : Nat) : (v.release b).env = v.env := rfl

@[simp]
theorem mem_release_free (v : Vol) (b b' : Nat) : b' ∈ (v.release b).free ↔ b' = b ∨ b' ∈ v.free := by
  simp [release, List.mem_orderedInsert]

@[simp]
theorem clear_blocks (v : Vol) (b : Nat) : (v.clear b).blocks = v.blocks := rfl

@[simp]
theorem clear_free (v : Vol) (b : Nat) : (v.clear b).free = v.free := rfl

@[simp]
theorem clear_env (v : Vol) (b : Nat) : (v.clear b).env = v.env := rfl

@[simp]
theorem requested_blocks (v : Vol) (c : Request → Nat) : (v.requested c).blocks = v.blocks := rfl

@[simp]
theorem requested_free (v : Vol) (c : Request → Nat) : (v.requested c).free = v.free := rfl

@[simp]
theorem requested_data (v : Vol) (c : Request → Nat) : (v.requested c).data = v.data := rfl

@[simp]
theorem requested_env (v : Vol) (c : Request → Nat) : (v.requested c).env = v.env.drop c := rfl

theorem requested_requested (v : Vol) (c d : Request → Nat)
    : (v.requested c).requested d = v.requested (c + d) := by
  rw [requested, requested, requested, Faults.drop_drop]

@[simp]
theorem write_blocks (v : Vol) (b off : Nat) (src : Bytes) (n : Nat)
    : (v.write b off src n).blocks = v.blocks := rfl

@[simp]
theorem write_free (v : Vol) (b off : Nat) (src : Bytes) (n : Nat)
    : (v.write b off src n).free = v.free := rfl

@[simp]
theorem write_env (v : Vol) (b off : Nat) (src : Bytes) (n : Nat)
    : (v.write b off src n).env = v.env := rfl

theorem write_data (v : Vol) (b off : Nat) (src : Bytes) (n b' : Nat)
    : (v.write b off src n).data b' =
        if b' = b then (v.data b).copy off src n else v.data b' := by
  simp [write, Function.update_apply]

theorem write_data_of_ne (v : Vol) {b b' : Nat} (off : Nat) (src : Bytes) (n : Nat) (h : b' ≠ b)
    : (v.write b off src n).data b' = v.data b' := by
  simp [write_data, h]

@[simp]
theorem write_data_self (v : Vol) (b off : Nat) (src : Bytes) (n : Nat)
    : (v.write b off src n).data b = (v.data b).copy off src n := by
  simp [write_data]

end Vol

namespace SfsFs

def vol (sfs : SfsFs) : Vol where
  blocks := sfs.super.blocks
  free := sfs.freemap.free
  data := sfs.dev.data
  env := sfs.env

/--
What `sfs_do_mount` establishes and all operations keep: the file system fits on the device, whose
byte offsets fit in a `uint32_t`, the bitmap marks only blocks of the file system as free, never the
superblock, and the number of free blocks is counted in the superblock.
-/
structure Ok (sfs : SfsFs) : Prop where
  freemap : sfs.freemap.Ok
  blocks_le_nbits : sfs.super.blocks ≤ sfs.freemap.nbits
  blocks_le_dBlocks : sfs.super.blocks ≤ sfs.dev.dBlocks
  dBlocks_le : sfs.dev.dBlocks ≤ 2 ^ 20
  free_valid : ∀ b ∈ sfs.freemap.free, b ≠ 0 ∧ b < sfs.super.blocks
  unusedBlocks : sfs.super.unusedBlocks = sfs.freemap.free.length

@[simp]
theorem requested_vol (sfs : SfsFs) (c : Request → Nat)
    : (sfs.requested c).vol = sfs.vol.requested c := rfl

theorem Ok.requested {sfs : SfsFs} (h : sfs.Ok) (c : Request → Nat) : (sfs.requested c).Ok :=
  ⟨h.1, h.2, h.3, h.4, h.5, h.6⟩

theorem Ok.setBlock {sfs : SfsFs} (h : sfs.Ok) (blkno : Nat) (b : Bytes)
    : (sfs.setBlock blkno b).Ok :=
  ⟨h.1, h.2, h.3, h.4, h.5, h.6⟩

theorem Ok.blocks_lt {sfs : SfsFs} (h : sfs.Ok) : sfs.super.blocks ≤ 2 ^ 20 :=
  Nat.le_trans h.blocks_le_dBlocks h.dBlocks_le

theorem Ok.free_nodup {sfs : SfsFs} (_ : sfs.Ok) : sfs.vol.free.Nodup :=
  sfs.freemap.free_nodup

theorem Ok.free_length_le {sfs : SfsFs} (h : sfs.Ok) : sfs.vol.free.length ≤ 2 ^ 20 := by
  have hsub : sfs.vol.free ⊆ List.range sfs.super.blocks := by
    intro b hb
    exact List.mem_range.mpr (h.free_valid b hb).2
  have hle := (List.Nodup.subperm h.free_nodup hsub).length_le
  have hlt := h.blocks_lt
  rw [List.length_range] at hle
  omega

theorem diskBlkno_eq {blkno : Nat} (h : blkno < 2 ^ 20) : diskBlkno blkno = blkno := by
  simp only [diskBlkno, sfsBlksize]
  rw [Nat.mod_eq_of_lt (by omega)]
  omega

variable {sfs : SfsFs} {req : Request} {blkno : Nat}

theorem request_sat
    : (request req sfs).Sat
        (fun _ sfs' => sfs' = sfs.requested (cost req 1) ∧ sfs.env.Answers (cost req 1))
        (fun _ sfs' => sfs' = sfs.requested (cost req 1) ∧ ¬sfs.env.Answers (cost req 1))
        (fun _ => False) := by
  unfold request
  cases h : sfs.env req 0 with
  | none => exact ⟨rfl, Faults.answers_cost_one.mpr h⟩
  | some e =>
    refine ⟨rfl, ?_⟩
    rw [Faults.answers_cost_one, h]
    exact Option.some_ne_none e

theorem Ok.diskBlkno (hok : sfs.Ok) (h : sfs.vol.Valid blkno) : SfsFs.diskBlkno blkno = blkno :=
  diskBlkno_eq (Nat.lt_of_lt_of_le h.2 hok.blocks_lt)

theorem sfsRblockNolock_sat (hok : sfs.Ok) (h : sfs.vol.Valid blkno)
    : (sfsRblockNolock req blkno sfs).Sat
        (fun b sfs' => b = sfs.dev.data blkno ∧ sfs' = sfs.requested (cost req 1) ∧
          sfs.env.Answers (cost req 1))
        (fun _ sfs' => sfs' = sfs.requested (cost req 1) ∧ ¬sfs.env.Answers (cost req 1))
        (fun _ => False) := by
  have hdisk := hok.diskBlkno h
  have hle := hok.blocks_le_dBlocks
  unfold sfsRblockNolock disk0Read
  rw [Prog.get_bind_run, Prog.assert_bind_run (c := blkno ≠ 0 ∧ blkno < sfs.super.blocks) h]
  apply Prog.sat_bind request_sat
  . intro _ sfs' ⟨hsfs', hans⟩
    subst hsfs'
    have hin : ¬blkno + 1 > (sfs.requested (cost req 1)).dev.dBlocks :=
      Nat.not_lt.mpr (Nat.lt_of_lt_of_le h.2 hle)
    rw [Prog.get_bind_run, hdisk, if_neg hin]
    exact ⟨rfl, rfl, hans⟩
  . intro _ sfs' herror
    exact herror
  . intro _ hpanic
    exact hpanic

theorem sfsWblockNolock_sat (hok : sfs.Ok) (h : sfs.vol.Valid blkno) (b : Bytes)
    : (sfsWblockNolock req blkno b sfs).Sat
        (fun _ sfs' => sfs' = (sfs.requested (cost req 1)).setBlock blkno
            ((sfs.dev.data blkno).copy 0 b sfsBlksize) ∧
          sfs.env.Answers (cost req 1))
        (fun _ sfs' => sfs' = sfs.requested (cost req 1) ∧ ¬sfs.env.Answers (cost req 1))
        (fun _ => False) := by
  have hdisk := hok.diskBlkno h
  have hle := hok.blocks_le_dBlocks
  unfold sfsWblockNolock disk0Write
  rw [Prog.get_bind_run, Prog.assert_bind_run (c := blkno ≠ 0 ∧ blkno < sfs.super.blocks) h]
  apply Prog.sat_bind request_sat
  . intro _ sfs' ⟨hsfs', hans⟩
    subst hsfs'
    have hin : ¬blkno + 1 > (sfs.requested (cost req 1)).dev.dBlocks :=
      Nat.not_lt.mpr (Nat.lt_of_lt_of_le h.2 hle)
    rw [Prog.get_bind_run, hdisk, if_neg hin]
    exact ⟨rfl, hans⟩
  . intro _ sfs' herror
    exact herror
  . intro _ hpanic
    exact hpanic

theorem sfsWblockNolock_panic (h : ¬sfs.vol.Valid blkno) (b : Bytes)
    : sfsWblockNolock req blkno b sfs = .panic .sfsRwblock := by
  unfold sfsWblockNolock
  rw [Prog.get_bind_run,
    Prog.assert_bind_run_panic (c := blkno ≠ 0 ∧ blkno < sfs.super.blocks) h]

theorem sfsRblockNolock_panic (h : ¬sfs.vol.Valid blkno)
    : sfsRblockNolock req blkno sfs = .panic .sfsRwblock := by
  unfold sfsRblockNolock
  rw [Prog.get_bind_run,
    Prog.assert_bind_run_panic (c := blkno ≠ 0 ∧ blkno < sfs.super.blocks) h]

theorem sfsRbuf_sat (hok : sfs.Ok) (h : sfs.vol.Valid blkno) {len off : Nat} (hoff : off < sfsBlksize)
    (hlen : off + len ≤ sfsBlksize)
    : (sfsRbuf req len blkno off sfs).Sat
        (fun b sfs' => b = (sfs.dev.data blkno).drop off ∧ sfs' = sfs.requested (cost req 1) ∧
          sfs.env.Answers (cost req 1))
        (fun _ sfs' => sfs' = sfs.requested (cost req 1) ∧ ¬sfs.env.Answers (cost req 1))
        (fun _ => False) := by
  unfold sfsRbuf
  rw [Prog.assert_bind_run ⟨hoff, hlen⟩]
  apply Prog.sat_bind (sfsRblockNolock_sat hok h)
  . intro b sfs' ⟨hb, hsfs', hans⟩
    rw [Prog.pure_run, hb]
    exact ⟨rfl, hsfs', hans⟩
  . intro _ sfs' herror
    exact herror
  . intro _ hpanic
    exact hpanic

theorem sfsWbuf_sat (hok : sfs.Ok) (h : sfs.vol.Valid blkno) (buf : Bytes) {len off : Nat}
    (hoff : off < sfsBlksize) (hlen : off + len ≤ sfsBlksize)
    : (sfsWbuf req buf len blkno off sfs).Sat
        (fun _ sfs' => sfs'.Ok ∧ sfs'.vol = (sfs.vol.requested (cost req 2)).write blkno off buf len ∧
          sfs.env.Answers (cost req 2))
        (fun _ sfs' => sfs'.Ok ∧ ∃ c, sfs' = sfs.requested c ∧ ¬sfs.env.Answers (cost req 2))
        (fun _ => False) := by
  unfold sfsWbuf
  rw [Prog.assert_bind_run ⟨hoff, hlen⟩]
  apply Prog.sat_bind (sfsRblockNolock_sat hok h)
  . rintro b sfs' ⟨hb, hsfs', hans⟩
    subst hsfs'
    have hsum : cost req 1 + cost req 1 = cost req 2 := Faults.cost_add req 1 1
    apply (sfsWblockNolock_sat (hok.requested _) h _).mono
    . rintro _ sfs'' ⟨hsfs'', hans'⟩
      subst hsfs''
      refine ⟨((hok.requested _).requested _).setBlock _ _, ?_, ?_⟩
      . ext1
        . rfl
        . rfl
        . funext b'
          rw [Vol.write_data]
          by_cases hb' : b' = blkno
          . subst hb'
            simp only [SfsFs.setBlock, SfsFs.requested, vol, Function.update_self, hb,
              Vol.requested_data, if_true]
            funext i
            by_cases hi : i < sfsBlksize
            . rw [Bytes.copy_of_mem _ _ (by omega) (by omega), Nat.sub_zero]
            . rw [Bytes.copy_of_not_mem _ _ (by omega), Bytes.copy_of_not_mem _ _ (by omega)]
          . simp [SfsFs.setBlock, SfsFs.requested, vol, hb']
        . simp [SfsFs.setBlock, SfsFs.requested, vol, hsum]
      . rw [← hsum, Faults.answers_add]
        exact ⟨hans, hans'⟩
    . rintro _ sfs'' ⟨hsfs'', hans'⟩
      subst hsfs''
      refine ⟨(hok.requested _).requested _, cost req 2, ?_, ?_⟩
      . simp only [SfsFs.requested, Faults.drop_drop, hsum]
      . rw [← hsum, Faults.answers_add]
        exact fun h => hans' h.2
    . exact fun _ => id
  . rintro _ sfs' ⟨hsfs', hans⟩
    subst hsfs'
    refine ⟨hok.requested _, cost req 1, rfl, ?_⟩
    intro h
    apply hans
    rw [← show cost req 1 + cost req 1 = cost req 2 from Faults.cost_add req 1 1,
      Faults.answers_add] at h
    exact h.1
  . intro _ hpanic
    exact hpanic

theorem sfsClearBlock_sat (hok : sfs.Ok) (h : sfs.vol.Valid blkno)
    : (sfsClearBlock blkno sfs).Sat
        (fun _ sfs' => sfs'.Ok ∧ sfs'.vol = (sfs.vol.requested (cost .clear 1)).clear blkno ∧
          sfs.env.Answers (cost .clear 1))
        (fun _ sfs' => sfs' = sfs.requested (cost .clear 1) ∧
          ¬sfs.env.Answers (cost .clear 1))
        (fun _ => False) := by
  unfold sfsClearBlock
  apply (sfsWblockNolock_sat hok h _).imp
  intro _ sfs' ⟨hsfs', hans⟩
  subst hsfs'
  exact ⟨(hok.requested _).setBlock _ _, rfl, hans⟩

end SfsFs

namespace Vol

/--
The volume with the `n` blocks from `p` on replaced by successive parts of `src`.
-/
def writeRun (v : Vol) (p n : Nat) (src : Bytes) : Vol :=
  { v with
    data := fun b =>
      if p ≤ b ∧ b < p + n then
        (v.data b).copy 0 (src.drop ((b - p) * sfsBlksize)) sfsBlksize
      else
        v.data b }

/--
The contents of the blocks from `p` on as one sequence of bytes.
-/
def readRun (v : Vol) (p : Nat) : Bytes := fun i => v.data (p + i / sfsBlksize) (i % sfsBlksize)

theorem writeRun_zero (v : Vol) (p : Nat) (src : Bytes) : v.writeRun p 0 src = v := by
  ext1
  . rfl
  . rfl
  . funext b
    exact if_neg (by omega)
  . rfl

theorem writeRun_succ (v : Vol) (p n : Nat) (src : Bytes) (c : Request → Nat)
    : (((v.write p 0 src sfsBlksize).requested c).writeRun (p + 1) n (src.drop sfsBlksize)) =
        (v.requested c).writeRun p (n + 1) src := by
  ext1
  . rfl
  . rfl
  . funext b
    simp only [writeRun, requested_data, write_data]
    by_cases hb : b = p
    . subst hb
      rw [if_neg (by omega), if_pos rfl, if_pos (by omega), Nat.sub_self, Nat.zero_mul,
        Bytes.drop_zero]
    . by_cases hmem : p + 1 ≤ b ∧ b < p + 1 + n
      . rw [if_pos hmem, if_neg hb, if_pos (by omega), Bytes.drop_drop]
        congr 2
        obtain ⟨k, rfl⟩ := Nat.exists_eq_add_of_le hmem.1
        rw [Nat.add_sub_cancel_left, show p + 1 + k - p = k + 1 by omega, Nat.succ_mul]
        omega
      . rw [if_neg hmem, if_neg hb, if_neg (by omega)]
  . rfl

theorem readRun_requested (v : Vol) (c : Request → Nat) (p : Nat)
    : (v.requested c).readRun p = v.readRun p := rfl

theorem readRun_succ (v : Vol) (p : Nat) : (v.readRun p).drop sfsBlksize = v.readRun (p + 1) := by
  funext i
  have hdiv : (sfsBlksize + i) / sfsBlksize = 1 + i / sfsBlksize := by
    simp only [sfsBlksize]
    omega
  rw [Bytes.drop_apply, readRun, readRun, hdiv, Nat.add_mod_left, Nat.add_assoc]

end Vol

namespace Transfer

variable {t : Transfer} {req : Request}

theorem sat_bind_onSfs {α β : Type} {m : Prog Errno Panic SfsFs α}
    {f : α → Prog Errno Panic Transfer β} {R : α → SfsFs → Prop} {F : Errno → SfsFs → Prop}
    {Q : β → Transfer → Prop} {E : Errno → Transfer → Prop} {X Y : Panic → Prop}
    (h : (m t.sfs).Sat R F Y) (hok : ∀ a sfs, R a sfs → (f a { t with sfs }).Sat Q E X)
    (herror : ∀ e sfs, F e sfs → E e { t with sfs }) (hpanic : ∀ p, Y p → X p)
    : ((onSfs m >>= f) t).Sat Q E X :=
  Prog.sat_bind_zoom h hok herror hpanic

theorem sfsRwblock_write_sat (hok : t.sfs.Ok) {pos p n : Nat}
    (hvalid : ∀ i < n, t.sfs.vol.Valid (p + i))
    : (sfsRwblock req true pos p n t).Sat
        (fun _ t' => t'.sfs.Ok ∧ t'.buf = t.buf ∧
          t'.sfs.vol = (t.sfs.vol.requested (cost req n)).writeRun p n (t.buf.drop pos) ∧
          t.sfs.env.Answers (cost req n))
        (fun _ t' => t'.sfs.Ok ∧ t'.buf = t.buf ∧
          (∃ c, ∃ k < n, t'.sfs.vol = (t.sfs.vol.requested c).writeRun p k (t.buf.drop pos)) ∧
          ¬t.sfs.env.Answers (cost req n))
        (fun _ => False) := by
  induction n generalizing t pos p with
  | zero =>
    refine ⟨hok, rfl, ?_, ?_⟩
    . rw [Vol.writeRun_zero, Faults.cost_zero]
      simp [Vol.requested]
    . rw [Faults.cost_zero]
      exact Faults.answers_zero
  | succ n ih =>
    have hsum : cost req (n + 1) = cost req 1 + cost req n := by
      rw [Faults.cost_add, Nat.add_comm]
    unfold sfsRwblock
    simp only [if_true]
    rw [Prog.get_bind_run]
    apply sat_bind_onSfs (SfsFs.sfsWblockNolock_sat hok (hvalid 0 (by omega)) _)
    . rintro _ sfs ⟨hsfs, hans⟩
      subst hsfs
      apply (ih (t := ⟨_, t.buf⟩) ((hok.requested _).setBlock _ _) ?_).mono
      . rintro _ t' ⟨hok', hbuf, hvol', hans'⟩
        refine ⟨hok', hbuf, ?_, by rw [hsum]; exact Faults.answers_add.mpr ⟨hans, hans'⟩⟩
        rw [hvol', hsum, ← Vol.writeRun_succ, Bytes.drop_drop]
        simp [SfsFs.vol, SfsFs.requested, Vol.requested, Vol.write]
      . rintro _ t' ⟨hok', hbuf, ⟨c, k, hk, hvol'⟩, hans'⟩
        refine ⟨hok', hbuf, ⟨cost req 1 + c, k + 1, by omega, ?_⟩, ?_⟩
        . rw [hvol', ← Vol.writeRun_succ, Bytes.drop_drop]
          simp [SfsFs.vol, SfsFs.requested, Vol.requested, Vol.write]
        . rw [hsum]
          exact Faults.not_answers_add_right hans'
      . exact fun _ => id
      . intro i hi
        have := hvalid (i + 1) (by omega)
        rwa [show p + (i + 1) = p + 1 + i by omega] at this
    . rintro _ sfs ⟨hsfs, hans⟩
      subst hsfs
      refine ⟨hok.requested _, rfl, ⟨cost req 1, 0, by omega, ?_⟩, ?_⟩
      . rw [Vol.writeRun_zero]
        rfl
      . rw [hsum]
        exact Faults.not_answers_add_left hans
    . exact fun _ => id

theorem sfsRwblock_read_sat (hok : t.sfs.Ok) {pos p n : Nat}
    (hvalid : ∀ i < n, t.sfs.vol.Valid (p + i))
    : (sfsRwblock req false pos p n t).Sat
        (fun _ t' => t' = ⟨t.sfs.requested (cost req n),
            t.buf.copy pos (t.sfs.vol.readRun p) (n * sfsBlksize)⟩ ∧
          t.sfs.env.Answers (cost req n))
        (fun _ t' => (∃ c, t'.sfs = t.sfs.requested c) ∧ ¬t.sfs.env.Answers (cost req n))
        (fun _ => False) := by
  induction n generalizing t pos p with
  | zero =>
    refine ⟨?_, ?_⟩
    . rw [Nat.zero_mul, Bytes.copy_zero, Faults.cost_zero]
      simp [SfsFs.requested]
    . rw [Faults.cost_zero]
      exact Faults.answers_zero
  | succ n ih =>
    have hsum : cost req (n + 1) = cost req 1 + cost req n := by
      rw [Faults.cost_add, Nat.add_comm]
    unfold sfsRwblock
    simp only [Bool.false_eq_true, if_false]
    apply sat_bind_onSfs (SfsFs.sfsRblockNolock_sat hok (hvalid 0 (by omega)))
    . rintro b sfs ⟨hb, hsfs, hans⟩
      subst hsfs
      rw [Prog.modify_bind_run]
      apply (ih (t := ⟨t.sfs.requested (cost req 1), t.buf.copy pos b sfsBlksize⟩) (hok.requested _)
        ?_).mono
      . rintro _ t' ⟨ht', hans'⟩
        refine ⟨?_, by rw [hsum]; exact Faults.answers_add.mpr ⟨hans, hans'⟩⟩
        subst ht'
        rw [hsum]
        congr 1
        . simp [SfsFs.requested]
        . have hhead : t.buf.copy pos b sfsBlksize =
              t.buf.copy pos (t.sfs.vol.readRun p) sfsBlksize := by
            funext i
            by_cases hi : pos ≤ i ∧ i < pos + sfsBlksize
            . rw [Bytes.copy_of_mem _ _ hi.1 hi.2, Bytes.copy_of_mem _ _ hi.1 hi.2, hb]
              simp only [Vol.readRun, Nat.add_zero]
              rw [Nat.div_eq_of_lt (by omega), Nat.mod_eq_of_lt (by omega)]
              rfl
            . rw [Bytes.copy_of_not_mem _ _ (by omega), Bytes.copy_of_not_mem _ _ (by omega)]
          rw [SfsFs.requested_vol, Vol.readRun_requested, ← Vol.readRun_succ, hhead,
            Bytes.copy_copy, Nat.succ_mul, Nat.add_comm sfsBlksize]
      . rintro _ t' ⟨⟨c, ht'⟩, hans'⟩
        refine ⟨⟨cost req 1 + c, by rw [ht']; simp [SfsFs.requested]⟩, ?_⟩
        rw [hsum]
        exact Faults.not_answers_add_right hans'
      . exact fun _ => id
      . intro i hi
        have := hvalid (i + 1) (by omega)
        rwa [show p + (i + 1) = p + 1 + i by omega] at this
    . rintro _ sfs ⟨hsfs, hans⟩
      refine ⟨⟨_, hsfs⟩, ?_⟩
      rw [hsum]
      exact Faults.not_answers_add_left hans
    . exact fun _ => id

theorem sfsRwblock_add (write : Bool) (pos p m n : Nat)
    : sfsRwblock req write pos p (m + n) t =
        (sfsRwblock req write pos p m >>=
          fun _ => sfsRwblock req write (pos + m * sfsBlksize) (p + m) n) t := by
  induction m generalizing t pos p with
  | zero => rw [Nat.zero_add, sfsRwblock, Prog.pure_bind_run, Nat.zero_mul, Nat.add_zero, Nat.add_zero]
  | succ m ih =>
    have hpos : pos + (m + 1) * sfsBlksize = pos + sfsBlksize + m * sfsBlksize := by
      rw [Nat.succ_mul]
      omega
    rw [Nat.add_right_comm, sfsRwblock, sfsRwblock, hpos, show p + (m + 1) = p + 1 + m by omega]
    cases write with
    | true =>
      simp only [if_true, Prog.bind_assoc_run, Prog.get_bind_run]
      exact Prog.bind_run_congr fun _ _ => ih _ _
    | false =>
      simp only [Bool.false_eq_true, if_false, Prog.bind_assoc_run]
      apply Prog.bind_run_congr
      intro b t'
      simp only [Prog.bind_assoc_run, Prog.modify_bind_run]
      exact ih _ _

/--
What a transfer of up to `n` blocks does if it is interrupted.
-/
structure Broken (req : Request) (write : Bool) (pos p n : Nat) (t t' : Transfer) : Prop where
  ok : t'.sfs.Ok
  vol : ∃ c, ∃ k < n, t'.sfs.vol =
    if write then (t.sfs.vol.requested c).writeRun p k (t.buf.drop pos) else t.sfs.vol.requested c
  fault : ¬t.sfs.env.Answers (cost req n)

theorem sfsRwblock_sat (hok : t.sfs.Ok) {write : Bool} {pos p n : Nat}
    (hvalid : ∀ i < n, t.sfs.vol.Valid (p + i))
    : (sfsRwblock req write pos p n t).Sat
        (fun _ t' => t'.sfs.Ok ∧ t'.sfs.vol =
          if write then (t.sfs.vol.requested (cost req n)).writeRun p n (t.buf.drop pos)
          else t.sfs.vol.requested (cost req n))
        (fun _ t' => Broken req write pos p n t t') (fun _ => False) := by
  cases write with
  | true =>
    apply (sfsRwblock_write_sat hok hvalid).mono
    . exact fun _ t' h => ⟨h.1, h.2.2.1⟩
    . exact fun _ t' h => ⟨h.1, h.2.2.1, h.2.2.2⟩
    . exact fun _ => id
  | false =>
    apply (sfsRwblock_read_sat hok hvalid).mono
    . intro _ t' ⟨ht', _⟩
      subst ht'
      exact ⟨hok.requested _, rfl⟩
    . intro _ t' ⟨⟨c, ht'⟩, hans⟩
      refine ⟨by rw [ht']; exact hok.requested _, ⟨c, 0, ?_, by rw [ht']; rfl⟩, hans⟩
      apply Nat.pos_of_ne_zero
      rintro rfl
      exact hans (by simp)
    . exact fun _ => id

/--
A run that reaches the end of the file system stops at an assertion.
-/
theorem sfsRwblock_outside (hok : t.sfs.Ok) {write : Bool} {pos p n : Nat}
    (hp : t.sfs.vol.Valid p) (hn : t.sfs.vol.blocks < p + n)
    : (sfsRwblock req write pos p n t).Sat (fun _ _ => False)
        (fun _ t' => Broken req write pos p n t t') (fun q => q = .sfsRwblock) := by
  obtain ⟨m, hm⟩ := Nat.exists_eq_add_of_le (Nat.le_of_lt hp.2)
  obtain ⟨k, rfl⟩ := Nat.exists_eq_add_of_le (show m + 1 ≤ n by omega)
  rw [Nat.add_assoc, sfsRwblock_add]
  apply Prog.sat_bind (sfsRwblock_sat hok (n := m) ?_)
  . rintro _ t' ⟨hok', hvol'⟩
    have hinvalid : ¬t'.sfs.vol.Valid (p + m) := by
      rintro ⟨_, hlt⟩
      have hblocks : t'.sfs.vol.blocks = t.sfs.vol.blocks := by
        rw [hvol']
        split
        . rfl
        . rfl
      omega
    rw [Nat.add_comm 1 k, sfsRwblock]
    cases write with
    | true =>
      simp only [if_true]
      rw [Prog.get_bind_run, Prog.bind_run_panic (p := .sfsRwblock)]
      . rfl
      . simp only [onSfs, Prog.zoom, SfsFs.sfsWblockNolock_panic hinvalid]
    | false =>
      simp only [Bool.false_eq_true, if_false]
      rw [Prog.bind_run_panic (p := .sfsRwblock)]
      . rfl
      . simp only [onSfs, Prog.zoom, SfsFs.sfsRblockNolock_panic hinvalid]
  . rintro _ t' ⟨hok', ⟨c, i, hi, hvol'⟩, hans⟩
    refine ⟨hok', ⟨c, i, by omega, hvol'⟩, ?_⟩
    rw [← Faults.cost_add]
    exact Faults.not_answers_add_left hans
  . exact fun _ => False.elim
  . exact Vol.valid_run hp (by omega)

end Transfer

end Ucore

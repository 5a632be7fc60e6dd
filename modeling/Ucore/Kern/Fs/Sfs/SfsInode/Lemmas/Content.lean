import Ucore.Kern.Fs.Sfs.SfsInode.Lemmas.Frame

/-!
This module contains the content of a file as one sequence of bytes, and what writing to the blocks
of the file does to it.
-/

namespace Ucore

open Faults (cost)

namespace Vol

variable {v v' : Vol} {din din' : SfsDiskInode}

/--
The content of the file, with zeros behind its last block.
-/
def content (v : Vol) (din : SfsDiskInode) : Bytes := fun i =>
  v.block din (i / sfsBlksize) (i % sfsBlksize)

theorem content_congr (h : ∀ i, v'.block din' i = v.block din i)
    : v'.content din' = v.content din := by
  funext i
  rw [content, content, h]

theorem content_of_lt {i : Nat} (hi : i / sfsBlksize < din.blocks)
    : v.content din i = v.data (v.bmap din (i / sfsBlksize)) (i % sfsBlksize) :=
  block_of_lt hi (Nat.mod_lt _ (by decide))

theorem content_of_ge {i : Nat} (hi : din.blocks ≤ i / sfsBlksize) : v.content din i = 0 := by
  rw [content, block_of_ge hi]
  rfl

/--
The blocks of the file other than the indirect block may change.
-/
structure DataOnly (v v' : Vol) (din : SfsDiskInode) : Prop where
  blocks : v'.blocks = v.blocks
  free : v'.free = v.free
  data : ∀ b, (∀ i < din.blocks, v.bmap din i ≠ b) → v'.data b = v.data b

theorem DataOnly.bmap (h : DataOnly v v' din) (hmap : v.MapOk din) (i : Nat)
    : v'.bmap din i = v.bmap din i :=
  bmap_congr fun _ => h.data _ hmap.indirect_ne

theorem DataOnly.mapOk (h : DataOnly v v' din) (hmap : v.MapOk din) : v'.MapOk din := by
  apply hmap.congr
  . exact fun _ => h.data _ hmap.indirect_ne
  . exact h.blocks
  . intro b hb
    rwa [← h.free]

theorem DataOnly.owns (h : DataOnly v v' din) (hmap : v.MapOk din) (b : Nat)
    : v'.Owns din b ↔ v.Owns din b :=
  owns_congr rfl rfl (fun i _ => h.bmap hmap i) b

theorem DataOnly.confined (h : DataOnly v v' din) (hmap : v.MapOk din)
    : Confined v v' din din := by
  refine ⟨h.blocks, ?_, ?_⟩
  . intro b _ howns
    apply h.data
    intro i hi hb
    exact howns (.inl ⟨i, hi, hb⟩)
  . intro b hb
    rwa [h.owns hmap, h.free] at hb

theorem DataOnly.conserved (h : DataOnly v v' din) (hmap : v.MapOk din)
    : Conserved v v' din din := by
  intro b hb
  rwa [h.owns hmap, h.free]

theorem DataOnly.refl (v : Vol) (din : SfsDiskInode) : DataOnly v v din :=
  ⟨rfl, rfl, fun _ _ => rfl⟩

theorem DataOnly.trans {v'' : Vol} (h₁ : DataOnly v v' din) (h₂ : DataOnly v' v'' din)
    (hmap : v.MapOk din)
    : DataOnly v v'' din := by
  refine ⟨h₂.blocks.trans h₁.blocks, h₂.free.trans h₁.free, ?_⟩
  intro b hb
  rw [h₂.data b (fun i hi => by rw [h₁.bmap hmap]; exact hb i hi), h₁.data b hb]

theorem write_dataOnly {c : Request → Nat} {i : Nat} (hi : i < din.blocks) (off : Nat) (src : Bytes)
    (n : Nat)
    : DataOnly v ((v.requested c).write (v.bmap din i) off src n) din := by
  refine ⟨rfl, rfl, ?_⟩
  intro b hb
  exact write_data_of_ne _ _ _ _ (hb i hi).symm

theorem writeRun_dataOnly {c : Request → Nat} {b p n : Nat}
    (hrun : ∀ k < n, b + k < din.blocks ∧ v.bmap din (b + k) = p + k) (src : Bytes)
    : DataOnly v ((v.requested c).writeRun p n src) din := by
  refine ⟨rfl, rfl, ?_⟩
  intro q hq
  apply if_neg
  intro ⟨h₁, h₂⟩
  obtain ⟨k, rfl⟩ := Nat.exists_eq_add_of_le h₁
  have := hrun k (by omega)
  exact hq _ this.1 this.2

/--
Writing a part of one block writes the same bytes to the content.
-/
theorem content_write {c : Request → Nat} (hmap : v.MapOk din) {i off n : Nat}
    (hi : i < din.blocks) (hle : off + n ≤ sfsBlksize) (src : Bytes)
    : ((v.requested c).write (v.bmap din i) off src n).content din =
        (v.content din).copy (i * sfsBlksize + off) src n := by
  have hdata := write_dataOnly (v := v) (c := c) hi off src n
  funext k
  by_cases hk : k / sfsBlksize < din.blocks
  . rw [content_of_lt hk, hdata.bmap hmap, write_data]
    by_cases hki : k / sfsBlksize = i
    . rw [if_pos (by rw [hki]), Bytes.copy_apply, Bytes.copy_apply, content_of_lt hk,
        requested_data, hki]
      have hmod : k % sfsBlksize + i * sfsBlksize = k := by
        rw [← hki, Nat.mul_comm]
        exact Nat.mod_add_div k sfsBlksize
      by_cases hmem : off ≤ k % sfsBlksize ∧ k % sfsBlksize < off + n
      . rw [if_pos hmem, if_pos (by omega)]
        congr 1
        omega
      . rw [if_neg hmem, if_neg (by omega)]
    . have hne : v.bmap din (k / sfsBlksize) ≠ v.bmap din i :=
        fun heq => hki (hmap.inj _ hk _ hi heq)
      have hout : k < i * sfsBlksize + off ∨ i * sfsBlksize + off + n ≤ k := by
        simp only [sfsBlksize] at hki hle ⊢
        omega
      rw [if_neg hne, Bytes.copy_of_not_mem _ _ hout, content_of_lt hk]
      rfl
  . have hout : k < i * sfsBlksize + off ∨ i * sfsBlksize + off + n ≤ k := by
      simp only [sfsBlksize] at hk hle ⊢
      omega
    rw [content_of_ge (by omega), Bytes.copy_of_not_mem _ _ hout, content_of_ge (by omega)]

/--
Writing successive blocks writes the same bytes to the content, if these blocks hold successive
blocks of the file.
-/
theorem content_writeRun {c : Request → Nat} (hmap : v.MapOk din) {b p n : Nat}
    (hrun : ∀ k < n, b + k < din.blocks ∧ v.bmap din (b + k) = p + k) (src : Bytes)
    : ((v.requested c).writeRun p n src).content din =
        (v.content din).copy (b * sfsBlksize) src (n * sfsBlksize) := by
  have hdata := writeRun_dataOnly (c := c) hrun src
  funext i
  by_cases hi : i / sfsBlksize < din.blocks
  . rw [content_of_lt hi, hdata.bmap hmap]
    by_cases hmem : b ≤ i / sfsBlksize ∧ i / sfsBlksize < b + n
    . obtain ⟨k, hk⟩ := Nat.exists_eq_add_of_le hmem.1
      have hbmap := (hrun k (by omega)).2
      have hin : b * sfsBlksize ≤ i ∧ i < b * sfsBlksize + n * sfsBlksize := by
        simp only [sfsBlksize] at hmem ⊢
        omega
      rw [hk, hbmap, writeRun]
      simp only
      rw [if_pos (by omega), Bytes.copy_of_mem _ _ (Nat.zero_le _) (by
        rw [Nat.zero_add]
        exact Nat.mod_lt _ (by decide)), Bytes.copy_of_mem _ _ hin.1 hin.2, Bytes.drop_apply]
      congr 1
      simp only [sfsBlksize] at hk ⊢
      omega
    . have hout : i < b * sfsBlksize ∨ b * sfsBlksize + n * sfsBlksize ≤ i := by
        simp only [sfsBlksize] at hmem ⊢
        omega
      rw [Bytes.copy_of_not_mem _ _ hout, content_of_lt hi, writeRun]
      simp only
      rw [if_neg]
      . rfl
      . rintro ⟨h₁, h₂⟩
        obtain ⟨k, hk⟩ := Nat.exists_eq_add_of_le h₁
        have hbk := hrun k (by omega)
        have := hmap.inj _ hi _ hbk.1 (hk.trans hbk.2.symm)
        omega
  . have hout : i < b * sfsBlksize ∨ b * sfsBlksize + n * sfsBlksize ≤ i := by
      have hlast : n = 0 ∨ b + n ≤ din.blocks := by
        by_cases hn : n = 0
        . exact .inl hn
        . have := (hrun (n - 1) (by omega)).1
          exact .inr (by omega)
      simp only [sfsBlksize] at hi ⊢
      omega
    rw [content_of_ge (by omega), Bytes.copy_of_not_mem _ _ hout, content_of_ge (by omega)]

/--
Reading a part of one block reads the same bytes of the content.
-/
theorem content_drop {i off k : Nat} (hi : i < din.blocks) (hk : off + k < sfsBlksize)
    : (v.content din).drop (i * sfsBlksize + off) k = (v.data (v.bmap din i)).drop off k := by
  have hdiv : (i * sfsBlksize + off + k) / sfsBlksize = i := by
    simp only [sfsBlksize] at hk ⊢
    omega
  have hmod : (i * sfsBlksize + off + k) % sfsBlksize = off + k := by
    simp only [sfsBlksize] at hk ⊢
    omega
  rw [Bytes.drop_apply, content_of_lt (by rwa [hdiv]), hdiv, hmod]
  rfl

/--
Reading successive blocks reads the same bytes of the content, if these blocks hold successive blocks
of the file.
-/
theorem content_readRun {b p n k : Nat}
    (hrun : ∀ k < n, b + k < din.blocks ∧ v.bmap din (b + k) = p + k) (hk : k < n * sfsBlksize)
    : (v.content din).drop (b * sfsBlksize) k = v.readRun p k := by
  have hlt : k / sfsBlksize < n := Nat.div_lt_of_lt_mul (by rwa [Nat.mul_comm])
  have hdiv : (b * sfsBlksize + k) / sfsBlksize = b + k / sfsBlksize := by
    simp only [sfsBlksize]
    omega
  have hmod : (b * sfsBlksize + k) % sfsBlksize = k % sfsBlksize := by
    simp only [sfsBlksize]
    omega
  obtain ⟨hin, hbmap⟩ := hrun _ hlt
  rw [Bytes.drop_apply, content_of_lt (by rwa [hdiv]), hdiv, hmod, hbmap, readRun]

end Vol

theorem SfsCtx.Frame.of_dataOnly {s s' : SfsCtx} (hok : s'.sfs.Ok)
    (hmap : s.sfs.vol.MapOk s.sin.din) (hsin : s'.sin = s.sin)
    (hdata : s.sfs.vol.DataOnly s'.sfs.vol s.sin.din) (henv : ∃ c, s'.sfs.env = s.sfs.env.drop c)
    : Frame s s' := by
  refine ⟨hok, ?_, ?_, ?_, henv, by rw [hsin], by rw [hsin], by rw [hsin], by rw [hsin]⟩
  . rw [hsin]
    exact hdata.mapOk hmap
  . rw [hsin]
    exact hdata.confined hmap
  . rw [hsin]
    exact fun _ => hdata.conserved hmap

end Ucore

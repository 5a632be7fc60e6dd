import Ucore.Kern.Fs.Sfs.SfsInode.Lemmas.Content

/-!
This module contains the specification of the three phases of `sfs_io_nolock`, for runs of whole
blocks that are also successive on the disk.
-/

namespace Ucore

open Faults (cost)

/--
The number of blocks it takes to let the file grow to `hi` blocks.
-/
def SfsDiskInode.needTo (din : SfsDiskInode) (hi : Nat) : Nat :=
  (hi - din.blocks) + if sfsNdirect < hi ∧ din.indirect = 0 then 1 else 0

theorem Vol.Grown.needTo {v v' : Vol} {din din' : SfsDiskInode} {ino hi : Nat}
    (h : v.Grown v' din din' ino) (hv : v.FreeOk) (hlt : din.blocks < hi)
    : v'.free.length + din.needTo hi = v.free.length + din'.needTo hi := by
  unfold SfsDiskInode.needTo
  rw [h.din_blocks]
  cases h.free with
  | inl hfree =>
    rw [hfree.1, hfree.2.1, List.length_cons]
    omega
  | inr hfree =>
    have hne : din'.indirect ≠ 0 := (hv.valid _ (by simp [hfree.1])).1
    rw [hfree.1, List.length_cons, List.length_cons, if_pos ⟨by omega, hfree.2.1⟩,
      if_neg fun h => hne h.2]
    omega

theorem SfsDiskInode.need_le_needTo {din : SfsDiskInode} {hi : Nat} (hlt : din.blocks < hi)
    : din.need ≤ din.needTo hi := by
  unfold need needTo
  split
  . omega
  . next h =>
    have : sfsNdirect < hi ∧ din.indirect = 0 := by
      constructor
      . omega
      . by_contra hind
        exact h (.inr hind)
    rw [if_pos this]
    omega

namespace SfsCtx

variable {s s' : SfsCtx}

/--
What looking up or appending block `index` of the file does.
-/
structure Loaded (s s' : SfsCtx) (index ino : Nat) : Prop where
  frame : Frame s s'
  bmap : s'.sfs.vol.bmap s'.sin.din index = ino
  bmap_old : ∀ i < s.sin.din.blocks, s'.sfs.vol.bmap s'.sin.din i = s.sfs.vol.bmap s.sin.din i
  content : s'.sfs.vol.content s'.sin.din = s.sfs.vol.content s.sin.din
  size : s'.sin.din.size = s.sin.din.size
  blocks : s'.sin.din.blocks = max s.sin.din.blocks (index + 1)
  dirty : s'.sin.dirty = (s.sin.dirty || (index == s.sin.din.blocks && s.sin.din.growDirty))
  old : index < s.sin.din.blocks → s'.sin = s.sin ∧ s'.sfs.vol = s.sfs.vol.requested (lookupCost index)
  data_env : ∀ n, s'.sfs.env .data n = s.sfs.env .data n
  needTo : ∀ hi, index < hi → s'.sfs.vol.free.length + s.sin.din.needTo hi =
    s.sfs.vol.free.length + s'.sin.din.needTo hi

/--
What a failing attempt to do so does.
-/
structure LoadStopped (s s' : SfsCtx) (index : Nat) : Prop where
  frame : Frame s s'
  sin : s'.sin = s.sin
  cause : (index < s.sin.din.blocks ∧ ∃ k n, s.sfs.env k n ≠ none) ∨
    (index = s.sin.din.blocks ∧
      (s.sfs.vol.free.length < s.sin.din.need ∨ ¬s.sfs.env.Answers s.sin.din.growCost))

theorem lookupCost_data (index : Nat) : lookupCost index .data = 0 := by
  unfold lookupCost
  split
  . rfl
  . rfl

theorem growCost_data (din : SfsDiskInode) : din.growCost .data = 0 := by
  unfold SfsDiskInode.growCost
  split
  . rfl
  . split
    . rfl
    . rfl

theorem exists_fault {sfs : SfsFs} {c : Request → Nat} (h : ¬sfs.env.Answers c)
    : ∃ k n, sfs.env k n ≠ none := by
  by_contra hnone
  apply h
  intro k n _
  by_contra hfault
  exact hnone ⟨k, n, hfault⟩

theorem LoadedNew.loaded {ino : Nat} (h : LoadedNew s s' ino) (hok : s.sfs.Ok)
    (hmap : s.sfs.vol.MapOk s.sin.din) (hlt : s.sin.din.blocks < maxBlocks)
    : Loaded s s' s.sin.din.blocks ino := by
  refine ⟨h.frame hok hmap hlt, ?_, ?_, ?_, h.grown.size, ?_, ?_, by omega, ?_, ?_⟩
  . rw [h.grown.bmap _ hlt, if_pos rfl]
  . intro i hi
    rw [h.grown.bmap _ (by omega), if_neg (by omega)]
  . exact Vol.content_congr (h.grown.block hmap hlt)
  . rw [h.grown.din_blocks]
    omega
  . rw [h.sin]
    simp
  . intro n
    rw [h.env]
    simp [Faults.drop, growCost_data]
  . intro hi hhi
    exact h.grown.needTo hok.freeOk hhi

theorem sfsBmapLoadNolock_sat (hok : s.sfs.Ok) (hmap : s.sfs.vol.MapOk s.sin.din) {index : Nat}
    (hle : index ≤ s.sin.din.blocks)
    : (sfsBmapLoadNolock index s).Sat (fun ino s' => Loaded s s' index ino)
        (fun _ s' => LoadStopped s s' index)
        (fun p => p = .sfsBmapGetOutOfRange ∧ index = s.sin.din.blocks ∧ index = maxBlocks) := by
  by_cases hold : index < s.sin.din.blocks
  . apply (sfsBmapLoadNolock_old hok hmap hold).mono
    . rintro ino s' ⟨hino, hs', hans⟩
      subst hs'
      refine ⟨Frame.requested hok hmap _, hino.symm, fun _ _ => rfl, rfl, rfl, by simp only; omega, ?_,
        fun _ => ⟨rfl, rfl⟩, ?_, fun _ _ => rfl⟩
      . have hne : (index == s.sin.din.blocks) = false := by
          rw [beq_eq_false_iff_ne]
          omega
        simp [hne]
      . intro n
        simp [SfsFs.requested, Faults.drop, lookupCost_data]
    . rintro _ s' ⟨hs', hans⟩
      subst hs'
      exact ⟨Frame.requested hok hmap _, rfl, .inl ⟨hold, exists_fault hans⟩⟩
    . exact fun _ => False.elim
  . obtain rfl : index = s.sin.din.blocks := by omega
    by_cases hlt : s.sin.din.blocks < maxBlocks
    . apply (sfsBmapLoadNolock_new hok hmap hlt).mono
      . intro ino s' h
        exact h.loaded hok hmap hlt
      . intro _ s' h
        exact ⟨h.frame hmap, h.sin, .inr ⟨rfl, h.cause⟩⟩
      . exact fun _ => False.elim
    . have hblocks : s.sin.din.blocks = maxBlocks := Nat.le_antisymm hmap.blocks_le (by omega)
      rw [sfsBmapLoadNolock_outOfRange (by omega)]
      exact ⟨rfl, rfl, hblocks⟩

end SfsCtx

theorem nblksOf_mono {m n : Nat} (h : m ≤ n) : SfsCtx.nblksOf m ≤ SfsCtx.nblksOf n :=
  Nat.div_le_div_right (Nat.add_le_add_right h _)

theorem nblksOf_mul_add {b n : Nat} (h₁ : 0 < n) (h₂ : n ≤ sfsBlksize)
    : SfsCtx.nblksOf (b * sfsBlksize + n) = b + 1 := by
  simp only [SfsCtx.nblksOf, sfsBlksize] at h₂ ⊢
  omega

namespace SfsIo

open SfsCtx (Frame Loaded LoadStopped nblksOf)

variable {s s' s'' : SfsIo}

def ctx (s : SfsIo) : SfsCtx := ⟨s.sfs, s.sin⟩

def content (s : SfsIo) : Bytes := s.sfs.vol.content s.sin.din

/--
What transferring the `n` bytes at position `pos` of the file does to the file system and the inode,
with `data` requests for the content. Where the bytes have come from or gone to is not part of it.
-/
structure Advanced (pos n data : Nat) (s s' : SfsIo) : Prop where
  ok : s'.sfs.Ok
  mapOk : s'.sfs.vol.MapOk s'.sin.din
  type : s'.sin.din.type = s.sin.din.type
  alen : s'.alen = s.alen + n
  size : s'.sin.din.size = s.sin.din.size
  blocks : s'.sin.din.blocks = max s.sin.din.blocks (nblksOf (pos + n))
  same : s'.sin.din.blocks = s.sin.din.blocks → s'.sin = s.sin
  bmap : ∀ i < s.sin.din.blocks, s'.sfs.vol.bmap s'.sin.din i = s.sfs.vol.bmap s.sin.din i
  data_env : ∀ m, s'.sfs.env .data m = s.sfs.env .data (data + m)
  needTo : ∀ hi, nblksOf (pos + n) ≤ hi → s'.sfs.vol.free.length + s.sin.din.needTo hi =
    s.sfs.vol.free.length + s'.sin.din.needTo hi

theorem Advanced.trans {pos m n c d : Nat} (h₁ : Advanced pos m c s s')
    (h₂ : Advanced (pos + m) n d s' s'')
    : Advanced pos (m + n) (c + d) s s'' := by
  have hmono : nblksOf (pos + m) ≤ nblksOf (pos + m + n) := nblksOf_mono (by omega)
  have hb₁ := h₁.blocks
  have hb₂ := h₂.blocks
  refine ⟨h₂.ok, h₂.mapOk, h₂.type.trans h₁.type, ?_, h₂.size.trans h₁.size, ?_, ?_, ?_, ?_, ?_⟩
  . rw [h₂.alen, h₁.alen, Nat.add_assoc]
  . rw [← Nat.add_assoc]
    omega
  . intro hsame
    have hsame₁ := h₁.same (by omega)
    rw [h₂.same (by rw [hsame₁]; exact hsame), hsame₁]
  . intro i hi
    rw [h₂.bmap i (by omega), h₁.bmap i hi]
  . intro k
    rw [h₂.data_env, h₁.data_env, Nat.add_assoc]
  . intro hi hhi
    rw [← Nat.add_assoc] at hhi
    have := h₁.needTo hi (by omega)
    have := h₂.needTo hi hhi
    omega

/--
The bytes come from or go to the content of the file.
-/
structure Moved (write : Bool) (pos n data : Nat) (s s' : SfsIo) : Prop
    extends Advanced pos n data s s' where
  frame : Frame s.ctx s'.ctx
  dataOnly : s'.sin.din.blocks = s.sin.din.blocks → s.sfs.vol.DataOnly s'.sfs.vol s.sin.din
  content : s'.content = if write then s.content.copy pos (s.buf.drop s.alen) n else s.content
  buf : s'.buf = if write then s.buf else s.buf.copy s.alen (s.content.drop pos) n

theorem Moved.trans {write : Bool} {pos m n c d : Nat} (hmap : s.sfs.vol.MapOk s.sin.din)
    (h₁ : Moved write pos m c s s') (h₂ : Moved write (pos + m) n d s' s'')
    : Moved write pos (m + n) (c + d) s s'' := by
  refine ⟨h₁.toAdvanced.trans h₂.toAdvanced, h₁.frame.trans h₂.frame, ?_, ?_, ?_⟩
  . intro hsame
    have hb₁ := h₁.blocks
    have hb₂ := h₂.blocks
    have hsame₁ : s'.sin.din.blocks = s.sin.din.blocks := by omega
    have hdata := h₂.dataOnly (by omega)
    rw [h₁.same hsame₁] at hdata
    exact (h₁.dataOnly hsame₁).trans hdata hmap
  . have hbuf := h₁.buf
    rw [h₂.content, h₁.content]
    cases write with
    | true =>
      simp only [if_true] at hbuf ⊢
      rw [hbuf, h₁.alen, ← Bytes.drop_drop, Bytes.copy_copy]
    | false => rfl
  . have hcontent := h₁.content
    rw [h₂.buf, h₁.buf]
    cases write with
    | true => rfl
    | false =>
      simp only [Bool.false_eq_true, if_false] at hcontent ⊢
      rw [hcontent, h₁.alen, ← Bytes.drop_drop, Bytes.copy_copy]

/--
The block that a transfer at position `pos` needs has been appended to the file, but one of its
`data` requests failed.
-/
structure Lost (pos data : Nat) (s s' : SfsIo) : Prop where
  index : pos / sfsBlksize = s.sin.din.blocks
  fault : ∃ k < data, s.sfs.env .data k ≠ none
  blocks : s'.sin.din.blocks = s.sin.din.blocks + 1
  size : s'.sin.din.size = s.sin.din.size
  dirty : s'.sin.dirty = (s.sin.dirty || s.sin.din.growDirty)

/--
The inode is unchanged: a request failed, or the block could not be appended.
-/
structure Unmoved (pos : Nat) (s s' : SfsIo) : Prop where
  sin : s'.sin = s.sin
  cause : (pos / sfsBlksize < s.sin.din.blocks ∧ ∃ k n, s.sfs.env k n ≠ none) ∨
    (pos / sfsBlksize = s.sin.din.blocks ∧
      (s.sfs.vol.free.length < s.sin.din.need ∨ ¬s.sfs.env.Answers s.sin.din.growCost))

/--
What a failing transfer at position `pos` with `data` requests for the content does.
-/
structure Halted (pos data : Nat) (s s' : SfsIo) : Prop where
  ok : s'.sfs.Ok
  mapOk : s'.sfs.vol.MapOk s'.sin.din
  type : s'.sin.din.type = s.sin.din.type
  alen : s'.alen = s.alen
  cause : Unmoved pos s s' ∨ Lost pos data s s'

structure Stopped (pos data : Nat) (s s' : SfsIo) : Prop extends Halted pos data s s' where
  frame : Frame s.ctx s'.ctx

theorem sat_bind_onCtx {α β : Type} {m : Prog Errno Panic SfsCtx α}
    {f : α → Prog Errno Panic SfsIo β} {R : α → SfsCtx → Prop} {F : Errno → SfsCtx → Prop}
    {Q : β → SfsIo → Prop} {E : Errno → SfsIo → Prop} {X Y : Panic → Prop}
    (h : (m s.ctx).Sat R F Y)
    (hok : ∀ a t, R a t → (f a { s with sfs := t.sfs, sin := t.sin }).Sat Q E X)
    (herror : ∀ e t, F e t → E e { s with sfs := t.sfs, sin := t.sin })
    (hpanic : ∀ p, Y p → X p)
    : ((onCtx m >>= f) s).Sat Q E X :=
  Prog.sat_bind_zoom h hok herror hpanic

theorem sat_bind_onSfs {α β : Type} {m : Prog Errno Panic SfsFs α}
    {f : α → Prog Errno Panic SfsIo β} {R : α → SfsFs → Prop} {F : Errno → SfsFs → Prop}
    {Q : β → SfsIo → Prop} {E : Errno → SfsIo → Prop} {X Y : Panic → Prop}
    (h : (m s.sfs).Sat R F Y) (hok : ∀ a sfs, R a sfs → (f a { s with sfs }).Sat Q E X)
    (herror : ∀ e sfs, F e sfs → E e { s with sfs }) (hpanic : ∀ p, Y p → X p)
    : ((onCtx (SfsCtx.onSfs m) >>= f) s).Sat Q E X := by
  apply sat_bind_onCtx (R := fun a t => ∃ sfs, R a sfs ∧ t = ⟨sfs, s.sin⟩)
    (F := fun e t => ∃ sfs, F e sfs ∧ t = ⟨sfs, s.sin⟩) (Y := Y)
  . apply Prog.sat_zoom
    exact h.mono (fun a sfs ha => ⟨sfs, ha, rfl⟩) (fun e sfs he => ⟨sfs, he, rfl⟩) (fun _ => id)
  . intro a t ⟨sfs, ha, ht⟩
    subst ht
    exact hok a sfs ha
  . intro e t ⟨sfs, he, ht⟩
    subst ht
    exact herror e sfs he
  . exact hpanic

/--
The number of requests of `sfs_buf_op`.
-/
def bufCost (write : Bool) : Nat := if write then 2 else 1

/--
What a transfer with `data` requests does to the file system and the inode.
-/
structure Passed (data : Nat) (s s' : SfsIo) : Prop where
  ok : s'.sfs.Ok
  mapOk : s'.sfs.vol.MapOk s'.sin.din
  alen : s'.alen = s.alen
  sin : s'.sin = s.sin
  free : s'.sfs.vol.free = s.sfs.vol.free
  bmap : ∀ i, s'.sfs.vol.bmap s'.sin.din i = s.sfs.vol.bmap s.sin.din i
  data_env : ∀ m, s'.sfs.env .data m = s.sfs.env .data (data + m)

/--
What it does if it fails.
-/
structure NotPassed (data : Nat) (s s' : SfsIo) : Prop where
  ok : s'.sfs.Ok
  mapOk : s'.sfs.vol.MapOk s'.sin.din
  alen : s'.alen = s.alen
  sin : s'.sin = s.sin
  fault : ∃ k < data, s.sfs.env .data k ≠ none

/--
What a transfer to or from blocks the file has does.
-/
structure Transferred (write : Bool) (pos n data : Nat) (s s' : SfsIo) : Prop where
  frame : Frame s.ctx s'.ctx
  alen : s'.alen = s.alen
  sin : s'.sin = s.sin
  dataOnly : s.sfs.vol.DataOnly s'.sfs.vol s.sin.din
  bmap : ∀ i, s'.sfs.vol.bmap s'.sin.din i = s.sfs.vol.bmap s.sin.din i
  content : s'.content = if write then s.content.copy pos (s.buf.drop s.alen) n else s.content
  buf : s'.buf = if write then s.buf else s.buf.copy s.alen (s.content.drop pos) n
  data_env : ∀ m, s'.sfs.env .data m = s.sfs.env .data (data + m)

theorem Transferred.passed {write : Bool} {pos n data : Nat}
    (h : Transferred write pos n data s s')
    : Passed data s s' :=
  ⟨h.frame.ok, h.frame.mapOk, h.alen, h.sin, h.dataOnly.free, h.bmap, h.data_env⟩

/--
What it does if it fails.
-/
structure NotTransferred (data : Nat) (s s' : SfsIo) : Prop where
  frame : Frame s.ctx s'.ctx
  alen : s'.alen = s.alen
  sin : s'.sin = s.sin
  fault : ∃ k < data, s.sfs.env .data k ≠ none

theorem NotTransferred.notPassed {data : Nat} (h : NotTransferred data s s') : NotPassed data s s' :=
  ⟨h.frame.ok, h.frame.mapOk, h.alen, h.sin, h.fault⟩

theorem fault_of_not_answers {sfs : SfsFs} {n : Nat} (h : ¬sfs.env.Answers (cost .data n))
    : ∃ k < n, sfs.env .data k ≠ none := by
  rw [Faults.answers_cost] at h
  by_contra hnone
  apply h
  intro k hk
  by_contra hk'
  exact hnone ⟨k, hk, hk'⟩

/--
Looking up or appending the first block and transferring something after that.
-/
theorem Loaded.advanced {index ino n data : Nat} {t : SfsCtx} (off : Nat)
    (hload : Loaded s.ctx t index ino)
    (hblocks : max s.sin.din.blocks (index + 1) =
      max s.sin.din.blocks (nblksOf (index * sfsBlksize + off + n)))
    (hle : index + 1 ≤ nblksOf (index * sfsBlksize + off + n))
    (h : Passed data { s with sfs := t.sfs, sin := t.sin } s')
    : Advanced (index * sfsBlksize + off) n data s { s' with alen := s'.alen + n } := by
  have hsin : s'.sin = t.sin := h.sin
  refine ⟨h.ok, h.mapOk, ?_, by simp only [h.alen], ?_, ?_, ?_, ?_, ?_, ?_⟩
  . simp only [hsin]
    exact hload.frame.type
  . simp only [hsin]
    exact hload.size
  . simp only [hsin, hload.blocks]
    exact hblocks
  . simp only [hsin, hload.blocks]
    intro hsame
    exact (hload.old (by simp only [ctx] at hsame ⊢; omega)).1
  . intro i hi
    exact (h.bmap i).trans (hload.bmap_old i hi)
  . intro m
    rw [h.data_env]
    exact hload.data_env _
  . intro hi hhi
    have := hload.needTo hi (by omega)
    simp only [hsin, h.free]
    exact this

theorem Loaded.moved {write : Bool} {index ino n data : Nat} {t : SfsCtx} (off : Nat)
    (hload : Loaded s.ctx t index ino)
    (hblocks : max s.sin.din.blocks (index + 1) =
      max s.sin.din.blocks (nblksOf (index * sfsBlksize + off + n)))
    (hle : index + 1 ≤ nblksOf (index * sfsBlksize + off + n))
    (h : Transferred write (index * sfsBlksize + off) n data
      { s with sfs := t.sfs, sin := t.sin } s')
    : Moved write (index * sfsBlksize + off) n data s { s' with alen := s'.alen + n } := by
  have hcontent : ({ s with sfs := t.sfs, sin := t.sin } : SfsIo).content = s.content :=
    hload.content
  refine ⟨Loaded.advanced off hload hblocks hle h.passed, hload.frame.trans h.frame, ?_, ?_, ?_⟩
  . intro hsame
    have hsin : s'.sin = t.sin := h.sin
    simp only [hsin, hload.blocks] at hsame
    obtain ⟨hold, hvol⟩ := hload.old (by simp only [ctx] at hsame ⊢; omega)
    have hdata := h.dataOnly
    simp only [hold, hvol] at hdata
    exact ⟨hdata.blocks, hdata.free, hdata.data⟩
  . rw [show ({ s' with alen := s'.alen + n } : SfsIo).content = s'.content from rfl, h.content,
      hcontent]
  . rw [show ({ s' with alen := s'.alen + n } : SfsIo).buf = s'.buf from rfl, h.buf, hcontent]

theorem Loaded.halted {index ino data : Nat} {t : SfsCtx} (off : Nat)
    (hload : Loaded s.ctx t index ino) (hle : index ≤ s.sin.din.blocks) (hoff : off < sfsBlksize)
    (h : NotPassed data { s with sfs := t.sfs, sin := t.sin } s')
    : Halted (index * sfsBlksize + off) data s s' := by
  have hdiv : (index * sfsBlksize + off) / sfsBlksize = index := by
    simp only [sfsBlksize] at hoff ⊢
    omega
  obtain ⟨k, hk, hfault⟩ := h.fault
  rw [show ({ s with sfs := t.sfs, sin := t.sin } : SfsIo).sfs.env .data k =
    s.sfs.env .data k from hload.data_env k] at hfault
  have hsin : s'.sin = t.sin := h.sin
  refine ⟨h.ok, h.mapOk, ?_, h.alen, ?_⟩
  . rw [hsin]
    exact hload.frame.type
  . by_cases hold : index < s.sin.din.blocks
    . exact .inl ⟨hsin.trans (hload.old hold).1, .inl ⟨by rwa [hdiv], _, _, hfault⟩⟩
    . obtain rfl : index = s.sin.din.blocks := by omega
      refine .inr ⟨hdiv, ⟨k, hk, hfault⟩, ?_, ?_, ?_⟩
      . rw [hsin, hload.blocks]
        simp only [ctx]
        omega
      . rw [hsin]
        exact hload.size
      . rw [hsin, hload.dirty]
        simp [ctx]

theorem Loaded.stopped {index ino data : Nat} {t : SfsCtx} (off : Nat)
    (hload : Loaded s.ctx t index ino) (hle : index ≤ s.sin.din.blocks) (hoff : off < sfsBlksize)
    (h : NotTransferred data { s with sfs := t.sfs, sin := t.sin } s')
    : Stopped (index * sfsBlksize + off) data s s' :=
  ⟨Loaded.halted off hload hle hoff h.notPassed, hload.frame.trans h.frame⟩

theorem LoadStopped.stopped {index data : Nat} {t : SfsCtx} (off : Nat)
    (h : LoadStopped s.ctx t index) (hoff : off < sfsBlksize)
    : Stopped (index * sfsBlksize + off) data s { s with sfs := t.sfs, sin := t.sin } := by
  have hdiv : (index * sfsBlksize + off) / sfsBlksize = index := by
    simp only [sfsBlksize] at hoff ⊢
    omega
  refine ⟨⟨h.frame.ok, h.frame.mapOk, h.frame.type, rfl, .inl ⟨h.sin, ?_⟩⟩, h.frame⟩
  rw [hdiv]
  exact h.cause

theorem sfsBufOp_sat {write : Bool} {index ino off n : Nat} (hok : s.sfs.Ok)
    (hmap : s.sfs.vol.MapOk s.sin.din) (hi : index < s.sin.din.blocks)
    (hino : s.sfs.vol.bmap s.sin.din index = ino) (hoff : off < sfsBlksize)
    (hle : off + n ≤ sfsBlksize)
    : (sfsBufOp write n ino off s).Sat
        (fun _ s' => Transferred write (index * sfsBlksize + off) n (bufCost write) s s')
        (fun _ s' => NotTransferred (bufCost write) s s') (fun _ => False) := by
  subst hino
  have hinUse := hmap.inUse index hi
  unfold sfsBufOp
  rw [Prog.get_bind_run]
  cases write with
  | true =>
    simp only [if_true, onCtx, SfsCtx.onSfs]
    apply Prog.sat_zoom
    apply Prog.sat_zoom
    apply (SfsFs.sfsWbuf_sat hok hinUse.1 (s.buf.drop s.alen) hoff hle).mono
    . rintro _ sfs ⟨hok', hvol', hans⟩
      have hdata : s.sfs.vol.DataOnly sfs.vol s.sin.din := by
        rw [hvol']
        exact Vol.write_dataOnly hi _ _ _
      have henv : sfs.env = s.sfs.env.drop (cost .data 2) := congrArg Vol.env hvol'
      refine ⟨Frame.of_dataOnly hok' hmap rfl hdata ⟨_, henv⟩, rfl, rfl, hdata,
        hdata.bmap hmap, ?_, rfl, ?_⟩
      . simp only [SfsIo.content, if_true]
        rw [hvol']
        exact Vol.content_write hmap hi hle _
      . intro m
        simp only [henv]
        rfl
    . rintro _ sfs ⟨hok', ⟨c, hsfs, hans⟩⟩
      subst hsfs
      exact ⟨Frame.requested hok hmap c, rfl, rfl, fault_of_not_answers hans⟩
    . exact fun _ => id
  | false =>
    simp only [Bool.false_eq_true, if_false]
    apply sat_bind_onSfs (SfsFs.sfsRbuf_sat hok hinUse.1 hoff hle)
    . rintro b sfs ⟨hb, hsfs, hans⟩
      subst hb
      subst hsfs
      rw [Prog.modify_run]
      refine ⟨Frame.requested hok hmap _, rfl, rfl, ⟨rfl, rfl, fun _ _ => rfl⟩, fun _ => rfl, rfl,
        ?_, fun _ => rfl⟩
      simp only [Bool.false_eq_true, if_false]
      funext i
      by_cases hi' : s.alen ≤ i ∧ i < s.alen + n
      . rw [Bytes.copy_of_mem _ _ hi'.1 hi'.2, Bytes.copy_of_mem _ _ hi'.1 hi'.2]
        have hlt : off + (i - s.alen) < sfsBlksize := by omega
        exact (Vol.content_drop (v := s.sfs.vol) hi hlt).symm
      . rw [Bytes.copy_of_not_mem _ _ (by omega), Bytes.copy_of_not_mem _ _ (by omega)]
    . rintro _ sfs ⟨hsfs, hans⟩
      subst hsfs
      exact ⟨Frame.requested hok hmap _, rfl, rfl, fault_of_not_answers hans⟩
    . exact fun _ => id

theorem partialBlock_sat {write : Bool} {pos index off n : Nat} (hok : s.sfs.Ok)
    (hmap : s.sfs.vol.MapOk s.sin.din) (hle : index ≤ s.sin.din.blocks)
    (hp : pos = index * sfsBlksize + off) (hoff : off < sfsBlksize) (hpos : 0 < n)
    (hn : off + n ≤ sfsBlksize)
    : (partialBlock write index n off s).Sat
        (fun _ s' => Moved write pos n (bufCost write) s s')
        (fun _ s' => Stopped pos (bufCost write) s s')
        (fun p => p = .sfsBmapGetOutOfRange ∧ index = s.sin.din.blocks ∧ index = maxBlocks) := by
  subst hp
  have hnblks : nblksOf (index * sfsBlksize + off + n) = index + 1 := by
    rw [Nat.add_assoc]
    exact nblksOf_mul_add (by omega) hn
  unfold partialBlock
  apply sat_bind_onCtx (SfsCtx.sfsBmapLoadNolock_sat hok hmap hle)
  . intro ino t hload
    have hi : index < t.sin.din.blocks := by
      rw [hload.blocks]
      omega
    apply Prog.sat_bind (sfsBufOp_sat (s := { s with sfs := t.sfs, sin := t.sin }) hload.frame.ok
      hload.frame.mapOk hi hload.bmap hoff hn)
    . intro _ s' h
      rw [Prog.modify_run]
      exact Loaded.moved off hload (by rw [hnblks]) (by rw [hnblks]) h
    . intro _ s' h
      exact Loaded.stopped off hload hle hoff h
    . exact fun _ => False.elim
  . intro _ t h
    exact LoadStopped.stopped off h hoff
  . exact fun _ => id

end SfsIo

end Ucore

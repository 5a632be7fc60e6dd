import Ucore.Kern.Process.LoadIcode.Lemmas.Areas

/-!
This module contains what `load_icode` does for one program header: the two page loops and the part of a
page between them fill the segment from its start to its end.
-/

namespace Ucore

theorem pageOff_write (d : PageData) {off size la va : Nat} {src : Nat → BitVec 8} (hla : la % pgsize = 0)
    (hle : la ≤ va) (hlt : va < la + pgsize)
    : d.write off src size (pageOff va) =
        if la + off ≤ va ∧ va < la + off + size then src (va - (la + off)) else d (pageOff va) := by
  have hoff : (pageOff va : Nat) = va - la := by
    simp only [pageOff, pgsize] at *
    omega
  rw [PageData.write, hoff]
  by_cases h : la + off ≤ va ∧ va < la + off + size
  . rw [if_pos h, if_pos (by omega), show va - la - off = va - (la + off) by omega]
  . rw [if_neg h, if_neg (by omega)]

/--
An address that is not in the page has another entry.
-/
theorem pteKey_ne {la va : Nat} (hla : la % pgsize = 0) (htop : la < 2 ^ 39) (hva : va < 2 ^ 39)
    (h : va < la ∨ la + pgsize ≤ va)
    : pteKey va ≠ pteKey la := by
  intro heq
  have := pteKey_inj hva htop heq
  simp only [pgsize] at *
  omega

theorem pteKey_eq {la va : Nat} (hla : la % pgsize = 0) (hle : la ≤ va) (hlt : va < la + pgsize)
    : pteKey va = pteKey la := by
  apply pteKey_of_page
  simp only [pgsize] at *
  omega

/--
What the header says about an address of its segment: a byte of the file, or zero behind them.
-/
def ProgHdr.byteAt (ph : ProgHdr) (file : ByteFile) (va : Nat) : BitVec 8 :=
  if va < ph.pVa + ph.pFilesz then (file.byte (ph.pOffset + (va - ph.pVa))).toBitVec else 0

namespace LoadM

open Paging (InAreas InRange Allocated)

variable {ι : Type} {s t u base : Loading ι} {s₀ p : Paging ι} {i : ι} {env : LoadEnv}
  {vma : Vma} {k : PteKey} {perm : BitVec 10} {lo stop page la : Nat} {g : Nat → BitVec 8} {c c' : Cursor}

/--
The byte at an address is loaded.
-/
def ByteLoaded (s : Loading ι) (i : ι) (perm : BitVec 10) (va : Nat) (byte : BitVec 8) : Prop :=
  ∃ d, s.paging.contents i (pteKey va) = some d ∧ d (pageOff va) = byte ∧
    (s.paging.entries (i, pteKey va)).flags = Pte.pteV ||| (Pte.pteV ||| perm)

/--
Where the loops are: `base` is the state with the new area `vma`, the bytes from `lo` to the position of the
cursor are those of `g`.
-/
structure Filling (s₀ : Paging ι) (i : ι) (base : Loading ι) (vma : Vma) (perm : BitVec 10) (lo : Nat)
    (g : Nat → BitVec 8) (s : Loading ι) (c : Cursor) : Prop where
  inv : Inv s₀ i s
  mmapList : s.mmapList = base.mmapList
  file : s.file = base.file
  entries : ∀ k, ¬InRange vma.vmStart vma.vmEnd k → s.paging.entries (i, k) = base.paging.entries (i, k)
  contents : ∀ k, ¬InRange vma.vmStart vma.vmEnd k → s.paging.contents i k = base.paging.contents i k
  aligned : c.la % pgsize = 0
  start_le : vma.vmStart ≤ c.la
  lo_le : lo ≤ c.start
  unmapped : ∀ va, c.la ≤ va → va < vma.vmEnd → (s.paging.entries (i, pteKey va)).valid = false
  filled : ∀ va, lo ≤ va → va < c.start → ByteLoaded s i perm va (g va)

/--
The position at the head of a loop that goes on.
-/
structure AtHead (lo : Nat) (c : Cursor) : Prop where
  le : c.la ≤ c.start
  lt : c.start < c.la + pgsize
  first : c.start = c.la ∨ c.start = lo

/--
The position behind a loop: the last page is the one in front of `la`.
-/
structure AtTail (i : ι) (s : Loading ι) (c : Cursor) : Prop where
  pgsize_le : pgsize ≤ c.la
  lt : c.la - pgsize < c.start
  le : c.start ≤ c.la
  page : ∃ page, c.page = some page ∧ (s.paging.entries (i, pteKey (c.la - pgsize))).Maps page

/--
How much of the segment goes to a page.
-/
theorem AtHead.size (hhead : AtHead lo c) (hlt : c.start < stop)
    : c.start + (if stop < c.la + pgsize then pgsize - (c.start - c.la) - (c.la + pgsize - stop)
        else pgsize - (c.start - c.la)) = min stop (c.la + pgsize) := by
  have := hhead.le
  have := hhead.lt
  split <;> omega

/--
A round ends at the head of the next one or behind the loop.
-/
theorem AtHead.next (hhead : AtHead lo c) (hlt : c.start < stop) {size : Nat}
    (hsize : c.start + size = min stop (c.la + pgsize)) (offset : Nat)
    (hmaps : (s.paging.entries (i, pteKey c.la)).Maps page)
    : AtTail i s ⟨some page, c.la + pgsize, c.start + size, offset⟩ ∧
        (c.start + size < stop → AtHead lo ⟨some page, c.la + pgsize, c.start + size, offset⟩) := by
  have hle := hhead.le
  have hlt' := hhead.lt
  have hps : pgsize = 4096 := rfl
  constructor
  . refine ⟨Nat.le_add_left _ _, by simp only; omega, by simp only; omega, page, rfl, ?_⟩
    rw [Nat.add_sub_cancel]
    exact hmaps
  . intro hnext
    have hstart : c.start + size = c.la + pgsize := by omega
    exact ⟨by simp only; omega, by simp only; omega, .inl hstart⟩

theorem loadIcodeRead_ok {len offset : Nat} {b : Bytes} (hlen : 0 < len)
    (h : loadIcodeRead env len offset s = .ok b t)
    : t = s ∧ b = s.file.byte.drop offset := by
  obtain ⟨_, u, hseek, hread⟩ := Prog.bind_run_eq_ok.mp h
  rw [Prog.get_bind_run] at hread
  split at hread
  . split at hread
    . cases hread
    next hcount =>
      rw [not_not] at hcount
      obtain ⟨rfl, rfl⟩ := Outcome.ok.inj hread
      rw [tryseek, Prog.get_bind_run] at hseek
      split at hseek
      . cases hseek
      . split at hseek
        next hgrow =>
          -- behind the end of the file there is nothing to read
          split at hseek
          . obtain ⟨-, rfl⟩ := Outcome.ok.inj hseek
            simp only [ByteFile.count, ByteFile.overwrite] at hcount
            omega
          . cases hseek
        . obtain ⟨-, rfl⟩ := Outcome.ok.inj hseek
          exact ⟨rfl, rfl⟩
  . cases hread

variable [DecidableEq ι]

theorem pgdirAllocPage_ok (hzero : (s.paging.entries (i, pteKey la)).valid = false)
    (h : pgdirAllocPage env i la perm s = .ok page t)
    : Allocated s.paging t.paging i la page perm ∧ t = { s with paging := t.paging } := by
  unfold pgdirAllocPage at h
  rw [Prog.get_bind_run] at h
  rcases halloc : s.paging.pgdirAllocPage env.pmm i la perm with ⟨_ | page', p⟩ <;> rw [halloc] at h
  . cases h
  . obtain ⟨rfl, rfl⟩ := Outcome.ok.inj h
    exact ⟨Paging.pgdirAllocPage_allocated hzero halloc, rfl⟩

/--
A state whose new page has got its contents.
-/
def withPage (s : Loading ι) (p : Paging ι) (page : Nat) (d : PageData) : Loading ι :=
  { s with paging := { p with data := Function.update p.data page d } }

theorem withPage_inv (hs : Inv s₀ i s) (hal : Allocated s.paging p i la page perm)
    (hin : InAreas s.mmapList (pteKey la)) (d : PageData)
    : Inv s₀ i (withPage s p page d) where
  priv := (hal.private hs.priv).of_entries rfl (Finset.Subset.refl _)
  ok := hs.ok
  inAreas k hvalid := by
    have hvalid : (p.entries (i, k)).valid = true := hvalid
    by_cases hk : k = pteKey la
    . rw [hk]
      exact hin
    . rw [hal.entries_of_ne hk] at hvalid
      exact hs.inAreas k hvalid
  free := hal.free.trans hs.free
  stale f hf := by
    have hne : f ≠ page := fun heq => hal.notMem (heq ▸ hf)
    have hdata : (withPage s p page d).paging.data f = p.data f := Function.update_of_ne hne _ _
    rw [hdata, hal.data]
    exact hs.stale f (hal.free hf)

theorem withPage_contents (hs : Inv s₀ i s) (hal : Allocated s.paging p i la page perm) (d : PageData)
    : (withPage s p page d).paging.contents i =
        Function.update (s.paging.contents i) (pteKey la) (some d) := by
  have hwrite := (hal.private hs.priv).contents_write hal.maps (d := d)
  calc (withPage s p page d).paging.contents i
      = Function.update (p.contents i) (pteKey la) (some d) := hwrite
    _ = Function.update (s.paging.contents i) (pteKey la) (some d) := by
        rw [hal.contents, Function.update_idem]

/--
A round of one of the loops: a new page at `la` gets the bytes from the start up to the end of the page or
of the segment.
-/
theorem Filling.round (h : Filling s₀ i base vma perm lo g s c) (hmem : vma ∈ base.mmapList)
    (hhead : AtHead lo c) (hlt : c.start < stop) (hstop : stop ≤ vma.vmEnd)
    (hal : Allocated s.paging p i c.la page perm) {src : Nat → BitVec 8} {size : Nat}
    (hsize : c.start + size = min stop (c.la + pgsize))
    (hsrc : ∀ n < size, src n = g (c.start + n)) (offset : Nat)
    : Filling s₀ i base vma perm lo g
          (withPage s p page ((p.data page).write (c.start - c.la) src size))
          ⟨some page, c.la + pgsize, c.start + size, offset⟩ := by
  have hok := h.inv.ok
  rw [h.mmapList] at hok
  have htop := (hok.access vma hmem).2.2
  have hend := (hok.aligned vma hmem).2
  have hbound : userTop ≤ 2 ^ 39 := by decide
  have hps : pgsize = 4096 := rfl
  have hle := hhead.le
  have hlt' := hhead.lt
  have haligned := h.aligned
  have hrange : InRange vma.vmStart vma.vmEnd (pteKey c.la) := ⟨c.la, h.start_le, by omega, rfl⟩
  have hin : InAreas s.mmapList (pteKey c.la) := ⟨vma, h.mmapList ▸ hmem, hrange⟩
  have hcontents := withPage_contents h.inv hal ((p.data page).write (c.start - c.la) src size)
  have hentry : ∀ k, k ≠ pteKey c.la →
      (withPage s p page ((p.data page).write (c.start - c.la) src size)).paging.entries (i, k) =
        s.paging.entries (i, k) := fun k hk => hal.entries_of_ne hk
  have hother : ∀ k, ¬InRange vma.vmStart vma.vmEnd k → k ≠ pteKey c.la := by
    rintro k hk rfl
    exact hk hrange
  refine ⟨withPage_inv h.inv hal hin _, h.mmapList, h.file, ?_, ?_, ?_, ?_, ?_, ?_, ?_⟩
  . intro k hk
    rw [hentry k (hother k hk), h.entries k hk]
  . intro k hk
    rw [hcontents, Function.update_of_ne (hother k hk), h.contents k hk]
  . simp only [hps] at haligned ⊢
    omega
  . exact Nat.le_trans h.start_le (Nat.le_add_right _ _)
  . exact Nat.le_trans h.lo_le (Nat.le_add_right _ _)
  . intro va hva hva'
    have hne : pteKey va ≠ pteKey c.la := by
      apply pteKey_ne haligned (by omega) (by omega)
      exact .inr hva
    rw [hentry _ hne]
    exact h.unmapped va (by simp only at hva; omega) hva'
  . intro va hva hva'
    simp only at hva'
    by_cases hpage : c.la ≤ va
    . -- the bytes of the new page
      have hkey := pteKey_eq haligned hpage (show va < c.la + pgsize by omega)
      have hge : c.start ≤ va := by
        rcases hhead.first with hfirst | hfirst <;> omega
      refine ⟨_, by rw [hcontents, hkey, Function.update_self], ?_, ?_⟩
      . rw [pageOff_write _ haligned hpage (by omega), if_pos (by omega)]
        have hpos : c.la + (c.start - c.la) = c.start := by omega
        rw [hpos, hsrc _ (by omega), Nat.add_sub_cancel' hge]
      . have hnew : (withPage s p page ((p.data page).write (c.start - c.la) src size)).paging.entries
            (i, pteKey c.la) = Pte.pteCreate page (Pte.pteV ||| perm) := by
          have := hal.entries
          exact (congrFun this _).trans (Function.update_self _ _ _)
        rw [hkey, hnew]
        rfl
    . -- the bytes that are loaded already
      have hne : pteKey va ≠ pteKey c.la :=
        pteKey_ne haligned (by omega) (by omega) (.inl (by omega))
      obtain ⟨d, hd, hbyte, hflags⟩ := h.filled va hva (by omega)
      refine ⟨d, ?_, hbyte, ?_⟩
      . rw [hcontents, Function.update_of_ne hne, hd]
      . rw [hentry _ hne, hflags]

theorem loadFile_filling {n offset : Nat} (h : Filling s₀ i base vma perm lo g s c) (hmem : vma ∈ base.mmapList)
    (hhead : AtHead lo c) (hlt : c.start < stop) (hn : stop - c.start ≤ n) (hstop : stop ≤ vma.vmEnd)
    (hg : ∀ va, lo ≤ va → va < stop → g va = (base.file.byte (offset + (va - lo))).toBitVec)
    (hoffset : c.offset = offset + (c.start - lo)) (hload : loadFile env i perm stop n c s = .ok c' t)
    : Filling s₀ i base vma perm lo g t c' ∧ c'.start = stop ∧ AtTail i t c' := by
  induction n generalizing c s with
  | zero => omega
  | succ n ih =>
    have hsize := hhead.size hlt
    have hlo := h.lo_le
    simp only [loadFile, if_pos hlt] at hload
    generalize (if stop < c.la + pgsize then pgsize - (c.start - c.la) - (c.la + pgsize - stop)
      else pgsize - (c.start - c.la)) = size at hload hsize
    obtain ⟨page, u, halloc, hbehind⟩ := Prog.bind_run_eq_ok.mp hload
    obtain ⟨b, v, hread, hbehind'⟩ := Prog.bind_run_eq_ok.mp hbehind
    obtain ⟨_, w, hwrite, hrest⟩ := Prog.bind_run_eq_ok.mp hbehind'
    have hpos := hhead.le
    have hpos' := hhead.lt
    obtain ⟨hal, hu⟩ := pgdirAllocPage_ok (h.unmapped c.la (Nat.le_refl _) (by omega)) halloc
    obtain ⟨rfl, rfl⟩ := loadIcodeRead_ok (by omega) hread
    have hw : w = withPage s v.paging page ((v.paging.data page).write (c.start - c.la)
        (fun n => (v.file.byte.drop c.offset n).toBitVec) size) := by
      obtain ⟨-, rfl⟩ := Outcome.ok.inj hwrite
      rw [hu]
      rfl
    have hfile : v.file = base.file := by
      rw [hu]
      exact h.file
    have hsrc : ∀ n < size, (v.file.byte.drop c.offset n).toBitVec = g (c.start + n) := by
      intro n hn
      rw [hg _ (by omega) (by omega), hfile, Bytes.drop_apply, hoffset]
      congr 2
      omega
    have hround := h.round hmem hhead hlt hstop hal hsize hsrc (c.offset + size)
    rw [← hw] at hround
    obtain ⟨htail, hnext⟩ := hhead.next hlt hsize (c.offset + size) (s := w) (by rw [hw]; exact hal.maps)
    by_cases hmore : c.start + size < stop
    . exact ih hround (hnext hmore) hmore (by simp only; omega) (by simp only; omega) hrest
    . have hdone : c' = ⟨some page, c.la + pgsize, c.start + size, c.offset + size⟩ ∧ t = w := by
        cases n with
        | zero =>
          obtain ⟨rfl, rfl⟩ := Outcome.ok.inj hrest
          exact ⟨rfl, rfl⟩
        | succ n =>
          rw [loadFile, if_neg hmore] at hrest
          obtain ⟨rfl, rfl⟩ := Outcome.ok.inj hrest
          exact ⟨rfl, rfl⟩
      obtain ⟨rfl, rfl⟩ := hdone
      exact ⟨hround, by simp only; omega, htail⟩

omit [DecidableEq ι] in
/--
The rest of the last page: behind the bytes of the file there are zeros.
-/
theorem Filling.tail (h : Filling s₀ i base vma perm lo g s c) (hlo : lo < c.start) (htail : AtTail i s c)
    (hmaps : (s.paging.entries (i, pteKey (c.la - pgsize))).Maps page) (htop : c.la ≤ 2 ^ 39)
    (hstart : vma.vmStart ≤ c.la - pgsize) (hend : c.la ≤ vma.vmEnd) {size : Nat}
    (hsize : c.start + size ≤ c.la) (hg : ∀ va, c.start ≤ va → va < c.start + size → g va = 0)
    : Filling s₀ i base vma perm lo g
          (withPage s s.paging page
            ((s.paging.data page).write (c.start + pgsize - c.la) (fun _ => 0) size))
          { c with start := c.start + size } := by
  have hle := htail.pgsize_le
  have hlt := htail.lt
  have hps : 0 < pgsize := by decide
  have haligned : (c.la - pgsize) % pgsize = 0 := by
    have := h.aligned
    simp only [pgsize] at *
    omega
  have hoff : c.la - pgsize + (c.start + pgsize - c.la) = c.start := by omega
  have hrange : InRange vma.vmStart vma.vmEnd (pteKey (c.la - pgsize)) :=
    ⟨c.la - pgsize, hstart, by omega, rfl⟩
  have hold := Paging.contents_of_maps hmaps
  have hcontents : (withPage s s.paging page
      ((s.paging.data page).write (c.start + pgsize - c.la) (fun _ => 0) size)).paging.contents i =
        Function.update (s.paging.contents i) (pteKey (c.la - pgsize))
          (some ((s.paging.data page).write (c.start + pgsize - c.la) (fun _ => 0) size)) :=
    h.inv.priv.contents_write hmaps
  refine ⟨⟨?_, h.inv.ok, h.inv.inAreas, h.inv.free, ?_⟩, h.mmapList, h.file, h.entries, ?_, h.aligned,
    h.start_le, Nat.le_trans h.lo_le (Nat.le_add_right _ _), h.unmapped, ?_⟩
  . exact h.inv.priv.of_entries rfl (Finset.Subset.refl _)
  . intro f hf
    have hne : f ≠ page := by
      rintro rfl
      exact h.inv.priv.not_free _ hmaps.1 (hmaps.2.symm ▸ hf)
    exact (Function.update_of_ne hne _ _).trans (h.inv.stale f hf)
  . intro k hk
    have hne : k ≠ pteKey (c.la - pgsize) := by
      rintro rfl
      exact hk hrange
    rw [hcontents, Function.update_of_ne hne, h.contents k hk]
  . intro va hva hva'
    simp only at hva'
    by_cases hpage : c.la - pgsize ≤ va
    . have hkey := pteKey_eq haligned hpage (show va < c.la - pgsize + pgsize by omega)
      -- a byte of the last page that is loaded already tells the flags
      have hflags : (s.paging.entries (i, pteKey va)).flags = Pte.pteV ||| (Pte.pteV ||| perm) := by
        obtain ⟨-, -, -, hflags⟩ := h.filled (c.start - 1) (by omega) (by omega)
        have hkey' := pteKey_eq haligned (show c.la - pgsize ≤ c.start - 1 by omega) (by omega)
        rw [hkey, ← hkey', hflags]
      refine ⟨_, by rw [hcontents, hkey, Function.update_self], ?_, hflags⟩
      rw [pageOff_write _ haligned hpage (by omega), hoff]
      by_cases hnew : c.start ≤ va
      . rw [if_pos ⟨hnew, hva'⟩, hg va hnew hva']
      . rw [if_neg (fun hc => hnew hc.1)]
        obtain ⟨d, hd, hbyte, -⟩ := h.filled va hva (by omega)
        rw [hkey, hold] at hd
        rw [Option.some_inj.mp hd, hbyte]
    . have hne : pteKey va ≠ pteKey (c.la - pgsize) :=
        pteKey_ne haligned (by omega) (by omega) (.inl (by omega))
      obtain ⟨d, hd, hbyte, hflags⟩ := h.filled va hva (by omega)
      exact ⟨d, by rw [hcontents, Function.update_of_ne hne, hd], hbyte, hflags⟩

omit [DecidableEq ι] in
theorem clearTail_filling (h : Filling s₀ i base vma perm lo g s c) (hmem : vma ∈ base.mmapList)
    (hlo : lo < c.start) (htail : AtTail i s c) (hstart : vma.vmStart ≤ c.la - pgsize) (hle : c.start ≤ stop)
    (hstop : stop ≤ vma.vmEnd) (hg : ∀ va, c.start ≤ va → va < stop → g va = 0)
    (hclear : clearTail stop c s = .ok c' t)
    : Filling s₀ i base vma perm lo g t c' ∧ c.start ≤ c'.start ∧ c'.start ≤ stop ∧
        (c'.start < stop → AtHead lo c') := by
  have hok := h.inv.ok
  rw [h.mmapList] at hok
  have htop := (hok.access vma hmem).2.2
  have hbound : userTop ≤ 2 ^ 39 := by decide
  have hend := (hok.aligned vma hmem).2
  have haligned := h.aligned
  have hps : pgsize = 4096 := rfl
  have hpgsize := htail.pgsize_le
  have hlt := htail.lt
  have hinner : c.la ≤ vma.vmEnd := by
    simp only [hps] at *
    omega
  unfold clearTail at hclear
  split at hclear
  next hless =>
    split at hclear
    next hdone =>
      obtain ⟨rfl, rfl⟩ := Outcome.ok.inj hclear
      exact ⟨h, Nat.le_refl _, hle, fun hmore => absurd hdone (Nat.ne_of_lt hmore)⟩
    next hnot =>
      obtain ⟨page, hpage, hmaps⟩ := htail.page
      simp only at hclear
      have hsize : c.start + (if stop < c.la then
          (pgsize - (c.start + pgsize - c.la) + 2 ^ 64 - (c.la - stop)) % 2 ^ 64
            else pgsize - (c.start + pgsize - c.la)) = min stop c.la := by
        split <;> omega
      generalize (if stop < c.la then
          (pgsize - (c.start + pgsize - c.la) + 2 ^ 64 - (c.la - stop)) % 2 ^ 64
            else pgsize - (c.start + pgsize - c.la)) = size at hclear hsize
      obtain ⟨_, u, hassert, hbehind⟩ := Prog.bind_run_eq_ok.mp hclear
      obtain ⟨-, rfl⟩ := Prog.assert_run_eq_ok.mp hassert
      obtain ⟨_, v, hwrite, hbehind'⟩ := Prog.bind_run_eq_ok.mp hbehind
      obtain ⟨_, w, hassert', hlast⟩ := Prog.bind_run_eq_ok.mp hbehind'
      obtain ⟨-, rfl⟩ := Prog.assert_run_eq_ok.mp hassert'
      obtain ⟨rfl, rfl⟩ := Outcome.ok.inj hlast
      rw [hpage] at hwrite
      have hv := h.tail hlo htail hmaps (by omega) hstart hinner (show c.start + size ≤ c.la by omega)
        (fun va hva hva' => hg va hva (by omega))
      obtain ⟨-, rfl⟩ := Outcome.ok.inj hwrite
      refine ⟨hv, Nat.le_add_right _ _, by simp only; omega, fun hmore => ?_⟩
      simp only at hmore
      exact ⟨by simp only; omega, by simp only; omega, .inl (by simp only; omega)⟩
  next hnot =>
    obtain ⟨rfl, rfl⟩ := Outcome.ok.inj hclear
    have hpos := htail.le
    exact ⟨h, Nat.le_refl _, hle, fun _ => ⟨by omega, by omega, .inl (by omega)⟩⟩

theorem clearPages_filling {n : Nat} (h : Filling s₀ i base vma perm lo g s c) (hmem : vma ∈ base.mmapList)
    (hle : c.start ≤ stop) (hhead : c.start < stop → AtHead lo c) (hn : stop - c.start ≤ n)
    (hstop : stop ≤ vma.vmEnd) (hg : ∀ va, c.start ≤ va → va < stop → g va = 0)
    (hclear : clearPages env i perm stop n c s = .ok c' t)
    : Filling s₀ i base vma perm lo g t c' ∧ c'.start = stop := by
  induction n generalizing c s with
  | zero =>
    obtain ⟨rfl, rfl⟩ := Outcome.ok.inj hclear
    exact ⟨h, by omega⟩
  | succ n ih =>
    by_cases hlt : c.start < stop
    . have hhead := hhead hlt
      have hsize := hhead.size hlt
      simp only [clearPages, if_pos hlt] at hclear
      generalize (if stop < c.la + pgsize then pgsize - (c.start - c.la) - (c.la + pgsize - stop)
        else pgsize - (c.start - c.la)) = size at hclear hsize
      obtain ⟨page, u, halloc, hbehind⟩ := Prog.bind_run_eq_ok.mp hclear
      obtain ⟨_, w, hwrite, hrest⟩ := Prog.bind_run_eq_ok.mp hbehind
      have hpos := hhead.le
      have hpos' := hhead.lt
      obtain ⟨hal, hu⟩ := pgdirAllocPage_ok (h.unmapped c.la (Nat.le_refl _) (by omega)) halloc
      have hw : w = withPage s u.paging page
          ((u.paging.data page).write (c.start - c.la) (fun _ => 0) size) := by
        obtain ⟨-, rfl⟩ := Outcome.ok.inj hwrite
        rw [hu]
        rfl
      have hround := h.round hmem hhead hlt hstop hal hsize
        (fun n hn => (hg _ (by omega) (by omega)).symm) c.offset
      rw [← hw] at hround
      obtain ⟨-, hnext⟩ := hhead.next hlt hsize c.offset (s := w) (by rw [hw]; exact hal.maps)
      exact ih hround (by simp only; omega) hnext (by simp only; omega)
        (fun va hva hva' => hg va (by simp only at hva; omega) hva') hrest
    . rw [clearPages, if_neg hlt] at hclear
      obtain ⟨rfl, rfl⟩ := Outcome.ok.inj hclear
      exact ⟨h, by omega⟩

/--
The segment of a header is in memory.
-/
def SegmentLoaded (file : ByteFile) (ph : ProgHdr) (i : ι) (s : Loading ι) : Prop :=
  ∀ va, ph.pVa ≤ va → va < ph.pVa + ph.pMemsz →
    InAreas s.mmapList (pteKey va) ∧ ByteLoaded s i ph.perm va (ph.byteAt file va)

omit [DecidableEq ι] in
theorem SegmentLoaded.of_grows {file : ByteFile} {ph : ProgHdr} (h : SegmentLoaded file ph i s)
    (hgrows : Grows i s t)
    : SegmentLoaded file ph i t := by
  intro va hva hva'
  obtain ⟨hin, d, hd, hbyte, hflags⟩ := h va hva hva'
  refine ⟨hgrows.inAreas hin, d, ?_, hbyte, ?_⟩
  . rw [hgrows.contents _ hin, hd]
  . rw [hgrows.entries _ hin, hflags]

/--
Rounding up reaches behind the address if the result is not below the user addresses.
-/
theorem le_roundUp {a start : Nat} (ha : a < 2 ^ 64) (h : userAccess start (roundUp a)) : a ≤ roundUp a := by
  obtain ⟨-, hlt, -⟩ := h
  have hps : pgsize = 4096 := rfl
  simp only [roundUp, hps] at *
  omega

/--
A round of the loop over the headers keeps what is loaded, and loads its segment.
-/
theorem loadProghdr_spec {ph : ProgHdr} (hs : Inv s₀ i s)
    (hwrap : ph.pType = elfPtLoad → ph.pVa + ph.pMemsz < 2 ^ 64) (h : loadProghdr env i ph s = .ok () t)
    : Inv s₀ i t ∧ Grows i s t ∧
        (ph.pType = elfPtLoad → ph.pFilesz ≠ 0 → SegmentLoaded s.file ph i t) := by
  unfold loadProghdr at h
  split at h
  next htype =>
    obtain ⟨-, rfl⟩ := Outcome.ok.inj h
    exact ⟨hs, Grows.refl s, fun hload => absurd hload htype⟩
  next htype =>
    rw [not_not] at htype
    split at h
    . cases h
    next hsizes =>
      split at h
      next hzero =>
        obtain ⟨-, rfl⟩ := Outcome.ok.inj h
        exact ⟨hs, Grows.refl s, fun _ hload => absurd hzero hload⟩
      next hfilesz =>
        obtain ⟨_, base, hmap, hbehind⟩ := Prog.bind_run_eq_ok.mp h
        obtain ⟨c, u, hload, hbehind'⟩ := Prog.bind_run_eq_ok.mp hbehind
        obtain ⟨c', v, htail, hbehind''⟩ := Prog.bind_run_eq_ok.mp hbehind'
        obtain ⟨c'', w, hclear, hlast⟩ := Prog.bind_run_eq_ok.mp hbehind''
        obtain ⟨-, rfl⟩ := Outcome.ok.inj hlast
        have hwrap := hwrap htype
        have hadded := mmMap_added hs.ok hmap
        rw [Nat.mod_eq_of_lt hwrap] at hadded hclear htail
        rw [Nat.mod_eq_of_lt (show ph.pVa + ph.pFilesz < 2 ^ 64 by omega)] at hload
        generalize hvma : (⟨ph.pVa / pgsize * pgsize, roundUp (ph.pVa + ph.pMemsz), ph.vmFlags⟩ : Vma) = vma
          at hadded
        have hmem := hadded.self_mem
        have hend : ph.pVa + ph.pMemsz ≤ vma.vmEnd := by
          have haccess := hadded.ok.access vma hmem
          rw [← hvma] at haccess ⊢
          exact le_roundUp hwrap haccess
        have hstart : vma.vmStart = ph.pVa / pgsize * pgsize := by rw [← hvma]
        have hps : pgsize = 4096 := rfl
        have hbase : Filling s₀ i base vma ph.perm ph.pVa (ph.byteAt base.file) base
            ⟨none, ph.pVa / pgsize * pgsize, ph.pVa, ph.pOffset⟩ := by
          refine ⟨hadded.inv hs, rfl, rfl, fun _ _ => rfl, fun _ _ => rfl, Nat.mul_mod_left _ _,
            Nat.le_of_eq hstart, Nat.le_refl _, ?_, fun va hva hva' => absurd hva' (by simp only; omega)⟩
          intro va hva hva'
          exact hadded.unmapped hs ⟨va, by simp only at hva; omega, hva', rfl⟩
        have hhead : AtHead ph.pVa ⟨none, ph.pVa / pgsize * pgsize, ph.pVa, ph.pOffset⟩ :=
          ⟨by simp only [hps]; omega, by simp only [hps]; omega, .inr rfl⟩
        obtain ⟨hu, hcu, hlast⟩ := loadFile_filling hbase hmem hhead (by simp only; omega) (by simp only; omega)
          (by omega) (fun va hva hva' => if_pos hva') (by simp only; omega) hload
        have hzeros : ∀ va, ph.pVa + ph.pFilesz ≤ va → ph.byteAt base.file va = 0 :=
          fun va hva => if_neg (Nat.not_lt.mpr hva)
        have hpage : vma.vmStart ≤ c.la - pgsize := by
          have := hlast.le
          have := hlast.lt
          have := hu.aligned
          simp only [hps] at *
          omega
        obtain ⟨hv, hfile, hcv, hnext⟩ := clearTail_filling hu hmem (by omega) hlast hpage (by omega) hend
          (fun va hva _ => hzeros va (by omega)) htail
        obtain ⟨hw, hcw⟩ := clearPages_filling hv hmem hcv hnext (Nat.le_refl _) hend
          (fun va hva _ => hzeros va (by omega)) hclear
        have hgrows : Grows i s w := by
          have hout : ∀ k, InAreas s.mmapList k → ¬InRange vma.vmStart vma.vmEnd k :=
            fun k hk hrange => hadded.not_inAreas hrange hk
          refine ⟨?_, ?_, ?_, hw.file.trans hadded.file⟩
          . rw [hw.mmapList]
            exact (hadded.grows (i := i)).areas
          . intro k hk
            rw [hw.entries k (hout k hk), hadded.paging]
          . intro k hk
            rw [hw.contents k (hout k hk), hadded.paging]
        refine ⟨hw.inv, hgrows, fun _ _ va hva hva' => ⟨⟨vma, hw.mmapList ▸ hmem, va, ?_, by omega, rfl⟩, ?_⟩⟩
        . have := Nat.div_mul_le_self ph.pVa pgsize
          omega
        . rw [← hadded.file]
          exact hw.filled va hva (by omega)

/--
The program header that is read in a round of the loop.
-/
def headerAt (file : ByteFile) (elf : ElfHdr) (phnum : Nat) : ProgHdr :=
  ProgHdr.ofBytes (file.byte.drop (phoff elf phnum))

/--
The loop over the headers loads the segments of all of them.
-/
theorem loadProghdrs_spec {elf : ElfHdr} {phnums : List Nat} (hs : Inv s₀ i s)
    (hwrap : ∀ phnum ∈ phnums, (headerAt s.file elf phnum).pType = elfPtLoad →
      (headerAt s.file elf phnum).pVa + (headerAt s.file elf phnum).pMemsz < 2 ^ 64)
    (h : loadProghdrs env i elf phnums s = .ok () t)
    : Inv s₀ i t ∧ Grows i s t ∧ ∀ phnum ∈ phnums, (headerAt s.file elf phnum).pType = elfPtLoad →
        (headerAt s.file elf phnum).pFilesz ≠ 0 →
          SegmentLoaded s.file (headerAt s.file elf phnum) i t := by
  induction phnums generalizing s with
  | nil =>
    obtain ⟨-, rfl⟩ := Outcome.ok.inj h
    exact ⟨hs, Grows.refl s, fun _ hmem => absurd hmem List.not_mem_nil⟩
  | cons phnum rest ih =>
    obtain ⟨b, u, hread, hbehind⟩ := Prog.bind_run_eq_ok.mp h
    obtain ⟨_, v, hload, hrest⟩ := Prog.bind_run_eq_ok.mp hbehind
    obtain ⟨rfl, rfl⟩ := loadIcodeRead_ok (by decide) hread
    obtain ⟨hv, hgrows, hloaded⟩ := loadProghdr_spec hs (hwrap phnum List.mem_cons_self) hload
    have hfile := hgrows.file
    obtain ⟨ht, hgrows', hloaded'⟩ := ih hv
      (fun n hn => hfile.symm ▸ hwrap n (List.mem_cons_of_mem _ hn)) hrest
    rw [hfile] at hloaded'
    refine ⟨ht, hgrows.trans hgrows', fun n hn htype hfilesz => ?_⟩
    rcases List.mem_cons.mp hn with rfl | hn
    . exact (hloaded htype hfilesz).of_grows hgrows'
    . exact hloaded' n hn htype hfilesz

end LoadM
end Ucore

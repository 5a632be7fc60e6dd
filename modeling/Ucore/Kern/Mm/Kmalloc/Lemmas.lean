import Ucore.Kern.Mm.Kmalloc.Impl

/-!
This module contains the free list of kern/mm/kmalloc.c as a ring of blocks, and what the loops and the
pointer writes of `slob_alloc` and `slob_free` do to it.
-/

namespace Ucore

namespace Slob

section Ring

/--
The address that a pointer in front of `bs` has, if `z` comes behind them.
-/
def firstAddr : List Block → Nat → Nat
  | [], z => z
  | b :: _, _ => b.addr

/--
Memory holds the blocks, each points to the one behind it and the last one to `z`.
-/
def Segment (mem : Nat → SlobBlock) : List Block → Nat → Prop
  | [], _ => True
  | b :: bs, z => mem b.addr = { units := b.units, next := firstAddr bs z } ∧ Segment mem bs z

def Ring (mem : Nat → SlobBlock) (bs : List Block) : Prop := Segment mem bs (firstAddr bs 0)

variable {mem mem' : Nat → SlobBlock} {as bs cs : List Block} {a b c x : Block} {z : Nat}

theorem firstAddr_append : firstAddr (as ++ bs) z = firstAddr as (firstAddr bs z) := by
  cases as <;> rfl

theorem segment_append
    : Segment mem (as ++ bs) z ↔ Segment mem as (firstAddr bs z) ∧ Segment mem bs z := by
  induction as with
  | nil => simp [Segment]
  | cons a as ih =>
    simp only [List.cons_append, Segment, ih, firstAddr_append]
    tauto

theorem Segment.congr (h : Segment mem bs z) (heq : ∀ b ∈ bs, mem' b.addr = mem b.addr)
    : Segment mem' bs z := by
  induction bs with
  | nil => trivial
  | cons b bs ih =>
    refine ⟨(heq b List.mem_cons_self).trans h.1, ih h.2 ?_⟩
    exact fun c hc => heq c (List.mem_cons_of_mem _ hc)

theorem Ring.rotate (h : Ring mem (as ++ bs)) : Ring mem (bs ++ as) := by
  cases as with
  | nil => simpa using h
  | cons a as =>
    cases bs with
    | nil => simpa using h
    | cons b bs =>
      obtain ⟨has, hbs⟩ := segment_append.mp h
      exact segment_append.mpr ⟨hbs, has⟩

theorem Ring.next (h : Ring mem (as ++ x :: bs))
    : mem x.addr = { units := x.units, next := firstAddr bs (firstAddr as x.addr) } := by
  have hx := (segment_append.mp h).2.1
  rw [hx, firstAddr_append]
  rfl

theorem Ring.units (h : Ring mem bs) (hx : x ∈ bs) : (mem x.addr).units = x.units := by
  obtain ⟨as, cs, rfl⟩ := List.append_of_mem hx
  rw [h.next]

/--
Where the addresses differ there is one way to take a list apart at a block.
-/
theorem split_unique {as' bs' : List Block} {x' : Block} (hnodup : ((as ++ x :: bs).map (·.addr)).Nodup)
    (heq : as ++ x :: bs = as' ++ x' :: bs') (hx : x.addr = x'.addr)
    : as = as' ∧ x = x' ∧ bs = bs' := by
  induction as generalizing as' with
  | nil =>
    cases as' with
    | nil =>
      obtain ⟨rfl, rfl⟩ := List.cons.inj heq
      exact ⟨rfl, rfl, rfl⟩
    | cons a' as' =>
      obtain ⟨rfl, rfl⟩ := List.cons.inj heq
      simp [hx] at hnodup
  | cons a as ih =>
    cases as' with
    | nil =>
      obtain ⟨rfl, rfl⟩ := List.cons.inj heq
      simp [← hx] at hnodup
    | cons a' as' =>
      obtain ⟨rfl, hrest⟩ := List.cons.inj heq
      rw [List.cons_append, List.map_cons, List.nodup_cons] at hnodup
      obtain ⟨rfl, rfl, rfl⟩ := ih hnodup.2 hrest
      exact ⟨rfl, rfl, rfl⟩

end Ring

section Free

variable {h : Slob} {as bs cs : List Block} {b c x : Block} {z : Nat}

/--
The condition under which the loop of `slob_free` stops at `cur`.
-/
def FreeStop (h : Slob) (b cur : Nat) : Prop :=
  (b > cur ∧ b < (h.mem cur).next) ∨
    (cur ≥ (h.mem cur).next ∧ (b > cur ∨ b < (h.mem cur).next))

theorem freeFind_stop {b cur fuel : Nat} (hstop : h.FreeStop b cur)
    : h.freeFind b (fuel + 1) cur = some cur := by
  unfold freeFind
  rcases hstop with hstop | hstop
  . rw [if_pos hstop]
  . simp only [hstop, and_self, if_true]
    split <;> rfl

theorem freeFind_next {b cur fuel : Nat} (hstop : ¬h.FreeStop b cur)
    : h.freeFind b (fuel + 1) cur = h.freeFind b fuel (h.mem cur).next := by
  rw [FreeStop, not_or] at hstop
  simp only [freeFind, hstop.1, hstop.2, if_false]

theorem freeFind_segment {b : Nat} {fuel : Nat} (hseg : Segment h.mem (as ++ c :: bs) z)
    (has : ∀ x ∈ as, ¬h.FreeStop b x.addr) (hc : h.FreeStop b c.addr) (hfuel : as.length < fuel)
    : h.freeFind b fuel (firstAddr (as ++ c :: bs) z) = some c.addr := by
  induction as generalizing fuel with
  | nil =>
    obtain ⟨fuel, rfl⟩ := Nat.exists_eq_succ_of_ne_zero (Nat.ne_of_gt hfuel)
    exact freeFind_stop hc
  | cons a as ih =>
    obtain ⟨fuel, rfl⟩ := Nat.exists_eq_succ_of_ne_zero (Nat.ne_of_gt (Nat.zero_lt_of_lt hfuel))
    have hnext : (h.mem a.addr).next = firstAddr (as ++ c :: bs) z := by
      rw [hseg.1]
      rfl
    have hstep := @freeFind_next h b a.addr fuel (has a List.mem_cons_self)
    rw [hnext, ih hseg.2 (fun x hx => has x (List.mem_cons_of_mem _ hx)) (by simpa using hfuel)] at hstep
    exact hstep

theorem freeAt_mem {b cur : Nat} (hne : cur ≠ b) (x : Nat)
    : (h.freeAt b cur).mem x =
        let next := (h.mem cur).next
        let cell : SlobBlock :=
          if b + (h.mem b).units = next then
            { units := (h.mem b).units + (h.mem next).units, next := (h.mem next).next }
          else
            { units := (h.mem b).units, next }
        if x = cur then
          if cur + (h.mem cur).units = b then
            { units := (h.mem cur).units + cell.units, next := cell.next }
          else
            { units := (h.mem cur).units, next := b }
        else if x = b then cell
        else h.mem x := by
  by_cases hnext : b + (h.mem b).units = (h.mem cur).next <;>
    by_cases hcur : cur + (h.mem cur).units = b <;>
      simp only [freeAt, hnext, hcur, if_true, if_false, setUnits, setNext, Function.update_apply, hne] <;>
        split <;> simp_all

/--
The pointer writes of `slob_free` put the block behind `c` and merge it with its neighbours.
-/
theorem freeAt_ring (hring : Ring h.mem (c :: bs)) (hnodup : ((c :: bs).map (·.addr)).Nodup)
    (hb : b.addr ∉ (c :: bs).map (·.addr)) (hunits : (h.mem b.addr).units = b.units)
    (hself : bs = [] → b.stop ≠ c.addr)
    : Ring (h.freeAt b.addr c.addr).mem (Block.mergeInto c (Block.mergeInto b bs)) := by
  have hc : h.mem c.addr = { units := c.units, next := firstAddr bs c.addr } := hring.1
  have hcb : c.addr ≠ b.addr := by
    intro heq
    exact hb (heq ▸ List.mem_cons_self)
  have hmem := @freeAt_mem h b.addr c.addr hcb
  rw [List.map_cons, List.nodup_cons] at hnodup
  rw [List.map_cons, List.mem_cons, not_or] at hb
  -- what is neither c nor b stays as it is
  have hframe : ∀ x ∈ bs, (h.freeAt b.addr c.addr).mem x.addr = h.mem x.addr := by
    intro x hx
    have hxc : x.addr ≠ c.addr := fun heq => hnodup.1 (heq ▸ List.mem_map_of_mem hx)
    have hxb : x.addr ≠ b.addr := fun heq => hb.2 (heq ▸ List.mem_map_of_mem hx)
    rw [hmem]
    simp only [hxc, hxb, if_false]
  have hbs : Segment (h.freeAt b.addr c.addr).mem bs c.addr := hring.2.congr hframe
  have hbcell := hmem b.addr
  have hccell := hmem c.addr
  simp only [hc, hunits, Ne.symm hcb, if_false, if_true] at hbcell hccell
  cases bs with
  | nil =>
    have hstop : b.addr + b.units ≠ c.addr := hself rfl
    simp only [firstAddr, hstop, if_false] at hbcell hccell
    rw [Block.mergeInto, Block.mergeInto_cons]
    split
    next heq =>
      rw [if_pos (show c.addr + c.units = b.addr from heq)] at hccell
      exact ⟨hccell, trivial⟩
    next hne =>
      rw [if_neg (show ¬c.addr + c.units = b.addr from hne)] at hccell
      exact ⟨hccell, hbcell, trivial⟩
  | cons n bs =>
    have hn : h.mem n.addr = { units := n.units, next := firstAddr bs c.addr } := hring.2.1
    simp only [firstAddr, hn] at hbcell hccell
    rw [Block.mergeInto_cons]
    by_cases hstop : b.stop = n.addr
    . have hstop' : b.addr + b.units = n.addr := hstop
      simp only [hstop', if_true] at hbcell hccell
      rw [if_pos hstop, Block.mergeInto_cons]
      split
      next heq =>
        rw [if_pos (show c.addr + c.units = b.addr from heq)] at hccell
        refine ⟨hccell, ?_⟩
        exact hbs.2
      next hne =>
        rw [if_neg (show ¬c.addr + c.units = b.addr from hne)] at hccell
        exact ⟨hccell, hbcell, hbs.2⟩
    . have hstop' : ¬b.addr + b.units = n.addr := hstop
      simp only [hstop', if_false] at hbcell hccell
      rw [if_neg hstop, Block.mergeInto_cons]
      split
      next heq =>
        rw [if_pos (show c.addr + c.units = b.addr from heq)] at hccell
        exact ⟨hccell, hbs⟩
      next hne =>
        rw [if_neg (show ¬c.addr + c.units = b.addr from hne)] at hccell
        exact ⟨hccell, hbcell, hbs⟩

/--
The free list that starts at `slobfree`: a ring that is sorted by address up to one wrap, with a gap
behind every block.
-/
structure FreeList (h : Slob) (fs : List Block) : Prop where
  ring : Ring h.mem fs
  slobfree : h.slobfree ∈ fs.map (·.addr)
  spaced : Block.Spaced fs
  pos : ∀ b ∈ fs, 0 < b.units

theorem FreeList.nodup {fs : List Block} (hfl : h.FreeList fs) : (fs.map (·.addr)).Nodup :=
  hfl.spaced.addr_nodup hfl.pos

theorem FreeList.addr_inj {fs : List Block} (hfl : h.FreeList fs) (hb : b ∈ fs) (hc : c ∈ fs)
    (heq : b.addr = c.addr)
    : b = c :=
  List.inj_on_of_nodup_map hfl.nodup hb hc heq

/--
The loop of `slob_free` comes to the only block where it stops.
-/
theorem FreeList.find {fs : List Block} {b fuel : Nat} (hfl : h.FreeList fs) (hc : c ∈ fs)
    (hstop : h.FreeStop b c.addr) (hunique : ∀ x ∈ fs, x ≠ c → ¬h.FreeStop b x.addr)
    (hfuel : fs.length ≤ fuel)
    : h.freeFind b fuel h.slobfree = some c.addr := by
  obtain ⟨s, hs, hslobfree⟩ := List.mem_map.mp hfl.slobfree
  obtain ⟨before, behind, rfl⟩ := List.append_of_mem hs
  have hring : Ring h.mem ((s :: behind) ++ before) := hfl.ring.rotate
  have hc' : c ∈ (s :: behind) ++ before := by
    rw [List.mem_append] at hc ⊢
    exact hc.symm
  obtain ⟨pre, post, hsplit, hpre⟩ := List.eq_append_cons_of_mem hc'
  have hlength : pre.length < fuel := by
    have := congrArg List.length hsplit
    simp only [List.length_append, List.length_cons] at this hfuel
    omega
  have hmem : ∀ x ∈ pre, x ∈ before ++ s :: behind := by
    intro x hx
    have : x ∈ (s :: behind) ++ before := hsplit ▸ List.mem_append_left _ hx
    rw [List.mem_append] at this ⊢
    exact this.symm
  have hfind := @freeFind_segment h pre post c _ b fuel (hsplit ▸ hring)
    (fun x hx => hunique x (hmem x hx) fun heq => hpre (heq ▸ hx)) hstop hlength
  rw [← hsplit] at hfind
  rw [← hslobfree]
  exact hfind

/--
Where a block comes to lie: behind `a` if something is in front of it.
-/
theorem FreeList.stop_behind {fs : List Block} {a : Block} (hfl : h.FreeList fs)
    (hfs : fs = as ++ a :: cs) (hb : 0 < b.units) (hbefore : ∀ d ∈ as ++ [a], d.stop ≤ b.addr)
    (hbehind : ∀ d ∈ cs, b.stop ≤ d.addr)
    : h.FreeStop b.addr a.addr ∧ ∀ x ∈ fs, x ≠ a → ¬h.FreeStop b.addr x.addr := by
  have hpos : 0 < a.units := hfl.pos a (by simp [hfs])
  have hab : a.addr < b.addr := by
    have := hbefore a (by simp)
    simp only [Block.stop] at this
    omega
  have hspaced := hfl.spaced
  rw [hfs] at hspaced
  obtain ⟨hspacedAs, hspacedCs, hcross⟩ := List.pairwise_append.mp hspaced
  have hlt : ∀ {d e : Block}, d.stop < e.addr → d.addr < e.addr := by
    intro d e hde
    simp only [Block.stop] at hde
    omega
  constructor
  . have hring := hfl.ring
    rw [hfs] at hring
    rw [FreeStop, hring.next]
    cases cs with
    | nil =>
      refine .inr ⟨?_, .inl hab⟩
      cases as with
      | nil => exact Nat.le_refl _
      | cons d as => exact Nat.le_of_lt (hlt (hcross d List.mem_cons_self a List.mem_cons_self))
    | cons d cs =>
      refine .inl ⟨hab, ?_⟩
      have := hbehind d List.mem_cons_self
      simp only [Block.stop] at this
      simp only [firstAddr]
      omega
  . intro x hx hne hstop
    obtain ⟨pre, post, hsplit⟩ := List.append_of_mem hx
    have hring := hfl.ring
    rw [hsplit] at hring
    have hsorted := hfl.spaced
    rw [hsplit] at hsorted
    obtain ⟨hpre, hpost, hcross'⟩ := List.pairwise_append.mp hsorted
    have hxpost := (List.pairwise_cons.mp hpost).1
    rw [FreeStop, hring.next] at hstop
    have ha : a ∈ pre ∨ a ∈ post := by
      have : a ∈ pre ++ x :: post := by
        rw [← hsplit, hfs]
        simp
      rcases List.mem_append.mp this with h' | h'
      . exact .inl h'
      . exact .inr ((List.mem_cons.mp h').resolve_left (Ne.symm hne))
    rcases ha with ha | ha
    . -- x lies behind b
      have hax := hcross' a ha x List.mem_cons_self
      have hbx : b.stop ≤ x.addr := by
        rw [hfs] at hx
        rcases List.mem_append.mp hx with hx | hx
        . have h₁ := hlt (hcross x hx a List.mem_cons_self)
          have h₂ := hlt hax
          omega
        . exact hbehind x ((List.mem_cons.mp hx).resolve_left hne)
      simp only [Block.stop] at hbx
      cases post with
      | nil =>
        obtain ⟨p, pre, rfl⟩ := List.exists_cons_of_ne_nil (List.ne_nil_of_mem ha)
        have hp : p.addr ≤ a.addr := by
          rcases List.mem_cons.mp ha with rfl | ha
          . exact Nat.le_refl _
          . exact Nat.le_of_lt (hlt ((List.pairwise_cons.mp hpre).1 a ha))
        simp only [firstAddr] at hstop
        omega
      | cons q post =>
        have := hlt (hxpost q List.mem_cons_self)
        simp only [firstAddr] at hstop
        omega
    . -- x and the block behind it lie in front of b
      obtain ⟨q, post, rfl⟩ := List.exists_cons_of_ne_nil (List.ne_nil_of_mem ha)
      have hq : q.addr ≤ a.addr := by
        rcases List.mem_cons.mp ha with rfl | ha
        . exact Nat.le_refl _
        . exact Nat.le_of_lt (hlt ((List.pairwise_cons.mp (List.pairwise_cons.mp hpost).2).1 a ha))
      have := hlt (hxpost q List.mem_cons_self)
      simp only [firstAddr] at hstop
      omega

/--
A block in front of all others comes behind the last one.
-/
theorem FreeList.stop_last {fs : List Block} {a : Block} (hfl : h.FreeList fs) (hfs : fs = as ++ [a])
    (hb : 0 < b.units) (hbehind : ∀ d ∈ fs, b.stop ≤ d.addr)
    : h.FreeStop b.addr a.addr ∧ ∀ x ∈ fs, x ≠ a → ¬h.FreeStop b.addr x.addr := by
  have hspaced := hfl.spaced
  rw [hfs] at hspaced
  obtain ⟨-, -, hcross⟩ := List.pairwise_append.mp hspaced
  have hlt : ∀ {d e : Block}, d.stop < e.addr → d.addr < e.addr := by
    intro d e hde
    simp only [Block.stop] at hde
    omega
  have hblt : ∀ d ∈ fs, b.addr < d.addr := by
    intro d hd
    have := hbehind d hd
    simp only [Block.stop] at this
    omega
  constructor
  . have hring := hfl.ring
    rw [hfs] at hring
    rw [FreeStop, hring.next]
    cases as with
    | nil => exact .inr ⟨Nat.le_refl _, .inr (hblt a (by simp [hfs]))⟩
    | cons d as =>
      refine .inr ⟨Nat.le_of_lt (hlt (hcross d List.mem_cons_self a List.mem_cons_self)), .inr ?_⟩
      exact hblt d (by simp [hfs])
  . intro x hx hne hstop
    have hxas : x ∈ as := by
      rw [hfs] at hx
      rcases List.mem_append.mp hx with hx | hx
      . exact hx
      . exact absurd (List.mem_singleton.mp hx) hne
    obtain ⟨pre, post, rfl⟩ := List.append_of_mem hxas
    have hring := hfl.ring
    rw [hfs, List.append_assoc, List.cons_append] at hring
    have hbx := hblt x hx
    have hnext : x.addr < firstAddr (post ++ [a]) (firstAddr pre x.addr) := by
      have hsorted := hfl.spaced
      rw [hfs, List.append_assoc, List.cons_append] at hsorted
      have hxpost := (List.pairwise_cons.mp (List.pairwise_append.mp hsorted).2.1).1
      cases post with
      | nil => exact hlt (hxpost a (by simp))
      | cons q post => exact hlt (hxpost q (by simp))
    rw [FreeStop, hring.next] at hstop
    simp only at hstop
    omega

/--
What memory holds outside the free list and the block that goes there stays.
-/
theorem freeAt_frame {cur x : Nat} {b : Nat} (hne : cur ≠ b) (hcur : x ≠ cur) (hb : x ≠ b)
    : (h.freeAt b cur).mem x = h.mem x := by
  rw [freeAt_mem hne]
  simp only [hcur, hb, if_false]

theorem freeAt_pages {cur b : Nat}
    : (h.freeAt b cur).pages = h.pages ∧ (h.freeAt b cur).bigblocks = h.bigblocks ∧
        (h.freeAt b cur).slobfree = cur := by
  unfold freeAt
  simp only
  split <;> split <;> simp [setUnits, setNext]

/--
The writes of `slob_free` behind the block that the search has found.
-/
theorem FreeList.freeAt {fs : List Block} (hfl : h.FreeList fs) (hb : 0 < b.units)
    (hunits : (h.mem b.addr).units = b.units)
    (happart : ∀ c ∈ fs, c.stop ≤ b.addr ∨ b.stop ≤ c.addr)
    (hself : ∀ c, fs = [c] → b.stop ≠ c.addr)
    : ∃ as cs c, fs = as ++ cs ∧ c ∈ fs ∧ (∀ d ∈ as, d.stop ≤ b.addr) ∧
        (∀ d ∈ cs, b.stop ≤ d.addr) ∧ h.FreeStop b.addr c.addr ∧
        (∀ x ∈ fs, x ≠ c → ¬h.FreeStop b.addr x.addr) ∧ c.addr ≠ b.addr ∧
        (h.freeAt b.addr c.addr).FreeList (Block.insertMerge as b cs) := by
  obtain ⟨as, cs, hfs, hbefore, hbehind⟩ := hfl.spaced.split hfl.pos happart
  have hbaddr : ∀ c ∈ fs, b.addr ≠ c.addr := by
    intro c hc heq
    have := happart c hc
    have := hfl.pos c hc
    simp only [Block.stop] at *
    omega
  have hnotMem : b.addr ∉ fs.map (·.addr) := by
    intro hmem
    obtain ⟨c, hc, heq⟩ := List.mem_map.mp hmem
    exact hbaddr c hc heq.symm
  have hspaced : Block.Spaced (Block.insertMerge as b cs) :=
    Block.Spaced.insertMerge (hfs ▸ hfl.spaced) hb hbefore hbehind
  have hpos : ∀ c ∈ Block.insertMerge as b cs, 0 < c.units := fun c hc =>
    Block.insertMerge_pos (hfs ▸ hfl.pos) hb hc
  rcases List.eq_nil_or_concat' as with rfl | ⟨as, a, rfl⟩
  . -- b lies in front of the whole list, so it comes behind its last block
    rw [List.nil_append] at hfs
    subst hfs
    rcases List.eq_nil_or_concat' fs with rfl | ⟨cs, c, rfl⟩
    . exact absurd hfl.slobfree (by simp)
    . obtain ⟨hstop, hunique⟩ := hfl.stop_last rfl hb hbehind
      have hmemc : c ∈ cs ++ [c] := by simp
      have hcb : c.addr ≠ b.addr := Ne.symm (hbaddr c hmemc)
      have hrotate : Ring h.mem (c :: cs) := hfl.ring.rotate
      have hperm : (c :: cs).Perm (cs ++ [c]) := (List.perm_append_singleton c cs).symm
      have hring := freeAt_ring hrotate ((hperm.map _).nodup_iff.mpr hfl.nodup)
        (fun hmem => hnotMem ((hperm.map _).mem_iff.mp hmem)) hunits
        (fun hnil => hself c (by rw [hnil]; rfl))
      have hhead : ∀ d ∈ (Block.mergeInto b cs).head?, c.stop ≠ d.addr := by
        intro d hd
        rw [Block.mergeInto_head d hd]
        have := hbehind c hmemc
        have := hfl.pos c hmemc
        simp only [Block.stop] at *
        omega
      have hlist : Block.mergeInto c (Block.mergeInto b cs) = [c] ++ Block.mergeInto b cs :=
        @Block.mergeInto_append c [] _ (.inr hhead)
      have hlist' : Block.mergeInto b (cs ++ [c]) = Block.mergeInto b cs ++ [c] := by
        apply Block.mergeInto_append
        cases cs with
        | nil =>
          refine .inr ?_
          intro d hd
          rw [List.head?_cons, Option.mem_def, Option.some_inj] at hd
          rw [← hd]
          exact hself c rfl
        | cons d cs => exact .inl (by simp)
      rw [hlist] at hring
      refine ⟨[], cs ++ [c], c, rfl, hmemc, by simp, hbehind, hstop, hunique, hcb, ?_, ?_, hspaced,
        hpos⟩
      . rw [Block.insertMerge, hlist']
        exact hring.rotate
      . rw [freeAt_pages.2.2, Block.insertMerge, hlist']
        simp
  . obtain ⟨hstop, hunique⟩ := hfl.stop_behind (by rw [hfs, List.append_assoc]; rfl) hb hbefore hbehind
    have hmema : a ∈ fs := by simp [hfs]
    have hab : a.addr ≠ b.addr := Ne.symm (hbaddr a hmema)
    have hrotate : Ring h.mem (a :: (cs ++ as)) := by
      have := hfl.ring
      rw [hfs, List.append_assoc] at this
      exact this.rotate
    have hperm : (a :: (cs ++ as)).Perm fs := by
      rw [hfs, List.append_assoc]
      exact @List.perm_append_comm _ (a :: cs) as
    have haless : ∀ d ∈ as, d.addr < b.addr := by
      intro d hd
      have := hbefore d (List.mem_append_left _ hd)
      have := hfl.pos d (by simp [hfs, hd])
      simp only [Block.stop] at *
      omega
    have hring := freeAt_ring hrotate ((hperm.map _).nodup_iff.mpr hfl.nodup)
      (fun hmem => hnotMem ((hperm.map _).mem_iff.mp hmem)) hunits (by
        intro _ heq
        have := hbefore a (by simp)
        simp only [Block.stop] at *
        omega)
    have hlist : Block.mergeInto b (cs ++ as) = Block.mergeInto b cs ++ as := by
      apply Block.mergeInto_append
      refine .inr ?_
      intro d hd
      have := haless d (List.mem_of_mem_head? hd)
      simp only [Block.stop]
      omega
    have hlist' : Block.mergeInto a (Block.mergeInto b cs ++ as) =
        Block.mergeInto a (Block.mergeInto b cs) ++ as :=
      Block.mergeInto_append (.inl Block.mergeInto_ne_nil)
    rw [hlist, hlist'] at hring
    refine ⟨as ++ [a], cs, a, hfs, hmema, hbefore, hbehind, hstop, hunique, hab, ?_, ?_, hspaced, hpos⟩
    . rw [Block.insertMerge_concat]
      exact hring.rotate
    . rw [freeAt_pages.2.2, Block.insertMerge_concat, List.map_append, List.mem_append]
      refine .inr ?_
      cases hmerge : Block.mergeInto b cs with
      | nil => exact absurd hmerge Block.mergeInto_ne_nil
      | cons d ds =>
        rw [Block.mergeInto_cons]
        split <;> exact List.mem_cons_self

/--
`slob_free` comes to its end: the block is in the free list, merged with its neighbours.
-/
theorem FreeList.slobFree {fs : List Block} {size : Nat} (hfl : h.FreeList fs) (hb : 0 < b.units)
    (hunits : (if size ≠ 0 then slobUnits size else (h.mem b.addr).units) = b.units)
    (happart : ∀ c ∈ fs, c.stop ≤ b.addr ∨ b.stop ≤ c.addr)
    (hself : ∀ c, fs = [c] → b.stop ≠ c.addr) (hfuel : fs.length ≤ h.slobFuel)
    : ∃ h' as cs, fs = as ++ cs ∧ (∀ d ∈ as, d.stop ≤ b.addr) ∧ (∀ d ∈ cs, b.stop ≤ d.addr) ∧
        h.slobFree b.addr size = some h' ∧ h'.FreeList (Block.insertMerge as b cs) ∧
        h'.pages = h.pages ∧ h'.bigblocks = h.bigblocks ∧
        ∀ x, x ∉ fs.map (·.addr) → x ≠ b.addr → h'.mem x = h.mem x := by
  let t := if size ≠ 0 then h.setUnits b.addr (slobUnits size) else h
  have hbaddr : ∀ c ∈ fs, c.addr ≠ b.addr := by
    intro c hc heq
    have := happart c hc
    have := hfl.pos c hc
    simp only [Block.stop] at *
    omega
  have htmem : ∀ x, x ≠ b.addr → t.mem x = h.mem x := by
    intro x hx
    simp only [t]
    split
    . simp [setUnits, Function.update_of_ne hx]
    . rfl
  have htunits : (t.mem b.addr).units = b.units := by
    rw [← hunits]
    simp only [t]
    split <;> simp [setUnits]
  have htpages : t.pages = h.pages ∧ t.bigblocks = h.bigblocks ∧ t.slobfree = h.slobfree := by
    simp only [t]
    split <;> exact ⟨rfl, rfl, rfl⟩
  have htfl : t.FreeList fs :=
    ⟨Segment.congr hfl.ring fun c hc => htmem _ (hbaddr c hc), htpages.2.2 ▸ hfl.slobfree, hfl.spaced,
      hfl.pos⟩
  obtain ⟨as, cs, c, hfs, hmem, hbefore, hbehind, hstop, hunique, hcb, hfree⟩ :=
    htfl.freeAt hb htunits happart hself
  have htfuel : fs.length ≤ t.slobFuel := by rwa [slobFuel, htpages.1]
  have hfind := htfl.find hmem hstop hunique htfuel
  refine ⟨_, as, cs, hfs, hbefore, hbehind, ?_, hfree, ?_, ?_, ?_⟩
  . have : h.slobFree b.addr size = (t.freeFind b.addr t.slobFuel t.slobfree).bind fun cur =>
        some (t.freeAt b.addr cur) := rfl
    rw [this, hfind, Option.bind_some]
  . rw [freeAt_pages.1, htpages.1]
  . rw [freeAt_pages.2.1, htpages.2.1]
  . intro x hx hxb
    rw [freeAt_frame hcb _ hxb, htmem x hxb]
    intro heq
    exact hx (heq ▸ List.mem_map_of_mem hmem)

end Free

section Alloc

variable {h : Slob} {as bs cs fs : List Block} {b c x : Block} {z units : Nat}

/--
The search of `slob_alloc` goes once around the ring, up to the block at `slobfree`.
-/
theorem allocFind_segment {s : Block} {fuel prev : Nat} (hseg : Segment h.mem (as ++ [s]) z)
    (hs : s.addr = h.slobfree) (has : ∀ x ∈ as, x.addr ≠ h.slobfree)
    (hprev : (h.mem prev).next = firstAddr (as ++ [s]) z) (hfuel : as.length < fuel)
    : (∃ p, ∃ c ∈ as ++ [s], h.allocFind units fuel prev (firstAddr (as ++ [s]) z) =
          some (some (p, c.addr)) ∧ (p = prev ∨ ∃ x ∈ as, p = x.addr) ∧ units ≤ c.units ∧
          (h.mem p).next = c.addr) ∨
        h.allocFind units fuel prev (firstAddr (as ++ [s]) z) = some none ∧
          ∀ x ∈ as ++ [s], x.units < units := by
  induction as generalizing fuel prev with
  | nil =>
    obtain ⟨fuel, rfl⟩ := Nat.exists_eq_succ_of_ne_zero (Nat.ne_of_gt hfuel)
    have hcell : (h.mem s.addr).units = s.units := by rw [hseg.1]
    by_cases hroom : s.units ≥ units
    . refine .inl ⟨prev, s, by simp, ?_, .inl rfl, hroom, hprev⟩
      simp [firstAddr, allocFind, hcell, hroom]
    . refine .inr ⟨?_, ?_⟩
      . rw [hs] at hcell
        simp [firstAddr, Slob.allocFind, hs, hcell, hroom]
      . intro x hx
        have : x = s := by simpa using hx
        rw [this]
        omega
  | cons a as ih =>
    obtain ⟨fuel, rfl⟩ := Nat.exists_eq_succ_of_ne_zero (Nat.ne_of_gt (Nat.zero_lt_of_lt hfuel))
    have hcell : h.mem a.addr = { units := a.units, next := firstAddr (as ++ [s]) z } := hseg.1
    by_cases hroom : a.units ≥ units
    . refine .inl ⟨prev, a, by simp, ?_, .inl rfl, hroom, hprev⟩
      simp [firstAddr, allocFind, hcell, hroom]
    . have hne := has a List.mem_cons_self
      have hstep : h.allocFind units (fuel + 1) prev (firstAddr (a :: as ++ [s]) z) =
          h.allocFind units fuel a.addr (firstAddr (as ++ [s]) z) := by
        simp [firstAddr, allocFind, hcell, hroom, hne]
      rw [hstep]
      have hrest := @ih fuel a.addr hseg.2 (fun x hx => has x (List.mem_cons_of_mem _ hx))
        (by rw [hcell]) (by simpa using hfuel)
      rcases hrest with ⟨p, c, hc, hfind, hp, hunits, hnext⟩ | ⟨hfind, hall⟩
      . refine .inl ⟨p, c, List.mem_cons_of_mem _ hc, hfind, .inr ?_, hunits, hnext⟩
        rcases hp with rfl | ⟨x, hx, rfl⟩
        . exact ⟨a, List.mem_cons_self, rfl⟩
        . exact ⟨x, List.mem_cons_of_mem _ hx, rfl⟩
      . refine .inr ⟨hfind, ?_⟩
        intro x hx
        rcases List.mem_cons.mp hx with rfl | hx
        . omega
        . exact hall x hx

/--
The search finds a block with room and the one in front of it, or there is none.
-/
theorem FreeList.allocFind (hfl : h.FreeList fs) (hfuel : fs.length ≤ h.slobFuel)
    : (∃ p ∈ fs, ∃ c ∈ fs,
          h.allocFind units h.slobFuel h.slobfree (h.mem h.slobfree).next =
            some (some (p.addr, c.addr)) ∧ units ≤ c.units ∧ (h.mem p.addr).next = c.addr) ∨
        h.allocFind units h.slobFuel h.slobfree (h.mem h.slobfree).next = some none ∧
          ∀ x ∈ fs, x.units < units := by
  obtain ⟨s, hs, hslobfree⟩ := List.mem_map.mp hfl.slobfree
  obtain ⟨before, behind, rfl⟩ := List.append_of_mem hs
  -- the round begins behind s and ends with s
  have hmem : ∀ x, x ∈ before ++ s :: behind ↔ x ∈ (behind ++ before) ++ [s] := by
    intro x
    simp only [List.mem_append, List.mem_cons, List.not_mem_nil, or_false]
    tauto
  have hring : Ring h.mem ((behind ++ before) ++ [s]) := by
    have : Ring h.mem ((s :: behind) ++ before) := hfl.ring.rotate
    exact @Ring.rotate _ [s] _ this
  have hnotMem : ∀ x ∈ behind ++ before, x.addr ≠ h.slobfree := by
    intro x hx heq
    have hnodup := hfl.nodup
    rw [List.map_append, List.map_cons, List.nodup_append_comm, List.cons_append, List.nodup_cons,
      ← List.map_append] at hnodup
    apply hnodup.1
    rw [hslobfree, ← heq]
    exact List.mem_map_of_mem hx
  have hnext : (h.mem h.slobfree).next = firstAddr ((behind ++ before) ++ [s])
      (firstAddr ((behind ++ before) ++ [s]) 0) := by
    rw [← hslobfree, hring.next]
    cases behind ++ before <;> rfl
  have hlength : (behind ++ before).length < h.slobFuel := by
    simp only [List.length_append, List.length_cons] at hfuel ⊢
    omega
  rcases @allocFind_segment h _ _ units _ _ _ hring hslobfree hnotMem hnext hlength with
    ⟨p, c, hc, hfind, hp, hunits, hpc⟩ | ⟨hfind, hall⟩
  . rw [← hnext] at hfind
    rcases hp with rfl | ⟨x, hx, rfl⟩
    . exact .inl ⟨s, (hmem s).mpr (by simp), c, (hmem c).mpr hc, by rw [hslobfree]; exact hfind, hunits,
        by rw [hslobfree]; exact hpc⟩
    . exact .inl ⟨x, (hmem x).mpr (List.mem_append_left _ hx), c, (hmem c).mpr hc, hfind, hunits, hpc⟩
  . rw [← hnext] at hfind
    exact .inr ⟨hfind, fun x hx => hall x ((hmem x).mp hx)⟩

/--
What is left of a block in the free list when its first `units` are taken.
-/
def rest (c : Block) (units : Nat) : List Block :=
  if c.units = units then [] else [⟨c.addr + units, c.units - units⟩]

theorem allocAt_ring {p : Block} (hring : Ring h.mem (p :: c :: bs))
    (hnodup : ((p :: c :: bs).map (·.addr)).Nodup)
    (htail : c.units ≠ units → c.addr + units ∉ (p :: c :: bs).map (·.addr))
    : Ring (h.allocAt units p.addr c.addr).mem (p :: (rest c units ++ bs)) ∧
        ((h.allocAt units p.addr c.addr).mem c.addr).units = units ∧
        ∀ x, x ≠ p.addr → x ≠ c.addr → (c.units ≠ units → x ≠ c.addr + units) →
          (h.allocAt units p.addr c.addr).mem x = h.mem x := by
  have hp : h.mem p.addr = { units := p.units, next := c.addr } := hring.1
  have hc : h.mem c.addr = { units := c.units, next := firstAddr bs p.addr } := hring.2.1
  have hbs : Segment h.mem bs p.addr := hring.2.2
  simp only [List.map_cons, List.nodup_cons, List.mem_cons, not_or] at hnodup
  obtain ⟨⟨hpc, hpbs⟩, hcbs, -⟩ := hnodup
  by_cases hexact : c.units = units
  . have hmem : (h.allocAt units p.addr c.addr).mem =
        Function.update h.mem p.addr { units := p.units, next := firstAddr bs p.addr } := by
      simp [allocAt, hc, hexact, setNext, hp]
    rw [hmem]
    refine ⟨⟨?_, ?_⟩, ?_, ?_⟩
    . simp [rest, hexact]
      rfl
    . simp only [rest, hexact, if_true, List.nil_append]
      apply hbs.congr
      intro x hx
      apply Function.update_of_ne
      exact fun heq => hpbs (heq ▸ List.mem_map_of_mem hx)
    . rw [Function.update_of_ne (Ne.symm hpc), hc, hexact]
    . intro x hx _ _
      exact Function.update_of_ne hx _ _
  . have htail := htail hexact
    simp only [List.map_cons, List.mem_cons, not_or] at htail
    obtain ⟨htp, htc, htbs⟩ := htail
    have hmem : ∀ x, (h.allocAt units p.addr c.addr).mem x =
        if x = c.addr then { units, next := firstAddr bs p.addr }
        else if x = c.addr + units then { units := c.units - units, next := firstAddr bs p.addr }
        else if x = p.addr then { units := p.units, next := c.addr + units }
        else h.mem x := by
      intro x
      simp only [allocAt, hc, hexact, if_false, setNext, setUnits, Function.update_apply, hp,
        Ne.symm hpc, Ne.symm htc, htp, if_true]
      split <;> (try split) <;> (try split) <;> simp_all
    have hrest : rest c units = [⟨c.addr + units, c.units - units⟩] := if_neg hexact
    rw [hrest]
    refine ⟨⟨?_, ?_, ?_⟩, ?_, ?_⟩
    . rw [hmem, if_neg hpc, if_neg (Ne.symm htp), if_pos rfl]
      rfl
    . simp only
      rw [hmem, if_neg htc, if_pos rfl]
      rfl
    . apply hbs.congr
      intro x hx
      have hxc : x.addr ≠ c.addr := fun heq => hcbs (heq ▸ List.mem_map_of_mem hx)
      have hxp : x.addr ≠ p.addr := fun heq => hpbs (heq ▸ List.mem_map_of_mem hx)
      have hxt : x.addr ≠ c.addr + units := fun heq => htbs (heq ▸ List.mem_map_of_mem hx)
      rw [hmem, if_neg hxc, if_neg hxt, if_neg hxp]
    . rw [hmem, if_pos rfl]
    . intro x hxp hxc hxt
      rw [hmem, if_neg hxc, if_neg (hxt hexact), if_neg hxp]

/--
The block behind `p` comes behind it in the list, or it is the first one and `p` the last one.
-/
theorem FreeList.next_cases {p : Block} (hfl : h.FreeList (as ++ c :: cs)) (hp : p ∈ as ++ c :: cs)
    (hne : p ≠ c) (hnext : (h.mem p.addr).next = c.addr)
    : (∃ bs, as = bs ++ [p]) ∨ as = [] ∧ ∃ bs, cs = bs ++ [p] := by
  have hc : c ∈ as ++ c :: cs := by simp
  have hnodup := hfl.nodup
  obtain ⟨pre, post, hsplit⟩ := List.append_of_mem hp
  have hring := hfl.ring
  rw [hsplit] at hring
  rw [hring.next] at hnext
  cases post with
  | cons q post =>
    have hq : q = c := hfl.addr_inj (by simp [hsplit]) hc hnext
    subst hq
    have hsplit' : as ++ q :: cs = (pre ++ [p]) ++ q :: post := by simpa using hsplit
    obtain ⟨rfl, -, -⟩ := split_unique hnodup hsplit' rfl
    exact .inl ⟨pre, rfl⟩
  | nil =>
    cases pre with
    | nil => exact absurd (hfl.addr_inj hp hc hnext) hne
    | cons q pre =>
      have hq : q = c := hfl.addr_inj (by simp [hsplit]) hc hnext
      subst hq
      have hsplit' : as ++ q :: cs = [] ++ q :: (pre ++ [p]) := by simpa using hsplit
      obtain ⟨rfl, -, rfl⟩ := split_unique hnodup hsplit' rfl
      exact .inr ⟨rfl, pre, rfl⟩

/--
A block that leads to itself is alone.
-/
theorem FreeList.next_self (hfl : h.FreeList fs) (hc : c ∈ fs)
    (hnext : (h.mem c.addr).next = c.addr)
    : fs = [c] := by
  obtain ⟨pre, post, rfl⟩ := List.append_of_mem hc
  have hnodup := hfl.nodup
  rw [List.map_append, List.map_cons, List.nodup_append_comm, List.cons_append, List.nodup_cons,
    List.mem_append, not_or] at hnodup
  rw [hfl.ring.next] at hnext
  cases post with
  | cons q post => exact absurd (by simp [← show q.addr = c.addr from hnext]) hnodup.1.1
  | nil =>
    cases pre with
    | nil => rfl
    | cons q pre => exact absurd (by simp [← show q.addr = c.addr from hnext]) hnodup.1.2

/--
`slob_alloc` takes the first units of a block with room out of the free list.
-/
theorem FreeList.allocAt {p : Block} (hfl : h.FreeList (as ++ c :: cs)) (hp : p ∈ as ++ c :: cs)
    (hne : p ≠ c) (hnext : (h.mem p.addr).next = c.addr) (hunits : units ≤ c.units)
    (hpos : 0 < units)
    : (h.allocAt units p.addr c.addr).FreeList (as ++ (rest c units ++ cs)) ∧
        ((h.allocAt units p.addr c.addr).mem c.addr).units = units ∧
        ∀ x, x ≠ p.addr → x ≠ c.addr → (c.units ≠ units → x ≠ c.addr + units) →
          (h.allocAt units p.addr c.addr).mem x = h.mem x := by
  have hspaced := hfl.spaced
  obtain ⟨has, hccs, hcross⟩ := List.pairwise_append.mp hspaced
  obtain ⟨hc, hcs⟩ := List.pairwise_cons.mp hccs
  have htail : c.units ≠ units → c.addr + units ∉ (as ++ c :: cs).map (·.addr) := by
    intro hexact hmem
    obtain ⟨d, hd, heq⟩ := List.mem_map.mp hmem
    simp only [List.mem_append, List.mem_cons] at hd
    rcases hd with hd | rfl | hd
    . have := hcross d hd c List.mem_cons_self
      simp only [Block.stop] at this
      omega
    . omega
    . have := hc d hd
      simp only [Block.stop] at this
      omega
  have hslobfree : (h.allocAt units p.addr c.addr).slobfree = p.addr := rfl
  have hrest : ∀ d ∈ rest c units, d.stop = c.stop ∧ c.addr ≤ d.addr ∧ 0 < d.units := by
    intro d hd
    unfold rest at hd
    split at hd
    . contradiction
    . rw [List.mem_singleton] at hd
      subst hd
      simp only [Block.stop]
      omega
  have hspaced' : Block.Spaced (as ++ (rest c units ++ cs)) := by
    refine List.pairwise_append.mpr ⟨has, List.pairwise_append.mpr ⟨?_, hcs, ?_⟩, ?_⟩
    . unfold rest
      split <;> simp
    . intro d hd e he
      rw [(hrest d hd).1]
      exact hc e he
    . intro d hd e he
      rcases List.mem_append.mp he with he | he
      . exact Nat.lt_of_lt_of_le (hcross d hd c List.mem_cons_self) (hrest e he).2.1
      . exact hcross d hd e (List.mem_cons_of_mem _ he)
  have hpos' : ∀ d ∈ as ++ (rest c units ++ cs), 0 < d.units := by
    intro d hd
    simp only [List.mem_append] at hd
    rcases hd with hd | hd | hd
    . exact hfl.pos d (by simp [hd])
    . exact (hrest d hd).2.2
    . exact hfl.pos d (by simp [hd])
  have hnodup := hfl.nodup
  rcases hfl.next_cases hp hne hnext with ⟨bs, rfl⟩ | ⟨rfl, bs, rfl⟩
  . have hperm : (p :: c :: (cs ++ bs)).Perm ((bs ++ [p]) ++ c :: cs) := by
      rw [List.append_assoc]
      exact @List.perm_append_comm _ (p :: c :: cs) bs
    have hring : Ring h.mem (p :: c :: (cs ++ bs)) := by
      have := hfl.ring
      rw [List.append_assoc] at this
      exact this.rotate
    obtain ⟨hring', hcell, hframe⟩ := allocAt_ring hring ((hperm.map _).nodup_iff.mpr hnodup)
      fun hexact hmem => htail hexact ((hperm.map _).mem_iff.mp hmem)
    refine ⟨⟨?_, ?_, hspaced', hpos'⟩, hcell, hframe⟩
    . rw [← List.append_assoc, ← List.cons_append] at hring'
      have := hring'.rotate
      simpa using this
    . rw [hslobfree]
      simp
  . have hperm : (p :: c :: bs).Perm ([] ++ c :: (bs ++ [p])) :=
      (List.perm_append_singleton p (c :: bs)).symm
    have hring : Ring h.mem (p :: c :: bs) := @Ring.rotate _ (c :: bs) [p] hfl.ring
    obtain ⟨hring', hcell, hframe⟩ := allocAt_ring hring ((hperm.map _).nodup_iff.mpr hnodup)
      fun hexact hmem => htail hexact ((hperm.map _).mem_iff.mp hmem)
    refine ⟨⟨?_, ?_, hspaced', hpos'⟩, hcell, hframe⟩
    . have := @Ring.rotate _ [p] _ hring'
      simpa using this
    . rw [hslobfree]
      simp

end Alloc

end Slob
end Ucore

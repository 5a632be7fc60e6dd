import Ucore.Lab2.Buddy.Runs

/-!
This module contains when `buddy_alloc_pages` of lab2 has a block for a request, and what its result tells the
caller: the offset of the block, or `0`, which is the offset of the first page.
-/

namespace Ucore

open BuddyTree

namespace BuddyRun

/--
There is a free block of the smallest power of two that is not less than `n`.
-/
def Fits (c : BuddyRun) (n : Nat) : Prop :=
  ∃ x, c.FreeBlock x ∧ x.1 + x.2 ≤ c.buddy.totalSize ∧ x.2 = 2 ^ Nat.clog 2 n

/--
The states that the calls of clients lead to from `s`.
-/
def Reached (s : Buddy) (c : BuddyRun) : Prop :=
  ∃ calls, Run.Admits step Legal ⟨s, []⟩ calls ∧ Run.exec step ⟨s, []⟩ calls = some c

/--
A request is served exactly if there is a block for it, with the offset of a free block. Otherwise nothing changes,
and the result is not that of any request that is served.
-/
structure SaysSo (s : Buddy) (c : BuddyRun) (n : Nat) : Prop where
  served : c.Fits n → ∃ offset s', c.buddy.buddyAllocPages n = some (offset, s') ∧
    c.step (.allocPages n) = some ⟨s', (offset, n) :: c.live⟩ ∧ c.FreeBlock (offset, 2 ^ Nat.clog 2 n) ∧
    offset + 2 ^ Nat.clog 2 n ≤ c.buddy.totalSize ∧ s'.nrFree + 2 ^ Nat.clog 2 n = c.buddy.nrFree
  refused : ¬c.Fits n → ∃ result, c.buddy.buddyAllocPages n = some (result, c.buddy) ∧
    c.step (.allocPages n) = some c ∧
    ∀ c' n' offset s', Reached s c' → 1 ≤ n' → c'.Fits n' → c'.buddy.buddyAllocPages n' = some (offset, s') →
      result ≠ offset

variable {s : Buddy} {c : BuddyRun} {m n base : Nat}

theorem range_zero (s : Buddy) : s.range 0 = (0, s.totalSize) := by
  simp [Buddy.range]

/--
A part of a free block is free.
-/
theorem FreeBlock.anti {x : Nat × Nat} (hx : c.FreeBlock x) {k : Nat} (hk : 2 ^ k ≤ x.2)
    : c.FreeBlock (x.1, 2 ^ k) := by
  obtain ⟨q, hq⟩ := hx.pow
  rw [hq] at hk
  have hkq := (Nat.pow_le_pow_iff_right (by omega)).mp hk
  refine ⟨⟨k, rfl⟩, (Nat.pow_dvd_pow 2 hkq).trans (hq ▸ hx.dvd), ?_⟩
  intro b hb
  have happart := hx.apart b hb
  simp only [Apart, hq] at happart ⊢
  omega

/--
The capacity of the root tells whether there is a block.
-/
theorem fits_iff (h : c.Invariant) (hpos : 0 < c.buddy.totalSize) (hn : 1 ≤ n)
    : c.Fits n ↔ n ≤ c.buddy.nodeCapacity 0 := by
  have hindex : 0 < 2 * c.buddy.totalSize - 1 := by omega
  have hle : n ≤ 2 ^ Nat.clog 2 n := Nat.le_pow_clog (by omega) n
  by_cases hroot : ∃ b ∈ c.live, Within (c.buddy.range 0) (block b)
  . obtain ⟨b, hb, hwithin⟩ := hroot
    have hcap := h.within 0 hindex b hb hwithin
    rw [range_zero] at hwithin hcap
    have hinside := h.inside b hb
    have hrange : (0, c.buddy.totalSize) = block b := by
      simp only [Within] at hwithin
      exact Prod.ext (by simp only; omega) (by simp only; omega)
    rw [if_pos hrange] at hcap
    constructor
    . rintro ⟨x, hx, hxle, hsize⟩
      have happart := hx.apart b hb
      rw [← hrange] at happart
      simp only [Apart] at happart
      omega
    . omega
  . have hroot : ∀ b ∈ c.live, ¬Within (c.buddy.range 0) (block b) :=
      fun b hb hwithin => hroot ⟨b, hb, hwithin⟩
    obtain ⟨hmax, hexists⟩ := h.outside 0 hindex hroot
    rw [range_zero] at hmax hexists
    constructor
    . rintro ⟨x, hx, hxle, hsize⟩
      have := hmax x hx ⟨Nat.zero_le _, by simp only; omega⟩
      omega
    . intro hcap
      obtain ⟨x, hx, hwithin, hsize⟩ := hexists (by omega)
      obtain ⟨q, hq⟩ := hx.pow
      have hclog : Nat.clog 2 n ≤ q := (Nat.clog_le_iff_le_pow (by omega)).mpr (by omega)
      have hpow : 2 ^ Nat.clog 2 n ≤ x.2 := hq ▸ Nat.pow_le_pow_right (by omega) hclog
      refine ⟨(x.1, 2 ^ Nat.clog 2 n), hx.anti hpow, ?_, rfl⟩
      simp only [Within] at hwithin ⊢
      omega

theorem convert2PowOf2_clog (hn : 1 ≤ n) (hle : n ≤ 2 ^ 31) : Buddy.convert2PowOf2 n = 2 ^ Nat.clog 2 n := by
  obtain ⟨q, hq, hnq, hqn⟩ := Buddy.convert2PowOf2_spec hn hle
  have hclog : Nat.clog 2 n ≤ q := (Nat.clog_le_iff_le_pow (by omega)).mpr hnq
  have hpow : n ≤ 2 ^ Nat.clog 2 n := Nat.le_pow_clog (by omega) n
  have hq' : q < Nat.clog 2 n + 1 := by
    refine (Nat.pow_lt_pow_iff_right (a := 2) (by omega)).mp ?_
    rw [Nat.pow_succ]
    omega
  rw [hq, show q = Nat.clog 2 n by omega]

/--
What a request with a block gets.
-/
theorem Managed.served (hm : 2 ^ (m + 1) ≤ Buddy.nodes) (h : c.Managed m) (hn : 1 ≤ n)
    (hroot : n ≤ c.buddy.nodeCapacity 0)
    : ∃ offset s', c.buddy.buddyAllocPages n = some (offset, s') ∧
        c.step (.allocPages n) = some ⟨s', (offset, n) :: c.live⟩ ∧ c.FreeBlock (offset, 2 ^ Nat.clog 2 n) ∧
        offset + 2 ^ Nat.clog 2 n ≤ c.buddy.totalSize ∧ s'.nrFree + 2 ^ Nat.clog 2 n = c.buddy.nrFree := by
  obtain ⟨offset, k, s', halloc, htotal, hplaced, hstored, hpow, hnrFree⟩ :=
    h.placed.allocPages hm h.total h.stored hn hroot
  have hten := Buddy.height_lt hm
  have hcap : n ≤ 2 ^ 31 := by
    have hcap : c.buddy.nodeCapacity 0 = capacity (used m c.live) m 1 := h.stored 0 m 1 (by omega) (by simp) (by simp)
    have hle := @capacity_le (used m c.live) m 1
    have : 2 ^ m ≤ 2 ^ 31 := Nat.pow_le_pow_right (by omega) (by omega)
    omega
  have hk : 2 ^ k = 2 ^ Nat.clog 2 n := by
    have hconvert := hpow
    rw [block, Prod.mk.injEq] at hconvert
    rw [← convert2PowOf2_clog hn hcap, hconvert.2]
  obtain ⟨l, k', hblock⟩ := hplaced.isBlock (offset, n) List.mem_cons_self
  have hle := hblock.le
  have hdvd := hblock.dvd
  rw [hpow] at hle hdvd
  rw [hk] at hpow hnrFree hle hdvd
  have hsum := hplaced.sum_le
  have hold := h.nrFree
  have hsmall : 2 ^ m < 2 ^ 32 := Nat.pow_lt_pow_right (by omega) (by omega)
  rw [← h.total] at hle
  refine ⟨offset, s', halloc, ?_, ⟨⟨_, rfl⟩, hdvd, ?_⟩, hle, ?_⟩
  . simp only [BuddyRun.step, halloc, Option.bind_eq_bind, Option.bind_some, if_neg (Nat.not_lt.mpr hroot)]
    rfl
  . intro b hb
    have := (List.pairwise_cons.mp hplaced.apart).1 b hb
    rwa [hpow] at this
  . simp only [List.map_cons, List.sum_cons, hpow] at hsum
    have hpos := Nat.two_pow_pos (Nat.clog 2 n)
    omega

/--
A refused request gets the offset of the first page, as the first request for all pages does.
-/
theorem Managed.saysSo_iff (hstart : Managed m ⟨s, []⟩) (hm : 2 ^ (m + 1) ≤ Buddy.nodes) (h : c.Managed m) (hn : 1 ≤ n)
    : SaysSo s c n ↔ c.Fits n := by
  have htotal := Nat.two_pow_pos m
  have hfits := fits_iff h.invariant (by rw [h.total]; exact htotal) hn
  constructor
  . intro hsays
    by_contra hnot
    obtain ⟨result, halloc, -, hdiffers⟩ := hsays.refused hnot
    have hlt : c.buddy.nodeCapacity 0 < n := Nat.lt_of_not_le (mt hfits.mpr hnot)
    rw [Buddy.buddyAllocPages_of_lt hn hlt] at halloc
    obtain rfl : 0 = result := congrArg Prod.fst (Option.some_inj.mp halloc)
    have hall : Fits ⟨s, []⟩ (2 ^ m) := by
      refine ⟨(0, 2 ^ m), ⟨⟨m, rfl⟩, Nat.dvd_zero _, fun _ hb => absurd hb List.not_mem_nil⟩, ?_, ?_⟩
      . have htotal : s.totalSize = 2 ^ m := hstart.total
        dsimp only
        omega
      . rw [Nat.clog_pow 2 m (by omega)]
    have hroot := (fits_iff hstart.invariant (by rw [hstart.total]; exact htotal) htotal).mp hall
    obtain ⟨offset, s', halloc', -, -, hle, -⟩ := hstart.served hm htotal hroot
    rw [Nat.clog_pow 2 m (by omega), hstart.total] at hle
    exact hdiffers ⟨s, []⟩ (2 ^ m) offset s' ⟨[], trivial, rfl⟩ htotal hall halloc' (by omega)
  . intro hfit
    exact ⟨fun _ => h.served hm hn (hfits.mp hfit), fun hnot => absurd hfit hnot⟩

/--
`buddy_alloc_pages` tells its caller the truth exactly if there is a block for the request.
-/
theorem buddy_alloc_pages_says_so_iff (hm : 2 * 2 ^ m - 1 ≤ Buddy.nodes)
    (hres : ∀ p, base ≤ p → p < base + 2 ^ m → (s.pages p).reserved = true)
    : ∃ s', s.buddyInitMemmap base (2 ^ m) = some s' ∧
        ∀ c, Reached s' c → ∀ n, 1 ≤ n → (SaysSo s' c n ↔ c.Fits n) := by
  have hm := Buddy.nodes_of_le hm
  obtain ⟨s', hinit, htotal, hstored, hnrFree⟩ := Buddy.buddyInitMemmap_spec hm hres
  have hstart := managed_init htotal hstored hnrFree
  refine ⟨s', hinit, ?_⟩
  rintro c ⟨calls, hlegal, hexec⟩ n hn
  obtain ⟨c', hexec', h⟩ := Run.exists_exec_of_admits (I := Managed m) (fun c call h => h.step hm) hstart hlegal
  obtain rfl := Option.some_inj.mp (hexec'.symm.trans hexec)
  exact hstart.saysSo_iff hm h hn

theorem buddy_alloc_pages_says_so_iff_reservedPages
    : ∃ s', reservedPages.buddyInitMemmap 0 (2 ^ 4) = some s' ∧
        ∀ c, Reached s' c → ∀ n, 1 ≤ n → (SaysSo s' c n ↔ c.Fits n) :=
  buddy_alloc_pages_says_so_iff (by decide) (fun p _ _ => reservedPages_reserved p)

/--
A request for 17 of 16 pages.
-/
theorem not_buddy_alloc_pages_says_so
    : ¬∀ s', reservedPages.buddyInitMemmap 0 (2 ^ 4) = some s' →
        ∀ c, Reached s' c → ∀ n, 1 ≤ n → SaysSo s' c n := by
  intro hall
  have hm : 2 ^ (4 + 1) ≤ Buddy.nodes := by decide
  obtain ⟨s', hinit, htotal, hstored, hnrFree⟩ :=
    @Buddy.buddyInitMemmap_spec _ _ hm 0 (fun p _ _ => reservedPages_reserved p)
  have hstart := managed_init htotal hstored hnrFree
  have hsays := hall s' hinit ⟨s', []⟩ ⟨[], trivial, rfl⟩ 17 (by omega)
  obtain ⟨x, -, hle, hsize⟩ := (hstart.saysSo_iff hm hstart (by omega)).mp hsays
  have hclog : 17 ≤ 2 ^ Nat.clog 2 17 := Nat.le_pow_clog (by omega) 17
  simp only [htotal] at hle
  omega

end BuddyRun
end Ucore

import Ucore.Kern.Mm.Vmm.UserMemCheck

/-!
This module contains `copy_string`, which copies a string of user memory page by page, with `strnlen` and `memcpy`
of libs/string.c.
-/

namespace Ucore

/--
`strnlen` at the address `s` of a memory.
-/
def strnlen (mem : Nat → BitVec 8) (s : Nat) : Nat → Nat
  | 0 => 0
  | len + 1 => if mem s = 0 then 0 else strnlen mem (s + 1) len + 1

/--
The string at `src` has `n` bytes in front of its NUL.
-/
structure StrLen (mem : Nat → BitVec 8) (src n : Nat) : Prop where
  nul : mem (src + n) = 0
  before : ∀ k < n, mem (src + k) ≠ 0

variable {mem : Nat → BitVec 8} {src n len : Nat}

theorem strnlen_le (mem : Nat → BitVec 8) (s len : Nat) : strnlen mem s len ≤ len := by
  induction len generalizing s with
  | zero => exact le_refl _
  | succ len ih =>
    rw [strnlen]
    split
    . omega
    . have := ih (s + 1)
      omega

theorem strnlen_before {s k : Nat} (hk : k < strnlen mem s len) : mem (s + k) ≠ 0 := by
  induction len generalizing s k with
  | zero => contradiction
  | succ len ih =>
    rw [strnlen] at hk
    split at hk
    . omega
    next hne =>
      cases k with
      | zero => exact hne
      | succ k =>
        have := @ih (s + 1) k (by omega)
        rwa [show s + 1 + k = s + (k + 1) by omega] at this

theorem strnlen_nul {s : Nat} (hlt : strnlen mem s len < len) : mem (s + strnlen mem s len) = 0 := by
  induction len generalizing s with
  | zero => contradiction
  | succ len ih =>
    rw [strnlen] at hlt ⊢
    split at hlt
    next h => rwa [if_pos h]
    next h =>
      rw [if_neg h]
      have := @ih (s + 1) (by omega)
      rwa [show s + (strnlen mem (s + 1) len + 1) = s + 1 + strnlen mem (s + 1) len by omega]

theorem StrLen.eq {m : Nat} (h : StrLen mem src n) (h' : StrLen mem src m) : n = m := by
  rcases lt_trichotomy n m with hlt | heq | hlt
  . exact absurd h.nul (h'.before n hlt)
  . exact heq
  . exact absurd h'.nul (h.before m hlt)

namespace MmStruct

/--
What `copy_string` does to the memory of the user and to `dst`, whose bytes are counted from its start.
-/
inductive CopyEvent where
  | check (src len : Nat) (ok : Bool)
  | read (src len : Nat)
  | write (dst len : Nat)

/--
The events are those of the past, the last one first.
-/
structure CopyState where
  mm : Option MmStruct
  dst : Nat → BitVec 8
  events : List CopyEvent

namespace CopyState

def check (s : CopyState) (src len : Nat) : Bool × CopyState :=
  let (ok, mm) := userMemCheck s.mm src len false
  (ok, { s with mm, events := .check src len ok :: s.events })

def reads (s : CopyState) (src len : Nat) : CopyState := { s with events := .read src len :: s.events }

/--
`memcpy` to `dst + off`.
-/
def memcpy (s : CopyState) (mem : Nat → BitVec 8) (off src n : Nat) : CopyState where
  mm := s.mm
  dst := fun k => if off ≤ k ∧ k < off + n then mem (src + (k - off)) else s.dst k
  events := .write off n :: .read src n :: s.events

theorem check_pos {s : CopyState} (hcheck : (s.check src len).1 = true) : 0 < len := by
  have hle := Nat.mod_le (src + len) (2 ^ 64)
  cases hmm : s.mm with
  | none =>
    simp only [check, userMemCheck, hmm, decide_eq_true_eq] at hcheck
    have := hcheck.2.1
    omega
  | some mm =>
    simp only [check, userMemCheck, hmm] at hcheck
    split at hcheck
    next haccess =>
      have := haccess.2.1
      omega
    next => contradiction

end CopyState

/--
The loop of `copy_string`, which has come to the offset `off` of `dst`. Each round that goes on makes `maxn` smaller,
for a part that has passed the check is not empty. A part that has passed does not wrap around.
-/
def copyStringLoop (mem : Nat → BitVec 8) (s : CopyState) (off src maxn part : Nat) : Bool × CopyState :=
  let part := if part > maxn then maxn else part
  match hcheck : s.check src part with
  | (false, s) => (false, s)
  | (true, s) =>
    let alen := strnlen mem src part
    let s := s.reads src (min (alen + 1) part)
    if alen < part then
      (true, s.memcpy mem off src (alen + 1))
    else if hpart : part = maxn then
      (false, s)
    else
      copyStringLoop mem (s.memcpy mem off src part) (off + part) (src + part) (maxn - part) pgsize
  termination_by maxn
  decreasing_by
    have hpos := CopyState.check_pos (congrArg Prod.fst hcheck)
    have hle : part ≤ maxn := by
      simp only [part]
      split <;> omega
    omega

def copyString (mm : Option MmStruct) (mem dst : Nat → BitVec 8) (src maxn : Nat) : Bool × CopyState :=
  let part := ((src + pgsize) % 2 ^ 64 / pgsize * pgsize + 2 ^ 64 - src) % 2 ^ 64
  copyStringLoop mem ⟨mm, dst, []⟩ 0 src maxn part

/--
The address space is in order, if there is one.
-/
def CopyState.Ok (s : CopyState) : Prop := ∀ mm ∈ s.mm, mm.Ok

/--
A byte that the check lets pass: of an area that can be read, or of the kernel where there is no address space.
-/
def Readable : Option MmStruct → Nat → Prop
  | some mm, la => mm.Permits false la
  | none, la => kernBase ≤ la ∧ la < kernTop

/--
Each byte that is read has been checked before.
-/
def ReadsChecked : List CopyEvent → Prop
  | [] => True
  | .read src len :: past =>
    (∀ la, src ≤ la → la < src + len → ∃ a n, .check a n true ∈ past ∧ a ≤ la ∧ la < a + n) ∧ ReadsChecked past
  | _ :: past => ReadsChecked past

namespace CopyState

variable {s : CopyState}

theorem userTop_lt : userTop < kernTop := by decide

theorem kernTop_lt : kernTop < 2 ^ 64 := by decide

theorem readable_lt {mm : Option MmStruct} (hok : ∀ m ∈ mm, m.Ok) {la : Nat} (h : Readable mm la) : la < kernTop := by
  cases mm with
  | none => exact h.2
  | some mm =>
    obtain ⟨⟨vma, hvma, hhas, -⟩, -⟩ := h
    have htop := ((hok mm rfl).areas.access vma hvma).2.2
    exact lt_trans (lt_of_lt_of_le hhas.2 htop) userTop_lt

/--
The check lets a part pass exactly when it is not empty and each byte of it can be read.
-/
theorem check_iff (hok : s.Ok) (hlen : len < 2 ^ 64)
    : (s.check src len).1 = true ↔ 0 < len ∧ ∀ la, src ≤ la → la < src + len → Readable s.mm la := by
  have hnowrap (hpos : 0 < len) (h : ∀ la, src ≤ la → la < src + len → Readable s.mm la) : src + len ≤ kernTop := by
    have := readable_lt hok (h (src + len - 1) (by omega) (by omega))
    omega
  cases hmm : s.mm with
  | none =>
    rw [hmm] at hnowrap
    simp only [check, userMemCheck, hmm, decide_eq_true_eq]
    constructor
    . rintro ⟨hbase, hlt, htop⟩
      have hnowrap : src + len < 2 ^ 64 := by
        have := kernTop_lt
        omega
      rw [Nat.mod_eq_of_lt hnowrap] at hlt htop
      exact ⟨by omega, fun la hle hla => ⟨by omega, by omega⟩⟩
    . rintro ⟨hpos, h⟩
      have hle := hnowrap hpos h
      have hbase := (h src (le_refl _) (by omega)).1
      rw [Nat.mod_eq_of_lt (lt_of_le_of_lt hle kernTop_lt)]
      exact ⟨hbase, by omega, hle⟩
  | some mm =>
    rw [hmm] at hnowrap
    have hmmOk := hok mm hmm
    have hexact := user_mem_check_exact hmmOk src len false hlen
    simp only [check, hmm]
    rw [hexact]
    constructor
    . rintro ⟨hpos, _, _, _, hareas, _⟩
      exact ⟨hpos, fun la hle hlt => ⟨hareas la hle hlt, Bool.noConfusion⟩⟩
    . rintro ⟨hpos, h⟩
      have hle := hnowrap hpos h
      have hareas := fun la hle hlt => (h la hle hlt).1
      obtain ⟨first, hfirst, hin, -⟩ := hareas src (le_refl _) (by omega)
      obtain ⟨last, hlast, hin', -⟩ := hareas (src + len - 1) (by omega) (by omega)
      have hbase := (hmmOk.areas.access first hfirst).1
      have htop := (hmmOk.areas.access last hlast).2.2
      have := hin.1
      have := hin'.2
      exact ⟨hpos, lt_of_le_of_lt hle kernTop_lt, by omega, by omega, hareas, Bool.noConfusion⟩

theorem check_mm (hok : s.Ok)
    : (s.check src len).2.Ok ∧ ∀ la, Readable (s.check src len).2.mm la ↔ Readable s.mm la := by
  cases hmm : s.mm with
  | none =>
    simp only [Ok, check, userMemCheck, hmm]
    exact ⟨by rintro _ ⟨⟩, fun _ => trivial⟩
  | some mm =>
    have hloop := @userMemLoop_spec mm src ((src + len) % 2 ^ 64) false (hok mm hmm)
    simp only [Ok, check, userMemCheck, hmm]
    split
    . refine ⟨fun m hm => ?_, fun la => permits_congr hloop.2.1⟩
      obtain rfl := Option.some_inj.mp hm
      exact hloop.1
    . exact ⟨fun m hm => hok m (hmm.trans hm), fun la => Iff.rfl⟩

end CopyState

/--
The end of the page of an address.
-/
def pageEnd (la : Nat) : Nat := (la / pgsize + 1) * pgsize

/--
There is a string of less than `maxn` bytes at `src`, and all bytes up to the end of the page with its NUL, or up to
`maxn`, can be read.
-/
def Delivers (mm : Option MmStruct) (mem : Nat → BitVec 8) (src maxn : Nat) : Prop :=
  ∃ n < maxn, StrLen mem src n ∧ ∀ la, src ≤ la → la < min (src + maxn) (pageEnd (src + n)) → Readable mm la

section Loop

variable {mm mm' : Option MmStruct} {s : CopyState} {off maxn part : Nat}

theorem delivers_congr (h : ∀ la, Readable mm' la ↔ Readable mm la)
    : Delivers mm' mem src maxn ↔ Delivers mm mem src maxn := by
  simp only [Delivers, h]

/--
The first part is among the bytes that have to be readable.
-/
theorem Delivers.first (h : Delivers mm mem src maxn) {la : Nat} (hle : src ≤ la)
    (hlt : la < src + min maxn (pageEnd src - src))
    : 0 < maxn ∧ Readable mm la := by
  obtain ⟨n, hn, -, hread⟩ := h
  refine ⟨by omega, hread la hle ?_⟩
  simp only [pageEnd, pgsize] at *
  omega

/--
The NUL is in the first part.
-/
theorem delivers_of_nul (hlt : strnlen mem src len < len) (hlen : len = min maxn (pageEnd src - src))
    (hread : ∀ la, src ≤ la → la < src + len → Readable mm la)
    : Delivers mm mem src maxn := by
  refine ⟨strnlen mem src len, by omega, ⟨strnlen_nul hlt, fun k hk => strnlen_before hk⟩, ?_⟩
  intro la hle hla
  refine hread la hle ?_
  simp only [pageEnd, pgsize] at *
  omega

/--
There is no NUL in the first part, and a rest.
-/
theorem delivers_iff_rest (hfull : ¬strnlen mem src (pageEnd src - src) < pageEnd src - src)
    (hlt : pageEnd src - src < maxn)
    (hread : ∀ la, src ≤ la → la < src + (pageEnd src - src) → Readable mm la)
    : Delivers mm mem src maxn ↔
        Delivers mm mem (src + (pageEnd src - src)) (maxn - (pageEnd src - src)) := by
  have hpos : src < pageEnd src := by
    simp only [pageEnd, pgsize]
    omega
  generalize hpart : pageEnd src - src = part at *
  have hbefore (k : Nat) (hk : k < part) : mem (src + k) ≠ 0 := @strnlen_before mem part src k (by omega)
  constructor
  . rintro ⟨n, hn, hstr, hall⟩
    have hle : part ≤ n := by
      by_contra hlt
      exact hbefore n (by omega) hstr.nul
    refine ⟨n - part, by omega, ⟨?_, ?_⟩, ?_⟩
    . rw [show src + part + (n - part) = src + n by omega]
      exact hstr.nul
    . intro k hk
      rw [Nat.add_assoc]
      exact hstr.before (part + k) (by omega)
    . intro la hle' hla
      rw [show src + part + (n - part) = src + n by omega] at hla
      exact hall la (by omega) (by omega)
  . rintro ⟨n, hn, hstr, hall⟩
    refine ⟨part + n, by omega, ⟨?_, ?_⟩, ?_⟩
    . rw [← Nat.add_assoc]
      exact hstr.nul
    . intro k hk
      by_cases hkp : k < part
      . exact hbefore k hkp
      . have := hstr.before (k - part) (by omega)
        rwa [show src + part + (k - part) = src + k by omega] at this
    . intro la hle' hla
      by_cases hlap : la < src + part
      . exact hread la hle' hlap
      . rw [← Nat.add_assoc] at hla
        exact hall la (by omega) (by omega)

/--
What the loop has done when it comes back from the offset `off`: it has written nothing outside of the next `maxn`
bytes, and after a success the string and nothing behind it.
-/
structure Copied (mem : Nat → BitVec 8) (s : CopyState) (off src maxn : Nat) (r : Bool × CopyState) : Prop where
  delivers : r.1 = true ↔ Delivers s.mm mem src maxn
  dst : ∀ k, ¬(off ≤ k ∧ k < off + maxn) → r.2.dst k = s.dst k
  string : r.1 = true → ∀ n, StrLen mem src n →
    r.2.dst = fun k => if off ≤ k ∧ k ≤ off + n then mem (src + (k - off)) else s.dst k
  writes : ∀ d l, .write d l ∈ r.2.events → .write d l ∈ s.events ∨
    off ≤ d ∧ d + l ≤ off + maxn ∧ (r.1 = true → ∀ n, StrLen mem src n → d + l ≤ off + n + 1)
  reads : ReadsChecked s.events → ReadsChecked r.2.events

variable {r : Bool × CopyState}

theorem mem_check_events {d l : Nat} (h : .write d l ∈ (s.check src len).2.events) : .write d l ∈ s.events := by
  simpa [CopyState.check] using h

theorem mem_reads_events {d l : Nat} (h : .write d l ∈ ((s.check src len).2.reads src n).events)
    : .write d l ∈ s.events := by
  simpa [CopyState.reads, CopyState.check] using h

/--
The bytes that a check has let pass may be read.
-/
theorem readsChecked_reads (hcheck : (s.check src len).1 = true) (hn : n ≤ len) (h : ReadsChecked s.events)
    : ReadsChecked ((s.check src len).2.reads src n).events := by
  have hpast : (s.check src len).2.events = .check src len true :: s.events := by
    rw [← hcheck]
    rfl
  simp only [CopyState.reads, hpast]
  exact ⟨fun la hle hlt => ⟨src, len, List.mem_cons_self, hle, by omega⟩, h⟩

theorem readsChecked_memcpy {m : Nat} (hcheck : (s.check src len).1 = true) (hn : n ≤ len) (hm : m ≤ len)
    (h : ReadsChecked s.events)
    : ReadsChecked (((s.check src len).2.reads src n).memcpy mem off src m).events := by
  have hpast : (s.check src len).2.events = .check src len true :: s.events := by
    rw [← hcheck]
    rfl
  have hreads := readsChecked_reads hcheck hn h
  simp only [CopyState.memcpy, CopyState.reads, hpast] at hreads ⊢
  refine ⟨fun la hle hlt => ⟨src, len, ?_, hle, by omega⟩, hreads⟩
  exact List.mem_cons_of_mem _ List.mem_cons_self

theorem copied_refused (hok : s.Ok) (hmaxn : maxn < 2 ^ 64) (hlen : len = min maxn (pageEnd src - src))
    (hcheck : (s.check src len).1 = false)
    : Copied mem s off src maxn (false, (s.check src len).2) := by
  have hnot : ¬Delivers s.mm mem src maxn := by
    intro h
    have hpass : (s.check src len).1 = true := by
      refine (CopyState.check_iff hok (by omega)).mpr ⟨?_, ?_⟩
      . obtain ⟨n, hn, -⟩ := h
        simp only [hlen, pageEnd, pgsize]
        omega
      . intro la hle hlt
        exact (h.first hle (by omega)).2
    rw [hcheck] at hpass
    contradiction
  exact ⟨by simpa using hnot, fun _ _ => rfl, Bool.noConfusion, fun d l hw => .inl (mem_check_events hw), fun h => h⟩

theorem copied_string (hok : s.Ok) (hmaxn : maxn < 2 ^ 64) (hlen : len = min maxn (pageEnd src - src))
    (hcheck : (s.check src len).1 = true) (hlt : strnlen mem src len < len) (hn : n ≤ len)
    : Copied mem s off src maxn
        (true, ((s.check src len).2.reads src n).memcpy mem off src (strnlen mem src len + 1)) := by
  have hread := ((CopyState.check_iff hok (by omega)).mp hcheck).2
  have hstr : StrLen mem src (strnlen mem src len) := ⟨strnlen_nul hlt, fun k hk => strnlen_before hk⟩
  refine ⟨?_, ?_, ?_, ?_, ?_⟩
  . simpa using delivers_of_nul hlt hlen hread
  . intro k hk
    exact if_neg (by omega)
  . intro _ m hm
    obtain rfl := hm.eq hstr
    funext k
    simp only [CopyState.memcpy, CopyState.reads, CopyState.check]
    simp only [← Nat.add_assoc, Nat.lt_succ_iff]
  . intro d l hw
    rcases List.mem_cons.mp hw with heq | hw
    . cases heq
      refine .inr ⟨le_refl _, by omega, ?_⟩
      intro _ m hm
      rw [hm.eq hstr, Nat.add_assoc]
    . exact .inl (mem_reads_events ((List.mem_cons.mp hw).resolve_left nofun))
  . intro h
    exact readsChecked_memcpy hcheck hn (by omega) h

/--
The limit is reached without a NUL.
-/
theorem copied_tooLong (hcheck : (s.check src maxn).1 = true)
    (hfull : ¬strnlen mem src maxn < maxn) (hn : n ≤ maxn)
    : Copied mem s off src maxn (false, (s.check src maxn).2.reads src n) := by
  have hnot : ¬Delivers s.mm mem src maxn := by
    intro ⟨m, hm, hstr, _⟩
    exact @strnlen_before mem maxn src m (by omega) hstr.nul
  exact ⟨by simpa using hnot, fun _ _ => rfl, Bool.noConfusion, fun d l hw => .inl (mem_reads_events hw),
    readsChecked_reads hcheck hn⟩

/--
A part without a NUL has been copied, and the loop does the rest.
-/
theorem copied_rest (hok : s.Ok) (hlen : len = pageEnd src - src) (hlt : len < maxn) (hmaxn : maxn < 2 ^ 64)
    (hcheck : (s.check src len).1 = true) (hfull : ¬strnlen mem src len < len) (hn : n ≤ len)
    (hrest : Copied mem (((s.check src len).2.reads src n).memcpy mem off src len) (off + len) (src + len)
      (maxn - len) r)
    : Copied mem s off src maxn r := by
  have hread := ((CopyState.check_iff hok (by omega)).mp hcheck).2
  have hdelivers : Delivers s.mm mem src maxn ↔
      Delivers ((s.check src len).2).mm mem (src + len) (maxn - len) := by
    rw [delivers_congr (CopyState.check_mm hok).2]
    subst hlen
    exact delivers_iff_rest hfull hlt hread
  have hshift {m : Nat} (hm : StrLen mem src m) : len ≤ m ∧ StrLen mem (src + len) (m - len) := by
    have hle : len ≤ m := by
      by_contra hlt
      exact @strnlen_before mem len src m (by omega) hm.nul
    refine ⟨hle, ?_, ?_⟩
    . rw [show src + len + (m - len) = src + m by omega]
      exact hm.nul
    . intro k hk
      rw [Nat.add_assoc]
      exact hm.before (len + k) (by omega)
  refine ⟨hrest.delivers.trans hdelivers.symm, ?_, ?_, ?_, ?_⟩
  . intro k hk
    rw [hrest.dst k (by omega)]
    exact if_neg (by omega)
  . intro hr m hm
    obtain ⟨hle, hm'⟩ := hshift hm
    rw [hrest.string hr _ hm']
    funext k
    simp only [CopyState.memcpy, CopyState.reads, CopyState.check]
    by_cases hk : off + len ≤ k
    . by_cases hkm : k ≤ off + m
      . rw [if_pos (by omega), if_pos (by omega)]
        congr 1
        omega
      . rw [if_neg (by omega), if_neg (by omega), if_neg (by omega)]
    . rw [if_neg (by omega)]
      by_cases hko : off ≤ k
      . rw [if_pos (by omega), if_pos (by omega)]
      . rw [if_neg (by omega), if_neg (by omega)]
  . intro d l hw
    rcases hrest.writes d l hw with hw | ⟨hle, hend, hstop⟩
    . rcases List.mem_cons.mp hw with heq | hw
      . cases heq
        refine .inr ⟨le_refl _, by omega, ?_⟩
        intro _ m hm
        have := (hshift hm).1
        omega
      . exact .inl (mem_reads_events ((List.mem_cons.mp hw).resolve_left nofun))
    . refine .inr ⟨by omega, by omega, ?_⟩
      intro hr m hm
      obtain ⟨hle, hm'⟩ := hshift hm
      have := hstop hr _ hm'
      omega
  . intro h
    exact hrest.reads (readsChecked_memcpy hcheck hn (le_refl _) h)

theorem copyStringLoop_copied (hok : s.Ok) (hmaxn : maxn < 2 ^ 64) (hpart : part = pageEnd src - src)
    : Copied mem s off src maxn (copyStringLoop mem s off src maxn part) := by
  induction maxn using Nat.strong_induction_on generalizing s off src part with
  | _ maxn ih =>
    have hlen : (if part > maxn then maxn else part) = min maxn (pageEnd src - src) := by
      rw [hpart]
      split <;> omega
    rw [copyStringLoop]
    dsimp only
    generalize (if part > maxn then maxn else part) = len at hlen ⊢
    split
    next s₁ hcheck =>
      have hcopied := @copied_refused mem src len s off maxn hok hmaxn hlen (congrArg Prod.fst hcheck)
      rwa [hcheck] at hcopied
    next s₁ hcheck =>
      have hpass : (s.check src len).1 = true := congrArg Prod.fst hcheck
      have hpos := CopyState.check_pos hpass
      obtain rfl : (s.check src len).2 = s₁ := congrArg Prod.snd hcheck
      have hn : min (strnlen mem src len + 1) len ≤ len := Nat.min_le_right _ _
      split
      next hlt => exact copied_string hok hmaxn hlen hpass hlt hn
      next hfull =>
        split
        next heq =>
          obtain rfl : len = maxn := heq
          exact copied_tooLong hpass hfull hn
        next hne =>
          have hlen : len = pageEnd src - src := by omega
          refine copied_rest hok hlen (by omega) hmaxn hpass hfull hn ?_
          refine ih (maxn - len) (by omega) ?_ (by omega) ?_
          . exact (CopyState.check_mm hok).1
          . simp only [hlen, pageEnd, pgsize]
            omega

end Loop

theorem firstPart_eq (hsrc : src < 2 ^ 64)
    : ((src + pgsize) % 2 ^ 64 / pgsize * pgsize + 2 ^ 64 - src) % 2 ^ 64 = pageEnd src - src := by
  simp only [pageEnd, pgsize]
  by_cases hlt : src + 4096 < 2 ^ 64
  . rw [Nat.mod_eq_of_lt hlt]
    omega
  . rw [show (src + 4096) % 2 ^ 64 = src + 4096 - 2 ^ 64 by omega]
    omega

/--
`copy_string` succeeds exactly when there is a string of less than `maxn` bytes whose pages can be read. Then `dst`
holds the string and is unchanged behind it. No run writes behind the first `maxn` bytes of `dst`, or reads a byte
before it has been checked.
-/
theorem copy_string_exact (mm : Option MmStruct) (hok : ∀ m ∈ mm, m.Ok) (mem dst : Nat → BitVec 8) (src maxn : Nat)
    (hsrc : src < 2 ^ 64) (hmaxn : maxn < 2 ^ 64)
    : let r := copyString mm mem dst src maxn
      (r.1 = true ↔ Delivers mm mem src maxn) ∧
        (r.1 = true → ∀ n, StrLen mem src n → r.2.dst = fun k => if k ≤ n then mem (src + k) else dst k) ∧
        (∀ k, maxn ≤ k → r.2.dst k = dst k) ∧
        (∀ d l, .write d l ∈ r.2.events →
          d + l ≤ maxn ∧ (r.1 = true → ∀ n, StrLen mem src n → d + l ≤ n + 1)) ∧
        ReadsChecked r.2.events := by
  intro r
  have hr : r = copyStringLoop mem ⟨mm, dst, []⟩ 0 src maxn (pageEnd src - src) := by
    rw [← firstPart_eq hsrc]
    rfl
  have hcopied := @copyStringLoop_copied mem src ⟨mm, dst, []⟩ 0 maxn _ hok hmaxn rfl
  rw [← hr] at hcopied
  refine ⟨hcopied.delivers, ?_, ?_, ?_, hcopied.reads trivial⟩
  . intro hret n hn
    rw [hcopied.string hret n hn]
    simp
  . intro k hk
    exact hcopied.dst k (by omega)
  . intro d l hw
    have hwrite := (hcopied.writes d l hw).resolve_left List.not_mem_nil
    simpa using hwrite.2

/--
A string of three bytes that goes from the code over to the stack.
-/
theorem copy_string_exact_codeAndStack
    : (copyString (some codeAndStack) (fun la => if la = 0x401001 then 0 else 1) (fun _ => 0) 0x400ffe 16).1 = true := by
  have hexact := copy_string_exact (some codeAndStack) (fun m hm => Option.some_inj.mp hm ▸ codeAndStack_ok)
    (fun la => if la = 0x401001 then 0 else 1) (fun _ => 0) 0x400ffe 16 (by decide) (by decide)
  refine hexact.1.mpr ⟨3, by decide, ⟨by decide, by decide⟩, ?_⟩
  intro la hle hlt
  have hlt : la < 0x40100e := lt_of_lt_of_le hlt (Nat.min_le_left _ _)
  by_cases hcode : la < 0x401000
  . exact ⟨⟨_, List.mem_cons_self, ⟨show 0x400000 ≤ la by omega, hcode⟩, by decide⟩, nofun⟩
  . have hstack : 0x401000 ≤ la ∧ la < 0x404000 := by omega
    exact ⟨⟨_, List.mem_cons_of_mem _ List.mem_cons_self, hstack, by decide⟩, nofun⟩

end MmStruct
end Ucore

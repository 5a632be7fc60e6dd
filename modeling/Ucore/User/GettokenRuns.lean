import Mathlib
import Ucore.User.Gettoken

/-!
This module contains what every call of `gettoken` does to the line, and for which lines the words are right.
-/

namespace Ucore
namespace Cmdline

variable {l : Cmdline} {bytes bytes' : Nat → UInt8} {text text' : List UInt8} {p s fuel : Nat} {c : UInt8}

/--
What a blank or a symbol is.
-/
def Separates (c : UInt8) : Prop := c ∈ whitespace ++ symbols

/--
Nothing is written in front of `s`, and no `NUL` is overwritten.
-/
structure Keeps (s : Nat) (bytes bytes' : Nat → UInt8) : Prop where
  before : ∀ i < s, bytes' i = bytes i
  nul : ∀ i, bytes i = 0 → bytes' i = 0

theorem Keeps.refl (s : Nat) (bytes : Nat → UInt8) : Keeps s bytes bytes := ⟨fun _ _ => rfl, fun _ => id⟩

theorem Keeps.trans {bytes'' : Nat → UInt8} (h : Keeps s bytes bytes') (h' : Keeps s bytes' bytes'')
    : Keeps s bytes bytes'' :=
  ⟨fun i hi => (h'.before i hi).trans (h.before i hi), fun i hi => h'.nul i (h.nul i hi)⟩

theorem Keeps.mono {t : Nat} (h : Keeps t bytes bytes') (hle : s ≤ t) : Keeps s bytes bytes' :=
  ⟨fun i hi => h.before i (by omega), h.nul⟩

theorem Keeps.update (h : bytes s ≠ 0) : Keeps s bytes (Function.update bytes s c) := by
  constructor
  . intro i hi
    exact Function.update_of_ne (by omega) ..
  . intro i hi
    rw [Function.update_of_ne]
    . exact hi
    . rintro rfl
      exact h hi

/--
A text is still there when nothing in front of its `NUL` was written.
-/
theorem Keeps.cstring (hkeeps : Keeps s bytes bytes') (h : CString.At 0 bytes p text) (hle : p + text.length ≤ s)
    : CString.At 0 bytes' p text := by
  induction text generalizing p with
  | nil => exact hkeeps.nul p h
  | cons c text ih =>
    obtain ⟨hc, hne, hrest⟩ := h
    rw [List.length_cons] at hle
    exact ⟨(hkeeps.before p (by omega)).trans hc, hne, ih hrest (by omega)⟩

theorem read_of_le (h : s ≤ l.n) : l.read s = some (l.bytes s) := if_pos h

theorem write_of_le (h : s ≤ l.n) : l.write s c = some { l with bytes := Function.update l.bytes s c } := if_pos h

/--
The blanks in front of a text are overwritten with `NUL`s.
-/
theorem skipBlanks_text (h : CString.At 0 l.bytes s text) (hfits : s + text.length ≤ l.n) (hfuel : text.length < fuel)
    : ∃ bytes blanks rest, text = blanks ++ rest ∧
        skipBlanks fuel l s = some ({ l with bytes }, s + blanks.length) ∧ CString.At 0 bytes (s + blanks.length) rest ∧
        Keeps s l.bytes bytes ∧ (blanks ≠ [] → bytes s = 0) ∧ tokens text = tokens rest ∧
        ∀ c ∈ rest.head?, c ∉ whitespace := by
  induction text generalizing l s fuel with
  | nil =>
    obtain ⟨fuel, rfl⟩ : ∃ k, fuel = k + 1 := ⟨fuel - 1, by omega⟩
    refine ⟨l.bytes, [], [], rfl, ?_, h, Keeps.refl .., fun hne => absurd rfl hne, rfl, by simp⟩
    have hzero : l.bytes s = 0 := h
    rw [skipBlanks, read_of_le (show s ≤ l.n from hfits), Option.bind_eq_bind, Option.bind_some, hzero]
    rfl
  | cons c text ih =>
    obtain ⟨fuel, rfl⟩ : ∃ k, fuel = k + 1 := ⟨fuel - 1, by omega⟩
    obtain ⟨hc, hne, hrest⟩ := h
    rw [List.length_cons] at hfits hfuel
    rw [skipBlanks, read_of_le (by omega), Option.bind_eq_bind, Option.bind_some, hc]
    by_cases hblank : c ∈ whitespace
    . have hnext : CString.At 0 (Function.update l.bytes s 0) (s + 1) text :=
        hrest.congr fun i hi _ => Function.update_of_ne (by omega) ..
      obtain ⟨bytes, blanks, rest, htext, hrun, htext', hkeeps, -, htokens, hhead⟩ :=
        @ih { l with bytes := Function.update l.bytes s 0 } (s + 1) fuel hnext (by simp only; omega) (by omega)
      have hnul : bytes s = 0 := (hkeeps.before s (by omega)).trans (Function.update_self ..)
      have hlength : s + 1 + blanks.length = s + (c :: blanks).length := by
        rw [List.length_cons]
        omega
      rw [hlength] at hrun htext'
      refine ⟨bytes, c :: blanks, rest, by rw [htext]; rfl, ?_, htext', ?_, fun _ => hnul, ?_, hhead⟩
      . rw [if_pos (strchr_eq_true_iff.mpr hblank), write_of_le (by omega), Option.bind_eq_bind, Option.bind_some]
        exact hrun
      . exact (Keeps.update (hc ▸ hne)).trans (hkeeps.mono (Nat.le_succ s))
      . rw [tokens, if_pos hblank, htokens]
    . refine ⟨l.bytes, [], c :: text, rfl, ?_, ⟨hc, hne, hrest⟩, Keeps.refl .., fun h => absurd rfl h, rfl, ?_⟩
      swap
      . simpa using hblank
      rw [if_neg (mt strchr_eq_true_iff.mp hblank)]
      rfl

/--
A quote character becomes a blank.
-/
def blanked (run : List UInt8) : List UInt8 := run.map fun c => if c = chr '"' then chr ' ' else c

@[simp]
theorem length_blanked {run : List UInt8} : (blanked run).length = run.length := List.length_map ..

/--
The quote characters of a word are overwritten with blanks.
-/
theorem scanWord_text {flag : Bool} (h : CString.At 0 l.bytes s text) (hfits : s + text.length ≤ l.n)
    (hfuel : text.length < fuel)
    : ∃ bytes, scanWord fuel flag l s = some ({ l with bytes }, s + (takeRun flag text).1.length) ∧
        CString.At 0 bytes s (blanked (takeRun flag text).1 ++ (takeRun flag text).2) ∧ Keeps s l.bytes bytes := by
  induction text generalizing l s fuel flag with
  | nil =>
    obtain ⟨fuel, rfl⟩ : ∃ k, fuel = k + 1 := ⟨fuel - 1, by omega⟩
    have hzero : l.bytes s = 0 := h
    refine ⟨l.bytes, ?_, h, Keeps.refl ..⟩
    rw [scanWord, read_of_le (show s ≤ l.n from hfits), Option.bind_eq_bind, Option.bind_some, if_neg (by simp [hzero])]
    rfl
  | cons c text ih =>
    obtain ⟨fuel, rfl⟩ : ∃ k, fuel = k + 1 := ⟨fuel - 1, by omega⟩
    obtain ⟨hc, hne, hrest⟩ := h
    rw [List.length_cons] at hfits hfuel
    have hstrchr : strchr (whitespace ++ symbols) c = false ↔ c ∉ whitespace ++ symbols := by
      rw [← Bool.not_eq_true, strchr_eq_true_iff]
    rw [scanWord, read_of_le (by omega), Option.bind_eq_bind, Option.bind_some, hc, takeRun]
    simp only [hne, ne_eq, not_false_eq_true, true_and, hstrchr]
    split
    next hin =>
      have hlength (run : List UInt8) : s + 1 + run.length = s + (c :: run).length := by
        rw [List.length_cons]
        omega
      by_cases hquote : c = chr '"'
      . have hnext : CString.At 0 (Function.update l.bytes s (chr ' ')) (s + 1) text :=
          hrest.congr fun i hi _ => Function.update_of_ne (by omega) ..
        obtain ⟨bytes, hrun, htext, hkeeps⟩ :=
          @ih { l with bytes := Function.update l.bytes s (chr ' ') } (s + 1) fuel (!flag) hnext
            (by simp only; omega) (by omega)
        have hblank : bytes s = chr ' ' := (hkeeps.before s (by omega)).trans (Function.update_self ..)
        rw [if_pos hquote, write_of_le (by omega), decide_eq_true hquote, Bool.xor_true]
        refine ⟨bytes, ?_, ?_, (Keeps.update (hc ▸ hne)).trans (hkeeps.mono (Nat.le_succ s))⟩
        . rw [← hlength]
          exact hrun
        . rw [blanked, List.map_cons, if_pos hquote]
          exact ⟨hblank, by decide, htext⟩
      . obtain ⟨bytes, hrun, htext, hkeeps⟩ := @ih l (s + 1) fuel flag hrest (by omega) (by omega)
        rw [if_neg hquote, decide_eq_false hquote, Bool.xor_false]
        refine ⟨bytes, ?_, ?_, hkeeps.mono (Nat.le_succ s)⟩
        . rw [← hlength]
          exact hrun
        . rw [blanked, List.map_cons, if_neg hquote]
          exact ⟨(hkeeps.before s (by omega)).trans hc, hne, htext⟩
    next hout => exact ⟨l.bytes, rfl, ⟨hc, hne, hrest⟩, Keeps.refl ..⟩

/--
Behind a run there is nothing or a separator.
-/
theorem takeRun_head {flag : Bool} {text : List UInt8} : ∀ c ∈ (takeRun flag text).2.head?, Separates c := by
  induction text generalizing flag with
  | nil => simp [takeRun]
  | cons c text ih =>
    rw [takeRun]
    split
    next hin => exact ih
    next hout =>
      rw [not_or, not_not] at hout
      rintro c' ⟨⟩
      exact hout.2

theorem takeRun_snd (hblank : c ∉ whitespace) (hsymbol : c ∉ symbols)
    : (takeRun false (c :: text)).2 = (takeRun (c = chr '"') text).2 := by
  have hout : c ∉ whitespace ++ symbols := by simp [hblank, hsymbol]
  rw [takeRun, if_pos (Or.inr hout), Bool.false_xor]

/--
What `gettoken` has still to read.
-/
def Remaining (l : Cmdline) (rest : List UInt8) : Prop :=
  l.p1 = none ∧ rest = [] ∨ ∃ s, l.p1 = some s ∧ CString.At 0 l.bytes s rest ∧ s + rest.length ≤ l.n

/--
A word that has its `NUL`.
-/
def Closed (l : Cmdline) (p : Nat) (w : List UInt8) : Prop := CString.At 0 l.bytes p w ∧ ∀ s ∈ l.p1, p + w.length ≤ s

/--
A word in front of the separator at which `gettoken` goes on.
-/
def Opened (l : Cmdline) (p : Nat) (w rest : List UInt8) : Prop :=
  CString.At 0 l.bytes p (w ++ rest) ∧ l.p1 = some (p + w.length) ∧ ∃ c ∈ rest.head?, Separates c

/--
What one call of `gettoken` does.
-/
structure Next (l : Cmdline) (text : List UInt8) (result : Option (UInt8 × Nat)) (l' : Cmdline) (rest : List UInt8)
    : Prop where
  n : l'.n = l.n
  token : result.map Prod.fst = (tokens text).head?.map Token.code
  behind : tokens rest = (tokens text).tail
  remaining : Remaining l' rest
  le : ∀ s ∈ l.p1, ∀ s' ∈ l'.p1, s ≤ s'
  keeps : ∀ s ∈ l.p1, Keeps s l.bytes l'.bytes
  ended : l.p1 = none → l' = l
  nul : ∀ s ∈ l.p1, (∀ c ∈ text.head?, Separates c) → l'.bytes s = 0
  word : ∀ run, (tokens text).head? = some (.word run) → ∃ token p2, result = some (token, p2) ∧
    (Closed l' p2 (blanked run) ∨ Opened l' p2 (blanked run) rest)

theorem advance_text (h : CString.At 0 l.bytes s text) (hfits : s + text.length ≤ l.n)
    : l.advance s = some { l with p1 := if text = [] then none else some s } := by
  have hzero := h.apply_eq_nul_iff
  rw [advance, read_of_le (by omega), Option.bind_eq_bind, Option.bind_some]
  by_cases htext : text = []
  . rw [if_neg (not_not.mpr (hzero.mpr htext)), if_pos htext]
    rfl
  . rw [if_pos (mt hzero.mp htext), if_neg htext]
    rfl

theorem remaining_of_text (h : CString.At 0 bytes s text) (hfits : s + text.length ≤ l.n)
    : Remaining ⟨l.n, bytes, if text = [] then none else some s⟩ text := by
  by_cases htext : text = []
  . exact Or.inl ⟨if_pos htext, htext⟩
  . exact Or.inr ⟨s, if_neg htext, h, hfits⟩

/--
A word behind which `gettoken` goes on is closed at the end of the line and open otherwise.
-/
theorem closed_or_opened {w rest : List UInt8} {n : Nat} (h : CString.At 0 bytes p (w ++ rest))
    (hhead : ∀ c ∈ rest.head?, Separates c)
    : Closed ⟨n, bytes, if rest = [] then none else some (p + w.length)⟩ p w ∨
        Opened ⟨n, bytes, if rest = [] then none else some (p + w.length)⟩ p w rest := by
  cases rest with
  | nil =>
    rw [List.append_nil] at h
    exact Or.inl ⟨h, by simp⟩
  | cons c rest => exact Or.inr ⟨h, rfl, c, rfl, hhead c rfl⟩

section Skipped

variable {n : Nat} {bytes₀ : Nat → UInt8} {rest : List UInt8}
  (hskip : skipBlanks (n + 1) ⟨n, bytes₀, some s⟩ s = some (⟨n, bytes, some s⟩, p))

include hskip

theorem gettoken_end (hzero : bytes p = 0) (hfits : p ≤ n)
    : gettoken ⟨n, bytes₀, some s⟩ = some (none, ⟨n, bytes, some s⟩) := by
  have hread : (⟨n, bytes, some s⟩ : Cmdline).read p = some 0 := hzero ▸ read_of_le hfits
  rw [gettoken]
  simp only [hskip, Option.bind_eq_bind, Option.bind_some, hread, if_true]
  rfl

theorem gettoken_symbol (h : CString.At 0 bytes p (c :: rest)) (hfits : p + (c :: rest).length ≤ n)
    (hsymbol : c ∈ symbols)
    : ∃ l', gettoken ⟨n, bytes₀, some s⟩ = some (some (c, p), l') ∧ l'.n = n ∧ Remaining l' rest ∧
        (∀ t ∈ l'.p1, p ≤ t) ∧ Keeps p bytes l'.bytes ∧ l'.bytes p = 0 := by
  obtain ⟨hc, hne, hbehind⟩ := h
  rw [List.length_cons] at hfits
  have hread : (⟨n, bytes, some s⟩ : Cmdline).read p = some c := hc ▸ read_of_le (by simp only; omega)
  have hwritten : CString.At 0 (Function.update bytes p 0) (p + 1) rest :=
    hbehind.congr fun i hi _ => Function.update_of_ne (by omega) ..
  have hfits' : p + 1 + rest.length ≤ n := by omega
  have hwrite : (⟨n, bytes, some s⟩ : Cmdline).write p 0 = some ⟨n, Function.update bytes p 0, some s⟩ :=
    write_of_le (by simp only; omega)
  have hadvance := @advance_text ⟨n, Function.update bytes p 0, some s⟩ rest _ hwritten hfits'
  refine ⟨⟨n, Function.update bytes p 0, if rest = [] then none else some (p + 1)⟩, ?_, rfl, ?_, ?_, ?_, ?_⟩
  . rw [gettoken]
    simp only [hskip, Option.bind_eq_bind, Option.bind_some, hread, hne, if_false, strchr_eq_true_iff.mpr hsymbol,
      if_true, hwrite, hadvance]
    rfl
  . exact @remaining_of_text ⟨n, bytes, some s⟩ _ rest _ hwritten hfits'
  . intro t ht
    simp only [Option.mem_def, ite_eq_iff, reduceCtorEq, and_false, false_or, Option.some_inj] at ht
    omega
  . exact Keeps.update (hc ▸ hne)
  . exact Function.update_self ..

theorem gettoken_word (h : CString.At 0 bytes p (c :: rest)) (hfits : p + (c :: rest).length ≤ n)
    (hsymbol : c ∉ symbols)
    : ∃ l', gettoken ⟨n, bytes₀, some s⟩ = some (some (chr 'w', p), l') ∧ l'.n = n ∧
        Remaining l' (takeRun false (c :: rest)).2 ∧ (∀ t ∈ l'.p1, p ≤ t) ∧ Keeps p bytes l'.bytes ∧
        (Closed l' p (blanked (takeRun false (c :: rest)).1) ∨
          Opened l' p (blanked (takeRun false (c :: rest)).1) (takeRun false (c :: rest)).2) := by
  have hread : (⟨n, bytes, some s⟩ : Cmdline).read p = some c :=
    h.1 ▸ read_of_le (by simp only [List.length_cons] at hfits ⊢; omega)
  have hstrchr : ¬strchr symbols c = true := mt strchr_eq_true_iff.mp hsymbol
  obtain ⟨bytes', hscan, hword, hkeeps⟩ := @scanWord_text ⟨n, bytes, some s⟩ _ _ (n + 1) false h hfits (by omega)
  have hlength := congrArg List.length (takeRun_append false (c :: rest))
  rw [List.length_append] at hlength
  have hfits' : p + (blanked (takeRun false (c :: rest)).1).length + (takeRun false (c :: rest)).2.length ≤ n := by
    rw [length_blanked]
    omega
  have hadvance := @advance_text ⟨n, bytes', some s⟩ _ _ hword.behind hfits'
  refine ⟨⟨n, bytes', if (takeRun false (c :: rest)).2 = [] then none
    else some (p + (blanked (takeRun false (c :: rest)).1).length)⟩, ?_, rfl, ?_, ?_, hkeeps, ?_⟩
  . rw [length_blanked] at hadvance ⊢
    rw [gettoken]
    simp only [hskip, Option.bind_eq_bind, Option.bind_some, hread, h.2.1, if_false, hstrchr, hscan, hadvance]
    rfl
  . exact @remaining_of_text ⟨n, bytes, some s⟩ _ _ _ hword.behind hfits'
  . intro t ht
    simp only [Option.mem_def, ite_eq_iff, reduceCtorEq, and_false, false_or, Option.some_inj] at ht
    omega
  . exact closed_or_opened hword takeRun_head

end Skipped

theorem gettoken_next (h : Remaining l text)
    : ∃ result l' rest, gettoken l = some (result, l') ∧ Next l text result l' rest := by
  obtain ⟨hnone, rfl⟩ | ⟨s, hs, htext, hfits⟩ := h
  . refine ⟨none, l, [], by rw [gettoken, hnone], ?_⟩
    constructor
    . rfl
    . simp [tokens]
    . simp [tokens]
    . exact Or.inl ⟨hnone, rfl⟩
    . simp [hnone]
    . simp [hnone]
    . exact fun _ => rfl
    . simp [hnone]
    . simp [tokens]
  . obtain ⟨n, bytes₀, p1⟩ := l
    obtain rfl : p1 = some s := hs
    obtain ⟨bytes, blanks, rest, hsplit, hskip, hrest, hkeeps, hnul, htokens, hhead⟩ :=
      @skipBlanks_text _ text s (n + 1) htext hfits (by simp only at hfits; omega)
    have hfits' : s + blanks.length + rest.length ≤ n := by
      rw [hsplit, List.length_append] at hfits
      simp only at hfits
      omega
    cases rest with
    | nil =>
      have hzero : bytes s = 0 := by
        cases blanks with
        | nil => exact hrest
        | cons d blanks => exact hnul (List.cons_ne_nil d blanks)
      refine ⟨none, ⟨n, bytes, some s⟩, [], gettoken_end hskip hrest (by omega), ?_⟩
      rw [tokens] at htokens
      constructor
      . rfl
      . simp [htokens]
      . simp [htokens, tokens]
      . exact Or.inr ⟨s, rfl, hzero, by simp only [List.length_nil]; omega⟩
      . simp
      . simpa using hkeeps
      . rintro ⟨⟩
      . simp [hzero]
      . simp [htokens]
    | cons c rest =>
      have hblank : c ∉ whitespace := hhead c rfl
      by_cases hsymbol : c ∈ symbols
      . obtain ⟨l', hrun, hn, hremaining, hle, hkeeps', hnul'⟩ := gettoken_symbol hskip hrest hfits' hsymbol
        rw [tokens, if_neg hblank, if_pos hsymbol] at htokens
        refine ⟨_, l', rest, hrun, ?_⟩
        constructor
        . exact hn
        . simp [htokens, Token.code]
        . simp [htokens]
        . exact hremaining
        . rintro _ ⟨⟩ t ht
          exact Nat.le_trans (Nat.le_add_right s _) (hle t ht)
        . rintro _ ⟨⟩
          exact hkeeps.trans (hkeeps'.mono (Nat.le_add_right s _))
        . rintro ⟨⟩
        . rintro _ ⟨⟩ -
          cases blanks with
          | nil => exact hnul'
          | cons d blanks => exact hkeeps'.nul s (hnul (List.cons_ne_nil d blanks))
        . simp [htokens]
      . obtain ⟨l', hrun, hn, hremaining, hle, hkeeps', hword⟩ := gettoken_word hskip hrest hfits' hsymbol
        have hout : c ∉ whitespace ++ symbols := by simp [hblank, hsymbol]
        rw [tokens, if_neg hblank, if_neg hsymbol] at htokens
        refine ⟨_, l', (takeRun false (c :: rest)).2, hrun, ?_⟩
        constructor
        . exact hn
        . simp [htokens, Token.code]
        . rw [htokens, takeRun_snd hblank hsymbol, List.tail_cons]
        . exact hremaining
        . rintro _ ⟨⟩ t ht
          exact Nat.le_trans (Nat.le_add_right s _) (hle t ht)
        . rintro _ ⟨⟩
          exact hkeeps.trans (hkeeps'.mono (Nat.le_add_right s _))
        . rintro ⟨⟩
        . rintro _ ⟨⟩ hseparates
          cases blanks with
          | nil =>
            rw [hsplit] at hseparates
            exact absurd (hseparates c rfl) hout
          | cons d blanks => exact hkeeps'.nul s (hnul (List.cons_ne_nil d blanks))
        . intro run hrun'
          rw [htokens, List.head?_cons, Option.some_inj, Token.word.injEq] at hrun'
          exact ⟨_, _, rfl, hrun' ▸ hword⟩

/--
What is known after `m` calls.
-/
structure After (line : List UInt8) (m : Nat) (results : List (Option (UInt8 × Nat))) (l : Cmdline) (rest : List UInt8)
    : Prop where
  remaining : Remaining l rest
  behind : tokens rest = (tokens line).drop m
  returned : results.map (Option.map Prod.fst) = (List.range m).map fun j => (tokens line)[j]?.map Token.code
  words : ∀ j run, (tokens line)[j]? = some (.word run) → j < m → ∃ token p2, results[j]? = some (some (token, p2)) ∧
    (Closed l p2 (blanked run) ∨ j + 1 = m ∧ Opened l p2 (blanked run) rest)

/--
Every word is closed by the next call.
-/
theorem Next.closed {result : Option (UInt8 × Nat)} {l' : Cmdline} {rest w : List UInt8}
    (h : Next l text result l' rest)
    (hw : Closed l p w ∨ Opened l p w text)
    : Closed l' p w := by
  rcases hw with ⟨htext, hle⟩ | ⟨htext, hp1, c, hc, hseparates⟩
  . cases hp1 : l.p1 with
    | none => exact h.ended hp1 ▸ ⟨htext, hle⟩
    | some s =>
      have hs := hle s hp1
      exact ⟨(h.keeps s hp1).cstring htext hs, fun s' hs' => Nat.le_trans hs (h.le s hp1 s' hs')⟩
  . have hnul : l'.bytes (p + w.length) = 0 := by
      refine h.nul _ hp1 fun c' hc' => ?_
      rwa [Option.mem_unique hc' hc]
    exact ⟨htext.cut (fun i _ hi => (h.keeps _ hp1).before i hi) hnul, h.le _ hp1⟩

theorem After.step {line : List UInt8} {m : Nat} {results : List (Option (UInt8 × Nat))} {rest : List UInt8}
    (h : After line m results l rest)
    : ∃ result l' rest', gettoken l = some (result, l') ∧ After line (m + 1) (results ++ [result]) l' rest' := by
  obtain ⟨result, l', rest', hrun, hnext⟩ := gettoken_next h.remaining
  have hhead : (tokens rest).head? = (tokens line)[m]? := by rw [h.behind, List.head?_drop]
  have hlength : results.length = m := by
    have hmap := congrArg List.length h.returned
    rwa [List.length_map, List.length_map, List.length_range] at hmap
  refine ⟨result, l', rest', hrun, hnext.remaining, ?_, ?_, ?_⟩
  . rw [hnext.behind, h.behind, List.tail_drop]
  . rw [List.map_append, List.range_succ, List.map_append, h.returned, List.map_singleton, List.map_singleton,
      hnext.token, hhead]
  . intro j run hj hlt
    cases Nat.lt_succ_iff_lt_or_eq.mp hlt with
    | inl hlt =>
      obtain ⟨token, p2, hresult, hword⟩ := h.words j run hj hlt
      have hclosed : Closed l' p2 (blanked run) := hnext.closed (hword.imp_right And.right)
      refine ⟨token, p2, ?_, Or.inl hclosed⟩
      rw [List.getElem?_append_left (by omega), hresult]
    | inr heq =>
      subst heq
      obtain ⟨token, p2, rfl, hword⟩ := hnext.word run (hhead.trans hj)
      refine ⟨token, p2, ?_, hword.imp_right fun hopened => ⟨rfl, hopened⟩⟩
      rw [List.getElem?_append_right (by omega), hlength, Nat.sub_self]
      rfl

theorem after_calls {line : List UInt8} (hline : 0 ∉ line) (m : Nat)
    : ∃ results l rest, calls m (init line) = some (results, l) ∧ After line m results l rest := by
  induction m with
  | zero =>
    have htext := CString.at_getD [] line hline
    refine ⟨[], init line, line, rfl, Or.inr ⟨0, rfl, htext, Nat.le_of_eq (Nat.zero_add _)⟩, rfl, rfl, ?_⟩
    exact fun j run _ hlt => nomatch hlt
  | succ m ih =>
    obtain ⟨results, l, rest, hcalls, hafter⟩ := ih
    obtain ⟨result, l', rest', hrun, hafter'⟩ := hafter.step
    refine ⟨results ++ [result], l', rest', ?_, hafter'⟩
    simp only [calls, hcalls, Option.bind_eq_bind, Option.bind_some, hrun]
    rfl

theorem mem_of_mem_word {line run : List UInt8} (h : Token.word run ∈ tokens line) (hc : c ∈ run) : c ∈ line := by
  fun_induction tokens line with
  | case1 => exact nomatch h
  | case2 d text _ ih => exact List.mem_cons_of_mem _ (ih h)
  | case3 d text _ _ ih =>
    rw [List.mem_cons] at h
    exact List.mem_cons_of_mem _ (ih (h.resolve_left nofun))
  | case4 d text hblank hsymbol ih =>
    cases List.mem_cons.mp h with
    | inl heq =>
      rw [Token.word.injEq] at heq
      rw [← takeRun_append false (d :: text), List.mem_append]
      exact Or.inl (heq ▸ hc)
    | inr hrest =>
      have hmem := List.mem_append_right (takeRun (d = chr '"') text).1 (ih hrest)
      rw [takeRun_append] at hmem
      exact List.mem_cons_of_mem _ hmem

theorem exists_word_of_quote {line : List UInt8} (h : chr '"' ∈ line)
    : ∃ run, Token.word run ∈ tokens line ∧ chr '"' ∈ run := by
  fun_induction tokens line with
  | case1 => exact nomatch h
  | case2 d text hblank ih =>
    refine ih ((List.mem_cons.mp h).resolve_left ?_)
    rintro rfl
    exact absurd hblank (by decide)
  | case3 d text _ hsymbol ih =>
    have hne : chr '"' ≠ d := by
      rintro rfl
      exact absurd hsymbol (by decide)
    obtain ⟨run, hrun, hmem⟩ := ih ((List.mem_cons.mp h).resolve_left hne)
    exact ⟨run, List.mem_cons_of_mem _ hrun, hmem⟩
  | case4 d text hblank hsymbol ih =>
    rw [← takeRun_append false (d :: text), List.mem_append, takeRun_snd hblank hsymbol] at h
    cases h with
    | inl hrun => exact ⟨_, List.mem_cons_self .., hrun⟩
    | inr hrest =>
      obtain ⟨run, hrun, hmem⟩ := ih hrest
      exact ⟨run, List.mem_cons_of_mem _ hrun, hmem⟩

theorem blanked_of_not_mem {run : List UInt8} (h : chr '"' ∉ run) : blanked run = unquoted run := by
  have hne : ∀ c ∈ run, c ≠ chr '"' := fun c hc heq => h (heq ▸ hc)
  have hblanked : blanked run = run := by
    rw [blanked, List.map_congr_left fun c hc => if_neg (hne c hc), List.map_id']
  have hunquoted : unquoted run = run := List.filter_eq_self.mpr fun c hc => decide_eq_true (hne c hc)
  rw [hblanked, hunquoted]

theorem blanked_ne_of_mem {run : List UInt8} (h : chr '"' ∈ run) : blanked run ≠ unquoted run := by
  intro heq
  have hlt : (unquoted run).length < run.length := List.length_filter_lt_length_iff_exists.mpr ⟨_, h, by simp⟩
  rw [← heq, length_blanked] at hlt
  omega

theorem not_tokenized_of_quote {line : List UInt8} (hline : 0 ∉ line) (hquote : chr '"' ∈ line) : ¬Tokenized line := by
  intro htokenized
  obtain ⟨run, hrun, hmem⟩ := exists_word_of_quote hquote
  obtain ⟨j, hj⟩ := List.mem_iff_getElem?.mp hrun
  obtain ⟨results, l, hcalls, -, hwords⟩ := htokenized (j + 2)
  obtain ⟨results', l', rest, hcalls', hafter⟩ := after_calls hline (j + 2)
  obtain ⟨rfl, rfl⟩ := Prod.mk.inj (Option.some_inj.mp (hcalls.symm.trans hcalls'))
  obtain ⟨token, p2, hresult, htext⟩ := hwords j run hj (Or.inl (by omega))
  obtain ⟨token', p2', hresult', hclosed | ⟨heq, -⟩⟩ := hafter.words j run hj (by omega)
  . obtain ⟨rfl, rfl⟩ := Prod.mk.inj (Option.some_inj.mp (Option.some_inj.mp (hresult.symm.trans hresult')))
    exact blanked_ne_of_mem hmem (hclosed.1.unique htext)
  . omega

theorem tokenized_of_not_quote {line : List UInt8} (hline : 0 ∉ line) (hquote : chr '"' ∉ line) : Tokenized line := by
  intro m
  obtain ⟨results, l, rest, hcalls, hafter⟩ := after_calls hline m
  refine ⟨results, l, hcalls, hafter.returned, fun j run hj hm => ?_⟩
  have hclean : chr '"' ∉ run := fun hmem => hquote (mem_of_mem_word (List.mem_of_getElem? hj) hmem)
  rw [← blanked_of_not_mem hclean]
  obtain ⟨token, p2, hresult, hclosed | ⟨heq, hopened⟩⟩ := hafter.words j run hj (by omega)
  . exact ⟨token, p2, hresult, hclosed.1⟩
  . rcases hm with hlt | ⟨-, hnone⟩
    . omega
    . rw [hopened.2.1] at hnone
      exact nomatch hnone

/--
The tokens of a line and the strings of its words are right exactly when there is no quote character in it.
-/
theorem gettoken_tokenized_iff {line : List UInt8} (hline : 0 ∉ line) : Tokenized line ↔ chr '"' ∉ line :=
  ⟨fun htokenized hquote => not_tokenized_of_quote hline hquote htokenized, tokenized_of_not_quote hline⟩

/--
The tokens of `ls`.
-/
theorem gettoken_tokenized_ls : Tokenized [chr 'l', chr 's'] ↔ chr '"' ∉ [chr 'l', chr 's'] :=
  gettoken_tokenized_iff (by decide)

/--
The word `"a"` keeps a blank on either side.
-/
theorem not_gettoken_tokenized : ¬∀ line : List UInt8, 0 ∉ line → Tokenized line := by
  intro h
  have hline : 0 ∉ [chr '"', chr 'a', chr '"'] := by decide
  exact not_tokenized_of_quote hline (by decide) (h _ hline)

end Cmdline
end Ucore

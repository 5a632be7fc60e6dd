import Mathlib
import Ucore.Lib.Numeral
import Ucore.Libs.Printfmt.Impl
import Ucore.Libs.Printfmt.FormattedOutput

/-!
This module contains `strtol` of libs/string.c, where it stops, and that it reads back the numbers that `vprintfmt`
prints.
-/

namespace Ucore
namespace Strtol

open Printfmt (digitChar)

/--
What arithmetic on a `long` gives.
-/
def long (x : Int) : Int := x.bmod (2 ^ 64)

/--
The value of a digit or a letter.
-/
def dig (ch : UInt8) : Option Int :=
  if chr '0' ≤ ch ∧ ch ≤ chr '9' then
    some (ch.toNat - (chr '0').toNat)
  else if chr 'a' ≤ ch ∧ ch ≤ chr 'z' then
    some (ch.toNat - (chr 'a').toNat + 10)
  else if chr 'A' ≤ ch ∧ ch ≤ chr 'Z' then
    some (ch.toNat - (chr 'A').toNat + 10)
  else
    none

/--
The loop over the digits, with the value and the rest of the string.
-/
def readDigits (base : Int) (val : Int) : List UInt8 → Int × List UInt8
  | [] => (val, [])
  | ch :: s =>
    match dig ch with
    | none => (val, ch :: s)
    | some dig => if base ≤ dig then (val, ch :: s) else readDigits base (long (val * base + dig)) s

def skipBlanks : List UInt8 → List UInt8
  | [] => []
  | ch :: s => if ch = chr ' ' ∨ ch = chr '\t' then skipBlanks s else ch :: s

def skipSign : List UInt8 → Bool × List UInt8
  | [] => (false, [])
  | ch :: s => if ch = chr '+' then (false, s) else if ch = chr '-' then (true, s) else (false, ch :: s)

def skipPrefix (base : Int) (s : List UInt8) : Int × List UInt8 :=
  if (base = 0 ∨ base = 16) ∧ s.head? = some (chr '0') ∧ s.tail.head? = some (chr 'x') then
    (16, s.tail.tail)
  else if base = 0 ∧ s.head? = some (chr '0') then
    (8, s.tail)
  else if base = 0 then
    (10, s)
  else
    (base, s)

/--
The number, and the rest of the string from `endptr` on.
-/
def strtol (s : List UInt8) (base : Int) : Int × List UInt8 :=
  let (neg, s) := skipSign (skipBlanks s)
  let (base, s) := skipPrefix base s
  let (val, s) := readDigits base 0 s
  (if neg then long (-val) else val, s)

def IsDigit (base : Int) (ch : UInt8) : Prop := ∃ d, dig ch = some d ∧ d < base

def IsBlank (ch : UInt8) : Prop := ch = chr ' ' ∨ ch = chr '\t'

def IsSign (ch : UInt8) : Prop := ch = chr '+' ∨ ch = chr '-'

/--
The prefix of what stands behind the sign, and the base that it leads to.
-/
structure Prefix (base : Int) (s pre : List UInt8) (base' : Int) : Prop where
  hex : (base = 0 ∨ base = 16) ∧ [chr '0', chr 'x'] <+: s → pre = [chr '0', chr 'x'] ∧ base' = 16
  octal : base = 0 ∧ ¬[chr '0', chr 'x'] <+: s ∧ [chr '0'] <+: s → pre = [chr '0'] ∧ base' = 8
  decimal : base = 0 ∧ ¬[chr '0'] <+: s → pre = [] ∧ base' = 10
  given : base ≠ 0 ∧ ¬(base = 16 ∧ [chr '0', chr 'x'] <+: s) → pre = [] ∧ base' = base

/--
`endptr` is behind the blanks, the sign, the prefix and the digits, at the first character that is no digit.
-/
def Stops (s : List UInt8) (base : Int) (endptr : List UInt8) : Prop :=
  ∃ blanks sign pre digits base', s = blanks ++ (sign ++ (pre ++ (digits ++ endptr))) ∧
    (∀ ch ∈ blanks, IsBlank ch) ∧ (∀ ch ∈ (sign ++ (pre ++ (digits ++ endptr))).head?, ¬IsBlank ch) ∧
    (∀ ch ∈ sign, IsSign ch) ∧ sign.length ≤ 1 ∧ (sign = [] → ∀ ch ∈ (pre ++ (digits ++ endptr)).head?, ¬IsSign ch) ∧
    Prefix base (pre ++ (digits ++ endptr)) pre base' ∧
    (∀ ch ∈ digits, IsDigit base' ch) ∧ ∀ ch ∈ endptr.head?, ¬IsDigit base' ch

variable {base : Int} {s : List UInt8}

theorem readDigits_stops (base val : Int) (s : List UInt8)
    : ∃ digits, s = digits ++ (readDigits base val s).2 ∧ (∀ ch ∈ digits, IsDigit base ch) ∧
        ∀ ch ∈ (readDigits base val s).2.head?, ¬IsDigit base ch := by
  induction s generalizing val with
  | nil => exact ⟨[], rfl, by simp, by simp [readDigits]⟩
  | cons ch s ih =>
    rw [readDigits]
    split
    next hdig =>
      refine ⟨[], rfl, by simp, ?_⟩
      simp [IsDigit, hdig]
    next d hdig =>
      split
      next hle =>
        refine ⟨[], rfl, by simp, ?_⟩
        simpa [IsDigit, hdig] using hle
      next hlt =>
        obtain ⟨digits, heq, hdigits, hstop⟩ := ih (long (val * base + d))
        refine ⟨ch :: digits, ?_, ?_, hstop⟩
        . rw [List.cons_append, ← heq]
        . rw [List.forall_mem_cons]
          exact ⟨⟨d, hdig, by omega⟩, hdigits⟩

theorem skipBlanks_stops (s : List UInt8)
    : ∃ blanks, s = blanks ++ skipBlanks s ∧ (∀ ch ∈ blanks, IsBlank ch) ∧
        ∀ ch ∈ (skipBlanks s).head?, ¬IsBlank ch := by
  induction s with
  | nil => exact ⟨[], rfl, by simp, by simp [skipBlanks]⟩
  | cons ch s ih =>
    rw [skipBlanks]
    split
    next hblank =>
      obtain ⟨blanks, heq, hblanks, hstop⟩ := ih
      refine ⟨ch :: blanks, ?_, ?_, hstop⟩
      . rw [List.cons_append, ← heq]
      . rw [List.forall_mem_cons]
        exact ⟨hblank, hblanks⟩
    next hblank =>
      refine ⟨[], rfl, by simp, ?_⟩
      simpa [IsBlank] using hblank

theorem skipSign_stops (s : List UInt8)
    : ∃ sign, s = sign ++ (skipSign s).2 ∧ (∀ ch ∈ sign, IsSign ch) ∧ sign.length ≤ 1 ∧
        (sign = [] → ∀ ch ∈ (skipSign s).2.head?, ¬IsSign ch) := by
  cases s with
  | nil => exact ⟨[], rfl, by simp, by simp, by simp [skipSign]⟩
  | cons ch s =>
    rw [skipSign]
    split
    next hplus => exact ⟨[ch], rfl, by simp [IsSign, hplus], by simp, by simp⟩
    next hplus =>
      split
      next hminus => exact ⟨[ch], rfl, by simp [IsSign, hminus], by simp, by simp⟩
      next hminus => exact ⟨[], rfl, by simp, by simp, by simp [IsSign, hplus, hminus]⟩

theorem prefix_zero_iff : [chr '0'] <+: s ↔ s.head? = some (chr '0') := by
  cases s with
  | nil => simp
  | cons ch s => simp [List.cons_prefix_cons, eq_comm]

theorem prefix_zero_x_iff
    : [chr '0', chr 'x'] <+: s ↔ s.head? = some (chr '0') ∧ s.tail.head? = some (chr 'x') := by
  cases s with
  | nil => simp
  | cons ch s =>
    cases s with
    | nil => simp [List.cons_prefix_cons]
    | cons ch' s => simp [List.cons_prefix_cons, eq_comm]

theorem skipPrefix_stops (base : Int) (s : List UInt8)
    : ∃ pre, s = pre ++ (skipPrefix base s).2 ∧ Prefix base s pre (skipPrefix base s).1 := by
  have hx := @prefix_zero_x_iff s
  have hzero := @prefix_zero_iff s
  rw [skipPrefix]
  split
  next hhex =>
    obtain ⟨rest, hrest⟩ := hx.mpr hhex.2
    refine ⟨[chr '0', chr 'x'], by rw [← hrest]; rfl, fun _ => ⟨rfl, rfl⟩, ?_, ?_, ?_⟩
    . exact fun h => absurd (hx.mpr hhex.2) h.2.1
    . exact fun h => absurd (hzero.mpr hhex.2.1) h.2
    . exact fun h => absurd ⟨hhex.1.resolve_left h.1, hx.mpr hhex.2⟩ h.2
  next hhex =>
    split
    next hoctal =>
      obtain ⟨rest, hrest⟩ := hzero.mpr hoctal.2
      refine ⟨[chr '0'], by rw [← hrest]; rfl, ?_, fun _ => ⟨rfl, rfl⟩, ?_, ?_⟩
      . exact fun h => absurd ⟨h.1, hx.mp h.2⟩ hhex
      . exact fun h => absurd (hzero.mpr hoctal.2) h.2
      . exact fun h => absurd hoctal.1 h.1
    next hoctal =>
      split
      next hbase =>
        refine ⟨[], rfl, ?_, ?_, fun _ => ⟨rfl, rfl⟩, ?_⟩
        . exact fun h => absurd ⟨h.1, hx.mp h.2⟩ hhex
        . exact fun h => absurd ⟨hbase, hzero.mp h.2.2⟩ hoctal
        . exact fun h => absurd hbase h.1
      next hbase =>
        refine ⟨[], rfl, ?_, ?_, ?_, fun _ => ⟨rfl, rfl⟩⟩
        . exact fun h => absurd ⟨h.1, hx.mp h.2⟩ hhex
        . exact fun h => absurd h.1 hbase
        . exact fun h => absurd h.1 hbase

theorem strtol_stops (s : List UInt8) (base : Int) : Stops s base (strtol s base).2 := by
  obtain ⟨blanks, hs, hblanks, hnoblank⟩ := skipBlanks_stops s
  obtain ⟨sign, hunblanked, hsign, hone, hnosign⟩ := skipSign_stops (skipBlanks s)
  obtain ⟨pre, hunsigned, hprefix⟩ := skipPrefix_stops base (skipSign (skipBlanks s)).2
  obtain ⟨digits, hnumber, hdigits, hstop⟩ :=
    readDigits_stops (skipPrefix base (skipSign (skipBlanks s)).2).1 0 (skipPrefix base (skipSign (skipBlanks s)).2).2
  refine ⟨blanks, sign, pre, digits, _, ?_, hblanks, ?_, hsign, hone, ?_, ?_, hdigits, hstop⟩
  . rw [strtol, ← hnumber, ← hunsigned, ← hunblanked]
    exact hs
  . rw [strtol, ← hnumber, ← hunsigned, ← hunblanked]
    exact hnoblank
  . rw [strtol, ← hnumber, ← hunsigned]
    exact hnosign
  . rw [strtol, ← hnumber, ← hunsigned]
    exact hprefix

end Strtol

namespace Strtol

open Printfmt (digitChar Item Field Arg vprintfmt emit)

variable {b n d v : Nat} {ds : List Nat} {c : UInt8} {s : List UInt8}

theorem long_eq (x : Int) : long x = (x + 2 ^ 63) % 2 ^ 64 - 2 ^ 63 := by
  unfold long Int.bmod
  dsimp only
  split
  . omega
  . omega

theorem dig_digitChar (h : d < 16) : dig (digitChar d) = some (d : Int) := by
  have hall : ∀ d < 16, dig (digitChar d) = some (d : Int) := by decide
  exact hall d h

/--
Reading the digits of a number.
-/
theorem readDigits_map (hb : b ≤ 16) (hds : ∀ d ∈ ds, d < b)
    : readDigits b (long v) (ds.map digitChar) = (long (Numeral.value b v ds), []) := by
  induction ds generalizing v with
  | nil => rfl
  | cons d ds ih =>
    have hd : d < b := hds d (List.mem_cons_self ..)
    have hval : long (long (v : Int) * b + d) = long ((v * b + d : Nat) : Int) := by
      unfold long
      rw [← Int.bmod_add_bmod, Int.bmod_mul_bmod, Int.bmod_add_bmod]
      push_cast
      rfl
    rw [List.map_cons, readDigits, dig_digitChar (by omega)]
    simp only
    rw [if_neg (by omega), hval]
    exact ih fun d hmem => hds d (List.mem_cons_of_mem _ hmem)

/--
A digit is neither a blank nor a sign nor the second character of a prefix.
-/
theorem digitChar_ne (h : d < 16)
    : digitChar d ≠ chr ' ' ∧ digitChar d ≠ chr '\t' ∧ digitChar d ≠ chr '+' ∧ digitChar d ≠ chr '-' ∧
        digitChar d ≠ chr 'x' := by
  have hall : ∀ d < 16, digitChar d ≠ chr ' ' ∧ digitChar d ≠ chr '\t' ∧ digitChar d ≠ chr '+' ∧
      digitChar d ≠ chr '-' ∧ digitChar d ≠ chr 'x' := by decide
  exact hall d h

theorem skipPrefix_map (hpos : 1 < b) (hds : ∀ d ∈ ds, d < 16)
    : skipPrefix b (ds.map digitChar) = ((b : Int), ds.map digitChar) := by
  have hx : ¬(ds.map digitChar).tail.head? = some (chr 'x') := by
    intro h
    obtain ⟨d, hd, hdx⟩ := List.mem_map.mp (List.mem_of_mem_tail (List.mem_of_mem_head? h))
    exact (digitChar_ne (hds d hd)).2.2.2.2 hdx
  have hb : (b : Int) ≠ 0 := by omega
  rw [skipPrefix, if_neg (fun h => hx h.2.2), if_neg (fun h => hb h.1), if_neg hb]

theorem readDigits_digits (hpos : 1 < b) (hb : b ≤ 16) (n : Nat)
    : readDigits b 0 ((Numeral.digits b n).map digitChar) = (long n, []) := by
  have hlt : ∀ d ∈ Numeral.digits b n, d < b := fun d => Numeral.lt_of_mem_digits hpos
  have hmap := @readDigits_map b 0 _ hb hlt
  rwa [Numeral.value_digits] at hmap

/--
A number without a sign.
-/
theorem strtol_digits (hpos : 1 < b) (hb : b ≤ 16) (n : Nat)
    : strtol ((Numeral.digits b n).map digitChar) b = (long n, []) := by
  have hlt : ∀ d ∈ Numeral.digits b n, d < 16 := fun d h => (Numeral.lt_of_mem_digits hpos h).trans_le hb
  have hread := readDigits_digits hpos hb n
  have hprefix := skipPrefix_map hpos hlt
  have hskip : skipSign (skipBlanks ((Numeral.digits b n).map digitChar)) =
      (false, (Numeral.digits b n).map digitChar) := by
    cases hdigits : Numeral.digits b n with
    | nil => rfl
    | cons d ds =>
      obtain ⟨hblank, htab, hplus, hminus, -⟩ := digitChar_ne (hlt d (hdigits ▸ List.mem_cons_self ..))
      rw [List.map_cons, skipBlanks, if_neg (by simp [hblank, htab]), skipSign, if_neg hplus, if_neg hminus]
  simp only [strtol, hskip, hprefix, hread, Bool.false_eq_true, if_false]

/--
A number with a sign.
-/
theorem strtol_minus (hpos : 1 < b) (hb : b ≤ 16) (n : Nat)
    : strtol (chr '-' :: (Numeral.digits b n).map digitChar) b = (long (-long n), []) := by
  have hlt : ∀ d ∈ Numeral.digits b n, d < 16 := fun d h => (Numeral.lt_of_mem_digits hpos h).trans_le hb
  have hread := readDigits_digits hpos hb n
  have hprefix := skipPrefix_map hpos hlt
  have hskip : skipSign (skipBlanks (chr '-' :: (Numeral.digits b n).map digitChar)) =
      (true, (Numeral.digits b n).map digitChar) := rfl
  simp only [strtol, hskip, hprefix, hread, if_true]

/--
A `putch` that stores the characters one behind the other.
-/
def append (c : Int) (l : List UInt8) : List UInt8 := l ++ [UInt8.ofInt c]

theorem emit_append_codes (l m : List UInt8) : emit append (Printfmt.codes m) l = l ++ m := by
  induction m generalizing l with
  | nil => exact (List.append_nil l).symm
  | cons c m ih =>
    have hc : UInt8.ofInt (c.toNat : Int) = c := by
      have hlt : (c.toNat : Int) < 2 ^ 8 := by exact_mod_cast c.toNat_lt
      rw [UInt8.ofInt, Int.emod_eq_of_lt (by omega) hlt, Int.toNat_natCast, UInt8.ofNat_toNat]
    rw [Printfmt.codes, List.map_cons, Printfmt.emit_cons, append, hc]
    exact (ih _).trans (by rw [List.append_assoc, List.singleton_append])

/--
What `%l` and the character of a conversion print for a number.
-/
theorem vprintfmt_number (conv : Printfmt.NumConv) (v : BitVec 64)
    : vprintfmt append [chr '%', chr 'l', conv.char] [.long v] [] =
        some ((if conv.toInt v < 0 then [chr '-'] else []) ++
          (Numeral.digits conv.base (conv.toInt v).natAbs).map digitChar) := by
  have hitem := @Printfmt.vprintfmt_eq _ append [] [.number ⟨false, false, 0⟩ .l conv v]
  have hsound : ∀ item ∈ [Item.number ⟨false, false, 0⟩ .l conv v], item.Sound := by
    intro item hmem
    rw [List.mem_singleton] at hmem
    subst hmem
    exact Or.inl (Nat.zero_sub _)
  have htext : Printfmt.text [.number ⟨false, false, 0⟩ .l conv v] =
      Printfmt.codes ((if conv.toInt v < 0 then [chr '-'] else []) ++
        (Numeral.digits conv.base (conv.toInt v).natAbs).map digitChar) := by
    have hpadded := @Printfmt.padded_of_padding_eq_zero ⟨false, false, 0⟩
      (Printfmt.digits conv.base (conv.toInt v).natAbs) (Printfmt.sign (conv.toInt v)) (Nat.zero_sub _)
    rw [Printfmt.text, List.flatMap_singleton]
    refine hpadded.trans ?_
    rw [Printfmt.sign]
    split
    . rfl
    . rfl
  rw [Printfmt.printed_eq_text _ hsound, htext, emit_append_codes, List.nil_append] at hitem
  exact hitem

/--
A text without a sign is read back as an unsigned number.
-/
theorem strtol_unsigned (hpos : 1 < b) (hb : b ≤ 16) (v : BitVec 64) (hv : 0 ≤ v.toInt)
    : strtol ((if (v.toNat : Int) < 0 then [chr '-'] else []) ++ (Numeral.digits b v.toNat).map digitChar) b =
        (v.toInt, []) := by
  have hlong : long v.toNat = v.toInt := by
    have hlt := v.isLt
    rw [BitVec.toInt_eq_toNat_cond] at hv ⊢
    rw [long_eq]
    split at hv
    . rw [if_pos (by assumption)]
      omega
    . omega
  rw [if_neg (by omega), List.nil_append, strtol_digits hpos hb, hlong]

theorem strtol_signed (v : BitVec 64)
    : strtol ((if v.toInt < 0 then [chr '-'] else []) ++ (Numeral.digits 10 v.toInt.natAbs).map digitChar) 10 =
        (v.toInt, []) := by
  have hlow := BitVec.le_toInt v
  have hhigh := @BitVec.toInt_lt _ v
  split
  next hneg =>
    have hlong : long (-long v.toInt.natAbs) = v.toInt := by
      rw [long_eq, long_eq]
      omega
    exact (strtol_minus (by decide) (by decide) v.toInt.natAbs).trans (by rw [hlong])
  next hneg =>
    have hlong : long v.toInt.natAbs = v.toInt := by
      rw [long_eq]
      omega
    exact (strtol_digits (by decide) (by decide) v.toInt.natAbs).trans (by rw [hlong])

/--
The text that is printed for a number is read back as that number, up to its end.
-/
theorem number_text_round_trip
    : (∀ v : BitVec 64, ∃ text, vprintfmt append [chr '%', chr 'l', chr 'd'] [.long v] [] = some text ∧
        strtol text 10 = (v.toInt, [])) ∧
      (∀ v : BitVec 64, 0 ≤ v.toInt →
        (∃ text, vprintfmt append [chr '%', chr 'l', chr 'x'] [.long v] [] = some text ∧
          strtol text 16 = (v.toInt, [])) ∧
        ∃ text, vprintfmt append [chr '%', chr 'l', chr 'o'] [.long v] [] = some text ∧
          strtol text 8 = (v.toInt, [])) ∧
      ∀ (s : List UInt8) (base : Int), Stops s base (strtol s base).2 := by
  refine ⟨fun v => ⟨_, vprintfmt_number .d v, strtol_signed v⟩, fun v hv => ⟨?_, ?_⟩, strtol_stops⟩
  . exact ⟨_, vprintfmt_number .x v, strtol_unsigned (by decide) (by decide) v hv⟩
  . exact ⟨_, vprintfmt_number .o v, strtol_unsigned (by decide) (by decide) v hv⟩

/--
`255` as `ff`.
-/
theorem number_text_round_trip_ff
    : ∃ text, vprintfmt append [chr '%', chr 'l', chr 'x'] [.long 255#64] [] = some text ∧
        strtol text 16 = ((255#64).toInt, []) :=
  (number_text_round_trip.2.1 255#64 (by decide)).1

end Strtol
end Ucore

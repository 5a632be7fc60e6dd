import Mathlib
import Ucore.Libs.Printfmt.Format

/-!
This module contains what `vprintfmt` prints for each part of a format string.
-/

namespace Ucore
namespace Printfmt

section Arithmetic

variable {x y : Int} {k : Nat}

theorem int_eq (x : Int) : int x = (x + 2 ^ 31) % 2 ^ 32 - 2 ^ 31 := by
  unfold int Int.bmod
  dsimp only
  split
  . omega
  . omega

theorem int_int_sub : int (int x - y) = int (x - y) := by
  simp only [int_eq]
  omega

theorem int_int_mul_add (n c : Int) : int (int x * n + c) = int (x * n + c) := by
  unfold int
  rw [← Int.bmod_add_bmod, Int.bmod_mul_bmod, Int.bmod_add_bmod]

/--
An `int` counts a number of characters when they are less than `2 ^ 31`.
-/
theorem toNat_int_eq_iff : (int k).toNat = k ↔ k < 2 ^ 31 := by
  rw [int_eq]
  omega

theorem toNat_int_le : (int k).toNat ≤ k := by
  rw [int_eq]
  omega

theorem toNat_int_add_one_ne : (int k).toNat + 1 ≠ k := by
  rw [int_eq]
  omega

end Arithmetic

section Output

variable {σ : Type} (putch : Int → σ → σ)

/--
Print a text character by character.
-/
def emit (text : List Int) (s : σ) : σ := text.foldl (fun s c => putch c s) s

variable {putch} {s : σ} {fuel base num : Nat} {padc : UInt8}

@[simp]
theorem emit_nil : emit putch [] s = s := rfl

@[simp]
theorem emit_cons {c : Int} {text : List Int} : emit putch (c :: text) s = emit putch text (putch c s) := rfl

theorem emit_append {text text' : List Int} : emit putch (text ++ text') s = emit putch text' (emit putch text s) :=
  List.foldl_append ..

theorem pad_eq (padc : UInt8) (n : Nat) (s : σ)
    : pad putch padc n s = emit putch (List.replicate n (padc.toNat : Int)) s := by
  induction n generalizing s with
  | zero => rfl
  | succ n ih =>
    rw [List.replicate_succ, emit_cons, ← ih]
    rfl

theorem digits_of_lt (h : num < base) : digits base num = codes [digitChar num] := by
  rw [digits, Numeral.digits_of_lt h]
  rfl

theorem digits_of_le (hbase : 1 < base) (h : base ≤ num)
    : digits base num = digits base (num / base) ++ codes [digitChar (num % base)] := by
  rw [digits, Numeral.digits_of_le hbase h, List.map_append, codes, List.map_append]
  rfl

/--
`printnum` prints the digits, and in front of them as many characters as the width is longer.
-/
theorem printnum_eq (hbase : 1 < base) (hfuel : num < base ^ (fuel + 1)) (width : Int) (s : σ)
    : printnum putch base padc (fuel + 1) num width s =
        emit putch
          (List.replicate (int (width - (digits base num).length)).toNat (padc.toNat : Int) ++ digits base num) s := by
  induction fuel generalizing num width s with
  | zero =>
    rw [Nat.zero_add, pow_one] at hfuel
    rw [printnum, if_neg (by omega), pad_eq, digits_of_lt hfuel, emit_append, Nat.mod_eq_of_lt hfuel]
    rfl
  | succ fuel ih =>
    rw [printnum]
    split
    next h =>
      have hdiv : num / base < base ^ (fuel + 1) := by
        rw [Nat.div_lt_iff_lt_mul (by omega)]
        exact hfuel
      have hlength : (digits base num).length = (digits base (num / base)).length + 1 := by
        rw [digits_of_le hbase h, List.length_append]
        rfl
      have hwidth : width - 1 - ((digits base (num / base)).length : Int) = width - (digits base num).length := by
        omega
      rw [ih hdiv, int_int_sub, hwidth]
      conv_rhs => rw [digits_of_le hbase h, ← List.append_assoc, emit_append, ← digits_of_le hbase h]
      rfl
    next h =>
      have hlt : num < base := by omega
      rw [pad_eq, digits_of_lt hlt, emit_append, Nat.mod_eq_of_lt hlt]
      rfl

/--
A string without precision is printed as it is and takes its length off the width.
-/
theorem printstr_eq (p : List UInt8) (width : Int) (s : σ)
    : printstr putch false p (-1) width s =
        (if p = [] then width else int (width - p.length), emit putch (codes p) s) := by
  induction p generalizing width s with
  | nil => rfl
  | cons c p ih =>
    have hstep : printstr putch false (c :: p) (-1) width s =
        printstr putch false p (-1) (int (width - 1)) (putch (c.toNat : Int) s) := rfl
    rw [hstep, ih, if_neg (List.cons_ne_nil c p), Prod.mk.injEq]
    refine ⟨?_, rfl⟩
    split
    next h =>
      rw [h]
      rfl
    next h =>
      rw [int_int_sub, List.length_cons]
      congr 1
      push_cast
      omega

end Output

section Scan

variable {e : Escape} {fmt : List UInt8} {ap : List Arg} {d : Nat} {ch : UInt8} {v : Nat} {ds : List Nat}

theorem toNat_digitChar (h : d < 10) : (digitChar d).toNat = 48 + d := by
  have hall : ∀ d < 10, (digitChar d).toNat = 48 + d := by decide
  exact hall d h

theorem isDigit_digitChar (h : d < 10) : isDigit (digitChar d) = true := by
  have hall : ∀ d < 10, isDigit (digitChar d) = true := by decide
  exact hall d h

/--
The rest of the digits of a width.
-/
theorem reswitch_digits (hds : ∀ d ∈ ds, d < 10)
    : reswitch e (some (int v)) (ds.map digitChar ++ fmt) ap =
        reswitch e (some (int (Numeral.value 10 v ds))) fmt ap := by
  induction ds generalizing v with
  | nil => rfl
  | cons d ds ih =>
    have hd : d < 10 := hds d (List.mem_cons_self ..)
    have hnum : int (int (v : Int) * 10 + (digitChar d).toNat - (chr '0').toNat) = int ((v * 10 + d : Nat) : Int) := by
      have hzero : ((chr '0').toNat : Int) = 48 := rfl
      rw [add_sub_assoc, int_int_mul_add, toNat_digitChar hd, hzero]
      congr 1
      push_cast
      omega
    rw [List.map_cons, List.cons_append, reswitch, if_pos ⟨rfl, isDigit_digitChar hd⟩, Option.map_some, hnum]
    exact ih fun d hmem => hds d (List.mem_cons_of_mem _ hmem)

/--
A character behind a width ends it.
-/
theorem reswitch_width {n : Int} (h : isDigit ch = false)
    : reswitch e (some n) (ch :: fmt) ap = reswitch (processPrecision e n) none (ch :: fmt) ap := by
  conv_lhs => rw [reswitch, if_neg (by simp [h])]
  conv_rhs => rw [reswitch, if_neg (by simp)]
  rfl

/--
The characters that do not lead back to `reswitch`.
-/
def Ends (ch : UInt8) : Prop :=
  isDigit ch = false ∧ ch ≠ chr '-' ∧ ch ≠ chr '*' ∧ ch ≠ chr '.' ∧ ch ≠ chr '#' ∧ ch ≠ chr 'l'

instance (ch : UInt8) : Decidable (Ends ch) := inferInstanceAs (Decidable (_ ∧ _))

theorem reswitch_ends (h : Ends ch) : reswitch e none (ch :: fmt) ap = some (ch, e, fmt, ap) := by
  obtain ⟨hdigit, hminus, hstar, hdot, hsharp, hl⟩ := h
  have hzero : ch ≠ chr '0' := by
    rintro rfl
    exact absurd hdigit (by decide)
  simp only [reswitch, Option.isSome_none, Bool.false_eq_true, false_and, if_false, hminus, hzero, hdigit, hstar, hdot,
    hsharp, hl, Option.elim_none]

/--
What is known of a conversion when its last character is reached.
-/
def Field.escape (f : Field) (lflag : Nat) : Escape where
  padc := if f.zero then chr '0' else if f.minus then chr '-' else chr ' '
  width := if f.width = 0 then -1 else int f.width
  precision := -1
  lflag
  altflag := false

theorem reswitch_length (len : Length) (h : Ends ch)
    : reswitch e none (len.render ++ ch :: fmt) ap = some (ch, { e with lflag := e.lflag + len.lflag }, fmt, ap) := by
  cases len with
  | none => exact reswitch_ends h
  | l => exact reswitch_ends h
  | ll => exact reswitch_ends h

/--
The first digit of a width.
-/
theorem reswitch_first (hd : d < 10) (hpos : d ≠ 0)
    : reswitch e none (digitChar d :: fmt) ap = reswitch e (some (int d)) fmt ap := by
  have hne : ∀ d < 10, d ≠ 0 → digitChar d ≠ chr '-' ∧ digitChar d ≠ chr '0' := by decide
  have hnum : ((digitChar d).toNat : Int) - (chr '0').toNat = int d := by
    have hzero : ((chr '0').toNat : Int) = 48 := rfl
    rw [toNat_digitChar hd, hzero, int_eq]
    omega
  rw [reswitch, if_neg (by simp)]
  simp only [Option.elim_none, hne d hd hpos, if_false, isDigit_digitChar hd, if_true, hnum]

/--
The digits of a width up to what stands behind them.
-/
theorem reswitch_number {n : Nat} (hn : 0 < n) (h : isDigit ch = false)
    : reswitch e none ((Numeral.digits 10 n).map digitChar ++ ch :: fmt) ap =
        reswitch (processPrecision e (int n)) none (ch :: fmt) ap := by
  obtain ⟨d, ds, hdigits, hd⟩ := @Numeral.head_digits 10 n hn
  have hlt : ∀ d ∈ Numeral.digits 10 n, d < 10 := fun d => Numeral.lt_of_mem_digits (by decide)
  have hvalue : Numeral.value 10 d ds = n := by
    have hn := Numeral.value_digits 10 n
    rw [hdigits] at hn
    simpa [Numeral.value] using hn
  rw [hdigits, List.forall_mem_cons] at hlt
  rw [hdigits, List.map_cons, List.cons_append, reswitch_first hlt.1 hd, reswitch_digits hlt.2, hvalue,
    reswitch_width h]

theorem length_render (len : Length) (h : Ends ch)
    : ∃ ch' fmt', len.render ++ ch :: fmt = ch' :: fmt' ∧ isDigit ch' = false := by
  cases len with
  | none => exact ⟨ch, fmt, rfl, h.1⟩
  | l => exact ⟨chr 'l', ch :: fmt, rfl, by decide⟩
  | ll => exact ⟨chr 'l', chr 'l' :: ch :: fmt, rfl, by decide⟩

theorem reswitch_render_width (f : Field) (len : Length) (h : Ends ch) (padc : UInt8)
    : reswitch ⟨padc, -1, -1, 0, false⟩ none
        ((if f.width = 0 then [] else (Numeral.digits 10 f.width).map digitChar) ++ len.render ++ ch :: fmt) ap =
        some (ch, ⟨padc, (f.escape 0).width, -1, len.lflag, false⟩, fmt, ap) := by
  split
  next hzero => rw [List.nil_append, reswitch_length len h, Field.escape, if_pos hzero, Nat.zero_add]
  next hne =>
    obtain ⟨ch', fmt', htail, hdigit⟩ := @length_render fmt ch len h
    have hstep : processPrecision ⟨padc, -1, -1, 0, false⟩ (int f.width) =
        ⟨padc, (f.escape 0).width, -1, 0, false⟩ := by
      rw [processPrecision, if_pos (show (-1 : Int) < 0 by decide), Field.escape, if_neg hne]
    rw [List.append_assoc, htail, reswitch_number (Nat.pos_of_ne_zero hne) hdigit, hstep, ← htail,
      reswitch_length len h, Nat.zero_add]

theorem reswitch_conversion (f : Field) (len : Length) (h : Ends ch)
    : reswitch .init none (f.render ++ len.render ++ ch :: fmt) ap = some (ch, f.escape len.lflag, fmt, ap) := by
  obtain ⟨minus, zero, width⟩ := f
  cases minus with
  | false =>
    cases zero with
    | false => exact reswitch_render_width ⟨false, false, width⟩ len h (chr ' ')
    | true => exact reswitch_render_width ⟨false, true, width⟩ len h (chr '0')
  | true =>
    cases zero with
    | false => exact reswitch_render_width ⟨true, false, width⟩ len h (chr '-')
    | true => exact reswitch_render_width ⟨true, true, width⟩ len h (chr '0')

end Scan

/--
A number as `printnum` prints it.
-/
def Field.led (f : Field) (text : List Int) : List Int :=
  List.replicate (int ((f.escape 0).width - text.length)).toNat ((f.escape 0).padc.toNat : Int) ++ text

/--
Strings are padded in front with `padc` unless it is `-`, and behind with blanks.
-/
def Field.ledString (f : Field) (p : List UInt8) : List Int :=
  let e := f.escape 0
  let led := 0 < e.width ∧ e.padc ≠ chr '-'
  let left := if led then int (e.width - p.length) else 0
  let width := if led then min left 0 else e.width
  List.replicate left.toNat (e.padc.toNat : Int) ++ codes p ++
    List.replicate (if p = [] then width else int (width - p.length)).toNat ((chr ' ').toNat : Int)

/--
The text that `vprintfmt` prints for a part of a format string.
-/
def Item.printed : Item → List Int
  | literal c _ => codes [c]
  | number f _ conv v => sign (conv.toInt v) ++ f.led (digits conv.base (conv.toInt v).natAbs)
  | pointer f _ v => codes [chr '0', chr 'x'] ++ f.led (digits 16 v.toNat)
  | char _ _ v => [v.toInt]
  | string f _ p => f.ledString (shown p)
  | percent _ _ => codes [chr '%']

section Convert

variable {σ : Type} {putch : Int → σ → σ} {s : σ} {ap : List Arg}

theorem getint_arg (len : Length) (v : BitVec len.bits) : getint len.lflag (len.arg v :: ap) = some (v.toInt, ap) := by
  cases len with
  | none => rfl
  | l => rfl
  | ll => rfl

theorem getuint_arg (len : Length) (v : BitVec len.bits)
    : getuint len.lflag (len.arg v :: ap) = some (v.toNat, ap) := by
  cases len with
  | none => rfl
  | l => rfl
  | ll => rfl

theorem toNat_lt_of_bits {len : Length} (v : BitVec len.bits) : v.toNat < 2 ^ 64 := by
  have hbits : len.bits ≤ 64 := by
    cases len with
    | none => decide
    | l => decide
    | ll => decide
  exact v.isLt.trans_le (Nat.pow_le_pow_right (by decide) hbits)

theorem natAbs_toInt_lt {len : Length} (v : BitVec len.bits) : v.toInt.natAbs < 2 ^ 64 := by
  have hlt := v.isLt
  have hbits : 2 ^ len.bits ≤ 2 ^ 64 := by
    cases len with
    | none => decide
    | l => decide
    | ll => decide
  rw [BitVec.toInt_eq_toNat_cond]
  split
  . omega
  . omega

theorem printnum_field (f : Field) {lflag base num : Nat} (hbase : 8 ≤ base) (hnum : num < 2 ^ 64)
    : printnum putch base (f.escape lflag).padc 64 num (f.escape lflag).width s =
        emit putch (f.led (digits base num)) s := by
  have hpow : num < base ^ 64 := hnum.trans_le (Nat.pow_le_pow_left (by omega) 64)
  exact printnum_eq (by omega) hpow ..

/--
What the conversions without a sign have in common.
-/
theorem convert_unsigned (f : Field) {len : Length} {base : Nat} (hbase : 8 ≤ base) (v : BitVec len.bits)
    : (match getuint len.lflag (len.arg v :: ap) with
      | none => some none
      | some (num, ap) =>
        some (some (ap, printnum putch base (f.escape len.lflag).padc 64 num (f.escape len.lflag).width s))) =
        some (some (ap, emit putch (sign v.toNat ++ f.led (digits base v.toNat)) s)) := by
  have hsign : sign v.toNat = [] := if_neg (by omega)
  rw [getuint_arg, hsign, List.nil_append]
  simp only
  rw [printnum_field f hbase (toNat_lt_of_bits v)]

/--
What `%d` prints of the number that `getint` finds.
-/
def convertSigned (putch : Int → σ → σ) (e : Escape) (s : σ) : Option (Int × List Arg) → Option (Option (List Arg × σ))
  | none => some none
  | some (num, ap) =>
    let s := if num < 0 then putch (chr '-').toNat s else s
    some (some (ap, printnum putch 10 e.padc 64 num.natAbs e.width s))

theorem convert_number (f : Field) (len : Length) (conv : NumConv) (v : BitVec len.bits)
    : convert putch conv.char (f.escape len.lflag) (len.arg v :: ap) s =
        some (some (ap, emit putch (Item.number f len conv v).printed s)) := by
  cases conv with
  | d =>
    have hstep : convert putch (chr 'd') (f.escape len.lflag) (len.arg v :: ap) s =
        convertSigned putch (f.escape len.lflag) s (getint len.lflag (len.arg v :: ap)) := rfl
    have hsign : (if v.toInt < 0 then putch (chr '-').toNat s else s) = emit putch (sign v.toInt) s := by
      rw [sign]
      split
      . rfl
      . rfl
    rw [NumConv.char, hstep, getint_arg]
    simp only [convertSigned]
    rw [printnum_field f (by decide) (natAbs_toInt_lt v), hsign, ← emit_append]
    rfl
  | u => exact convert_unsigned f (by decide) v
  | x => exact convert_unsigned f (by decide) v
  | o => exact convert_unsigned f (by decide) v

theorem length_shown_lt (p : Option Str) : (shown p).length < 2 ^ 30 := by
  cases p with
  | none => decide
  | some p => exact p.fits.trans (by decide)

theorem convert_string (f : Field) (len : Length) (p : Option Str)
    : convert putch (chr 's') (f.escape len.lflag) (.str (p.map Str.chars) :: ap) s =
        some (some (ap, emit putch (f.ledString (shown p)) s)) := by
  have hnull : (p.map Str.chars).getD null = shown p := rfl
  have hlen := length_shown_lt p
  have hstep : strnlen (shown p) (-1) = (shown p).length := by
    rw [strnlen]
    omega
  simp only [convert, if_neg (show chr 's' ≠ chr 'c' by decide), if_true, hnull, Field.escape, hstep, printstr_eq,
    pad_eq, ← emit_append]
  rfl

theorem NumConv.ends_char (conv : NumConv) : Ends conv.char ∧ conv.char ≠ chr 'e' := by
  cases conv with
  | d => decide
  | u => decide
  | x => decide
  | o => decide

theorem vprintfmtLoop_conversion (f : Field) (len : Length) {ch : UInt8} {fuel : Nat} {fmt : List UInt8}
    {args : List Arg} {s' : σ} (h : Ends ch) (he : ch ≠ chr 'e')
    (hconvert : convert putch ch (f.escape len.lflag) args s = some (some (ap, s')))
    : vprintfmtLoop putch (fuel + 1) (Item.conversion f len ch ++ fmt) args s = vprintfmtLoop putch fuel fmt ap s' := by
  have hfmt : Item.conversion f len ch ++ fmt = chr '%' :: (f.render ++ len.render ++ ch :: fmt) := by
    simp [Item.conversion]
  rw [hfmt, vprintfmtLoop, if_neg (not_not.mpr rfl), reswitch_conversion f len h]
  simp only
  rw [if_neg he, hconvert]

/--
`vprintfmt` at a part of a format string.
-/
theorem vprintfmtLoop_item (item : Item) {fuel : Nat} {fmt : List UInt8}
    : vprintfmtLoop putch (fuel + 1) (item.render ++ fmt) (item.args ++ ap) s =
        vprintfmtLoop putch fuel fmt ap (emit putch item.printed s) := by
  cases item with
  | literal c h =>
    rw [Item.render, List.singleton_append, vprintfmtLoop, if_pos h.2]
    rfl
  | number f len conv v =>
    obtain ⟨hends, he⟩ := conv.ends_char
    exact vprintfmtLoop_conversion f len hends he (convert_number f len conv v)
  | pointer f len v =>
    refine vprintfmtLoop_conversion f len (by decide) (by decide) ?_
    have hstep : convert putch (chr 'p') (f.escape len.lflag) (.long v :: ap) s =
        some (some (ap, printnum putch 16 (f.escape len.lflag).padc 64 v.toNat (f.escape len.lflag).width
          (emit putch (codes [chr '0', chr 'x']) s))) := rfl
    rw [Item.args, List.singleton_append, hstep, printnum_field f (by decide) v.isLt, ← emit_append]
    rfl
  | char f len v => exact vprintfmtLoop_conversion f len (by decide) (by decide) rfl
  | string f len p => exact vprintfmtLoop_conversion f len (by decide) (by decide) (convert_string f len p)
  | percent f len => exact vprintfmtLoop_conversion f len (by decide) (by decide) rfl

def printed (items : List Item) : List Int := items.flatMap Item.printed

theorem vprintfmtLoop_items (items : List Item) {fuel : Nat} (h : items.length < fuel)
    : vprintfmtLoop putch fuel (format items) (args items) s = some (emit putch (printed items) s) := by
  induction items generalizing fuel s with
  | nil =>
    cases fuel with
    | zero => contradiction
    | succ fuel => rfl
  | cons item items ih =>
    cases fuel with
    | zero => contradiction
    | succ fuel =>
      rw [List.length_cons] at h
      have hstep := @vprintfmtLoop_item σ putch s (args items) item fuel (format items)
      rw [format, args, List.flatMap_cons, List.flatMap_cons]
      rw [format, args] at hstep ih
      rw [hstep, ih (by omega), ← emit_append]
      rfl

theorem length_format_ge (items : List Item) : items.length ≤ (format items).length := by
  induction items with
  | nil => exact Nat.le_refl 0
  | cons item items ih =>
    have hpos : 0 < item.render.length := by
      cases item with
      | literal c h => exact Nat.one_pos
      | number f len conv v => exact Nat.succ_pos _
      | pointer f len v => exact Nat.succ_pos _
      | char f len v => exact Nat.succ_pos _
      | string f len p => exact Nat.succ_pos _
      | percent f len => exact Nat.succ_pos _
    rw [format, List.flatMap_cons, List.length_append, List.length_cons]
    rw [format] at ih
    omega

/--
`vprintfmt` returns for every format string of this kind.
-/
theorem vprintfmt_eq (items : List Item)
    : vprintfmt putch (format items) (args items) s = some (emit putch (printed items) s) :=
  vprintfmtLoop_items items (by have := length_format_ge items; omega)

end Convert

end Printfmt
end Ucore

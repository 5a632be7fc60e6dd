import Ucore.Libs.Printfmt.Lemmas

/-!
This module contains for which format strings the printed text is the denoted one, and what `vsnprintf` stores of it.
-/

namespace Ucore
namespace Printfmt

section Item

variable {f : Field} {body : List Int} {p : List UInt8}

theorem led_padding (h : body.length < 2 ^ 31)
    : (int ((f.escape 0).width - body.length)).toNat = (int (f.padding body)).toNat := by
  simp only [Field.escape, Field.padding]
  split
  next hzero =>
    rw [int_eq, int_eq]
    omega
  next hne =>
    rw [int_int_sub, int_eq, int_eq]
    omega

theorem padc_ne_blank (h : f.minus = true) : ((f.escape 0).padc.toNat : Int) ≠ (chr ' ').toNat := by
  simp only [Field.escape, h, if_true]
  split
  . decide
  . decide

/--
Characters in front are not the same as other characters behind.
-/
theorem replicate_append_ne {a b : Int} (hab : a ≠ b) (n : Nat) {k : Nat} (hk : 0 < k) (l : List Int)
    : List.replicate n a ++ l ≠ l ++ List.replicate k b := by
  intro heq
  have hcount := congrArg (List.count b) heq
  rw [List.count_append, List.count_append, List.count_replicate_self, List.count_replicate,
    if_neg (by simpa using hab)] at hcount
  omega

/--
The same characters in front and behind are the same when the text in between is made of them, too.
-/
theorem append_replicate_eq_iff {a : Int} {k : Nat} {l : List Int} (hk : l.length ≤ k)
    : l ++ List.replicate k a = List.replicate k a ++ l ↔ ∀ c ∈ l, c = a := by
  constructor
  . intro heq
    have htake := congrArg (List.take l.length) heq
    rw [List.take_left', List.take_append_of_le_length (by simpa using hk), List.take_replicate] at htake
    . exact List.eq_replicate_iff.mp (htake.trans (by rw [Nat.min_eq_left hk])) |>.2
    . rfl
  . intro hall
    rw [List.eq_replicate_of_mem hall, List.replicate_append_replicate, List.replicate_append_replicate, Nat.add_comm]

theorem length_padded (f : Field) (sign body : List Int)
    : (f.padded sign body).length = max f.width (sign ++ body).length := by
  have hpadding : (sign ++ body).length + f.padding (sign ++ body) = max f.width (sign ++ body).length := by
    rw [Field.padding]
    omega
  rw [← hpadding]
  unfold Field.padded
  split
  . simp only [List.length_append, List.length_replicate]
  . split
    . simp only [List.length_append, List.length_replicate]
      omega
    . simp only [List.length_append, List.length_replicate]
      omega

theorem padded_of_padding_eq_zero {sign : List Int} (h : f.padding (sign ++ body) = 0)
    : f.padded sign body = sign ++ body := by
  simp only [Field.padded, h, List.replicate_zero, List.append_nil, List.nil_append, ite_self]

/--
What is in front of a text without `-`.
-/
theorem padded_eq_led (h : f.minus = false)
    : f.padded [] body = List.replicate (f.padding body) ((f.escape 0).padc.toNat : Int) ++ body := by
  simp only [Field.padded, Field.escape, h, List.nil_append, List.append_nil, Bool.false_eq_true, if_false]
  split
  . rfl
  . rfl

theorem led_eq_padded_iff (hbody : body.length < 2 ^ 31)
    : f.led body = f.padded [] body ↔ f.SoundNumber false body := by
  rw [Field.led, led_padding hbody]
  cases hminus : f.minus with
  | true =>
    cases Nat.eq_zero_or_pos (f.padding body) with
    | inl hzero =>
      rw [padded_of_padding_eq_zero hzero, hzero]
      exact iff_of_true rfl (Or.inl hzero)
    | inr hpos =>
      have hpadded : f.padded [] body = body ++ List.replicate (f.padding body) ((chr ' ').toNat : Int) := by
        simp only [Field.padded, hminus, if_true, List.nil_append]
      rw [hpadded]
      refine iff_of_false (replicate_append_ne (padc_ne_blank hminus) _ hpos body) ?_
      rintro (hzero | ⟨-, hminus', -⟩)
      . omega
      . rw [hminus] at hminus'
        exact absurd hminus' (by decide)
  | false =>
    rw [padded_eq_led hminus, List.append_left_inj, List.replicate_left_inj, toNat_int_eq_iff]
    have hzero : f.padding body = 0 → f.padding body < 2 ^ 31 := fun h => h ▸ (by decide)
    simp only [Field.SoundNumber, hminus, true_and]
    exact ⟨Or.inr, fun h => h.elim hzero id⟩

/--
A sign is followed by as many characters as there would be without it.
-/
theorem sign_led_eq_padded_iff {c : Int} (hbody : body.length < 2 ^ 31)
    : [c] ++ f.led body = f.padded [c] body ↔ f.SoundNumber true body := by
  have hpadding : f.padding ([c] ++ body) = f.padding body - 1 := by
    simp only [Field.padding, List.length_append, List.length_singleton]
    omega
  cases Nat.eq_zero_or_pos (f.padding body) with
  | inl hzero =>
    rw [padded_of_padding_eq_zero (by omega), Field.led, led_padding hbody, hzero]
    exact iff_of_true rfl (Or.inl hzero)
  | inr hpos =>
    refine iff_of_false (fun heq => ?_) (by simp [Field.SoundNumber]; omega)
    have hlength := congrArg List.length heq
    rw [length_padded, Field.led, led_padding hbody] at hlength
    simp only [List.length_append, List.length_singleton, List.length_replicate] at hlength
    have hne := @toNat_int_add_one_ne (f.padding body)
    have hwidth : f.padding body + body.length = f.width := by
      rw [Field.padding] at hpos ⊢
      omega
    omega

/--
A string is padded in front when the width is a positive `int` and there is no `-`, otherwise behind.
-/
theorem ledString_eq (f : Field) (hp : p.length < 2 ^ 30)
    : f.ledString p =
        if 0 < (f.escape 0).width ∧ (f.escape 0).padc ≠ chr '-' then
          f.led (codes p)
        else
          codes p ++ List.replicate (int (f.padding (codes p))).toNat ((chr ' ').toNat : Int) := by
  have hlength : (codes p).length = p.length := List.length_map ..
  have hbody : (codes p).length < 2 ^ 31 := by omega
  have hlow : (f.escape 0).width ≤ 2 ^ 31 - 1 ∧ -2 ^ 31 ≤ (f.escape 0).width := by
    simp only [Field.escape]
    split
    . decide
    . rw [int_eq]
      omega
  have hempty : p = [] → p.length = 0 := fun h => h ▸ rfl
  rw [← led_padding hbody, hlength]
  simp only [Field.ledString]
  split
  next hled =>
    have hright : (if p = [] then min (int ((f.escape 0).width - p.length)) 0
        else int (min (int ((f.escape 0).width - p.length)) 0 - p.length)).toNat = 0 := by
      simp only [int_eq]
      split
      . omega
      . omega
    rw [hright, Field.led, hlength, List.replicate_zero, List.append_nil]
  next hled =>
    have hright : (if p = [] then (f.escape 0).width else int ((f.escape 0).width - p.length)).toNat =
        (int ((f.escape 0).width - p.length)).toNat := by
      split
      next h =>
        have := hempty h
        rw [int_eq]
        omega
      next => rfl
    rw [hright]
    rfl

/--
The width as `vprintfmt` sees it is positive when it is an `int`.
-/
theorem width_escape (h : 0 < f.padding body) (hwidth : f.width < 2 ^ 31) : (f.escape 0).width = f.width := by
  have hpos : f.width ≠ 0 := by
    rw [Field.padding] at h
    omega
  simp only [Field.escape, if_neg hpos, int_eq]
  omega

/--
With an `int` for a width only both flags together go wrong.
-/
theorem ledString_eq_padded_iff_of_lt (hp : p.length < 2 ^ 30) (hpos : 0 < f.padding (codes p))
    (hwidth : f.width < 2 ^ 31)
    : f.ledString p = f.padded [] (codes p) ↔ ¬(f.minus = true ∧ f.zero = true) := by
  have hlength : (codes p).length = p.length := List.length_map ..
  have hfits : f.padding (codes p) < 2 ^ 31 := by
    rw [Field.padding]
    omega
  have hescape : 0 < (f.escape 0).width := by
    rw [width_escape hpos hwidth]
    rw [Field.padding] at hpos
    omega
  rw [ledString_eq f hp]
  cases hminus : f.minus with
  | false =>
    have hpadc : (f.escape 0).padc ≠ chr '-' := by
      simp only [Field.escape, hminus]
      split
      . decide
      . decide
    rw [if_pos ⟨hescape, hpadc⟩, led_eq_padded_iff (by omega)]
    exact iff_of_true (Or.inr ⟨rfl, hminus, hfits⟩) (by simp)
  | true =>
    cases hzero : f.zero with
    | false =>
      have hpadc : (f.escape 0).padc = chr '-' := by simp [Field.escape, hminus, hzero]
      rw [if_neg (by simp [hpadc]), toNat_int_eq_iff.mpr hfits]
      refine iff_of_true ?_ (by simp)
      simp only [Field.padded, hminus, if_true, List.nil_append]
    | true =>
      have hpadc : (f.escape 0).padc ≠ chr '-' := by
        simp only [Field.escape, hzero, if_true]
        decide
      rw [if_pos ⟨hescape, hpadc⟩, led_eq_padded_iff (by omega)]
      refine iff_of_false ?_ (by simp)
      rintro (h | ⟨-, h, -⟩)
      . omega
      . rw [hminus] at h
        exact absurd h (by decide)

/--
With a longer width a string is padded behind or not enough.
-/
theorem ledString_eq_padded_iff_of_ge (hp : p.length < 2 ^ 30) (hwidth : 2 ^ 31 ≤ f.width)
    : f.ledString p = f.padded [] (codes p) ↔
        f.padding (codes p) < 2 ^ 31 ∧ (f.minus = true ∨ f.zero = false ∧ ∀ c ∈ p, c = chr ' ') := by
  have hlength : (codes p).length = p.length := List.length_map ..
  have hpadding : f.padding (codes p) = f.width - p.length := by rw [Field.padding, hlength]
  have htotal (h : f.ledString p = f.padded [] (codes p)) : f.padding (codes p) < 2 ^ 31 := by
    have hlen := congrArg List.length h
    rw [length_padded, List.nil_append, ledString_eq f hp, Field.led, led_padding (by omega)] at hlen
    rw [← toNat_int_eq_iff]
    split at hlen
    . rw [List.length_append, List.length_replicate] at hlen
      omega
    . rw [List.length_append, List.length_replicate] at hlen
      omega
  by_cases hfits : f.padding (codes p) < 2 ^ 31
  . have hescape : ¬0 < (f.escape 0).width := by
      simp only [Field.escape, if_neg (show f.width ≠ 0 by omega), int_eq]
      omega
    rw [ledString_eq f hp, if_neg fun hled => hescape hled.1, toNat_int_eq_iff.mpr hfits]
    simp only [hfits, true_and]
    cases hminus : f.minus with
    | true =>
      refine iff_of_true ?_ (Or.inl rfl)
      simp only [Field.padded, hminus, if_true, List.nil_append]
    | false =>
      rw [padded_eq_led hminus]
      cases hzero : f.zero with
      | true =>
        have hpadc : ((f.escape 0).padc.toNat : Int) ≠ (chr ' ').toNat := by
          simp only [Field.escape, hzero, if_true]
          decide
        refine iff_of_false (fun h => replicate_append_ne hpadc _ (by omega) _ h.symm) (by simp)
      | false =>
        have hpadc : ((f.escape 0).padc.toNat : Int) = (chr ' ').toNat := by simp [Field.escape, hminus, hzero]
        have hall : (∀ c ∈ codes p, c = ((chr ' ').toNat : Int)) ↔ ∀ c ∈ p, c = chr ' ' := by
          simp only [codes, List.forall_mem_map, Nat.cast_inj, UInt8.toNat_inj]
        rw [hpadc, append_replicate_eq_iff (by omega), hall]
        simp
  . exact iff_of_false (fun h => hfits (htotal h)) fun h => hfits h.1

theorem ledString_eq_padded_iff (hp : p.length < 2 ^ 30) : f.ledString p = f.padded [] (codes p) ↔ f.SoundString p := by
  have hlength : (codes p).length = p.length := List.length_map ..
  cases Nat.eq_zero_or_pos (f.padding (codes p)) with
  | inl hzero =>
    refine iff_of_true ?_ (Or.inl hzero)
    rw [ledString_eq f hp, padded_of_padding_eq_zero hzero, Field.led, led_padding (by omega), hzero]
    split
    . rfl
    . exact List.append_nil _
  | inr hpos =>
    have hne : f.padding (codes p) ≠ 0 := by omega
    by_cases hwidth : f.width < 2 ^ 31
    . have hge : ¬2 ^ 31 ≤ f.width := by omega
      simp only [ledString_eq_padded_iff_of_lt hp hpos hwidth, Field.SoundString, hne, hwidth, hge, true_and, false_and,
        false_or, or_false]
    . have hge : 2 ^ 31 ≤ f.width := by omega
      simp only [ledString_eq_padded_iff_of_ge hp hge, Field.SoundString, hne, hwidth, hge, true_and, false_and,
        false_or]

theorem length_digits_lt {base num : Nat} (hbase : 8 ≤ base) (hnum : num < 2 ^ 64)
    : (digits base num).length < 2 ^ 31 := by
  have hle : (Numeral.digits base num).length ≤ 64 := by
    refine Numeral.length_digits_le (by omega) (by decide) (hnum.trans_le (Nat.pow_le_pow_left (by omega) 64))
  rw [digits, codes, List.length_map, List.length_map]
  omega

/--
What is printed for a part of a format string is what it denotes exactly when the part is sound.
-/
theorem Item.printed_eq_text_iff (item : Item) : item.printed = item.text ↔ item.Sound := by
  cases item with
  | literal c h => exact iff_of_true rfl trivial
  | number f len conv v =>
    have hlength : (digits conv.base (conv.toInt v).natAbs).length < 2 ^ 31 := by
      refine length_digits_lt ?_ ?_
      . cases conv with
        | d => decide
        | u => decide
        | x => decide
        | o => decide
      . cases conv with
        | d => exact natAbs_toInt_lt v
        | u => exact toNat_lt_of_bits v
        | x => exact toNat_lt_of_bits v
        | o => exact toNat_lt_of_bits v
    simp only [Item.printed, Item.text, Item.Sound, sign]
    split
    next hneg =>
      rw [decide_eq_true hneg]
      exact sign_led_eq_padded_iff hlength
    next hneg =>
      rw [decide_eq_false hneg]
      exact led_eq_padded_iff hlength
  | pointer f len v =>
    simp only [Item.printed, Item.text, Item.Sound]
    rw [List.append_right_inj]
    exact led_eq_padded_iff (length_digits_lt (by decide) v.isLt)
  | char f len v => exact iff_of_true rfl trivial
  | string f len p => exact ledString_eq_padded_iff (length_shown_lt p)
  | percent f len => exact iff_of_true rfl trivial

end Item

section Sprintf

variable {b : Sprintbuf} {text : List Int}

/--
The memory after `n` characters of a text have been placed at `buf`.
-/
def placed (text : List Int) (buf n : Nat) (mem : Nat → UInt8) : Nat → UInt8 := fun i =>
  if buf ≤ i ∧ i < buf + n then UInt8.ofInt (text.getD (i - buf) 0) else mem i

/--
The memory after the longest part of a text for which there is room has been stored with a `NUL` behind it.
-/
def stored (text : List Int) (str size : Nat) (mem : Nat → UInt8) : Nat → UInt8 :=
  let n := min text.length (size - 1)
  Function.update (placed text str n mem) (str + n) 0

theorem placed_zero {buf : Nat} {mem : Nat → UInt8} : placed text buf 0 mem = mem := by
  funext i
  rw [placed, if_neg (by omega)]

theorem placed_cons {buf n : Nat} {c : Int} {mem : Nat → UInt8}
    : placed text (buf + 1) n (fun i => if i = buf then UInt8.ofInt c else mem i) =
        placed (c :: text) buf (n + 1) mem := by
  funext i
  simp only [placed]
  by_cases hi : i = buf
  . rw [if_neg (by omega), if_pos hi, if_pos (by omega), hi, Nat.sub_self, List.getD_cons_zero]
  . by_cases hin : buf + 1 ≤ i ∧ i < buf + 1 + n
    . obtain ⟨j, rfl⟩ : ∃ j, i = buf + 1 + j := ⟨i - (buf + 1), by omega⟩
      have hj : buf + 1 + j - buf = j + 1 := by omega
      rw [if_pos hin, if_pos (by omega), hj, Nat.add_sub_cancel_left, List.getD_cons_succ]
    . rw [if_neg hin, if_neg hi, if_neg (by omega)]

theorem int_int_add {x y : Int} : int (int x + y) = int (x + y) := by
  unfold int
  exact Int.bmod_add_bmod

/--
The characters are placed up to the end of the buffer, and all of them are counted.
-/
theorem emit_sprintputch (hbuf : b.buf ≤ b.ebuf) {cnt : Int} (hcnt : b.cnt = int cnt)
    : emit sprintputch text b =
        ⟨b.buf + min text.length (b.ebuf - b.buf), b.ebuf, int (cnt + text.length),
          placed text b.buf (min text.length (b.ebuf - b.buf)) b.mem⟩ := by
  induction text generalizing b cnt with
  | nil =>
    obtain ⟨buf, ebuf, cnt', mem⟩ := b
    obtain rfl : cnt' = int cnt := hcnt
    simp [placed_zero]
  | cons c text ih =>
    have hlength : cnt + 1 + (text.length : Int) = cnt + (c :: text).length := by
      rw [List.length_cons]
      push_cast
      omega
    have hcnt' : int (b.cnt + 1) = int (cnt + 1) := by rw [hcnt, int_int_add]
    rw [emit_cons, sprintputch]
    split
    next hroom =>
      have hroom : b.buf + 1 ≤ b.ebuf := hroom
      have hmin : min (c :: text).length (b.ebuf - b.buf) = min text.length (b.ebuf - (b.buf + 1)) + 1 := by
        rw [List.length_cons]
        omega
      have hnext := @ih ⟨b.buf + 1, b.ebuf, int (b.cnt + 1), fun i => if i = b.buf then UInt8.ofInt c else b.mem i⟩
        hroom _ hcnt'
      rw [hnext, hmin, hlength, ← placed_cons, Nat.add_assoc, Nat.add_comm 1]
    next hfull =>
      have hfull : b.ebuf - b.buf = 0 := by
        have : ¬b.buf < b.ebuf := hfull
        omega
      have hnext := @ih ⟨b.buf, b.ebuf, int (b.cnt + 1), b.mem⟩ hbuf _ hcnt'
      rw [hnext, hlength]
      simp only [hfull, Nat.min_zero, placed_zero]

end Sprintf

/--
What is right for a format string: any `putch` gets exactly the text, and `vsnprintf` returns its length and stores it
in any buffer of at least one byte.
-/
structure Right (items : List Item) : Prop where
  printed : ∀ (σ : Type) (putch : Int → σ → σ) (s : σ),
    vprintfmt putch (format items) (args items) s = some (emit putch (text items) s)
  returned : ∀ (str size : Nat) (mem : Nat → UInt8), str ≠ 0 → 1 ≤ size → str + size ≤ 2 ^ 64 →
    vsnprintf str size (format items) (args items) mem =
      some (((text items).length : Int), stored (text items) str size mem)

theorem vsnprintf_eq (items : List Item) {str size : Nat} (mem : Nat → UInt8) (hstr : str ≠ 0) (hsize : 1 ≤ size)
    (hfits : str + size ≤ 2 ^ 64)
    : vsnprintf str size (format items) (args items) mem =
        some (int (printed items).length, stored (printed items) str size mem) := by
  have hebuf : (str + size + 2 ^ 64 - 1) % 2 ^ 64 = str + (size - 1) := by omega
  rw [vsnprintf]
  simp only [hebuf]
  rw [if_neg (by omega), vprintfmt_eq, @emit_sprintputch ⟨str, str + (size - 1), 0, mem⟩ _ (by simp) 0 rfl]
  simp only [Option.map_some, zero_add, Nat.add_sub_cancel_left]
  rw [Option.some_inj, Prod.mk.injEq]
  exact ⟨rfl, funext fun i => (Function.update_apply ..).symm⟩

/--
A text can be printed to a list.
-/
theorem emit_append_singleton (l m : List Int) : emit (fun c l => l ++ [c]) m l = l ++ m := by
  induction m generalizing l with
  | nil => exact (List.append_nil l).symm
  | cons c m ih => rw [emit_cons, ih, List.append_assoc, List.singleton_append]

theorem right_iff (items : List Item) : Right items ↔ printed items = text items ∧ (text items).length < 2 ^ 31 := by
  constructor
  . intro h
    have heq := h.printed (List Int) (fun c l => l ++ [c]) []
    rw [vprintfmt_eq, Option.some_inj, emit_append_singleton, emit_append_singleton] at heq
    have hreturned := h.returned 1 1 (fun _ => 0) (by decide) (by decide) (by decide)
    rw [vsnprintf_eq items _ (by decide) (by decide) (by decide), Option.some_inj, Prod.mk.injEq] at hreturned
    have htext : printed items = text items := heq
    refine ⟨htext, toNat_int_eq_iff.mp ?_⟩
    rw [← htext] at hreturned ⊢
    rw [hreturned.1, Int.toNat_natCast]
  . intro ⟨heq, hlength⟩
    have hint : int (printed items).length = (text items).length := by
      rw [heq, int_eq]
      omega
    constructor
    . intro σ putch s
      rw [vprintfmt_eq, heq]
    . intro str size mem hstr hsize hfits
      rw [vsnprintf_eq items mem hstr hsize hfits, hint, heq]

theorem printed_eq_text (items : List Item) (h : ∀ item ∈ items, item.Sound) : printed items = text items := by
  rw [printed, text]
  exact List.flatMap_congr fun item hmem => item.printed_eq_text_iff.mpr (h item hmem)

/--
Up to every part of a format string the output is right exactly when each part is sound and the text is no longer than
an `int` can count.
-/
theorem formatted_output_iff (items : List Item)
    : (∀ k, Right (items.take k)) ↔ (∀ item ∈ items, item.Sound) ∧ (text items).length < 2 ^ 31 := by
  constructor
  . intro h
    refine ⟨fun item hmem => ?_, ?_⟩
    . obtain ⟨k, hk, rfl⟩ := List.mem_iff_getElem.mp hmem
      have hbefore := ((right_iff _).mp (h k)).1
      have hbehind := ((right_iff _).mp (h (k + 1))).1
      rw [List.take_succ_eq_append_getElem hk, printed, text, List.flatMap_append, List.flatMap_append] at hbehind
      rw [printed, text] at hbefore
      rw [hbefore, List.append_right_inj, List.flatMap_singleton, List.flatMap_singleton] at hbehind
      exact items[k].printed_eq_text_iff.mp hbehind
    . have hall := ((right_iff _).mp (h items.length)).2
      rwa [List.take_length] at hall
  . intro ⟨hsound, hlength⟩ k
    refine (right_iff _).mpr ⟨printed_eq_text _ fun item hmem => hsound item (List.mem_of_mem_take hmem), ?_⟩
    have hprefix : (text items).length = (text (items.take k)).length + (text (items.drop k)).length := by
      rw [text, text, text, ← List.length_append, ← List.flatMap_append, List.take_append_drop]
    omega

/--
`%-5d` pads `42` on the left.
-/
theorem not_formatted_output : ¬∀ items : List Item, Right items := by
  intro h
  have hsound := ((right_iff _).mp (h [.number ⟨true, false, 5⟩ .none .d 42#32])).1
  have hne : printed [.number ⟨true, false, 5⟩ .none .d 42#32] ≠ text [.number ⟨true, false, 5⟩ .none .d 42#32] := by
    decide
  exact hne hsound

end Printfmt
end Ucore

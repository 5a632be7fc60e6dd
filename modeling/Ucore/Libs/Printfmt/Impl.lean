import Mathlib
import Ucore.Libs.Error
import Ucore.Libs.String

/-!
This module contains the formatted output of libs/printfmt.c. Strings are without the `NUL` that ends them.
-/

namespace Ucore

namespace Printfmt

/--
What arithmetic on an `int` gives.
-/
def int (x : Int) : Int := x.bmod (2 ^ 32)

/--
What `va_arg` finds: an `int`, something of the size of a `long`, or a `char *` that may be `NULL`.
-/
inductive Arg where
  | int (v : BitVec 32)
  | long (v : BitVec 64)
  | str (p : Option (List UInt8))

/--
What has been read of a `%`-escape sequence.
-/
structure Escape where
  padc : UInt8
  width : Int
  precision : Int
  lflag : Nat
  altflag : Bool

def Escape.init : Escape := ⟨chr ' ', -1, -1, 0, false⟩

def maxerror : Nat := 24

def errorString : Nat → Option String
  | 1 => some "unspecified error"
  | 2 => some "bad process"
  | 3 => some "invalid parameter"
  | 4 => some "out of memory"
  | 5 => some "out of processes"
  | 6 => some "segmentation fault"
  | 8 => some "invalid elf file"
  | 9 => some "process is killed"
  | 10 => some "panic failure"
  | 13 => some "no such device"
  | 14 => some "device not available"
  | 15 => some "device/file is busy"
  | 16 => some "no such file or directory"
  | 17 => some "is a directory"
  | 18 => some "not a directory"
  | 19 => some "cross device link"
  | 20 => some "unimplemented feature"
  | 21 => some "illegal seek"
  | 22 => some "too many files are open"
  | 23 => some "file or directory already exists"
  | 24 => some "directory is not empty"
  | _ => none

def bytes (s : String) : List UInt8 := s.toList.map chr

/--
The text that is printed for a `NULL`.
-/
def null : List UInt8 := [chr '(', chr 'n', chr 'u', chr 'l', chr 'l', chr ')']

/--
The characters from which `printnum` takes its digits.
-/
def digitChar (d : Nat) : UInt8 := if d < 10 then chr '0' + d.toUInt8 else chr 'a' + (d - 10).toUInt8

def isDigit (ch : UInt8) : Bool := chr '0' ≤ ch ∧ ch ≤ chr '9'

def getuint (lflag : Nat) : List Arg → Option (Nat × List Arg)
  | .long v :: ap => if 0 < lflag then some (v.toNat, ap) else none
  | .int v :: ap => if 0 < lflag then none else some (v.toNat, ap)
  | _ => none

def getint (lflag : Nat) : List Arg → Option (Int × List Arg)
  | .long v :: ap => if 0 < lflag then some (v.toInt, ap) else none
  | .int v :: ap => if 0 < lflag then none else some (v.toInt, ap)
  | _ => none

/--
`-1` means no limit, as its conversion to `size_t` is the largest number.
-/
def strnlen (p : List UInt8) (len : Int) : Nat := min p.length (len % 2 ^ 64).toNat

def processPrecision (e : Escape) (precision : Int) : Escape :=
  if e.width < 0 then { e with width := precision, precision := -1 } else { e with precision }

/--
The text from `reswitch` on up to the conversion: its character, what stands behind it, and the arguments that are left.
`number` is the number that the digits so far amount to, if there are any.
-/
def reswitch (e : Escape) (number : Option Int)
    : List UInt8 → List Arg → Option (UInt8 × Escape × List UInt8 × List Arg)
  | [], ap => some (0, (number.elim e (processPrecision e)), [], ap)
  | ch :: fmt, ap =>
    if number.isSome ∧ isDigit ch then
      reswitch e (number.map fun precision => int (precision * 10 + ch.toNat - (chr '0').toNat)) fmt ap
    else
      let e := number.elim e (processPrecision e)
      if ch = chr '-' then
        reswitch { e with padc := chr '-' } none fmt ap
      else if ch = chr '0' then
        reswitch { e with padc := chr '0' } none fmt ap
      else if isDigit ch then
        reswitch e (some (ch.toNat - (chr '0').toNat)) fmt ap
      else if ch = chr '*' then
        match ap with
        | .int v :: ap => reswitch (processPrecision e v.toInt) none fmt ap
        | _ => none
      else if ch = chr '.' then
        reswitch { e with width := if e.width < 0 then 0 else e.width } none fmt ap
      else if ch = chr '#' then
        reswitch { e with altflag := true } none fmt ap
      else if ch = chr 'l' then
        reswitch { e with lflag := e.lflag + 1 } none fmt ap
      else
        some (ch, e, fmt, ap)

section Output

variable {σ : Type} (putch : Int → σ → σ)

/--
The loops that print `padc` while the width is positive.
-/
def pad (padc : UInt8) : Nat → σ → σ
  | 0, s => s
  | n + 1, s => pad padc n (putch padc.toNat s)

/--
`fuel` is the number of digits there can be.
-/
def printnum (base : Nat) (padc : UInt8) : Nat → Nat → Int → σ → σ
  | 0, _, _, s => s
  | fuel + 1, num, width, s =>
    let s :=
      if base ≤ num then
        printnum base padc fuel (num / base) (int (width - 1)) s
      else
        pad putch padc (int (width - 1)).toNat s
    putch (digitChar (num % base)).toNat s

/--
The loop over the characters of a string, with the width that is left when it ends.
-/
def printstr (altflag : Bool) : List UInt8 → Int → Int → σ → Int × σ
  | [], _, width, s => (width, s)
  | ch :: p, precision, width, s =>
    if precision < 0 ∨ 0 ≤ precision - 1 then
      let ch := if altflag ∧ (ch < chr ' ' ∨ chr '~' < ch) then chr '?' else ch
      printstr altflag p (if precision < 0 then precision else precision - 1) (int (width - 1)) (putch ch.toNat s)
    else
      (width, s)

/--
The conversions that take their text from one argument at most, `none` for a character that is no conversion.
-/
def convert (ch : UInt8) (e : Escape) (ap : List Arg) (s : σ) : Option (Option (List Arg × σ)) :=
  if ch = chr 'c' then
    match ap with
    | .int v :: ap => some (some (ap, putch v.toInt s))
    | _ => some none
  else if ch = chr 's' then
    match ap with
    | .str p :: ap =>
      let p := p.getD null
      let left := if 0 < e.width ∧ e.padc ≠ chr '-' then int (e.width - strnlen p e.precision) else 0
      let s := pad putch e.padc left.toNat s
      let width := if 0 < e.width ∧ e.padc ≠ chr '-' then min left 0 else e.width
      let (width, s) := printstr putch e.altflag p e.precision width s
      some (some (ap, pad putch (chr ' ') width.toNat s))
    | _ => some none
  else if ch = chr 'd' then
    match getint e.lflag ap with
    | none => some none
    | some (num, ap) =>
      let s := if num < 0 then putch (chr '-').toNat s else s
      some (some (ap, printnum putch 10 e.padc 64 num.natAbs e.width s))
  else if ch = chr 'u' then
    match getuint e.lflag ap with
    | none => some none
    | some (num, ap) => some (some (ap, printnum putch 10 e.padc 64 num e.width s))
  else if ch = chr 'o' then
    match getuint e.lflag ap with
    | none => some none
    | some (num, ap) => some (some (ap, printnum putch 8 e.padc 64 num e.width s))
  else if ch = chr 'p' then
    match ap with
    | .long v :: ap =>
      let s := putch (chr 'x').toNat (putch (chr '0').toNat s)
      some (some (ap, printnum putch 16 e.padc 64 v.toNat e.width s))
    | _ => some none
  else if ch = chr 'x' then
    match getuint e.lflag ap with
    | none => some none
    | some (num, ap) => some (some (ap, printnum putch 16 e.padc 64 num e.width s))
  else if ch = chr '%' then
    some (some (ap, putch ch.toNat s))
  else
    none

/--
The loop of `vprintfmt`. It has no result where `va_arg` does not find an argument of the type it asks for.
-/
def vprintfmtLoop : Nat → List UInt8 → List Arg → σ → Option σ
  | 0, _, _, _ => none
  | _ + 1, [], _, s => some s
  | fuel + 1, ch :: fmt, ap, s =>
    if ch ≠ chr '%' then
      vprintfmtLoop fuel fmt ap (putch ch.toNat s)
    else
      match reswitch .init none fmt ap with
      | none => none
      | some (ch, e, rest, ap) =>
        if ch = chr 'e' then
          match ap with
          | .int v :: ap =>
            let err := if v.toInt < 0 then int (-v.toInt) else v.toInt
            if err < 0 then
              none
            else
              match if err.toNat ≤ maxerror then errorString err.toNat else none with
              | none =>
                (vprintfmtLoop fuel (bytes "error %d") [.int (BitVec.ofInt 32 err)] s).bind (vprintfmtLoop fuel rest ap)
              | some p => (vprintfmtLoop fuel (bytes "%s") [.str (some (bytes p))] s).bind (vprintfmtLoop fuel rest ap)
          | _ => none
        else
          match convert putch ch e ap s with
          | some (some (ap, s)) => vprintfmtLoop fuel rest ap s
          | some none => none
          -- print it literally, from behind the `%` on
          | none => vprintfmtLoop fuel fmt ap (putch (chr '%').toNat s)

/--
The fuel is enough for every character, and for those of the message that `%e` prints.
-/
def vprintfmt (fmt : List UInt8) (ap : List Arg) (s : σ) : Option σ := vprintfmtLoop putch (fmt.length + 16) fmt ap s

end Output

/--
The buffer of `vsnprintf` and the memory it lies in.
-/
structure Sprintbuf where
  buf : Nat
  ebuf : Nat
  cnt : Int
  mem : Nat → UInt8

def sprintputch (ch : Int) (b : Sprintbuf) : Sprintbuf :=
  let b := { b with cnt := int (b.cnt + 1) }
  if b.buf < b.ebuf then
    { b with buf := b.buf + 1, mem := fun i => if i = b.buf then UInt8.ofInt ch else b.mem i }
  else
    b

def vsnprintf (str size : Nat) (fmt : List UInt8) (ap : List Arg) (mem : Nat → UInt8) : Option (Int × (Nat → UInt8)) :=
  let b : Sprintbuf := ⟨str, (str + size + 2 ^ 64 - 1) % 2 ^ 64, 0, mem⟩
  if str = 0 ∨ b.ebuf < b.buf then
    some (-Errno.inval.toInt, mem)
  else
    (vprintfmt sprintputch fmt ap b).map fun b => (b.cnt, fun i => if i = b.buf then 0 else b.mem i)

end Printfmt
end Ucore

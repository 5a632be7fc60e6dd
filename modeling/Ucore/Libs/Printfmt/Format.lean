import Ucore.Lib.Numeral
import Ucore.Libs.Printfmt.Impl

/-!
This module contains format strings as rows of literal characters and conversions, with the text that they denote.
-/

namespace Ucore
namespace Printfmt

/--
The size of the machine's memory in bytes.
-/
def kmemsize : Nat := 0x7E00000

/--
A string that lies in memory.
-/
structure Str where
  chars : List UInt8
  nonzero : ∀ c ∈ chars, c ≠ 0
  fits : chars.length < kmemsize

/--
The flags and the width of a conversion, `0` if it has no width.
-/
structure Field where
  minus : Bool
  zero : Bool
  width : Nat
  deriving DecidableEq

inductive Length where
  | none
  | l
  | ll
  deriving DecidableEq

namespace Length

/--
The size of the number that belongs to it.
-/
def bits : Length → Nat
  | none => 32
  | l => 64
  | ll => 64

def lflag : Length → Nat
  | none => 0
  | l => 1
  | ll => 2

def render (len : Length) : List UInt8 := List.replicate len.lflag (chr 'l')

def arg : (len : Length) → BitVec len.bits → Arg
  | none, v => .int v
  | l, v => .long v
  | ll, v => .long v

end Length

inductive NumConv where
  | d
  | u
  | x
  | o
  deriving DecidableEq

namespace NumConv

def char : NumConv → UInt8
  | d => chr 'd'
  | u => chr 'u'
  | x => chr 'x'
  | o => chr 'o'

def base : NumConv → Nat
  | d => 10
  | u => 10
  | x => 16
  | o => 8

/--
The number that the conversion shows.
-/
def toInt (conv : NumConv) {n : Nat} (v : BitVec n) : Int :=
  match conv with
  | d => v.toInt
  | _ => v.toNat

end NumConv

/--
A part of a format string with the argument that belongs to it.
-/
inductive Item where
  | literal (c : UInt8) (h : c ≠ 0 ∧ c ≠ chr '%')
  | number (f : Field) (len : Length) (conv : NumConv) (v : BitVec len.bits)
  | pointer (f : Field) (len : Length) (v : BitVec 64)
  | char (f : Field) (len : Length) (v : BitVec 32)
  | string (f : Field) (len : Length) (p : Option Str)
  | percent (f : Field) (len : Length)

def Field.render (f : Field) : List UInt8 :=
  (if f.minus then [chr '-'] else []) ++ (if f.zero then [chr '0'] else []) ++
    if f.width = 0 then [] else (Numeral.digits 10 f.width).map digitChar

namespace Item

/--
How a conversion is written.
-/
def conversion (f : Field) (len : Length) (ch : UInt8) : List UInt8 := chr '%' :: f.render ++ len.render ++ [ch]

def render : Item → List UInt8
  | literal c _ => [c]
  | number f len conv _ => conversion f len conv.char
  | pointer f len _ => conversion f len (chr 'p')
  | char f len _ => conversion f len (chr 'c')
  | string f len _ => conversion f len (chr 's')
  | percent f len => conversion f len (chr '%')

def args : Item → List Arg
  | literal _ _ => []
  | number _ len _ v => [len.arg v]
  | pointer _ _ v => [.long v]
  | char _ _ v => [.int v]
  | string _ _ p => [.str (p.map Str.chars)]
  | percent _ _ => []

end Item

def codes (p : List UInt8) : List Int := p.map fun c => (c.toNat : Int)

/--
A number without its sign.
-/
def digits (base num : Nat) : List Int := codes ((Numeral.digits base num).map digitChar)

/--
How many characters a text is padded with.
-/
def Field.padding (f : Field) (text : List Int) : Nat := f.width - text.length

/--
A text of at least the width of the field: on the right it is padded with blanks, on the left with blanks or behind the
sign with zeros.
-/
def Field.padded (f : Field) (sign body : List Int) : List Int :=
  let padding := f.padding (sign ++ body)
  if f.minus then
    sign ++ body ++ List.replicate padding ((chr ' ').toNat : Int)
  else if f.zero then
    sign ++ List.replicate padding ((chr '0').toNat : Int) ++ body
  else
    List.replicate padding ((chr ' ').toNat : Int) ++ sign ++ body

def sign (num : Int) : List Int := if num < 0 then codes [chr '-'] else []

/--
The characters that a `char *` stands for.
-/
def shown (p : Option Str) : List UInt8 := (p.map Str.chars).getD null

/--
The text that a part of a format string denotes. A width makes no difference to a character.
-/
def Item.text : Item → List Int
  | literal c _ => codes [c]
  | number f _ conv v => f.padded (sign (conv.toInt v)) (digits conv.base (conv.toInt v).natAbs)
  | pointer f _ v => codes [chr '0', chr 'x'] ++ f.padded [] (digits 16 v.toNat)
  | char _ _ v => [v.toInt]
  | string f _ p => f.padded [] (codes (shown p))
  | percent _ _ => codes [chr '%']

/--
The padding of a number is right when there is none, or when it is in front of a number without a sign and no longer
than an `int` can count.
-/
def Field.SoundNumber (f : Field) (negative : Bool) (text : List Int) : Prop :=
  f.padding text = 0 ∨ negative = false ∧ f.minus = false ∧ f.padding text < 2 ^ 31

/--
The padding of a string is right when there is none, or when the width is an `int` and not both flags are there. When
the width is no `int` the string is padded with blanks on the right, as long as an `int` can count them.
-/
def Field.SoundString (f : Field) (p : List UInt8) : Prop :=
  f.padding (codes p) = 0 ∨ f.width < 2 ^ 31 ∧ ¬(f.minus = true ∧ f.zero = true) ∨
    2 ^ 31 ≤ f.width ∧ f.padding (codes p) < 2 ^ 31 ∧
      (f.minus = true ∨ f.zero = false ∧ ∀ c ∈ p, c = chr ' ')

def Item.Sound : Item → Prop
  | number f _ conv v => f.SoundNumber (decide (conv.toInt v < 0)) (digits conv.base (conv.toInt v).natAbs)
  | pointer f _ v => f.SoundNumber false (digits 16 v.toNat)
  | string f _ p => f.SoundString (shown p)
  | _ => True

def format (items : List Item) : List UInt8 := items.flatMap Item.render

def args (items : List Item) : List Arg := items.flatMap Item.args

def text (items : List Item) : List Int := items.flatMap Item.text

end Printfmt
end Ucore

import Ucore.Lib.Ring

/-!
This module contains the input of the console (kern/driver/console.c): the circular buffer between the interrupts that
fill it and `cons_getc`.
-/

namespace Ucore

def consbufsize : Nat := 512

structure Cons where
  buf : Nat → UInt8
  rpos : Nat
  wpos : Nat
  rpos_lt : rpos < consbufsize
  wpos_lt : wpos < consbufsize

namespace Cons

def init : Cons where
  buf := fun _ => 0
  rpos := 0
  wpos := 0
  rpos_lt := by decide
  wpos_lt := by decide

/--
`none` is the negative answer of `sbi_console_getchar`, with which there are no more characters.
-/
def serialProcData : Option UInt8 → Option UInt8
  | none => none
  | some c => if c = 127 then some 8 else some c

/--
The statements of `cons_intr` for a character.
-/
def put (cons : Cons) (c : UInt8) : Cons where
  buf := Function.update cons.buf cons.wpos c
  rpos := cons.rpos
  wpos := Ring.next consbufsize cons.wpos
  rpos_lt := cons.rpos_lt
  wpos_lt := Ring.next_lt cons.wpos_lt

/--
The list holds the characters that `sbi_console_getchar` returns before it returns `-1`.
-/
def consIntr (proc : Option UInt8 → Option UInt8) (cons : Cons) : List UInt8 → Cons
  | [] => cons
  | x :: xs =>
    match proc (some x) with
    | none => cons
    | some c => consIntr proc (if c ≠ 0 then cons.put c else cons) xs

def serialIntr (cons : Cons) (chars : List UInt8) : Cons := cons.consIntr serialProcData chars

/--
The part of `cons_getc` behind `serial_intr`.
-/
def grab (cons : Cons) : UInt8 × Cons :=
  if cons.rpos ≠ cons.wpos then
    (cons.buf cons.rpos, { cons with rpos := Ring.next consbufsize cons.rpos, rpos_lt := Ring.next_lt cons.rpos_lt })
  else
    (0, cons)

def consGetc (cons : Cons) (chars : List UInt8) : UInt8 × Cons := (cons.serialIntr chars).grab

end Cons
end Ucore

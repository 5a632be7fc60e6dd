import Mathlib
import Ucore.Lib.CString
import Ucore.Libs.String

/-!
This module contains `gettoken` of user/sh.c and the tokens of a command line.
-/

namespace Ucore

/--
The bytes of a command line of `n` characters, with the `NUL` that ends it, and where `gettoken` goes on, `none` for
`NULL`.
-/
structure Cmdline where
  n : Nat
  bytes : Nat → UInt8
  p1 : Option Nat

namespace Cmdline

def whitespace : List UInt8 := [chr ' ', chr '\t', chr '\r', chr '\n']

def symbols : List UInt8 := [chr '<', chr '|', chr '>', chr '&', chr ';']

/--
There is no result outside the line.
-/
def read (l : Cmdline) (s : Nat) : Option UInt8 := if s ≤ l.n then some (l.bytes s) else none

def write (l : Cmdline) (s : Nat) (c : UInt8) : Option Cmdline :=
  if s ≤ l.n then some { l with bytes := Function.update l.bytes s c } else none

/--
The loop over the blanks in front of a token.
-/
def skipBlanks : Nat → Cmdline → Nat → Option (Cmdline × Nat)
  | 0, _, _ => none
  | fuel + 1, l, s => do
    let c ← l.read s
    if strchr whitespace c then
      let l ← l.write s 0
      skipBlanks fuel l (s + 1)
    else
      return (l, s)

/--
The loop over the characters of a word.
-/
def scanWord : Nat → Bool → Cmdline → Nat → Option (Cmdline × Nat)
  | 0, _, _, _ => none
  | fuel + 1, flag, l, s => do
    let c ← l.read s
    if c ≠ 0 ∧ (flag ∨ strchr (whitespace ++ symbols) c = false) then
      if c = chr '"' then
        let l ← l.write s (chr ' ')
        scanWord fuel (!flag) l (s + 1)
      else
        scanWord fuel flag l (s + 1)
    else
      return (l, s)

/--
Where the next call goes on.
-/
def advance (l : Cmdline) (s : Nat) : Option Cmdline := do
  let c ← l.read s
  return { l with p1 := if c ≠ 0 then some s else none }

/--
The token with what `*p2` points to, `none` for a `0`. The fuel is enough for every character of the line.
-/
def gettoken (l : Cmdline) : Option (Option (UInt8 × Nat) × Cmdline) :=
  match l.p1 with
  | none => some (none, l)
  | some s => do
    let (l, p2) ← skipBlanks (l.n + 1) l s
    let c ← l.read p2
    if c = 0 then
      return (none, l)
    else if strchr symbols c then
      let l ← l.write p2 0
      let l ← l.advance (p2 + 1)
      return (some (c, p2), l)
    else
      let (l, s) ← scanWord (l.n + 1) false l p2
      let l ← l.advance s
      return (some (chr 'w', p2), l)

/--
The results of the first calls of `gettoken`, and the line after them.
-/
def calls : Nat → Cmdline → Option (List (Option (UInt8 × Nat)) × Cmdline)
  | 0, l => some ([], l)
  | m + 1, l => do
    let (results, l) ← calls m l
    let (result, l) ← gettoken l
    return (results ++ [result], l)

end Cmdline

namespace Cmdline

open Cmdline

inductive Token where
  | symbol (c : UInt8)
  | word (run : List UInt8)
  deriving DecidableEq

/--
The longest run at the front of a text that a word can be, and what stands behind it. Between double quotes every
character belongs to it.
-/
def takeRun : Bool → List UInt8 → List UInt8 × List UInt8
  | _, [] => ([], [])
  | quoted, c :: text =>
    if quoted ∨ c ∉ whitespace ++ symbols then
      let rest := takeRun (quoted ^^ c = chr '"') text
      (c :: rest.1, rest.2)
    else
      ([], c :: text)

theorem takeRun_append (quoted : Bool) (text : List UInt8)
    : (takeRun quoted text).1 ++ (takeRun quoted text).2 = text := by
  induction text generalizing quoted with
  | nil => rfl
  | cons c text ih =>
    rw [takeRun]
    split
    . rw [List.cons_append, ih]
    . rfl

/--
The tokens of a text.
-/
def tokens : List UInt8 → List Token
  | [] => []
  | c :: text =>
    if c ∈ whitespace then
      tokens text
    else if c ∈ symbols then
      .symbol c :: tokens text
    else
      .word (takeRun false (c :: text)).1 :: tokens (takeRun (c = chr '"') text).2
termination_by text => text.length
decreasing_by
  . exact Nat.lt_succ_self _
  . exact Nat.lt_succ_self _
  . have happend := congrArg List.length (takeRun_append (decide (c = chr '"')) text)
    rw [List.length_append] at happend
    rw [List.length_cons]
    omega

/--
What `gettoken` returns for a token.
-/
def Token.code : Token → UInt8
  | symbol c => c
  | word _ => chr 'w'

/--
A word without its quote characters.
-/
def unquoted (run : List UInt8) : List UInt8 := run.filter fun c => c ≠ chr '"'

/--
The line before the first call.
-/
def init (line : List UInt8) : Cmdline where
  n := line.length
  bytes := fun i => line.getD i 0
  p1 := some 0

/--
Any number of calls return the tokens of the line and then `0`, and the words are there as strings when there was a
further call or the line has ended.
-/
def Tokenized (line : List UInt8) : Prop :=
  ∀ m, ∃ results l, calls m (init line) = some (results, l) ∧
    results.map (Option.map Prod.fst) = (List.range m).map (fun j => (tokens line)[j]?.map Token.code) ∧
    ∀ j run, (tokens line)[j]? = some (.word run) → j + 1 < m ∨ j + 1 = m ∧ l.p1 = none →
      ∃ token p2, results[j]? = some (some (token, p2)) ∧ CString.At 0 l.bytes p2 (unquoted run)

end Cmdline
end Ucore

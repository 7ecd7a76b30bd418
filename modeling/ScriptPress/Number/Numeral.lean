import ScriptPress.Number.Dyadic
import ScriptPress.Text.Blank

/-! # Reading numbers -/

namespace ScriptPress

/-- A decimal literal: `significand · 10 ^ exponent`, with the digits as they were written. -/
structure Numeral where
  whole : List Char
  fraction : List Char
  exponent : Int
deriving DecidableEq, Repr

namespace Numeral

def isDigit (c : Char) : Bool := '0' ≤ c && c ≤ '9'

def digitsValue (digits : List Char) : Nat :=
  digits.foldl (fun n c => 10 * n + (c.toNat - '0'.toNat)) 0

def spanDigits (s : List Char) : List Char × List Char := (s.takeWhile isDigit, s.dropWhile isDigit)

/-- An exponent part, which has to be the whole text: none, or a mark, an optional sign and at
least one digit. -/
def exponent? : List Char → Option Int
  | [] => some 0
  | mark :: rest =>
    if mark = 'e' ∨ mark = 'E' then
      let (negative, digits) : Bool × List Char := match rest with
        | '-' :: ds => (true, ds)
        | '+' :: ds => (false, ds)
        | ds => (false, ds)
      if digits.isEmpty || !digits.all isDigit then none
      else some (if negative then -(digitsValue digits : Int) else digitsValue digits)
    else none

/-- Digits with an optional point among, before or after them, at least one digit in all, and an
optional exponent. -/
def parse? (s : List Char) : Option Numeral :=
  let (whole, afterWhole) := spanDigits s
  let (fraction, rest) := match afterWhole with
    | '.' :: r => spanDigits r
    | r => ([], r)
  if whole.isEmpty && fraction.isEmpty then none
  else (exponent? rest).map fun e => ⟨whole, fraction, e⟩

def padBefore (mark : Char) : List Char → List Char
  | [] => []
  | c :: r => if c = '.' ∧ r.head? = some mark then c :: '0' :: padBefore mark r
    else c :: padBefore mark r

def normalized (s : List Char) : List Char :=
  let s := if s.head? = some '.' then '0' :: s else s
  let s := padBefore 'E' (padBefore 'e' s)
  if s.getLast? = some '.' then s ++ ['0'] else s

def significand (n : Numeral) : Nat := digitsValue (n.whole ++ n.fraction)

def scale (n : Numeral) : Int := n.exponent - n.fraction.length

/-- The double nearest to `significand · 10 ^ scale`. Beyond the range of doubles the answer does
not depend on how far beyond. -/
def nearest (significand : Nat) (scale : Int) : Float :=
  if significand = 0 then 0
  else
    let decade := (Nat.toDigits 10 significand).length + scale
    if 310 < decade then Number.infinity
    else if decade < -330 then 0
    else if 0 ≤ scale then Float.ofScientific significand false scale.toNat
    else Float.ofScientific significand true (-scale).toNat

def toFloat (n : Numeral) : Float := nearest n.significand n.scale

end Numeral

namespace Number

def digit? (radix : Nat) (c : Char) : Option Nat :=
  let d :=
    if '0' ≤ c && c ≤ '9' then c.toNat - '0'.toNat
    else if 'a' ≤ c && c ≤ 'z' then c.toNat - 'a'.toNat + 10
    else if 'A' ≤ c && c ≤ 'Z' then c.toNat - 'A'.toNat + 10
    else radix
  if d < radix then some d else none

def pushDigit (radix : Nat) (value : Option Float) (c : Char) : Option Float := do
  return (← value) * Float.ofNat radix + Float.ofNat (← digit? radix c)

def ofRadix (radix : Nat) (digits : List Char) : Float :=
  if digits.isEmpty then nan else (digits.foldl (pushDigit radix) (some 0)).getD nan

/-- Only a literal with digits on both sides of its point is rounded to a double. -/
def ofUnsigned (s : List Char) : Float :=
  if s = "Infinity".toList then infinity
  else if (Numeral.parse? s).isSome then
    match Numeral.parse? (Numeral.normalized s) with
    | some n => n.toFloat
    | none => nan
  else nan

def ofSigned : List Char → Float
  | '-' :: s => -ofUnsigned s
  | '+' :: s => ofUnsigned s
  | s => ofUnsigned s

def ofTrimmed : List Char → Float
  | [] => 0
  | '0' :: mark :: digits =>
    if mark = 'x' ∨ mark = 'X' then ofRadix 16 digits
    else if mark = 'o' ∨ mark = 'O' then ofRadix 8 digits
    else if mark = 'b' ∨ mark = 'B' then ofRadix 2 digits
    else ofSigned ('0' :: mark :: digits)
  | s => ofSigned s

def ofText (s : String) : Float := ofTrimmed (Text.trim s.toList)

end Number

end ScriptPress

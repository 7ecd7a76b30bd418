import ScriptPress.Number.Shortest

/-! # Spelling numbers -/

namespace ScriptPress

namespace Decimal

/-- One digit before the point, and an exponent that always has a sign. -/
def exponential (d : Decimal) : List Char :=
  let e := d.point - 1
  let sign := if e < 0 then '-' else '+'
  let fraction := match d.digits.drop 1 with
    | [] => []
    | rest => '.' :: rest
  d.digits.take 1 ++ fraction ++ ['e', sign] ++ Nat.toDigits 10 e.natAbs

def positional (d : Decimal) : List Char :=
  let k : Int := d.digits.length
  if k ≤ d.point && d.point ≤ 21 then
    d.digits ++ List.replicate (d.point - k).toNat '0'
  else if 0 < d.point && d.point ≤ 21 then
    d.digits.take d.point.toNat ++ '.' :: d.digits.drop d.point.toNat
  else if -6 < d.point && d.point ≤ 0 then
    '0' :: '.' :: List.replicate (-d.point).toNat '0' ++ d.digits
  else d.exponential

end Decimal

namespace Number

/-- The text of a number given how its positive finite magnitudes are written; zero has no sign. -/
def spelledWith (zero : List Char) (magnitude : Decimal → List Char) (x : Float) : List Char :=
  if x.isNaN then "NaN".toList
  else if isZero x then zero
  else
    let text := if x.isInf then "Infinity".toList else magnitude (Decimal.shortest x.abs)
    if x < 0 then '-' :: text else text

def spelled (x : Float) : String := String.ofList (spelledWith ['0'] Decimal.positional x)

def spelledExponential (x : Float) : String :=
  if x.isFinite then String.ofList (spelledWith "0e+0".toList Decimal.exponential x) else spelled x

/-- Drops what a number without a sign can do without: the zero before a leading point and the
plus of an exponent. -/
def abridgedMagnitude (text : List Char) : List Char :=
  let brief := match text with
    | '0' :: '.' :: rest => '.' :: rest
    | rest => rest
  brief.filter (· != '+')

def abridged : List Char → List Char
  | '-' :: rest => '-' :: abridgedMagnitude rest
  | rest => abridgedMagnitude rest

/-- The shorter of the two abridged spellings, positional when they are equally long. -/
def briefest (x : Float) : String :=
  let plain := abridged (spelled x).toList
  let exponential := abridged (spelledExponential x).toList
  String.ofList (if exponential.length < plain.length then exponential else plain)

end Number

end ScriptPress

/-! # Doubles as exact dyadic numbers -/

namespace ScriptPress

/-- The magnitude `mantissa · 2 ^ exponent`. -/
structure Dyadic where
  mantissa : Nat
  exponent : Int
deriving DecidableEq, Repr

namespace Number

def nan : Float := Float.ofBits 0x7ff8000000000000

def infinity : Float := Float.ofBits 0x7ff0000000000000

def isNegative (x : Float) : Bool := x.toBits.toNat / Nat.pow 2 63 == 1

def isZero (x : Float) : Bool := x == 0

def magnitudeBits (x : Float) : Nat := x.toBits.toNat % Nat.pow 2 63

/-- The magnitude of a finite double. Subnormal numbers share the exponent of the smallest normal
ones and lack the leading bit. -/
def magnitude (x : Float) : Dyadic :=
  let biased := magnitudeBits x / Nat.pow 2 52
  let fraction := magnitudeBits x % Nat.pow 2 52
  if biased = 0 then ⟨fraction, -1074⟩ else ⟨fraction + Nat.pow 2 52, Int.ofNat biased - 1075⟩

/-- The double `± d`, when `d` is one: the mantissa is moved to the exponent that its length
asks for, which drops nothing but zeros. -/
def ofDyadic (negative : Bool) (d : Dyadic) : Float :=
  let exponent := max (-1074) (d.exponent + Nat.log2 d.mantissa - 52)
  let mantissa :=
    if exponent ≤ d.exponent then d.mantissa * Nat.pow 2 (d.exponent - exponent).toNat
    else d.mantissa / Nat.pow 2 (exponent - d.exponent).toNat
  let bits := if mantissa < Nat.pow 2 52 then mantissa
    else mantissa + (exponent + 1074).toNat * Nat.pow 2 52
  Float.ofBits (UInt64.ofNat (if negative then bits + Nat.pow 2 63 else bits))

def truncate (x : Float) : Int :=
  let d := magnitude x
  let n := if 0 ≤ d.exponent then d.mantissa * Nat.pow 2 d.exponent.toNat
    else d.mantissa / Nat.pow 2 (-d.exponent).toNat
  if isNegative x then -n else n

/-- What is left of `x` after taking away `y` a whole number of times, with the sign of `x`. -/
def remainder (x y : Float) : Float :=
  if x.isNaN || y.isNaN || x.isInf || isZero y then nan
  else if y.isInf || isZero x then x
  else
    let a := magnitude x
    let b := magnitude y
    let exponent := min a.exponent b.exponent
    let m := a.mantissa * Nat.pow 2 (a.exponent - exponent).toNat
    let n := b.mantissa * Nat.pow 2 (b.exponent - exponent).toNat
    ofDyadic (isNegative x) ⟨m % n, exponent⟩

end Number

end ScriptPress

import ScriptPress.Number.Dyadic

/-! # Numbers as 32-bit words, and powers -/

namespace ScriptPress.Number

/-- The word congruent to the integer part modulo `2 ^ 32`; not-a-number and the infinities
give zero. -/
def toUInt32 (x : Float) : UInt32 :=
  if x.isFinite then UInt32.ofNat (truncate x % 0x100000000).toNat else 0

def toInt32 (x : Float) : Int32 := (toUInt32 x).toInt32

/-- Powers, where an exponent that is not a number never gives a number, and one raised to an
infinite power is undetermined. -/
def power (base exponent : Float) : Float :=
  if exponent.isNaN then nan
  else if base.abs == 1 && exponent.isInf then nan
  else base.pow exponent

end ScriptPress.Number

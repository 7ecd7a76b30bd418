import ScriptPress.Number.Dyadic

/-! # Shortest decimals -/

namespace ScriptPress

/-- The decimal `0.d₁d₂… · 10 ^ point`. -/
structure Decimal where
  digits : List Char
  point : Int
deriving DecidableEq, Repr

namespace Decimal

/-- A positive rational `num / den`. -/
structure Ratio where
  num : Nat
  den : Nat

namespace Ratio

def ofBinary (m : Nat) (e : Int) : Ratio :=
  if 0 ≤ e then ⟨m * Nat.pow 2 e.toNat, 1⟩ else ⟨m, Nat.pow 2 (-e).toNat⟩

def shift (r : Ratio) (e : Int) : Ratio :=
  if 0 ≤ e then ⟨r.num, r.den * Nat.pow 10 e.toNat⟩ else ⟨r.num * Nat.pow 10 (-e).toNat, r.den⟩

def floor (r : Ratio) : Nat := r.num / r.den

def decade (r : Ratio) : Int :=
  if r.den ≤ r.num then (Nat.toDigits 10 r.floor).length
  else
    let k := (Nat.toDigits 10 (r.den / r.num)).length
    if r.den = r.num * Nat.pow 10 (k - 1) then 2 - k else 1 - k

end Ratio

/-- The reals that round to one double, and the double itself, all over one denominator. The ends
belong to it when the mantissa is even, as ties go to even. -/
structure Basin where
  lower : Nat
  value : Nat
  upper : Nat
  den : Nat
  closed : Bool

namespace Basin

/-- The gap below a power of two is half the gap above it, except at the bottom of the range. -/
def of (x : Float) : Basin :=
  let d := Number.magnitude x
  let narrow := d.mantissa = Nat.pow 2 52 ∧ -1074 < d.exponent
  let unit := Ratio.ofBinary 1 (d.exponent - 2)
  { lower := (4 * d.mantissa - if narrow then 1 else 2) * unit.num
    value := 4 * d.mantissa * unit.num
    upper := (4 * d.mantissa + 2) * unit.num
    den := unit.den
    closed := d.mantissa % 2 = 0 }

def holds (b : Basin) (n : Nat) (e : Int) : Bool :=
  let p := n * b.den * Nat.pow 10 e.toNat
  let scale := Nat.pow 10 (-e).toNat
  if b.closed then b.lower * scale ≤ p && p ≤ b.upper * scale
  else b.lower * scale < p && p < b.upper * scale

/-- The neighbour of the value on the grid of step `10 ^ e` that lies in the basin: the nearer
one, and the even one when both are equally near. -/
def candidate (b : Basin) (e : Int) : Option Nat :=
  let scaled := (Ratio.mk b.value b.den).shift e
  let below := scaled.floor
  let twice := 2 * (scaled.num % scaled.den)
  let nearAbove := scaled.den < twice || (scaled.den = twice && below % 2 = 1)
  match b.holds below e, b.holds (below + 1) e with
  | true, true => some (if nearAbove then below + 1 else below)
  | true, false => some below
  | false, true => some (below + 1)
  | false, false => none

/-- The first grid with a candidate, going from the given step to finer ones. -/
def search (b : Basin) : Nat → Int → Nat × Int
  | 0, e => ((Ratio.mk b.value b.den).shift e |>.floor, e)
  | n + 1, e =>
    match b.candidate e with
    | some m => (m, e)
    | none => b.search n (e - 1)

end Basin

def trimmed (n : Nat) : List Char :=
  ((Nat.toDigits 10 n).reverse.dropWhile (· == '0')).reverse

/-- The shortest decimal of a positive finite double; seventeen digits always suffice. -/
def shortest (x : Float) : Decimal :=
  let b := Basin.of x
  let (n, e) := b.search 17 ((Ratio.mk b.value b.den).decade - 1)
  ⟨trimmed n, (Nat.toDigits 10 n).length + e⟩

end Decimal

end ScriptPress

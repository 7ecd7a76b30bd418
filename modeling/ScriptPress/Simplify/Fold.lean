import ScriptPress.Number.Word
import ScriptPress.Text.Units
import ScriptPress.Tree.Literal

/-! # Folding operators on literals -/

namespace ScriptPress.Kind

def isNullish : Kind → Bool
  | null | undefined => true
  | _ => false

/-- Equality after conversion: `null` and `undefined` equal each other and nothing else, two
strings are compared as text, all else as numbers. -/
def looseEquals? (left right : Kind) : Option Bool :=
  if left.isNullish || right.isNullish then some (left.isNullish && right.isNullish)
  else match left, right with
    | string a, string b => some (a == b)
    | _, _ => do return (← left.number?) == (← right.number?)

def strictEquals? (left right : Kind) : Option Bool :=
  match left, right with
  | null, null | undefined, undefined => some true
  | boolean a, boolean b => some (a == b)
  | number a, number b => some (a == b)
  | string a, string b => some (a == b)
  | a, b => if a.isLiteral && b.isLiteral then some false else none

def compareNumbers (a b : Float) : Option Ordering :=
  if a < b then some .lt else if b < a then some .gt else if a == b then some .eq else none

/-- Order of two literals: two strings by code units, all else as numbers. -/
def compare? (left right : Kind) : Option Ordering :=
  match left, right with
  | string a, string b => some (Text.compareUnits (Text.units a) (Text.units b))
  | _, _ => do compareNumbers (← left.number?) (← right.number?)

def isText : Kind → Bool
  | string _ => true
  | _ => false

def foldNumbers (f : Float → Float → Float) (left right : Kind) : Option Kind := do
  return number (f (← left.number?) (← right.number?))

def foldWords (f : Int32 → Int32 → Int32) (left right : Kind) : Option Kind :=
  foldNumbers (fun a b => Float.ofInt (f (Number.toInt32 a) (Number.toInt32 b)).toInt) left right

def foldUnsignedShift (left right : Kind) : Option Kind :=
  foldNumbers (fun a b => Float.ofNat (Number.toUInt32 a >>> Number.toUInt32 b).toNat) left right

def foldOrder (holds : Ordering → Bool) (left right : Kind) : Option Kind :=
  some (boolean ((compare? left right).any holds))

def foldSum (left right : Kind) : Option Kind :=
  if left.isText || right.isText then do return string ((← left.text?) ++ (← right.text?))
  else foldNumbers (· + ·) left right

def foldBinary (op : BinaryOp) (left right : Kind) : Option Kind :=
  match op with
  | .add => foldSum left right
  | .subtract => foldNumbers (· - ·) left right
  | .multiply => foldNumbers (· * ·) left right
  | .divide => foldNumbers (· / ·) left right
  | .remainder => foldNumbers Number.remainder left right
  | .bitwiseAnd => foldWords (· &&& ·) left right
  | .bitwiseOr => foldWords (· ||| ·) left right
  | .bitwiseXor => foldWords (· ^^^ ·) left right
  | .shiftLeft => foldWords (· <<< ·) left right
  | .shiftRight => foldWords (· >>> ·) left right
  | .shiftRightUnsigned => foldUnsignedShift left right
  | .equal => (looseEquals? left right).map boolean
  | .notEqual => (looseEquals? left right).map fun b => boolean !b
  | .equalStrict => (strictEquals? left right).map boolean
  | .notEqualStrict => (strictEquals? left right).map fun b => boolean !b
  | .lessThan => foldOrder (· == .lt) left right
  | .lessThanEqual => foldOrder (· != .gt) left right
  | .greaterThan => foldOrder (· == .gt) left right
  | .greaterThanEqual => foldOrder (· != .lt) left right
  | .in | .instanceOf | .logicalAnd | .logicalOr => none

def foldUnary (op : UnaryOp) (operand : Kind) : Option Kind :=
  match op with
  | .not => operand.truth?.map fun b => boolean !b
  | .negative => operand.number?.map fun x => number (-x)
  | .positive => operand.number?.map number
  | .complement => operand.number?.map fun x => number (Float.ofInt (~~~Number.toInt32 x).toInt)
  | _ => none

/-- The result of `typeof`, when the kind of the operand alone decides it. -/
def typeName? : Kind → Option String
  | string _ | unary .typeOf => some "string"
  | boolean _ | unary .not => some "boolean"
  | number _ | unary .negative | unary .positive | unary .complement => some "number"
  | undefined | unary .void => some "undefined"
  | null | array | object | regExp _ => some "object"
  | _ => none

end ScriptPress.Kind

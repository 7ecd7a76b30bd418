import ScriptPress.Number.Numeral

/-! # JSON tokens -/

namespace ScriptPress.Json

inductive Token where
  | openArray | closeArray | openObject | closeObject | comma | colon
  | null
  | bool (b : Bool)
  | number (x : Float)
  | string (s : String)

def isBlank (c : Char) : Bool := c = ' ' || c = '\t' || c = '\n' || c = '\r'

def punctuation? : Char → Option Token
  | '[' => some .openArray
  | ']' => some .closeArray
  | '\x7b' => some .openObject
  | '\x7d' => some .closeObject
  | ',' => some .comma
  | ':' => some .colon
  | _ => none

def escape? : Char → Option Char
  | '"' => some '"'
  | '\\' => some '\\'
  | '/' => some '/'
  | 'b' => some '\x08'
  | 'f' => some '\x0c'
  | 'n' => some '\n'
  | 'r' => some '\r'
  | 't' => some '\t'
  | _ => none

def hex4? (a b c d : Char) : Option Nat :=
  [a, b, c, d].foldlM (fun n x => do return 16 * n + (← Number.digit? 16 x)) 0

def isHighSurrogate (n : Nat) : Bool := 0xd800 ≤ n && n < 0xdc00

def isLowSurrogate (n : Nat) : Bool := 0xdc00 ≤ n && n < 0xe000

def pair (high low : Nat) : Char := Char.ofNat (0x10000 + (high - 0xd800) * 0x400 + (low - 0xdc00))

/-- The content of a string from behind its opening quote, and the text behind its closing one. -/
def stringBody? : List Char → Option (List Char × List Char)
  | [] => none
  | '"' :: rest => some ([], rest)
  | '\\' :: 'u' :: a :: b :: c :: d :: rest =>
    match hex4? a b c d with
    | none => none
    | some n =>
      if isHighSurrogate n then
        match rest with
        | '\\' :: 'u' :: a' :: b' :: c' :: d' :: rest' =>
          match hex4? a' b' c' d' with
          | none => none
          | some n' =>
            if isLowSurrogate n' then
              (stringBody? rest').map fun (s, r) => (pair n n' :: s, r)
            else none
        | _ => none
      else if isLowSurrogate n then none
      else (stringBody? rest).map fun (s, r) => (Char.ofNat n :: s, r)
  | '\\' :: e :: rest =>
    match escape? e with
    | none => none
    | some c => (stringBody? rest).map fun (s, r) => (c :: s, r)
  | c :: rest =>
    if c < ' ' || c = '\\' then none else (stringBody? rest).map fun (s, r) => (c :: s, r)

def isNumberChar (c : Char) : Bool :=
  Numeral.isDigit c || c = '+' || c = '-' || c = '.' || c = 'e' || c = 'E'

def hasLeadingZero : List Char → Bool
  | '0' :: c :: _ => Numeral.isDigit c
  | _ => false

/-- Digits stand on both sides of a point, and the first of several is not zero. -/
def isStrict (s : List Char) : Bool :=
  let (whole, rest) := Numeral.spanDigits s
  !whole.isEmpty && !hasLeadingZero s &&
    (match rest with
    | '.' :: r => !(Numeral.spanDigits r).1.isEmpty
    | _ => true)

def magnitude? (s : List Char) : Option Float := do
  guard (isStrict s)
  let x := (← Numeral.parse? s).toFloat
  guard x.isFinite
  return x

def number? : List Char → Option Float
  | '-' :: s => (magnitude? s).map fun x => -x
  | s => magnitude? s

def word? (s : List Char) : Option Token :=
  if s = "null".toList then some .null
  else if s = "true".toList then some (.bool true)
  else if s = "false".toList then some (.bool false)
  else none

theorem length_dropWhile_le {p : Char → Bool} (s : List Char) :
    (s.dropWhile p).length ≤ s.length := (List.dropWhile_sublist p).length_le

theorem length_of_stringBody? {s content rest : List Char}
    (h : stringBody? s = some (content, rest)) : rest.length < s.length := by
  fun_induction stringBody? s generalizing content rest <;>
    simp_all <;> grind

def tokens? (s : List Char) : Option (List Token) :=
  match s with
  | [] => some []
  | c :: cs =>
    if isBlank c then tokens? cs
    else match punctuation? c with
      | some t => (tokens? cs).map (t :: ·)
      | none =>
        if c = '"' then
          match h : stringBody? cs with
          | none => none
          | some (content, rest) =>
            have := length_of_stringBody? h
            (tokens? rest).map (.string (String.ofList content) :: ·)
        else if isNumberChar c then
          have := length_dropWhile_le (p := isNumberChar) cs
          match number? (c :: cs.takeWhile isNumberChar) with
          | none => none
          | some x => (tokens? (cs.dropWhile isNumberChar)).map (.number x :: ·)
        else
          have := length_dropWhile_le (p := Char.isAlpha) cs
          match word? (c :: cs.takeWhile Char.isAlpha) with
          | none => none
          | some t => (tokens? (cs.dropWhile Char.isAlpha)).map (t :: ·)
termination_by s.length

end ScriptPress.Json

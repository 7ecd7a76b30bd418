import ScriptPress.Text.Blank
import ScriptPress.Text.Identifier
import ScriptPress.Text.Units

/-! # Tokens of program text -/

namespace ScriptPress

section

variable (p : Char → Prop) [DecidablePred p] (cs : List Char)

-- A statement about the characters of a list is decided over the list, also where there is an
-- instance that goes through all characters.
instance (priority := 2000) decidableForallChars : Decidable (∀ c ∈ cs, p c) :=
  List.decidableBAll p cs

instance (priority := 2000) decidableExistsChar : Decidable (∃ c ∈ cs, p c) :=
  List.decidableBEx p cs

end

inductive Punct where
  | leftParen | rightParen | leftBracket | rightBracket | leftBrace | rightBrace
  | dot | comma | semicolon | question | colon
  | plus | minus | star | slash | percent | increment | decrement
  | bang | tilde | and | or | xor | andAnd | orOr
  | less | greater | lessEqual | greaterEqual
  | equal | notEqual | equalStrict | notEqualStrict
  | shiftLeft | shiftRight | shiftRightUnsigned
  | assign | plusAssign | minusAssign | starAssign | slashAssign | percentAssign
  | andAssign | orAssign | xorAssign
  | shiftLeftAssign | shiftRightAssign | shiftRightUnsignedAssign
deriving DecidableEq, Repr

namespace Punct

def chars : Punct → List Char
  | leftParen => ['(']
  | rightParen => [')']
  | leftBracket => ['[']
  | rightBracket => [']']
  | leftBrace => ['\x7b']
  | rightBrace => ['\x7d']
  | dot => ['.']
  | comma => [',']
  | semicolon => [';']
  | question => ['?']
  | colon => [':']
  | plus => ['+']
  | minus => ['-']
  | star => ['*']
  | slash => ['/']
  | percent => ['%']
  | increment => ['+', '+']
  | decrement => ['-', '-']
  | bang => ['!']
  | tilde => ['~']
  | and => ['&']
  | or => ['|']
  | xor => ['^']
  | andAnd => ['&', '&']
  | orOr => ['|', '|']
  | less => ['<']
  | greater => ['>']
  | lessEqual => ['<', '=']
  | greaterEqual => ['>', '=']
  | equal => ['=', '=']
  | notEqual => ['!', '=']
  | equalStrict => ['=', '=', '=']
  | notEqualStrict => ['!', '=', '=']
  | shiftLeft => ['<', '<']
  | shiftRight => ['>', '>']
  | shiftRightUnsigned => ['>', '>', '>']
  | assign => ['=']
  | plusAssign => ['+', '=']
  | minusAssign => ['-', '=']
  | starAssign => ['*', '=']
  | slashAssign => ['/', '=']
  | percentAssign => ['%', '=']
  | andAssign => ['&', '=']
  | orAssign => ['|', '=']
  | xorAssign => ['^', '=']
  | shiftLeftAssign => ['<', '<', '=']
  | shiftRightAssign => ['>', '>', '=']
  | shiftRightUnsignedAssign => ['>', '>', '>', '=']

def all : List Punct :=
  [shiftRightUnsignedAssign,
    equalStrict, notEqualStrict, shiftRightUnsigned, shiftLeftAssign, shiftRightAssign,
    increment, decrement, andAnd, orOr, lessEqual, greaterEqual, equal, notEqual, shiftLeft,
    shiftRight, plusAssign, minusAssign, starAssign, slashAssign, percentAssign, andAssign,
    orAssign, xorAssign,
    leftParen, rightParen, leftBracket, rightBracket, leftBrace, rightBrace, dot, comma, semicolon,
    question, colon, plus, minus, star, slash, percent, bang, tilde, and, or, xor, less, greater,
    assign]

def longest? (cs : List Char) : Option Punct := all.find? (·.chars <+: cs)

end Punct

/-- Tokens whose numbers are known by their values in `ν`. -/
inductive Token (ν : Type) where
  | word (name : String)
  | number (value : ν)
  | string (units : List Nat)
  | punct (p : Punct)
deriving DecidableEq

/-- An item read from the front of a list and the rest of the list, when some of it was used. -/
def used {β γ : Type} (l : List γ) :
    Option (β × List γ) → Option (β × {r : List γ // r.length < l.length})
  | some (b, r) => if h : r.length < l.length then some (b, ⟨r, h⟩) else none
  | none => none

namespace Token

variable {ν : Type}

def continuesWord (c : Char) : Bool := Text.isIdentifierPart c || 0x80 ≤ c.toNat || c = '\\'

def isBoundary (cs : List Char) : Bool := !cs.head?.any continuesWord

def scanInteger : List Char → List Char × List Char
  | '0' :: r => (['0'], r)
  | cs => (cs.takeWhile Char.isDigit, cs.dropWhile Char.isDigit)

def scanFraction : List Char → List Char × List Char
  | '.' :: r => ('.' :: r.takeWhile Char.isDigit, r.dropWhile Char.isDigit)
  | cs => ([], cs)

def scanSign : List Char → List Char × List Char
  | '+' :: r => (['+'], r)
  | '-' :: r => (['-'], r)
  | cs => ([], cs)

def scanExponent : List Char → List Char × List Char
  | [] => ([], [])
  | c :: r =>
    let digits := (scanSign r).2
    if (c = 'e' || c = 'E') && digits.head?.any Char.isDigit then
      (c :: (scanSign r).1 ++ digits.takeWhile Char.isDigit, digits.dropWhile Char.isDigit)
    else ([], c :: r)

/-- A decimal literal, which has a digit before or behind the point. -/
def scanNumber (cs : List Char) : Option (List Char × List Char) :=
  let whole := scanInteger cs
  let fraction := scanFraction whole.2
  let exponent := scanExponent fraction.2
  if whole.1.isEmpty && fraction.1.length ≤ 1 then none
  else some (whole.1 ++ fraction.1 ++ exponent.1, exponent.2)

def isLineEnd (c : Char) : Bool := c = '\n' || c = '\r' || c = '\u2028' || c = '\u2029'

def hexDigit? (c : Char) : Option Nat :=
  if c.isDigit then some (c.toNat - '0'.toNat)
  else if 'a' ≤ c && c ≤ 'f' then some (c.toNat - 'a'.toNat + 10)
  else if 'A' ≤ c && c ≤ 'F' then some (c.toNat - 'A'.toNat + 10)
  else none

def scanEscape : List Char → Option (List Nat × List Char)
  | [] => none
  | 'u' :: r => do
    let digits ← (r.take 4).mapM hexDigit?
    if digits.length = 4 then
      return ([digits.foldl (fun n d => 16 * n + d) 0], r.drop 4)
    else none
  | c :: r =>
    match c with
    | 'b' => some ([8], r)
    | 't' => some ([9], r)
    | 'n' => some ([10], r)
    | 'v' => some ([11], r)
    | 'f' => some ([12], r)
    | 'r' => some ([13], r)
    | _ => if c.isDigit || c = 'x' || isLineEnd c then none else some (Text.unitsOfChar c, r)

/-- The code units of a string up to the closing quote, and the text behind it. -/
def scanString (quote : Char) (cs : List Char) : Option (List Nat × List Char) :=
  match cs with
  | [] => none
  | c :: r =>
    if c = quote then some ([], r)
    else if isLineEnd c then none
    else do
      let (units, ⟨r, _⟩) ← used (c :: r)
        (if c = '\\' then scanEscape r else some (Text.unitsOfChar c, r))
      let (rest, r) ← scanString quote r
      return (units ++ rest, r)
termination_by cs.length
decreasing_by
  rename_i hr
  exact hr

def isComment (cs : List Char) : Bool :=
  ['/', '/'] <+: cs || ['/', '*'] <+: cs || ['<', '!', '-', '-'] <+: cs

def next (value : List Char → ν) : List Char → Option (Token ν × List Char)
  | [] => none
  | c :: r =>
    if Text.isIdentifierStart c then
      let name := r.takeWhile Text.isIdentifierPart
      let r := r.dropWhile Text.isIdentifierPart
      if isBoundary r then some (.word (String.ofList (c :: name)), r) else none
    else if c = '"' || c = '\x27' then do
      let (units, r) ← scanString c r
      return (.string units, r)
    else match scanNumber (c :: r) with
      | some (digits, r) => if isBoundary r then some (.number (value digits), r) else none
      | none =>
        if isComment (c :: r) then none
        else do
          let p ← Punct.longest? (c :: r)
          return (.punct p, (c :: r).drop p.chars.length)

def lex (value : List Char → ν) (cs : List Char) : Option (List (Token ν)) :=
  match cs with
  | [] => some []
  | c :: r =>
    if Text.isBlank c then lex value r
    else do
      let (t, ⟨r, _⟩) ← used (c :: r) (next value (c :: r))
      return t :: (← lex value r)
termination_by cs.length
decreasing_by
  · exact Nat.lt_succ_self _
  · rename_i hr
    exact hr

end Token

end ScriptPress

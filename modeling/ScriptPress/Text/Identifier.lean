/-! # Identifiers -/

namespace ScriptPress.Text

def isIdentifierStart (c : Char) : Bool := c.isAlpha || c = '_' || c = '$'

def isIdentifierPart (c : Char) : Bool := c.isAlphanum || c = '_' || c = '$'

def isIdentifier (s : String) : Bool :=
  match s.toList with
  | [] => false
  | c :: cs => isIdentifierStart c && cs.all isIdentifierPart

def firstChars : List Char :=
  "abcdefghijklmnopqrstuvwxyzABCDEFGHIJKLMNOPQRSTUVWXYZ_$".toList

def restChars : List Char := firstChars ++ "0123456789".toList

/-- The characters after the first one, least significant first. Each count has one spelling, as
in a numeral system without zero. -/
def nameTail (n : Nat) : List Char :=
  if h : n = 0 then []
  else restChars.getD ((n - 1) % restChars.length) '$' :: nameTail ((n - 1) / restChars.length)
termination_by n
decreasing_by
  have : (n - 1) / restChars.length ≤ n - 1 := Nat.div_le_self _ _
  omega

/-- The identifier of a given rank: all of one character, then all of two, and so on. -/
def nthName (index : Nat) : String :=
  String.ofList (firstChars.getD (index % firstChars.length) 'a' ::
    nameTail (index / firstChars.length))

end ScriptPress.Text

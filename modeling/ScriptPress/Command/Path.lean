import ScriptPress.Command.Run

/-! # Paths -/

namespace ScriptPress.Command

structure Path where
  absolute : Bool
  names : List String
  slashed : Bool
deriving DecidableEq, Repr

namespace Path

def maxLength : Nat := 4095

def maxNameLength : Nat := 255

def of (text : String) : Except SystemError Path :=
  if maxLength < text.utf8ByteSize then .error .nameTooLong
  else .ok ⟨text.toList.head? = some '/', (text.splitOn "/").filter (· ≠ ""),
    text.toList.getLast? = some '/'⟩

end Path

abbrev Place := List String

namespace Place

def parent (p : Place) : Place := p.dropLast

def isDots (name : String) : Bool := name = "." || name = ".."

def follow (directory : Place) (name : String) : Place :=
  if name = "." then directory
  else if name = ".." then directory.parent
  else directory ++ [name]

end Place

end ScriptPress.Command

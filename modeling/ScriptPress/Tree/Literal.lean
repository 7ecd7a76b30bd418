import ScriptPress.Number.Numeral
import ScriptPress.Number.Spelling
import ScriptPress.Tree.Kind

/-! # Values of literals -/

namespace ScriptPress.Kind

def truth? : Kind → Option Bool
  | boolean b => some b
  | null | undefined => some false
  | number x => some (x != 0 && !x.isNaN)
  | string s => some (s != "")
  | _ => none

def number? : Kind → Option Float
  | boolean b => some (if b then 1 else 0)
  | null => some 0
  | undefined => some Number.nan
  | number x => some x
  | string s => some (Number.ofText s)
  | _ => none

def text? : Kind → Option String
  | boolean b => some (if b then "true" else "false")
  | null => some "null"
  | undefined => some "undefined"
  | number x => some (Number.spelled x)
  | string s => some s
  | _ => none

def isTruthy (k : Kind) : Bool := k.truth? == some true

def isFalsy (k : Kind) : Bool := k.truth? == some false

def isString (k : Kind) (value : String) : Bool := k == .string value

end ScriptPress.Kind

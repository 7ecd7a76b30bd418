/-! # Operators -/

namespace ScriptPress

inductive UnaryOp where
  | complement | delete | negative | not | positive
  | decrementAfter | incrementAfter | decrementBefore | incrementBefore
  | typeOf | void
deriving DecidableEq, Repr

namespace UnaryOp

def isAssign : UnaryOp → Bool
  | decrementAfter | incrementAfter | decrementBefore | incrementBefore => true
  | _ => false

def isTrailing : UnaryOp → Bool
  | decrementAfter | incrementAfter => true
  | _ => false

def isKeyword : UnaryOp → Bool
  | delete | typeOf | void => true
  | _ => false

/-- Computes a value from the operand's value and does nothing else. -/
def isPure (op : UnaryOp) : Bool := !op.isAssign && op != delete

def text : UnaryOp → String
  | complement => "~"
  | delete => "delete"
  | negative => "-"
  | not => "!"
  | positive => "+"
  | decrementAfter | decrementBefore => "--"
  | incrementAfter | incrementBefore => "++"
  | typeOf => "typeof"
  | void => "void"

end UnaryOp

inductive BinaryOp where
  | add | bitwiseAnd | bitwiseOr | bitwiseXor | divide
  | equal | equalStrict | greaterThan | greaterThanEqual | in | instanceOf
  | lessThan | lessThanEqual | logicalAnd | logicalOr | multiply
  | notEqual | notEqualStrict | remainder
  | shiftLeft | shiftRight | shiftRightUnsigned | subtract
deriving DecidableEq, Repr

namespace BinaryOp

/-- Evaluates its right operand only when the left one does not decide. -/
def isLogical : BinaryOp → Bool
  | logicalAnd | logicalOr => true
  | _ => false

def isKeyword : BinaryOp → Bool
  | .in | instanceOf => true
  | _ => false

def text : BinaryOp → String
  | add => "+"
  | bitwiseAnd => "&"
  | bitwiseOr => "|"
  | bitwiseXor => "^"
  | divide => "/"
  | equal => "=="
  | equalStrict => "==="
  | greaterThan => ">"
  | greaterThanEqual => ">="
  | .in => "in"
  | instanceOf => "instanceof"
  | lessThan => "<"
  | lessThanEqual => "<="
  | logicalAnd => "&&"
  | logicalOr => "||"
  | multiply => "*"
  | notEqual => "!="
  | notEqualStrict => "!=="
  | remainder => "%"
  | shiftLeft => "<<"
  | shiftRight => ">>"
  | shiftRightUnsigned => ">>>"
  | subtract => "-"

def all : List BinaryOp :=
  [add, bitwiseAnd, bitwiseOr, bitwiseXor, divide, equal, equalStrict, greaterThan,
    greaterThanEqual, .in, instanceOf, lessThan, lessThanEqual, logicalAnd, logicalOr, multiply,
    notEqual, notEqualStrict, remainder, shiftLeft, shiftRight, shiftRightUnsigned, subtract]

def ofText? (s : String) : Option BinaryOp := all.find? (·.text == s)

end BinaryOp

inductive AssignOp where
  | assign | add | bitwiseAnd | bitwiseOr | bitwiseXor | divide | multiply | remainder
  | shiftLeft | shiftRight | shiftRightUnsigned | subtract
deriving DecidableEq, Repr

namespace AssignOp

def text : AssignOp → String
  | assign => "="
  | add => "+="
  | bitwiseAnd => "&="
  | bitwiseOr => "|="
  | bitwiseXor => "^="
  | divide => "/="
  | multiply => "*="
  | remainder => "%="
  | shiftLeft => "<<="
  | shiftRight => ">>="
  | shiftRightUnsigned => ">>>="
  | subtract => "-="

def all : List AssignOp :=
  [assign, add, bitwiseAnd, bitwiseOr, bitwiseXor, divide, multiply, remainder, shiftLeft,
    shiftRight, shiftRightUnsigned, subtract]

def ofText? (s : String) : Option AssignOp := all.find? (·.text == s)

end AssignOp

/-- The operators written before their operand that leave it alone or delete it. -/
def UnaryOp.ofText? (s : String) : Option UnaryOp :=
  [complement, delete, negative, not, positive, typeOf, void].find? (·.text == s)

def UnaryOp.update? (before : Bool) : String → Option UnaryOp
  | "++" => some (if before then incrementBefore else incrementAfter)
  | "--" => some (if before then decrementBefore else decrementAfter)
  | _ => none

end ScriptPress

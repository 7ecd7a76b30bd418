import ScriptPress.Tree.Operator

/-! # Binding strength -/

namespace ScriptPress

/-- Binding strengths, loosest first. -/
inductive Level where
  | lowest | comma | assign | conditional | logicalOr | logicalAnd | bitwiseOr | bitwiseXor
  | bitwiseAnd | equal | compare | shift | add | multiply | unary | update | call | member
deriving DecidableEq, Repr

namespace Level

def all : List Level :=
  [lowest, comma, assign, conditional, logicalOr, logicalAnd, bitwiseOr, bitwiseXor, bitwiseAnd,
    equal, compare, shift, add, multiply, unary, update, call, member]

def rank : Level → Nat
  | lowest => 0
  | comma => 1
  | assign => 2
  | conditional => 3
  | logicalOr => 4
  | logicalAnd => 5
  | bitwiseOr => 6
  | bitwiseXor => 7
  | bitwiseAnd => 8
  | equal => 9
  | compare => 10
  | shift => 11
  | add => 12
  | multiply => 13
  | unary => 14
  | update => 15
  | call => 16
  | member => 17

/-- Whether a place of strength `l` asks an expression of strength `own` for parentheses. -/
def wraps (l own : Level) : Bool := own.rank ≤ l.rank

def looser (l : Level) : Level := all.getD (l.rank - 1) lowest

def ofBinary : BinaryOp → Level
  | .logicalOr => logicalOr
  | .logicalAnd => logicalAnd
  | .bitwiseOr => bitwiseOr
  | .bitwiseXor => bitwiseXor
  | .bitwiseAnd => bitwiseAnd
  | .equal | .equalStrict | .notEqual | .notEqualStrict => equal
  | .greaterThan | .greaterThanEqual | .in | .instanceOf | .lessThan | .lessThanEqual => compare
  | .shiftLeft | .shiftRight | .shiftRightUnsigned => shift
  | .add | .subtract => add
  | .divide | .multiply | .remainder => multiply

end Level

end ScriptPress

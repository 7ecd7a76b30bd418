import ScriptPress.Simplify.Concat
import ScriptPress.Tree.Effects

/-! # Operators and calls -/

namespace ScriptPress

/-- The symbols that rules recognise by identity: the global `Math` and the property `pow`. -/
structure WellKnown where
  math : SymbolId
  pow : SymbolId
deriving DecidableEq, Repr

namespace Step

variable {α : Type}

def unaryValue? (op : UnaryOp) (operand : Tree (Option α)) : Except Fault (Option Kind) :=
  match op with
  | .typeOf => do
    if ← operand.hasEffects then return none
    else return operand.kind.typeName?.map Kind.string
  | .void => do if ← operand.hasEffects then return none else return some .undefined
  | _ => .ok (Kind.foldUnary op operand.kind)

def tripleNegation (m : Option α) (op : UnaryOp) (operand : Tree (Option α))
    (rest : List (Tree (Option α))) : Except Fault (Option (Step α)) :=
  match op, operand with
  | .not, .node om (.unary .not) ocs =>
    match ocs with
    | [] => .error (Part.unaryOperand.missingFrom (.unary .not))
    | inner :: others =>
      .ok (if inner.isNot then
        some (become m inner (.node om (.unary .not) others :: rest)) else none)
  | _, _ => .ok none

def unary (m : Option α) (op : UnaryOp) :
    List (Tree (Option α)) → Except Fault (Option (Step α))
  | [] => .error (Part.unaryOperand.missingFrom (.unary op))
  | operand :: rest => do
    match ← unaryValue? op operand with
    | some k => return some (leaf m k (operand :: rest))
    | none => tripleNegation m op operand rest

/-- A literal on the left is the result of `&&` and `||`, or leaves the right operand. -/
def logical (m : Option α) (op : BinaryOp) (left right : Tree (Option α))
    (rest : List (Tree (Option α))) : Option (Step α) :=
  left.kind.truth?.map fun b =>
    if b = (op == .logicalAnd) then become m right (left :: rest)
    else become m left (right :: rest)

def call (known : WellKnown) (m : Option α) :
    List (Tree (Option α)) → Except Fault (Option (Step α))
  | [] => .error (Part.callTarget.missingFrom .call)
  | target :: arguments =>
    if target.kind = .member known.pow then do
      let object ← target.part Part.memberObject
      if object.kind ≠ .identifier known.math then return none
      match arguments.map Tree.kind with
      | [.number base, .number exponent] =>
        return some (leaf m (.number (Number.power base exponent)) (target :: arguments))
      | _ => return none
    else .ok none

end Step

namespace Simplifying

variable {α : Type}

def unary (m : Option α) (op : UnaryOp) (cs : List (Tree (Option α))) :
    Simplifying α (Tree (Option α)) := do
  performOr (.node m (.unary op) cs) (← Step.unary m op cs)

def binary (m : Option α) (op : BinaryOp) (cs : List (Tree (Option α))) :
    Simplifying α (Tree (Option α)) :=
  let t := Tree.node m (.binary op) cs
  match cs with
  | [] => throw (Part.leftOperand.missingFrom (.binary op))
  | [_] => throw (Part.rightOperand.missingFrom (.binary op))
  | left :: right :: rest =>
    if op.isLogical then performOr t (Step.logical m op left right rest)
    else if left.kind.isLiteral && right.kind.isLiteral then
      performOr t ((Kind.foldBinary op left.kind right.kind).map fun k =>
        Step.leaf m k (left :: right :: rest))
    else concat t

def call (known : WellKnown) (m : Option α) (cs : List (Tree (Option α))) :
    Simplifying α (Tree (Option α)) := do
  performOr (.node m .call cs) (← Step.call known m cs)

end Simplifying

end ScriptPress

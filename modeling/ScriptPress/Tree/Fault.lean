import ScriptPress.Tree.Kind

/-! # Faults -/

namespace ScriptPress

inductive Fault where
  | insertIntoSelf
  | alreadyAttached (kind : Kind)
  | insertIntoSubtree
  | foreignPosition
  | replaceRoot
  | spliceRoot
  | becomeSelf
  | becomeAttached (kind : Kind)
  | becomeAncestor
  | notExpression (role : String) (kind : Kind)
  | notStatement (role : String) (kind : Kind)
  | invalidKind (role : String) (kind : Kind)
  | missingPart (kind : Kind) (role : String)
  | noSuchPart (role : String) (kind : Kind)
  | wrongArity (kind : Kind) (expected found : Nat)
  | unfitChild (kind : Kind) (role : String)
  | staleParent (child parent : Kind)
  | branchWithoutValue (kind : Kind)
  | notModule
  | notPrintableStatement (kind : Kind)
  | notPrintableExpression (kind : Kind)
deriving DecidableEq

namespace Fault

def message : Fault → String
  | insertIntoSelf => "cannot insert a node into itself"
  | alreadyAttached k => s!"{k.name} node is already attached"
  | insertIntoSubtree => "cannot insert a node into its own subtree"
  | foreignPosition => "insertion point is not a child of the parent"
  | replaceRoot => "cannot replace a node without a parent"
  | spliceRoot => "cannot splice a node without a parent"
  | becomeSelf => "a node cannot become itself"
  | becomeAttached k => s!"{k.name} node must be detached before another node becomes it"
  | becomeAncestor => "a node cannot become one of its ancestors"
  | notExpression role k => s!"{role} must be an expression, got {k.name}"
  | notStatement role k => s!"{role} must be a statement, got {k.name}"
  | invalidKind role k => s!"{role} has invalid kind {k.name}"
  | missingPart k role => s!"{k.name} node has no {role}"
  | noSuchPart role k => s!"{role} requested from {k.name} node"
  | wrongArity k expected found =>
    s!"{k.name} node must have {expected} children, found {found}"
  | unfitChild k role => s!"{k.name} node has an invalid {role}"
  | staleParent child parent =>
    s!"{child.name} child of {parent.name} has a stale parent link"
  | branchWithoutValue k => s!"{k.name} branches must carry a value"
  | notModule => "can only emit modules"
  | notPrintableStatement k => s!"cannot emit {k.name} node as a statement"
  | notPrintableExpression k => s!"cannot emit {k.name} node as an expression"

end Fault

end ScriptPress

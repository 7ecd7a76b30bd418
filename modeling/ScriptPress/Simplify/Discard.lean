import ScriptPress.Simplify.Step
import ScriptPress.Tree.Effects

/-! # Discarded values -/

namespace ScriptPress

open Part

/-- An expression taken apart: the trees that have to be evaluated, in order, and what is left of
the expression without them. Nothing is left when the expression has to stay whole. -/
structure Effects (α : Type) where
  parts : List (Tree α)
  remains : List (Tree α)

namespace Effects

variable {α : Type}

def whole (t : Tree α) : Effects α := ⟨[t], []⟩

def none (t : Tree α) : Effects α := ⟨[], [t]⟩

def append (a b : Effects α) : Effects α := ⟨a.parts ++ b.parts, a.remains ++ b.remains⟩

/-- The effects of operands, seen as those of the operator around them. -/
def under (m : α) (kind : Kind) (operands : Effects α) (others : List (Tree α)) : Effects α :=
  ⟨operands.parts, [.node m kind (operands.remains ++ others)]⟩

end Effects

namespace Tree

variable {α : Type}

/-- How an expression with effects is taken apart. -/
inductive Discard where
  | elements
  | properties
  | operands (parts : List Part)
  | whole

/-- The right operand of `&&` and `||` stays with its operator unless it has no effects, and so do
the branches of a conditional. -/
def discard (kind : Kind) (children : List (Tree α)) : Except Fault Discard :=
  match kind with
  | .array | .sequence => .ok .elements
  | .object => .ok .properties
  | .member _ => .ok (.operands [memberObject])
  | .index => .ok (.operands [indexTarget, indexProperty])
  | .unary op => .ok (if op.isPure then .operands [unaryOperand] else .whole)
  | .binary op =>
    if op.isLogical then do
      let right ← rightOperand.get kind children
      return if ← right.hasEffects then .whole else .operands [leftOperand]
    else .ok (.operands [leftOperand, rightOperand])
  | .conditional => do
    if ← (← conditionalTrue.get kind children).hasEffects then return .whole
    if ← (← conditionalFalse.get kind children).hasEffects then return .whole
    return .operands [conditionalTest]
  | _ => .ok .whole

mutual

def effects : Tree α → Except Fault (Effects α)
  | node m kind cs => do
    if !(← (node m kind cs).hasEffects) then return .none (node m kind cs)
    match ← discard kind cs with
    | .elements => return (← effectsAll cs).under m kind []
    | .properties => return (← effectsProperties cs).under m kind []
    | .operands parts => effectsOperands m kind parts cs
    | .whole => return .whole (node m kind cs)

def effectsAll : List (Tree α) → Except Fault (Effects α)
  | [] => .ok ⟨[], []⟩
  | c :: cs => do return (← effects c).append (← effectsAll cs)

def effectsProperties : List (Tree α) → Except Fault (Effects α)
  | [] => .ok ⟨[], []⟩
  | p :: ps => do return (← effectsProperty p).append (← effectsProperties ps)

def effectsProperty : Tree α → Except Fault (Effects α)
  | node m kind cs =>
    if kind.isProperty then
      match cs with
      | [] => .error (propertyValue.missingFrom kind)
      | c :: rest => do return (← effects c).under m kind rest
    else .error (.noSuchPart propertyValue.title kind)

def effectsOperands (m : α) (kind : Kind) : List Part → List (Tree α) → Except Fault (Effects α)
  | [], cs => .ok ⟨[], [node m kind cs]⟩
  | p :: _, [] => .error (p.missingFrom kind)
  | _ :: ps, c :: cs => do
    let first ← effects c
    let others ← effectsOperands m kind ps cs
    return ⟨first.parts ++ others.parts,
      others.remains.map fun t => node t.mark t.kind (first.remains ++ t.children)⟩

end

end Tree

/-- What discarding the value of an expression makes of it. -/
inductive Discarded (α : Type) where
  | nothing
  | unchanged
  | reduced (step : Step α)

namespace Tree

variable {α : Type}

/-- Leaves the effects of an expression in its place: the only one itself, several as a
sequence. -/
def discarded (t : Tree (Option α)) : Except Fault (Discarded α) := do
  let e ← t.effects
  match e.parts with
  | [] => return .nothing
  | [only] =>
    if e.remains.isEmpty then return .unchanged
    else return .reduced (Step.become t.mark only (e.remains.flatMap children))
  | parts =>
    if t.kind = .sequence && (e.remains.flatMap children).isEmpty then return .unchanged
    else do
      parts.forM fun p => p.kind.expectExpression "sequence element"
      return .reduced (Step.fresh t.mark .sequence parts (e.remains.flatMap children))

end Tree

namespace Simplifying

variable {α : Type}

def keepEffects (t : Tree (Option α)) : Simplifying α (Option (Tree (Option α))) := do
  match ← t.discarded with
  | .nothing => return none
  | .unchanged => return some t
  | .reduced s => return some (← perform s)

/-- Leaves only the effects of an expression statement; without any it becomes empty. -/
def expressionStatement (m : Option α) (children : List (Tree (Option α))) :
    Simplifying α (Tree (Option α)) :=
  match children with
  | [] => throw (expressionValue.missingFrom .expression)
  | value :: rest => do
    match ← keepEffects value with
    | some value => return .node m .expression (value :: rest)
    | none => perform (Step.leaf m .empty (value :: rest))

def flattenSequences : List (Tree (Option α)) → Simplifying α (List (Tree (Option α)))
  | [] => return []
  | c :: cs => do
    if c.kind = .sequence then
      release [c.emptied]
      noteChange
      return c.children ++ (← flattenSequences cs)
    else return c :: (← flattenSequences cs)

/-- Only the last element has a value that may be used; of the others the effects stay. -/
def reduceElements : List (Tree (Option α)) → Simplifying α (List (Tree (Option α)))
  | [] => return []
  | [last] => return [last]
  | c :: cs => do
    match ← keepEffects c with
    | none =>
      release [c]
      noteChange
      reduceElements cs
    | some c =>
      if c.kind = .sequence then
        release [c.emptied]
        return c.children ++ (← reduceElements cs)
      else return c :: (← reduceElements cs)

def sequence (m : Option α) (children : List (Tree (Option α))) :
    Simplifying α (Tree (Option α)) := do
  match ← reduceElements (← flattenSequences children) with
  | [only] => perform (Step.become m only [])
  | cs => return .node m .sequence cs

end Simplifying

end ScriptPress

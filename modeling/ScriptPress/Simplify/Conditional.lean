import ScriptPress.Simplify.Step
import ScriptPress.Tree.Effects

/-! # Conditional expressions -/

namespace ScriptPress

namespace Step

variable {α : Type}

def chosenBranch (m : Option α) (truth : Bool) (test : Tree (Option α)) :
    List (Tree (Option α)) → Except Fault (Step α)
  | whenTrue :: branches =>
    if truth then .ok (become m whenTrue (test :: branches))
    else match branches with
      | whenFalse :: rest => .ok (become m whenFalse (test :: whenTrue :: rest))
      | [] => .error (Part.conditionalFalse.missingFrom .conditional)
  | [] => .error (Part.conditionalTrue.missingFrom .conditional)

def logicalOf (m : Option α) (op : BinaryOp) (left right dropped : Tree (Option α)) :
    Except Fault (Option (Step α)) := do
  left.kind.expectExpression "binary operand"
  right.kind.expectExpression "binary operand"
  return some (fresh m (.binary op) [left, right] [dropped])

/-- The rules for a test that is neither a literal nor a negation. -/
def conditional (m : Option α) (test : Tree (Option α)) :
    List (Tree (Option α)) → Except Fault (Option (Step α))
  | whenTrue :: whenFalse :: rest => do
    let effects ← test.hasEffects
    let three : Except Fault Unit :=
      if rest.isEmpty then .ok () else .error (.wrongArity .conditional 3 (3 + rest.length))
    if whenTrue.sameAs whenFalse then
      if effects then
        three
        let joined := comma test whenTrue
        return some (become m joined.tree (whenFalse :: joined.detached))
      else return some (become m whenTrue (test :: whenFalse :: rest))
    else if !effects && test.sameAs whenTrue then
      three
      logicalOf m .logicalOr test whenFalse whenTrue
    else if !effects && test.sameAs whenFalse then
      three
      logicalOf m .logicalAnd test whenTrue whenFalse
    else return none
  | [_] => .error (Part.conditionalFalse.missingFrom .conditional)
  | [] => .error (Part.conditionalTrue.missingFrom .conditional)

end Step

namespace Simplifying

variable {α : Type}

def conditionalOn (m : Option α) :
    Tree (Option α) → List (Tree (Option α)) → Simplifying α (Tree (Option α))
  | .node tm (.unary .not) tcs, branches =>
    match branches, tcs with
    | [whenTrue, whenFalse], inner :: others => do
      release [.node tm (.unary .not) others]
      noteChange
      conditionalOn m inner [whenFalse, whenTrue]
    | [_, _], [] => throw (Part.unaryOperand.missingFrom (.unary .not))
    | _, _ => throw (.wrongArity .conditional 3 (1 + branches.length))
  | test, branches => do
    match test.kind.truth? with
    | some b => perform (← Step.chosenBranch m b test branches)
    | none =>
      performOr (.node m .conditional (test :: branches)) (← Step.conditional m test branches)

def conditional (m : Option α) : List (Tree (Option α)) → Simplifying α (Tree (Option α))
  | [] => throw (Part.conditionalTest.missingFrom .conditional)
  | test :: branches => conditionalOn m test branches

end Simplifying

end ScriptPress

import ScriptPress.Tree.Part

/-! # What evaluating or dropping a tree does -/

namespace ScriptPress.Tree

variable {α : Type}

mutual

/-- Whether evaluating an expression may be observable. Literals, names, `this` and regular
expressions are not; pure unary operators, arrays and objects are not when their operands are
not. Everything else is taken to be. -/
def hasEffects : Tree α → Except Fault Bool
  | node _ kind cs =>
    match kind with
    | .boolean _ | .null | .number _ | .string _ | .undefined | .regExp _ | .identifier _
    | .this => .ok false
    | .unary op => if op.isPure then operandHasEffects kind cs else .ok true
    | .array => anyHasEffects cs
    | .object => anyPropertyHasEffects cs
    | _ => .ok true

def operandHasEffects (owner : Kind) : List (Tree α) → Except Fault Bool
  | [] => .error (Part.unaryOperand.missingFrom owner)
  | c :: _ => hasEffects c

def anyHasEffects : List (Tree α) → Except Fault Bool
  | [] => .ok false
  | c :: cs => do if ← hasEffects c then return true else anyHasEffects cs

def anyPropertyHasEffects : List (Tree α) → Except Fault Bool
  | [] => .ok false
  | p :: ps => do if ← propertyHasEffects p then return true else anyPropertyHasEffects ps

def propertyHasEffects : Tree α → Except Fault Bool
  | node _ kind cs =>
    if kind.isProperty then
      match cs with
      | [] => .error (Part.propertyValue.missingFrom kind)
      | c :: _ => hasEffects c
    else .error (.noSuchPart Part.propertyValue.title kind)

end

mutual

/-- Whether a statement declares a function or a `var` binding. Expressions declare nothing. -/
def bindsNames : Tree α → Bool
  | node _ kind cs =>
    match kind with
    | .varStatement | .function _ => true
    | k => !k.isExpression && anyBindsNames cs

def anyBindsNames : List (Tree α) → Bool
  | [] => false
  | c :: cs => bindsNames c || anyBindsNames cs

end

end ScriptPress.Tree

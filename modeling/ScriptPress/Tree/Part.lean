import ScriptPress.Tree.Basic

/-! # Parts of nodes -/

namespace ScriptPress

structure Part where
  owner : Kind → Bool
  position : Nat
  title : String
  role : String

namespace Part

def expressionValue : Part := ⟨(· == .expression), 0, "expression value", "value"⟩
def variableValue : Part := ⟨Kind.isVariable, 0, "variable value", "value"⟩
def propertyValue : Part := ⟨Kind.isProperty, 0, "property value", "value"⟩
def functionBody : Part := ⟨Kind.isFunction, 0, "function body", "body"⟩
def returnValue : Part := ⟨(· == .return), 0, "return value", "value"⟩
def throwValue : Part := ⟨(· == .throw), 0, "throw value", "value"⟩
def ifTest : Part := ⟨(· == .ifElse), 0, "if test", "test"⟩
def ifTrue : Part := ⟨(· == .ifElse), 1, "if branch", "branch"⟩
def ifFalse : Part := ⟨(· == .ifElse), 2, "else branch", "else branch"⟩
def forSetup : Part := ⟨(· == .forLoop), 0, "for setup", "setup"⟩
def forTest : Part := ⟨(· == .forLoop), 1, "for test", "test"⟩
def forUpdate : Part := ⟨(· == .forLoop), 2, "for update", "update"⟩
def forBody : Part := ⟨(· == .forLoop), 3, "for body", "body"⟩
def forInSetup : Part := ⟨(· == .forIn), 0, "for-in setup", "setup"⟩
def forInValue : Part := ⟨(· == .forIn), 1, "for-in value", "value"⟩
def forInBody : Part := ⟨(· == .forIn), 2, "for-in body", "body"⟩
def doWhileBody : Part := ⟨(· == .doWhile), 0, "do-while body", "body"⟩
def doWhileTest : Part := ⟨(· == .doWhile), 1, "do-while test", "test"⟩
def whileTest : Part := ⟨(· == .whileLoop), 0, "while test", "test"⟩
def whileBody : Part := ⟨(· == .whileLoop), 1, "while body", "body"⟩
def labelBody : Part := ⟨Kind.isLabel, 0, "label body", "body"⟩
def tryBlock : Part := ⟨(· == .try), 0, "try block", "block"⟩
def tryCatch : Part := ⟨(· == .try), 1, "catch clause", "catch clause"⟩
def tryFinally : Part := ⟨(· == .try), 2, "finally block", "finally block"⟩
def catchBody : Part := ⟨Kind.isCatch, 0, "catch body", "body"⟩
def callTarget : Part := ⟨fun k => k == .call || k == .new, 0, "call target", "target"⟩
def memberObject : Part := ⟨Kind.isMember, 0, "member object", "object"⟩
def indexTarget : Part := ⟨(· == .index), 0, "index target", "target"⟩
def indexProperty : Part := ⟨(· == .index), 1, "index property", "property"⟩
def conditionalTest : Part := ⟨(· == .conditional), 0, "conditional test", "test"⟩
def conditionalTrue : Part := ⟨(· == .conditional), 1, "conditional branch", "branch"⟩
def conditionalFalse : Part := ⟨(· == .conditional), 2, "conditional branch", "branch"⟩
def unaryOperand : Part := ⟨Kind.isUnary, 0, "unary operand", "operand"⟩
def leftOperand : Part := ⟨Kind.isBinary, 0, "left operand", "left operand"⟩
def rightOperand : Part := ⟨Kind.isBinary, 1, "right operand", "right operand"⟩

def missingFrom (p : Part) (kind : Kind) : Fault := .missingPart kind p.role

def get {β : Type} (p : Part) (kind : Kind) (children : List β) : Except Fault β :=
  if p.owner kind then
    match children[p.position]? with
    | some c => .ok c
    | none => .error (p.missingFrom kind)
  else .error (.noSuchPart p.title kind)

/-- What follows the first child: the arguments of a call or the parameters of a function. -/
def rest {β : Type} (owner : Kind → Bool) (title : String) (kind : Kind) (children : List β) :
    Except Fault (List β) :=
  if owner kind then .ok (children.drop 1) else .error (.noSuchPart title kind)

def functionParameters {β : Type} : Kind → List β → Except Fault (List β) :=
  rest Kind.isFunction "function parameters"

def callArguments {β : Type} : Kind → List β → Except Fault (List β) :=
  rest (fun k => k == .call || k == .new) "call arguments"

end Part

namespace Kind

def symbol (k : Kind) : Except Fault SymbolId :=
  match k.symbol? with
  | some s => .ok s
  | none => .error (.noSuchPart "symbol" k)

def jumpLabel : Kind → Except Fault (Option SymbolId)
  | .break target | .continue target => .ok target
  | k => .error (.noSuchPart "jump label" k)

def numberValue : Kind → Except Fault Float
  | number x => .ok x
  | k => .error (.noSuchPart "number" k)

def stringValue : Kind → Except Fault String
  | string s => .ok s
  | k => .error (.noSuchPart "string" k)

def booleanValue : Kind → Except Fault Bool
  | boolean b => .ok b
  | k => .error (.noSuchPart "boolean" k)

end Kind

namespace Tree

variable {α : Type}

def part (t : Tree α) (p : Part) : Except Fault (Tree α) := p.get t.kind t.children

end Tree

end ScriptPress

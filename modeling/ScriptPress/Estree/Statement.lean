import ScriptPress.Estree.Expression
import ScriptPress.Estree.Hoist

/-! # Statements of a document -/

namespace ScriptPress.Element

def expressionOr (scope : Scope) (missing : Kind) (e : Element) (name : String) :
    Reading (Tree Unit) := do
  match ← e.optional name with
  | some c => c.1.expression scope
  | none => return .plain missing []

def expectVar (e : Element) : Except Defect Unit := do
  let kind ← e.text "kind"
  if kind ≠ "var" then throw (.unsupported s!"{kind} declaration")

def declarator (scope : Scope) (e : Element) : Reading (Tree Unit) := do
  let symbol ← scope.resolve (← (← e.node "id").1.identifierName)
  let value ← e.expressionOr scope .undefined "init"
  return .plain (.variable symbol) [value]

def varStatement (scope : Scope) (e : Element) : Reading (Tree Unit) := do
  e.expectVar
  return .plain .varStatement (← (← e.list "declarations").mapM fun d => d.1.declarator scope)

def loopVariable (scope : Scope) (e : Element) : Reading (Tree Unit) := do
  e.expectVar
  match ← e.list "declarations" with
  | [d] =>
    if (← d.1.optional "init").isSome then throw (.unsupported "for-in initializer")
    let symbol ← scope.resolve (← (← d.1.node "id").1.identifierName)
    return .plain (.variable symbol) [.plain .undefined []]
  | _ => throw (e.malformed "declarations")

def parameters (frame : Frame) : List Element → Reading (List (Tree Unit) × Frame)
  | [] => return ([], frame)
  | e :: es => do
    let (symbol, frame) ← frame.declare (← e.identifierName)
    let (trees, frame) ← parameters frame es
    return (.plain (.variable symbol) [.plain .undefined []] :: trees, frame)

def jumpLabel (scope : Scope) (e : Element) : Except Defect (Option SymbolId) := do
  match ← e.optional "label" with
  | none => return none
  | some l =>
    match scope.labels.lookup (← l.1.identifierName) with
    | some symbol => return some symbol
    | none => throw (e.malformed "label")

section

variable (scope : Scope) (e : Element) (sub : Scope → e.Child → Reading (Tree Unit))

def blockPart (c : e.Child) : Reading (Tree Unit) := do
  if c.1.type ≠ "BlockStatement" then throw (c.1.malformed "type")
  sub scope c

def optionalPart (part : e.Child → Reading (Tree Unit)) (name : String) :
    Reading (Tree Unit) := do
  match ← e.optional name with
  | some c => part c
  | none => return .plain .empty []

def forLoop : Reading (Tree Unit) := do
  let setup ← match ← e.optional "init" with
    | some init =>
      if init.1.type = "VariableDeclaration" then init.1.varStatement scope
      else init.1.expression scope
    | none => pure (.plain .empty [])
  let test ← e.expressionOr scope .empty "test"
  let update ← e.expressionOr scope .empty "update"
  let body ← sub scope (← e.node "body")
  return .plain .forLoop [setup, test, update, body]

def forIn : Reading (Tree Unit) := do
  let left ← e.node "left"
  let setup ←
    if left.1.type = "VariableDeclaration" then left.1.loopVariable scope
    else e.target (fun c => c.1.expression scope) left
  let value ← (← e.node "right").1.expression scope
  let body ← sub scope (← e.node "body")
  return .plain .forIn [setup, value, body]

def labelled : Reading (Tree Unit) := do
  let name ← (← e.node "label").1.identifierName
  let symbol ← Reading.createSymbol name false
  let body ← sub (scope.withLabel name symbol) (← e.node "body")
  return .plain (.label symbol) [body]

def handler (h : e.Child) : Reading (Tree Unit) := do
  match ← h.1.optional "param" with
  | none => throw (.unsupported "catch without binding")
  | some parameter =>
    let (symbol, frame) ← Frame.declare [] (← parameter.1.identifierName)
    let body ← e.blockPart (scope.enter frame) sub (h.below (← h.1.node "body"))
    return .plain (.catch symbol) [body]

def function : Reading (Tree Unit) := do
  if e.flag "generator" then throw (.unsupported "generator function")
  if e.flag "async" then throw (.unsupported "async function")
  let symbol ← scope.resolve (← (← e.node "id").1.identifierName)
  let (trees, frame) ← parameters [] ((← e.list "params").map (·.1))
  let body ← e.node "body"
  let frame ← frame.declareAll (← hoistedAll ((← body.1.list "body").map (·.1)))
  let block ← e.blockPart (scope.enterFunction frame) sub body
  return .plain (.function symbol) (block :: trees)

def statementFrom : Reading (Tree Unit) :=
  match e.type with
  | "BlockStatement" => do return .plain .block (← (← e.list "body").mapM (sub scope))
  | "BreakStatement" => do return .plain (.break (← e.jumpLabel scope)) []
  | "ContinueStatement" => do return .plain (.continue (← e.jumpLabel scope)) []
  | "DebuggerStatement" => return .plain .debugger []
  | "EmptyStatement" => return .plain .empty []
  | "ExpressionStatement" =>
    match e.optionalText "directive" with
    | some text => return .plain (.directive text) []
    | none => do return .plain .expression [← (← e.node "expression").1.expression scope]
  | "ForStatement" => e.forLoop scope sub
  | "ForInStatement" => e.forIn scope sub
  | "FunctionDeclaration" => e.function scope sub
  | "IfStatement" => do
    let test ← (← e.node "test").1.expression scope
    let consequent ← sub scope (← e.node "consequent")
    let alternate ← e.optionalPart (sub scope) "alternate"
    return .plain .ifElse [test, consequent, alternate]
  | "LabeledStatement" => e.labelled scope sub
  | "ReturnStatement" => do return .plain .return [← e.expressionOr scope .undefined "argument"]
  | "ThrowStatement" => do
    return .plain .throw [← (← e.node "argument").1.expression scope]
  | "TryStatement" => do
    let block ← e.blockPart scope sub (← e.node "block")
    let handler ← e.optionalPart (e.handler scope sub) "handler"
    let finalizer ← e.optionalPart (e.blockPart scope sub) "finalizer"
    return .plain .try [block, handler, finalizer]
  | "VariableDeclaration" => e.varStatement scope
  | "WhileStatement" => do
    let test ← (← e.node "test").1.expression scope
    return .plain .whileLoop [test, ← sub scope (← e.node "body")]
  | "DoWhileStatement" => do
    let body ← sub scope (← e.node "body")
    return .plain .doWhile [body, ← (← e.node "test").1.expression scope]
  | _ => throw e.unsupported

end

def statement (scope : Scope) (e : Element) : Reading (Tree Unit) :=
  e.statementFrom scope fun inner c => statement inner c.1
termination_by e.size
decreasing_by exact c.2

end ScriptPress.Element

import ScriptPress.Estree.Scope

/-! # Expressions of a document -/

namespace ScriptPress.Element

def unsupportedOperator (op : String) : Defect := .unsupported s!"`{op}` operator"

/-- A literal other than a regular expression. Numbers that JSON cannot spell are null and leave
their text behind. -/
def plainLiteral (e : Element) : Except Defect Kind :=
  if (e.value? "bigint").isSome then .error (.unsupported "BigInt literal")
  else
    match e.value? "value" with
    | some (.bool b) => .ok (.boolean b)
    | some (.number x) => .ok (.number x)
    | some (.string s) => .ok (.string s)
    | some _ => .error (e.malformed "value")
    | none =>
      match e.optionalText "raw" with
      | some raw => .ok (if raw = "null" then .null else .number (Number.ofText raw))
      | none => .ok .null

def literal (e : Element) : Except Defect Kind :=
  match e.value? "regex" with
  | none => e.plainLiteral
  | some regex =>
    match (regex.get? "pattern").bind Json.string? with
    | none => .error (e.malformed "regex")
    | some pattern =>
      let flags := ((regex.get? "flags").bind Json.string?).getD ""
      .ok (.regExp s!"/{pattern}/{flags}")

def cooked (e : Element) : Except Defect String :=
  match ((e.field? "value").bind (·.get? "cooked")).bind Json.string? with
  | some s => .ok s
  | none => .error (e.malformed "value")

def expectPlainProperty (e : Element) : Except Defect Unit := do
  if e.type ≠ "Property" then throw e.unsupported
  match ← e.text "kind" with
  | "init" => pure ()
  | "get" => throw (.unsupported "getter")
  | "set" => throw (.unsupported "setter")
  | _ => throw (e.malformed "kind")
  if e.flag "method" then throw (.unsupported "method")
  if e.flag "computed" then throw (.unsupported "computed property key")

def keyName (e : Element) : Except Defect String :=
  match e.type with
  | "Identifier" => e.identifierName
  | "Literal" =>
    match e.field? "value" with
    | some (.string name) => .ok name
    | some (.number x) => .ok (Number.spelled x)
    | _ => .error (e.malformed "value")
  | _ => .error e.unsupported

section

variable (scope : Scope) (e : Element) (sub : e.Child → Reading (Tree Unit))

def target (c : e.Child) : Reading (Tree Unit) :=
  match c.1.type with
  | "Identifier" | "MemberExpression" | "ParenthesizedExpression" => sub c
  | _ => throw c.1.unsupported

def property (p : e.Child) : Reading (Tree Unit) := do
  p.1.expectPlainProperty
  let symbol ← Reading.propertySymbol (← (← p.1.node "key").1.keyName)
  let value ← sub (p.below (← p.1.node "value"))
  return .plain (.property symbol) [value]

def element : Option e.Child → Reading (Tree Unit)
  | some c => sub c
  | none => return .plain .undefined []

def member : Reading (Tree Unit) := do
  if e.flag "optional" then throw (.unsupported "optional member access")
  let object ← e.node "object"
  if object.1.type = "Super" then throw object.1.unsupported
  let value ← sub object
  let property ← e.node "property"
  if e.flag "computed" then return .plain .index [value, ← sub property]
  else
    let symbol ← Reading.propertySymbol (← property.1.identifierName)
    return .plain (.member symbol) [value]

def call (kind : Kind) : Reading (Tree Unit) := do
  if e.flag "optional" then throw (.unsupported "optional call")
  let callee ← sub (← e.node "callee")
  let arguments ← (← e.list "arguments").mapM sub
  return .plain kind (callee :: arguments)

def unary : Reading (Tree Unit) := do
  let operator ← e.text "operator"
  match UnaryOp.ofText? operator with
  | some op => return .plain (.unary op) [← sub (← e.node "argument")]
  | none => throw (unsupportedOperator operator)

def update : Reading (Tree Unit) := do
  let operator ← e.text "operator"
  match UnaryOp.update? (e.flag "prefix") operator with
  | some op => return .plain (.unary op) [← e.target sub (← e.node "argument")]
  | none => throw (unsupportedOperator operator)

def power (left right : Tree Unit) : Tree Unit :=
  let function := Tree.plain (.member scope.known.pow) [.plain (.identifier scope.known.math) []]
  .plain .call [function, left, right]

def binary : Reading (Tree Unit) := do
  let operator ← e.text "operator"
  let left ← sub (← e.node "left")
  let right ← sub (← e.node "right")
  if operator = "**" then return power scope left right
  else
    match BinaryOp.ofText? operator with
    | some op => return .plain (.binary op) [left, right]
    | none => throw (unsupportedOperator operator)

def assign : Reading (Tree Unit) := do
  let operator ← e.text "operator"
  match AssignOp.ofText? operator with
  | some op =>
    let left ← e.target sub (← e.node "left")
    return .plain (.assign op) [left, ← sub (← e.node "right")]
  | none => throw (unsupportedOperator operator)

/-- Appends a value and the text after it to the chain that a template has become so far. -/
def templatePart (chain : Tree Unit) (part : e.Child × e.Child) : Reading (Tree Unit) := do
  let chain := Tree.plain (.binary .add) [chain, ← sub part.1]
  let text ← part.2.1.cooked
  return .plain (.binary .add) [chain, .plain (.string text) []]

/-- A template begins with a text, however short, so every `+` in its chain joins texts. -/
def template : Reading (Tree Unit) := do
  let quasis ← e.list "quasis"
  let expressions ← e.list "expressions"
  if quasis.length ≠ expressions.length + 1 then throw (e.malformed "quasis")
  match quasis with
  | [] => throw (e.malformed "quasis")
  | first :: others =>
    let start := Tree.plain (.string (← first.1.cooked)) []
    (expressions.zip others).foldlM (e.templatePart sub) start

def expressionFrom : Reading (Tree Unit) :=
  match e.type with
  | "Identifier" => do
    return .plain (.identifier (← scope.resolve (← e.identifierName))) []
  | "Literal" => do return .plain (← e.literal) []
  | "ThisExpression" => return .plain .this []
  | "ParenthesizedExpression" => do sub (← e.node "expression")
  | "ArrayExpression" => do
    return .plain .array (← (← e.nodes "elements").mapM (e.element sub))
  | "ObjectExpression" => do
    return .plain .object (← (← e.list "properties").mapM (e.property sub))
  | "ConditionalExpression" => do
    let test ← sub (← e.node "test")
    let consequent ← sub (← e.node "consequent")
    let alternate ← sub (← e.node "alternate")
    return .plain .conditional [test, consequent, alternate]
  | "MemberExpression" => e.member sub
  | "CallExpression" => e.call sub .call
  | "NewExpression" => e.call sub .new
  | "SequenceExpression" => do
    return .plain .sequence (← (← e.list "expressions").mapM sub)
  | "UnaryExpression" => e.unary sub
  | "UpdateExpression" => e.update sub
  | "BinaryExpression" | "LogicalExpression" => e.binary scope sub
  | "AssignmentExpression" => e.assign sub
  | "TemplateLiteral" => e.template sub
  | _ => throw e.unsupported

end

def expression (scope : Scope) (e : Element) : Reading (Tree Unit) :=
  e.expressionFrom scope fun c => expression scope c.1
termination_by e.size
decreasing_by exact c.2

end ScriptPress.Element

import ScriptPress.Store.Edit

/-! # Building nodes -/

namespace ScriptPress

abbrev Building := StateT Store (Except Fault)

namespace Building

def create (kind : Kind) : Building NodeId := modifyGet fun s => s.create kind

def kindOf (n : NodeId) : Building Kind := return (← get).kind n

def append (parent child : NodeId) : Building Unit := do set (← (← get).append parent child)

def withChildren (kind : Kind) (children : List NodeId) : Building NodeId := do
  let n ← create kind
  children.forM (append n)
  return n

def expectExpression (role : String) (n : NodeId) : Building Unit := do
  (← kindOf n).expectExpression role

def expectStatement (role : String) (n : NodeId) : Building Unit := do
  (← kindOf n).expectStatement role

def expectKind (role : String) (ok : Kind → Bool) (n : NodeId) : Building Unit := do
  let kind ← kindOf n
  kind.expectKind role (ok kind)

def orLeaf (kind : Kind) : Option NodeId → Building NodeId
  | some n => pure n
  | none => create kind

def expression (value : NodeId) : Building NodeId := do
  expectExpression "expression statement value" value
  withChildren .expression [value]

def declarator (symbol : SymbolId) (value : NodeId) : Building NodeId := do
  expectExpression "variable initializer" value
  withChildren (.variable symbol) [value]

def function (symbol : SymbolId) (body : NodeId) (parameters : List NodeId) :
    Building NodeId := do
  expectKind "function body" (· == .block) body
  parameters.forM (expectKind "function parameter" Kind.isVariable)
  withChildren (.function symbol) (body :: parameters)

def forLoop (setup test update body : NodeId) : Building NodeId := do
  expectKind "for setup" Kind.fitsSetup setup
  expectKind "for test" Kind.fitsClause test
  expectKind "for update" Kind.fitsClause update
  expectStatement "for body" body
  withChildren .forLoop [setup, test, update, body]

def forIn (setup value body : NodeId) : Building NodeId := do
  expectKind "for-in setup" Kind.fitsHead setup
  expectExpression "for-in value" value
  expectStatement "for-in body" body
  withChildren .forIn [setup, value, body]

def property (key : SymbolId) (value : NodeId) : Building NodeId := do
  expectExpression "property value" value
  withChildren (.property key) [value]

def returning (value : Option NodeId) : Building NodeId := do
  let value ← orLeaf .undefined value
  expectExpression "return value" value
  withChildren .return [value]

def throwing (value : NodeId) : Building NodeId := do
  expectExpression "throw value" value
  withChildren .throw [value]

def ifElse (test whenTrue : NodeId) (whenFalse : Option NodeId) : Building NodeId := do
  let whenFalse ← orLeaf .empty whenFalse
  expectExpression "if test" test
  expectStatement "if branch" whenTrue
  expectStatement "else branch" whenFalse
  withChildren .ifElse [test, whenTrue, whenFalse]

def doWhile (body test : NodeId) : Building NodeId := do
  expectStatement "do-while body" body
  expectExpression "do-while test" test
  withChildren .doWhile [body, test]

def label (symbol : SymbolId) (body : NodeId) : Building NodeId := do
  expectStatement "label body" body
  withChildren (.label symbol) [body]

def whileLoop (test body : NodeId) : Building NodeId := do
  expectExpression "while test" test
  expectStatement "while body" body
  withChildren .whileLoop [test, body]

/-- A clause that has to be of one kind when it is given and is empty otherwise. -/
def clause (role : String) (ok : Kind → Bool) : Option NodeId → Building NodeId
  | some n => do
    expectKind role ok n
    return n
  | none => create .empty

def tryCatch (block : NodeId) (handler finalizer : Option NodeId) : Building NodeId := do
  expectKind "try block" (· == .block) block
  let handler ← clause "catch clause" Kind.isCatch handler
  let finalizer ← clause "finally block" (· == .block) finalizer
  withChildren .try [block, handler, finalizer]

def catching (symbol : SymbolId) (body : NodeId) : Building NodeId := do
  expectKind "catch body" (· == .block) body
  withChildren (.catch symbol) [body]

def call (target : NodeId) (arguments : List NodeId) : Building NodeId := do
  expectExpression "call target" target
  arguments.forM (expectExpression "call argument")
  withChildren .call (target :: arguments)

def new (target : NodeId) (arguments : List NodeId) : Building NodeId := do
  expectExpression "new target" target
  arguments.forM (expectExpression "new argument")
  withChildren .new (target :: arguments)

def member (object : NodeId) (property : SymbolId) : Building NodeId := do
  expectExpression "member object" object
  withChildren (.member property) [object]

def index (target property : NodeId) : Building NodeId := do
  expectExpression "index target" target
  expectExpression "index property" property
  withChildren .index [target, property]

def conditional (test whenTrue whenFalse : NodeId) : Building NodeId := do
  expectExpression "conditional test" test
  expectExpression "conditional branch" whenTrue
  expectExpression "conditional branch" whenFalse
  withChildren .conditional [test, whenTrue, whenFalse]

def sequence (values : List NodeId) : Building NodeId := do
  values.forM (expectExpression "sequence element")
  withChildren .sequence values

def unary (op : UnaryOp) (value : NodeId) : Building NodeId := do
  expectExpression "unary operand" value
  withChildren (.unary op) [value]

def binary (op : BinaryOp) (left right : NodeId) : Building NodeId := do
  expectExpression "binary operand" left
  expectExpression "binary operand" right
  withChildren (.binary op) [left, right]

def assign (op : AssignOp) (target value : NodeId) : Building NodeId := do
  expectExpression "assignment target" target
  expectExpression "assignment value" value
  withChildren (.assign op) [target, value]

def array (elements : List NodeId) : Building NodeId := do
  elements.forM (expectExpression "array element")
  withChildren .array elements

def object (properties : List NodeId) : Building NodeId := do
  properties.forM (expectKind "object member" Kind.isProperty)
  withChildren .object properties

end Building

end ScriptPress

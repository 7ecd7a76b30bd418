import ScriptPress.Tree.Basic

/-! # Well-shaped trees -/

namespace ScriptPress

namespace Kind

def expectExpression (role : String) (k : Kind) : Except Fault Unit :=
  if k.isExpression then .ok () else .error (.notExpression role k)

def expectStatement (role : String) (k : Kind) : Except Fault Unit :=
  if k.isStatement then .ok () else .error (.notStatement role k)

def expectKind (role : String) (k : Kind) (ok : Bool) : Except Fault Unit :=
  if ok then .ok () else .error (.invalidKind role k)

abbrev Fits := Kind → Bool

def fitsClause (k : Kind) : Bool := k.isExpression || k == .empty

def fitsSetup (k : Kind) : Bool := k.isExpression || k == .empty || k == .varStatement

def fitsHead (k : Kind) : Bool := k.isExpression || k.isVariable

def fitsHandler (k : Kind) : Bool := k == .empty || k.isCatch

def fitsFinalizer (k : Kind) : Bool := k == .empty || k == .block

def require (owner : Kind) (ok : Bool) (role : String) : Except Fault Unit :=
  if ok then .ok () else .error (.unfitChild owner role)

def requireAll (owner : Kind) (fits : Fits) (role : String) : List Kind → Except Fault Unit
  | [] => .ok ()
  | k :: ks => do
    owner.require (fits k) role
    owner.requireAll fits role ks

def requireEach (owner : Kind) (places : List (Fits × String)) (children : List Kind) :
    Except Fault Unit :=
  if children.length = places.length then
    (children.zip places).forM fun (k, fits, role) => owner.require (fits k) role
  else .error (.wrongArity owner places.length children.length)

def requireOperands (owner : Kind) (count : Nat) (children : List Kind) : Except Fault Unit :=
  if children.length = count then owner.require (children.all isExpression) "operand"
  else .error (.wrongArity owner count children.length)

def checkChildren (kind : Kind) (children : List Kind) : Except Fault Unit :=
  match kind with
  | module | block => kind.requireAll isStatement "statement" children
  | varStatement => kind.requireAll isVariable "declaration" children
  | object => kind.requireAll isProperty "member" children
  | array | sequence => kind.requireAll isExpression "element" children
  | call | new => do
    kind.require (!children.isEmpty) "target"
    kind.requireAll isExpression "operand" children
  | function _ => do
    kind.require (children.head? == some block) "body"
    kind.requireAll isVariable "parameter" (children.drop 1)
  | forLoop => kind.requireEach [(fitsSetup, "setup"), (fitsClause, "test"),
      (fitsClause, "update"), (isStatement, "body")] children
  | forIn => kind.requireEach [(fitsHead, "setup"), (isExpression, "value"),
      (isStatement, "body")] children
  | ifElse => kind.requireEach [(isExpression, "test"), (isStatement, "branch"),
      (isStatement, "else branch")] children
  | .try => kind.requireEach [((· == block), "block"), (fitsHandler, "catch clause"),
      (fitsFinalizer, "finally block")] children
  | .catch _ => kind.requireEach [((· == block), "body")] children
  | doWhile => kind.requireEach [(isStatement, "body"), (isExpression, "test")] children
  | whileLoop => kind.requireEach [(isExpression, "test"), (isStatement, "body")] children
  | label _ => kind.requireEach [(isStatement, "body")] children
  | expression | .return | throw | .variable _ | property _ | member _ | unary _ =>
    kind.requireOperands 1 children
  | index | binary _ | assign _ => kind.requireOperands 2 children
  | conditional => kind.requireOperands 3 children
  | .break _ | .continue _ | debugger | directive _ | empty | boolean _ | identifier _ | null
  | number _ | regExp _ | string _ | this | undefined => kind.requireEach [] children

end Kind

namespace Tree

variable {α : Type}

mutual

def check : Tree α → Except Fault Unit
  | node _ kind cs => do
    kind.checkChildren (cs.map Tree.kind)
    checkAll cs

def checkAll : List (Tree α) → Except Fault Unit
  | [] => .ok ()
  | c :: cs => do
    check c
    checkAll cs

end

def WellShaped (t : Tree α) : Prop := t.check = .ok ()

end Tree

end ScriptPress

import ScriptPress.Tree.Operator

/-! # Node kinds -/

namespace ScriptPress

/-- A named thing, numbered in order of creation. -/
structure SymbolId where
  index : Nat
deriving DecidableEq, Repr

structure Symbol where
  name : String
  pinned : Bool
deriving DecidableEq, Repr

inductive Category where
  | module | property | variable | catch | statement | expression
deriving DecidableEq, Repr

inductive Kind where
  | module
  | property (key : SymbolId)
  | variable (symbol : SymbolId)
  | catch (binding : SymbolId)
  | block
  | break (label : Option SymbolId)
  | continue (label : Option SymbolId)
  | debugger
  | directive (text : String)
  | doWhile
  | empty
  | expression
  | forLoop
  | forIn
  | function (symbol : SymbolId)
  | ifElse
  | label (symbol : SymbolId)
  | return
  | throw
  | try
  | varStatement
  | whileLoop
  | array
  | boolean (value : Bool)
  | call
  | conditional
  | identifier (symbol : SymbolId)
  | index
  | member (property : SymbolId)
  | new
  | null
  | number (value : Float)
  | object
  | regExp (source : String)
  | sequence
  | string (value : String)
  | this
  | undefined
  | unary (op : UnaryOp)
  | binary (op : BinaryOp)
  | assign (op : AssignOp)
deriving DecidableEq

namespace Kind

def category : Kind → Category
  | module => .module
  | property _ => .property
  | .variable _ => .variable
  | .catch _ => .catch
  | block | .break _ | .continue _ | debugger | directive _ | doWhile | empty | expression
  | forLoop | forIn | function _ | ifElse | label _ | .return | throw | .try | varStatement
  | whileLoop => .statement
  | array | boolean _ | call | conditional | identifier _ | index | member _ | new | null
  | number _ | object | regExp _ | sequence | string _ | this | undefined | unary _ | binary _
  | assign _ => .expression

def isStatement (k : Kind) : Bool := k.category == .statement

def isExpression (k : Kind) : Bool := k.category == .expression

def isUnary : Kind → Bool
  | unary _ => true
  | _ => false

def isUnaryAssign : Kind → Bool
  | unary op => op.isAssign
  | _ => false

/-- Assignments count as binary: they too have a left and a right operand. -/
def isBinary : Kind → Bool
  | binary _ | assign _ => true
  | _ => false

def isAssign : Kind → Bool
  | assign _ => true
  | _ => false

def isLiteral : Kind → Bool
  | boolean _ | null | number _ | string _ | undefined => true
  | _ => false

def isFunction : Kind → Bool
  | function _ => true
  | _ => false

def isVariable : Kind → Bool
  | .variable _ => true
  | _ => false

def isProperty : Kind → Bool
  | property _ => true
  | _ => false

def isCatch : Kind → Bool
  | .catch _ => true
  | _ => false

def isLabel : Kind → Bool
  | label _ => true
  | _ => false

def isMember : Kind → Bool
  | member _ => true
  | _ => false

def symbol? : Kind → Option SymbolId
  | property s | .variable s | .catch s | function s | label s | identifier s | member s => some s
  | _ => none

def name : Kind → String
  | module => "Module"
  | property _ => "Property"
  | .variable _ => "Variable"
  | .catch _ => "Catch"
  | block => "Block"
  | .break _ => "Break"
  | .continue _ => "Continue"
  | debugger => "Debugger"
  | directive _ => "Directive"
  | doWhile => "DoWhile"
  | empty => "Empty"
  | expression => "Expression"
  | forLoop => "For"
  | forIn => "ForIn"
  | function _ => "Function"
  | ifElse => "If"
  | label _ => "Label"
  | .return => "Return"
  | throw => "Throw"
  | .try => "Try"
  | varStatement => "Variables"
  | whileLoop => "While"
  | array => "Array"
  | boolean _ => "Boolean"
  | call => "Call"
  | conditional => "Conditional"
  | identifier _ => "Identifier"
  | index => "Index"
  | member _ => "Member"
  | new => "New"
  | null => "Null"
  | number _ => "Number"
  | object => "Object"
  | regExp _ => "RegExp"
  | sequence => "Sequence"
  | string _ => "String"
  | this => "This"
  | undefined => "Undefined"
  | unary _ => "Unary"
  | binary _ => "Binary"
  | assign _ => "Assign"

end Kind

end ScriptPress

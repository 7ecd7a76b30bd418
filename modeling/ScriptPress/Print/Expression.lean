import ScriptPress.Number.Spelling
import ScriptPress.Print.Layout
import ScriptPress.Print.Level
import ScriptPress.Text.Quoted
import ScriptPress.Tree.Part

/-! # Printing expressions -/

namespace ScriptPress

open Piece Part

/-- How programs are printed: the mode and what symbols are called. -/
structure Style where
  mode : Mode
  name : SymbolId → String

/-- The place of an expression: how strongly it binds, and whether it is in the setup of a `for`
loop. -/
structure Place where
  level : Level
  inSetup : Bool

namespace Place

def lowest : Place := ⟨.lowest, false⟩

def operand (p : Place) (level : Level) : Place := { p with level }

end Place

namespace Piece

def wrapped (wrap : Bool) (ps : List Piece) : List Piece :=
  if wrap then text "(" :: ps ++ [text ")"] else ps

def separator : List Piece := [text ",", space]

def operation (left : List Piece) (op : Piece) (right : List Piece) : List Piece :=
  left ++ [space, op, space] ++ right

def separatorUnless (first : Bool) : List Piece := if first then [] else separator

end Piece

namespace Style

def numberText (st : Style) (x : Float) : String :=
  if Number.isZero x && Number.isNegative x then "-0"
  else match st.mode with
    | .normal => Number.spelled x
    | .minified => Number.briefest x

/-- A number before a point is kept apart from it, unless it has a point or an exponent. -/
def number (st : Style) (level : Level) (x : Float) : List Piece :=
  let text := st.numberText x
  let plain := !text.toList.any fun c => c = '.' || c = 'e' || c = 'E'
  let gap := if level.wraps .member && plain then [Piece.text " "] else []
  match text.toList with
  | '-' :: magnitude =>
    if level.wraps .unary then [.text "(-", .text (String.ofList magnitude), .text ")"]
    else .negative text :: gap
  | _ => .word text :: gap

def boolean (st : Style) (level : Level) (b : Bool) : List Piece :=
  match st.mode with
  | .normal => [.word (if b then "true" else "false")]
  | .minified => wrapped (level.wraps .unary) [.text (if b then "!0" else "!1")]

def undefined (level : Level) : List Piece :=
  if level.wraps .unary then [.text "(void 0)"] else [.word "void 0"]

def key (name : String) : Piece :=
  .text (if Text.isIdentifier name then name else Text.quoted name)

def binaryOperator (op : BinaryOp) : Piece :=
  if op.isKeyword then .word op.text
  else .between op.text (match op with
    | .add => some .plus
    | .subtract => some .minus
    | _ => none)

def unaryOperator (op : UnaryOp) : List Piece :=
  if op.isKeyword then [.word op.text, .space] else [.sign op op.text]

end Style

namespace Tree

variable {α : Type}

/-- Whether the callee of a `new` would hand its arguments to a call inside it. -/
def hasCallInChain : Tree α → Except Fault Bool
  | node _ kind cs =>
    match kind, cs with
    | .call, _ => .ok true
    | .member _, [] => .error (memberObject.missingFrom kind)
    | .index, [] => .error (indexTarget.missingFrom kind)
    | .member _, c :: _ | .index, c :: _ => hasCallInChain c
    | _, _ => .ok false

mutual

def pieces (st : Style) (p : Place) : Tree α → Except Fault (List Piece)
  | node _ kind cs =>
    match kind with
    | .array => do return .text "[" :: (← elementPieces st p true cs) ++ [.text "]"]
    | .boolean b => .ok (st.boolean p.level b)
    | .call => do
      let target ← piecesAt st (p.operand .update) (callTarget.missingFrom kind) 0 cs
      return target ++ .text "(" :: (← argumentPieces st p cs) ++ [.text ")"]
    | .conditional => do
      let test ← piecesAt st (p.operand .conditional) (conditionalTest.missingFrom kind) 0 cs
      let branch := p.operand Level.conditional.looser
      let whenTrue ← piecesAt st branch (conditionalTrue.missingFrom kind) 1 cs
      let whenFalse ← piecesAt st branch (conditionalFalse.missingFrom kind) 2 cs
      return wrapped (p.level.wraps .conditional)
        (operation test (.text "?") (operation whenTrue (.text ":") whenFalse))
    | .identifier s => .ok [.word (st.name s)]
    | .index => do
      let target ← piecesAt st (p.operand .member) (indexTarget.missingFrom kind) 0 cs
      let property ← piecesAt st (p.operand .lowest) (indexProperty.missingFrom kind) 1 cs
      return target ++ .text "[" :: property ++ [.text "]"]
    | .member s => do
      let object ← piecesAt st (p.operand .member) (memberObject.missingFrom kind) 0 cs
      return object ++ [.text ".", .text (st.name s)]
    | .new => do
      let target ← calleePieces st p (callTarget.missingFrom kind) cs
      return [.word "new", .space] ++ target ++ .text "(" :: (← argumentPieces st p cs) ++
        [.text ")"]
    | .null => .ok [.word "null"]
    | .number x => .ok (st.number p.level x)
    | .object => do return .text "\x7b" :: (← propertiesPieces st p true cs) ++ [.text "\x7d"]
    | .regExp source => .ok [.regExp source]
    | .sequence => do
      return wrapped (p.level.wraps .comma) (← listPieces st (p.operand .comma) true cs)
    | .string s => .ok [.text (Text.quoted s)]
    | .this => .ok [.word "this"]
    | .undefined => .ok (Style.undefined p.level)
    | .unary op =>
      let missing := unaryOperand.missingFrom kind
      if op.isTrailing then do
        let operand ← piecesAt st (p.operand Level.update.looser) missing 0 cs
        return wrapped (p.level.wraps .update) (operand ++ [.text op.text])
      else do
        let operand ← piecesAt st (p.operand Level.unary.looser) missing 0 cs
        return wrapped (p.level.wraps .unary) (Style.unaryOperator op ++ operand)
    | .binary op => do
      let own := Level.ofBinary op
      let left ← piecesAt st (p.operand own.looser) (leftOperand.missingFrom kind) 0 cs
      let right ← piecesAt st (p.operand own) (rightOperand.missingFrom kind) 1 cs
      return wrapped (p.level.wraps own || (op == .in && p.inSetup))
        (operation left (Style.binaryOperator op) right)
    | .assign op => do
      let left ← piecesAt st (p.operand .assign) (leftOperand.missingFrom kind) 0 cs
      let right ← piecesAt st (p.operand Level.assign.looser)
        (rightOperand.missingFrom kind) 1 cs
      return wrapped (p.level.wraps .assign)
        (operation left (.between op.text none) right)
    | _ => .error (.notPrintableExpression kind)

def piecesAt (st : Style) (p : Place) (missing : Fault) :
    Nat → List (Tree α) → Except Fault (List Piece)
  | _, [] => .error missing
  | 0, c :: _ => pieces st p c
  | i + 1, _ :: cs => piecesAt st p missing i cs

def listPieces (st : Style) (p : Place) (first : Bool) :
    List (Tree α) → Except Fault (List Piece)
  | [] => .ok []
  | c :: cs => do
    let head ← pieces st p c
    return separatorUnless first ++ head ++ (← listPieces st p false cs)

def argumentPieces (st : Style) (p : Place) : List (Tree α) → Except Fault (List Piece)
  | [] => .ok []
  | _ :: cs => listPieces st (p.operand .comma) true cs

def calleePieces (st : Style) (p : Place) (missing : Fault) :
    List (Tree α) → Except Fault (List Piece)
  | [] => .error missing
  | c :: _ => do
    if ← c.hasCallInChain then
      return wrapped true (← pieces st (p.operand .lowest) c)
    else pieces st (p.operand .member) c

/-- Undefined elements are elided. An elided last element needs a comma after it, because a comma
at the end does not count. -/
def elementPieces (st : Style) (p : Place) (first : Bool) :
    List (Tree α) → Except Fault (List Piece)
  | [] => .ok []
  | c :: cs => do
    if c.isUndefined then
      let before := if first then [] else [.text ","]
      let after := if cs.isEmpty then [.text ","] else []
      return before ++ after ++ (← elementPieces st p false cs)
    else
      let head ← pieces st (p.operand .comma) c
      return separatorUnless first ++ head ++ (← elementPieces st p false cs)

def propertiesPieces (st : Style) (p : Place) (first : Bool) :
    List (Tree α) → Except Fault (List Piece)
  | [] => .ok []
  | c :: cs => do
    let head ← propertyPieces st p c
    return separatorUnless first ++ head ++ (← propertiesPieces st p false cs)

def propertyPieces (st : Style) (p : Place) : Tree α → Except Fault (List Piece)
  | node _ kind cs => do
    let symbol ← kind.symbol
    if !kind.isProperty then throw (.noSuchPart propertyValue.title kind)
    let value ← piecesAt st (p.operand .comma) (propertyValue.missingFrom kind) 0 cs
    return [Style.key (st.name symbol), .text ":", .space] ++ value

end

end Tree

end ScriptPress

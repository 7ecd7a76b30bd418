import ScriptPress.Print.Expression

/-! # Printing statements -/

namespace ScriptPress

open Part

/-- Where a statement stands. -/
inductive Position where
  | line
  | body
  | orElse
deriving DecidableEq, Repr

namespace Fragment

def ofPieces (ps : List Piece) : List Fragment := ps.map piece

def keyword (depth : Nat) (s : String) : List Fragment := [piece (.indent depth), piece (.word s)]

def braced (depth : Nat) (content : List Fragment) : List Fragment :=
  ofPieces [.text "\x7b", .newline] ++ content ++ ofPieces [.indent depth, .text "\x7d"]

def block (depth : Nat) (content : List Fragment) : List Fragment :=
  braced depth content ++ [piece .dropPending]

end Fragment

namespace Tree

variable {α : Type}

open Fragment (ofPieces keyword braced block)

mutual

def endsInOpenIf : Tree α → Except Fault Bool
  | node _ kind cs =>
    match kind with
    | .ifElse => openIfAt true (ifFalse.missingFrom kind) 2 cs
    | .forLoop => openIfAt false (forBody.missingFrom kind) 3 cs
    | .forIn => openIfAt false (forInBody.missingFrom kind) 2 cs
    | .whileLoop => openIfAt false (whileBody.missingFrom kind) 1 cs
    | .label _ => openIfAt false (labelBody.missingFrom kind) 0 cs
    | _ => .ok false

/-- Looks at the last statement in a node; for a branch, being empty decides. -/
def openIfAt (branch : Bool) (missing : Fault) : Nat → List (Tree α) → Except Fault Bool
  | _, [] => .error missing
  | 0, c :: _ => if branch && c.isEmpty then .ok true else endsInOpenIf c
  | i + 1, _ :: cs => openIfAt branch missing i cs

end

def declarationPieces (st : Style) (inSetup : Bool) (t : Tree α) : Except Fault (List Piece) := do
  let symbol ← t.kind.symbol
  let value ← t.part variableValue
  if value.isUndefined then return [.word (st.name symbol)]
  else
    return [.word (st.name symbol), .space, .text "=", .space] ++
      (← value.pieces st ⟨.comma, inSetup⟩)

def declarationsPieces (st : Style) (inSetup first : Bool) :
    List (Tree α) → Except Fault (List Piece)
  | [] => .ok []
  | c :: cs => do
    let head ← c.declarationPieces st inSetup
    return Piece.separatorUnless first ++ head ++ (← declarationsPieces st inSetup false cs)

def setupPieces (st : Style) (t : Tree α) : Except Fault (List Piece) :=
  match t.kind with
  | .varStatement => do return .text "var " :: (← declarationsPieces st true true t.children)
  | .empty => .ok []
  | _ => t.pieces st ⟨.lowest, true⟩

def clausePieces (st : Style) (t : Tree α) : Except Fault (List Piece) := do
  if t.isEmpty then return [] else return .space :: (← t.pieces st .lowest)

def headPieces (st : Style) (t : Tree α) : Except Fault (List Piece) := do
  if t.kind.isVariable then return .text "var" :: (← t.declarationPieces st true)
  else t.pieces st ⟨.update, true⟩

def parameterPieces (st : Style) (first : Bool) : List (Tree α) → Except Fault (List Piece)
  | [] => .ok []
  | c :: cs => do
    let symbol ← c.kind.symbol
    return Piece.separatorUnless first ++ .word (st.name symbol) ::
      (← parameterPieces st false cs)

def testPieces (st : Style) (t : Tree α) : Except Fault (List Piece) := do
  return [.space, .text "("] ++ (← t.pieces st .lowest) ++ [.text ")"]

def jump (st : Style) (depth : Nat) (word : String) (label : Option SymbolId) : List Fragment :=
  let target : List Piece := match label with
    | some s => [.text " ", .text (st.name s)]
    | none => []
  keyword depth word ++ ofPieces (target ++ [.terminator])

def quoteOf (directive : String) : String :=
  if directive.toList.contains '"' then "'" else "\""

mutual

def fragments (st : Style) (position : Position) (depth : Nat) :
    Tree α → Except Fault (List Fragment)
  | node _ kind cs => do
    if position = .orElse && kind = .ifElse then
      return .piece (.text " ") :: (← ifFragments st depth cs)
    if position ≠ .line && kind = .block then
      return .piece .space :: block depth (← listFragments st (depth + 1) cs) ++
        [.piece .newline]
    let before := if position = .line then [] else [.piece .newline]
    let depth := if position = .line then depth else depth + 1
    let statement : Except Fault (List Fragment) := match kind with
      | .block => do
        return .piece (.indent depth) :: block depth (← listFragments st (depth + 1) cs) ++
          [.piece .newline]
      | .break label => .ok (jump st depth "break" label)
      | .continue label => .ok (jump st depth "continue" label)
      | .debugger => .ok (keyword depth "debugger" ++ [.piece .terminator])
      | .directive text =>
        .ok (ofPieces [.indent depth, .text (quoteOf text), .text text, .text (quoteOf text),
          .terminator])
      | .doWhile => do
        let body ← fragmentsAt st .body depth (doWhileBody.missingFrom kind) 0 cs
        let test ← doWhileTest.get kind cs
        return keyword depth "do" ++ body ++ ofPieces [.pending, .indent depth, .text "while"] ++
          ofPieces (← test.testPieces st) ++ [.piece .terminator]
      | .empty => .ok (ofPieces [.indent depth, .text ";", .newline])
      | .expression => do
        let value ← expressionValue.get kind cs
        return [.piece (.indent depth), .opening (← value.pieces st .lowest), .piece .terminator]
      | .forLoop => do
        let setup ← (← forSetup.get kind cs).setupPieces st
        let test ← (← forTest.get kind cs).clausePieces st
        let update ← (← forUpdate.get kind cs).clausePieces st
        let body ← fragmentsAt st .body depth (forBody.missingFrom kind) 3 cs
        return keyword depth "for" ++ ofPieces ([.space, .text "("] ++ setup ++ .text ";" :: test ++
          .text ";" :: update ++ [.text ")"]) ++ body
      | .forIn => do
        let head ← (← forInSetup.get kind cs).headPieces st
        let value ← (← forInValue.get kind cs).pieces st .lowest
        let body ← fragmentsAt st .body depth (forInBody.missingFrom kind) 2 cs
        return keyword depth "for" ++ ofPieces ([.space, .text "("] ++ head ++
          [.word "in", .space] ++ value ++ [.text ")"]) ++ body
      | .function symbol => do
        let parameters ← parameterPieces st true (cs.drop 1)
        let body ← blockAt st depth (functionBody.missingFrom kind) 0 cs
        return keyword depth "function " ++ ofPieces (.text (st.name symbol) :: .text "(" ::
          parameters ++ [.text ")", .space]) ++ body ++ [.piece .newline]
      | .ifElse => do return .piece (.indent depth) :: (← ifFragments st depth cs)
      | .label symbol => do
        let body ← fragmentsAt st .line depth (labelBody.missingFrom kind) 0 cs
        return ofPieces [.indent (depth - 1), .word (st.name symbol), .text ":", .newline] ++ body
      | .return => do
        let value ← returnValue.get kind cs
        if value.isUndefined then return keyword depth "return" ++ [.piece .terminator]
        return keyword depth "return" ++ .piece .space :: ofPieces (← value.pieces st .lowest) ++
          [.piece .terminator]
      | .throw => do
        let value ← throwValue.get kind cs
        return keyword depth "throw" ++ .piece .space :: ofPieces (← value.pieces st .lowest) ++
          [.piece .terminator]
      | .try => do
        let block ← blockAt st depth (tryBlock.missingFrom kind) 0 cs
        let handler ← handlerAt st depth (tryCatch.missingFrom kind) 1 cs
        let finalizer ← finalizerAt st depth (tryFinally.missingFrom kind) 2 cs
        return keyword depth "try" ++ .piece .space :: block ++ handler ++ finalizer ++
          [.piece .newline]
      | .varStatement => do
        return keyword depth "var " ++ ofPieces (← declarationsPieces st false true cs) ++
          [.piece .terminator]
      | .whileLoop => do
        let test ← (← whileTest.get kind cs).testPieces st
        let body ← fragmentsAt st .body depth (whileBody.missingFrom kind) 1 cs
        return keyword depth "while" ++ ofPieces test ++ body
      | _ => .error (.notPrintableStatement kind)
    return before ++ (← statement)

def fragmentsAt (st : Style) (position : Position) (depth : Nat) (missing : Fault) :
    Nat → List (Tree α) → Except Fault (List Fragment)
  | _, [] => .error missing
  | 0, c :: _ => fragments st position depth c
  | i + 1, _ :: cs => fragmentsAt st position depth missing i cs

def listFragments (st : Style) (depth : Nat) : List (Tree α) → Except Fault (List Fragment)
  | [] => .ok []
  | c :: cs => do
    let head ← fragments st .line depth c
    return .piece .pending :: head ++ (← listFragments st depth cs)

def ifFragments (st : Style) (depth : Nat) : List (Tree α) → Except Fault (List Fragment)
  | [] => .error (ifTest.missingFrom .ifElse)
  | [test] => do
    let _ ← test.testPieces st
    throw (ifTrue.missingFrom .ifElse)
  | [test, _] => do
    let _ ← test.testPieces st
    throw (ifFalse.missingFrom .ifElse)
  | test :: whenTrue :: whenFalse :: _ => do
    let head := .piece (.word "if") :: ofPieces (← test.testPieces st)
    if whenFalse.isEmpty then return head ++ (← fragments st .body depth whenTrue)
    let branch ←
      if ← whenTrue.endsInOpenIf then do
        let content ← fragments st .line (depth + 1) whenTrue
        pure (.piece .space :: braced depth (content ++ [.piece .dropPending]) ++
          [.piece .newline])
      else fragments st .body depth whenTrue
    return head ++ branch ++ ofPieces [.pending, .indent depth, .text "else"] ++
      (← fragments st .orElse depth whenFalse)

def blockAt (st : Style) (depth : Nat) (missing : Fault) :
    Nat → List (Tree α) → Except Fault (List Fragment)
  | _, [] => .error missing
  | 0, c :: _ => blockFragments st depth c
  | i + 1, _ :: cs => blockAt st depth missing i cs

def blockFragments (st : Style) (depth : Nat) : Tree α → Except Fault (List Fragment)
  | node _ _ cs => do return block depth (← listFragments st (depth + 1) cs)

def handlerAt (st : Style) (depth : Nat) (missing : Fault) :
    Nat → List (Tree α) → Except Fault (List Fragment)
  | _, [] => .error missing
  | 0, c :: _ => handlerFragments st depth c
  | i + 1, _ :: cs => handlerAt st depth missing i cs

def handlerFragments (st : Style) (depth : Nat) : Tree α → Except Fault (List Fragment)
  | node _ kind cs => do
    if kind = .empty then return []
    let symbol ← kind.symbol
    if !kind.isCatch then throw (.noSuchPart catchBody.title kind)
    let body ← blockAt st depth (catchBody.missingFrom kind) 0 cs
    return ofPieces [.space, .text "catch", .space, .text "(", .text (st.name symbol), .text ")",
      .space] ++ body

def finalizerAt (st : Style) (depth : Nat) (missing : Fault) :
    Nat → List (Tree α) → Except Fault (List Fragment)
  | _, [] => .error missing
  | 0, c :: _ => do
    if c.isEmpty then return []
    return ofPieces [.space, .text "finally", .space] ++ (← blockFragments st depth c)
  | i + 1, _ :: cs => finalizerAt st depth missing i cs

end

/-- The text of a module, which ends with a line end unless it is empty. -/
def print (st : Style) (t : Tree α) : Except Fault String := do
  if t.kind ≠ .module then throw .notModule
  let (cs, margin) := Fragment.renderAll st.mode .start (← listFragments st 0 t.children)
  let ending := match st.mode with
    | .normal => []
    | .minified =>
      if cs.isEmpty then [] else (Fragment.renderAll st.mode margin [.piece .pending]).1 ++ ['\n']
  return String.ofList (cs ++ ending)

end Tree

end ScriptPress

import ScriptPress.Text.Identifier
import ScriptPress.Tree.Operator

/-! # Laying out program text -/

namespace ScriptPress

inductive Mode where
  | normal
  | minified
deriving DecidableEq, Repr

/-- The end of an operator that could run into the operator after it: a plus, a minus, or the
`<!` that would begin a comment with a decrement. -/
inductive Fusable where
  | plus | minus | lessNot
deriving DecidableEq, Repr

inductive Piece where
  | text (s : String)
  | word (s : String)
  | sign (op : UnaryOp) (s : String)
  | negative (s : String)
  | between (s : String) (fusable : Option Fusable)
  | regExp (s : String)
  | space
  | newline
  | indent (depth : Nat)
  | terminator
  | pending
  | dropPending
deriving DecidableEq, Repr

/-- What the next piece has to know about the text before it. -/
structure Margin where
  last : Option Char
  semicolon : Bool
  operator : Option Fusable
deriving DecidableEq, Repr

namespace Margin

def start : Margin := ⟨none, false, none⟩

def after (m : Margin) (s : List Char) : Margin :=
  match s.getLast? with
  | none => m
  | some c => { m with last := some c, operator := none }

def gapBeforeWord (m : Margin) : List Char :=
  if m.last.any fun c => Text.isIdentifierPart c || 0x80 ≤ c.toNat then [' '] else []

def gapBeforeSign (m : Margin) (op : UnaryOp) : List Char :=
  match m.operator, op with
  | some .plus, .positive | some .plus, .incrementBefore => [' ']
  | some .minus, .negative | some .minus, .decrementBefore => [' ']
  | some .lessNot, .decrementBefore => [' ']
  | _, _ => []

def gapBeforeSlash (m : Margin) : List Char := if m.last = some '/' then [' '] else []

/-- How the operator may fuse with what follows; `c` is the character before it. -/
def fusableOf (op : UnaryOp) (c : Option Char) : Option Fusable :=
  match op with
  | .positive => some .plus
  | .negative => some .minus
  | .not => if c = some '<' then some .lessNot else none
  | _ => none

end Margin

namespace Piece

def chars (mode : Mode) (m : Margin) : Piece → List Char
  | text s => s.toList
  | word s => m.gapBeforeWord ++ s.toList
  | sign op s => m.gapBeforeSign op ++ s.toList
  | negative s => m.gapBeforeSign .negative ++ s.toList
  | between s _ => (if s.toList.head? = some '/' then m.gapBeforeSlash else []) ++ s.toList
  | regExp s => m.gapBeforeSlash ++ s.toList
  | space => if mode = .normal then [' '] else []
  | newline => if mode = .normal then ['\n'] else []
  | indent depth => if mode = .normal then List.replicate (2 * depth) ' ' else []
  | terminator => if mode = .normal then [';', '\n'] else []
  | pending => if m.semicolon then [';'] else []
  | dropPending => []

def margin (mode : Mode) (m : Margin) (p : Piece) : Margin :=
  let m' := m.after (p.chars mode m)
  match p with
  | sign op _ => { m' with operator := Margin.fusableOf op m.last }
  | between _ fusable => { m' with operator := fusable }
  | terminator => if mode = .minified then { m' with semicolon := true } else m'
  | pending | dropPending => { m' with semicolon := false }
  | _ => m'

end Piece

def render (mode : Mode) (m : Margin) : List Piece → List Char × Margin
  | [] => ([], m)
  | p :: ps =>
    let (rest, m') := render mode (p.margin mode m) ps
    (p.chars mode m ++ rest, m')

/-- A piece, or the expression of an expression statement. -/
inductive Fragment where
  | piece (p : Piece)
  | opening (ps : List Piece)
deriving DecidableEq, Repr

namespace Fragment

def renderOpening (mode : Mode) (m : Margin) (ps : List Piece) : List Char × Margin :=
  let (cs, m') := render mode m ps
  if cs.head? = some '\x7b' then ('(' :: cs ++ [')'], m'.after [')']) else (cs, m')

def renderAll (mode : Mode) (m : Margin) : List Fragment → List Char × Margin
  | [] => ([], m)
  | f :: fs =>
    let (cs, m) := match f with
      | piece p => render mode m [p]
      | opening ps => renderOpening mode m ps
    let (rest, m) := renderAll mode m fs
    (cs ++ rest, m)

end Fragment

end ScriptPress

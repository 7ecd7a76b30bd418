import ScriptPress.Proofs.Grammar.Token
import ScriptPress.Tree.Operator

/-! # The grammar of expressions -/

namespace ScriptPress

open List

/-- Expressions as they are written, with names in the place of symbols. -/
inductive Expr where
  | array (elements : List Expr)
  | boolean (value : Bool)
  | call (target : Expr) (arguments : List Expr)
  | conditional (test whenTrue whenFalse : Expr)
  | identifier (name : String)
  | index (target property : Expr)
  | member (object : Expr) (name : String)
  | new (target : Expr) (arguments : List Expr)
  | null
  | number (value : Float)
  | object (properties : List (List Nat × Expr))
  | sequence (elements : List Expr)
  | string (units : List Nat)
  | this
  | undefined
  | unary (op : UnaryOp) (operand : Expr)
  | binary (op : BinaryOp) (left right : Expr)
  | assign (op : AssignOp) (left right : Expr)

namespace Expr

def reserved : List String :=
  ["break", "case", "catch", "class", "const", "continue", "debugger", "default", "delete", "do",
    "else", "enum", "export", "extends", "false", "finally", "for", "function", "if", "import",
    "in", "instanceof", "new", "null", "return", "super", "switch", "this", "throw", "true", "try",
    "typeof", "var", "void", "while", "with"]

def ofWord? (s : String) : Option Expr :=
  if s = "this" then some this
  else if s = "null" then some null
  else if s = "true" then some (boolean true)
  else if s = "false" then some (boolean false)
  else if s ∈ reserved then none
  else some (identifier s)

def isTarget : Expr → Bool
  | identifier _ | member _ _ | index _ _ => true
  | _ => false

/-- Whether the arguments of a `new` before the expression would go to a call in it. -/
def hasCall : Expr → Bool
  | call _ _ => true
  | member e _ | index e _ => hasCall e
  | _ => false

end Expr

namespace Token

variable {ν : Type}

/-- The operator that a token in front of its operand stands for. -/
def unary? : Token ν → Option UnaryOp
  | punct .plus => some .positive
  | punct .minus => some .negative
  | punct .bang => some .not
  | punct .tilde => some .complement
  | punct .increment => some .incrementBefore
  | punct .decrement => some .decrementBefore
  | word s =>
    if s = "delete" then some .delete
    else if s = "typeof" then some .typeOf
    else if s = "void" then some .void
    else none
  | _ => none

def trailing? : Token ν → Option UnaryOp
  | punct .increment => some .incrementAfter
  | punct .decrement => some .decrementAfter
  | _ => none

def binary? (allowIn : Bool) : Token ν → Option BinaryOp
  | punct .orOr => some .logicalOr
  | punct .andAnd => some .logicalAnd
  | punct .or => some .bitwiseOr
  | punct .xor => some .bitwiseXor
  | punct .and => some .bitwiseAnd
  | punct .equal => some .equal
  | punct .notEqual => some .notEqual
  | punct .equalStrict => some .equalStrict
  | punct .notEqualStrict => some .notEqualStrict
  | punct .less => some .lessThan
  | punct .greater => some .greaterThan
  | punct .lessEqual => some .lessThanEqual
  | punct .greaterEqual => some .greaterThanEqual
  | punct .shiftLeft => some .shiftLeft
  | punct .shiftRight => some .shiftRight
  | punct .shiftRightUnsigned => some .shiftRightUnsigned
  | punct .plus => some .add
  | punct .minus => some .subtract
  | punct .star => some .multiply
  | punct .slash => some .divide
  | punct .percent => some .remainder
  | word s =>
    if s = "in" then if allowIn then some .in else none
    else if s = "instanceof" then some .instanceOf
    else none
  | _ => none

def assign? : Token ν → Option AssignOp
  | punct .assign => some .assign
  | punct .plusAssign => some .add
  | punct .minusAssign => some .subtract
  | punct .starAssign => some .multiply
  | punct .slashAssign => some .divide
  | punct .percentAssign => some .remainder
  | punct .andAssign => some .bitwiseAnd
  | punct .orAssign => some .bitwiseOr
  | punct .xorAssign => some .bitwiseXor
  | punct .shiftLeftAssign => some .shiftLeft
  | punct .shiftRightAssign => some .shiftRight
  | punct .shiftRightUnsignedAssign => some .shiftRightUnsigned
  | _ => none

def key? : Token ν → Option (List Nat)
  | word s => some (Text.units s)
  | string us => some us
  | _ => none

end Token

def BinaryOp.precedence : BinaryOp → Nat
  | logicalOr => 1
  | logicalAnd => 2
  | bitwiseOr => 3
  | bitwiseXor => 4
  | bitwiseAnd => 5
  | equal | notEqual | equalStrict | notEqualStrict => 6
  | lessThan | greaterThan | lessThanEqual | greaterThanEqual | .in | instanceOf => 7
  | shiftLeft | shiftRight | shiftRightUnsigned => 8
  | add | subtract => 9
  | multiply | divide | remainder => 10

namespace Grammar

abbrev Tokens := List (Token Float)

mutual

def expression (allowIn : Bool) (ts : Tokens) : Option (Expr × Tokens) := do
  let (es, r) ← list allowIn ts
  match es with
  | [e] => some (e, r)
  | es => some (.sequence es, r)
termination_by 16 * ts.length + 12
decreasing_by all_goals (try simp only [length_cons] at *); omega

def list (allowIn : Bool) (ts : Tokens) : Option (List Expr × Tokens) := do
  let (e, ⟨r, h⟩) ← used ts (assignment allowIn ts)
  match r, h with
  | .punct .comma :: r, _ => do
    let (es, r) ← list allowIn r
    some (e :: es, r)
  | r, _ => some ([e], r)
termination_by 16 * ts.length + 11
decreasing_by all_goals (try simp only [length_cons] at *); omega

def assignment (allowIn : Bool) (ts : Tokens) : Option (Expr × Tokens) := do
  let (e, ⟨r, h⟩) ← used ts (binary allowIn 1 ts)
  match r, h with
  | .punct .question :: r, _ => do
    let (whenTrue, ⟨r, h⟩) ← used r (assignment true r)
    match r, h with
    | .punct .colon :: r, _ => do
      let (whenFalse, r) ← assignment allowIn r
      some (.conditional e whenTrue whenFalse, r)
    | _, _ => none
  | t :: r, _ =>
    match t.assign? with
    | some op =>
      if e.isTarget then do
        let (value, r) ← assignment allowIn r
        some (.assign op e value, r)
      else none
    | none => some (e, t :: r)
  | [], _ => some (e, [])
termination_by 16 * ts.length + 10
decreasing_by all_goals (try simp only [length_cons] at *); omega

/-- Operands with operators between them that bind at least as tightly as `least`. -/
def binary (allowIn : Bool) (least : Nat) (ts : Tokens) : Option (Expr × Tokens) := do
  let (e, ⟨r, _⟩) ← used ts (unary ts)
  operations allowIn least e r
termination_by 16 * ts.length + 9
decreasing_by all_goals (try simp only [length_cons] at *); omega

def operations (allowIn : Bool) (least : Nat) (left : Expr) (ts : Tokens) :
    Option (Expr × Tokens) :=
  match ts with
  | [] => some (left, [])
  | t :: r =>
    match t.binary? allowIn with
    | some op =>
      if least ≤ op.precedence then do
        let (right, ⟨r, _⟩) ← used r (binary allowIn (op.precedence + 1) r)
        operations allowIn least (.binary op left right) r
      else some (left, t :: r)
    | none => some (left, t :: r)
termination_by 16 * ts.length
decreasing_by all_goals (try simp only [length_cons] at *); omega

def unary (ts : Tokens) : Option (Expr × Tokens) :=
  match ts with
  | [] => none
  | t :: r =>
    match t.unary? with
    | some op => do
      let (e, r) ← unary r
      some (.unary op e, r)
    | none => update (t :: r)
termination_by 16 * ts.length + 8
decreasing_by all_goals (try simp only [length_cons] at *); omega

def update (ts : Tokens) : Option (Expr × Tokens) := do
  let (e, r) ← chain true ts
  match r with
  | [] => some (e, [])
  | t :: r =>
    match t.trailing? with
    | some op => some (.unary op e, r)
    | none => some (e, t :: r)
termination_by 16 * ts.length + 7
decreasing_by all_goals (try simp only [length_cons] at *); omega

/-- Members, indices and, unless in the callee of a `new`, calls. -/
def chain (calls : Bool) (ts : Tokens) : Option (Expr × Tokens) := do
  let (e, ⟨r, _⟩) ← used ts (primary ts)
  links calls e r
termination_by 16 * ts.length + 6
decreasing_by all_goals (try simp only [length_cons] at *); omega

def links (calls : Bool) (e : Expr) (ts : Tokens) : Option (Expr × Tokens) :=
  match ts with
  | .punct .dot :: .word name :: r => links calls (.member e name) r
  | .punct .leftBracket :: r => do
    let (property, ⟨r, h⟩) ← used r (expression true r)
    match r, h with
    | .punct .rightBracket :: r, _ => links calls (.index e property) r
    | _, _ => none
  | .punct .leftParen :: r =>
    if calls then do
      let (values, ⟨r, _⟩) ← used r (arguments r)
      links calls (.call e values) r
    else some (e, .punct .leftParen :: r)
  | ts => some (e, ts)
termination_by 16 * ts.length
decreasing_by all_goals (try simp only [length_cons] at *); omega

def arguments (ts : Tokens) : Option (List Expr × Tokens) :=
  match ts with
  | .punct .rightParen :: r => some ([], r)
  | ts => do
    let (es, r) ← list true ts
    match r with
    | .punct .rightParen :: r => some (es, r)
    | _ => none
termination_by 16 * ts.length + 12
decreasing_by all_goals (try simp only [length_cons] at *); omega

def primary (ts : Tokens) : Option (Expr × Tokens) :=
  match ts with
  | .word s :: r =>
    if s = "new" then do
      let (target, ⟨r, h⟩) ← used r (chain false r)
      match r, h with
      | .punct .leftParen :: r, _ => do
        let (values, r) ← arguments r
        some (.new target values, r)
      | r, _ => some (.new target [], r)
    else (Expr.ofWord? s).map (·, r)
  | .number x :: r => some (.number x, r)
  | .string us :: r => some (.string us, r)
  | .punct .leftBracket :: r => do
    let (es, r) ← elements r
    some (.array es, r)
  | .punct .leftBrace :: r => do
    let (ps, r) ← properties r
    some (.object ps, r)
  | .punct .leftParen :: r => do
    let (e, r) ← expression true r
    match r with
    | .punct .rightParen :: r => some (e, r)
    | _ => none
  | _ => none
termination_by 16 * ts.length
decreasing_by all_goals (try simp only [length_cons] at *); omega

/-- The elements of an array, up to the closing bracket. A comma with nothing before it stands for
an element that is left out, and one at the end does not count. -/
def elements (ts : Tokens) : Option (List Expr × Tokens) :=
  match ts with
  | .punct .rightBracket :: r => some ([], r)
  | .punct .comma :: r => do
    let (es, r) ← elements r
    some (.undefined :: es, r)
  | ts => do
    let (e, ⟨r, h⟩) ← used ts (assignment true ts)
    match r, h with
    | .punct .rightBracket :: r, _ => some ([e], r)
    | .punct .comma :: r, _ => do
      let (es, r) ← elements r
      some (e :: es, r)
    | _, _ => none
termination_by 16 * ts.length + 11
decreasing_by all_goals (try simp only [length_cons] at *); omega

def properties (ts : Tokens) : Option (List (List Nat × Expr) × Tokens) :=
  match ts with
  | .punct .rightBrace :: r => some ([], r)
  | t :: .punct .colon :: r => do
    let key ← t.key?
    let (e, ⟨r, h⟩) ← used r (assignment true r)
    match r, h with
    | .punct .rightBrace :: r, _ => some ([(key, e)], r)
    | .punct .comma :: r, _ => do
      let (ps, r) ← properties r
      some ((key, e) :: ps, r)
    | _, _ => none
  | _ => none
termination_by 16 * ts.length
decreasing_by all_goals (try simp only [length_cons] at *); omega

end

def parse (value : List Char → Float) (text : List Char) : Option Expr := do
  match ← expression true (← Token.lex value text) with
  | (e, []) => some e
  | _ => none

end Grammar

end ScriptPress

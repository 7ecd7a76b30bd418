import Mathlib.Data.Nat.Init
import ScriptPress.Proofs.Grammar.Expression

/-! # The grammar of statements -/

namespace ScriptPress

open List

abbrev Declaration := String × Option Expr

/-- What comes first in a `for` loop. -/
inductive Setup where
  | none
  | var (declarations : List Declaration)
  | expression (value : Expr)

/-- What a `for`-`in` loop assigns to. -/
inductive Head where
  | var (name : String)
  | target (value : Expr)

/-- Statements as they are written, with names in the place of symbols. -/
inductive Stmt where
  | block (body : List Stmt)
  | break (label : Option String)
  | continue (label : Option String)
  | debugger
  | doWhile (body : Stmt) (test : Expr)
  | empty
  | expression (value : Expr)
  | forLoop (setup : Setup) (test update : Option Expr) (body : Stmt)
  | forIn (head : Head) (value : Expr) (body : Stmt)
  | function (name : String) (parameters : List String) (body : List Stmt)
  | ifThen (test : Expr) (whenTrue : Stmt)
  | ifElse (test : Expr) (whenTrue whenFalse : Stmt)
  | label (name : String) (body : Stmt)
  | return (value : Option Expr)
  | throw (value : Expr)
  | tryCatch (body : List Stmt) (name : String) (handler : List Stmt)
  | tryFinally (body finalizer : List Stmt)
  | tryCatchFinally (body : List Stmt) (name : String) (handler finalizer : List Stmt)
  | var (declarations : List Declaration)
  | whileLoop (test : Expr) (body : Stmt)

namespace Stmt

def tried? (body : List Stmt) : Option (String × List Stmt) → Option (List Stmt) → Option Stmt
  | none, none => none
  | some (s, hs), none => some (tryCatch body s hs)
  | none, some fs => some (tryFinally body fs)
  | some (s, hs), some fs => some (tryCatchFinally body s hs fs)

def bracedIf (braces : Bool) (s : Stmt) : Stmt := if braces then block [s] else s

mutual

/-- The statement without blocks that hold exactly one statement. -/
def unbraced : Stmt → Stmt
  | block ss => match unbracedAll ss with
    | [s] => s
    | ss => block ss
  | doWhile s e => doWhile s.unbraced e
  | forLoop setup e e' s => forLoop setup e e' s.unbraced
  | forIn h e s => forIn h e s.unbraced
  | function s ps ss => function s ps (unbracedAll ss)
  | ifThen e s => ifThen e s.unbraced
  | ifElse e s s' => ifElse e s.unbraced s'.unbraced
  | label l s => label l s.unbraced
  | tryCatch ss s hs => tryCatch (unbracedAll ss) s (unbracedAll hs)
  | tryFinally ss fs => tryFinally (unbracedAll ss) (unbracedAll fs)
  | tryCatchFinally ss s hs fs => tryCatchFinally (unbracedAll ss) s (unbracedAll hs)
    (unbracedAll fs)
  | whileLoop e s => whileLoop e s.unbraced
  | s => s

def unbracedAll : List Stmt → List Stmt
  | [] => []
  | s :: ss => s.unbraced :: unbracedAll ss

end

theorem unbraced_bracedIf (braces : Bool) (s : Stmt) :
    (bracedIf braces s).unbraced = s.unbraced := by
  cases braces <;> simp [bracedIf, unbraced, unbracedAll]

end Stmt

namespace Grammar

/-- Words that begin a statement. -/
inductive Keyword where
  | break | continue | debugger | do | for | function | if | return | throw | try | var | while
deriving DecidableEq

namespace Keyword

def all : List Keyword :=
  [.break, .continue, .debugger, .do, .for, .function, .if, .return, .throw, .try, .var, .while]

def text : Keyword → String
  | .break => "break"
  | .continue => "continue"
  | debugger => "debugger"
  | .do => "do"
  | .for => "for"
  | function => "function"
  | .if => "if"
  | .return => "return"
  | throw => "throw"
  | .try => "try"
  | var => "var"
  | .while => "while"

def of? (s : String) : Option Keyword := all.find? (·.text = s)

end Keyword

def name? (s : String) : Option String := if s ∈ Expr.reserved then none else some s

def semicolon : Tokens → Option Tokens
  | .punct .semicolon :: r => some r
  | .punct .rightBrace :: r => some (.punct .rightBrace :: r)
  | _ => none

def closed (close : Punct) (ts : Tokens) : Option (Expr × Tokens) := do
  match ← expression true ts with
  | (e, .punct p :: r) => if p = close then some (e, r) else none
  | _ => none

def parenthesized : Tokens → Option (Expr × Tokens)
  | .punct .leftParen :: r => closed .rightParen r
  | _ => none

def declaration (allowIn : Bool) : Tokens → Option (Declaration × Tokens)
  | .word s :: .punct .assign :: r => do
    let (e, r) ← assignment allowIn r
    return ((← name? s, some e), r)
  | .word s :: r => do return ((← name? s, none), r)
  | _ => none

def declarations (allowIn : Bool) (ts : Tokens) : Option (List Declaration × Tokens) := do
  let (d, ⟨r, h⟩) ← used ts (declaration allowIn ts)
  match r, h with
  | .punct .comma :: r, _ => do
    let (ds, r) ← declarations allowIn r
    some (d :: ds, r)
  | r, _ => some ([d], r)
termination_by ts.length
decreasing_by simp only [length_cons] at *; omega

def parameters : Tokens → Option (List String × Tokens)
  | .punct .rightParen :: r => some ([], r)
  | .word s :: .punct .rightParen :: r => do return ([← name? s], r)
  | .word s :: .punct .comma :: r => do
    let (ps, r) ← parameters r
    return ((← name? s) :: ps, r)
  | _ => none

/-- The target of a jump, if there is one, and the end of the statement. -/
def jump : Tokens → Option (Option String × Tokens)
  | .word s :: r => do return (some (← name? s), ← semicolon r)
  | r => do return (none, ← semicolon r)

def ended (ts : Tokens) : Option (Expr × Tokens) := do
  let (e, r) ← expression true ts
  return (e, ← semicolon r)

/-- The value of a `return`, if there is one, and the end of the statement. -/
def returned (ts : Tokens) : Option (Option Expr × Tokens) :=
  match semicolon ts with
  | some r => some (none, r)
  | none => do
    let (e, r) ← ended ts
    return (some e, r)

/-- A clause of a loop, if there is one, up to the token `close`. -/
def clause (close : Punct) (ts : Tokens) : Option (Option Expr × Tokens) :=
  if ts.head? = some (.punct close) then some (none, ts.tail)
  else do
    let (e, r) ← closed close ts
    return (some e, r)

/-- What stands between the parentheses of a `for`. -/
inductive Header where
  | loop (setup : Setup) (test update : Option Expr)
  | each (head : Head) (value : Expr)

def clauses (setup : Setup) (ts : Tokens) : Option (Header × Tokens) := do
  let (test, r) ← clause .semicolon ts
  let (update, r) ← clause .rightParen r
  return (.loop setup test update, r)

def each (head : Head) (ts : Tokens) : Option (Header × Tokens) := do
  let (e, r) ← closed .rightParen ts
  return (.each head e, r)

/-- The header of a `for`, behind the opening parenthesis. Only there an `in` is no operator. -/
def header : Tokens → Option (Header × Tokens)
  | .punct .semicolon :: r => clauses .none r
  | .word "var" :: r => do
    match ← declarations false r with
    | (ds, .punct .semicolon :: r) => clauses (.var ds) r
    | ([(s, none)], .word "in" :: r) => each (.var s) r
    | _ => none
  | ts => do
    match ← expression false ts with
    | (e, .punct .semicolon :: r) => clauses (.expression e) r
    | (e, .word "in" :: r) => if e.isTarget then each (.target e) r else none
    | _ => none

def Header.statement (body : Stmt) : Header → Stmt
  | loop setup test update => .forLoop setup test update body
  | each head value => .forIn head value body

mutual

def statement (ts : Tokens) : Option (Stmt × Tokens) :=
  match ts with
  | .punct .leftBrace :: r => do
    let (ss, r) ← block r
    return (.block ss, r)
  | .punct .semicolon :: r => some (.empty, r)
  | .word s :: r =>
    match Keyword.of? s with
    | some k => following k r
    | none => labelled s r
  | ts => do
    let (e, r) ← ended ts
    return (.expression e, r)
termination_by 4 * ts.length
decreasing_by all_goals (try simp only [length_cons] at *); omega

/-- A statement with a label, or an expression that begins with that word. -/
def labelled (s : String) (ts : Tokens) : Option (Stmt × Tokens) :=
  match ts with
  | .punct .colon :: r => do
    let s ← name? s
    let (s', r) ← statement r
    return (.label s s', r)
  | ts => do
    let (e, r) ← ended (.word s :: ts)
    return (.expression e, r)
termination_by 4 * ts.length + 3
decreasing_by all_goals (try simp only [length_cons] at *); omega

def following (k : Keyword) (ts : Tokens) : Option (Stmt × Tokens) :=
  match k with
  | .break => do
    let (label, r) ← jump ts
    return (.break label, r)
  | .continue => do
    let (label, r) ← jump ts
    return (.continue label, r)
  | .debugger => do return (.debugger, ← semicolon ts)
  | .do => do
    match ← statement ts with
    | (s, .word "while" :: r) => do
      let (e, r) ← parenthesized r
      return (.doWhile s e, ← semicolon r)
    | _ => none
  | .for =>
    match ts with
    | .punct .leftParen :: r => do
      let (h, ⟨r, _⟩) ← used r (header r)
      let (s, r) ← statement r
      return (h.statement s, r)
    | _ => none
  | .function =>
    match ts with
    | .word s :: .punct .leftParen :: r => do
      let s ← name? s
      let (ps, ⟨r, _⟩) ← used r (parameters r)
      let (ss, r) ← braced r
      return (.function s ps ss, r)
    | _ => none
  | .if => do
    let (e, ⟨r, _⟩) ← used ts (parenthesized ts)
    let (s, ⟨r, h⟩) ← used r (statement r)
    match r, h with
    | .word "else" :: r, _ => do
      let (s', r) ← statement r
      return (.ifElse e s s', r)
    | r, _ => some (.ifThen e s, r)
  | .return => do
    let (e, r) ← returned ts
    return (.return e, r)
  | .throw => do
    let (e, r) ← ended ts
    return (.throw e, r)
  | .try => do
    let (ss, ⟨r, _⟩) ← used ts (braced ts)
    let (h, ⟨r, _⟩) ← used ts (handler r)
    let (f, r) ← finalizer r
    return (← Stmt.tried? ss h f, r)
  | .var => do
    let (ds, r) ← declarations true ts
    return (.var ds, ← semicolon r)
  | .while => do
    let (e, ⟨r, _⟩) ← used ts (parenthesized ts)
    let (s, r) ← statement r
    return (.whileLoop e s, r)
termination_by 4 * ts.length + 3
decreasing_by all_goals (try simp only [length_cons] at *); omega

def handler (ts : Tokens) : Option (Option (String × List Stmt) × Tokens) :=
  match ts with
  | .word "catch" :: .punct .leftParen :: .word s :: .punct .rightParen :: r => do
    let s ← name? s
    let (ss, r) ← braced r
    return (some (s, ss), r)
  | ts => some (none, ts)
termination_by 4 * ts.length
decreasing_by all_goals (try simp only [length_cons] at *); omega

def finalizer (ts : Tokens) : Option (Option (List Stmt) × Tokens) :=
  match ts with
  | .word "finally" :: r => do
    let (ss, r) ← braced r
    return (some ss, r)
  | ts => some (none, ts)
termination_by 4 * ts.length
decreasing_by all_goals (try simp only [length_cons] at *); omega

def statements (ts : Tokens) : Option (List Stmt × Tokens) :=
  match ts with
  | [] => some ([], [])
  | .punct .rightBrace :: r => some ([], .punct .rightBrace :: r)
  | ts => do
    let (s, ⟨r, _⟩) ← used ts (statement ts)
    let (ss, r) ← statements r
    return (s :: ss, r)
termination_by 4 * ts.length + 1
decreasing_by all_goals omega

def block (ts : Tokens) : Option (List Stmt × Tokens) := do
  match ← statements ts with
  | (ss, .punct .rightBrace :: r) => some (ss, r)
  | _ => none
termination_by 4 * ts.length + 2
decreasing_by all_goals omega

def braced (ts : Tokens) : Option (List Stmt × Tokens) :=
  match ts with
  | .punct .leftBrace :: r => block r
  | _ => none
termination_by 4 * ts.length
decreasing_by all_goals (try simp only [length_cons] at *); omega

end

def program (value : List Char → Float) (text : List Char) : Option (List Stmt) := do
  match ← statements (← Token.lex value text) with
  | (ss, []) => some ss
  | _ => none

end Grammar

end ScriptPress

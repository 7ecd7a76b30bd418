import ScriptPress.Proofs.Grammar.Statement
import ScriptPress.Proofs.Print.Lines
import ScriptPress.Proofs.Print.Number

/-! # What printed programs are read as -/

namespace ScriptPress

open Stmt

def Expr.isName (s : String) : Bool := Text.isIdentifier s && s ∉ reserved

theorem Expr.isIdentifier_of_isName {s : String} (h : isName s) :
    Text.isIdentifier s := by
  rw [isName, Bool.and_eq_true] at h
  exact h.1

theorem Expr.ofWord_of_isName {s : String} (h : isName s) :
    ofWord? s = some (identifier s) := by
  rw [isName, Bool.and_eq_true, decide_eq_true_eq] at h
  have hne : ∀ s' ∈ reserved, s ≠ s' := by
    rintro s' hs' rfl
    exact h.2 hs'
  rw [ofWord?, if_neg (hne _ (by decide)), if_neg (hne _ (by decide)), if_neg (hne _ (by decide)),
    if_neg (hne _ (by decide)), if_neg h.2]

namespace Kind

variable {α : Type}

def isTarget : Kind → Bool
  | identifier _ | member _ | index => true
  | _ => false

/-- Whether a node with these children has a text of its own in the grammar: names are identifiers,
numbers are finite, sequences are real ones, only references are assigned to, and nothing is left
out that must be there. Regular expressions and directives are not read back. -/
def isSpellable (name : SymbolId → String) (cs : List (Tree α)) : Kind → Bool
  | identifier s | «variable» s | «catch» s | label s | «break» (some s) | «continue» (some s) =>
    Expr.isName (name s)
  | member s => Text.isIdentifier (name s)
  | number x => x.isFinite
  | sequence => 2 ≤ cs.length
  | assign _ => cs.head?.any (·.kind.isTarget)
  | unary op => !op.isAssign || cs.head?.any (·.kind.isTarget)
  | regExp _ | directive _ => false
  | varStatement => !cs.isEmpty
  -- Parameters have no initial values, nor has the variable of a `for`-`in`.
  | function s => Expr.isName (name s) && cs.tail.all (·.children.all Tree.isUndefined)
  | forIn => cs.head?.any fun h =>
    h.kind.isTarget || (h.kind.isVariable && h.children.all Tree.isUndefined)
  | «try» => !cs.tail.all Tree.isEmpty
  | _ => true

/-- The numeric tokens in the text of a node, with the numbers they stand for. -/
def numerals (st : Style) : Kind → List (List Char × Float)
  | number x => [((st.numberText (Number.unsigned x)).toList, Number.unsigned x)]
  | undefined => [(['0'], 0)]
  | boolean b => match st.mode, b with
    | .normal, _ => []
    | .minified, true => [(['0'], 0)]
    | .minified, false => [(['1'], 1)]
  | _ => []

end Kind

namespace Tree

variable {α : Type} {st : Style} {value : List Char → Float} {t : Tree α} {cs : List (Tree α)}
variable {m : α} {k : Kind}

def Spellable (st : Style) (t : Tree α) : Prop :=
  t.every (fun k cs => k.isSpellable st.name cs) = true

def ReadsBack (st : Style) (value : List Char → Float) (t : Tree α) : Prop :=
  t.every (fun k _ => (k.numerals st).all fun p => value p.1 = p.2) = true

instance : Decidable (t.Spellable st) := inferInstanceAs (Decidable (_ = true))

instance : Decidable (t.ReadsBack st value) := inferInstanceAs (Decidable (_ = true))

theorem spellable_node : (node m k cs).Spellable st ↔
    k.isSpellable st.name cs ∧ ∀ c ∈ cs, c.Spellable st := every_node

theorem readsBack_node : (node m k cs).ReadsBack st value ↔
    (∀ p ∈ k.numerals st, value p.1 = p.2) ∧ ∀ c ∈ cs, c.ReadsBack st value := by
  rw [ReadsBack, every_node]
  simp [ReadsBack]

def Readable (st : Style) (value : List Char → Float) (t : Tree α) : Prop :=
  t.Spellable st ∧ t.ReadsBack st value

theorem Readable.spelled (h : (node m k cs).Readable st value) : k.isSpellable st.name cs :=
  (spellable_node.mp h.1).1

theorem Readable.numerals (h : (node m k cs).Readable st value) :
    ∀ p ∈ k.numerals st, value p.1 = p.2 :=
  (readsBack_node.mp h.2).1

theorem Readable.children (h : (node m k cs).Readable st value) : ∀ c ∈ cs, c.Readable st value :=
  fun c hc => ⟨(spellable_node.mp h.1).2 c hc, (readsBack_node.mp h.2).2 c hc⟩

mutual

def reading (st : Style) : Tree α → Expr
  | node _ kind cs =>
    match kind, cs with
    | .array, cs => .array (readingElements st cs)
    | .boolean b, _ =>
      match st.mode with
      | .normal => .boolean b
      | .minified => .unary .not (.number (if b then 0 else 1))
    | .call, target :: arguments => .call (reading st target) (readingAll st arguments)
    | .conditional, [test, whenTrue, whenFalse] =>
      .conditional (reading st test) (reading st whenTrue) (reading st whenFalse)
    | .identifier s, _ => .identifier (st.name s)
    | .index, [target, property] => .index (reading st target) (reading st property)
    | .member s, [object] => .member (reading st object) (st.name s)
    | .new, target :: arguments => .new (reading st target) (readingAll st arguments)
    | .null, _ => .null
    | .number x, _ =>
      if Number.hasMinus x then .unary .negative (.number x.abs) else .number x
    | .object, cs => .object (readingProperties st cs)
    | .sequence, cs => .sequence (readingAll st cs)
    | .string s, _ => .string (Text.units s)
    | .this, _ => .this
    | .undefined, _ => .unary .void (.number 0)
    | .unary op, [operand] => .unary op (reading st operand)
    | .binary op, [left, right] => .binary op (reading st left) (reading st right)
    | .assign op, [left, right] => .assign op (reading st left) (reading st right)
    | _, _ => .undefined

def readingAll (st : Style) : List (Tree α) → List Expr
  | [] => []
  | c :: cs => reading st c :: readingAll st cs

def readingElements (st : Style) : List (Tree α) → List Expr
  | [] => []
  | c :: cs => (if c.isUndefined then .undefined else reading st c) :: readingElements st cs

def readingProperties (st : Style) : List (Tree α) → List (List Nat × Expr)
  | [] => []
  | c :: cs => readingProperty st c :: readingProperties st cs

def readingProperty (st : Style) : Tree α → List Nat × Expr
  | node _ kind cs =>
    match kind, cs with
    | .property s, [value] => (Text.units (st.name s), reading st value)
    | _, _ => ([], .undefined)

end

theorem length_readingAll (cs : List (Tree α)) : (readingAll st cs).length = cs.length := by
  induction cs with
  | nil =>
    rw [readingAll]
    rfl
  | cons c cs ih => rw [readingAll, List.length_cons, ih, List.length_cons]

theorem isTarget_reading (h : t.IsExpression) (ht : t.kind.isTarget) :
    (t.reading st).isTarget := by
  cases h <;> first | (rw [reading]; rfl) | cases ht

theorem hasCall_reading (h : t.IsExpression) : (t.reading st).hasCall = t.hasCall := by
  induction h with
  | index _ _ ih | member _ ih =>
    rw [reading, Expr.hasCall, hasCall]
    exact ih
  | call =>
    rw [reading, hasCall]
    rfl
  | boolean =>
    rw [reading, hasCall]
    · cases st.mode <;> rfl
    all_goals simp
  | number =>
    rw [reading, hasCall]
    · split <;> rfl
    all_goals simp
  | _ =>
    rw [reading, hasCall]
    · rfl
    all_goals simp

def readingDeclaration (st : Style) : Tree α → Declaration
  | node _ (.variable s) [v] => (st.name s, if v.isUndefined then none else some (v.reading st))
  | _ => ("", none)

def readingSetup (st : Style) (t : Tree α) : Setup :=
  match t.kind with
  | .varStatement => .var (t.children.map (readingDeclaration st))
  | .empty => .none
  | _ => .expression (t.reading st)

def readingClause (st : Style) (t : Tree α) : Option Expr :=
  if t.isEmpty then none else some (t.reading st)

def readingHead (st : Style) (t : Tree α) : Head :=
  if t.kind.isVariable then .var (t.readingDeclaration st).1 else .target (t.reading st)

mutual

def readingStatement (st : Style) (braces : Bool) : Tree α → Stmt
  | node _ kind cs =>
    match kind, cs with
    | .block, cs => .block (readingStatements st braces cs)
    | .break l, _ => .break (l.map st.name)
    | .continue l, _ => .continue (l.map st.name)
    | .debugger, _ => .debugger
    | .doWhile, [b, t] => .doWhile (readingStatement st braces b) (t.reading st)
    | .empty, _ => .empty
    | .expression, [e] => .expression (e.reading st)
    | .forLoop, [s, t, u, b] =>
      .forLoop (s.readingSetup st) (t.readingClause st) (u.readingClause st)
        (readingStatement st braces b)
    | .forIn, [h, v, b] =>
      .forIn (h.readingHead st) (v.reading st) (readingStatement st braces b)
    | .function s, node _ _ cs :: ps =>
      .function (st.name s) (ps.map fun p => (p.readingDeclaration st).1)
        (readingStatements st braces cs)
    | .ifElse, [t, a, b] =>
      if b.isEmpty then .ifThen (t.reading st) (readingStatement st braces a)
      else
        .ifElse (t.reading st) (.bracedIf (braces && a.endsOpen) (readingStatement st braces a))
          (readingStatement st braces b)
    | .label s, [b] => .label (st.name s) (readingStatement st braces b)
    | .return, [e] => .return (if e.isUndefined then none else some (e.reading st))
    | .throw, [e] => .throw (e.reading st)
    | .try, [node _ _ cs, h, f] =>
      (tried? (readingStatements st braces cs) (readingHandler st braces h)
        (readingFinalizer st braces f)).getD .empty
    | .varStatement, vs => .var (vs.map (readingDeclaration st))
    | .whileLoop, [t, b] => .whileLoop (t.reading st) (readingStatement st braces b)
    | _, _ => .empty

def readingStatements (st : Style) (braces : Bool) : List (Tree α) → List Stmt
  | [] => []
  | c :: cs => readingStatement st braces c :: readingStatements st braces cs

def readingHandler (st : Style) (braces : Bool) : Tree α → Option (String × List Stmt)
  | node _ (.catch s) [node _ _ cs] => some (st.name s, readingStatements st braces cs)
  | _ => none

def readingFinalizer (st : Style) (braces : Bool) : Tree α → Option (List Stmt)
  | node _ .block cs => some (readingStatements st braces cs)
  | _ => none

end

theorem readingHandler_handler (m : α) (o : Option (SymbolId × α × List (Tree α))) (braces : Bool) :
    (handler m o).readingHandler st braces =
      o.map fun p => (st.name p.1, readingStatements st braces p.2.2) := by
  rcases o with _ | ⟨s, m', cs⟩
  · rw [handler, readingHandler]
    · rfl
    · simp
  · rw [handler, readingHandler]
    rfl

theorem readingFinalizer_finalizer (m : α) (o : Option (List (Tree α))) (braces : Bool) :
    (finalizer m o).readingFinalizer st braces = o.map (readingStatements st braces) := by
  rcases o with _ | cs
  · rw [finalizer, readingFinalizer]
    · rfl
    · simp
  · rw [finalizer, readingFinalizer]
    rfl

theorem unbracedAll_readingStatements
    (h : ∀ c ∈ cs, (c.readingStatement st true).unbraced = (c.readingStatement st false).unbraced) :
    unbracedAll (readingStatements st true cs) =
      unbracedAll (readingStatements st false cs) := by
  induction cs with
  | nil => rw [readingStatements, readingStatements]
  | cons c cs ih =>
    rw [readingStatements, readingStatements, unbracedAll, unbracedAll,
      h c (.head _), ih fun d hd => h d (.tail _ hd)]

theorem unbraced_readingStatement (h : t.IsStatement) :
    (t.readingStatement st true).unbraced = (t.readingStatement st false).unbraced := by
  induction h with
  | block _ ih =>
    rw [readingStatement, readingStatement, unbraced, unbraced,
      unbracedAll_readingStatements ih]
  | doWhile _ _ ih | forLoop _ _ _ _ ih | forIn _ _ _ ih | label _ ih | whileLoop _ _ ih =>
    rw [readingStatement, readingStatement, unbraced, unbraced, ih]
  | function _ _ ih =>
    rw [readingStatement, readingStatement, unbraced, unbraced,
      unbracedAll_readingStatements ih]
  | ifElse _ _ _ iha ihb =>
    rw [readingStatement, readingStatement]
    split
    · rw [unbraced, unbraced, iha]
    · rw [unbraced, unbraced, unbraced_bracedIf, unbraced_bracedIf, iha, ihb]
  | @«try» m m' mh mf cs h f _ _ _ ih ihh ihf =>
    rw [readingStatement, readingStatement]
    simp only [readingHandler_handler, readingFinalizer_finalizer]
    rcases h with _ | ⟨s, m'', hs⟩
    · rcases f with _ | fs
      · rfl
      · simp [tried?, unbraced, unbracedAll_readingStatements ih,
          unbracedAll_readingStatements (ihf fs rfl)]
    · rcases f with _ | fs
      · simp [tried?, unbraced, unbracedAll_readingStatements ih,
          unbracedAll_readingStatements (ihh (s, m'', hs) rfl)]
      · simp [tried?, unbraced, unbracedAll_readingStatements ih,
          unbracedAll_readingStatements (ihh (s, m'', hs) rfl),
          unbracedAll_readingStatements (ihf fs rfl)]
  | directive => rw [readingStatement, readingStatement] <;> simp
  | _ => rw [readingStatement, readingStatement]

end Tree

end ScriptPress

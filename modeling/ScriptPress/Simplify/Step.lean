import ScriptPress.Tree.Literal
import ScriptPress.Tree.Part
import ScriptPress.Tree.Shape

/-! # Steps of simplification -/

namespace ScriptPress

/-- The tree after a step, and the trees that are left out of it. -/
structure Step (α : Type) where
  tree : Tree (Option α)
  detached : List (Tree (Option α))

/-- What a run of changes did: how many there were, and the trees they left out. -/
structure Trace (α : Type) where
  changes : Nat
  detached : List (Tree (Option α))

abbrev Simplifying (α : Type) := StateT (Trace α) (Except Fault)

namespace Tree

variable {α : Type}

def new (kind : Kind) (children : List (Tree (Option α))) : Tree (Option α) :=
  node none kind children

/-- What remains of a node whose content has moved to another one. -/
def husk (t : Tree (Option α)) : Tree (Option α) := node t.mark .empty []

def emptied (t : Tree (Option α)) : Tree (Option α) := node t.mark t.kind []

end Tree

namespace Step

variable {α : Type}

def become (mark : Option α) (source : Tree (Option α)) (dropped : List (Tree (Option α))) :
    Step α :=
  ⟨.node mark source.kind source.children, source.husk :: dropped⟩

/-- A node that is made for its content only, which moves on to the node marked `mark`. -/
def fresh (mark : Option α) (kind : Kind) (children dropped : List (Tree (Option α))) : Step α :=
  become mark (Tree.new kind children) dropped

def leaf (mark : Option α) (kind : Kind) (dropped : List (Tree (Option α))) : Step α :=
  ⟨.node mark kind [], dropped⟩

def commaParts : Tree (Option α) → List (Tree (Option α))
  | .node _ .sequence cs => cs
  | t => [t]

def commaHusks : Tree (Option α) → List (Tree (Option α))
  | .node m .sequence _ => [.node m .sequence []]
  | _ => []

/-- The new node `first, second`, with nested sequences flattened. -/
def comma (first second : Tree (Option α)) : Step α :=
  ⟨Tree.new .sequence (commaParts first ++ commaParts second),
    commaHusks first ++ commaHusks second⟩

/-- The logical negation of an expression: a literal gives the opposite truth value, and a
negation is undone. -/
def negation : Tree (Option α) → Except Fault (Step α)
  | .node m (.unary .not) cs =>
    match cs with
    | inner :: rest => .ok ⟨inner, [.node m (.unary .not) rest]⟩
    | [] => .error (Part.unaryOperand.missingFrom (.unary .not))
  | value =>
    match value.kind.truth? with
    | some b => .ok ⟨Tree.new (.boolean !b) [], [value]⟩
    | none => do
      value.kind.expectExpression "unary operand"
      return ⟨Tree.new (.unary .not) [value], []⟩

end Step

namespace Simplifying

variable {α : Type}

def noteChange : Simplifying α Unit := modify fun t => { t with changes := t.changes + 1 }

def release (ts : List (Tree (Option α))) : Simplifying α Unit :=
  modify fun t => { t with detached := ts ++ t.detached }

def perform (s : Step α) : Simplifying α (Tree (Option α)) := do
  release s.detached
  noteChange
  return s.tree

def performOr (t : Tree (Option α)) : Option (Step α) → Simplifying α (Tree (Option α))
  | some s => perform s
  | none => pure t

end Simplifying

/-- The first rule that applies, in order; later ones are not tried. -/
def firstOf {β : Type} : List (Unit → Except Fault (Option β)) → Except Fault (Option β)
  | [] => .ok none
  | rule :: rules =>
    match rule () with
    | .ok none => firstOf rules
    | result => result

theorem exists_of_firstOf {β : Type} {rules : List (Unit → Except Fault (Option β))} {b : β}
    (h : firstOf rules = .ok (some b)) : ∃ rule ∈ rules, rule () = .ok (some b) := by
  induction rules with
  | nil => simp [firstOf] at h
  | cons rule rules ih =>
    unfold firstOf at h
    split at h
    · obtain ⟨r, hr, hb⟩ := ih h
      exact ⟨r, List.mem_cons_of_mem _ hr, hb⟩
    · exact ⟨rule, List.mem_cons_self, h⟩

end ScriptPress

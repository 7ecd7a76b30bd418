import ScriptPress.Simplify.Conditional
import ScriptPress.Simplify.Handlers
import ScriptPress.Simplify.Loops
import ScriptPress.Simplify.Operators

/-! # If statements -/

namespace ScriptPress

/-- What to do with an `if` statement. -/
inductive IfPlan where
  | take (truth : Bool)
  | testOnly
  | invert
  | swap
  | join (statement : Kind)
  | logical
  | keep
deriving DecidableEq

namespace IfPlan

variable {α : Type}

def ofBranches (test whenTrue whenFalse : Tree α) : IfPlan :=
  if whenTrue.isEmpty then if whenFalse.isEmpty then testOnly else invert
  else if test.isNot && !whenFalse.isEmpty then swap
  else match whenTrue.kind, whenFalse.kind with
    | .expression, .expression => join .expression
    | .return, .return => join .return
    | .throw, .throw => join .throw
    | .expression, .empty => logical
    | _, _ => keep

def of (test whenTrue whenFalse : Tree α) : IfPlan :=
  match test.kind.truth? with
  | some truth =>
    if (if truth then whenFalse else whenTrue).bindsNames then
      ofBranches test whenTrue whenFalse
    else take truth
  | none => ofBranches test whenTrue whenFalse

theorem of_eq_ofBranches {test whenTrue whenFalse : Tree α} {p : IfPlan}
    (h : of test whenTrue whenFalse = p) (hp : ∀ b, p ≠ take b) :
    ofBranches test whenTrue whenFalse = p := by
  cases htruth : test.kind.truth? with
  | none => simpa only [of, htruth] using h
  | some truth =>
    by_cases hd : (if truth then whenFalse else whenTrue).bindsNames
    · simpa only [of, htruth, hd, if_true] using h
    · simp only [of, htruth, hd] at h
      exact absurd h.symm (hp truth)

theorem isEmpty_of_invert {test whenTrue whenFalse : Tree α}
    (h : of test whenTrue whenFalse = invert) :
    whenTrue.isEmpty ∧ whenFalse.isEmpty = false := by
  have h := of_eq_ofBranches h (by simp)
  unfold ofBranches at h
  split at h
  · split at h
    · cases h
    · rename_i h₁ h₂
      exact ⟨h₁, by simpa using h₂⟩
  · split at h
    · cases h
    · split at h <;> cases h

theorem isEmpty_of_swap {test whenTrue whenFalse : Tree α}
    (h : of test whenTrue whenFalse = swap) :
    whenTrue.isEmpty = false ∧ whenFalse.isEmpty = false := by
  have h := of_eq_ofBranches h (by simp)
  unfold ofBranches at h
  split at h
  · split at h <;> cases h
  · split at h
    · rename_i h₁ h₂
      simp only [Bool.and_eq_true, Bool.not_eq_true'] at h₂
      exact ⟨by simpa using h₁, h₂.2⟩
    · split at h <;> cases h

end IfPlan

namespace Step

variable {α : Type}

def branchValue (statement : Kind) (branch : Tree (Option α)) :
    Except Fault (Tree (Option α) × Tree (Option α)) :=
  match branch with
  | .node m k (value :: rest) => .ok (value, .node m k rest)
  | _ => .error (.branchWithoutValue statement)

/-- The conditional made of a test and the values of two branches. -/
def unitedBranches (statement : Kind) (test whenTrue whenFalse : Tree (Option α)) :
    Except Fault (Step α) := do
  let (a, restTrue) ← branchValue statement whenTrue
  let (b, restFalse) ← branchValue statement whenFalse
  test.kind.expectExpression "conditional test"
  a.kind.expectExpression "conditional branch"
  b.kind.expectExpression "conditional branch"
  return ⟨Tree.new .conditional [test, a, b], [restTrue, restFalse]⟩

/-- Makes `if (test) value;` into `test && value;`, or into `inner || value;` for a negated test. -/
def logicalStatement (m : Option α) (test whenTrue whenFalse : Tree (Option α)) :
    Except Fault (Step α) := do
  let value ← whenTrue.part Part.expressionValue
  let husks := [.node whenTrue.mark whenTrue.kind (whenTrue.children.drop 1), whenFalse]
  if test.isNot then
    let inner ← negation test
    inner.tree.kind.expectExpression "binary operand"
    value.kind.expectExpression "binary operand"
    return fresh m .expression [Tree.new (.binary .logicalOr) [inner.tree, value]]
      (inner.detached ++ husks)
  else
    test.kind.expectExpression "binary operand"
    value.kind.expectExpression "binary operand"
    return fresh m .expression [Tree.new (.binary .logicalAnd) [test, value]] husks

end Step

namespace Simplifying

variable {α : Type}

def noteUnbrace (t : Tree (Option α)) : Simplifying α Unit :=
  match t.unbrace? with
  | some s => do
    let _ ← perform s
  | none => pure ()

/-- The rules for kinds other than `if`, none of which leads to another kind's rules. -/
def plain (known : WellKnown) : Tree (Option α) → Simplifying α (Tree (Option α))
  | .node m kind cs =>
    match kind with
    | .module | .block => statements m kind cs
    | .expression => expressionStatement m cs
    | .whileLoop => whileLoop m cs
    | .forLoop => forLoop m cs
    | .doWhile => within Part.doWhileBody m kind cs unbrace
    | .forIn => within Part.forInBody m kind cs unbrace
    | .label _ => within Part.labelBody m kind cs unbrace
    | .try => tryStatement m cs
    | .conditional => conditional m cs
    | .sequence => sequence m cs
    | .call => call known m cs
    | .unary op => unary m op cs
    | .binary op => binary m op cs
    | _ => return .node m kind cs

def uniteBranches (m : Option α) (statement : Kind) (test whenTrue whenFalse : Tree (Option α)) :
    Simplifying α (Tree (Option α)) := do
  let joined ← Step.unitedBranches statement test whenTrue whenFalse
  let husk : Tree (Option α) := Tree.new .empty []
  release (husk :: joined.detached)
  let value ← conditional none joined.tree.children
  noteChange
  if statement = .expression then expressionStatement m [value]
  else return .node m statement [value]

theorem branch_size_le (truth : Bool) (a b : Tree (Option α)) :
    (if truth then a.unbraced else b.unbraced).size ≤ a.size + b.size := by
  have ha := a.unbraced_size_le
  have hb := b.unbraced_size_le
  split <;> omega

/-- The order in which the branches of an `if` statement get simpler. -/
def Simpler (a b t a' b' t' : Tree (Option α)) : Prop :=
  Prod.Lex (· < ·) (Prod.Lex (· < ·) (· < ·))
    (a.size + b.size, (if a.unbraced.isEmpty then 1 else 0), t.size)
    (a'.size + b'.size, (if a'.unbraced.isEmpty then 1 else 0), t'.size)

theorem exchange_decreases {a b t t' : Tree (Option α)} (hfull : b.unbraced.isEmpty = false)
    (ht : a.unbraced.isEmpty = false → t'.size < t.size) :
    Simpler b.unbraced a.unbraced t' a b t := by
  have ha := a.unbraced_size_le
  have hb := b.unbraced_size_le
  rcases Nat.lt_or_ge (b.unbraced.size + a.unbraced.size) (a.size + b.size) with hlt | hge
  · exact .left _ _ hlt
  · have hfix : b.unbraced.unbraced = b.unbraced := b.unbraced_unbraced_of_size (by omega)
    have hsum : b.unbraced.size + a.unbraced.size = a.size + b.size := by omega
    unfold Simpler
    rw [hsum, hfix, hfull]
    cases hempty : a.unbraced.isEmpty with
    | true => exact .right _ (.left _ _ (by decide))
    | false => exact .right _ (.right _ (ht hempty))

theorem invert_decreases {a b t t' : Tree (Option α)}
    (h : a.unbraced.isEmpty ∧ b.unbraced.isEmpty = false) :
    Simpler b.unbraced a.unbraced t' a b t :=
  exchange_decreases h.2 (by simp [h.1])

theorem swap_decreases {a b t t' : Tree (Option α)}
    (h : a.unbraced.isEmpty = false ∧ b.unbraced.isEmpty = false) (ht : t'.size < t.size) :
    Simpler b.unbraced a.unbraced t' a b t :=
  exchange_decreases h.2 fun _ => ht

/-- The rules for an `if` statement as its test, its branches and any children beyond these. A
branch that takes its place is looked at again, and so is the statement after its branches have
changed places. -/
def ifElse (known : WellKnown) (m : Option α) (test whenTrue whenFalse : Tree (Option α))
    (rest : List (Tree (Option α))) : Simplifying α (Tree (Option α)) := do
  noteUnbrace whenTrue
  noteUnbrace whenFalse
  let a := whenTrue.unbraced
  let b := whenFalse.unbraced
  let three : Except Fault Unit :=
    if rest.isEmpty then .ok () else .error (.wrongArity .ifElse 3 (3 + rest.length))
  match _plan : IfPlan.of test a b with
  | .take truth =>
    let taken := if truth then a else b
    let dropped := if truth then b else a
    let step := Step.become m taken (test :: dropped :: rest)
    let _ ← perform step
    match _taken : taken with
    | .node _ .ifElse (t :: x :: y :: more) => ifElse known m t x y more
    | .node _ .ifElse [_, _] => throw (Part.ifFalse.missingFrom .ifElse)
    | .node _ .ifElse _ => throw (Part.ifTrue.missingFrom .ifElse)
    | .node _ kind cs => plain known (.node m kind cs)
  | .testOnly =>
    test.kind.expectExpression "expression statement value"
    let step ← perform (Step.fresh m .expression [test] (a :: b :: rest))
    expressionStatement m step.children
  | .invert =>
    three
    let negated ← Step.negation test
    release negated.detached
    noteChange
    ifElse known m negated.tree b a []
  | .swap =>
    three
    match test with
    | .node tm (.unary .not) (inner :: others) =>
      release [.node tm (.unary .not) others]
      noteChange
      ifElse known m inner b a []
    | t => throw (Part.unaryOperand.missingFrom t.kind)
  | .join statement =>
    three
    uniteBranches m statement test a b
  | .logical =>
    three
    let step ← perform (← Step.logicalStatement m test a b)
    expressionStatement m step.children
  | .keep => return .node m .ifElse (test :: a :: b :: rest)
termination_by
  (whenTrue.size + whenFalse.size, if whenTrue.unbraced.isEmpty then 1 else 0, test.size)
decreasing_by
  · have hsize : taken.size ≤ whenTrue.size + whenFalse.size := branch_size_le truth _ _
    rw [_taken] at hsize
    simp only [Tree.size_node, Tree.sizes_cons] at hsize
    apply Prod.Lex.left
    omega
  · exact invert_decreases (IfPlan.isEmpty_of_invert _plan)
  · apply swap_decreases (IfPlan.isEmpty_of_swap _plan)
    simp only [Tree.size_node, Tree.sizes_cons]
    omega

end Simplifying

end ScriptPress

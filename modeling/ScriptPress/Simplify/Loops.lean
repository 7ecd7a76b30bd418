import ScriptPress.Simplify.Discard
import ScriptPress.Simplify.Statements

/-! # Loops and labels -/

namespace ScriptPress

namespace Tree

variable {α : Type}

/-- A block in the place of one statement: nothing in it is an empty statement, one statement in
it can stand alone. -/
def unbrace? : Tree (Option α) → Option (Step α)
  | .node m kind cs =>
    if (node m kind cs).isDissolvable then
      match cs with
      | [] => some (Step.leaf m .empty [])
      | [only] => some (Step.become m only [])
      | _ => none
    else none

def unbraced (t : Tree (Option α)) : Tree (Option α) := (t.unbrace?.map Step.tree).getD t

theorem unbraced_cases (t : Tree (Option α)) :
    t.unbraced = t ∨ t.unbraced.size < t.size ∨ t.unbraced = node t.mark .empty [] := by
  obtain ⟨m, kind, cs⟩ := t
  by_cases hd : (node m kind cs).isDissolvable
  · match cs, hd with
    | [], hd => exact .inr (.inr (by simp [unbraced, unbrace?, hd, Step.leaf]))
    | [only], hd =>
      refine .inr (.inl ?_)
      have := only.size_eq
      simp only [unbraced, unbrace?, hd, if_true, Option.map_some, Option.getD_some, Step.become,
        size_node, sizes_cons, sizes_nil]
      omega
    | _ :: _ :: _, hd => exact .inl (by simp [unbraced, unbrace?, hd])
  · exact .inl (by simp [unbraced, unbrace?, hd])

theorem unbraced_size_le (t : Tree (Option α)) : t.unbraced.size ≤ t.size := by
  have := t.size_pos
  rcases t.unbraced_cases with h | h | h
  · exact Nat.le_of_eq (congrArg size h)
  · omega
  · rw [h, size_node, sizes_nil]
    omega

theorem unbraced_unbraced_of_size {t : Tree (Option α)} (h : t.size ≤ t.unbraced.size) :
    t.unbraced.unbraced = t.unbraced := by
  rcases t.unbraced_cases with h' | h' | h'
  · rw [h', h']
  · omega
  · rw [h']; rfl

end Tree

namespace Simplifying

variable {α : Type}

def unbrace (t : Tree (Option α)) : Simplifying α (Tree (Option α)) := performOr t t.unbrace?

def within (p : Part) (m : Option α) (kind : Kind) (cs : List (Tree (Option α)))
    (f : Tree (Option α) → Simplifying α (Tree (Option α))) : Simplifying α (Tree (Option α)) := do
  let c ← p.get kind cs
  return .node m kind (cs.set p.position (← f c))

def dropTruthyTest (test : Tree (Option α)) : Simplifying α (Tree (Option α)) :=
  if test.kind.isTruthy then perform (Step.leaf test.mark .empty test.children) else pure test

def reduceClause (clause : Tree (Option α)) : Simplifying α (Tree (Option α)) := do
  if clause.kind.isExpression then
    match ← keepEffects clause with
    | some clause => return clause
    | none => perform (Step.leaf clause.mark .empty clause.children)
  else return clause

def forLoop (m : Option α) : List (Tree (Option α)) → Simplifying α (Tree (Option α))
  | setup :: test :: update :: body :: rest => do
    let body ← unbrace body
    let test ← dropTruthyTest test
    let setup ← reduceClause setup
    let update ← reduceClause update
    return .node m .forLoop (setup :: test :: update :: body :: rest)
  | _ => throw (Part.forBody.missingFrom .forLoop)

def whileLoop (m : Option α) : List (Tree (Option α)) → Simplifying α (Tree (Option α))
  | [test, body] => do
    test.kind.expectKind "for test" test.kind.fitsClause
    body.kind.expectStatement "for body"
    let children := [Tree.new .empty [], test, Tree.new .empty [], body]
    let loop ← perform (Step.fresh m .forLoop children [])
    forLoop m loop.children
  | cs => throw (.wrongArity .whileLoop 2 cs.length)

end Simplifying

end ScriptPress

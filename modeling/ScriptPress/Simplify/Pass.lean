import ScriptPress.Simplify.Branches
import ScriptPress.Store.Edit

/-! # The simplifying pass -/

namespace ScriptPress

namespace Simplifying

variable {α : Type}

def applyRules (known : WellKnown) : Tree (Option α) → Simplifying α (Tree (Option α))
  | .node m .ifElse cs =>
    match cs with
    | test :: whenTrue :: whenFalse :: rest => ifElse known m test whenTrue whenFalse rest
    | [_, _] => throw (Part.ifFalse.missingFrom .ifElse)
    | _ => throw (Part.ifTrue.missingFrom .ifElse)
  | t => plain known t

mutual

def visit (known : WellKnown) : Tree (Option α) → Simplifying α (Tree (Option α))
  | .node m kind cs => do applyRules known (.node m kind (← visitAll known cs))

def visitAll (known : WellKnown) : List (Tree (Option α)) → Simplifying α (List (Tree (Option α)))
  | [] => return []
  | c :: cs => do
    let c ← visit known c
    return c :: (← visitAll known cs)

end

end Simplifying

namespace Tree

variable {α : Type}

def simplify (known : WellKnown) (t : Tree α) :
    Except Fault (Tree (Option α) × Trace α) :=
  (Simplifying.visit known (t.map some)).run ⟨0, []⟩

end Tree

namespace Store

/-- Puts a tree made of the nodes below `n` and of new ones in the place of the tree there; its
root is `n` again. The trees that are left out become roots. -/
def regrow (s : Store) (n : NodeId) (t : Tree (Option NodeId))
    (detached : List (Tree (Option NodeId))) : Store :=
  let s := (s.tree n).preorder.foldl detachChildren s
  (t :: detached).foldl (fun s t => (plant t s).2) s

/-- Simplifies the tree below a node, and tells whether anything was changed. -/
def simplify (s : Store) (known : WellKnown) (n : NodeId) : Except Fault (Store × Bool) := do
  let (t, trace) ← (s.tree n).simplify known
  return (s.regrow n t trace.detached, 0 < trace.changes)

end Store

end ScriptPress

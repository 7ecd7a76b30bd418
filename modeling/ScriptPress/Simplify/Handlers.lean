import ScriptPress.Simplify.Step

/-! # Exception handlers -/

namespace ScriptPress

namespace Tree

variable {α : Type}

/-- Whether a handler throws its own binding again and does nothing else. -/
def rethrows (t : Tree α) : Except Fault Bool :=
  match t.kind with
  | .catch binding => do
    match (← t.part Part.catchBody).children with
    | [only] =>
      if only.kind = .throw then
        return (← only.part Part.throwValue).kind == .identifier binding
      else return false
    | _ => return false
  | _ => .ok false

end Tree

namespace Step

variable {α : Type}

def tryStatement (m : Option α) (block handler finalizer : Tree (Option α))
    (rest : List (Tree (Option α))) : Option (Step α) :=
  if block.children.isEmpty then
    if finalizer.isEmpty then some (leaf m .empty (block :: handler :: finalizer :: rest))
    else some (become m finalizer (block :: handler :: rest))
  else if handler.isEmpty && finalizer.isEmpty then
    some (become m block (handler :: finalizer :: rest))
  else none

end Step

namespace Simplifying

variable {α : Type}

def dropRethrow (handler : Tree (Option α)) : Simplifying α (Tree (Option α)) := do
  if ← handler.rethrows then perform (Step.leaf handler.mark .empty handler.children)
  else return handler

def dropEmptyFinalizer (finalizer : Tree (Option α)) : Simplifying α (Tree (Option α)) :=
  if finalizer.kind = .block ∧ finalizer.children.isEmpty then
    perform (Step.leaf finalizer.mark .empty [])
  else pure finalizer

def tryStatement (m : Option α) : List (Tree (Option α)) → Simplifying α (Tree (Option α))
  | block :: handler :: clauses => do
    let handler ← dropRethrow handler
    match clauses with
    | [] => throw (Part.tryFinally.missingFrom .try)
    | finalizer :: rest =>
      let finalizer ← dropEmptyFinalizer finalizer
      performOr (.node m .try (block :: handler :: finalizer :: rest))
        (Step.tryStatement m block handler finalizer rest)
  | _ => throw (Part.tryCatch.missingFrom .try)

end Simplifying

end ScriptPress

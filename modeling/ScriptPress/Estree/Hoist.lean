import ScriptPress.Estree.Element

/-! # Hoisted names -/

namespace ScriptPress.Element

/-- The names that a statement binds, given those of its parts. Functions are not entered, and a
declared pattern binds nothing here: it is refused later. -/
def hoistedFrom (e : Element) (sub : e.Child → Except Defect (List String)) :
    Except Defect (List String) :=
  let optionally (name : String) : Except Defect (List String) := do
    match ← e.optional name with
    | some c => sub c
    | none => return []
  match e.type with
  | "VariableDeclaration" => do
    let names ← (← e.list "declarations").mapM fun d => do
      return (← d.1.node "id").1.identifierName.toOption.toList
    return names.flatten
  | "FunctionDeclaration" => do return [← (← e.node "id").1.identifierName]
  | "BlockStatement" => do return (← (← e.list "body").mapM sub).flatten
  | "IfStatement" => do
    let consequent ← sub (← e.node "consequent")
    return consequent ++ (← optionally "alternate")
  | "ForStatement" => do
    let init ← optionally "init"
    return init ++ (← sub (← e.node "body"))
  | "ForInStatement" => do
    let left ← sub (← e.node "left")
    return left ++ (← sub (← e.node "body"))
  | "WhileStatement" | "DoWhileStatement" | "LabeledStatement" => do sub (← e.node "body")
  | "TryStatement" => do
    let block ← sub (← e.node "block")
    let handler ← match ← e.optional "handler" with
      | some h => do sub (h.below (← h.1.node "body"))
      | none => .ok []
    return block ++ handler ++ (← optionally "finalizer")
  | _ => .ok []

def hoisted (e : Element) : Except Defect (List String) :=
  e.hoistedFrom fun c => hoisted c.1
termination_by e.size
decreasing_by exact c.2

def hoistedAll (es : List Element) : Except Defect (List String) :=
  return (← es.mapM hoisted).flatten

end ScriptPress.Element

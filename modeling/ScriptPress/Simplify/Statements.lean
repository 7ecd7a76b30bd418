import ScriptPress.Simplify.Step

/-! # Statement lists -/

namespace ScriptPress

namespace Tree

variable {α : Type}

/-- A block that can give up its braces: it declares no function, which would then be declared
around it. -/
def isDissolvable (t : Tree α) : Bool :=
  t.kind == .block && !t.children.any fun c => c.kind.isFunction

end Tree

namespace Step

variable {α : Type}

/-- The value of an expression statement moves in front of the expression `target`, the first
child of the node that follows. A new node takes the place of `target`. -/
def prepend (statement : List (Tree (Option α)) × Option α) (next : Option α) (kind : Kind)
    (target : Tree (Option α)) (others : List (Tree (Option α))) :
    Except Fault (Option (Step α)) :=
  match statement with
  | ([], _) => .error (Part.expressionValue.missingFrom .expression)
  | (value :: rest, m) =>
    let joined := comma value target
    .ok (some ⟨.node next kind (joined.tree :: others),
      .node m .expression rest :: joined.tree.husk :: joined.detached⟩)

def merge (current next : Tree (Option α)) : Except Fault (Option (Step α)) :=
  match current, next with
  | .node m .varStatement cs, .node m' .varStatement cs' =>
    .ok (some ⟨.node m .varStatement (cs ++ cs'), [.node m' .varStatement []]⟩)
  | .node m .expression cs, .node m' .expression cs' =>
    match cs, cs' with
    | first :: rest, second :: rest' =>
      let joined := comma first second
      .ok (some ⟨.node m .expression (rest ++ [joined.tree]),
        .node m' .expression rest' :: joined.detached⟩)
    | _, _ => .error (Part.expressionValue.missingFrom .expression)
  | .node m .expression cs, .node m' .return cs' =>
    match cs' with
    | [] => .error (Part.returnValue.missingFrom .return)
    | value :: others =>
      if value.isUndefined then .ok none else prepend (cs, m) m' .return value others
  | .node m .expression cs, .node m' .throw cs' =>
    match cs' with
    | [] => .error (Part.throwValue.missingFrom .throw)
    | value :: others => prepend (cs, m) m' .throw value others
  | .node m .expression cs, .node m' .forLoop cs' =>
    match cs' with
    | [] => .error (Part.forSetup.missingFrom .forLoop)
    | setup :: others =>
      if setup.isEmpty then
        match cs with
        | [] => .error (Part.expressionValue.missingFrom .expression)
        | value :: rest =>
          .ok (some ⟨.node m' .forLoop (value :: others), [setup, .node m .expression rest]⟩)
      else if setup.kind.isExpression then prepend (cs, m) m' .forLoop setup others
      else .ok none
  | _, _ => .ok none

end Step

namespace Simplifying

variable {α : Type}

def spliceBlocks : List (Tree (Option α)) → Simplifying α (List (Tree (Option α)))
  | [] => return []
  | c :: cs => do
    if c.isEmpty then
      release [c]
      noteChange
      spliceBlocks cs
    else if c.isDissolvable then
      release [c.emptied]
      noteChange
      return c.children ++ (← spliceBlocks cs)
    else return c :: (← spliceBlocks cs)

/-- Goes on merging behind `current`; a merged statement may merge again. -/
def mergeFrom (current : Tree (Option α)) :
    List (Tree (Option α)) → Simplifying α (List (Tree (Option α)))
  | [] => return [current]
  | next :: rest => do
    match ← Step.merge current next with
    | some s => mergeFrom (← perform s) rest
    | none => return current :: (← mergeFrom next rest)

def mergeNeighbours : List (Tree (Option α)) → Simplifying α (List (Tree (Option α)))
  | [] => return []
  | first :: rest => mergeFrom first rest

def statements (m : Option α) (kind : Kind) (children : List (Tree (Option α))) :
    Simplifying α (Tree (Option α)) := do
  return .node m kind (← mergeNeighbours (← spliceBlocks children))

end Simplifying

end ScriptPress

import ScriptPress.Simplify.Fold
import ScriptPress.Simplify.Step

/-! # String concatenation -/

namespace ScriptPress

open Tree

namespace Tree

variable {α : Type}

def isSum (t : Tree α) : Bool := t.kind == .binary .add

def isCertainlyString : Tree α → Except Fault Bool
  | node _ (.string _) _ => .ok true
  | node _ (.binary .add) cs =>
    match cs with
    | [] => .error (Part.leftOperand.missingFrom (.binary .add))
    | [left] => do
      if ← isCertainlyString left then return true
      else throw (Part.rightOperand.missingFrom (.binary .add))
    | left :: right :: _ => do
      if ← isCertainlyString left then return true else isCertainlyString right
  | _ => .ok false

end Tree

namespace Step.Concat

variable {α : Type}

def fold (m : Option α) (left right : Tree (Option α)) (rest : List (Tree (Option α))) :
    Option (Step α) :=
  (Kind.foldBinary .add left.kind right.kind).map fun k => leaf m k (left :: right :: rest)

def appendLiteral (m : Option α) (left right : Tree (Option α)) (rest : List (Tree (Option α))) :
    Except Fault (Option (Step α)) :=
  if left.isSum && right.kind.isLiteral then
    match left with
    | .node lm lk (x :: .node im (.string head) ics :: more) =>
      match right.kind.text? with
      | some tail => .ok (some
          ⟨.node m lk (x :: .node im (.string (head ++ tail)) [] :: more),
            .node lm .empty [] :: ics ++ right :: rest⟩)
      | none => .ok none
    | .node _ _ (_ :: _ :: _) => .ok none
    | .node _ lk _ => .error (Part.rightOperand.missingFrom lk)
  else .ok none

/-- Appending nothing: `x + ""` is `x` when `x` is a string already. -/
def dropEmptyTail (m : Option α) (left right : Tree (Option α)) (rest : List (Tree (Option α))) :
    Except Fault (Option (Step α)) :=
  if right.kind.isString "" then
    match left.isCertainlyString with
    | .error e => .error e
    | .ok true => .ok (some (become m left (right :: rest)))
    | .ok false => .ok none
  else .ok none

/-- An empty text in front moves behind: `("" + x) + 0` is `x + "0"`. -/
def moveEmptyHead (m : Option α) (left right : Tree (Option α)) (rest : List (Tree (Option α))) :
    Except Fault (Option (Step α)) :=
  if left.isSum && right.kind.isLiteral then
    match left with
    | .node lm lk (head :: others) =>
      if head.kind.isString "" then
        match right.kind.text? with
        | some text =>
          match others with
          | x :: more => .ok (some
              ⟨.node m (.binary .add) (x :: .node right.mark (.string text) [] :: rest),
                .node lm lk (head :: more) :: right.children⟩)
          | [] => .error (Part.rightOperand.missingFrom lk)
        | none => .ok none
      else .ok none
    | .node _ lk [] => .error (Part.leftOperand.missingFrom lk)
  else .ok none

def prependLiteral (m : Option α) (left right : Tree (Option α)) (rest : List (Tree (Option α))) :
    Except Fault (Option (Step α)) :=
  if left.kind.isLiteral && right.isSum then
    match right with
    | .node rm rk (.node hm (.string tail) hcs :: others) =>
      match left.kind.text? with
      | some head =>
        match others with
        | x :: more => .ok (some
            ⟨.node m (.binary .add) (.node left.mark (.string (head ++ tail)) [] :: x :: rest),
              .node rm rk (.node hm (.string tail) hcs :: more) :: left.children⟩)
        | [] => .error (Part.rightOperand.missingFrom rk)
      | none => .ok none
    | .node _ _ (_ :: _) => .ok none
    | .node _ rk [] => .error (Part.leftOperand.missingFrom rk)
  else .ok none

/-- An empty text behind moves in front: `0 + (x + "")` is `"0" + x`. -/
def moveEmptyTail (m : Option α) (left right : Tree (Option α)) (rest : List (Tree (Option α))) :
    Except Fault (Option (Step α)) :=
  if left.kind.isLiteral && right.isSum then
    match right with
    | .node rm rk (x :: tail :: more) =>
      if tail.kind.isString "" then
        match left.kind.text? with
        | some text => .ok (some
            ⟨.node m (.binary .add) (.node left.mark (.string text) [] :: x :: rest),
              .node rm rk (tail :: more) :: left.children⟩)
        | none => .ok none
      else .ok none
    | .node _ rk _ => .error (Part.rightOperand.missingFrom rk)
  else .ok none

def step (m : Option α) (left right : Tree (Option α)) (rest : List (Tree (Option α))) :
    Except Fault (Option (Step α)) :=
  if left.kind.isLiteral && right.kind.isLiteral then .ok (fold m left right rest)
  else firstOf
    [fun _ => appendLiteral m left right rest, fun _ => dropEmptyTail m left right rest,
      fun _ => moveEmptyHead m left right rest, fun _ => prependLiteral m left right rest,
      fun _ => moveEmptyTail m left right rest]

def weight (left right : Tree (Option α)) (rest : List (Tree (Option α))) : Nat :=
  1 + (left.size + (right.size + sizes rest))

variable {m : Option α} {left right : Tree (Option α)} {rest : List (Tree (Option α))} {s : Step α}

theorem fold_size (h : fold m left right rest = some s) : s.tree.size < weight left right rest := by
  obtain ⟨k, -, rfl⟩ := Option.map_eq_some_iff.1 h
  have := left.size_pos
  simp only [leaf, size_node, sizes_nil, weight]
  omega

theorem appendLiteral_size (h : appendLiteral m left right rest = .ok (some s)) :
    s.tree.size < weight left right rest := by
  unfold appendLiteral at h
  repeat' split at h
  all_goals cases h
  have := right.size_pos
  simp only [weight, size_node, sizes_cons, sizes_nil]
  omega

theorem dropEmptyTail_size (h : dropEmptyTail m left right rest = .ok (some s)) :
    s.tree.size < weight left right rest := by
  unfold dropEmptyTail at h
  repeat' split at h
  all_goals cases h
  have := right.size_pos
  have := left.size_eq
  simp only [become, weight, size_node]
  omega

theorem moveEmptyHead_size (h : moveEmptyHead m left right rest = .ok (some s)) :
    s.tree.size < weight left right rest := by
  unfold moveEmptyHead at h
  repeat' split at h
  all_goals cases h
  have := right.size_pos
  simp only [weight, size_node, sizes_cons, sizes_nil]
  omega

theorem prependLiteral_size (h : prependLiteral m left right rest = .ok (some s)) :
    s.tree.size < weight left right rest := by
  unfold prependLiteral at h
  repeat' split at h
  all_goals cases h
  have := left.size_pos
  simp only [weight, size_node, sizes_cons, sizes_nil]
  omega

theorem moveEmptyTail_size (h : moveEmptyTail m left right rest = .ok (some s)) :
    s.tree.size < weight left right rest := by
  unfold moveEmptyTail at h
  repeat' split at h
  all_goals cases h
  have := left.size_pos
  simp only [weight, size_node, sizes_cons, sizes_nil]
  omega

theorem step_size (h : step m left right rest = .ok (some s)) :
    s.tree.size < weight left right rest := by
  unfold step at h
  split at h
  · exact fold_size (Except.ok.inj h)
  · obtain ⟨rule, hmem, hs⟩ := exists_of_firstOf h
    simp only [List.mem_cons, List.not_mem_nil, or_false] at hmem
    rcases hmem with rfl | rfl | rfl | rfl | rfl
    · exact appendLiteral_size hs
    · exact dropEmptyTail_size hs
    · exact moveEmptyHead_size hs
    · exact prependLiteral_size hs
    · exact moveEmptyTail_size hs

end Step.Concat

namespace Simplifying

variable {α : Type}

/-- Applies the rules for sums as long as one fits and the result is a sum. -/
def concat : Tree (Option α) → Simplifying α (Tree (Option α))
  | .node m (.binary .add) cs =>
    match cs with
    | [] => throw (Part.leftOperand.missingFrom (.binary .add))
    | [_] => throw (Part.rightOperand.missingFrom (.binary .add))
    | left :: right :: rest =>
      match h : Step.Concat.step m left right rest with
      | .error e => throw e
      | .ok none => return .node m (.binary .add) (left :: right :: rest)
      | .ok (some s) => do
        let _ ← perform s
        have : s.tree.size < 1 + (left.size + (right.size + sizes rest)) :=
          Step.Concat.step_size h
        concat s.tree
  | t => return t
termination_by t => t.size
decreasing_by
  simp only [size_node, sizes_cons]
  omega

end Simplifying

end ScriptPress

import ScriptPress.Proofs.Meaning.Value
import ScriptPress.Tree.Basic

/-! # What programs mean -/

namespace ScriptPress

variable {α β γ ω σ : Type}

/-- Computing a value from the state; an exception carries a value. -/
abbrev Evaluation (ω σ : Type) := ExceptT (Value ω) (StateM σ)

/-- What programs run on: objects of type `ω`, states of type `σ`, how names and `this` are read
from a state, and what calling a function does. -/
structure Host (ω σ : Type) extends Objects ω where
  read : σ → SymbolId → Value ω
  self : σ → Value ω
  call : SymbolId → Value ω → List (Value ω) → Evaluation ω σ (Value ω)

abbrev Locals (ω : Type) := SymbolId → Option (Value ω)

namespace Locals

def none : Locals ω := fun _ => Option.none

def set (locals : Locals ω) (name : SymbolId) (v : Value ω) : Locals ω := fun s =>
  if s = name then some v else locals s

end Locals

namespace Tree

def lookup (H : Host ω σ) (locals : Locals ω) (s : SymbolId) : Evaluation ω σ (Value ω) :=
  match locals s with
  | some v => pure v
  | none => return H.read (← get) s

mutual

def evaluate (H : Host ω σ) (locals : Locals ω) : Tree α → Evaluation ω σ (Value ω)
  | node _ kind cs =>
    match kind, cs with
    | .identifier s, _ => lookup H locals s
    | .this, _ => return H.self (← get)
    | .unary op, [x] => return H.unary op (← evaluate H locals x)
    | .binary op, [x, y] => do
      let v ← evaluate H locals x
      match op with
      | .logicalAnd => if v.truth then evaluate H locals y else return v
      | .logicalOr => if v.truth then return v else evaluate H locals y
      | op => return H.binary op v (← evaluate H locals y)
    | .conditional, [t, x, y] => do
      if (← evaluate H locals t).truth then evaluate H locals x else evaluate H locals y
    | .sequence, cs => evaluateLast H locals cs
    | .call, target :: arguments =>
      match target.kind with
      | .identifier s => do
        let f ← lookup H locals s
        H.call s f (← evaluateAll H locals arguments)
      | _ => return .undefined
    | k, _ => return .primitive (k.value?.getD .undefined)

def evaluateLast (H : Host ω σ) (locals : Locals ω) : List (Tree α) → Evaluation ω σ (Value ω)
  | [] => return .undefined
  | [x] => evaluate H locals x
  | x :: xs => do
    let _ ← evaluate H locals x
    evaluateLast H locals xs

def evaluateAll (H : Host ω σ) (locals : Locals ω) : List (Tree α) → Evaluation ω σ (List (Value ω))
  | [] => return []
  | x :: xs => do
    let v ← evaluate H locals x
    return v :: (← evaluateAll H locals xs)

end

end Tree

/-- How a statement ends when it does not run to its end. -/
inductive Abrupt (ω : Type) where
  | break
  | continue
  | return (value : Value ω)
  | throw (value : Value ω)

abbrev Execution (ω σ : Type) := ExceptT (Abrupt ω) (StateT σ Option)

abbrev Completion (ω : Type) := Except (Abrupt ω) Unit

namespace Execution

def ofEvaluation (e : Evaluation ω σ β) : Execution ω σ β :=
  ExceptT.mk fun s => match e.run.run s with
    | (.ok b, s) => some (.ok b, s)
    | (.error v, s) => some (.error (.throw v), s)

def enter (body : Execution ω σ Unit) : Execution ω σ Bool := ExceptT.mk do
  match ← body.run with
  | .ok _ | .error .continue => return .ok true
  | .error .break => return .ok false
  | .error a => return .error a

def iterate : Nat → Execution ω σ Bool → Execution ω σ Unit
  | 0, _ => ExceptT.mk fun _ => none
  | n + 1, turn => do if ← turn then iterate n turn

def handled (body : Execution ω σ Unit) (handler : Value ω → Execution ω σ Unit) :
    Execution ω σ Unit := ExceptT.mk do
  match ← body.run with
  | .error (.throw v) => (handler v).run
  | c => return c

/-- However the body ends, the finalizer runs; unless that ends abruptly itself, the completion
is the one of the body. -/
def ensured (body finalizer : Execution ω σ Unit) : Execution ω σ Unit := ExceptT.mk do
  let c ← body.run
  match ← finalizer.run with
  | .ok _ => return c
  | .error a => return .error a

end Execution

namespace Tree

open Execution

def holds (H : Host ω σ) (locals : Locals ω) (t : Tree α) : Execution ω σ Bool := do
  return (← ofEvaluation (t.evaluate H locals)).truth

/-- A clause of a `for` loop that is evaluated for its effects, if it is there. -/
def clause (H : Host ω σ) (locals : Locals ω) (t : Tree α) : Execution ω σ Unit := do
  if !t.isEmpty then
    let _ ← ofEvaluation (t.evaluate H locals)

def test (H : Host ω σ) (locals : Locals ω) (t : Tree α) : Execution ω σ Bool :=
  if t.isEmpty then return true else t.holds H locals

mutual

def execute (H : Host ω σ) (turns : Nat) : Tree α → Locals ω → Execution ω σ Unit
  | node _ kind cs, locals =>
    match kind, cs with
    | .module, cs | .block, cs => executeAll H turns cs locals
    | .expression, [x] => do
      let _ ← ofEvaluation (x.evaluate H locals)
    | .ifElse, [t, x, y] => do
      if ← t.holds H locals then execute H turns x locals else execute H turns y locals
    | .whileLoop, [t, b] => iterate turns do
      if ← t.holds H locals then enter (execute H turns b locals) else return false
    | .doWhile, [b, t] => iterate turns do
      if ← enter (execute H turns b locals) then t.holds H locals else return false
    | .forLoop, [a, t, u, b] => do
      a.clause H locals
      iterate turns do
        if ← t.test H locals then
          if ← enter (execute H turns b locals) then
            u.clause H locals
            return true
          else return false
        else return false
    | .return, [x] => do throw (.return (← ofEvaluation (x.evaluate H locals)))
    | .throw, [x] => do throw (.throw (← ofEvaluation (x.evaluate H locals)))
    | .break none, [] => throw .break
    | .continue none, [] => throw .continue
    | .try, [b, h, f] =>
      let body := execute H turns b locals
      let attempt := match h.kind with
        | .catch name => handled body fun v => execute H turns h (locals.set name v)
        | _ => body
      ensured attempt (execute H turns f locals)
    | .catch _, [b] => execute H turns b locals
    | _, _ => pure ()

def executeAll (H : Host ω σ) (turns : Nat) : List (Tree α) → Locals ω → Execution ω σ Unit
  | [], _ => pure ()
  | c :: cs, locals => do
    execute H turns c locals
    executeAll H turns cs locals

end

/-- From the state `s` the program ends with the completion `c` in the state `s'`. -/
def Terminates (H : Host ω σ) (t : Tree α) (s : σ) (c : Completion ω) (s' : σ) : Prop :=
  ∃ turns, (t.execute H turns .none).run.run s = some (c, s')

section

variable (H : Host ω σ) (locals : Locals ω) (m : α) (a b t u x y : Tree α) (cs : List (Tree α))

theorem evaluate_identifier : (node m (.identifier s) cs).evaluate H locals = lookup H locals s :=
  rfl

theorem evaluate_this : (node m .this cs).evaluate H locals = (get >>= fun s => pure (H.self s)) :=
  rfl

theorem evaluate_unary (op : UnaryOp) : (node m (.unary op) [x]).evaluate H locals =
      x.evaluate H locals >>= fun v => pure (H.unary op v) :=
  rfl

theorem evaluate_logicalAnd : (node m (.binary .logicalAnd) [x, y]).evaluate H locals =
      x.evaluate H locals >>= fun v => if v.truth then y.evaluate H locals else pure v :=
  rfl

theorem evaluate_logicalOr : (node m (.binary .logicalOr) [x, y]).evaluate H locals =
      x.evaluate H locals >>= fun v => if v.truth then pure v else y.evaluate H locals :=
  rfl

theorem evaluate_binary {op : BinaryOp} (hop : op.isLogical = false) :
    (node m (.binary op) [x, y]).evaluate H locals =
      x.evaluate H locals >>= fun v => y.evaluate H locals >>= fun w =>
        pure (H.binary op v w) := by
  cases op <;> first | rfl | cases hop

theorem evaluate_conditional : (node m .conditional [t, x, y]).evaluate H locals =
      t.evaluate H locals >>= fun v =>
        if v.truth then x.evaluate H locals else y.evaluate H locals :=
  rfl

theorem evaluate_sequence : (node m .sequence cs).evaluate H locals = evaluateLast H locals cs :=
  rfl

theorem evaluate_call {s : SymbolId} (h : t.kind = .identifier s) :
    (node m .call (t :: cs)).evaluate H locals =
      lookup H locals s >>= fun f => evaluateAll H locals cs >>= fun vs => H.call s f vs := by
  obtain ⟨a, k, ts⟩ := t
  cases h
  rfl

theorem evaluate_literal {p : Primitive} (h : k.value? = some p) :
    (node m k cs).evaluate H locals = pure (.primitive p) := by
  cases k <;> cases h <;> rfl

theorem evaluate_of_not_isExpression (h : k.isExpression = false) :
    (node m k cs).evaluate H locals = pure .undefined := by
  cases k <;> first | rfl | cases h

variable (turns : Nat)

theorem execute_list (h : k = .module ∨ k = .block) :
    (node m k cs).execute H turns locals = executeAll H turns cs locals := by
  rcases h with rfl | rfl <;> rfl

theorem execute_expression : (node m .expression [x]).execute H turns locals =
      ofEvaluation (x.evaluate H locals) >>= fun _ => pure () :=
  rfl

theorem execute_ifElse : (node m .ifElse [t, x, y]).execute H turns locals =
      t.holds H locals >>= fun v =>
        if v then x.execute H turns locals else y.execute H turns locals :=
  rfl

theorem execute_whileLoop : (node m .whileLoop [t, b]).execute H turns locals =
      iterate turns (t.holds H locals >>= fun v =>
        if v then enter (b.execute H turns locals) else pure false) :=
  rfl

theorem execute_doWhile : (node m .doWhile [b, t]).execute H turns locals =
      iterate turns (enter (b.execute H turns locals) >>= fun v =>
        if v then t.holds H locals else pure false) :=
  rfl

def turn (turns : Nat) : Execution ω σ Bool :=
  t.test H locals >>= fun v =>
    if v then enter (b.execute H turns locals) >>= fun w =>
      if w then u.clause H locals >>= fun _ => pure true else pure false
    else pure false

theorem execute_forLoop : (node m .forLoop [a, t, u, b]).execute H turns locals =
      a.clause H locals >>= fun _ => iterate turns (turn H locals b t u turns) :=
  rfl

theorem execute_return : (node m .return [x]).execute H turns locals =
      ofEvaluation (x.evaluate H locals) >>= fun v => throw (.return v) :=
  rfl

theorem execute_throw : (node m .throw [x]).execute H turns locals =
      ofEvaluation (x.evaluate H locals) >>= fun v => throw (.throw v) :=
  rfl

theorem execute_empty : (node m .empty cs).execute H turns locals = pure () :=
  rfl

theorem execute_catch (name : SymbolId) :
    (node m (.catch name) [b]).execute H turns locals = b.execute H turns locals :=
  rfl

def attempt (turns : Nat) : Execution ω σ Unit :=
  match x.kind with
  | .catch name => handled (b.execute H turns locals) fun v =>
    x.execute H turns (locals.set name v)
  | _ => b.execute H turns locals

theorem execute_try : (node m .try [b, x, y]).execute H turns locals =
      ensured (attempt H locals b x turns) (y.execute H turns locals) :=
  rfl

theorem execute_of_isExpression (h : k.isExpression) :
    (node m k cs).execute H turns locals = pure () := by
  cases k <;> first | rfl | cases h

theorem executeAll_nil : executeAll H turns ([] : List (Tree α)) locals = pure () :=
  rfl

theorem executeAll_cons : executeAll H turns (x :: cs) locals =
      x.execute H turns locals >>= fun _ => executeAll H turns cs locals :=
  rfl

theorem executeAll_append (l r : List (Tree α)) : executeAll H turns (l ++ r) locals =
      executeAll H turns l locals >>= fun _ => executeAll H turns r locals := by
  induction l with
  | nil => rw [executeAll_nil, List.nil_append, pure_bind]
  | cons c l ih => rw [List.cons_append, executeAll_cons, executeAll_cons, ih, bind_assoc]

end

end Tree

end ScriptPress

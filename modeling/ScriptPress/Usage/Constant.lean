import ScriptPress.Store.Edit
import ScriptPress.Usage.Basic

/-! # Constant variables -/

namespace ScriptPress.Store

/-- The literal that a symbol stands for, as the `var` list, the declaration and its value. -/
def constant? (s : Store) (usage : Usage NodeId) :
    Except Fault (Option (NodeId × NodeId × NodeId)) :=
  match usage.writes with
  | [declaration] =>
    if !(s.kind declaration).isVariable then .ok none
    else match s.parent? declaration with
      | none => .ok none
      | some list =>
        if s.kind list ≠ .varStatement then .ok none
        else do
          let value ← s.part declaration Part.variableValue
          return if (s.kind value).isLiteral then some (list, declaration, value) else none
  | _ => .ok none

/-- Replaces one read by a copy of the value; other uses of the symbol stay. The flag tells
whether it was replaced. -/
def inlineRead (s : Store) (symbol : SymbolId) (value read : NodeId) :
    Except Fault (Store × Bool) :=
  if s.kind read = .identifier symbol then do
    let (copy, s) := s.copy value
    return (← s.transplant read copy, true)
  else .ok (s, false)

/-- Replaces reads in order, and collects which of them were replaced. -/
def inlineReads (s : Store) (symbol : SymbolId) (value : NodeId) :
    List NodeId → Except Fault (Store × List Bool)
  | [] => .ok (s, [])
  | read :: reads => do
    let (s, done) ← s.inlineRead symbol value read
    let (s, dones) ← s.inlineReads symbol value reads
    return (s, done :: dones)

def dropDeclaration (s : Store) (list declaration : NodeId) : Store :=
  let s := s.detach declaration
  if s.hasChildren list then s else s.setLeaf list .empty

def inlineSymbol (s : Store) (symbol : SymbolId) (usage : Usage NodeId) :
    Except Fault (Store × Bool) := do
  match ← s.constant? usage with
  | none => return (s, false)
  | some (list, declaration, value) =>
    let (s, dones) ← s.inlineReads symbol value usage.reads
    if dones.all id then return (s.dropDeclaration list declaration, true)
    else return (s, dones.any id)

/-- Inlines the constants among the scanned symbols, in order of their creation. -/
def inlineConstants (s : Store) : Usages NodeId → Except Fault (Store × Bool)
  | [] => .ok (s, false)
  | (symbol, usage) :: rest => do
    let (s, changed) ← s.inlineSymbol symbol usage
    let (s, more) ← s.inlineConstants rest
    return (s, changed || more)

def usages (s : Store) (roots : List NodeId) : Except Fault (Usages NodeId) :=
  Usages.ofTrees (roots.map s.tree)

end ScriptPress.Store

import ScriptPress.Store.Basic
import ScriptPress.Tree.Shape

/-! # Trees in a store -/

namespace ScriptPress.Store

def treeWithin (s : Store) : Nat → NodeId → Tree NodeId
  | 0, n => .node n (s.kind n) []
  | fuel + 1, n => .node n (s.kind n) ((s.children n).map (s.treeWithin fuel))

/-- The tree below a node. No path visits a node twice, so none is longer than the store. -/
def tree (s : Store) (n : NodeId) : Tree NodeId := s.treeWithin s.size n

mutual

/-- Checks that a node's children know their parent and fit its kind, then each child. -/
def verifyTree (s : Store) : Tree NodeId → Except Fault Unit
  | .node n kind cs => do
    cs.forM fun c =>
      if s.parent? c.mark = some n then .ok () else .error (.staleParent c.kind kind)
    kind.checkChildren (cs.map Tree.kind)
    s.verifyAll cs

def verifyAll (s : Store) : List (Tree NodeId) → Except Fault Unit
  | [] => .ok ()
  | c :: cs => do
    s.verifyTree c
    s.verifyAll cs

end

def verify (s : Store) (n : NodeId) : Except Fault Unit := s.verifyTree (s.tree n)

mutual

/-- Puts a tree into the store, its root where that already is. Marked nodes must not have children
in the store, and those below the root no parent. -/
def plant : Tree (Option NodeId) → Store → NodeId × Store
  | .node mark kind cs, s =>
    let (n, s) := match mark with
      | some n => (n, s.setKind n kind)
      | none => s.create kind
    (n, plantAll n cs s)

def plantAll (parent : NodeId) : List (Tree (Option NodeId)) → Store → Store
  | [], s => s
  | c :: cs, s =>
    let (n, s) := plant c s
    plantAll parent cs (s.attach parent n none)

end

def grow {α : Type} (s : Store) (t : Tree α) : NodeId × Store :=
  plant (t.map fun _ => none) s

end ScriptPress.Store

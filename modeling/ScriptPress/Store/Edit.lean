import ScriptPress.Store.View

/-! # Editing a store -/

namespace ScriptPress.Store

/-- Attaches a detached node below `parent`, before one of its children or at the end. -/
def insert (s : Store) (parent child : NodeId) (position : Option NodeId) :
    Except Fault Store :=
  if parent = child then .error .insertIntoSelf
  else if !s.isRoot child then .error (.alreadyAttached (s.kind child))
  else if s.isAncestor child parent then .error .insertIntoSubtree
  else if position.any fun p => s.parent? p ≠ some parent then .error .foreignPosition
  else .ok (s.attach parent child position)

def append (s : Store) (parent child : NodeId) : Except Fault Store :=
  s.insert parent child none

def detachChildren (s : Store) (n : NodeId) : Store := (s.children n).foldl detach s

def takeChildren (s : Store) (n : NodeId) : List NodeId × Store :=
  (s.children n, s.detachChildren n)

def moveChildren (s : Store) (target source : NodeId) : Except Fault Store :=
  let (moved, s) := s.takeChildren source
  moved.foldlM (fun s c => s.append target c) s

/-- Puts a detached node in the place of another one, which is detached. -/
def replace (s : Store) (old new : NodeId) : Except Fault Store :=
  match s.parent? old with
  | none => .error .replaceRoot
  | some p => do return (← s.insert p new (some old)).detach old

def dissolve (s : Store) (n : NodeId) : Except Fault Store :=
  match s.parent? n with
  | none => .error .spliceRoot
  | some p => do
    let (moved, s) := s.takeChildren n
    return (← moved.foldlM (fun s c => s.insert p c (some n)) s).detach n

/-- Gives a node the kind and the children of a detached one. The node keeps its number and its
place; the other is left behind empty. -/
def transplant (s : Store) (target source : NodeId) : Except Fault Store :=
  if target = source then .error .becomeSelf
  else if !s.isRoot source then .error (.becomeAttached (s.kind source))
  else if s.isAncestor source target then .error .becomeAncestor
  else
    let kind := s.kind source
    (((s.detachChildren target).setKind source .empty).setKind target kind).moveChildren
      target source

def setLeaf (s : Store) (target : NodeId) (kind : Kind) : Store :=
  (s.detachChildren target).setKind target kind

def copy (s : Store) (n : NodeId) : NodeId × Store := s.grow (s.tree n)

end ScriptPress.Store

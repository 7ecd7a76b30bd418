import ScriptPress.Tree.Part

/-! # Stores of nodes -/

namespace ScriptPress

/-- A node, numbered in order of creation. -/
structure NodeId where
  index : Nat
deriving DecidableEq, Repr

structure Slot where
  kind : Kind
  parent : Option NodeId := none
  firstChild : Option NodeId := none
  lastChild : Option NodeId := none
  previous : Option NodeId := none
  next : Option NodeId := none

structure Store where
  slots : Array Slot
  symbols : Array Symbol

namespace Store

def empty : Store := ⟨#[], #[]⟩

def createSymbol (s : Store) (name : String) (pinned : Bool) : SymbolId × Store :=
  (⟨s.symbols.size⟩, { s with symbols := s.symbols.push ⟨name, pinned⟩ })

def symbolName (s : Store) (id : SymbolId) : String :=
  (s.symbols[id.index]?.map Symbol.name).getD ""

def isPinned (s : Store) (id : SymbolId) : Bool :=
  (s.symbols[id.index]?.map Symbol.pinned).getD false

def renameSymbol (s : Store) (id : SymbolId) (name : String) : Store :=
  { s with symbols := s.symbols.modify id.index fun symbol => { symbol with name } }

def size (s : Store) : Nat := s.slots.size

def slot? (s : Store) (n : NodeId) : Option Slot := s.slots[n.index]?

def kind (s : Store) (n : NodeId) : Kind := ((s.slot? n).map Slot.kind).getD .empty

def parent? (s : Store) (n : NodeId) : Option NodeId := (s.slot? n).bind Slot.parent

def firstChild? (s : Store) (n : NodeId) : Option NodeId := (s.slot? n).bind Slot.firstChild

def lastChild? (s : Store) (n : NodeId) : Option NodeId := (s.slot? n).bind Slot.lastChild

def previous? (s : Store) (n : NodeId) : Option NodeId := (s.slot? n).bind Slot.previous

def next? (s : Store) (n : NodeId) : Option NodeId := (s.slot? n).bind Slot.next

def chain (link : NodeId → Option NodeId) : Nat → Option NodeId → List NodeId
  | 0, _ | _, none => []
  | fuel + 1, some n => n :: chain link fuel (link n)

/-- The children in order. No child comes twice, so there are at most as many as nodes. -/
def children (s : Store) (n : NodeId) : List NodeId := chain s.next? s.size (s.firstChild? n)

def hasChildren (s : Store) (n : NodeId) : Bool := (s.firstChild? n).isSome

def isRoot (s : Store) (n : NodeId) : Bool :=
  (s.parent? n).isNone && (s.previous? n).isNone && (s.next? n).isNone

/-- All ancestors, nearest first. A chain of parents never visits a node twice. -/
def ancestors (s : Store) (n : NodeId) : List NodeId := chain s.parent? s.size (s.parent? n)

def isAncestor (s : Store) (ancestor n : NodeId) : Bool := ancestor ∈ s.ancestors n

def part (s : Store) (n : NodeId) (p : Part) : Except Fault NodeId :=
  p.get (s.kind n) (s.children n)

def create (s : Store) (kind : Kind) : NodeId × Store :=
  (⟨s.size⟩, { s with slots := s.slots.push { kind } })

def modify (s : Store) (n : NodeId) (f : Slot → Slot) : Store :=
  { s with slots := s.slots.modify n.index f }

def setKind (s : Store) (n : NodeId) (kind : Kind) : Store :=
  s.modify n fun slot => { slot with kind }

def setParent (s : Store) (n : NodeId) (parent : Option NodeId) : Store :=
  s.modify n fun slot => { slot with parent }

def setFirstChild (s : Store) (n : NodeId) (firstChild : Option NodeId) : Store :=
  s.modify n fun slot => { slot with firstChild }

def setLastChild (s : Store) (n : NodeId) (lastChild : Option NodeId) : Store :=
  s.modify n fun slot => { slot with lastChild }

def setPrevious (s : Store) (n : NodeId) (previous : Option NodeId) : Store :=
  s.modify n fun slot => { slot with previous }

def setNext (s : Store) (n : NodeId) (next : Option NodeId) : Store :=
  s.modify n fun slot => { slot with next }

/-- Makes `n` the node behind `previous`, or the first child when there is none. -/
def linkNext (s : Store) (parent : NodeId) (previous n : Option NodeId) : Store :=
  match previous with
  | some previous => s.setNext previous n
  | none => s.setFirstChild parent n

/-- Makes `n` the node before `next`, or the last child when there is none. -/
def linkPrevious (s : Store) (parent : NodeId) (next n : Option NodeId) : Store :=
  match next with
  | some next => s.setPrevious next n
  | none => s.setLastChild parent n

def before? (s : Store) (parent : NodeId) (position : Option NodeId) : Option NodeId :=
  match position with
  | some p => s.previous? p
  | none => s.lastChild? parent

/-- Links a detached node in below `parent`, before one of its children or at the end. -/
def attach (s : Store) (parent child : NodeId) (position : Option NodeId) : Store :=
  let previous := s.before? parent position
  let s := (s.setPrevious child previous).setNext child position
  let s := s.linkNext parent previous (some child)
  let s := s.linkPrevious parent position (some child)
  s.setParent child (some parent)

/-- Takes a node out of its parent's list; a detached node stays as it is. -/
def detach (s : Store) (n : NodeId) : Store :=
  let previous := s.previous? n
  let next := s.next? n
  let s := match s.parent? n with
    | some p => (s.linkNext p previous next).linkPrevious p next previous
    | none => s
  s.modify n fun slot => { slot with parent := none, previous := none, next := none }

end Store

end ScriptPress

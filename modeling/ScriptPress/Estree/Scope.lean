import ScriptPress.Estree.Element
import ScriptPress.Simplify.Operators

/-! # Names and scopes -/

namespace ScriptPress

/-- The symbols made so far. -/
structure Names where
  symbols : Array Symbol
  globals : List (String × SymbolId)
  properties : List (String × SymbolId)

abbrev Reading := StateT Names (Except Defect)

namespace Reading

def createSymbol (name : String) (pinned : Bool) : Reading SymbolId :=
  modifyGet fun names =>
    (⟨names.symbols.size⟩, { names with symbols := names.symbols.push ⟨name, pinned⟩ })

def globalSymbol (name : String) : Reading SymbolId := do
  match (← get).globals.lookup name with
  | some s => return s
  | none =>
    let s ← createSymbol name true
    modify fun names => { names with globals := names.globals ++ [(name, s)] }
    return s

def propertySymbol (name : String) : Reading SymbolId := do
  match (← get).properties.lookup name with
  | some s => return s
  | none =>
    let s ← createSymbol name true
    modify fun names => { names with properties := names.properties ++ [(name, s)] }
    return s

end Reading

/-- The bindings of a function, a handler or the shared top level. -/
abbrev Frame := List (String × SymbolId)

namespace Frame

def declare (frame : Frame) (name : String) : Reading (SymbolId × Frame) := do
  match frame.lookup name with
  | some s => return (s, frame)
  | none =>
    let s ← Reading.createSymbol name false
    return (s, frame ++ [(name, s)])

def declareAll (frame : Frame) : List String → Reading Frame
  | [] => return frame
  | name :: names => do
    let (_, frame) ← frame.declare name
    frame.declareAll names

end Frame

/-- What surrounds a piece of program. -/
structure Scope where
  known : WellKnown
  frames : List Frame
  labels : List (String × SymbolId)

namespace Scope

def resolve (scope : Scope) (name : String) : Reading SymbolId :=
  match scope.frames.findSome? (·.lookup name) with
  | some s => return s
  | none => Reading.globalSymbol name

def enter (scope : Scope) (frame : Frame) : Scope := { scope with frames := frame :: scope.frames }

def enterFunction (scope : Scope) (frame : Frame) : Scope :=
  { scope with frames := frame :: scope.frames, labels := [] }

def withLabel (scope : Scope) (name : String) (s : SymbolId) : Scope :=
  { scope with labels := (name, s) :: scope.labels }

end Scope

end ScriptPress

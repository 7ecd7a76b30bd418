import ScriptPress.Estree.Statement
import ScriptPress.Store.View

/-! # Programs -/

namespace ScriptPress

structure SourceFile where
  name : String
  declaration : Bool
  program : Json

namespace SourceFile

def statements (file : SourceFile) : Except Defect (List Element) := do
  let e ← Element.of file.program
  if e.type ≠ "Program" then throw (e.malformed "type")
  return (← e.list "body").map (·.1)

def memberNames : List String := ["name", "declaration", "program"]

/-- A file in a list of files: an object, or its three members in a row. -/
def of? : Json → Option SourceFile
  | .object members => do
    guard (memberNames.all fun name => members.countP (·.1 == name) ≤ 1)
    let name ← (Json.find? "name" members).bind Json.string?
    let declaration ← match Json.find? "declaration" members with
      | none => some false
      | some flag => flag.bool?
    return ⟨name, declaration, ← Json.find? "program" members⟩
  | .array [.string name, .bool declaration, program] => some ⟨name, declaration, program⟩
  | _ => none

/-- A document is a list of files if it reads as one, and else a single program. -/
def ofDocument (document : Json) : List SourceFile :=
  let single : SourceFile := ⟨"<input>", false, document⟩
  match document with
  | .array items => (items.mapM of?).getD [single]
  | _ => [single]

end SourceFile

abbrev Opened := SourceFile × List Element

namespace Reading

/-- The frame of the shared top level. Names from declaration files become globals. -/
def topLevel (frame : Frame) : List Opened → Reading Frame
  | [] => return frame
  | (file, statements) :: files => do
    let names ← Element.hoistedAll statements
    if file.declaration then
      names.forM fun name => discard (globalSymbol name)
      topLevel frame files
    else topLevel (← frame.declareAll names) files

def modules (known : WellKnown) (files : List SourceFile) : Reading (List (Tree Unit)) := do
  let opened ← files.mapM fun file => return (file, ← file.statements)
  let frame ← topLevel [] opened
  let scope : Scope := ⟨known, [frame], []⟩
  (opened.filter (!·.1.declaration)).mapM fun (_, statements) =>
    return .plain .module (← statements.mapM (Element.statement scope))

def wellKnown : Reading WellKnown := do
  let math ← globalSymbol "Math"
  return ⟨math, ← propertySymbol "pow"⟩

end Reading

/-- A program in a store: one module for each file with code, in order. -/
structure Program where
  known : WellKnown
  store : Store
  modules : List NodeId

namespace Program

def growAll (s : Store) : List (Tree Unit) → List NodeId × Store
  | [] => ([], s)
  | t :: ts =>
    let (n, s) := s.grow t
    let (ns, s) := growAll s ts
    (n :: ns, s)

def ofFiles (files : List SourceFile) : Except Defect Program := do
  let reading : Reading (WellKnown × List (Tree Unit)) := do
    let known ← Reading.wellKnown
    return (known, ← Reading.modules known files)
  let ((known, trees), names) ← reading.run ⟨#[], [], []⟩
  let (modules, store) := growAll ⟨#[], names.symbols⟩ trees
  return ⟨known, store, modules⟩

end Program

end ScriptPress

import ScriptPress.Estree.Program
import ScriptPress.Json.Reader
import ScriptPress.Print.Statement
import ScriptPress.Simplify.Pass
import ScriptPress.Text.Utf8
import ScriptPress.Usage.Constant
import ScriptPress.Usage.Naming

/-! # Compiling -/

namespace ScriptPress

structure Options where
  mode : Mode
  optimize : Bool
  rename : Bool
deriving DecidableEq, Repr

def Options.default : Options := ⟨.normal, true, false⟩

inductive CompileError where
  | encoding (e : Text.Utf8Error)
  | document
  | defect (d : Defect)
  | fault (f : Fault)
deriving DecidableEq

def CompileError.message : CompileError → String
  | encoding e => s!"input is not valid UTF-8: {e.message}"
  | document => "input is not a valid ESTree document: no JSON value"
  | defect d => d.message
  | fault f => f.message

namespace Store

def inlineIn (s : Store) (roots : List NodeId) : Except Fault (Store × Bool) := do
  s.inlineConstants (← s.usages roots)

/-- Simplifies some trees of a store, and tells for each whether anything was changed. -/
def simplifyAll (s : Store) (known : WellKnown) :
    List NodeId → Except Fault (Store × List Bool)
  | [] => return (s, [])
  | n :: ns => do
    let (s, changed) ← s.simplify known n
    let (s, others) ← s.simplifyAll known ns
    return (s, changed :: others)

/-- Inlines and simplifies. Where simplifying has made more constants, both are done again. -/
def optimize (s : Store) (known : WellKnown) (roots : List NodeId) : Except Fault Store := do
  let (s, _) ← s.inlineIn roots
  let (s, _) ← s.simplifyAll known roots
  let (s, inlined) ← s.inlineIn roots
  let (s, _) ← if inlined then s.simplifyAll known roots else pure (s, [])
  roots.forM s.verify
  return s

/-- Shortens the names that occur in some trees of a store, and counts them. -/
def shortenNamesIn (s : Store) (roots : List NodeId) : Except Fault (Store × Nat) :=
  return s.shortenNames (← s.usages roots)

def print (s : Store) (mode : Mode) (n : NodeId) : Except Fault String :=
  (s.tree n).print ⟨mode, s.symbolName⟩

end Store

namespace Program

def optimize (p : Program) : Except Fault Program :=
  return { p with store := ← p.store.optimize p.known p.modules }

def shortenNames (p : Program) : Except Fault Program :=
  return { p with store := (← p.store.shortenNamesIn p.modules).1 }

def print (p : Program) (mode : Mode) : Except Fault String :=
  return String.join (← p.modules.mapM (p.store.print mode))

/-- The text of a program after the steps that the options ask for. -/
def build (p : Program) (options : Options) : Except Fault String := do
  let p ← if options.optimize then p.optimize else pure p
  let p ← if options.rename then p.shortenNames else pure p
  p.print options.mode

end Program

def compile (files : List SourceFile) (options : Options) : Except CompileError String :=
  match Program.ofFiles files with
  | .error d => .error (.defect d)
  | .ok p =>
    match p.build options with
    | .error f => .error (.fault f)
    | .ok text => .ok text

def documentDepth : Nat := 127

def compileBytes (bytes : List UInt8) (options : Options) : Except CompileError String :=
  match Text.decodeUtf8 bytes with
  | .error e => .error (.encoding e)
  | .ok text =>
    match Json.parse? documentDepth text with
    | none => .error .document
    | some document => compile (SourceFile.ofDocument document) options

end ScriptPress

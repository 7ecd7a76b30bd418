import ScriptPress.Command.Path

/-! # A machine in memory -/

namespace ScriptPress.Command

/-- A file that is not stored anywhere. -/
inductive Device where
  | null
  | standardInput | standardOutput | standardError
deriving DecidableEq, Repr

def Device.all : List (Place × Device) :=
  [(["dev", "null"], .null), (["dev", "stdin"], .standardInput),
    (["dev", "stdout"], .standardOutput), (["dev", "stderr"], .standardError)]

inductive Entry where
  | directory
  | file (content : List UInt8)
  | device (d : Device)
deriving DecidableEq

structure Memory where
  input : List UInt8
  files : List (Place × List UInt8)
  output : String
  errors : String

namespace Memory

def workingDirectory : Place := ["tmp", "work"]

def systemDirectories : List String :=
  ["bin", "boot", "dev", "etc", "home", "lib", "media", "mnt", "opt", "proc", "root", "run",
    "sbin", "srv", "sys", "tmp", "usr", "var"]

def ofFiles (input : List UInt8) (files : List (String × List UInt8)) : Memory :=
  ⟨input, files.map fun (name, content) => (workingDirectory.follow name, content), "", ""⟩

def isDirectory (p : Place) : Bool :=
  p.isPrefixOf workingDirectory || p ∈ systemDirectories.map fun name => [name]

def entry? (memory : Memory) (p : Place) : Option Entry :=
  if isDirectory p then some .directory
  else match Device.all.lookup p with
    | some d => some (.device d)
    | none => (memory.files.lookup p).map .file

def lookup (memory : Memory) (directory : Place) (name : String) : Except SystemError Entry :=
  if Path.maxNameLength < name.utf8ByteSize then .error .nameTooLong
  else match memory.entry? (directory.follow name) with
    | some e => .ok e
    | none => .error .missing

def enter (memory : Memory) (directory : Place) (name : String) : Except SystemError Place := do
  match ← memory.lookup directory name with
  | .directory => return directory.follow name
  | _ => throw .notDirectory

/-- The directory in which a path looks for its last name, and that name. A path without names
leads to where it starts. -/
def walk (memory : Memory) (path : Path) : Except SystemError (Place × String) := do
  let start := if path.absolute then [] else workingDirectory
  let directory ← path.names.dropLast.foldlM memory.enter start
  return (directory, path.names.getLast?.getD ".")

def find (memory : Memory) (text : String) : Except SystemError Entry := do
  let path ← Path.of text
  let (directory, name) ← memory.walk path
  let entry ← memory.lookup directory name
  if path.slashed && entry ≠ .directory then throw .notDirectory
  return entry

/-- The file or device that a path leads to, when it is opened to be written. A file that is not
there is made, but a directory is not: slashes behind the last name are refused before it is
looked up. -/
def target (memory : Memory) (text : String) : Except SystemError (Place × Option Device) := do
  let path ← Path.of text
  let (directory, name) ← memory.walk path
  if path.slashed || Place.isDots name then throw .isDirectory
  let place := directory.follow name
  match memory.lookup directory name with
  | .ok .directory => throw .isDirectory
  | .ok (.device d) => return (place, some d)
  | .ok (.file _) | .error .missing => return (place, none)
  | .error e => throw e

def read (memory : Memory) (text : String) : Except ReadError (List UInt8) :=
  match memory.find text with
  | .error e => .error (.opening e)
  | .ok .directory => .error (.reading .isDirectory)
  | .ok (.file content) => .ok content
  | .ok (.device .standardInput) => .ok memory.input
  | .ok (.device _) => .ok []

def write (memory : Memory) (path text : String) : Except SystemError Memory := do
  match ← memory.target path with
  | (place, none) =>
    let others := memory.files.filter (·.1 != place)
    return { memory with files := others ++ [(place, text.toUTF8.toList)] }
  | (_, some .standardOutput) => return { memory with output := memory.output ++ text }
  | (_, some .standardError) => return { memory with errors := memory.errors ++ text }
  | (_, some _) => return memory

def machine : Machine (StateM Memory) where
  standardInput := return .ok (← get).input
  readFile path := return (← get).read path
  writeFile path text := fun memory =>
    match memory.write path text with
    | .ok memory => (.ok (), memory)
    | .error e => (.error e, memory)

/-- Runs the command. What it wrote to devices comes before what it prints itself. -/
def run (memory : Memory) (arguments : List String) : Outcome × Memory :=
  let (outcome, memory) := (Command.run machine arguments).run memory
  (⟨outcome.code, memory.output ++ outcome.output, memory.errors ++ outcome.errors⟩, memory)

end Memory

end ScriptPress.Command

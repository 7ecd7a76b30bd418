import ScriptPress.Command.Line

/-! # Running the command -/

namespace ScriptPress.Command

/-- A refusal of the system, by its number. -/
inductive SystemError where
  | missing | notDirectory | isDirectory | nameTooLong
  | other (text : String) (number : Nat)
deriving DecidableEq, Repr

namespace SystemError

def text : SystemError → String
  | missing => "No such file or directory"
  | notDirectory => "Not a directory"
  | isDirectory => "Is a directory"
  | nameTooLong => "File name too long"
  | other text _ => text

def number : SystemError → Nat
  | missing => 2
  | notDirectory => 20
  | isDirectory => 21
  | nameTooLong => 36
  | other _ number => number

def message (e : SystemError) : String := s!"{e.text} (os error {e.number})"

end SystemError

inductive ReadError where
  | opening (e : SystemError)
  | reading (e : SystemError)
deriving DecidableEq, Repr

def ReadError.message : ReadError → String
  | opening e => s!"failed to open: {e.message}"
  | reading e => s!"failed to read: {e.message}"

structure Machine (m : Type → Type) where
  standardInput : m (Except ReadError (List UInt8))
  readFile : String → m (Except ReadError (List UInt8))
  writeFile : String → String → m (Except SystemError Unit)

/-- What a run leaves behind besides files. -/
structure Outcome where
  code : Nat
  output : String
  errors : String
deriving DecidableEq, Repr

namespace Outcome

def success (output : String) : Outcome := ⟨0, output, ""⟩

def failure (name message : String) : Outcome := ⟨1, "", s!"error: {name}: {message}\n"⟩

end Outcome

def helpLines : List String :=
  ["Optimizes ESTree JSON programs and prints them as JavaScript", "", "Options:",
    "  -i, --input <INPUT>    the document; standard input if left out",
    "  -o, --output <OUTPUT>  the text; standard output if left out",
    "  -m, --minify           leave out white space that is not needed",
    "      --rename           give short names, also at the top level",
    "      --no-optimize      neither put constants in place nor simplify",
    "  -h, --help             print this text"]

def helpText : String := String.join (helpLines.map (· ++ "\n"))

section

variable {m : Type → Type} [Monad m] (machine : Machine m)

def Invocation.run (i : Invocation) : m Outcome := do
  let name := (i.value? .input).getD "<stdin>"
  let input ← match i.value? .input with
    | some path => machine.readFile path
    | none => machine.standardInput
  match input with
  | .error e => return .failure name e.message
  | .ok bytes =>
    match compileBytes bytes i.options with
    | .error e => return .failure name e.message
    | .ok text =>
      match i.value? .output with
      | none => return .success text
      | some path =>
        match ← machine.writeFile path text with
        | .ok () => return .success ""
        | .error e => return .failure path s!"failed to write output: {e.message}"

def run (arguments : List String) : m Outcome := do
  match parse arguments with
  | .ok i => i.run machine
  | .error .help => return .success helpText
  | .error (.usage e) => return ⟨2, "", s!"error: {e.message}\n"⟩

end

end ScriptPress.Command

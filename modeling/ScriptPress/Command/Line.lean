import ScriptPress.Compile

/-! # The command line -/

namespace ScriptPress.Command

inductive Setting where
  | input | output | minify | rename | noOptimize
deriving DecidableEq, Repr

namespace Setting

def all : List Setting := [input, output, minify, rename, noOptimize]

def longName : Setting → String
  | input => "input"
  | output => "output"
  | minify => "minify"
  | rename => "rename"
  | noOptimize => "no-optimize"

def shortName? : Setting → Option Char
  | input => some 'i'
  | output => some 'o'
  | minify => some 'm'
  | rename | noOptimize => none

def takesValue : Setting → Bool
  | input | output => true
  | minify | rename | noOptimize => false

def ofLong? (name : String) : Option Setting := all.find? (·.longName == name)

def ofShort? (c : Char) : Option Setting := all.find? (·.shortName? == some c)

end Setting

inductive UsageError where
  | unexpected (argument : String)
  | missingValue (option : Setting)
  | uselessValue (option : String)
  | repeated (option : Setting)
deriving DecidableEq, Repr

def UsageError.message : UsageError → String
  | unexpected argument => s!"unexpected argument '{argument}' found"
  | missingValue option => s!"a value is required for '--{option.longName}'"
  | uselessValue option => s!"no value is allowed for '--{option}'"
  | repeated option => s!"the option '--{option.longName}' cannot be used twice"

/-- The options that were given, each with its value; flags have an empty one. -/
structure Invocation where
  given : List (Setting × String)
deriving DecidableEq, Repr

namespace Invocation

def has (i : Invocation) (s : Setting) : Bool := i.given.any (·.1 == s)

def value? (i : Invocation) (s : Setting) : Option String := i.given.lookup s

def options (i : Invocation) : Options :=
  ⟨if i.has .minify then .minified else .normal, !i.has .noOptimize, i.has .rename⟩

end Invocation

/-- Why reading the command line ends early. -/
inductive Stop where
  | help
  | usage (e : UsageError)
deriving DecidableEq, Repr

structure Parsing where
  invocation : Invocation
  pending : Option Setting
  closed : Bool
deriving DecidableEq, Repr

namespace Parsing

def start : Parsing := ⟨⟨[]⟩, none, false⟩

def expectNonePending (p : Parsing) : Except Stop Unit :=
  match p.pending with
  | some s => .error (.usage (.missingValue s))
  | none => .ok ()

def give (p : Parsing) (s : Setting) (value : String) : Except Stop Parsing :=
  if p.invocation.has s then .error (.usage (.repeated s))
  else .ok ⟨⟨p.invocation.given ++ [(s, value)]⟩, none, p.closed⟩

def giveValue (p : Parsing) (s : Setting) (value : String) : Except Stop Parsing :=
  if value.isEmpty then .error (.usage (.missingValue s)) else p.give s value

/-- An option without a value behind it: a flag, or one that waits. -/
def begin (p : Parsing) (s : Setting) : Except Stop Parsing :=
  if s.takesValue then .ok { p with pending := some s } else p.give s ""

def long (p : Parsing) (argument name : String) (value : Option String) : Except Stop Parsing := do
  match Setting.ofLong? name with
  | some s =>
    p.expectNonePending
    match value with
    | none => p.begin s
    | some v => if s.takesValue then p.giveValue s v else throw (.usage (.uselessValue name))
  | none =>
    if name ≠ "help" then throw (.usage (.unexpected argument))
    p.expectNonePending
    if value.isSome then throw (.usage (.uselessValue name))
    throw .help

/-- A cluster of short options. The first that takes a value takes all that follows it. -/
def cluster (p : Parsing) (argument : String) : List Char → Except Stop Parsing
  | [] => .ok p
  | c :: cs => do
    match Setting.ofShort? c with
    | some s =>
      p.expectNonePending
      match s.takesValue, cs with
      | false, _ => (← p.give s "").cluster argument cs
      | true, [] => p.begin s
      | true, '=' :: value => p.giveValue s (String.ofList value)
      | true, value => p.giveValue s (String.ofList value)
    | none =>
      if c ≠ 'h' then throw (.usage (.unexpected argument))
      p.expectNonePending
      throw .help

def plain (p : Parsing) (argument : String) : Except Stop Parsing :=
  match p.pending with
  | some s => p.giveValue s argument
  | none => .error (.usage (.unexpected argument))

def step (p : Parsing) (argument : String) : Except Stop Parsing :=
  if p.closed then .error (.usage (.unexpected argument))
  else
    match argument.toList with
    | ['-', '-'] => .ok { p with closed := true }
    | '-' :: '-' :: cs =>
      let name := String.ofList (cs.takeWhile (· ≠ '='))
      match cs.dropWhile (· ≠ '=') with
      | [] => p.long argument name none
      | _ :: value => p.long argument name (some (String.ofList value))
    | ['-'] => p.plain argument
    | '-' :: cs => p.cluster argument cs
    | _ => p.plain argument

def finish (p : Parsing) : Except Stop Invocation := do
  p.expectNonePending
  return p.invocation

end Parsing

def parse (arguments : List String) : Except Stop Invocation := do
  (← arguments.foldlM Parsing.step Parsing.start).finish

end ScriptPress.Command

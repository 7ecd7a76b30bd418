import ScriptPress.Json.Basic
import ScriptPress.Json.Token

/-! # Reading JSON -/

namespace ScriptPress.Json

/-- An open value: its finished part, last first. -/
inductive Frame where
  | array (items : List Json)
  | object (members : List (String × Json))
  | member (members : List (String × Json)) (name : String)

inductive Expect where
  | value
  | item
  | name
  | nextName
  | colon
  | more
  | nothing (result : Json)

structure Reader where
  stack : List Frame
  expect : Expect

namespace Reader

def start : Reader := ⟨[], .value⟩

def deliver (stack : List Frame) (v : Json) : Option Reader :=
  match stack with
  | [] => some ⟨[], .nothing v⟩
  | .array items :: rest => some ⟨.array (v :: items) :: rest, .more⟩
  | .member members name :: rest => some ⟨.object ((name, v) :: members) :: rest, .more⟩
  | .object _ :: _ => none

def open? (limit : Nat) (stack : List Frame) (frame : Frame) (expect : Expect) : Option Reader :=
  if stack.length < limit then some ⟨frame :: stack, expect⟩ else none

def begin (limit : Nat) (stack : List Frame) : Token → Option Reader
  | .openArray => open? limit stack (.array []) .item
  | .openObject => open? limit stack (.object []) .name
  | .null => deliver stack .null
  | .bool b => deliver stack (.bool b)
  | .number x => deliver stack (.number x)
  | .string s => deliver stack (.string s)
  | _ => none

def close (stack : List Frame) (t : Token) : Option Reader :=
  match stack, t with
  | .array items :: rest, .closeArray => deliver rest (.array items.reverse)
  | .object members :: rest, .closeObject => deliver rest (.object members.reverse)
  | _, _ => none

def takeName (stack : List Frame) (t : Token) : Option Reader :=
  match stack, t with
  | .object members :: rest, .string name => some ⟨.member members name :: rest, .colon⟩
  | _, _ => none

def step (limit : Nat) (r : Reader) (t : Token) : Option Reader :=
  match r.expect, t with
  | .value, t => begin limit r.stack t
  | .item, .closeArray => close r.stack t
  | .item, t => begin limit r.stack t
  | .name, .closeObject => close r.stack t
  | .name, t => takeName r.stack t
  | .nextName, t => takeName r.stack t
  | .colon, .colon => some { r with expect := .value }
  | .colon, _ => none
  | .more, .comma =>
    match r.stack with
    | .array _ :: _ => some { r with expect := .value }
    | .object _ :: _ => some { r with expect := .nextName }
    | _ => none
  | .more, t => close r.stack t
  | .nothing _, _ => none

def result? (r : Reader) : Option Json :=
  match r.expect with
  | .nothing v => some v
  | _ => none

end Reader

/-- The value that a text denotes, with at most `limit` values open at a time. -/
def parse? (limit : Nat) (s : List Char) : Option Json := do
  (← (← tokens? s).foldlM (Reader.step limit) Reader.start).result?

end ScriptPress.Json

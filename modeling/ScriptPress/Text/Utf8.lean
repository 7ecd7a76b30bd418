/-! # UTF-8 -/

namespace ScriptPress.Text

inductive Utf8Error where
  | invalid (index length : Nat)
  | incomplete (index : Nat)
deriving DecidableEq, Repr

def Utf8Error.message : Utf8Error → String
  | invalid index length => s!"invalid utf-8 sequence of {length} bytes from index {index}"
  | incomplete index => s!"incomplete utf-8 byte sequence from index {index}"

/-- What the first byte of a character says: the bytes that follow and the range of the next one.
Ranges leave out longer encodings than needed, surrogates and numbers beyond the last character. -/
def following? (b : Nat) : Option (Nat × Nat × Nat) :=
  if b < 0x80 then some (0, 0x80, 0xbf)
  else if b < 0xc2 then none
  else if b < 0xe0 then some (1, 0x80, 0xbf)
  else if b = 0xe0 then some (2, 0xa0, 0xbf)
  else if b = 0xed then some (2, 0x80, 0x9f)
  else if b < 0xf0 then some (2, 0x80, 0xbf)
  else if b = 0xf0 then some (3, 0x90, 0xbf)
  else if b < 0xf4 then some (3, 0x80, 0xbf)
  else if b = 0xf4 then some (3, 0x80, 0x8f)
  else none

def leadBits (b count : Nat) : Nat := if count = 0 then b else b % Nat.pow 2 (6 - count)

/-- A decoder between two bytes: the index of the next byte, and the character that is being read,
if any. -/
structure Decoder where
  index : Nat
  needed : Nat
  least : Nat
  greatest : Nat
  taken : Nat
  code : Nat
  read : List Char

namespace Decoder

def start : Decoder := ⟨0, 0, 0x80, 0xbf, 0, 0, []⟩

def begin (d : Decoder) (b : Nat) : Except Utf8Error Decoder :=
  match following? b with
  | none => .error (.invalid d.index 1)
  | some (0, _, _) => .ok { d with index := d.index + 1, read := Char.ofNat b :: d.read }
  | some (count, least, greatest) =>
    .ok ⟨d.index + 1, count, least, greatest, 1, leadBits b count, d.read⟩

def step (d : Decoder) (b : Nat) : Except Utf8Error Decoder :=
  if d.needed = 0 then d.begin b
  else if b < d.least || d.greatest < b then .error (.invalid (d.index - d.taken) d.taken)
  else
    let code := d.code * 64 + b % 64
    if d.needed = 1 then
      .ok { start with index := d.index + 1, read := Char.ofNat code :: d.read }
    else .ok ⟨d.index + 1, d.needed - 1, 0x80, 0xbf, d.taken + 1, code, d.read⟩

def finish (d : Decoder) : Except Utf8Error (List Char) :=
  if d.needed = 0 then .ok d.read.reverse else .error (.incomplete (d.index - d.taken))

end Decoder

def decodeUtf8 (bytes : List UInt8) : Except Utf8Error (List Char) := do
  (← bytes.foldlM (fun d b => d.step b.toNat) Decoder.start).finish

end ScriptPress.Text

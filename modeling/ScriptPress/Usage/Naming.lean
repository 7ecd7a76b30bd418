import ScriptPress.Store.Basic
import ScriptPress.Text.Identifier
import ScriptPress.Usage.Basic

/-! # Short names -/

namespace ScriptPress

namespace Text

def reservedWords : List String :=
  ["arguments", "await", "break", "case", "catch", "class", "const", "continue", "debugger",
    "default", "delete", "do", "else", "enum", "eval", "export", "extends", "false", "finally",
    "for", "function", "if", "implements", "import", "in", "Infinity", "instanceof", "interface",
    "let", "NaN", "new", "null", "package", "private", "protected", "public", "return", "static",
    "super", "switch", "this", "throw", "true", "try", "typeof", "undefined", "var", "void",
    "while", "with", "yield"]

/-- The rank of the first name at or after a rank that is not forbidden, looking at most at
`fuel` names. Names of different ranks differ, so no more have to be looked at than are
forbidden. -/
def freeIndexWithin (forbidden : List String) : Nat → Nat → Nat
  | 0, i => i
  | fuel + 1, i =>
    if nthName i ∈ forbidden then freeIndexWithin forbidden fuel (i + 1) else i

def freeIndex (forbidden : List String) (i : Nat) : Nat :=
  freeIndexWithin forbidden forbidden.length i

def freeNames (forbidden : List String) : Nat → Nat → List String
  | 0, _ => []
  | count + 1, i =>
    let j := freeIndex forbidden i
    nthName j :: freeNames forbidden count (j + 1)

end Text

namespace Store

variable {α : Type}

def precedes (a b : SymbolId × Usage α) : Bool :=
  b.2.count < a.2.count || (a.2.count == b.2.count && a.1.index ≤ b.1.index)

/-- The scanned symbols that may be renamed, in the order in which they choose names. -/
def renamingOrder (s : Store) (usages : Usages α) : List SymbolId :=
  ((usages.filter fun entry => !s.isPinned entry.1).mergeSort precedes).map Prod.fst

def pinnedNames (s : Store) : List String :=
  (s.symbols.toList.filter Symbol.pinned).map Symbol.name

/-- Gives short names to the scanned symbols that are not pinned, and tells how many there are. -/
def shortenNames (s : Store) (usages : Usages α) : Store × Nat :=
  let order := s.renamingOrder usages
  let names := Text.freeNames (Text.reservedWords ++ s.pinnedNames) order.length 0
  ((order.zip names).foldl (fun s (symbol, name) => s.renameSymbol symbol name) s, order.length)

end Store

end ScriptPress

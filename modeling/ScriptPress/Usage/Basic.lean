import ScriptPress.Tree.Part

/-! # Occurrences of symbols -/

namespace ScriptPress

inductive Access where
  | read | write
deriving DecidableEq, Repr

structure Occurrence (α : Type) where
  symbol : SymbolId
  access : Access
  mark : α

namespace Tree

variable {α : Type}

mutual

/-- The occurrences in a tree; `target` says that the tree is what an assignment writes to. -/
def occurrences (target : Bool) : Tree α → Except Fault (List (Occurrence α))
  | node m kind cs =>
    let inPart (p : Part) (target : Bool) :=
      occurrencesAt (p.missingFrom kind) target p.position cs
    match kind with
    | .identifier s => .ok [⟨s, if target then .write else .read, m⟩]
    | .member s => do
      let object ← inPart Part.memberObject false
      return if target then object ++ [⟨s, .write, m⟩] else ⟨s, .read, m⟩ :: object
    | .break (some s) | .continue (some s) => .ok [⟨s, .read, m⟩]
    | .function s | .label s | .property s | .variable s | .catch s => do
      return ⟨s, .write, m⟩ :: (← allOccurrences cs)
    | .unary op => if op.isAssign then inPart Part.unaryOperand true else allOccurrences cs
    | .assign _ => do
      return (← inPart Part.leftOperand true) ++ (← inPart Part.rightOperand false)
    | .forIn => do
      return (← inPart Part.forInSetup true) ++ (← inPart Part.forInValue false) ++
        (← inPart Part.forInBody false)
    | _ => allOccurrences cs

def allOccurrences : List (Tree α) → Except Fault (List (Occurrence α))
  | [] => .ok []
  | c :: cs => do return (← occurrences false c) ++ (← allOccurrences cs)

def occurrencesAt (missing : Fault) (target : Bool) :
    Nat → List (Tree α) → Except Fault (List (Occurrence α))
  | _, [] => .error missing
  | 0, c :: _ => occurrences target c
  | i + 1, _ :: cs => occurrencesAt missing target i cs

end

end Tree

/-- Where one symbol is read and written, in order of visit. -/
structure Usage (α : Type) where
  reads : List α
  writes : List α

def Usage.count {α : Type} (u : Usage α) : Nat := u.reads.length + u.writes.length

/-- The usages of all symbols that occur, in order of creation of the symbols. -/
abbrev Usages (α : Type) := List (SymbolId × Usage α)

namespace Usages

variable {α : Type}

def single (o : Occurrence α) : Usage α :=
  match o.access with
  | .read => ⟨[o.mark], []⟩
  | .write => ⟨[], [o.mark]⟩

def merge (u v : Usage α) : Usage α := ⟨u.reads ++ v.reads, u.writes ++ v.writes⟩

def record (o : Occurrence α) : Usages α → Usages α
  | [] => [(o.symbol, single o)]
  | (s, u) :: rest =>
    if o.symbol.index < s.index then (o.symbol, single o) :: (s, u) :: rest
    else if o.symbol = s then (s, merge u (single o)) :: rest
    else (s, u) :: record o rest

def ofOccurrences (os : List (Occurrence α)) : Usages α := os.foldl (fun us o => record o us) []

def ofTrees (trees : List (Tree α)) : Except Fault (Usages α) := do
  return ofOccurrences (← trees.mapM (Tree.occurrences false)).flatten

def get? (us : Usages α) (symbol : SymbolId) : Option (Usage α) :=
  (us.find? fun entry => entry.1 = symbol).map Prod.snd

end Usages

end ScriptPress

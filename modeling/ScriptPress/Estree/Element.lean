import ScriptPress.Json.Basic

/-! # Elements of a program document -/

namespace ScriptPress

/-- Why a document is not a program that can be compiled. -/
inductive Defect where
  | unsupported (construct : String)
  | malformed (construct field : String)
deriving DecidableEq, Repr

def Defect.message : Defect → String
  | unsupported construct => s!"unsupported construct: {construct}"
  | malformed construct field => s!"malformed {construct} node: bad or missing `{field}`"

structure Element where
  type : String
  fields : List (String × Json)

namespace Element

noncomputable def size (e : Element) : Nat := sizeOf e.fields

abbrev Child (e : Element) := { c : Element // c.size < e.size }

def of (j : Json) : Except Defect Element :=
  match j with
  | .object fields =>
    match Json.find? "type" fields with
    | some (.string type) => .ok ⟨type, fields⟩
    | _ => .error (.malformed "node" "type")
  | _ => .error (.malformed "node" "type")

theorem size_of {j : Json} {e : Element} (h : of j = .ok e) : e.size < sizeOf j := by
  unfold of at h
  split at h
  · split at h
    · cases h
      simp only [size, Json.object.sizeOf_spec]
      omega
    · cases h
  · cases h

def malformed (e : Element) (field : String) : Defect := .malformed e.type field

def unsupported (e : Element) : Defect := .unsupported e.type

def field? (e : Element) (name : String) : Option Json := Json.find? name e.fields

theorem sizeOf_field? {e : Element} {name : String} {v : Json} (h : e.field? name = some v) :
    sizeOf v < e.size := Json.sizeOf_lt_of_find? h

def child (e : Element) (v : Json) (h : sizeOf v < e.size) : Except Defect e.Child :=
  match hc : of v with
  | .ok c => .ok ⟨c, Nat.lt_trans (size_of hc) h⟩
  | .error d => .error d

def optional (e : Element) (name : String) : Except Defect (Option e.Child) :=
  match h : e.field? name with
  | none | some .null => .ok none
  | some v => do return some (← e.child v (sizeOf_field? h))

def node (e : Element) (name : String) : Except Defect e.Child := do
  match ← e.optional name with
  | some c => return c
  | none => throw (e.malformed name)

def children (e : Element) : (items : List Json) → sizeOf items ≤ e.size →
    Except Defect (List (Option e.Child))
  | [], _ => .ok []
  | item :: items, h => do
    have hitem : sizeOf item < e.size := by
      simp only [List.cons.sizeOf_spec] at h
      omega
    have hitems : sizeOf items ≤ e.size := by
      simp only [List.cons.sizeOf_spec] at h
      omega
    let first ← if item.isNull then .ok none else some <$> e.child item hitem
    return first :: (← e.children items hitems)

def nodes (e : Element) (name : String) : Except Defect (List (Option e.Child)) :=
  match h : e.field? name with
  | some (.array items) => e.children items (by
      have := sizeOf_field? h
      simp only [Json.array.sizeOf_spec] at this
      omega)
  | _ => .error (e.malformed name)

def list (e : Element) (name : String) : Except Defect (List e.Child) := do
  (← e.nodes name).mapM fun
    | some c => .ok c
    | none => .error (e.malformed name)

def text (e : Element) (name : String) : Except Defect String :=
  match (e.field? name).bind Json.string? with
  | some s => .ok s
  | none => .error (e.malformed name)

def optionalText (e : Element) (name : String) : Option String :=
  (e.field? name).bind Json.string?

def value? (e : Element) (name : String) : Option Json := (e.field? name).filter (!·.isNull)

def flag (e : Element) (name : String) : Bool :=
  ((e.field? name).bind Json.bool?).getD false

def identifierName (e : Element) : Except Defect String :=
  if e.type = "Identifier" then e.text "name" else .error e.unsupported

def Child.below {e : Element} (c : e.Child) (d : c.1.Child) : e.Child :=
  ⟨d.1, Nat.lt_trans d.2 c.2⟩

end Element

end ScriptPress

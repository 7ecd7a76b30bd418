/-! # JSON values -/

namespace ScriptPress

inductive Json where
  | null
  | bool (b : Bool)
  | number (x : Float)
  | string (s : String)
  | array (items : List Json)
  | object (members : List (String × Json))

namespace Json

def find? (name : String) : List (String × Json) → Option Json
  | [] => none
  | (n, v) :: rest =>
    match find? name rest with
    | some later => some later
    | none => if n = name then some v else none

theorem sizeOf_lt_of_find? {name : String} {members : List (String × Json)} {v : Json}
    (h : find? name members = some v) : sizeOf v < sizeOf members := by
  induction members with
  | nil => cases h
  | cons member rest ih =>
    obtain ⟨n, w⟩ := member
    simp only [List.cons.sizeOf_spec, Prod.mk.sizeOf_spec]
    unfold find? at h
    split at h
    · rename_i later hlater
      cases h
      have := ih hlater
      omega
    · split at h
      · cases h
        omega
      · cases h

def get? (j : Json) (name : String) : Option Json :=
  match j with
  | object members => find? name members
  | _ => none

def string? : Json → Option String
  | string s => some s
  | _ => none

def bool? : Json → Option Bool
  | bool b => some b
  | _ => none

def isNull : Json → Bool
  | null => true
  | _ => false

end Json

end ScriptPress

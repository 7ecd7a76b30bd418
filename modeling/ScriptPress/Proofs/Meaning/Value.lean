import ScriptPress.Simplify.Fold

/-! # Values and operators -/

namespace ScriptPress

open Option Text Number

namespace Text

/-- The text that a sequence of code units spells, unless a surrogate in it has no partner. -/
def ofUnits? : List Nat → Option (List Char)
  | [] => some []
  | u :: us =>
    if 0xd800 ≤ u ∧ u < 0xdc00 then
      match us with
      | [] => none
      | v :: vs =>
        if 0xdc00 ≤ v ∧ v < 0xe000 then
          (ofUnits? vs).map (Char.ofNat (0x10000 + (u - 0xd800) * 0x400 + (v - 0xdc00)) :: ·)
        else none
    else if 0xdc00 ≤ u ∧ u < 0xe000 then none
    else (ofUnits? us).map (Char.ofNat u :: ·)

theorem ofUnits_plain {u : Nat} (us : List Nat) (h : u < 0xd800 ∨ 0xdfff < u) :
    ofUnits? (u :: us) = (ofUnits? us).map (Char.ofNat u :: ·) := by
  rw [ofUnits?.eq_def]
  simp only
  rw [if_neg (by omega), if_neg (by omega)]

theorem ofUnits_pair {x y : Nat} (us : List Nat) (hx : x < 0x400) (hy : y < 0x400) :
    ofUnits? ((0xd800 + x) :: (0xdc00 + y) :: us) =
      (ofUnits? us).map (Char.ofNat (0x10000 + x * 0x400 + y) :: ·) := by
  rw [ofUnits?.eq_def]
  simp only
  rw [if_pos (by omega), if_pos (by omega), Nat.add_sub_cancel_left, Nat.add_sub_cancel_left]

theorem ofUnits_flatMap (cs : List Char) : ofUnits? (cs.flatMap unitsOfChar) = some cs := by
  induction cs with
  | nil => rfl
  | cons c cs ih =>
    have hvalid : c.toNat < 0xd800 ∨ 0xdfff < c.toNat ∧ c.toNat < 0x110000 := c.valid
    rw [List.flatMap_cons, unitsOfChar]
    by_cases hc : c.toNat < 0x10000
    · -- A character of the basic plane is no surrogate.
      rw [if_pos hc, List.singleton_append, ofUnits_plain _ (by omega), ih, Char.ofNat_toNat]
      rfl
    · have hsum : 0x10000 + (c.toNat - 0x10000) / 0x400 * 0x400 + (c.toNat - 0x10000) % 0x400 =
          c.toNat := by omega
      rw [if_neg hc]
      show ofUnits? (_ :: _ :: cs.flatMap unitsOfChar) = _
      rw [ofUnits_pair _ (by omega) (by omega), ih, hsum, Char.ofNat_toNat]
      rfl

theorem units_inj {a b : String} (h : units a = units b) : a = b := by
  have ha := ofUnits_flatMap a.toList
  have hb := ofUnits_flatMap b.toList
  unfold units at h
  rw [h, hb, some.injEq] at ha
  exact String.toList_inj.mp ha.symm

theorem units_append (a b : String) : units (a ++ b) = units a ++ units b := by
  simp [units]

end Text

def Number.ofUnits (us : List Nat) : Float :=
  match ofUnits? us with
  | some s => ofText (String.ofList s)
  | none => nan

theorem Number.ofUnits_units (s : String) : ofUnits (units s) = ofText s := by
  rw [ofUnits, units, ofUnits_flatMap]
  simp

inductive Primitive where
  | undefined
  | null
  | boolean (value : Bool)
  | number (value : Float)
  | string (units : List Nat)

namespace Primitive

def isNullish : Primitive → Bool
  | undefined | null => true
  | _ => false

def isText : Primitive → Bool
  | string _ => true
  | _ => false

def truth : Primitive → Bool
  | undefined | null => false
  | boolean b => b
  | number x => x != 0 && !x.isNaN
  | string us => !us.isEmpty

def toNumber : Primitive → Float
  | undefined => nan
  | null => 0
  | boolean b => if b then 1 else 0
  | number x => x
  | string us => ofUnits us

def text : Primitive → List Nat
  | undefined => units "undefined"
  | null => units "null"
  | boolean b => units (if b then "true" else "false")
  | number x => units (spelled x)
  | string us => us

def typeName : Primitive → String
  | undefined => "undefined"
  | null => "object"
  | boolean _ => "boolean"
  | number _ => "number"
  | string _ => "string"

def looseEquals (p q : Primitive) : Bool :=
  if p.isNullish || q.isNullish then p.isNullish && q.isNullish
  else match p, q with
    | string a, string b => a == b
    | _, _ => p.toNumber == q.toNumber

def strictEquals : Primitive → Primitive → Bool
  | undefined, undefined | null, null => true
  | boolean a, boolean b => a == b
  | number a, number b => a == b
  | string a, string b => a == b
  | _, _ => false

/-- Two strings are ordered by code units, all else as numbers; not-a-number has no order. -/
def order (p q : Primitive) : Option Ordering :=
  match p, q with
  | string a, string b => some (compareUnits a b)
  | _, _ => Kind.compareNumbers p.toNumber q.toNumber

def sum (p q : Primitive) : Primitive :=
  if p.isText || q.isText then string (p.text ++ q.text) else number (p.toNumber + q.toNumber)

end Primitive

inductive Value (ω : Type) where
  | primitive (p : Primitive)
  | object (o : ω)

namespace Value

variable {ω : Type}

abbrev undefined : Value ω := primitive .undefined

abbrev boolean (b : Bool) : Value ω := primitive (.boolean b)

abbrev number (x : Float) : Value ω := primitive (.number x)

abbrev text (s : String) : Value ω := primitive (.string (units s))

def truth : Value ω → Bool
  | primitive p => p.truth
  | object _ => true

end Value

/-- What a conversion to a primitive value is wanted for. -/
inductive Hint where
  | default | number
deriving DecidableEq

/-- How operators see objects: functions without effects, but otherwise arbitrary. -/
structure Objects (ω : Type) where
  toPrimitive : Hint → ω → Primitive
  typeName : ω → String
  identical : ω → ω → Bool
  contains : Value ω → Value ω → Bool
  isInstance : Value ω → Value ω → Bool

namespace Objects

variable {ω : Type} (O : Objects ω)

def convert (hint : Hint) : Value ω → Primitive
  | .primitive p => p
  | .object o => O.toPrimitive hint o

def toNumber (v : Value ω) : Float := (O.convert .number v).toNumber

def looseEquals : Value ω → Value ω → Bool
  | .primitive p, .primitive q => p.looseEquals q
  | .object a, .object b => O.identical a b
  | .object a, .primitive q => !q.isNullish && (O.toPrimitive .default a).looseEquals q
  | .primitive p, .object b => !p.isNullish && p.looseEquals (O.toPrimitive .default b)

def strictEquals : Value ω → Value ω → Bool
  | .primitive p, .primitive q => p.strictEquals q
  | .object a, .object b => O.identical a b
  | _, _ => false

/-- The unary operators that neither assign nor delete; the others have no value here. -/
def unary (op : UnaryOp) (v : Value ω) : Value ω :=
  match op with
  | .not => .boolean !v.truth
  | .negative => .number (-O.toNumber v)
  | .positive => .number (O.toNumber v)
  | .complement => .number (Float.ofInt (~~~toInt32 (O.toNumber v)).toInt)
  | .typeOf => .text (match v with
    | .primitive p => p.typeName
    | .object o => O.typeName o)
  | _ => .undefined

def arithmetic (f : Float → Float → Float) (v w : Value ω) : Value ω :=
  .number (f (O.toNumber v) (O.toNumber w))

def words (f : Int32 → Int32 → Int32) : Value ω → Value ω → Value ω :=
  O.arithmetic fun a b => Float.ofInt (f (toInt32 a) (toInt32 b)).toInt

def compares (holds : Ordering → Bool) (v w : Value ω) : Value ω :=
  .boolean (((O.convert .number v).order (O.convert .number w)).any holds)

def binary (op : BinaryOp) (v w : Value ω) : Value ω :=
  match op with
  | .add => .primitive ((O.convert .default v).sum (O.convert .default w))
  | .subtract => O.arithmetic (· - ·) v w
  | .multiply => O.arithmetic (· * ·) v w
  | .divide => O.arithmetic (· / ·) v w
  | .remainder => O.arithmetic remainder v w
  | .bitwiseAnd => O.words (· &&& ·) v w
  | .bitwiseOr => O.words (· ||| ·) v w
  | .bitwiseXor => O.words (· ^^^ ·) v w
  | .shiftLeft => O.words (· <<< ·) v w
  | .shiftRight => O.words (· >>> ·) v w
  | .shiftRightUnsigned => O.arithmetic
      (fun a b => Float.ofNat (toUInt32 a >>> toUInt32 b).toNat) v w
  | .equal => .boolean (O.looseEquals v w)
  | .notEqual => .boolean !O.looseEquals v w
  | .equalStrict => .boolean (O.strictEquals v w)
  | .notEqualStrict => .boolean !O.strictEquals v w
  | .lessThan => O.compares (· == .lt) v w
  | .lessThanEqual => O.compares (· != .gt) v w
  | .greaterThan => O.compares (· == .gt) v w
  | .greaterThanEqual => O.compares (· != .lt) v w
  | .in => .boolean (O.contains v w)
  | .instanceOf => .boolean (O.isInstance v w)
  | .logicalAnd | .logicalOr => .undefined

end Objects

namespace Kind

def value? : Kind → Option Primitive
  | undefined => some .undefined
  | null => some .null
  | boolean b => some (.boolean b)
  | number x => some (.number x)
  | string s => some (.string (units s))
  | _ => none

theorem value_of_isLiteral {k : Kind} (h : k.isLiteral) : ∃ p, k.value? = some p := by
  cases k <;> first | exact ⟨_, rfl⟩ | cases h

variable {k l r : Kind} {p q : Primitive}

theorem truth_of_value (h : k.value? = some p) : k.truth? = some p.truth := by
  cases k with
  | string s =>
    cases h
    have hempty : (units s).isEmpty = (s == "") := by
      rw [Bool.eq_iff_iff, List.isEmpty_iff, beq_iff_eq]
      refine ⟨fun h => units_inj h, ?_⟩
      rintro rfl
      rfl
    rw [truth?, Primitive.truth, hempty]
    rfl
  | _ => cases h <;> rfl

theorem number_of_value (h : k.value? = some p) : k.number? = some p.toNumber := by
  cases k with
  | string s =>
    cases h
    rw [number?, Primitive.toNumber, ofUnits_units]
  | _ => cases h <;> rfl

theorem text_of_value (h : k.value? = some p) : ∃ s, k.text? = some s ∧ units s = p.text := by
  cases k <;> cases h <;> exact ⟨_, rfl, rfl⟩

theorem isNullish_of_value (h : k.value? = some p) : k.isNullish = p.isNullish := by
  cases k <;> cases h <;> rfl

theorem isText_of_value (h : k.value? = some p) : k.isText = p.isText := by
  cases k <;> cases h <;> rfl

theorem units_beq (a b : String) : (units a == units b) = (a == b) := by
  rw [Bool.eq_iff_iff, beq_iff_eq, beq_iff_eq]
  exact ⟨units_inj, fun h => by rw [h]⟩

theorem looseEquals_of_value (hk : k.value? = some p) (hl : l.value? = some q) :
    looseEquals? k l = some (p.looseEquals q) := by
  unfold looseEquals? Primitive.looseEquals
  rw [isNullish_of_value hk, isNullish_of_value hl]
  split
  · rfl
  · rw [number_of_value hk, number_of_value hl]
    cases k <;> cases hk <;> cases l <;> cases hl <;>
      first | rfl | exact congrArg some (units_beq _ _).symm

theorem strictEquals_of_value (hk : k.value? = some p) (hl : l.value? = some q) :
    strictEquals? k l = some (p.strictEquals q) := by
  cases k <;> cases hk <;> cases l <;> cases hl <;>
    first | rfl | exact congrArg some (units_beq _ _).symm

theorem compare_of_value (hk : k.value? = some p) (hl : l.value? = some q) :
    compare? k l = p.order q := by
  unfold compare? Primitive.order
  rw [number_of_value hk, number_of_value hl]
  cases k <;> cases hk <;> cases l <;> cases hl <;> rfl

theorem foldNumbers_of_value {f : Float → Float → Float} (hk : k.value? = some p)
    (hl : l.value? = some q) : foldNumbers f k l = some (number (f p.toNumber q.toNumber)) := by
  rw [foldNumbers, number_of_value hk, number_of_value hl]
  rfl

theorem foldSum_of_value (hk : k.value? = some p) (hl : l.value? = some q)
    (h : foldSum k l = some r) : r.value? = some (p.sum q) := by
  unfold foldSum at h
  rw [isText_of_value hk, isText_of_value hl] at h
  unfold Primitive.sum
  split at h
  · rename_i htext
    rw [if_pos htext]
    obtain ⟨a, ha, hap⟩ := text_of_value hk
    obtain ⟨b, hb, hbq⟩ := text_of_value hl
    rw [ha, hb] at h
    cases h
    rw [value?, units_append, hap, hbq]
  · rename_i htext
    rw [if_neg htext]
    rw [foldNumbers_of_value hk hl] at h
    cases h
    rfl

theorem foldBinary_of_value {ω : Type} (O : Objects ω) {op : BinaryOp} (hk : k.value? = some p)
    (hl : l.value? = some q) (h : foldBinary op k l = some r) :
    ∃ v, r.value? = some v ∧ O.binary op (.primitive p) (.primitive q) = .primitive v := by
  cases op with
  | add => exact ⟨_, foldSum_of_value hk hl h, rfl⟩
  | equal | notEqual =>
    simp only [foldBinary, looseEquals_of_value hk hl, map_some, some.injEq] at h
    subst h
    exact ⟨_, rfl, rfl⟩
  | equalStrict | notEqualStrict =>
    simp only [foldBinary, strictEquals_of_value hk hl, map_some, some.injEq] at h
    subst h
    exact ⟨_, rfl, rfl⟩
  | lessThan | lessThanEqual | greaterThan | greaterThanEqual =>
    simp only [foldBinary, foldOrder, compare_of_value hk hl, some.injEq] at h
    subst h
    exact ⟨_, rfl, rfl⟩
  | «in» | instanceOf | logicalAnd | logicalOr => cases h
  | _ =>
    simp only [foldBinary, foldWords, foldUnsignedShift, foldNumbers_of_value hk hl,
      some.injEq] at h
    subst h
    exact ⟨_, rfl, rfl⟩

theorem foldUnary_of_value {ω : Type} (O : Objects ω) {op : UnaryOp} (hk : k.value? = some p)
    (h : foldUnary op k = some r) :
    ∃ v, r.value? = some v ∧ O.unary op (.primitive p) = .primitive v := by
  cases op with
  | not =>
    simp only [foldUnary, truth_of_value hk, map_some, some.injEq] at h
    subst h
    exact ⟨_, rfl, rfl⟩
  | negative | positive | complement =>
    simp only [foldUnary, number_of_value hk, map_some, some.injEq] at h
    subst h
    exact ⟨_, rfl, rfl⟩
  | _ => cases h

end Kind

end ScriptPress

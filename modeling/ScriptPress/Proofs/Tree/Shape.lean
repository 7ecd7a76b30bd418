import Mathlib.Data.List.Forall2
import ScriptPress.Tree.Shape

/-! # Well-shaped trees as a proposition -/

namespace ScriptPress

open List

theorem exists_of_bind_eq_ok {ε α β : Type} {x : Except ε α} {f : α → Except ε β} {b : β}
    (h : x >>= f = .ok b) : ∃ a, x = .ok a ∧ f a = .ok b := by
  cases x with
  | error d => cases h
  | ok a => exact ⟨a, rfl, h⟩

namespace Kind

variable {owner k x y : Kind} {fits : Fits} {ks : List Kind}

theorem require_eq_ok {ok : Bool} {role : String} : owner.require ok role = .ok () ↔ ok = true := by
  cases ok <;> simp [require]

theorem requireAll_eq_ok {role : String} :
    ∀ {ks : List Kind}, owner.requireAll fits role ks = .ok () ↔ ∀ k ∈ ks, fits k
  | [] => by simp [requireAll]
  | k :: ks => by
    rw [requireAll, forall_mem_cons, ← @requireAll_eq_ok role]
    cases h : fits k <;> simp [require, bind, Except.bind]

theorem forM_require_eq_ok : ∀ {ks : List Kind} {places : List (Fits × String)},
    ks.length = places.length →
    ((ks.zip places).forM (fun (k, fits, role) => owner.require (fits k) role) = .ok () ↔
      Forall₂ (fun k fits => fits k) ks (places.map Prod.fst))
  | [], [], _ => by
    refine ⟨fun _ => .nil, fun _ => rfl⟩
  | k :: ks, (fits, role) :: places, h => by
    have ih := forM_require_eq_ok (Nat.succ.inj h)
    rw [map_cons, forall₂_cons, ← ih, zip_cons_cons]
    cases hk : fits k
    · refine ⟨fun e => ?_, fun e => absurd e.1 (by simp [hk])⟩
      simp [List.forM, require, bind, Except.bind, hk] at e
    · simp [List.forM, require, bind, Except.bind, hk]

theorem requireEach_eq_ok {places : List (Fits × String)} :
    owner.requireEach places ks = .ok () ↔
      Forall₂ (fun k fits => fits k) ks (places.map Prod.fst) := by
  unfold requireEach
  by_cases h : ks.length = places.length
  · rw [if_pos h]
    exact forM_require_eq_ok h
  · rw [if_neg h]
    refine ⟨fun e => absurd e (by simp), fun hf => ?_⟩
    exact absurd (by simpa using hf.length_eq) h

theorem requireOperands_eq_ok {count : Nat} :
    owner.requireOperands count ks = .ok () ↔
      Forall₂ (fun k fits => fits k) ks (replicate count isExpression) := by
  rw [requireOperands]
  by_cases h : ks.length = count
  · subst h
    rw [if_pos rfl, require_eq_ok, all_eq_true]
    induction ks with
    | nil => simp
    | cons k ks ih =>
      rw [forall_mem_cons, ih, length_cons, replicate_succ, forall₂_cons]
  · rw [if_neg h]
    refine ⟨fun e => absurd e (by simp), fun hf => ?_⟩
    exact absurd (by simpa using hf.length_eq) h

def places? : Kind → Option (List Fits)
  | forLoop => some [fitsSetup, fitsClause, fitsClause, isStatement]
  | forIn => some [fitsHead, isExpression, isStatement]
  | ifElse => some [isExpression, isStatement, isStatement]
  | .try => some [(· == block), fitsHandler, fitsFinalizer]
  | .catch _ => some [(· == block)]
  | doWhile => some [isStatement, isExpression]
  | whileLoop => some [isExpression, isStatement]
  | label _ => some [isStatement]
  | expression | .return | throw | .variable _ | property _ | member _ | unary _ =>
    some [isExpression]
  | index | binary _ | assign _ => some [isExpression, isExpression]
  | conditional => some [isExpression, isExpression, isExpression]
  | .break _ | .continue _ | debugger | directive _ | empty | boolean _ | identifier _ | null
  | number _ | regExp _ | string _ | this | undefined => some []
  | _ => none

def element? : Kind → Option Fits
  | module | block => some isStatement
  | varStatement => some isVariable
  | object => some isProperty
  | array | sequence => some isExpression
  | _ => none

theorem checkChildren_of_places {places : List Fits} (h : k.places? = some places) :
    k.checkChildren ks = .ok () ↔ Forall₂ (fun k fits => fits k) ks places := by
  cases k <;> cases h <;>
    first
    | exact requireOperands_eq_ok
    | exact requireEach_eq_ok

theorem checkChildren_of_element (h : k.element? = some fits) :
    k.checkChildren ks = .ok () ↔ ∀ x ∈ ks, fits x := by
  cases k <;> cases h <;> exact requireAll_eq_ok

theorem checkChildren_call (h : k = call ∨ k = new) :
    k.checkChildren ks = .ok () ↔ ks ≠ [] ∧ ∀ x ∈ ks, x.isExpression := by
  rcases h with rfl | rfl <;> cases ks <;>
    simp [checkChildren, require, bind, Except.bind, requireAll_eq_ok]

theorem checkChildren_function {s : SymbolId} :
    (function s).checkChildren ks = .ok () ↔
      ∃ rest, ks = block :: rest ∧ ∀ x ∈ rest, x.isVariable := by
  cases ks with
  | nil => simp [checkChildren, require, bind, Except.bind]
  | cons k rest =>
    by_cases hk : k = block
    · subst hk
      simp [checkChildren, require, bind, Except.bind, requireAll_eq_ok]
    · simp [checkChildren, require, bind, Except.bind, hk]

theorem places_cases (k : Kind) :
    (∃ places, k.places? = some places) ∨ (∃ fits, k.element? = some fits) ∨
      (k = call ∨ k = new) ∨ ∃ s, k = function s := by
  cases k <;> simp [places?, element?]

def isRewritten : Kind → Bool
  | expression | ifElse | whileLoop | .try => true
  | _ => false

def Substitutes (y x : Kind) : Prop :=
  y = x ∨ (x.isExpression ∧ y.isExpression) ∨
    (x.isRewritten ∧ y.isStatement)

theorem Substitutes.refl (x : Kind) : x.Substitutes x := .inl (Eq.refl x)

theorem Substitutes.expression (hx : x.isExpression) (hy : y.isExpression) :
    y.Substitutes x := .inr (.inl ⟨hx, hy⟩)

theorem Substitutes.statement (hx : x.isRewritten) (hy : y.isStatement) :
    y.Substitutes x := .inr (.inr ⟨hx, hy⟩)

theorem not_isRewritten_of_isExpression (h : x.isExpression) : x.isRewritten = false := by
  cases x <;> first | rfl | cases h

theorem not_isStatement_of_isExpression (h : x.isExpression) : x.isStatement = false := by
  cases x <;> first | rfl | cases h

theorem Substitutes.trans {z : Kind} (h : y.Substitutes x) (h' : z.Substitutes y) :
    z.Substitutes x := by
  rcases h with rfl | ⟨hx, hy⟩ | ⟨hx, hy⟩
  · exact h'
  · rcases h' with rfl | ⟨-, hz⟩ | ⟨hy', -⟩
    · exact .expression hx hy
    · exact .expression hx hz
    · rw [not_isRewritten_of_isExpression hy] at hy'
      cases hy'
  · rcases h' with rfl | ⟨hy', -⟩ | ⟨-, hz⟩
    · exact .statement hx hy
    · rw [not_isStatement_of_isExpression hy'] at hy
      cases hy
    · exact .statement hx hz

def Stable (fits : Fits) : Prop :=
  ∀ ⦃x y : Kind⦄, y.Substitutes x → fits x → fits y

theorem stable_isExpression : Stable isExpression := by
  rintro x y (rfl | ⟨-, hy⟩ | ⟨hx, -⟩) h
  · exact h
  · exact hy
  · rw [not_isRewritten_of_isExpression h] at hx
    cases hx

theorem stable_isStatement : Stable isStatement := by
  rintro x y (rfl | ⟨hx, -⟩ | ⟨-, hy⟩) h
  · exact h
  · rw [not_isStatement_of_isExpression hx] at h
    cases h
  · exact hy

theorem stable_of_fixed (he : ∀ x, x.isExpression → fits x = false)
    (hs : ∀ x, x.isRewritten → fits x = false) : Stable fits := by
  rintro x y (rfl | ⟨hx, -⟩ | ⟨hx, -⟩) h
  · exact h
  · rw [he x hx] at h
    cases h
  · rw [hs x hx] at h
    cases h

theorem stable_or {f g : Fits} (hf : Stable f) (hg : Stable g) : Stable fun k => f k || g k := by
  intro x y hxy h
  rcases Bool.or_eq_true _ _ ▸ h with h | h
  · simp [hf hxy h]
  · simp [hg hxy h]

theorem stable_eq (he : k.isExpression = false) (hr : k.isRewritten = false) : Stable (· == k) := by
  apply stable_of_fixed <;> intro x hx <;> by_contra h <;>
    rw [Bool.not_eq_false, beq_iff_eq] at h <;> subst h
  · rw [he] at hx
    cases hx
  · rw [hr] at hx
    cases hx

theorem stable_isVariable : Stable isVariable :=
  stable_of_fixed (fun x hx => by cases x <;> first | rfl | cases hx)
    (fun x hx => by cases x <;> first | rfl | cases hx)

theorem stable_isProperty : Stable isProperty :=
  stable_of_fixed (fun x hx => by cases x <;> first | rfl | cases hx)
    (fun x hx => by cases x <;> first | rfl | cases hx)

theorem stable_isCatch : Stable isCatch :=
  stable_of_fixed (fun x hx => by cases x <;> first | rfl | cases hx)
    (fun x hx => by cases x <;> first | rfl | cases hx)

theorem stable_isBlock : Stable (· == block) := stable_eq rfl rfl

theorem stable_fitsClause : Stable fitsClause := stable_or stable_isExpression (stable_eq rfl rfl)

theorem stable_fitsSetup : Stable fitsSetup :=
  stable_or stable_fitsClause (stable_eq rfl rfl)

theorem stable_fitsHead : Stable fitsHead := stable_or stable_isExpression stable_isVariable

theorem stable_fitsHandler : Stable fitsHandler := stable_or (stable_eq rfl rfl) stable_isCatch

theorem stable_fitsFinalizer : Stable fitsFinalizer :=
  stable_or (stable_eq rfl rfl) (stable_eq rfl rfl)

theorem stable_of_places {places : List Fits} (hp : k.places? = some places) :
    ∀ fits ∈ places, Stable fits := by
  cases k <;> cases hp <;>
    simp only [mem_cons, not_mem_nil, or_false, forall_eq_or_imp, forall_eq,
      false_imp_iff, implies_true, and_true, stable_isExpression, stable_isStatement,
      stable_isBlock, stable_fitsSetup, stable_fitsClause, stable_fitsHead, stable_fitsHandler,
      stable_fitsFinalizer]

theorem stable_of_element (hp : k.element? = some fits) : Stable fits := by
  cases k <;> cases hp <;>
    first
    | exact stable_isStatement
    | exact stable_isVariable
    | exact stable_isProperty
    | exact stable_isExpression

theorem checkChildren_exchange {l r : List Kind} (h : k.checkChildren (l ++ x :: r) = .ok ())
    (hxy : y.Substitutes x) : k.checkChildren (l ++ y :: r) = .ok () := by
  rcases k.places_cases with ⟨places, hp⟩ | ⟨fits, hp⟩ | hk | ⟨s, rfl⟩
  · rw [checkChildren_of_places hp] at h ⊢
    have hstable := stable_of_places hp
    clear hp
    induction l generalizing places with
    | nil =>
      cases h with
      | cons hx hr => exact .cons (hstable _ (.head _) hxy hx) hr
    | cons a l ih =>
      cases h with
      | cons ha hr =>
        exact .cons ha (ih _ hr fun f hf => hstable f (.tail _ hf))
  · rw [checkChildren_of_element hp] at h ⊢
    intro z hz
    rcases mem_append.mp hz with hz | hz
    · exact h z (mem_append_left _ hz)
    · rcases mem_cons.mp hz with rfl | hz
      · exact stable_of_element hp hxy (h x (by simp))
      · exact h z (by simp [hz])
  · rw [checkChildren_call hk] at h ⊢
    refine ⟨by simp, fun z hz => ?_⟩
    rcases mem_append.mp hz with hz | hz
    · exact h.2 z (mem_append_left _ hz)
    · rcases mem_cons.mp hz with rfl | hz
      · exact stable_isExpression hxy (h.2 x (by simp))
      · exact h.2 z (by simp [hz])
  · rw [checkChildren_function] at h ⊢
    obtain ⟨rest, heq, hrest⟩ := h
    cases l with
    | nil =>
      obtain ⟨rfl, rfl⟩ := cons.inj heq
      have hy : (y == block) :=
        stable_isBlock hxy (by simp)
      exact ⟨r, by rw [nil_append, eq_of_beq hy], hrest⟩
    | cons a l =>
      obtain ⟨rfl, rfl⟩ := cons.inj heq
      refine ⟨l ++ y :: r, rfl, fun z hz => ?_⟩
      rcases mem_append.mp hz with hz | hz
      · exact hrest z (mem_append_left _ hz)
      · rcases mem_cons.mp hz with rfl | hz
        · exact stable_isVariable hxy (hrest x (by simp))
        · exact hrest z (by simp [hz])

theorem places_of_isLiteral (h : k.isLiteral) : k.places? = some [] := by
  cases k <;> first | rfl | cases h

theorem isExpression_of_isLiteral (h : k.isLiteral) : k.isExpression := by
  cases k <;> first | rfl | cases h

end Kind

namespace Tree

variable {α : Type} {m : α} {k : Kind} {cs : List (Tree α)}

theorem checkAll_eq_ok : ∀ {cs : List (Tree α)}, checkAll cs = .ok () ↔ ∀ c ∈ cs, c.WellShaped
  | [] => by simp [checkAll]
  | c :: cs => by
    rw [checkAll, forall_mem_cons, ← @checkAll_eq_ok cs, WellShaped]
    rcases c.check with e | u <;> simp [bind, Except.bind]

theorem wellShaped_node : (node m k cs).WellShaped ↔
      k.checkChildren (cs.map kind) = .ok () ∧ ∀ c ∈ cs, c.WellShaped := by
  rw [WellShaped, check, ← checkAll_eq_ok]
  rcases k.checkChildren (cs.map kind) with e | u <;> simp [bind, Except.bind]

theorem WellShaped.child (h : (node m k cs).WellShaped) :
    ∀ c ∈ cs, c.WellShaped := (wellShaped_node.mp h).2

def Fit (t : Tree α) (fits : Kind.Fits) : Prop := fits t.kind = true ∧ t.WellShaped

theorem wellShaped_of_places {places : List Kind.Fits} (h : k.places? = some places) :
    (node m k cs).WellShaped ↔ Forall₂ Fit cs places := by
  rw [wellShaped_node, Kind.checkChildren_of_places h, forall₂_map_left_iff]
  clear h
  induction cs generalizing places with
  | nil => simp
  | cons c cs ih =>
    cases places with
    | nil => simp
    | cons p ps =>
      simp only [forall₂_cons, forall_mem_cons, ← ih, Fit]
      tauto

theorem wellShaped_of_element {fits : Kind.Fits} (h : k.element? = some fits) :
    (node m k cs).WellShaped ↔ ∀ c ∈ cs, c.Fit fits := by
  rw [wellShaped_node, Kind.checkChildren_of_element h]
  simp only [forall_mem_map, Fit]
  exact ⟨fun h c hc => ⟨h.1 c hc, h.2 c hc⟩, fun h => ⟨fun c hc => (h c hc).1,
    fun c hc => (h c hc).2⟩⟩

theorem wellShaped_call (h : k = .call ∨ k = .new) :
    (node m k cs).WellShaped ↔ cs ≠ [] ∧ ∀ c ∈ cs, c.Fit Kind.isExpression := by
  rw [wellShaped_node, Kind.checkChildren_call h]
  simp only [forall_mem_map, Fit, ne_eq, map_eq_nil_iff]
  exact ⟨fun h => ⟨h.1.1, fun c hc => ⟨h.1.2 c hc, h.2 c hc⟩⟩, fun h => ⟨⟨h.1,
    fun c hc => (h.2 c hc).1⟩, fun c hc => (h.2 c hc).2⟩⟩

section Places

variable {m : α} {k : Kind} {p q r s : Kind.Fits} {cs : List (Tree α)} {a b c : Tree α}

theorem wellShaped_none (h : k.places? = some []) : (node m k cs).WellShaped ↔ cs = [] := by
  rw [wellShaped_of_places h, forall₂_nil_right_iff]

theorem wellShaped_one (h : k.places? = some [p]) :
    (node m k cs).WellShaped ↔ ∃ a, cs = [a] ∧ a.Fit p := by
  rw [wellShaped_of_places h]
  constructor
  · rintro (_ | ⟨ha, _ | _⟩)
    exact ⟨_, rfl, ha⟩
  · rintro ⟨a, rfl, ha⟩
    exact .cons ha .nil

theorem wellShaped_two (h : k.places? = some [p, q]) :
    (node m k cs).WellShaped ↔ ∃ a b, cs = [a, b] ∧ a.Fit p ∧ b.Fit q := by
  rw [wellShaped_of_places h]
  constructor
  · rintro (_ | ⟨ha, _ | ⟨hb, _ | _⟩⟩)
    exact ⟨_, _, rfl, ha, hb⟩
  · rintro ⟨a, b, rfl, ha, hb⟩
    exact .cons ha (.cons hb .nil)

theorem wellShaped_three (h : k.places? = some [p, q, r]) :
    (node m k cs).WellShaped ↔ ∃ a b c, cs = [a, b, c] ∧ a.Fit p ∧ b.Fit q ∧ c.Fit r := by
  rw [wellShaped_of_places h]
  constructor
  · rintro (_ | ⟨ha, _ | ⟨hb, _ | ⟨hc, _ | _⟩⟩⟩)
    exact ⟨_, _, _, rfl, ha, hb, hc⟩
  · rintro ⟨a, b, c, rfl, ha, hb, hc⟩
    exact .cons ha (.cons hb (.cons hc .nil))

theorem wellShaped_four (h : k.places? = some [p, q, r, s]) :
    (node m k cs).WellShaped ↔
      ∃ a b c d, cs = [a, b, c, d] ∧ a.Fit p ∧ b.Fit q ∧ c.Fit r ∧ d.Fit s := by
  rw [wellShaped_of_places h]
  constructor
  · rintro (_ | ⟨ha, _ | ⟨hb, _ | ⟨hc, _ | ⟨hd, _ | _⟩⟩⟩⟩)
    exact ⟨_, _, _, _, rfl, ha, hb, hc, hd⟩
  · rintro ⟨a, b, c, d, rfl, ha, hb, hc, hd⟩
    exact .cons ha (.cons hb (.cons hc (.cons hd .nil)))

theorem wellShaped_singleton (h : k.places? = some [p]) : (node m k [a]).WellShaped ↔ a.Fit p := by
  simp [wellShaped_of_places h]

theorem wellShaped_pair (h : k.places? = some [p, q]) :
    (node m k [a, b]).WellShaped ↔ a.Fit p ∧ b.Fit q := by
  simp [wellShaped_of_places h]

theorem wellShaped_triple (h : k.places? = some [p, q, r]) :
    (node m k [a, b, c]).WellShaped ↔ a.Fit p ∧ b.Fit q ∧ c.Fit r := by
  simp [wellShaped_of_places h]

theorem wellShaped_quadruple (h : k.places? = some [p, q, r, s]) {d : Tree α} :
    (node m k [a, b, c, d]).WellShaped ↔ a.Fit p ∧ b.Fit q ∧ c.Fit r ∧ d.Fit s := by
  simp [wellShaped_of_places h]

end Places

theorem WellShaped.exchange {l r : List (Tree α)} {c c' : Tree α}
    (h : (node m k (l ++ c :: r)).WellShaped) (hc : c'.WellShaped)
    (hk : c'.kind.Substitutes c.kind) : (node m k (l ++ c' :: r)).WellShaped := by
  rw [wellShaped_node] at h ⊢
  refine ⟨?_, fun x hx => ?_⟩
  · have := h.1
    rw [map_append, map_cons] at this ⊢
    exact Kind.checkChildren_exchange this hk
  · rcases mem_append.mp hx with hx | hx
    · exact h.2 x (mem_append_left _ hx)
    · rcases mem_cons.mp hx with rfl | hx
      · exact hc
      · exact h.2 x (by simp [hx])

end Tree

end ScriptPress

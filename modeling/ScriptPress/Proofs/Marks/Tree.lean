import ScriptPress.Proofs.Tree.Form
import ScriptPress.Simplify.Pass

/-! # What is asked of a tree does not depend on its marks -/

namespace ScriptPress

open List

namespace Part

theorem get_map {β γ : Type} (p : Part) (kind : Kind) (cs : List β) (g : β → γ) :
    p.get kind (cs.map g) = (p.get kind cs).map g := by
  rw [get, get]
  split
  · rw [List.getElem?_map]
    cases cs[p.position]? <;> rfl
  · rfl

end Part

namespace Tree

variable {α β : Type} (f : α → β)

@[simp] theorem isEmpty_map (t : Tree α) : (t.map f).isEmpty = t.isEmpty := by
  rw [isEmpty, kind_map, isEmpty]

@[simp] theorem isUndefined_map (t : Tree α) : (t.map f).isUndefined = t.isUndefined := by
  rw [isUndefined, kind_map, isUndefined]

@[simp] theorem isNot_map (t : Tree α) : (t.map f).isNot = t.isNot := by
  rw [isNot, kind_map, isNot]

@[simp] theorem isSum_map (t : Tree α) : (t.map f).isSum = t.isSum := by
  rw [isSum, kind_map, isSum]

@[simp] theorem part_map (t : Tree α) (p : Part) : (t.map f).part p = (t.part p).map (map f) := by
  rw [part, part, kind_map, children_map, Part.get_map]

@[simp] theorem sameAs_map {γ δ : Type} (g : γ → δ) (t : Tree α) (u : Tree γ) :
    (t.map f).sameAs (u.map g) = t.sameAs u := by
  rw [Bool.eq_iff_iff, sameAs_iff, sameAs_iff, bare_map, bare_map]

@[simp] theorem isDissolvable_map (t : Tree α) : (t.map f).isDissolvable = t.isDissolvable := by
  rw [isDissolvable, isDissolvable, kind_map, children_map, any_map]
  simp only [Function.comp_def, kind_map]

theorem effects_map_aux (t : Tree α) : (t.map f).hasEffects = t.hasEffects ∧
    (t.map f).propertyHasEffects = t.propertyHasEffects := by
  induction t with
  | node m k cs ih =>
    rw [map_node]
    have hoperand : ∀ owner, operandHasEffects owner (cs.map (map f)) =
        operandHasEffects owner cs := by
      intro owner
      cases cs with
      | nil => rfl
      | cons c cs => exact (ih c (.head _)).1
    have hany : anyHasEffects (cs.map (map f)) = anyHasEffects cs := by
      clear hoperand
      induction cs with
      | nil => rfl
      | cons c cs ihs =>
        rw [map_cons, anyHasEffects, anyHasEffects, (ih c mem_cons_self).1,
          ihs fun d hd => ih d (.tail _ hd)]
    have hproperty : anyPropertyHasEffects (cs.map (map f)) = anyPropertyHasEffects cs := by
      clear hoperand hany
      induction cs with
      | nil => rfl
      | cons c cs ihs =>
        rw [map_cons, anyPropertyHasEffects, anyPropertyHasEffects,
          (ih c (.head _)).2, ihs fun d hd => ih d (.tail _ hd)]
    constructor
    · cases k with
      | unary op => rw [hasEffects, hasEffects, hoperand]
      | array => rw [hasEffects, hasEffects, hany]
      | object => rw [hasEffects, hasEffects, hproperty]
      | _ => rfl
    · rw [propertyHasEffects.eq_def, propertyHasEffects.eq_def]
      cases cs with
      | nil => rfl
      | cons c cs => simp only [map_cons, (ih c mem_cons_self).1]

@[simp] theorem hasEffects_map (t : Tree α) : (t.map f).hasEffects = t.hasEffects :=
  (effects_map_aux f t).1

@[simp] theorem bindsNames_map (t : Tree α) : (t.map f).bindsNames = t.bindsNames := by
  induction t with
  | node m k cs ih =>
    have hany : (cs.map (map f)).any bindsNames = cs.any bindsNames := by
      rw [any_map, Bool.eq_iff_iff]
      simp only [any_eq_true, Function.comp_apply]
      exact exists_congr fun c => and_congr_right fun hc => by rw [ih c hc]
    rw [map_node, bindsNames_node, bindsNames_node, hany]
    rfl

@[simp] theorem isCertainlyString_map (t : Tree α) :
    (t.map f).isCertainlyString = t.isCertainlyString := by
  induction t with
  | node m k cs ih =>
    rw [map_node, isCertainlyString.eq_def, isCertainlyString.eq_def]
    cases k with
    | binary op =>
      cases op with
      | add =>
        rcases cs with _ | ⟨a, _ | ⟨b, cs⟩⟩
        · rfl
        · simp only [map_cons, map_nil, ih a mem_cons_self]
        · simp only [map_cons, ih a mem_cons_self, ih b (by simp)]
      | _ => rfl
    | _ => rfl

@[simp] theorem rethrows_map (t : Tree α) : (t.map f).rethrows = t.rethrows := by
  rw [rethrows, rethrows, kind_map]
  split
  · rw [part_map]
    cases t.part Part.catchBody with
    | error e => rfl
    | ok body =>
      simp only [Except.map, bind, Except.bind, children_map]
      rcases body.children with _ | ⟨a, _ | ⟨b, cs⟩⟩
      · rfl
      · simp only [map_cons, map_nil, kind_map, part_map]
        cases a.part Part.throwValue with
        | error e => rfl
        | ok value => simp only [Except.map, kind_map]
      · rfl
  · rfl

end Tree

end ScriptPress

import ScriptPress.Proofs.Marks.Step
import ScriptPress.Proofs.Simplify.Guard
import ScriptPress.Proofs.Simplify.Weight

/-! # Expressions that are kept whole -/

namespace ScriptPress.Tree

open List

variable {α β : Type} {t : Tree α} {cs : List (Tree α)} (f : α → β)

def isWhole (t : Tree α) : Bool :=
  match t.hasEffects, discard t.kind t.children with
  | .ok true, .ok .whole => true
  | _, _ => false

theorem isWhole_mark {m : α} : (node m t.kind t.children).isWhole = t.isWhole := by
  obtain ⟨m', k, cs⟩ := t
  cases k <;> rfl

theorem effects_of_isWhole (h : t.isWhole) : t.effects = .ok (.whole t) := by
  obtain ⟨m, k, cs⟩ := t
  unfold isWhole at h
  split at h
  · rename_i heffects hdiscard
    rw [kind_node, children_node] at hdiscard
    rw [effects, heffects, hdiscard]
    rfl
  · cases h

theorem isWhole_of_effects {e : Effects α} (h : t.effects = .ok e) (hremains : e.remains = []) :
    t.isWhole := by
  obtain ⟨m, k, cs⟩ := t
  rcases effects_cases h with ⟨-, rfl⟩ | ⟨-, e', -, rfl⟩ | ⟨-, e', -, rfl⟩ | ⟨roles, -, h⟩ |
    ⟨hb, hd, -⟩
  · cases hremains
  · cases hremains
  · cases hremains
  · obtain ⟨_, _, _, -, rfl, -⟩ := effectsOperands_splits
      (P := fun _ _ => True) trivial (fun _ _ => trivial) (fun _ _ _ _ => trivial) h
    cases hremains
  · simp only [isWhole, hb, kind_node, children_node, hd]

theorem isWhole_iff : t.isWhole ↔ t.effects = .ok (.whole t) :=
  ⟨effects_of_isWhole, fun h => isWhole_of_effects h rfl⟩

theorem isWhole_parts {e : Effects α} (h : t.effects = .ok e) :
    ∀ p ∈ e.parts, p.isWhole := by
  refine effects_splits (P := fun _ e => ∀ p ∈ e.parts, p.isWhole = true) ?_ ?_ ?_ ?_ ?_ t e h
  · simp [Effects.none]
  · intro t ht
    simpa [Effects.whole] using isWhole_iff.mpr ht
  · simp
  · intro ts ts' e e' he he'
    exact forall_mem_append.mpr ⟨he, he'⟩
  · intro m k ts e rest _ he
    exact he

theorem not_sequence_of_isWhole (h : t.isWhole) : t.kind ≠ .sequence := by
  intro hk
  unfold isWhole at h
  split at h
  · rename_i hdiscard
    rw [hk] at hdiscard
    cases hdiscard
  · cases h

theorem isWhole_map (t : Tree α) : (t.map f).isWhole = t.isWhole := by
  unfold isWhole
  rw [hasEffects_map, kind_map, children_map, discard_map]

theorem commaParts_of_ne {t : Tree (Option α)} (hk : t.kind ≠ .sequence) :
    Step.commaParts t = [t] := by
  unfold Step.commaParts
  split
  · exact absurd rfl hk
  · rfl

theorem effectsAll_isWhole : ∀ {cs : List (Tree α)}, (∀ c ∈ cs, c.isWhole) →
    effectsAll cs = .ok ⟨cs, []⟩
  | [], _ => by rw [effectsAll]
  | c :: cs, h => by
    have ih := effectsAll_isWhole fun c hc => h c (.tail _ hc)
    rw [effectsAll, isWhole_iff.mp (h c mem_cons_self), ih]
    rfl

theorem isWhole_of_effectsAll : ∀ {cs : List (Tree α)} {e : Effects α}, effectsAll cs = .ok e →
    e.remains = [] → ∀ c ∈ cs, c.isWhole
  | [], _, _, _ => by simp
  | c :: cs, e, h, hremains => by
    obtain ⟨first, others, hfirst, hothers, rfl⟩ := effectsAll_cons h
    obtain ⟨hf, ho⟩ := append_eq_nil_iff.mp hremains
    exact forall_mem_cons.mpr
      ⟨isWhole_of_effects hfirst hf, isWhole_of_effectsAll hothers ho⟩

theorem discarded_of_isWhole {t : Tree (Option α)} (h : t.isWhole) :
    t.discarded = .ok .unchanged := by
  rw [discarded, isWhole_iff.mp h]
  rfl

theorem effects_sequence (m : α) (cs : List (Tree α)) :
    (node m .sequence cs).effects = (effectsAll cs).map fun e => e.under m .sequence [] := by
  rw [effects]
  show (effectsAll cs >>= fun e => pure (e.under m .sequence [])) = _
  cases effectsAll cs <;> rfl

theorem discarded_sequence {m : Option α} {cs : List (Tree (Option α))} (hlen : 2 ≤ cs.length)
    (h : ∀ c ∈ cs, c.isWhole) : (node m .sequence cs).discarded = .ok .unchanged := by
  match cs, hlen with
  | a :: b :: rest, _ =>
    rw [discarded, effects_sequence, effectsAll_isWhole h]
    rfl

theorem isWhole_commaParts {t : Tree (Option α)} (ht : t.Fit Kind.isExpression)
    (h : t.discarded = .ok .unchanged) :
    Step.commaParts t ≠ [] ∧ ∀ c ∈ Step.commaParts t, c.isWhole := by
  obtain ⟨m, k, cs⟩ := t
  by_cases hk : k = .sequence
  · subst hk
    rw [discarded, effects_sequence] at h
    cases he : effectsAll cs with
    | error e =>
      rw [he] at h
      cases h
    | ok e =>
      obtain ⟨parts, remains⟩ := e
      rw [he] at h
      rcases parts with _ | ⟨a, _ | ⟨b, rest⟩⟩
      · cases h
      · cases h
      · have hremains : remains = [] := by
          simp only [Except.map, Effects.under, bind, Except.bind, kind_node, decide_true,
            Bool.true_and, List.flatMap_cons, List.flatMap_nil, children_node, List.append_nil,
            List.isEmpty_iff] at h
          split at h
          · assumption
          · split at h <;> cases h
        have hwhole := isWhole_of_effectsAll he hremains
        refine ⟨?_, hwhole⟩
        rintro rfl
        cases he
  · rw [commaParts_of_ne (t := node m k cs) hk]
    refine ⟨by simp, ?_⟩
    rw [List.forall_mem_singleton]
    obtain ⟨e, he, hs⟩ := effects_total _ ht
    rw [discarded, he] at h
    cases hs with
    | whole heq _ =>
      subst heq
      exact isWhole_iff.mpr he
    | apart d hd fit _ _ =>
      obtain ⟨parts, remains⟩ := e
      simp only at hd fit
      subst hd
      rcases parts with _ | ⟨a, _ | ⟨b, rest⟩⟩
      · cases h
      · cases h
      · have hforM := forM_expectExpression "sequence element" fit
        simp only [bind, Except.bind, kind_node, hk, decide_false, Bool.false_and, hforM] at h
        cases h

theorem isWhole_of_unchanged {t : Tree (Option α)} (ht : t.Fit Kind.isExpression)
    (hk : t.kind ≠ .sequence) (h : t.discarded = .ok .unchanged) : t.isWhole := by
  have hparts := (isWhole_commaParts ht h).2
  rwa [commaParts_of_ne hk, forall_mem_singleton] at hparts

theorem two_le_comma {x y : Tree (Option α)} (hx : Step.commaParts x ≠ [])
    (hy : Step.commaParts y ≠ []) : 2 ≤ (Step.commaParts x ++ Step.commaParts y).length := by
  have := length_pos_of_ne_nil hx
  have := length_pos_of_ne_nil hy
  rw [length_append]
  omega

theorem discarded_comma {x y : Tree (Option α)} (hx : x.Fit Kind.isExpression)
    (hy : y.Fit Kind.isExpression) (hx' : x.discarded = .ok .unchanged)
    (hy' : y.discarded = .ok .unchanged) : (Step.comma x y).tree.discarded = .ok .unchanged := by
  obtain ⟨hxne, hxs⟩ := isWhole_commaParts hx hx'
  obtain ⟨hyne, hys⟩ := isWhole_commaParts hy hy'
  exact discarded_sequence (two_le_comma hxne hyne) (forall_mem_append.mpr ⟨hxs, hys⟩)

theorem reduced_cases {t : Tree (Option α)} {s : Step α} (ht : t.Fit Kind.isExpression)
    (h : t.discarded = .ok (.reduced s)) :
    (∃ only ∈ t.subtrees, only.isWhole ∧ s.tree = node t.mark only.kind only.children) ∨
      ∃ parts, s.tree = node t.mark .sequence parts ∧ 2 ≤ parts.length ∧
        ∀ p ∈ parts, p.isWhole ∧ p ∈ t.subtrees := by
  obtain ⟨e, he, hs, hparts, -, rfl⟩ := exists_of_reduced ht h
  match e.parts, hparts, isWhole_parts he, hs.below with
  | [only], _, hwhole, hbelow =>
    exact .inl ⟨only, hbelow only (.head _), hwhole only (.head _), rfl⟩
  | a :: b :: rest, _, hwhole, hbelow =>
    exact .inr ⟨a :: b :: rest, rfl, by simp, fun p hp => ⟨hwhole p hp, hbelow p hp⟩⟩

theorem discarded_reduced {t : Tree (Option α)} {s : Step α} (ht : t.Fit Kind.isExpression)
    (h : t.discarded = .ok (.reduced s)) : s.tree.discarded = .ok .unchanged := by
  rcases reduced_cases ht h with ⟨only, -, hwhole, heq⟩ | ⟨parts, heq, hlen, hwhole⟩
  · rw [heq]
    exact discarded_of_isWhole (isWhole_mark.trans hwhole)
  · rw [heq]
    exact discarded_sequence hlen fun p hp => (hwhole p hp).1

theorem anyHasEffects_eq_false : ∀ {cs : List (Tree α)}, (∀ c ∈ cs, c.hasEffects = .ok false) →
    anyHasEffects cs = .ok false
  | [], _ => by rw [anyHasEffects]
  | c :: cs, h => by
    rw [anyHasEffects, h c mem_cons_self]
    exact anyHasEffects_eq_false fun c hc => h c (.tail _ hc)

theorem anyPropertyHasEffects_eq_false : ∀ {ps : List (Tree α)},
    (∀ p ∈ ps, p.propertyHasEffects = .ok false) → anyPropertyHasEffects ps = .ok false
  | [], _ => by rw [anyPropertyHasEffects]
  | p :: ps, h => by
    rw [anyPropertyHasEffects, h p mem_cons_self]
    exact anyPropertyHasEffects_eq_false fun p hp => h p (.tail _ hp)

theorem hasEffects_of_isInert (ht : t.IsExpression) (h : t.isInert) :
    t.hasEffects = .ok false := by
  induction ht with
  | array hcs ih =>
    rw [hasEffects]
    exact anyHasEffects_eq_false fun c hc => ih c hc ((isInert_node.mp h).2 c hc)
  | object hps ih =>
    rw [hasEffects]
    have hcs := (isInert_node.mp h).2
    rw [forall_mem_map] at hcs
    refine anyPropertyHasEffects_eq_false (forall_mem_map.mpr fun p hp => ?_)
    rw [propertyHasEffects]
    exact ih p hp ((isInert_node.mp (hcs p hp)).2 _ (.head _))
  | unary ha ih =>
    obtain ⟨hop, hcs⟩ := isInert_node.mp h
    rw [Kind.isInert] at hop
    rw [hasEffects, if_pos hop, operandHasEffects]
    exact ih (hcs _ (.head _))
  | _ => first | rfl | cases (isInert_node.mp h).1

theorem isWhole_of_isEvent (h : t.kind.isEvent) : t.isWhole := by
  obtain ⟨m, k, cs⟩ := t
  cases k with
  | unary op =>
    have hop : op.isPure = false := by simpa [Kind.isEvent] using h
    simp [isWhole, hasEffects, discard, hop]
  | _ => first | rfl | cases h

def isTidy (elements : List (Tree α)) : Bool :=
  elements.length != 1 && elements.all (fun c => c.kind != .sequence) &&
    elements.dropLast.all isWhole

def Tidy (t : Tree α) : Prop := t.every (fun k cs => k != .sequence || isTidy cs) = true

instance (t : Tree α) : Decidable t.Tidy := inferInstanceAs (Decidable (_ = true))

theorem isTidy_iff : isTidy cs ↔
    cs.length ≠ 1 ∧ (∀ c ∈ cs, c.kind ≠ .sequence) ∧ ∀ c ∈ cs.dropLast, c.isWhole := by
  simp [isTidy, and_assoc]

theorem isTidy_of_whole (hlen : 2 ≤ cs.length) (h : ∀ c ∈ cs, c.isWhole) :
    isTidy cs := by
  refine isTidy_iff.mpr ⟨by omega, fun c hc => not_sequence_of_isWhole (h c hc), fun c hc => ?_⟩
  exact h c (dropLast_subset cs hc)

theorem isTidy_map (cs : List (Tree α)) : isTidy (cs.map (map f)) = isTidy cs := by
  rw [Bool.eq_iff_iff, isTidy_iff, isTidy_iff, length_map, forall_mem_map,
    ← map_dropLast, forall_mem_map]
  simp only [kind_map, isWhole_map]

theorem tidy_node {m : α} {k : Kind} :
    (node m k cs).Tidy ↔ (k = .sequence → isTidy cs) ∧ ∀ c ∈ cs, c.Tidy := by
  rw [Tidy, every_node, Bool.or_eq_true, bne_iff_ne, or_iff_not_imp_left, not_not]
  rfl

theorem tidy_map (t : Tree α) : (t.map f).Tidy ↔ t.Tidy := by
  induction t with
  | node m k cs ih =>
    rw [map_node, tidy_node, tidy_node, isTidy_map, forall_mem_map]
    exact and_congr_right fun _ => forall₂_congr ih

end ScriptPress.Tree

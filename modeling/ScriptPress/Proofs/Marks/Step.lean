import ScriptPress.Proofs.Marks.Tree

/-! # Rules and marks -/

namespace ScriptPress

open List Tree

section

variable {ε α β γ : Type} (x : Except ε α)

@[simp] theorem map_ok : (Except.ok a : Except ε α).map g = .ok (g a) := rfl

@[simp] theorem map_pure : (pure a : Except ε α).map g = pure (g a) := rfl

@[simp] theorem map_error (e : ε) : (Except.error e : Except ε α).map g = .error e := rfl

@[simp] theorem map_bind (g : α → Except ε β) (h : β → γ) :
    (x >>= g).map h = x >>= fun a => (g a).map h := by
  cases x <;> rfl

@[simp] theorem bind_map (h : β → Except ε γ) : x.map g >>= h = x >>= fun a => h (g a) := by
  cases x <;> rfl

@[simp] theorem map_fmap (h : β → γ) : (g <$> x).map h = (fun a => h (g a)) <$> x := by
  cases x <;> rfl

@[simp] theorem fmap_map (h : β → γ) : h <$> x.map g = (fun a => h (g a)) <$> x := by
  cases x <;> rfl

@[simp] theorem map_ite (p : Prop) [Decidable p] (x y : Except ε α) (g : α → β) :
    (if p then x else y).map g = if p then x.map g else y.map g :=
  apply_ite ..

end

variable {α β : Type} (f : Option α → Option β)

@[simps] def Step.map (s : Step α) : Step β := ⟨s.tree.map f, s.detached.map (Tree.map f)⟩

namespace Step

variable {m : Option α} {t u v w : Tree (Option α)} {cs ds : List (Tree (Option α))} {op : UnaryOp}

@[simp] theorem map_become :
    (become m t ds).map f = become (f m) (t.map f) (ds.map (Tree.map f)) := by
  simp [become, map, husk]

@[simp] theorem map_leaf {k : Kind} : (leaf m k ds).map f = leaf (f m) k (ds.map (Tree.map f)) := by
  simp [leaf, map]

theorem emptied_map (t : Tree (Option α)) : (t.map f).emptied = t.emptied.map f := by
  simp [emptied]

theorem commaParts_map : commaParts (t.map f) = (commaParts t).map (Tree.map f) := by
  obtain ⟨m, k, cs⟩ := t
  cases k <;> simp [commaParts]

theorem commaHusks_map : commaHusks (t.map f) = (commaHusks t).map (Tree.map f) := by
  obtain ⟨m, k, cs⟩ := t
  cases k <;> simp [commaHusks]

theorem logical_map {op : BinaryOp} : logical (f m) op (t.map f) (u.map f) (ds.map (Tree.map f)) =
      (logical m op t u ds).map (map f) := by
  simp [logical, Function.comp_def, apply_ite (map f)]

theorem tripleNegation_map : tripleNegation (f m) op (t.map f) (ds.map (Tree.map f)) =
      (tripleNegation m op t ds).map (Option.map (map f)) := by
  obtain ⟨om, k, ocs⟩ := t
  cases op with
  | not =>
    cases k with
    | unary op =>
      cases op with
      | not => cases ocs <;> simp [tripleNegation, apply_ite (Option.map (map f))]
      | _ => rfl
    | _ => rfl
  | _ => rfl

theorem unaryValue?_map : unaryValue? op (t.map f) = unaryValue? op t := by
  cases op <;> simp only [unaryValue?, hasEffects_map, kind_map]

theorem unary_map : unary (f m) op (cs.map (Tree.map f)) =
    (unary m op cs).map (Option.map (map f)) := by
  cases cs with
  | nil => rfl
  | cons t ds =>
    simp only [map_cons, unary, unaryValue?_map, map_bind]
    congr 1
    funext value
    cases value <;> simp [tripleNegation_map]

theorem call_map (known : WellKnown) : call known (f m) (cs.map (Tree.map f)) =
    (call known m cs).map (Option.map (map f)) := by
  cases cs with
  | nil => rfl
  | cons t ds =>
    have hkinds : (ds.map (Tree.map f)).map Tree.kind = ds.map Tree.kind := by
      simp
    simp only [map_cons, call, kind_map, part_map, hkinds]
    split
    · simp only [bind_map, map_bind, kind_map, map_ite]
      congr 1
      funext object
      split
      · rfl
      · split <;> simp
    · rfl

theorem tryStatement_map : tryStatement (f m) (t.map f) (u.map f) (v.map f) (ds.map (Tree.map f)) =
      (tryStatement m t u v ds).map (map f) := by
  simp [tryStatement, apply_ite (Option.map (map f))]

theorem chosenBranch_map {truth : Bool} : chosenBranch (f m) truth (t.map f) (cs.map (Tree.map f)) =
      (chosenBranch m truth t cs).map (map f) := by
  rcases cs with _ | ⟨a, _ | ⟨b, cs⟩⟩ <;> simp [chosenBranch]

theorem unbrace?_map : (t.map f).unbrace? = t.unbrace?.map (map f) := by
  obtain ⟨m, k, cs⟩ := t
  have hdissolvable := Tree.isDissolvable_map f (.node m k cs)
  rcases cs with _ | ⟨a, _ | ⟨b, cs⟩⟩ <;>
    simp_all [Tree.unbrace?.eq_def, apply_ite (Option.map (map f))]

theorem unbraced_map : (t.map f).unbraced = t.unbraced.map f := by
  rw [unbraced, unbraced, unbrace?_map]
  cases t.unbrace? <;> rfl

theorem firstOf_map {γ δ : Type} (g : γ → δ) {rules : List (Unit → Except Fault (Option γ))}
    {rules' : List (Unit → Except Fault (Option δ))}
    (h : List.Forall₂ (fun r r' => r' () = (r ()).map (Option.map g)) rules rules') :
    firstOf rules' = (firstOf rules).map (Option.map g) := by
  induction h with
  | nil => rfl
  | @cons r r' rs rs' hr _ ih =>
    rw [firstOf, firstOf, hr]
    rcases r () with e | _ | b
    · rfl
    · exact ih
    · rfl

@[simp] theorem isSum_node {γ : Type} (m : γ) (k : Kind) (cs : List (Tree γ)) :
    (node m k cs).isSum = (k == .binary .add) := rfl

namespace Concat

variable {left right : Tree (Option α)} {rest : List (Tree (Option α))}

theorem fold_map : fold (f m) (left.map f) (right.map f) (rest.map (Tree.map f)) =
    (fold m left right rest).map (map f) := by
  simp [fold, Function.comp_def]

theorem appendLiteral_map : appendLiteral (f m) (left.map f) (right.map f) (rest.map (Tree.map f)) =
      (appendLiteral m left right rest).map (Option.map (map f)) := by
  obtain ⟨lm, lk, _ | ⟨x, _ | ⟨⟨im, ik, ics⟩, more⟩⟩⟩ := left
  · simp [appendLiteral]
  · simp [appendLiteral]
  · cases ik <;> cases h : right.kind.text? <;> simp [appendLiteral, map, h]

theorem dropEmptyTail_map : dropEmptyTail (f m) (left.map f) (right.map f) (rest.map (Tree.map f)) =
      (dropEmptyTail m left right rest).map (Option.map (map f)) := by
  simp only [dropEmptyTail, kind_map, isCertainlyString_map, map_ite]
  rcases left.isCertainlyString with e | _ | _ <;> simp

theorem moveEmptyHead_map : moveEmptyHead (f m) (left.map f) (right.map f) (rest.map (Tree.map f)) =
      (moveEmptyHead m left right rest).map (Option.map (map f)) := by
  obtain ⟨lm, lk, _ | ⟨head, _ | ⟨x, more⟩⟩⟩ := left <;> cases h : right.kind.text? <;>
    simp [moveEmptyHead, map, h]

theorem prependLiteral_map :
    prependLiteral (f m) (left.map f) (right.map f) (rest.map (Tree.map f)) =
      (prependLiteral m left right rest).map (Option.map (map f)) := by
  obtain ⟨rm, rk, _ | ⟨⟨hm, hk, hcs⟩, others⟩⟩ := right
  · simp [prependLiteral]
  · cases hk <;> cases h : left.kind.text? <;> cases others <;> simp [prependLiteral, map, h]

theorem moveEmptyTail_map : moveEmptyTail (f m) (left.map f) (right.map f) (rest.map (Tree.map f)) =
      (moveEmptyTail m left right rest).map (Option.map (map f)) := by
  obtain ⟨rm, rk, _ | ⟨x, _ | ⟨tail, more⟩⟩⟩ := right <;> cases h : left.kind.text? <;>
    simp [moveEmptyTail, map, h]

theorem step_map : step (f m) (left.map f) (right.map f) (rest.map (Tree.map f)) =
    (step m left right rest).map (Option.map (map f)) := by
  simp only [step, kind_map, map_ite]
  congr 1
  · exact congrArg Except.ok (fold_map f)
  · exact firstOf_map (map f) (.cons (appendLiteral_map f) (.cons (dropEmptyTail_map f)
      (.cons (moveEmptyHead_map f) (.cons (prependLiteral_map f)
        (.cons (moveEmptyTail_map f) .nil)))))

end Concat

theorem merge_of_ne {current next : Tree (Option α)} (hlist : current.kind ≠ .varStatement)
    (hexpression : current.kind ≠ .expression) : merge current next = .ok none := by
  obtain ⟨m, k, cs⟩ := current
  cases k <;> first | rfl | exact absurd rfl hlist | exact absurd rfl hexpression

theorem negation_of_some (h : t.kind ≠ .unary .not) {b : Bool} (hb : t.kind.truth? = some b) :
    negation t = .ok ⟨new (.boolean !b) [], [t]⟩ := by
  unfold negation
  split
  · exact absurd rfl h
  · simp only [hb]

theorem negation_of_none (h : t.kind ≠ .unary .not) (hnone : t.kind.truth? = none) :
    negation t = (t.kind.expectExpression "unary operand").map fun _ =>
      ⟨new (.unary .not) [t], []⟩ := by
  unfold negation
  split
  · exact absurd rfl h
  · simp only [hnone]
    cases t.kind.expectExpression "unary operand" <;> rfl

section

variable (hf : f none = none)

include hf

theorem map_new (k : Kind) (cs : List (Tree (Option α))) :
    (Tree.new k cs).map f = Tree.new k (cs.map (Tree.map f)) := by
  rw [new, new, map_node, hf]

theorem map_fresh (m : Option α) (k : Kind) (cs ds : List (Tree (Option α))) :
    (fresh m k cs ds).map f = fresh (f m) k (cs.map (Tree.map f)) (ds.map (Tree.map f)) := by
  rw [fresh, fresh, map_become, map_new f hf]

theorem comma_map (t u : Tree (Option α)) : comma (t.map f) (u.map f) = (comma t u).map f := by
  simp [comma, map, commaParts_map, commaHusks_map, map_new f hf]

theorem negation_map (t : Tree (Option α)) : negation (t.map f) = (negation t).map (map f) := by
  by_cases hk : t.kind = .unary .not
  · obtain ⟨m, k, cs⟩ := t
    obtain rfl : k = _ := hk
    cases cs <;> simp [negation, map]
  have hk' : (t.map f).kind ≠ .unary .not := by rwa [Tree.kind_map]
  cases htruth : t.kind.truth? with
  | some b =>
    rw [negation_of_some hk htruth, negation_of_some hk' (by rwa [Tree.kind_map])]
    simp [map, map_new f hf]
  | none =>
    rw [negation_of_none hk htruth, negation_of_none hk' (by rwa [Tree.kind_map]), Tree.kind_map]
    cases t.kind.expectExpression "unary operand" <;> simp [map, map_new f hf]

theorem prepend_map (statement : List (Tree (Option α)) × Option α) (next : Option α) (k : Kind)
    (t : Tree (Option α)) (ds : List (Tree (Option α))) :
    prepend (statement.1.map (Tree.map f), f statement.2) (f next) k (t.map f)
      (ds.map (Tree.map f)) = (prepend statement next k t ds).map (Option.map (map f)) := by
  obtain ⟨_ | ⟨value, rest⟩, m⟩ := statement
  · rfl
  · simp [prepend, comma_map f hf, map, husk]

theorem merge_map (t u : Tree (Option α)) :
    merge (t.map f) (u.map f) = (merge t u).map (Option.map (map f)) := by
  by_cases hlist : t.kind = .varStatement
  · obtain ⟨m, k, cs⟩ := t
    obtain rfl : k = _ := hlist
    obtain ⟨m', k', cs'⟩ := u
    cases k' <;> simp [merge, map]
  by_cases hexpression : t.kind = .expression
  · obtain ⟨m, k, cs⟩ := t
    obtain rfl : k = _ := hexpression
    obtain ⟨m', k', cs'⟩ := u
    have hprepend := fun k u ds => prepend_map f hf (cs, m) m' k u ds
    simp only at hprepend
    cases k' with
    | expression => cases cs <;> cases cs' <;> simp [merge, comma_map f hf, map]
    | «return» => cases cs' <;> simp [merge, hprepend]
    | throw => cases cs' <;> simp [merge, hprepend]
    | forLoop => cases cs' <;> cases cs <;> simp_all [merge, map]
    | _ => rfl
  · rw [merge_of_ne hlist hexpression,
      merge_of_ne (by rwa [Tree.kind_map]) (by rwa [Tree.kind_map])]
    rfl

theorem logicalOf_map (m : Option α) (op : BinaryOp) (t u v : Tree (Option α)) :
    logicalOf (f m) op (t.map f) (u.map f) (v.map f) =
      (logicalOf m op t u v).map (Option.map (map f)) := by
  simp [logicalOf, map_fresh f hf]

theorem conditional_map (m : Option α) (t : Tree (Option α)) (cs : List (Tree (Option α))) :
    conditional (f m) (t.map f) (cs.map (Tree.map f)) =
      (conditional m t cs).map (Option.map (map f)) := by
  rcases cs with _ | ⟨u, _ | ⟨v, rest⟩⟩
  · rfl
  · rfl
  · simp [conditional, logicalOf_map f hf, comma_map f hf]

theorem unitedBranches_map (statement : Kind) (t u v : Tree (Option α)) :
    unitedBranches statement (t.map f) (u.map f) (v.map f) =
      (unitedBranches statement t u v).map (map f) := by
  have hbranch : ∀ t : Tree (Option α), branchValue statement (t.map f) =
      (branchValue statement t).map (Prod.map (Tree.map f) (Tree.map f)) := by
    rintro ⟨m, k, cs⟩
    cases cs <;> simp [branchValue]
  simp [unitedBranches, hbranch, map, map_new f hf]

theorem logicalStatement_map (m : Option α) (t u v : Tree (Option α)) :
    logicalStatement (f m) (t.map f) (u.map f) (v.map f) =
      (logicalStatement m t u v).map (map f) := by
  simp [logicalStatement, negation_map f hf, map_fresh f hf, map_new f hf]

end

end Step

namespace IfPlan

theorem ofBranches_map (f : α → β) (t u v : Tree α) :
    ofBranches (t.map f) (u.map f) (v.map f) = ofBranches t u v := by
  simp only [ofBranches, Tree.isEmpty_map, Tree.isNot_map, Tree.kind_map]

theorem of_map (f : α → β) (t u v : Tree α) :
    IfPlan.of (t.map f) (u.map f) (v.map f) = IfPlan.of t u v := by
  simp only [IfPlan.of, Tree.kind_map, ofBranches_map, ← apply_ite (Tree.map f),
    Tree.bindsNames_map]

end IfPlan

@[simps] def Effects.map {α β : Type} (f : α → β) (e : Effects α) : Effects β :=
  ⟨e.parts.map (Tree.map f), e.remains.map (Tree.map f)⟩

namespace Tree

section

variable {α β : Type} (f : α → β)

attribute [local simp] Effects.map

theorem discard_map (k : Kind) (cs : List (Tree α)) :
    discard k (cs.map (map f)) = discard k cs := by
  cases k <;> simp [discard, Part.get_map]

theorem effectsOperands_map (m : α) (k : Kind) {cs : List (Tree α)}
    (ih : ∀ c ∈ cs, (c.map f).effects = c.effects.map (Effects.map f)) (parts : List Part) :
    effectsOperands (f m) k parts (cs.map (map f)) =
      (effectsOperands m k parts cs).map (Effects.map f) := by
  induction parts generalizing cs with
  | nil => simp [effectsOperands]
  | cons p parts ihs =>
    cases cs with
    | nil => rfl
    | cons c cs =>
      have hcs := ihs fun d hd => ih d (.tail _ hd)
      simp [effectsOperands, ih c mem_cons_self, hcs, Function.comp_def]

theorem effects_map_both (t : Tree α) : (t.map f).effects = t.effects.map (Effects.map f) ∧
      (t.map f).effectsProperty = t.effectsProperty.map (Effects.map f) := by
  induction t with
  | node m k cs ih =>
    have hall : effectsAll (cs.map (map f)) = (effectsAll cs).map (Effects.map f) := by
      induction cs with
      | nil => rfl
      | cons c cs ihs =>
        simp [effectsAll, (ih c mem_cons_self).1, ihs fun d hd => ih d (.tail _ hd), Effects.append]
    have hproperties : effectsProperties (cs.map (map f)) =
        (effectsProperties cs).map (Effects.map f) := by
      clear hall
      induction cs with
      | nil => rfl
      | cons c cs ihs =>
        simp [effectsProperties, (ih c mem_cons_self).2, ihs fun d hd => ih d (.tail _ hd),
          Effects.append]
    have heffects := hasEffects_map f (node m k cs)
    rw [map_node] at heffects ⊢
    constructor
    · rw [effects, effects, heffects, discard_map, hall, hproperties]
      simp only [map_bind, map_ite]
      congr 1
      funext effects
      congr 1
      · simp [Effects.none]
      · congr 1
        funext how
        cases how with
        | elements | properties => simp [Effects.under]
        | operands parts => exact effectsOperands_map f m k (fun c hc => (ih c hc).1) parts
        | whole => simp [Effects.whole]
    · rw [effectsProperty.eq_def, effectsProperty.eq_def]
      cases cs with
      | nil => simp
      | cons c cs => simp [(ih c mem_cons_self).1, Effects.under]

theorem effects_map (t : Tree α) : (t.map f).effects = t.effects.map (Effects.map f) :=
  (effects_map_both f t).1

end

end Tree

def Discarded.map {α β : Type} (f : Option α → Option β) : Discarded α → Discarded β
  | .nothing => .nothing
  | .unchanged => .unchanged
  | .reduced s => .reduced (s.map f)

theorem Tree.discarded_map (hf : f none = none) (t : Tree (Option α)) :
    (t.map f).discarded = t.discarded.map (Discarded.map f) := by
  simp only [discarded, effects_map, bind_map, map_bind]
  congr 1
  funext e
  obtain ⟨parts, remains⟩ := e
  have hremains : (remains.map (map f)).flatMap children =
      (remains.flatMap children).map (map f) := by
    simp [flatMap_map, map_flatMap]
  rcases parts with _ | ⟨a, _ | ⟨b, parts⟩⟩
  · rfl
  · simp [hremains, Discarded.map]
  · simp [hremains, Discarded.map, Step.map_fresh f hf]

end ScriptPress

import ScriptPress.Proofs.Simplify.Discard
import ScriptPress.Proofs.Tree.Form

/-! # What evaluating an expression does -/

namespace ScriptPress

open List

def Effect (ε σ : Type) := σ → List ε × σ

namespace Effect

variable {ε σ : Type}

def none : Effect ε σ := fun s => ([], s)

def andThen (a b : Effect ε σ) : Effect ε σ := fun s =>
  ((a s).1 ++ (b (a s).2).1, (b (a s).2).2)

@[simp] theorem none_andThen (a : Effect ε σ) : none.andThen a = a := rfl

@[simp] theorem andThen_none (a : Effect ε σ) : a.andThen none = a := by
  funext s
  simp [andThen, none]

theorem andThen_assoc (a b c : Effect ε σ) : (a.andThen b).andThen c = a.andThen (b.andThen c) := by
  funext s
  simp [andThen, append_assoc]

end Effect

def Action (ε σ β : Type) := σ → β × List ε × σ

namespace Action

variable {ε σ β γ : Type}

def effect (a : Action ε σ β) : Effect ε σ := fun s => (a s).2

def read (f : σ → β) : Action ε σ β := fun s => (f s, [], s)

instance : Monad (Action ε σ) where
  pure b := read fun _ => b
  bind a f s := ((f (a s).1 (a s).2.2).1, a.effect.andThen (f (a s).1).effect s)

@[simp] theorem effect_read (f : σ → β) : (read f : Action ε σ β).effect = .none := rfl

@[simp] theorem effect_pure (b : β) : (pure b : Action ε σ β).effect = .none := rfl

theorem effect_bind {a : Action ε σ β} {f : β → Action ε σ γ} {e : Effect ε σ}
    (h : ∀ b, (f b).effect = e) : (a >>= f).effect = a.effect.andThen e := by
  funext s
  rw [← h (a s).1]
  rfl

end Action

/-- The operators that may change something: calls, assignments, increments and decrements, and
`delete`. -/
def Kind.acts : Kind → Bool
  | .call | .new | .assign _ => true
  | .unary .incrementBefore | .unary .incrementAfter => true
  | .unary .decrementBefore | .unary .decrementAfter | .unary .delete => true
  | _ => false

def Kind.combines : Kind → Bool
  | .binary op => !op.isLogical
  | .conditional => false
  | k => !k.acts

/-- What the operators of a language do, with values of type `ν` and states of type `σ`. -/
structure Operators (ν σ ε : Type) where
  truth : ν → Bool
  compute : Kind → List ν → σ → ν
  act : Kind → List (Tree Unit × Action ε σ ν) → Action ε σ ν

namespace Operators

variable {ν σ ε : Type}

def combine (O : Operators ν σ ε) (kind : Kind) (vs : List ν) : Action ε σ ν :=
  match kind, vs.getLast? with
  | .sequence, some v => return v
  | kind, _ => Action.read (O.compute kind vs)

theorem effect_combine (O : Operators ν σ ε) (kind : Kind) (vs : List ν) :
    (O.combine kind vs).effect = .none := by
  unfold combine
  split <;> rfl

mutual

def action (O : Operators ν σ ε) : Tree Unit → Action ε σ ν
  | .node _ kind cs =>
    if kind.acts then O.act kind (operands O cs)
    else match kind, cs with
      | .binary .logicalAnd, [x, y] => do
        let v ← action O x
        if O.truth v then action O y else return v
      | .binary .logicalOr, [x, y] => do
        let v ← action O x
        if O.truth v then return v else action O y
      | .conditional, [t, x, y] => do
        let v ← action O t
        if O.truth v then action O x else action O y
      | kind, cs => do O.combine kind (← actionAll O cs)

def actionAll (O : Operators ν σ ε) : List (Tree Unit) → Action ε σ (List ν)
  | [] => return []
  | c :: cs => do
    let v ← action O c
    return v :: (← actionAll O cs)

def operands (O : Operators ν σ ε) : List (Tree Unit) → List (Tree Unit × Action ε σ ν)
  | [] => []
  | c :: cs => (c, action O c) :: operands O cs

end

end Operators

namespace Tree

variable {α β ν σ ε : Type} {O : Operators ν σ ε} {ps : List (α × SymbolId × Tree α)}

def effect (O : Operators ν σ ε) (t : Tree α) : Effect ε σ := (O.action t.bare).effect

def effectAll (O : Operators ν σ ε) (ts : List (Tree α)) : Effect ε σ :=
  (O.actionAll (ts.map bare)).effect

variable {m : α} {k : Kind} {cs ds : List (Tree α)} {t x y : Tree α}

@[simp] theorem effectAll_nil : effectAll O ([] : List (Tree α)) = .none := by
  rw [effectAll, map_nil, Operators.actionAll]
  rfl

@[simp] theorem effectAll_cons : effectAll O (t :: cs) = (t.effect O).andThen (effectAll O cs) := by
  rw [effectAll, map_cons, Operators.actionAll]
  refine Action.effect_bind fun v => ?_
  exact (Action.effect_bind fun _ => Action.effect_pure _).trans (Effect.andThen_none _)

theorem effectAll_append : effectAll O (cs ++ ds) = (effectAll O cs).andThen (effectAll O ds) := by
  induction cs with
  | nil => simp
  | cons c cs ih => rw [cons_append, effectAll_cons, ih, effectAll_cons, Effect.andThen_assoc]

theorem effectAll_singleton : effectAll O [t] = t.effect O := by simp

theorem effectAll_eq_none (h : ∀ c ∈ cs, c.effect O = .none) : effectAll O cs = .none := by
  induction cs with
  | nil => exact effectAll_nil
  | cons c cs ih =>
    obtain ⟨hc, hcs⟩ := forall_mem_cons.mp h
    rw [effectAll_cons, hc, ih hcs, Effect.none_andThen]

theorem effect_of_combines (h : k.combines) : (node m k cs).effect O = effectAll O cs := by
  have hacts : k.acts = false := by
    cases k <;> first | rfl | simpa [Kind.combines] using h
  have haction : O.action (node () k (cs.map bare)) =
      O.actionAll (cs.map bare) >>= O.combine k := by
    rw [Operators.action.eq_def]
    simp only [hacts, Bool.false_eq_true, if_false]
    split <;> first | rfl | cases h
  rw [effect, bare_node, haction]
  exact (Action.effect_bind (O.effect_combine k)).trans (Effect.andThen_none _)

theorem effect_logical {op : BinaryOp} (hop : op.isLogical) (hy : y.effect O = .none) :
    (node m (.binary op) [x, y]).effect O = x.effect O := by
  rw [effect, bare_node, map_cons, map_cons, map_nil]
  cases op with
  | logicalAnd | logicalOr =>
    rw [Operators.action, if_neg (by decide)]
    refine (Action.effect_bind fun v => ?_).trans (Effect.andThen_none _)
    split <;> first | exact hy | rfl
  | _ => cases hop

theorem effect_conditional (hx : x.effect O = .none) (hy : y.effect O = .none) :
    (node m .conditional [t, x, y]).effect O = t.effect O := by
  rw [effect, bare_node, map_cons, map_cons, map_cons, map_nil,
    Operators.action, if_neg (by decide)]
  refine (Action.effect_bind fun v => ?_).trans (Effect.andThen_none _)
  split
  · exact hx
  · exact hy

theorem effect_of_bare {u : Tree β} (h : t.bare = u.bare) : t.effect O = u.effect O := by
  rw [effect, h, effect]

theorem hasEffects_of_any (h : anyHasEffects cs = .ok false) :
    ∀ c ∈ cs, c.hasEffects = .ok false := by
  induction cs with
  | nil => simp
  | cons c cs ih =>
    rw [anyHasEffects] at h
    obtain ⟨b, hc, hrest⟩ := exists_of_bind_eq_ok h
    cases b with
    | true => cases hrest
    | false => exact forall_mem_cons.mpr ⟨hc, ih hrest⟩

theorem hasEffects_of_anyProperty
    (h : anyPropertyHasEffects (ps.map fun p => node p.1 (.property p.2.1) [p.2.2]) = .ok false) :
    ∀ p ∈ ps, p.2.2.hasEffects = .ok false := by
  induction ps with
  | nil => simp
  | cons p ps ih =>
    rw [map_cons, anyPropertyHasEffects] at h
    obtain ⟨b, hp, hrest⟩ := exists_of_bind_eq_ok h
    cases b with
    | true => cases hrest
    | false =>
      rw [propertyHasEffects] at hp
      exact forall_mem_cons.mpr ⟨hp, ih hrest⟩

theorem effect_property {s : SymbolId} : (node m (.property s) [x]).effect O = x.effect O :=
  (effect_of_combines rfl).trans effectAll_singleton

theorem effect_of_pure (h : t.IsExpression) : t.hasEffects = .ok false → t.effect O = .none := by
  induction h with
  | array _ ih =>
    intro hpure
    rw [hasEffects] at hpure
    rw [effect_of_combines rfl]
    exact effectAll_eq_none fun c hc => ih c hc (hasEffects_of_any hpure c hc)
  | object _ ih =>
    intro hpure
    rw [hasEffects] at hpure
    rw [effect_of_combines rfl]
    refine effectAll_eq_none fun c hc => ?_
    obtain ⟨p, hp, rfl⟩ := mem_map.mp hc
    rw [effect_property]
    exact ih p hp (hasEffects_of_anyProperty hpure p hp)
  | @unary _ op _ _ ih =>
    intro hpure
    rw [hasEffects] at hpure
    cases hop : op.isPure with
    | false =>
      simp only [hop] at hpure
      cases hpure
    | true =>
      simp only [hop, if_true, operandHasEffects] at hpure
      have hcombines : (Kind.unary op).combines := by cases op <;> first | rfl | cases hop
      rw [effect_of_combines hcombines, effectAll_singleton]
      exact ih hpure
  | boolean | identifier | null | number | regExp | string | this | undefined =>
    intro _
    rw [effect_of_combines rfl, effectAll_nil]
  | _ =>
    intro hpure
    cases (show (Except.ok true : Except Fault Bool) = .ok false from hpure)

theorem IsExpression.exists_hasEffects (h : t.IsExpression) : ∃ b, t.hasEffects = .ok b := by
  induction h with
  | array _ ih =>
    rw [hasEffects]
    exact anyHasEffects_total ih
  | object _ ih =>
    rw [hasEffects]
    refine anyPropertyHasEffects_total fun c hc => ?_
    obtain ⟨p, hp, rfl⟩ := mem_map.mp hc
    rw [propertyHasEffects]
    exact ih p hp
  | @unary _ op _ _ ih =>
    rw [hasEffects]
    cases op.isPure with
    | true => simpa only [if_true, operandHasEffects] using ih
    | false => exact ⟨true, rfl⟩
  | _ => exact ⟨_, rfl⟩

def PartsDo (O : Operators ν σ ε) (t : Tree α) : Prop :=
  ∀ e, t.effects = .ok e → effectAll O e.parts = t.effect O

theorem effectAll_effectsAll (h : ∀ c ∈ cs, PartsDo O c) :
    ∀ e, effectsAll cs = .ok e → effectAll O e.parts = effectAll O cs := by
  induction cs with
  | nil =>
    intro e he
    rw [effectsAll] at he
    cases he
    rfl
  | cons c cs ih =>
    intro e he
    obtain ⟨hc, hcs⟩ := forall_mem_cons.mp h
    obtain ⟨first, others, hfirst, hothers, rfl⟩ := effectsAll_cons he
    rw [Effects.append, effectAll_append, hc first hfirst, ih hcs others hothers, effectAll_cons]

theorem effectAll_effectsProperties (h : ∀ p ∈ ps, PartsDo O p.2.2) :
    ∀ e, effectsProperties (ps.map fun p => node p.1 (.property p.2.1) [p.2.2]) = .ok e →
      effectAll O e.parts = effectAll O (ps.map fun p => node p.1 (.property p.2.1) [p.2.2]) := by
  induction ps with
  | nil =>
    intro e he
    rw [map_nil, effectsProperties] at he
    cases he
    rfl
  | cons p ps ih =>
    intro e he
    obtain ⟨hp, hps⟩ := forall_mem_cons.mp h
    rw [map_cons, effectsProperties] at he
    obtain ⟨first, hfirst, he⟩ := exists_of_bind_eq_ok he
    obtain ⟨others, hothers, he⟩ := exists_of_bind_eq_ok he
    cases he
    rw [effectsProperty] at hfirst
    obtain ⟨value, hvalue, hfirst⟩ := exists_of_bind_eq_ok hfirst
    cases hfirst
    rw [Effects.append, Effects.under, effectAll_append, hp value hvalue, ih hps others hothers,
      map_cons, effectAll_cons, effect_property]

theorem effectAll_effectsOperands {roles : List Part} (h : ∀ c ∈ cs, PartsDo O c) :
    ∀ e, effectsOperands m k roles cs = .ok e →
      effectAll O e.parts = effectAll O (cs.take roles.length) := by
  induction roles generalizing cs with
  | nil =>
    intro e he
    rw [effectsOperands] at he
    cases he
    simp
  | cons role roles ih =>
    intro e he
    cases cs with
    | nil =>
      rw [effectsOperands] at he
      cases he
    | cons c cs =>
      obtain ⟨hc, hcs⟩ := forall_mem_cons.mp h
      rw [effectsOperands] at he
      obtain ⟨first, hfirst, he⟩ := exists_of_bind_eq_ok he
      obtain ⟨others, hothers, he⟩ := exists_of_bind_eq_ok he
      cases he
      rw [effectAll_append, hc first hfirst, ih hcs others hothers, length_cons,
        take_succ_cons, effectAll_cons]

section

variable (h : (node m k cs).IsExpression)

include h

theorem partsDo_of_whole (hd : discard k cs = .ok .whole) : PartsDo O (node m k cs) := by
  intro e he
  rcases effects_cases he with ⟨hpure, rfl⟩ | ⟨hd', -⟩ | ⟨hd', -⟩ | ⟨_, hd', -⟩ | ⟨-, -, rfl⟩
  · rw [Effects.none, effectAll_nil, effect_of_pure h hpure]
  · cases hd.symm.trans hd'
  · cases hd.symm.trans hd'
  · cases hd.symm.trans hd'
  · exact effectAll_singleton

theorem partsDo_of_elements (hd : discard k cs = .ok .elements) (hk : k.combines)
    (hcs : ∀ c ∈ cs, PartsDo O c) : PartsDo O (node m k cs) := by
  intro e he
  rcases effects_cases he with ⟨hpure, rfl⟩ | ⟨-, e', he', rfl⟩ | ⟨hd', -⟩ | ⟨_, hd', -⟩ |
    ⟨-, -, rfl⟩
  · rw [Effects.none, effectAll_nil, effect_of_pure h hpure]
  · rw [Effects.under, effectAll_effectsAll hcs e' he', effect_of_combines hk]
  · cases hd.symm.trans hd'
  · cases hd.symm.trans hd'
  · exact effectAll_singleton

theorem partsDo_of_operands {roles : List Part} (hd : discard k cs = .ok (.operands roles))
    (hcs : ∀ c ∈ cs, PartsDo O c)
    (heffect : (node m k cs).effect O = effectAll O (cs.take roles.length)) :
    PartsDo O (node m k cs) := by
  intro e he
  rcases effects_cases he with ⟨hpure, rfl⟩ | ⟨hd', -⟩ | ⟨hd', -⟩ | ⟨_, hd', he'⟩ | ⟨-, -, rfl⟩
  · rw [Effects.none, effectAll_nil, effect_of_pure h hpure]
  · cases hd.symm.trans hd'
  · cases hd.symm.trans hd'
  · cases hd.symm.trans hd'
    rw [effectAll_effectsOperands hcs e he', heffect]
  · exact effectAll_singleton

end

theorem partsDo (h : t.IsExpression) : PartsDo O t := by
  induction h with
  | array hcs ih => exact partsDo_of_elements (.array hcs) rfl rfl ih
  | sequence hcs ih => exact partsDo_of_elements (.sequence hcs) rfl rfl ih
  | object hps ih =>
    intro e he
    rcases effects_cases he with ⟨hpure, rfl⟩ | ⟨hd, -⟩ | ⟨-, e', he', rfl⟩ | ⟨_, hd, -⟩ |
      ⟨-, -, rfl⟩
    · rw [Effects.none, effectAll_nil, effect_of_pure (.object hps) hpure]
    · cases hd
    · rw [Effects.under, effectAll_effectsProperties ih e' he', effect_of_combines rfl]
    · cases hd
    · exact effectAll_singleton
  | member ha ih =>
    exact partsDo_of_operands (.member ha) rfl (by simpa using ih) (effect_of_combines rfl)
  | index ha hb iha ihb =>
    exact partsDo_of_operands (.index ha hb) rfl (by simpa using ⟨iha, ihb⟩)
      (effect_of_combines rfl)
  | @unary _ op _ ha ih =>
    cases hop : op.isPure with
    | true =>
      have hcombines : (Kind.unary op).combines := by cases op <;> first | rfl | cases hop
      exact partsDo_of_operands (.unary ha) (by rw [discard, hop]; rfl) (by simpa using ih)
        (effect_of_combines hcombines)
    | false => exact partsDo_of_whole (.unary ha) (by rw [discard, hop]; rfl)
  | @binary _ op a b ha hb iha ihb =>
    have hoperands : ∀ c ∈ [a, b], PartsDo O c := by simpa using ⟨iha, ihb⟩
    cases hop : op.isLogical with
    | false =>
      have hcombines : (Kind.binary op).combines := by rw [Kind.combines, hop]; rfl
      exact partsDo_of_operands (.binary ha hb) (by rw [discard, hop]; rfl) hoperands
        (effect_of_combines hcombines)
    | true =>
      -- The right operand is left out only if it does nothing.
      obtain ⟨e, he⟩ := hb.exists_hasEffects
      have hd := discard_logical (a := a) hop he
      cases e with
      | true => exact partsDo_of_whole (.binary ha hb) hd
      | false =>
        refine partsDo_of_operands (.binary ha hb) hd hoperands ?_
        rw [effect_logical hop (effect_of_pure hb he)]
        exact effectAll_singleton.symm
  | @conditional _ a b c ha hb hc iha ihb ihc =>
    have hoperands : ∀ d ∈ [a, b, c], PartsDo O d := by simpa using ⟨iha, ihb, ihc⟩
    obtain ⟨e, he⟩ := hb.exists_hasEffects
    obtain ⟨f, hf⟩ := hc.exists_hasEffects
    have hd := discard_conditional (a := a) he hf
    cases hef : e || f with
    | true =>
      rw [hef] at hd
      exact partsDo_of_whole (.conditional ha hb hc) hd
    | false =>
      rw [hef] at hd
      obtain ⟨rfl, rfl⟩ := Bool.or_eq_false_iff.mp hef
      refine partsDo_of_operands (.conditional ha hb hc) hd hoperands ?_
      rw [effect_conditional (effect_of_pure hb he) (effect_of_pure hc hf)]
      exact effectAll_singleton.symm
  | _ =>
    refine partsDo_of_whole ?_ rfl
    constructor <;> assumption

end Tree

end ScriptPress

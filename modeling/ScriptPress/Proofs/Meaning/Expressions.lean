import ScriptPress.Proofs.Meaning.Closure

/-! # Rules for expressions preserve meaning -/

namespace ScriptPress

open List Kind Primitive

namespace Primitive

variable (p q : Primitive) (us : List Nat)

theorem sum_string : p.sum (.string us) = .string (p.text ++ us) := by
  rw [sum, if_pos (by simp [isText]), text]

theorem string_sum : (string us).sum p = .string (us ++ p.text) := by
  rw [sum, if_pos (by simp [isText]), text]

theorem sum_string_sum : (p.sum (.string us)).sum q = p.sum (.string (us ++ q.text)) := by
  rw [sum_string, string_sum, sum_string, append_assoc]

theorem sum_string_sum' : q.sum ((string us).sum p) =
    (string (q.text ++ us)).sum p := by
  rw [string_sum, sum_string, string_sum, append_assoc]

end Primitive

theorem Reads.again {β ω σ : Type} {e : Evaluation ω σ β} (h : Reads e) (again : β → Prop)
    [DecidablePred again] (k : β → Evaluation ω σ β) : (e >>= fun v => if again v then e else k v) =
      e >>= fun v => if again v then pure v else k v := by
  obtain ⟨f, rfl⟩ := h
  apply ExceptT.ext
  apply StateT.ext
  intro s
  show ((if again (f s) then _ else k (f s)) : Evaluation ω σ β).run.run s =
    ((if again (f s) then pure (f s) else k (f s)) : Evaluation ω σ β).run.run s
  split <;> rfl

namespace Kind

theorem isLiteral_of_number {k : Kind} {x : Float} (h : k.number? = some x) :
    k.isLiteral := by
  cases k <;> first | rfl | cases h

theorem isLiteral_of_foldUnary {op : UnaryOp} {k r : Kind} (h : foldUnary op k = some r) :
    k.isLiteral := by
  cases op with
  | not =>
    obtain ⟨b, hb, -⟩ := Option.map_eq_some_iff.mp h
    exact isLiteral_of_truth hb
  | negative | positive | complement =>
    obtain ⟨x, hx, -⟩ := Option.map_eq_some_iff.mp h
    exact isLiteral_of_number hx
  | _ => cases h

end Kind

namespace Tree

variable {α ω σ : Type} {H : Host ω σ} {known : WellKnown}
variable {t : Tree α} {s : Step α} {m : Option α} {x y : Tree (Option α)}

theorem evaluate_of_value {p : Primitive} (h : t.kind.value? = some p) (locals : Locals ω) :
    t.evaluate H locals = pure (.primitive p) := by
  obtain ⟨m, k, cs⟩ := t
  exact evaluate_literal H locals m cs h

theorem evaluate_of_truth {b : Bool} (h : t.kind.truth? = some b) (locals : Locals ω) :
    ∃ v : Value ω, t.evaluate H locals = pure v ∧ v.truth = b := by
  obtain ⟨p, hp⟩ := value_of_isLiteral (isLiteral_of_truth h)
  refine ⟨.primitive p, evaluate_of_value hp locals, ?_⟩
  rw [truth_of_value hp, Option.some.injEq] at h
  exact h

theorem evaluate_of_text {s : String} (h : t.kind.text? = some s) (locals : Locals ω) :
    ∃ p : Primitive, t.evaluate H locals = pure (.primitive p) ∧ p.text = Text.units s := by
  obtain ⟨p, hp⟩ := value_of_isLiteral (isLiteral_of_text h)
  refine ⟨p, evaluate_of_value hp locals, ?_⟩
  obtain ⟨s', hs', htext⟩ := text_of_value hp
  rw [h, Option.some.injEq] at hs'
  rw [hs', htext]

theorem evaluate_foldBinary {op : BinaryOp} {k : Kind} (hx : x.kind.isLiteral)
    (hy : y.kind.isLiteral) (h : foldBinary op x.kind y.kind = some k)
    (locals : Locals ω) :
    (node m (.binary op) [x, y]).evaluate H locals = (node m k []).evaluate H locals := by
  obtain ⟨p, hp⟩ := value_of_isLiteral hx
  obtain ⟨q, hq⟩ := value_of_isLiteral hy
  obtain ⟨v, hv, hop⟩ := foldBinary_of_value H.toObjects hp hq h
  have hlogical : op.isLogical = false := by
    cases op <;> first | rfl | cases h
  rw [evaluate_binary _ _ _ _ _ hlogical, evaluate_of_value hp, evaluate_of_value hq, pure_bind,
    pure_bind, hop, evaluate_literal _ _ _ _ hv]

theorem evaluate_typeOf {x : Tree α} {name : String} (hs : x.WellShaped) (hc : x.Core)
    (h : x.kind.typeName? = some name) (locals : Locals ω) :
    (x.evaluate H locals >>= fun v => pure (H.unary .typeOf v)) =
      x.evaluate H locals >>= fun _ => pure (.text name) := by
  obtain ⟨m, k, cs⟩ := x
  cases k with
  | boolean _ | null | number _ | string _ | undefined =>
    cases h
    rfl
  | unary op =>
    obtain ⟨x, rfl, -⟩ := (wellShaped_one rfl).mp hs
    rw [evaluate_unary, bind_assoc, bind_assoc]
    cases op <;> cases h <;> rfl
  | array | object | regExp _ => cases (core_node.mp hc).1
  | _ => cases h

theorem evaluate_foldUnary {op : UnaryOp} {k : Kind} (hs : x.WellShaped) (hc : x.Core)
    (h : Step.unaryValue? op x = .ok (some k)) (locals : Locals ω) :
    (node m (.unary op) [x]).evaluate H locals = (node m k []).evaluate H locals := by
  obtain ⟨e, he⟩ := hasEffects_total x hs
  rw [evaluate_unary]
  have hfold : foldUnary op x.kind = some k →
      (x.evaluate H locals >>= fun v => pure (H.unary op v)) = (node m k []).evaluate H locals := by
    intro h
    obtain ⟨p, hp⟩ := value_of_isLiteral (isLiteral_of_foldUnary h)
    obtain ⟨v, hv, hop⟩ := foldUnary_of_value H.toObjects hp h
    rw [evaluate_of_value hp, pure_bind, hop, evaluate_literal _ _ _ _ hv]
  cases op with
  | typeOf =>
    simp only [Step.unaryValue?, he] at h
    cases e with
    | true => cases h
    | false =>
      obtain ⟨name, hname, rfl⟩ := Option.map_eq_some_iff.mp (Except.ok.inj h)
      rw [evaluate_typeOf hs hc hname, (reads_of_pure x locals hs hc he).discard]
      rfl
  | void =>
    simp only [Step.unaryValue?, he] at h
    cases e with
    | true => cases h
    | false =>
      cases h
      exact (reads_of_pure (H := H) x locals hs hc he).discard (pure Value.undefined)
  | _ => exact hfold (Except.ok.inj h)

theorem evaluate_logical {op : BinaryOp} (hop : op.isLogical)
    (h : Step.logical m op x y [] = some s) (locals : Locals ω) :
    (node m (.binary op) [x, y]).evaluate H locals = s.tree.evaluate H locals := by
  obtain ⟨b, hb, rfl⟩ := Option.map_eq_some_iff.mp h
  obtain ⟨v, hv, rfl⟩ := evaluate_of_truth (H := H) hb locals
  cases op with
  | logicalAnd =>
    rw [evaluate_logicalAnd, hv, pure_bind]
    cases htruth : v.truth with
    | true => exact (evaluate_mark locals m y).symm
    | false => exact (hv.symm.trans (evaluate_mark locals m x).symm)
  | logicalOr =>
    rw [evaluate_logicalOr, hv, pure_bind]
    cases htruth : v.truth with
    | true => exact (hv.symm.trans (evaluate_mark locals m x).symm)
    | false => exact (evaluate_mark locals m y).symm
  | _ => cases hop

theorem evaluate_chosenBranch {b : Bool} {t : Tree (Option α)} (ht : t.kind.truth? = some b)
    (h : Step.chosenBranch m b t [x, y] = .ok s) (locals : Locals ω) :
    (node m .conditional [t, x, y]).evaluate H locals = s.tree.evaluate H locals := by
  obtain ⟨v, hv, rfl⟩ := evaluate_of_truth (H := H) ht locals
  rw [evaluate_conditional, hv, pure_bind]
  cases htruth : v.truth with
  | true =>
    rw [htruth] at h
    cases h
    exact (evaluate_mark locals m x).symm
  | false =>
    rw [htruth] at h
    cases h
    exact (evaluate_mark locals m y).symm

theorem evaluate_sameAs {x y : Tree α} (hx : x.WellShaped ∧ x.Core) (hy : y.WellShaped ∧ y.Core)
    (h : x.sameAs y) (locals : Locals ω) : x.evaluate H locals = y.evaluate H locals := by
  calc x.evaluate H locals
      = x.bare.evaluate H locals := (replaces_map _ x hx.1 hx.2).evaluate locals
    _ = y.bare.evaluate H locals := by rw [(sameAs_iff x y).mp h]
    _ = y.evaluate H locals := ((replaces_map _ y hy.1 hy.2).evaluate locals).symm

theorem evaluateLast_commaParts (t : Tree (Option α)) (locals : Locals ω) :
    evaluateLast H locals (Step.commaParts t) = t.evaluate H locals := by
  unfold Step.commaParts
  split <;> rfl

theorem evaluate_comma (hy : y.Core) (locals : Locals ω) :
    (Step.comma x y).tree.evaluate H locals =
      x.evaluate H locals >>= fun _ => y.evaluate H locals := by
  show (node none .sequence (Step.commaParts x ++ Step.commaParts y)).evaluate H locals = _
  rw [evaluate_sequence, evaluateLast_append _ _ (core_commaParts hy).1, ← evaluateLast_discard,
    evaluateLast_commaParts, evaluateLast_commaParts, bind_assoc]
  rfl

theorem evaluateLast_exchange {locals : Locals ω} {l r : List (Tree α)} (xs ys : List (Tree α))
    (h : discardAll H locals xs = discardAll H locals ys)
    (hlast : r = [] → xs ≠ [] ∧ ys ≠ [] ∧ evaluateLast H locals xs = evaluateLast H locals ys) :
    evaluateLast H locals (l ++ (xs ++ r)) = evaluateLast H locals (l ++ (ys ++ r)) := by
  cases r with
  | nil =>
    obtain ⟨hxs, hys, heq⟩ := hlast rfl
    rw [append_nil, append_nil, evaluateLast_append _ _ hxs, evaluateLast_append _ _ hys, heq]
  | cons c r =>
    rw [← append_assoc, ← append_assoc, evaluateLast_append _ _ (by simp),
      evaluateLast_append _ _ (by simp), discardAll_append, discardAll_append, h]

theorem evaluate_add {m : α} {x y : Tree α} (locals : Locals ω) :
    (node m (.binary .add) [x, y]).evaluate H locals =
      x.evaluate H locals >>= fun v => y.evaluate H locals >>= fun w =>
        pure (.primitive ((H.convert .default v).sum (H.convert .default w))) :=
  rfl

theorem evaluate_text (m : α) (s : String) (cs : List (Tree α)) (locals : Locals ω) :
    (node m (.string s) cs).evaluate H locals = pure (.primitive (.string (Text.units s))) :=
  rfl

theorem evaluate_of_isCertainlyString (locals : Locals ω) :
    t.WellShaped → t.isCertainlyString = .ok true → ∃ e : Evaluation ω σ (List Nat),
        t.evaluate H locals = e >>= fun us => pure (.primitive (.string us)) := by
  induction t with
  | node m k cs ih =>
    intro hs h
    cases k with
    | string s => exact ⟨pure (Text.units s), rfl⟩
    | binary op =>
      cases op with
      | add =>
        obtain ⟨x, y, rfl, hx, hy⟩ := (wellShaped_two rfl).mp hs
        rw [isCertainlyString] at h
        rw [evaluate_add]
        cases hleft : x.isCertainlyString with
        | error e =>
          rw [hleft] at h
          cases h
        | ok b =>
          rw [hleft] at h
          cases b with
          | true =>
            obtain ⟨e, he⟩ := ih x (by simp) hx.2 hleft
            refine ⟨e >>= fun us => y.evaluate H locals >>= fun w =>
              pure (us ++ (H.convert .default w).text), ?_⟩
            simp only [he, bind_assoc, pure_bind, Objects.convert, string_sum]
          | false =>
            obtain ⟨e, he⟩ := ih y (by simp) hy.2 h
            refine ⟨x.evaluate H locals >>= fun v => e >>= fun us =>
              pure ((H.convert .default v).text ++ us), ?_⟩
            simp only [he, bind_assoc, pure_bind, Objects.convert, sum_string]
      | _ => cases h
    | _ => cases h

theorem evaluate_of_isString (h : t.kind = .string "") (locals : Locals ω) :
    t.evaluate H locals = pure (.primitive (.string [])) := by
  obtain ⟨m, k, cs⟩ := t
  cases h
  rfl

theorem Rewrites.evaluate {t : Tree (Option α)} (h : Rewrites known t s) (ht : t.WellShaped)
    (hc : t.Core) (he : t.kind.isExpression) (locals : Locals ω) :
    t.evaluate H locals = s.tree.evaluate H locals := by
  have hcs : ∀ c ∈ t.children, c.WellShaped ∧ c.Core := by
    cases t
    exact fun c hmem => ⟨ht.child c hmem, (core_node.mp hc).2 c hmem⟩
  cases h
  all_goals simp only [children_node, forall_mem_append, forall_mem_cons, not_mem_nil,
    false_imp_iff, implies_true, and_true] at hcs
  case dropEmpty hk _ | splice hk _ | mergeDeclarations hk | mergeExpressions hk
      | mergeIntoValue hk _ | fillSetup hk _ | mergeIntoSetup hk _ =>
    rw [kind_node, not_isExpression_of_isList hk] at he
    cases he
  case reduce k l r c s hk hx hs =>
    cases k with
    | sequence =>
      have hr : r ≠ [] := by
        rintro rfl
        cases hk
      obtain ⟨-, heq⟩ := discardValue_of_reduced (H := H) ⟨hx, hcs.2.1.1⟩ hcs.2.1.2 hs
      rw [evaluate_sequence, evaluate_sequence]
      exact evaluateLast_exchange [c] [_] (heq locals).symm
        fun h => absurd h hr
    | expression | forLoop => cases he
    | _ => cases hk
  case dropElement c hr hnothing =>
    have hfit := (wellShaped_of_element rfl).mp ht c (by simp)
    have heq := discardValue_of_nothing (H := H) hfit hcs.2.1.2 hnothing locals
    rw [evaluate_sequence, evaluate_sequence]
    exact evaluateLast_exchange [c] [] heq fun h => absurd h hr
  case flatten m a l cs r =>
    have hne : cs ≠ [] := by simpa [isCore] using (core_node.mp hcs.2.1.2).1
    rw [evaluate_sequence, evaluate_sequence]
    refine evaluateLast_exchange [node a .sequence cs] _ ?_ fun _ => ⟨by simp, hne, rfl⟩
    exact evaluateLast_discard locals cs
  case single m x => exact (evaluate_mark locals m x).symm
  case foldUnary h => exact evaluate_foldUnary hcs.1 hcs.2 h locals
  case tripleNot m a x hx =>
    obtain ⟨b, k, cs⟩ := x
    obtain rfl : k = .unary .not := by simpa [isNot] using hx
    obtain ⟨z, rfl, -⟩ := (wellShaped_one rfl).mp (hcs.1.child _ (.head _))
    show _ = (node m (.unary .not) [z]).evaluate H locals
    simp only [evaluate_unary, bind_assoc, pure_bind]
    refine congrArg _ (funext fun v => ?_)
    show pure (Value.boolean !!!v.truth) = pure (Value.boolean !v.truth)
    rw [Bool.not_not]
  case logical hop h => exact evaluate_logical hop h locals
  case foldBinary hx hy h => exact evaluate_foldBinary hx hy h locals
  case power => cases (core_node.mp hc).1
  case appendLiteral h =>
    obtain ⟨q, hq, htext⟩ := evaluate_of_text (H := H) h locals
    simp only [evaluate_add, evaluate_text, hq, bind_assoc, pure_bind, Objects.convert,
      sum_string_sum, Text.units_append, htext]
  case dropEmptyTail m x y hy hx =>
    obtain ⟨e, he⟩ := evaluate_of_isCertainlyString (H := H) locals hcs.1.1 hx
    refine Eq.trans ?_ (evaluate_mark locals m x).symm
    simp only [evaluate_add, evaluate_of_isString hy, he, bind_assoc, pure_bind,
      Objects.convert, sum_string, Primitive.text, append_nil]
  case moveEmptyHead hh hy =>
    obtain ⟨q, hq, htext⟩ := evaluate_of_text (H := H) hy locals
    simp only [evaluate_add, evaluate_text, evaluate_of_isString hh, hq, bind_assoc, pure_bind,
      Objects.convert, string_sum, sum_string, nil_append, htext]
  case prependLiteral hy =>
    obtain ⟨q, hq, htext⟩ := evaluate_of_text (H := H) hy locals
    simp only [evaluate_add, evaluate_text, hq, bind_assoc, pure_bind, Objects.convert,
      sum_string_sum', Text.units_append, htext]
  case moveEmptyTail hz hy =>
    obtain ⟨q, hq, htext⟩ := evaluate_of_text (H := H) hy locals
    simp only [evaluate_add, evaluate_text, evaluate_of_isString hz, hq, bind_assoc, pure_bind,
      Objects.convert, string_sum, sum_string, append_nil, htext]
  case swapConditional =>
    simp only [evaluate_conditional, evaluate_unary, bind_assoc, pure_bind]
    refine congrArg _ (funext fun v => ?_)
    show (if !v.truth then _ else _) = _
    cases v.truth <;> rfl
  case choose htruth h => exact evaluate_chosenBranch htruth h locals
  case sameBranches m t x y h =>
    have hxy := evaluate_sameAs (H := H) hcs.2.1 hcs.2.2 h locals
    refine Eq.trans ?_ (evaluate_mark locals m (Step.comma t x).tree).symm
    rw [evaluate_conditional, evaluate_comma hcs.2.1.2, ← hxy]
    simp only [ite_self]
  case sameBranchesPure m t x y hpure h =>
    have hxy := evaluate_sameAs (H := H) hcs.2.1 hcs.2.2 h locals
    refine Eq.trans ?_ (evaluate_mark locals m x).symm
    rw [evaluate_conditional, ← hxy]
    simp only [ite_self]
    exact (reads_of_pure t locals hcs.1.1 hcs.1.2 hpure).discard _
  case toOr m t x y hpure h =>
    have htx := evaluate_sameAs (H := H) hcs.1 hcs.2.1 h locals
    have hreads := reads_of_pure (H := H) t locals hcs.1.1 hcs.1.2 hpure
    show _ = (node m (.binary .logicalOr) [t, y]).evaluate H locals
    rw [evaluate_conditional, evaluate_logicalOr, ← htx]
    exact hreads.again (Value.truth · = true) fun _ => y.evaluate H locals
  case toAnd m t x y hpure h =>
    have hty := evaluate_sameAs (H := H) hcs.1 hcs.2.2 h locals
    have hreads := reads_of_pure (H := H) t locals hcs.1.1 hcs.1.2 hpure
    show _ = (node m (.binary .logicalAnd) [t, x]).evaluate H locals
    rw [evaluate_conditional, evaluate_logicalAnd, ← hty]
    simpa only [ite_not] using hreads.again (¬Value.truth · = true) fun _ => x.evaluate H locals
  case unbrace k _ _ _ _ hk hs => cases k <;> first | cases he; done | cases hk
  all_goals cases he

end Tree

end ScriptPress

import ScriptPress.Proofs.Meaning.Expressions

/-! # Rules for statements preserve meaning -/

namespace ScriptPress

open List

namespace Tree

open Execution

variable {α ω σ : Type} {H : Host ω σ} {known : WellKnown} {k : Kind}
variable {t b h : Tree α} {l r : List (Tree (Option α))} {m : Option α} {s : Step α}

theorem ofEvaluation_discardValue (t : Tree α) (locals : Locals ω) :
    ofEvaluation (t.discardValue H locals) =
      ofEvaluation (t.evaluate H locals) >>= fun _ => pure () := by
  rw [discardValue, ofEvaluation_bind]
  rfl

theorem clause_of_isEmpty (h : t.isEmpty) (locals : Locals ω) :
    t.clause H locals = pure () := by
  rw [clause, h]
  rfl

theorem isEmpty_of_isExpression (h : t.kind.isExpression) : t.isEmpty = false := by
  rw [isEmpty]
  generalize t.kind = k at h ⊢
  cases k <;> first | rfl | cases h

theorem clause_of_isExpression (h : t.kind.isExpression) (locals : Locals ω) :
    t.clause H locals = ofEvaluation (t.discardValue H locals) := by
  rw [clause, isEmpty_of_isExpression h, ofEvaluation_discardValue]
  rfl

theorem execute_of_isEmpty (h : t.isEmpty) (turns : Nat) (locals : Locals ω) :
    t.execute H turns locals = pure () := by
  obtain ⟨m, k, cs⟩ := t
  obtain rfl : k = .empty := by simpa [isEmpty] using h
  exact execute_empty H locals m cs turns

theorem execute_discard (m : α) (x : Tree α) (turns : Nat) (locals : Locals ω) :
    (node m .expression [x]).execute H turns locals = ofEvaluation (x.discardValue H locals) := by
  rw [execute_expression, ofEvaluation_discardValue]

theorem discardValue_comma {x y : Tree (Option α)} (hy : y.Core) (locals : Locals ω) :
    (Step.comma x y).tree.discardValue H locals =
      x.discardValue H locals >>= fun _ => y.discardValue H locals := by
  simp only [discardValue, evaluate_comma hy, bind_assoc, pure_bind]

theorem execute_exchangeClause {c c' : Tree (Option α)}
    (hk : Kind.forLoop.discards l.length r.length)
    (h : ∀ locals, c.clause H locals = c'.clause H locals) (turns : Nat) (locals : Locals ω) :
    (node m .forLoop (l ++ c :: r)).execute H turns locals =
      (node m .forLoop (l ++ c' :: r)).execute H turns locals := by
  obtain ⟨t, u, b, rfl, rfl⟩ | ⟨a, t, b, rfl, rfl⟩ := clause_cases hk
  · rw [nil_append, nil_append, execute_forLoop, execute_forLoop, h]
  · simp only [cons_append, nil_append, execute_forLoop, turn, h]

theorem execute_exchange (xs ys : List (Tree (Option α))) (hk : k.isList) (turns : Nat)
    (locals : Locals ω) (h : executeAll H turns xs locals = executeAll H turns ys locals) :
    (node m k (l ++ (xs ++ r))).execute H turns locals =
      (node m k (l ++ (ys ++ r))).execute H turns locals := by
  have hlist : k = .module ∨ k = .block := by
    cases k <;> first | cases hk; done | simp
  simp only [execute_list _ _ _ _ _ hlist, executeAll_append, h]

theorem executeAll_single (t : Tree α) (turns : Nat) (locals : Locals ω) :
    executeAll H turns [t] locals = t.execute H turns locals := by
  rw [executeAll_cons, executeAll_nil]
  exact bind_pure _

theorem executeAll_pair (t u : Tree α) (turns : Nat) (locals : Locals ω) :
    executeAll H turns [t, u] locals =
      t.execute H turns locals >>= fun _ => u.execute H turns locals := by
  rw [executeAll_cons, executeAll_single]

theorem execute_block (h : t.kind = .block) (turns : Nat) (locals : Locals ω) :
    t.execute H turns locals = executeAll H turns t.children locals := by
  obtain ⟨m, k, cs⟩ := t
  exact execute_list H locals m cs turns (.inr h)

theorem execute_handsOver (hk : k.handsOver) :
    ∃ f : Value ω → Execution ω σ Unit, ∀ (m : α) (x : Tree α) (turns : Nat)
      (locals : Locals ω), (node m k [x]).execute H turns locals =
        ofEvaluation (x.evaluate H locals) >>= f := by
  cases k with
  | expression => exact ⟨fun _ => pure (), fun m x turns locals => rfl⟩
  | «return» => exact ⟨fun v => throw (.return v), fun m x turns locals => rfl⟩
  | throw => exact ⟨fun v => throw (.throw v), fun m x turns locals => rfl⟩
  | _ => cases hk

theorem holds_eq (t : Tree α) (locals : Locals ω) :
    t.holds H locals = ofEvaluation (t.evaluate H locals) >>= fun v => pure v.truth :=
  rfl

theorem execute_branch (m : α) (t x y : Tree α) (turns : Nat) (locals : Locals ω) :
    (node m .ifElse [t, x, y]).execute H turns locals = ofEvaluation (t.evaluate H locals) >>=
      fun v => if v.truth then x.execute H turns locals else y.execute H turns locals := by
  simp only [execute_ifElse, holds_eq, bind_assoc, pure_bind]

theorem holds_of_truth {b : Bool} (h : t.kind.truth? = some b) (locals : Locals ω) :
    t.holds H locals = pure b := by
  obtain ⟨v, hv, rfl⟩ := evaluate_of_truth (H := H) h locals
  rw [holds_eq, hv, ofEvaluation_pure, pure_bind]

theorem holds_not (m : α) (t : Tree α) (locals : Locals ω) :
    (node m (.unary .not) [t]).holds H locals = t.holds H locals >>= fun b => pure !b := by
  rw [holds_eq, holds_eq, evaluate_unary, ofEvaluation_bind, bind_assoc, bind_assoc]
  rfl

theorem holds_negation {t : Tree (Option α)} (ht : t.WellShaped) (h : Step.negation t = .ok s)
    (locals : Locals ω) : s.tree.holds H locals = t.holds H locals >>= fun b => pure !b := by
  rcases negation_cases h with ⟨m, x, rest, rfl, rfl⟩ | ⟨b, hb, rfl⟩ | rfl
  · obtain ⟨y, hy, -⟩ := (wellShaped_one rfl).mp ht
    cases hy
    rw [holds_not, bind_assoc]
    simp only [pure_bind, Bool.not_not]
    exact (bind_pure _).symm
  · rw [holds_of_truth hb, pure_bind]
    rfl
  · exact holds_not none t locals

theorem test_of_isExpression (h : t.kind.isExpression) (locals : Locals ω) :
    t.test H locals = t.holds H locals := by
  rw [test, isEmpty_of_isExpression h]
  rfl

theorem execute_unbrace {b : Tree (Option α)} (h : b.unbrace? = some s) (turns : Nat)
    (locals : Locals ω) : b.execute H turns locals = s.tree.execute H turns locals := by
  rw [execute_block (isBlock_of_unbrace h)]
  obtain ⟨m, ⟨rfl, rfl⟩ | ⟨c, rfl, rfl⟩⟩ := unbrace_cases h
  · rfl
  · refine Eq.trans ?_ (execute_mark turns locals m _).symm
    exact executeAll_single _ turns locals

theorem execute_body {b b' : Tree (Option α)} (ht : (node m k (l ++ b :: r)).WellShaped)
    (hc : (node m k (l ++ b :: r)).Core) (hb : b.kind = .block) (hb' : b'.kind.isStatement)
    (h : ∀ turns locals, b.execute H turns locals = b'.execute H turns locals) (turns : Nat)
    (locals : Locals ω) : (node m k (l ++ b :: r)).execute H turns locals =
      (node m k (l ++ b' :: r)).execute H turns locals := by
  have hexpr : b'.kind.isExpression = false := by
    generalize b'.kind = k at hb' ⊢
    cases k <;> first | rfl | cases hb'
  have hstands : Stands H b b' := by
    refine ⟨alike_of_execute (by rw [hb]; rfl) hexpr h, ?_, ?_, fun s => ?_⟩ <;>
      rw [hb] <;> rintro ⟨⟩
  refine (alike_node ?_ ht hc).execute turns locals
  exact rel_append (forall₂_same.mpr fun c _ => (Replaces.refl c).stands)
    (.cons hstands (forall₂_same.mpr fun c _ => (Replaces.refl c).stands))

theorem turn_of_isEmpty {u : Tree α} (hu : u.isEmpty) (turns : Nat) (locals : Locals ω) :
    turn H locals b t u turns = t.test H locals >>= fun v =>
      if v then enter (b.execute H turns locals) else pure false := by
  unfold turn
  rw [clause_of_isEmpty hu]
  refine congrArg _ (funext fun v => ?_)
  cases v with
  | false => rfl
  | true =>
    rw [if_pos rfl, if_pos rfl]
    refine Eq.trans (congrArg _ (funext fun w => ?_)) (bind_pure _)
    cases w <;> rfl

theorem execute_of_rethrows (hs : h.Fit Kind.fitsHandler) (hr : h.rethrows = .ok true) :
    ∃ name, h.kind = .catch name ∧ ∀ (v : Value ω) (turns : Nat) (locals : Locals ω),
      h.execute H turns (locals.set name v) = throw (.throw v) := by
  obtain ⟨m, k, cs⟩ := h
  cases k with
  | «catch» name =>
    refine ⟨name, rfl, fun v turns locals => ?_⟩
    obtain ⟨⟨b, kb, bs⟩, rfl, hb⟩ := (wellShaped_one rfl).mp hs.2
    obtain rfl : kb = .block := by simpa using hb.1
    have hbs := (wellShaped_of_element rfl).mp hb.2
    rw [execute_catch, execute_list _ _ _ _ _ (.inr rfl)]
    match bs, hr with
    | [], hr => cases hr
    | _ :: _ :: _, hr => cases hr
    | [⟨c, kc, xs⟩], hr =>
      rw [executeAll_single]
      by_cases hthrow : kc = .throw
      · subst hthrow
        obtain ⟨⟨d, kd, ys⟩, rfl, -⟩ := (wellShaped_one rfl).mp (hbs _ (.head _)).2
        have hvalue : (Except.ok (kd == .identifier name) : Except Fault Bool) = .ok true := hr
        obtain rfl : kd = .identifier name := by simpa using hvalue
        rw [execute_throw, evaluate_identifier, lookup, Locals.set, if_pos rfl]
        rfl
      · have hother : ite (kc = .throw) _ (Except.ok false) = Except.ok true := hr
        rw [if_neg hthrow] at hother
        cases hother
  | _ => cases hr

theorem attempt_of_isEmpty (hh : h.isEmpty) (turns : Nat) (locals : Locals ω) :
    attempt H locals b h turns = b.execute H turns locals := by
  obtain ⟨m, k, cs⟩ := h
  obtain rfl : k = .empty := by simpa [isEmpty] using hh
  rfl

theorem attempt_of_rethrows (hs : h.Fit Kind.fitsHandler) (hr : h.rethrows = .ok true) (turns : Nat)
    (locals : Locals ω) : attempt H locals b h turns = b.execute H turns locals := by
  obtain ⟨name, hk, hthrow⟩ := execute_of_rethrows (H := H) hs hr
  unfold attempt
  simp only [hk, hthrow]
  exact handled_throw _

theorem attempt_pure {turns : Nat} {locals : Locals ω} (hb : b.execute H turns locals = pure ()) :
    attempt H locals b h turns = pure () := by
  unfold attempt
  split
  · rw [hb, handled_pure]
  · exact hb

theorem execute_tryStatement {b h f : Tree (Option α)} (hb : b.kind = .block)
    (hs : Step.tryStatement m b h f [] = some s) (turns : Nat) (locals : Locals ω) :
    (node m .try [b, h, f]).execute H turns locals = s.tree.execute H turns locals := by
  rw [execute_try]
  unfold Step.tryStatement at hs
  split at hs
  · rename_i hnil
    have hpure : b.execute H turns locals = pure () := by
      rw [execute_block hb, isEmpty_iff.mp hnil, executeAll_nil]
    rw [attempt_pure hpure, pure_ensured]
    split at hs
    · rename_i hf
      cases hs
      exact execute_of_isEmpty hf turns locals
    · cases hs
      exact (execute_mark turns locals m f).symm
  · split at hs
    · rename_i hempty
      rw [Bool.and_eq_true] at hempty
      cases hs
      rw [attempt_of_isEmpty hempty.1, execute_of_isEmpty hempty.2, ensured_pure]
      exact (execute_mark turns locals m b).symm
    · cases hs

theorem Rewrites.execute {t : Tree (Option α)} (h : Rewrites known t s) (ht : t.WellShaped)
    (hc : t.Core) (he : t.kind.isExpression = false) (turns : Nat) (locals : Locals ω) :
    t.execute H turns locals = s.tree.execute H turns locals := by
  have hcs : ∀ c ∈ t.children, c.WellShaped ∧ c.Core := by
    cases t
    exact fun c hmem => ⟨ht.child c hmem, (core_node.mp hc).2 c hmem⟩
  cases h
  all_goals simp only [children_node, forall_mem_append, forall_mem_cons, not_mem_nil,
    false_imp_iff, implies_true, and_true] at hcs
  case dropEmpty c hk hempty =>
    refine execute_exchange [c] [] hk turns locals ?_
    rw [executeAll_single, execute_of_isEmpty hempty, executeAll_nil]
  case splice c hk hd =>
    refine execute_exchange [c] c.children hk turns locals ?_
    rw [executeAll_single, execute_block (isBlock_of_isDissolvable hd)]
  case mergeDeclarations => cases (core_node.mp hcs.2.1.2).1
  case mergeExpressions hk =>
    refine execute_exchange [_, _] [_] hk turns locals ?_
    rw [executeAll_pair, executeAll_single, execute_discard, execute_discard, execute_discard,
      discardValue_comma (core_single hcs.2.2.1.2), ofEvaluation_bind]
  case mergeIntoValue v hk hv =>
    obtain ⟨f, hf⟩ := execute_handsOver (α := Option α) (H := H) (k := v)
      (by rcases hv with rfl | rfl <;> rfl)
    refine execute_exchange [_, _] [_] hk turns locals ?_
    rw [executeAll_pair, executeAll_single, execute_expression, hf, hf,
      evaluate_comma (core_single hcs.2.2.1.2), ofEvaluation_bind, bind_assoc, bind_assoc]
    rfl
  case fillSetup hk hs =>
    have hexpr := (wellShaped_singleton rfl).mp hcs.2.1.1
    obtain ⟨_, t, u, d, ⟨⟩, -⟩ := (wellShaped_four rfl).mp hcs.2.2.1.1
    refine execute_exchange [_, _] [_] hk turns locals ?_
    rw [executeAll_pair, executeAll_single, execute_discard, execute_forLoop, execute_forLoop,
      clause_of_isEmpty hs, clause_of_isExpression hexpr.1, pure_bind]
  case mergeIntoSetup setup others hk hs =>
    have hsetup := (core_node.mp hcs.2.2.1.2).2 setup (.head _)
    obtain ⟨_, t, u, d, ⟨⟩, -⟩ := (wellShaped_four rfl).mp hcs.2.2.1.1
    refine execute_exchange [_, _] [_] hk turns locals ?_
    rw [executeAll_pair, executeAll_single, execute_discard, execute_forLoop, execute_forLoop,
      clause_of_isExpression hs, clause_of_isExpression rfl, discardValue_comma hsetup,
      ofEvaluation_bind, bind_assoc]
  case reduce k l r c s hk hx hs =>
    obtain ⟨hshape, hcore⟩ := hcs.2.1
    obtain ⟨-, heq⟩ := discardValue_of_reduced (H := H) ⟨hx, hshape⟩ hcore hs
    have hs' := (reduced_total ⟨hx, hshape⟩ hs).1
    cases k with
    | expression =>
      obtain ⟨x, hone, -⟩ := (wellShaped_one rfl).mp ht
      obtain ⟨rfl, rfl⟩ : l = [] ∧ r = [] := by
        cases l <;> cases r <;> simp at hone ⊢
      rw [nil_append, nil_append, execute_discard, execute_discard, heq]
    | forLoop =>
      refine execute_exchangeClause hk (fun locals => ?_) turns locals
      rw [clause_of_isExpression hx, clause_of_isExpression hs'.1, heq]
    | sequence => cases he
    | _ => cases hk
  case dropStatement hnothing =>
    have hfit := (wellShaped_singleton rfl).mp ht
    rw [execute_discard, discardValue_of_nothing hfit hcs.2 hnothing]
    rfl
  case dropClause hk hx hnothing =>
    refine execute_exchangeClause hk (fun locals => ?_) turns locals
    rw [clause_of_isExpression hx, clause_of_isEmpty rfl,
      discardValue_of_nothing ⟨hx, hcs.2.1.1⟩ hcs.2.1.2 hnothing]
    rfl
  case unbrace hk hs =>
    exact execute_body ht hc (isBlock_of_unbrace hs) (fit_unbrace hcs.2.1.1 hs).1
      (execute_unbrace hs) turns locals
  case dropTest t _ _ htrue =>
    have htruth : t.kind.truth? = some true := by simpa [Kind.isTruthy] using htrue
    have hx := Kind.isExpression_of_isLiteral (Kind.isLiteral_of_truth htruth)
    rw [execute_forLoop, execute_forLoop, turn, turn, test_of_isExpression hx,
      holds_of_truth htruth]
    rfl
  case whileToFor m t b =>
    have hfit := ((wellShaped_pair rfl).mp ht).1
    show _ = (node m .forLoop [new .empty [], t, new .empty [], b]).execute H turns locals
    rw [execute_whileLoop, execute_forLoop, turn_of_isEmpty rfl, clause_of_isEmpty rfl,
      test_of_isExpression hfit.1, pure_bind]
  case dropRethrow hh =>
    have hfit := ((wellShaped_triple rfl).mp ht).2.1
    rw [execute_try, execute_try, attempt_of_rethrows hfit hh, attempt_of_isEmpty rfl]
  case dropFinalizer => rfl
  case tryBlock hs =>
    have hfit := ((wellShaped_triple rfl).mp ht).1
    exact execute_tryStatement (eq_of_beq hfit.1) hs turns locals
  case take m truth t x y htruth _ =>
    rw [execute_ifElse, holds_of_truth htruth, pure_bind]
    cases truth with
    | true => exact (execute_mark turns locals m x).symm
    | false => exact (execute_mark turns locals m y).symm
  case testOnly m t x y hx hy =>
    show _ = (node m .expression [t]).execute H turns locals
    rw [execute_branch, execute_of_isEmpty hx, execute_of_isEmpty hy, execute_expression]
    simp only [ite_self]
  case invert h =>
    rw [execute_ifElse, execute_ifElse, holds_negation hcs.1.1 h, bind_assoc]
    refine congrArg _ (funext fun v => ?_)
    rw [pure_bind]
    cases v <;> rfl
  case join m a b k t x y hk =>
    obtain ⟨f, hf⟩ := execute_handsOver (α := Option α) (H := H) hk
    show _ = (node m k [node none .conditional [t, x, y]]).execute H turns locals
    rw [execute_branch, hf, hf, hf, evaluate_conditional, ofEvaluation_bind, bind_assoc]
    refine congrArg _ (funext fun v => ?_)
    cases v.truth <;> rfl
  case toLogical m a t x y hy =>
    show _ = (node m .expression [node none (.binary .logicalAnd) [t, x]]).execute H turns locals
    rw [execute_branch, execute_of_isEmpty hy, execute_expression, execute_expression,
      evaluate_logicalAnd, ofEvaluation_bind, bind_assoc]
    refine congrArg _ (funext fun v => ?_)
    cases v.truth <;> rfl
  case toLogicalNot m a b t x y hy =>
    show _ = (node m .expression [node none (.binary .logicalOr) [t, x]]).execute H turns locals
    rw [execute_branch, evaluate_unary, execute_of_isEmpty hy, execute_expression,
      execute_expression, evaluate_logicalOr, ofEvaluation_bind, ofEvaluation_bind, bind_assoc,
      bind_assoc]
    refine congrArg _ (funext fun v => ?_)
    rw [ofEvaluation_pure, pure_bind]
    show (if !v.truth then _ else _) = _
    cases v.truth <;> rfl
  all_goals cases he

end Tree

end ScriptPress

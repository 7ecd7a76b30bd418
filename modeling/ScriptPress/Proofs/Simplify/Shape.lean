import ScriptPress.Proofs.Simplify.Discard
import ScriptPress.Proofs.Simplify.Reduction

/-! # Reductions keep trees well-shaped -/

namespace ScriptPress

open List Kind Option Step

namespace Kind

variable {k b a : Kind}

theorem element_of_isList (h : k.isList) : k.element? = some isStatement := by
  cases k <;> first | rfl | cases h

theorem not_isExpression_of_isList (h : k.isList) : k.isExpression = false := by
  cases k <;> first | rfl | cases h

theorem not_isExpression_of_hasBody (h : k.hasBody) : k.isExpression = false := by
  cases k <;> first | rfl | cases h

theorem places_of_handsOver (h : k.handsOver) : k.places? = some [isExpression] := by
  cases k <;> first | rfl | cases h

theorem isLiteral_of_truth {b : Bool} (h : k.truth? = some b) : k.isLiteral := by
  cases k <;> first | rfl | cases h

theorem isLiteral_of_text {s : String} (h : k.text? = some s) : k.isLiteral := by
  cases k <;> first | rfl | cases h

/-! ## Folding gives literals -/

theorem isLiteral_foldNumbers {f : Float → Float → Float} (h : foldNumbers f a b = some k) :
    k.isLiteral := by
  obtain ⟨x, -, h⟩ := bind_eq_some_iff.mp h
  obtain ⟨y, -, h⟩ := bind_eq_some_iff.mp h
  cases h
  rfl

theorem isLiteral_foldSum (h : foldSum a b = some k) : k.isLiteral := by
  unfold foldSum at h
  split at h
  · obtain ⟨x, -, h⟩ := bind_eq_some_iff.mp h
    obtain ⟨y, -, h⟩ := bind_eq_some_iff.mp h
    cases h
    rfl
  · exact isLiteral_foldNumbers h

theorem isLiteral_map_boolean {o : Option Bool} {f : Bool → Bool}
    (h : o.map (fun b => boolean (f b)) = some k) : k.isLiteral := by
  obtain ⟨b, -, rfl⟩ := map_eq_some_iff.mp h
  rfl

theorem isLiteral_foldBinary {op : BinaryOp} (h : foldBinary op a b = some k) :
    k.isLiteral := by
  cases op <;> simp only [foldBinary] at h
  case add => exact isLiteral_foldSum h
  case equal | equalStrict => exact isLiteral_map_boolean (f := id) h
  case notEqual | notEqualStrict => exact isLiteral_map_boolean h
  case lessThan | lessThanEqual | greaterThan | greaterThanEqual =>
    simp only [foldOrder, some.injEq] at h
    subst h
    rfl
  case «in» | instanceOf | logicalAnd | logicalOr => cases h
  all_goals exact isLiteral_foldNumbers h

theorem isLiteral_foldUnary {op : UnaryOp} (h : foldUnary op a = some k) : k.isLiteral := by
  cases op <;> simp only [foldUnary, map_eq_some_iff, reduceCtorEq] at h
  all_goals
    obtain ⟨x, -, rfl⟩ := h
    rfl

end Kind

namespace Step

variable {α : Type}

theorem isLiteral_unaryValue (h : unaryValue? op x = .ok (some k)) : k.isLiteral := by
  unfold unaryValue? at h
  split at h
  · obtain ⟨b, -, h⟩ := exists_of_bind_eq_ok h
    cases b with
    | true => cases h
    | false =>
      obtain ⟨s, -, rfl⟩ := map_eq_some_iff.mp (Except.ok.inj h)
      rfl
  · obtain ⟨b, -, h⟩ := exists_of_bind_eq_ok h
    cases b <;> cases h
    rfl
  · exact isLiteral_foldUnary (Except.ok.inj h)

end Step

namespace Tree

variable {α : Type} (xs ys : List (Tree (Option α)))
variable {m : Option α} {t x y b h f t' : Tree (Option α)} {s : Step α}
  {l r d : List (Tree (Option α))} {k : Kind} {known : WellKnown}

/-! ## What rules leave -/

theorem isBlock_of_isDissolvable {t : Tree α} (h : t.isDissolvable) : t.kind = .block := by
  simp only [isDissolvable, Bool.and_eq_true, beq_iff_eq] at h
  exact h.1

theorem unbrace_cases (h : b.unbrace? = some s) :
    ∃ m, b = node m .block [] ∧ s = leaf m .empty [] ∨
      ∃ c, b = node m .block [c] ∧ s = become m c [] := by
  obtain ⟨m, k, cs⟩ := b
  simp only [unbrace?] at h
  split at h
  · rename_i hd
    obtain rfl : k = .block := isBlock_of_isDissolvable hd
    split at h
    · cases h
      exact ⟨m, .inl ⟨rfl, rfl⟩⟩
    · cases h
      exact ⟨m, .inr ⟨_, rfl, rfl⟩⟩
    · cases h
  · cases h

theorem isBlock_of_unbrace (h : b.unbrace? = some s) : b.kind = .block := by
  obtain ⟨m, ⟨rfl, -⟩ | ⟨c, rfl, -⟩⟩ := unbrace_cases h <;> rfl

theorem tryStatement_cases (hs : tryStatement m b h f [] = some s) :
    s = leaf m .empty [b, h, f] ∨ s = become m f [b, h] ∨ s = become m b [h, f] := by
  unfold tryStatement at hs
  split at hs
  · split at hs <;> cases hs
    · exact .inl rfl
    · exact .inr (.inl rfl)
  · split at hs <;> cases hs
    exact .inr (.inr rfl)

theorem negation_cases (h : negation t = .ok s) :
    (∃ m x rest, t = node m (.unary .not) (x :: rest) ∧ s = ⟨x, [node m (.unary .not) rest]⟩) ∨
      (∃ b, t.kind.truth? = some b ∧ s = ⟨new (.boolean !b) [], [t]⟩) ∨
        s = ⟨new (.unary .not) [t], []⟩ := by
  unfold negation at h
  split at h
  · split at h <;> cases h
    exact .inl ⟨_, _, _, rfl, rfl⟩
  · split at h
    · rename_i b hb
      cases h
      exact .inr (.inl ⟨b, hb, rfl⟩)
    · obtain ⟨_, -, h⟩ := exists_of_bind_eq_ok h
      cases h
      exact .inr (.inr rfl)

/-! ## Trees made of well-shaped ones -/

theorem fit_mark {fits : Fits} : (node m t.kind t.children).Fit fits ↔ t.Fit fits := by
  obtain ⟨m', k, cs⟩ := t
  simp only [Fit, kind_node, children_node, wellShaped_node]

theorem fit_leaf (h : k.isLiteral) : (node m k []).Fit isExpression :=
  ⟨isExpression_of_isLiteral h, (wellShaped_none (places_of_isLiteral h)).mpr rfl⟩

theorem fit_empty {fits : Fits} (h : fits .empty) : (node m .empty []).Fit fits :=
  ⟨h, (wellShaped_none rfl).mpr rfl⟩

theorem fit_commaParts (h : t.Fit isExpression) :
    ∀ c ∈ commaParts t, c.Fit isExpression := by
  unfold commaParts
  split
  · exact (wellShaped_of_element rfl).mp h.2
  · simpa using h

theorem fit_comma (hx : x.Fit isExpression) (hy : y.Fit isExpression) :
    (comma x y).tree.Fit isExpression := by
  refine ⟨rfl, (wellShaped_of_element rfl).mpr fun c hc => ?_⟩
  rcases mem_append.mp hc with hc | hc
  · exact fit_commaParts hx c hc
  · exact fit_commaParts hy c hc

theorem fit_negation (ht : t.Fit isExpression) (h : negation t = .ok s) :
    s.tree.Fit isExpression := by
  rcases negation_cases h with ⟨m, x, rest, rfl, rfl⟩ | ⟨b, -, rfl⟩ | rfl
  · obtain ⟨y, hy, hfit⟩ := (wellShaped_one rfl).mp ht.2
    obtain ⟨rfl, rfl⟩ := List.cons.inj hy
    exact hfit
  · exact fit_leaf rfl
  · exact ⟨rfl, (wellShaped_one rfl).mpr ⟨t, rfl, ht⟩⟩

theorem fit_unbrace (hb : b.WellShaped) (h : b.unbrace? = some s) :
    s.tree.Fit isStatement := by
  obtain ⟨m, ⟨rfl, rfl⟩ | ⟨c, rfl, rfl⟩⟩ := unbrace_cases h
  · exact fit_empty rfl
  · exact fit_mark.mpr ((wellShaped_of_element rfl).mp hb c (.head _))

theorem fit_logical {op : BinaryOp} (hx : x.Fit isExpression) (hy : y.Fit isExpression)
    (h : logical m op x y [] = some s) : s.tree.Fit isExpression := by
  obtain ⟨b, -, rfl⟩ := map_eq_some_iff.mp h
  split
  · exact fit_mark.mpr hy
  · exact fit_mark.mpr hx

theorem fit_chosenBranch {b : Bool} (hx : x.Fit isExpression) (hy : y.Fit isExpression)
    (h : chosenBranch m b t [x, y] = .ok s) : s.tree.Fit isExpression := by
  cases b <;> cases h
  · exact fit_mark.mpr hy
  · exact fit_mark.mpr hx

theorem isStatement_of_fitsFinalizer (h : k.fitsFinalizer) : k.isStatement := by
  cases k <;> first | rfl | cases h

theorem fit_tryStatement (hb : b.Fit (· == .block)) (hf : f.Fit fitsFinalizer)
    (hs : tryStatement m b h f [] = some s) : s.tree.Fit isStatement := by
  rcases tryStatement_cases hs with rfl | rfl | rfl
  · exact fit_empty rfl
  · exact fit_mark.mpr ⟨isStatement_of_fitsFinalizer hf.1, hf.2⟩
  · exact fit_mark.mpr ⟨by rw [eq_of_beq hb.1]; rfl, hb.2⟩

/-! ## Rules -/

theorem wellShaped_list (hk : k.isList) (h : (node m k (l ++ (xs ++ r))).WellShaped)
    (hys : (∀ x ∈ xs, x.Fit isStatement) → ∀ y ∈ ys, y.Fit isStatement) :
    (node m k (l ++ (ys ++ r))).WellShaped := by
  rw [wellShaped_of_element (element_of_isList hk)] at h ⊢
  simp only [forall_mem_append] at h ⊢
  exact ⟨h.1, hys h.2.1, h.2.2⟩

theorem wellShaped_sequence (h : (node m .sequence (l ++ (xs ++ r))).WellShaped)
    (hys : (∀ x ∈ xs, x.Fit isExpression) → ∀ y ∈ ys, y.Fit isExpression) :
    (node m .sequence (l ++ (ys ++ r))).WellShaped := by
  rw [wellShaped_of_element rfl] at h ⊢
  simp only [forall_mem_append] at h ⊢
  exact ⟨h.1, hys h.2.1, h.2.2⟩

theorem wellShaped_body {b' : Tree (Option α)} (hk : k.hasBody)
    (h : (node m k (l ++ b :: r)).WellShaped) (hb : b.kind = .block)
    (hb' : b'.Fit isStatement) : (node m k (l ++ b' :: r)).WellShaped := by
  have hplaces : ∃ places, k.places? = some places ∧
      ∀ fits ∈ places, fits .block → fits = isStatement := by
    cases k <;> simp only [hasBody, Bool.false_eq_true] at hk <;>
      exact ⟨_, rfl, by simp [fitsSetup, fitsClause, fitsHead, isExpression,
        isVariable, category]⟩
  obtain ⟨places, hp, hfits⟩ := hplaces
  rw [wellShaped_of_places hp] at h ⊢
  clear hp
  induction l generalizing places with
  | nil =>
    cases h with
    | cons hx hr =>
      refine .cons ?_ hr
      have := hfits _ mem_cons_self (by rw [← hb]; exact hx.1)
      rw [this]
      exact hb'
  | cons a l ih =>
    cases h with
    | cons ha hr => exact .cons ha (ih _ hr fun f hf => hfits f (.tail _ hf))

theorem clause_cases (hk : forLoop.discards l.length r.length) :
    (∃ t u b, l = [] ∧ r = [t, u, b]) ∨ ∃ a t b, l = [a, t] ∧ r = [b] := by
  rcases l with _ | ⟨a, _ | ⟨t, _ | ⟨u, l⟩⟩⟩ <;> rcases r with _ | ⟨x, _ | ⟨y, _ | ⟨z, _ | _⟩⟩⟩ <;>
    first | cases hk; done | simp

theorem wellShaped_clause {c c' : Tree (Option α)}
    (hk : forLoop.discards l.length r.length)
    (h : (node m .forLoop (l ++ c :: r)).WellShaped) (hc : c'.Fit fitsClause) :
    (node m .forLoop (l ++ c' :: r)).WellShaped := by
  obtain ⟨t, u, b, rfl, rfl⟩ | ⟨a, t, b, rfl, rfl⟩ := clause_cases hk
  · obtain ⟨-, hothers⟩ := (wellShaped_quadruple rfl).mp h
    refine (wellShaped_quadruple rfl).mpr ⟨⟨?_, hc.2⟩, hothers⟩
    simp only [fitsSetup, Bool.or_eq_true]
    exact .inl (Bool.or_eq_true _ _ ▸ hc.1)
  · obtain ⟨ha, ht, -, hb⟩ := (wellShaped_quadruple rfl).mp h
    exact (wellShaped_quadruple rfl).mpr ⟨ha, ht, hc, hb⟩

theorem wellShaped_merge {a c : Tree (Option α)} (hk : k.isList)
    (h : (node m k (l ++ a :: b :: r)).WellShaped)
    (hc : a.Fit isStatement → b.Fit isStatement → c.Fit isStatement) :
    (node m k (l ++ c :: r)).WellShaped ∧ k.Substitutes k := by
  refine ⟨wellShaped_list [a, b] [c] hk h fun hx => forall_mem_singleton.mpr ?_, .refl _⟩
  exact hc (hx a (.head _)) (hx b (.tail _ (.head _)))

theorem Fit.expression (h : t.Fit isExpression) (hk : k.isExpression) :
    t.WellShaped ∧ t.kind.Substitutes k :=
  ⟨h.2, .expression hk h.1⟩

theorem Fit.statement (h : t.Fit isStatement) (hk : k.isRewritten) :
    t.WellShaped ∧ t.kind.Substitutes k :=
  ⟨h.2, .statement hk h.1⟩

theorem Rewrites.wellShaped (h : Rewrites known t s) (ht : t.WellShaped) :
    s.tree.WellShaped ∧ s.tree.kind.Substitutes t.kind := by
  cases h
  all_goals try first | rw [wellShaped_pair rfl] at ht | rw [wellShaped_triple rfl] at ht
  case dropEmpty c hk _ => exact ⟨wellShaped_list [c] [] hk ht (by simp), .refl _⟩
  case splice c hk hc =>
    refine ⟨wellShaped_list [c] _ hk ht fun hx => ?_, .refl _⟩
    have hb := isBlock_of_isDissolvable hc
    obtain ⟨m', k', cs⟩ := c
    cases hb
    exact (wellShaped_of_element rfl).mp (hx _ (.head _)).2
  case mergeDeclarations hk =>
    refine wellShaped_merge hk ht fun hx hy => ⟨rfl, (wellShaped_of_element rfl).mpr ?_⟩
    rw [forall_mem_append]
    exact ⟨(wellShaped_of_element rfl).mp hx.2, (wellShaped_of_element rfl).mp hy.2⟩
  case mergeExpressions hk =>
    refine wellShaped_merge hk ht fun hx hy => ⟨rfl, (wellShaped_singleton rfl).mpr ?_⟩
    exact fit_comma ((wellShaped_singleton rfl).mp hx.2) ((wellShaped_singleton rfl).mp hy.2)
  case mergeIntoValue v hk hv =>
    have hplaces : v.places? = some [isExpression] := by rcases hv with rfl | rfl <;> rfl
    refine wellShaped_merge hk ht fun hx hy => ⟨hy.1, (wellShaped_singleton hplaces).mpr ?_⟩
    exact fit_comma ((wellShaped_singleton rfl).mp hx.2) ((wellShaped_singleton hplaces).mp hy.2)
  case fillSetup setup others hk hs =>
    refine wellShaped_merge hk ht fun hx hy => ?_
    have hx := (wellShaped_singleton rfl).mp hx.2
    refine ⟨rfl, wellShaped_clause (l := []) (c := setup) ?_ hy.2
      ⟨by simp [fitsClause, hx.1], hx.2⟩⟩
    obtain ⟨_, _, _, _, heq, -⟩ := (wellShaped_four rfl).mp hy.2
    cases heq
    rfl
  case mergeIntoSetup setup others hk hs =>
    refine wellShaped_merge hk ht fun hx hy => ⟨rfl, WellShaped.exchange (l := []) hy.2 ?_
      (.expression hs rfl)⟩
    exact (fit_comma ((wellShaped_singleton rfl).mp hx.2) ⟨hs, hy.2.child setup (.head _)⟩).2
  case reduce c s _ hc hs =>
    have hfit := (reduced_total ⟨hc, ht.child c (by simp)⟩ hs).1
    exact ⟨ht.exchange hfit.2 (.expression hc hfit.1), .refl _⟩
  case dropStatement => exact (fit_empty rfl).statement rfl
  case dropElement c _ _ => exact ⟨wellShaped_sequence [c] [] ht (by simp), .refl _⟩
  case dropClause hk _ _ => exact ⟨wellShaped_clause hk ht (fit_empty rfl), .refl _⟩
  case flatten =>
    refine ⟨wellShaped_sequence [_] _ ht fun hx => ?_, .refl _⟩
    exact (wellShaped_of_element rfl).mp (hx _ (.head _)).2
  case single x =>
    exact (fit_mark.mpr ((wellShaped_of_element rfl).mp ht x (.head _))).expression rfl
  case foldUnary h => exact (fit_leaf (isLiteral_unaryValue h)).expression rfl
  case tripleNot =>
    have hx := (wellShaped_singleton rfl).mp ((wellShaped_singleton rfl).mp ht).2
    exact (fit_mark.mpr hx).expression rfl
  case logical h => exact (fit_logical ht.1 ht.2 h).expression rfl
  case foldBinary h => exact (fit_leaf (isLiteral_foldBinary h)).expression rfl
  case power => exact (fit_leaf rfl).expression rfl
  case appendLiteral =>
    have hx := ((wellShaped_pair rfl).mp ht.1.2).1
    exact ⟨(wellShaped_pair rfl).mpr ⟨hx, fit_leaf rfl⟩, .refl _⟩
  case dropEmptyTail => exact (fit_mark.mpr ht.1).expression rfl
  case moveEmptyHead =>
    have hx := ((wellShaped_pair rfl).mp ht.1.2).2
    exact ⟨(wellShaped_pair rfl).mpr ⟨hx, fit_leaf rfl⟩, .refl _⟩
  case prependLiteral =>
    have hx := ((wellShaped_pair rfl).mp ht.2.2).2
    exact ⟨(wellShaped_pair rfl).mpr ⟨fit_leaf rfl, hx⟩, .refl _⟩
  case moveEmptyTail =>
    have hx := ((wellShaped_pair rfl).mp ht.2.2).1
    exact ⟨(wellShaped_pair rfl).mpr ⟨fit_leaf rfl, hx⟩, .refl _⟩
  case swapConditional =>
    have hx := (wellShaped_singleton rfl).mp ht.1.2
    exact ⟨(wellShaped_triple rfl).mpr ⟨hx, ht.2.2, ht.2.1⟩, .refl _⟩
  case choose h => exact (fit_chosenBranch ht.2.1 ht.2.2 h).expression rfl
  case sameBranches => exact (fit_mark.mpr (fit_comma ht.1 ht.2.1)).expression rfl
  case sameBranchesPure => exact (fit_mark.mpr ht.2.1).expression rfl
  case toOr => exact ⟨(wellShaped_pair rfl).mpr ⟨ht.1, ht.2.2⟩, .expression rfl rfl⟩
  case toAnd => exact ⟨(wellShaped_pair rfl).mpr ⟨ht.1, ht.2.1⟩, .expression rfl rfl⟩
  case unbrace b _ hk hs =>
    have hfit := fit_unbrace (ht.child b (by simp)) hs
    exact ⟨wellShaped_body hk ht (isBlock_of_unbrace hs) hfit, .refl _⟩
  case dropTest =>
    rw [wellShaped_quadruple rfl] at ht
    exact ⟨(wellShaped_quadruple rfl).mpr ⟨ht.1, fit_empty rfl, ht.2.2⟩, .refl _⟩
  case whileToFor =>
    refine ⟨(wellShaped_quadruple rfl).mpr ⟨fit_empty rfl, ⟨?_, ht.1.2⟩, fit_empty rfl, ht.2⟩,
      .statement rfl rfl⟩
    simp [fitsClause, ht.1.1]
  case dropRethrow => exact ⟨(wellShaped_triple rfl).mpr ⟨ht.1, fit_empty rfl, ht.2.2⟩, .refl _⟩
  case dropFinalizer => exact ⟨(wellShaped_triple rfl).mpr ⟨ht.1, ht.2.1, fit_empty rfl⟩, .refl _⟩
  case tryBlock hs => exact (fit_tryStatement ht.1 ht.2.2 hs).statement rfl
  case take truth _ _ _ _ _ =>
    cases truth
    · exact (fit_mark.mpr ht.2.2).statement rfl
    · exact (fit_mark.mpr ht.2.1).statement rfl
  case testOnly => exact ⟨(wellShaped_singleton rfl).mpr ht.1, .statement rfl rfl⟩
  case invert h =>
    exact ⟨(wellShaped_triple rfl).mpr ⟨fit_negation ht.1 h, ht.2.2, ht.2.1⟩, .refl _⟩
  case join hk =>
    have hplaces := places_of_handsOver hk
    have hx := (wellShaped_singleton hplaces).mp ht.2.1.2
    have hy := (wellShaped_singleton hplaces).mp ht.2.2.2
    refine ⟨(wellShaped_singleton hplaces).mpr ⟨rfl, ?_⟩, .statement rfl ht.2.1.1⟩
    exact (wellShaped_triple rfl).mpr ⟨ht.1, hx, hy⟩
  case toLogical =>
    have hx := (wellShaped_singleton rfl).mp ht.2.1.2
    refine ⟨(wellShaped_singleton rfl).mpr ⟨rfl, ?_⟩, .statement rfl rfl⟩
    exact (wellShaped_pair rfl).mpr ⟨ht.1, hx⟩
  case toLogicalNot =>
    have ht' := (wellShaped_singleton rfl).mp ht.1.2
    have hx := (wellShaped_singleton rfl).mp ht.2.1.2
    refine ⟨(wellShaped_singleton rfl).mpr ⟨rfl, ?_⟩, .statement rfl rfl⟩
    exact (wellShaped_pair rfl).mpr ⟨ht', hx⟩

theorem Reduces.wellShaped (h : Reduces known t t' d) (ht : t.WellShaped) :
    t'.WellShaped ∧ t'.kind.Substitutes t.kind := by
  induction h with
  | refl t => exact ⟨ht, .refl _⟩
  | rule h => exact h.wellShaped ht
  | trans _ _ ih ih' =>
    obtain ⟨hu, hk⟩ := ih ht
    obtain ⟨hv, hk'⟩ := ih' hu
    exact ⟨hv, hk.trans hk'⟩
  | child _ ih =>
    rename_i m k l r c c' d _
    obtain ⟨hc, hk⟩ := ih (ht.child c (by simp))
    exact ⟨ht.exchange hc hk, .refl _⟩

/-! ## Marks -/

theorem mark_comma (x y : Tree (Option α)) : (comma x y).tree.mark = none :=
  rfl

section

variable [DecidableEq α] (a : α)

theorem count_commaParts (t : Tree (Option α)) :
    (marksAll (commaParts t)).count a + (marksAll (commaHusks t)).count a =
      t.marks.count a := by
  fun_cases commaParts t with
  | case1 m cs =>
    simp only [commaHusks, marks_node, marksAll_cons, marksAll_nil, count_append, append_nil]
    omega
  | case2 t h => simp [commaHusks]

theorem count_comma (x y : Tree (Option α)) :
    (comma x y).tree.marks.count a + (marksAll (comma x y).detached).count a =
      x.marks.count a + y.marks.count a := by
  have hx := count_commaParts a x
  have hy := count_commaParts a y
  simp only [comma, new, marks_node, toList_none, nil_append, marksAll_append,
    count_append]
  omega

theorem count_become (m : Option α) (x : Tree (Option α))
    (dropped : List (Tree (Option α))) : (become m x dropped).tree.marks.count a +
        (marksAll (become m x dropped).detached).count a =
      m.toList.count a + x.marks.count a + (marksAll dropped).count a := by
  have := (marks_become m x dropped).count_eq a
  simp only [count_append] at this
  omega

theorem count_marks (t : Tree (Option α)) :
    t.mark.toList.count a + (marksAll t.children).count a = t.marks.count a := by
  rw [t.marks_eq, count_append]

theorem count_negation (h : negation t = .ok s) :
    s.tree.marks.count a + (marksAll s.detached).count a = t.marks.count a := by
  rcases negation_cases h with ⟨m, x, rest, rfl, rfl⟩ | ⟨b, -, rfl⟩ | rfl
  · simp only [marks_node, marksAll_cons, marksAll_nil, append_nil, count_append]
    omega
  · simp [new]
  · simp [new]

theorem count_unbrace (h : b.unbrace? = some s) :
    s.tree.marks.count a + (marksAll s.detached).count a = b.marks.count a := by
  obtain ⟨m, ⟨rfl, rfl⟩ | ⟨c, rfl, rfl⟩⟩ := unbrace_cases h
  · simp [leaf]
  · rw [count_become]
    simp [count_append]

theorem count_tryStatement (hs : tryStatement m b h f [] = some s) :
    s.tree.marks.count a + (marksAll s.detached).count a =
      m.toList.count a + b.marks.count a + h.marks.count a + f.marks.count a := by
  rcases tryStatement_cases hs with rfl | rfl | rfl
  · simp only [leaf, marks_node, marksAll_cons, marksAll_nil, append_nil, count_append]
    omega
  · simp only [count_become, marksAll_cons, marksAll_nil, append_nil, count_append]
    omega
  · simp only [count_become, marksAll_cons, marksAll_nil, append_nil, count_append]
    omega

theorem count_logical {op : BinaryOp}
    (h : logical m op x y [] = some s) : s.tree.marks.count a + (marksAll s.detached).count a =
      m.toList.count a + x.marks.count a + y.marks.count a := by
  obtain ⟨b, -, rfl⟩ := map_eq_some_iff.mp h
  split <;> simp only [count_become, marksAll_cons, marksAll_nil, append_nil]
  omega

theorem count_chosenBranch {b : Bool}
    (h : chosenBranch m b t [x, y] = .ok s) :
    s.tree.marks.count a + (marksAll s.detached).count a =
      m.toList.count a + t.marks.count a + x.marks.count a + y.marks.count a := by
  cases b <;> cases h <;>
    simp only [count_become, marksAll_cons, marksAll_nil, append_nil, count_append] <;>
    omega

end

theorem Rewrites.marks (h : Rewrites known t s) (ht : t.WellShaped) :
    (s.tree.marks ++ marksAll s.detached).Perm t.marks := by
  classical
  rw [perm_iff_count]
  intro z
  rw [count_append]
  cases h
  -- What the steps that are computed by functions of their own do to the marks.
  case' mergeExpressions x y _ => have := count_comma z x y
  case' mergeIntoValue x y _ _ _ => have := count_comma z x y
  case' mergeIntoSetup x setup _ _ _ => have := count_comma z x setup
  case' reduce c s _ hc hs =>
    have := (reduced_total ⟨hc, ht.child c (by simp)⟩ hs).2.count_eq z
  case' splice c _ _ => have := count_marks z c
  case' dropClause c _ _ _ => have := count_marks z c
  case' moveEmptyHead y _ _ => have := count_marks z y
  case' prependLiteral y _ => have := count_marks z y
  case' moveEmptyTail y _ _ _ => have := count_marks z y
  case' dropTest t _ _ _ => have := count_marks z t
  case' dropRethrow h _ _ => have := count_marks z h
  case' logical h => have := count_logical z h
  case' choose h => have := count_chosenBranch z h
  case' sameBranches t x y _ => have := count_comma z t x
  case' unbrace hs => have := count_unbrace z hs
  case' tryBlock hs => have := count_tryStatement z hs
  case' invert h => have := count_negation z h
  case' take truth t x y _ _ => cases truth
  all_goals
    simp only [count_become, fresh, leaf, emptied, new, marks_node, marksAll_append,
      marksAll_cons, marksAll_nil, append_nil, nil_append, count_append,
      toList_none, count_nil, husk, mark_comma, Bool.false_eq_true, if_true,
      if_false] at * <;>
    omega

theorem Reduces.marks (h : Reduces known t t' d) (ht : t.WellShaped) :
    (t'.marks ++ marksAll d).Perm t.marks := by
  classical
  simp only [perm_iff_count, count_append]
  induction h with
  | refl t => simp
  | rule h =>
    intro z
    have := (h.marks ht).count_eq z
    rwa [count_append] at this
  | trans h h' ih ih' =>
    intro z
    have ih := ih ht z
    have ih' := ih' (h.wellShaped ht).1 z
    rw [marksAll_append, count_append]
    omega
  | child h ih =>
    intro z
    have := ih (ht.child _ (by simp)) z
    simp only [marks_node, marksAll_append, marksAll_cons, count_append]
    omega

end Tree

end ScriptPress

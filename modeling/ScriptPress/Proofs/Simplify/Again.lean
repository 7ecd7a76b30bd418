import ScriptPress.Proofs.Simplify.Settled

/-! # A second pass -/

namespace ScriptPress

open List Tree Kind Step

open Simplifying (Ensures Carries Runs)

namespace Simplifying

open Tree (Calm Still isTidy Rewrites)

variable {α β : Type} {known : WellKnown} {S : Prop} {k : Kind}
variable {m : Option α} {x t y b : Tree (Option α)} {s : Step α}
variable {cs : List (Tree (Option α))} {op : BinaryOp}

/-! ## Operators and calls -/

theorem performOr_calm {x : Except Fault (Option (Step α))}
    (hrules : applyRules known (.node m k cs) = liftM x >>= performOr (.node m k cs))
    (hcs : ∀ c ∈ cs, Calm known S c) (hsome : ∀ s, x = .ok (some s) → Calm known S s.tree) :
    Ensures (liftM x >>= performOr (.node m k cs)) fun _ t => Calm known S t := by
  refine ensures_lift fun o ho => ensures_performOr (fun hnone => ?_) fun s hs => ?_
  · subst hnone
    refine calm_of_eq ?_ hcs
    rw [hrules, ho, lift_ok_bind]
    rfl
  · exact hsome s (hs ▸ ho)

theorem calm_of_simple (h : Rewrites known t s) (hk : (t.kind.isInert || t.kind.isEvent))
    (ht : t.WellShaped) (hcs : ∀ c ∈ t.children, Calm known S c) : Calm known S s.tree := by
  rcases h.of_simple hk with ⟨m, k, hlit, heq⟩ | ⟨m, a, x, rfl, heq⟩
  · rw [heq]
    exact calm_literal hlit
  · have hinner := ht.child (.node a (.unary .not) [x]) (by simp)
    have hx := hinner.child x (by simp)
    have hcalm := (hcs (.node a (.unary .not) [x]) (by simp)).children x (by simp)
    rw [heq]
    exact hcalm.mark hx m

theorem offers_calm {x : Except Fault (Option (Step α))} (h : Offers known (.node m k cs) x)
    (hrules : applyRules known (.node m k cs) = liftM x >>= performOr (.node m k cs))
    (hk : (k.isInert || k.isEvent)) (ht : (node m k cs).WellShaped)
    (hcs : ∀ c ∈ cs, Calm known S c) :
    Ensures (applyRules known (.node m k cs)) fun _ t => Calm known S t := by
  obtain ⟨o, ho, hrule⟩ := h
  rw [hrules]
  refine performOr_calm hrules hcs fun s hs => ?_
  rw [ho, Except.ok.injEq] at hs
  exact calm_of_simple (hrule s hs) hk ht hcs

theorem logical_calm (h : logical m op x y [] = some s) (hx : x.WellShaped) (hy : y.WellShaped)
    (hxc : Calm known S x) (hyc : Calm known S y) : Calm known S s.tree := by
  obtain ⟨b, -, rfl⟩ := Option.map_eq_some_iff.mp h
  split
  · exact hyc.mark hy m
  · exact hxc.mark hx m

theorem logical_still (hop : op.isLogical) (hx : x.kind.truth? = none) :
    applyRules known (.node m (.binary op) [x, y]) = pure (.node m (.binary op) [x, y]) := by
  show binary m op [x, y] = _
  simp only [binary, hop, if_true, logical, hx, Option.map_none]
  rfl

theorem sum_still (h : Concat.step m x y [] = .ok none) :
    applyRules known (.node m (.binary .add) [x, y]) = pure (.node m (.binary .add) [x, y]) := by
  show binary m .add [x, y] = _
  by_cases hlit : (x.kind.isLiteral && y.kind.isLiteral)
  · simp only [Concat.step, hlit, if_true, Concat.fold, Except.ok.injEq] at h
    simp only [binary, hlit, if_true, h]
    rfl
  · simp only [binary, hlit, Bool.false_eq_true, if_false]
    rw [concat_sum, h]
    rfl

theorem sum_calm (h : Rewrites known t s) (hk : t.kind = .binary .add) (ht : t.WellShaped)
    (hcs : ∀ c ∈ t.children, Calm known S c) :
    (∀ c ∈ s.tree.children, Calm known S c) ∧ (s.tree.isSum = false → Calm known S s.tree) := by
  have hshape : ∀ c ∈ t.children, c.WellShaped := by
    obtain ⟨m, k, cs⟩ := t
    exact ht.child
  cases h
  all_goals simp only [kind_node, reduceCtorEq, binary.injEq] at hk
  all_goals simp only [children_node, forall_mem_cons, not_mem_nil, false_imp_iff,
    implies_true, and_true] at hcs hshape
  case logical hop _ =>
    subst hk
    cases hop
  case reduce hlist _ _ | dropEmpty hlist _ | splice hlist _ | mergeDeclarations hlist |
      mergeExpressions hlist | mergeIntoValue hlist _ | fillSetup hlist _ | mergeIntoSetup hlist _ |
      unbrace hlist _ =>
    subst hk
    cases hlist
  case foldBinary h =>
    exact ⟨by simp [leaf], fun _ => calm_literal (isLiteral_foldBinary h)⟩
  case appendLiteral =>
    have hx := hcs.1.children
    simp only [children_node, forall_mem_cons] at hx
    exact ⟨by simpa using ⟨hx.1, calm_literal rfl⟩, by simp [isSum]⟩
  case dropEmptyTail => exact ⟨hcs.1.children, fun _ => hcs.1.mark hshape.1 _⟩
  case moveEmptyHead =>
    have hx := hcs.1.children
    simp only [children_node, forall_mem_cons] at hx
    exact ⟨by simpa using ⟨hx.2.1, calm_literal rfl⟩, by simp [isSum]⟩
  case prependLiteral =>
    have hx := hcs.2.children
    simp only [children_node, forall_mem_cons] at hx
    exact ⟨by simpa using ⟨calm_literal rfl, hx.2.1⟩, by simp [isSum]⟩
  case moveEmptyTail =>
    have hx := hcs.2.children
    simp only [children_node, forall_mem_cons] at hx
    exact ⟨by simpa using ⟨calm_literal rfl, hx.1⟩, by simp [isSum]⟩

theorem concat_calm (n : Nat) : ∀ t : Tree (Option α), t.size ≤ n → t.WellShaped →
    (∀ c ∈ t.children, Calm known S c) → (t.isSum = false → Calm known S t) →
    Ensures (concat t) fun _ t' => Calm known S t' := by
  induction n with
  | zero =>
    intro t hn
    have := t.size_pos
    omega
  | succ n ih =>
    intro t hn ht hcs hcalm
    by_cases hsum : t.isSum
    · obtain ⟨m, x, y, rfl, hx, hy⟩ := sum_cases ht hsum
      rw [concat_sum]
      refine ensures_lift fun o ho => ?_
      cases o with
      | none => exact ensures_pure (calm_of_eq (sum_still ho) hcs)
      | some s =>
        have hsize := Concat.step_size ho
        obtain ⟨o, ho', hrule⟩ : Offers known (.node m (.binary .add) [x, y]) _ :=
          Concat.step_offers hx hy
        rw [ho, Except.ok.injEq] at ho'
        have hrule := hrule s ho'.symm
        obtain ⟨hcs', hcalm'⟩ := sum_calm hrule rfl ht hcs
        simp only [Concat.weight, sizes_nil] at hsize
        simp only [size_node, sizes_cons, sizes_nil] at hn
        exact ensures_performThen (ih s.tree (by omega) (hrule.wellShaped ht).1 hcs' hcalm')
    · rw [concat_of_ne (by simpa [isSum] using hsum)]
      exact ensures_pure (hcalm (by simpa using hsum))

theorem binary_calm (ht : (node m (.binary op) [x, y]).WellShaped) (hxc : Calm known S x)
    (hyc : Calm known S y) : Ensures (binary m op [x, y]) fun _ t => Calm known S t := by
  obtain ⟨hx, hy⟩ := (wellShaped_pair rfl).mp ht
  have hcs : ∀ c ∈ [x, y], Calm known S c := by simpa using ⟨hxc, hyc⟩
  by_cases hop : op.isLogical
  · simp only [binary, hop, if_true]
    refine ensures_performOr (fun hnone => calm_of_eq (logical_still hop ?_) hcs) fun s hs => ?_
    · simpa [logical] using hnone
    · exact logical_calm hs hx.2 hy.2 hxc hyc
  · by_cases hlit : (x.kind.isLiteral && y.kind.isLiteral)
    · simp only [binary, hop, hlit, if_true, Bool.false_eq_true, if_false]
      refine ensures_performOr (fun hnone => calm_of_eq ?_ hcs) fun s hs => ?_
      · show binary m op [x, y] = _
        simp only [binary, hop, hlit, if_true, Bool.false_eq_true, if_false, hnone]
        rfl
      · obtain ⟨k, hk, rfl⟩ := Option.map_eq_some_iff.mp hs
        exact calm_literal (isLiteral_foldBinary hk)
    · simp only [binary, hop, hlit, Bool.false_eq_true, if_false]
      refine concat_calm _ _ (Nat.le_refl _) ht hcs fun hsum => calm_of_eq ?_ hcs
      show binary m op [x, y] = _
      simp only [binary, hop, hlit, Bool.false_eq_true, if_false]
      exact concat_of_ne (by simpa [isSum] using hsum)

/-! ## Conditionals -/

theorem isWhole_of_guarded (ht : t.Fit isExpression) (hplain : t.isPlainTest)
    (hnot : t.isNot = false) (heffects : t.hasEffects = .ok true) : t.isWhole := by
  rw [isPlainTest_of_ne hnot, Bool.or_eq_true] at hplain
  rcases hplain with hevent | hinert
  · exact isWhole_of_isEvent hevent
  · rw [hasEffects_of_isInert (.of_fit ht) hinert] at heffects
    cases heffects

theorem calm_sameBranches (ht : t.Fit isExpression) (hx : x.WellShaped)
    (hguard : S → t.isPlainTest ∧ x.Guarded) (hnot : t.isNot = false)
    (heffects : t.hasEffects = .ok true) (htc : Calm known S t) (hxc : Calm known S x) :
    Calm known S (.node m .sequence (commaParts t ++ commaParts x)) := by
  refine calm_tidy (fun hS => ?_) (forall_mem_append.mpr ⟨calm_commaParts htc, calm_commaParts hxc⟩)
  obtain ⟨hplain, hg⟩ := hguard hS
  have hwhole := isWhole_of_guarded ht hplain hnot heffects
  have hparts := commaParts_of_ne (not_sequence_of_isWhole hwhole)
  exact isTidy_comma (by simp [hparts]) (by simpa [hparts] using hwhole)
    (guarded_commaParts hg).1 fun hk => isTidy_of_calm hxc hx hk hS

theorem conditional_step_calm (h : Step.conditional m t [x, y] = .ok (some s))
    (hshape : (node m .conditional [t, x, y]).WellShaped)
    (hguard : S → (node m .conditional [t, x, y]).Guarded) (hnot : t.isNot = false)
    (htruth : t.kind.truth? = none) (hcs : ∀ c ∈ [t, x, y], Calm known S c) :
    Calm known S s.tree := by
  obtain ⟨ht, hx, hy⟩ := (wellShaped_triple rfl).mp hshape
  have htc := hcs t (by simp)
  have hxc := hcs x (by simp)
  have hyc := hcs y (by simp)
  have hlogical : ∀ {op u v w}, Step.logicalOf m op u v w = .ok (some s) →
      s.tree = .node m (.binary op) [u, v] := by
    intro op u v w h
    obtain ⟨_, _, h⟩ := exists_of_bind_eq_ok h
    obtain ⟨_, _, h⟩ := exists_of_bind_eq_ok h
    cases h
    rfl
  obtain ⟨effects, heffects⟩ := hasEffects_total t ht.2
  simp only [Step.conditional, heffects, bind, Except.bind, isEmpty_nil, if_true] at h
  split at h
  · split at h
    · rename_i htrue
      subst htrue
      cases h
      refine calm_sameBranches ht hx.2 (fun hS => ⟨?_, (hguard hS).children x (by simp)⟩) hnot
        heffects htc hxc
      exact (guarded_node.mp (hguard hS)).1
    · cases h
      exact hxc.mark hx.2 m
  · split at h
    · rw [hlogical h]
      exact calm_of_eq (logical_still rfl htruth) (by simpa using ⟨htc, hyc⟩)
    · split at h
      · rw [hlogical h]
        exact calm_of_eq (logical_still rfl htruth) (by simpa using ⟨htc, hxc⟩)
      · cases h

theorem conditionalOn_calm (t : Tree (Option α)) :
    ∀ x y : Tree (Option α), (node m .conditional [t, x, y]).WellShaped →
      (S → (node m .conditional [t, x, y]).Guarded) → (∀ c ∈ [t, x, y], Calm known S c) →
      Ensures (conditionalOn m t [x, y]) fun _ t' => Calm known S t' := by
  induction t with
  | node a k cs ih =>
    intro x y hshape hguard hcs
    obtain ⟨ht, hx, hy⟩ := (wellShaped_triple rfl).mp hshape
    by_cases hk : k = .unary .not
    · subst hk
      obtain ⟨z, rfl, -⟩ := (wellShaped_one rfl).mp ht.2
      have hswap : Rewrites known (.node m .conditional [.node a (.unary .not) [z], x, y])
          ⟨.node m .conditional [z, y, x], [.node a (.unary .not) []]⟩ := .swapConditional
      have hz := (hcs (.node a (.unary .not) [z]) (by simp)).children z (by simp)
      unfold conditionalOn
      refine ensures_release (ensures_noteChange (ih z (by simp) y x (hswap.wellShaped hshape).1
        (fun hS => hswap.guarded hshape (hguard hS)) ?_))
      simpa using ⟨hz, hcs y (by simp), hcs x (by simp)⟩
    · cases htruth : k.truth? with
      | some b =>
        rw [conditionalOn_of_some (t := .node a k cs) hk htruth]
        refine ensures_lift fun s hs => ensures_perform ?_
        cases b with
        | true =>
          cases hs
          exact (hcs x (by simp)).mark hx.2 m
        | false =>
          cases hs
          exact (hcs y (by simp)).mark hy.2 m
      | none =>
        have hnone : conditionalOn m (.node a k cs) [x, y] = _ := conditionalOn_of_none hk htruth
        rw [hnone]
        refine performOr_calm ?_ hcs fun s hs => ?_
        · exact hnone
        · exact conditional_step_calm hs hshape hguard (by simpa [isNot] using hk) htruth hcs

/-! ## Exception handlers -/

theorem tryStatement_calm {h f : Tree (Option α)} (ht : (node m .try [b, h, f]).WellShaped)
    (hcs : ∀ c ∈ [b, h, f], Calm known S c) :
    Ensures (tryStatement m [b, h, f]) fun _ t => Calm known S t := by
  have hshape := ht.child
  have hhandler : Ensures (dropRethrow h) fun _ h' =>
      Calm known S h' ∧ dropRethrow h' = pure h' := by
    unfold dropRethrow
    refine ensures_lift fun r hr => ?_
    cases r with
    | true => exact ensures_perform ⟨calm_empty, rfl⟩
    | false =>
      refine ensures_pure ⟨hcs h (by simp), ?_⟩
      rw [hr]
      rfl
  have hfinalizer : Ensures (dropEmptyFinalizer f) fun _ f' =>
      Calm known S f' ∧ f'.WellShaped ∧ dropEmptyFinalizer f' = pure f' := by
    unfold dropEmptyFinalizer
    split
    · refine ensures_perform ⟨calm_empty, rfl, ?_⟩
      rw [if_neg (by simp [leaf])]
    · rename_i hno
      exact ensures_pure ⟨hcs f (by simp), hshape f (by simp), if_neg hno⟩
  unfold tryStatement
  refine hhandler.bind fun _ h' hh => hfinalizer.bind fun _ f' hf => ?_
  refine ensures_performOr (fun hnone => calm_of_eq ?_ ?_) fun s hs => ?_
  · show tryStatement m [b, h', f'] = _
    rw [tryStatement, hh.2, pure_bind]
    dsimp only
    rw [hf.2.2, pure_bind, hnone]
    rfl
  · simpa using ⟨hcs b (by simp), hh.1, hf.1⟩
  · rcases tryStatement_cases hs with rfl | rfl | rfl
    · exact calm_empty
    · exact hf.1.mark hf.2.1 m
    · exact (hcs b (by simp)).mark (hshape b (by simp)) m

theorem plain_calm (t : Tree (Option α)) (hk : t.kind ≠ .ifElse) (ht : t.WellShaped)
    (hguard : S → t.Guarded) (hcs : ∀ c ∈ t.children, Calm known S c) :
    Ensures (plain known t) fun _ t' => Calm known S t' := by
  obtain ⟨m, k, cs⟩ := t
  rw [children_node] at hcs
  cases k with
  | ifElse => exact absurd rfl hk
  | module => exact statements_calm rfl ht hguard hcs
  | block => exact statements_calm rfl ht hguard hcs
  | expression =>
    obtain ⟨x, rfl, hx⟩ := (wellShaped_one rfl).mp ht
    exact expressionStatement_calm hx (hcs x (by simp))
  | whileLoop =>
    obtain ⟨t, b, rfl, -, hb⟩ := (wellShaped_two rfl).mp ht
    exact whileLoop_calm hb.2 (hcs t (by simp)) (hcs b (by simp))
  | forLoop =>
    obtain ⟨a, t, u, b, rfl, ha, -, hu, hb⟩ := (wellShaped_four rfl).mp ht
    exact forLoop_calm ha.2 hu.2 hb.2 hcs
  | doWhile =>
    obtain ⟨b, t, rfl, -⟩ := (wellShaped_two rfl).mp ht
    exact within_calm (l := []) rfl rfl (fun _ => rfl) ht hcs
  | forIn =>
    obtain ⟨a, v, b, rfl, -⟩ := (wellShaped_three rfl).mp ht
    exact within_calm (l := [a, v]) rfl rfl (fun _ => rfl) ht hcs
  | label s =>
    obtain ⟨b, rfl, -⟩ := (wellShaped_one rfl).mp ht
    exact within_calm (l := []) rfl rfl (fun _ => rfl) ht hcs
  | «try» =>
    obtain ⟨b, h, f, rfl, -⟩ := (wellShaped_three rfl).mp ht
    exact tryStatement_calm ht hcs
  | conditional =>
    obtain ⟨t, x, y, rfl, -⟩ := (wellShaped_three rfl).mp ht
    exact conditionalOn_calm t x y ht hguard hcs
  | sequence => exact sequence_calm ht hcs
  | call => exact offers_calm (call_offers ht) rfl rfl ht hcs
  | unary op =>
    obtain ⟨x, rfl, hx⟩ := (wellShaped_one rfl).mp ht
    exact offers_calm (unary_offers hx.2) rfl (by simp [Kind.isInert, Kind.isEvent]) ht hcs
  | binary op =>
    obtain ⟨x, y, rfl, -⟩ := (wellShaped_two rfl).mp ht
    exact binary_calm ht (hcs x (by simp)) (hcs y (by simp))
  | _ => exact ensures_pure (calm_of_eq rfl hcs)

/-! ## Branches -/

theorem truth_of_still {a : Option α} {z : Tree (Option α)} (hz : z.Fit isExpression)
    (h : Still known (.node a (.unary .not) [z])) : z.kind.truth? = none := by
  cases htruth : z.kind.truth? with
  | none => rfl
  | some b =>
    refine h.elim ((wellShaped_singleton rfl).mpr hz) ?_
    have hstep : Step.unary a .not [z] = .ok (some (Step.leaf a (.boolean !b) [z])) := by
      simp only [Step.unary, Step.unaryValue?, foldUnary, htruth, Option.map_some]
      rfl
    show Ensures (liftM (Step.unary a .not [z]) >>= performOr _) _
    rw [hstep, lift_ok_bind]
    exact ensures_perform fun hn => by cases hn

theorem negation_still (hnot : t.kind ≠ .unary .not) (htruth : t.kind.truth? = none) :
    applyRules known (.node m (.unary .not) [t]) = pure (.node m (.unary .not) [t]) := by
  have htriple : Step.tripleNegation m .not t [] = .ok none := by
    unfold Step.tripleNegation
    split
    · exact absurd rfl hnot
    · rfl
  have hstep : Step.unary m .not [t] = .ok none := by
    simp only [Step.unary, Step.unaryValue?, foldUnary, htruth, Option.map_none]
    exact htriple
  show (liftM (Step.unary m .not [t]) >>= performOr _) = _
  rw [hstep, lift_ok_bind]
  rfl

theorem negation_calm (h : negation t = .ok s) (ht : t.WellShaped) (hcalm : Calm known S t) :
    Calm known S s.tree := by
  by_cases hnot : t.isNot
  · obtain ⟨b, z, rfl⟩ := not_cases ht hnot
    cases h
    exact hcalm.children z (by simp)
  · have hk : t.kind ≠ .unary .not := by simpa [isNot] using hnot
    cases htruth : t.kind.truth? with
    | some b =>
      rw [negation_of_some hk htruth] at h
      cases h
      exact calm_literal rfl
    | none =>
      rw [negation_of_none hk htruth] at h
      cases hexpect : t.kind.expectExpression "unary operand" with
      | error e =>
        rw [hexpect] at h
        cases h
      | ok _ =>
        rw [hexpect] at h
        cases h
        exact calm_of_eq (negation_still hk htruth) (by simpa using hcalm)

theorem uniteBranches_calm (hk : k.handsOver) (hx : x.kind = k) (hy : y.kind = k)
    (h : (node m .ifElse [t, x, y]).WellShaped) (hguard : S → (node m .ifElse [t, x, y]).Guarded)
    (hcs : ∀ c ∈ [t, x, y], Calm known S c) :
    Ensures (uniteBranches m k t x y) fun _ t' => Calm known S t' := by
  have hplaces := Kind.places_of_handsOver hk
  obtain ⟨ht, hxs, hys⟩ := (wellShaped_triple rfl).mp h
  obtain ⟨a, v, rfl, hv⟩ := value_of_handsOver hk hx hxs.2
  obtain ⟨b, w, rfl, hw⟩ := value_of_handsOver hk hy hys.2
  have hjoin : Rewrites known (.node m .ifElse [t, .node a k [v], .node b k [w]]) _ := .join hk
  have hstatement := (hjoin.wellShaped h).1
  have hvalue := ((wellShaped_singleton hplaces).mp hstatement).2
  have hguard' : S → (new .conditional [t, v, w]).Guarded := fun hS =>
    (hjoin.guarded h (hguard hS)).children _ (by simp)
  have hshape : Carries known _ (fun c => .node m k [c]) (conditional none [t, v, w]) :=
    (conditional_carries hvalue).child (l := []) (r := []) (by rintro rfl; cases hk)
  have hvc := (hcs (.node a k [v]) (by simp)).children v (by simp)
  have hwc := (hcs (.node b k [w]) (by simp)).children w (by simp)
  have hconditional : Ensures (conditional none [t, v, w]) fun _ t' => Calm known S t' :=
    conditionalOn_calm t v w hvalue hguard' (by simpa using ⟨hcs t (by simp), hvc, hwc⟩)
  unfold uniteBranches
  refine ensures_lift fun joined hjoined => ?_
  rw [unitedBranches_eq_ok ht hv hw] at hjoined
  cases hjoined
  refine ensures_release ((hconditional.and (hshape.wellShaped hstatement)).bind ?_)
  rintro n c ⟨hc, hshape⟩
  refine ensures_noteChange ?_
  split
  · rename_i he
    subst he
    exact expressionStatement_calm ((wellShaped_singleton rfl).mp hshape) hc
  · rename_i hne
    refine ensures_pure (calm_of_eq ?_ (by simpa using hc))
    cases k <;> first | exact absurd rfl hne | rfl | cases hk

theorem truth_of_logical (h : IfPlan.of t x y = .logical) (hx : x.WellShaped)
    (hxk : x.kind = .expression) (hy : y.WellShaped) (hyk : y.isEmpty) :
    t.kind.truth? = none := by
  have hxb : x.bindsNames = false := by
    obtain ⟨m, v, rfl, hv⟩ := value_of_handsOver rfl hxk hx
    obtain ⟨a, k, cs⟩ := v
    obtain hk : k.isExpression := hv.1
    have hroot : (node m .expression [node a k cs]).isBinder = false := rfl
    rw [bindsNames_node, hroot, any_cons, bindsNames_node,
      isBinder_of_isExpression (.inl hk), hk]
    rfl
  have hyb : y.bindsNames = false := by
    obtain ⟨m, k, cs⟩ := y
    obtain rfl : k = .empty := by simpa [Tree.isEmpty] using hyk
    obtain rfl : cs = [] := (wellShaped_none rfl).mp hy
    rfl
  cases htruth : t.kind.truth? with
  | none => rfl
  | some truth =>
    unfold IfPlan.of at h
    rw [htruth] at h
    cases truth <;> simp [hxb, hyb] at h

theorem noteUnbrace_ensures (b : Tree (Option α)) : Ensures (noteUnbrace b) fun _ _ => True := by
  unfold noteUnbrace
  split
  · exact ensures_performThen (ensures_pure trivial)
  · exact ensures_pure trivial

theorem noteUnbrace_of_none (h : b.unbrace? = none) : noteUnbrace b = pure () := by
  rw [noteUnbrace, h]

theorem unbraced_of_none (h : b.unbrace? = none) : b.unbraced = b := by
  rw [unbraced, h]
  rfl

theorem guarded_unbraced (hb : b.Guarded) : b.unbraced.Guarded := by
  unfold unbraced
  cases hs : b.unbrace? with
  | none => exact hb
  | some s => exact guarded_unbrace hs hb

theorem ifElse_of_keep (hx : x.unbrace? = none) (hy : y.unbrace? = none)
    (h : IfPlan.of t x y = .keep) : ifElse known m t x y [] = pure (.node m .ifElse [t, x, y]) := by
  have hplan : IfPlan.of t x.unbraced y.unbraced = .keep := by
    rw [unbraced_of_none hx, unbraced_of_none hy, h]
  rw [ifElse, noteUnbrace_of_none hx, noteUnbrace_of_none hy, pure_bind, pure_bind]
  simp only [unbraced_of_none hx, unbraced_of_none hy]
  split
  case h_7 => rfl
  all_goals
    rename_i heq
    rw [hplan] at heq
    cases heq

theorem logicalStatement_calm (h : logicalStatement m t x y = .ok s)
    (hplan : IfPlan.of t x y = .logical) (hshape : (node m .ifElse [t, x, y]).WellShaped)
    (hcs : ∀ c ∈ [t, x, y], Calm known S c) :
    ∃ c, s.tree = .node m .expression [c] ∧ c.Fit isExpression ∧ Calm known S c := by
  obtain ⟨hxk, hyk⟩ : x.kind = .expression ∧ y.isEmpty := by
    have hjustified := IfPlan.of_justified t x y
    rwa [hplan] at hjustified
  obtain ⟨ht, hxs, hys⟩ := (wellShaped_triple rfl).mp hshape
  have htruth := truth_of_logical hplan hxs.2 hxk hys.2 hyk
  obtain ⟨a, v, rfl, hv⟩ := value_of_handsOver rfl hxk hxs.2
  have hvc := (hcs (.node a .expression [v]) (by simp)).children v (by simp)
  have hpart : (node a .expression [v]).part Part.expressionValue = .ok v := rfl
  have hvalue := expectExpression_eq_ok "binary operand" hv.1
  simp only [logicalStatement, hpart, hvalue, bind, Except.bind] at h
  by_cases hnot : t.isNot
  · rw [if_pos hnot] at h
    obtain ⟨b, z, rfl⟩ := not_cases ht.2 hnot
    have hz := (wellShaped_singleton rfl).mp ht.2
    have htc := hcs (.node b (.unary .not) [z]) (by simp)
    simp only [negation, expectExpression_eq_ok _ hz.1] at h
    cases h
    have hzt := truth_of_still hz (htc.still (by simp))
    refine ⟨_, rfl, ⟨rfl, (wellShaped_pair rfl).mpr ⟨hz, hv⟩⟩, ?_⟩
    exact calm_of_eq (logical_still rfl hzt) (by simpa using ⟨htc.children z (by simp), hvc⟩)
  · rw [if_neg hnot] at h
    simp only [expectExpression_eq_ok _ ht.1] at h
    cases h
    refine ⟨_, rfl, ⟨rfl, (wellShaped_pair rfl).mpr ⟨ht, hv⟩⟩, ?_⟩
    exact calm_of_eq (logical_still rfl htruth) (by simpa using ⟨hcs t (by simp), hvc⟩)

theorem ifElse_calm (t x y : Tree (Option α)) (h : (node m .ifElse [t, x, y]).WellShaped)
    (hguard : S → (node m .ifElse [t, x, y]).Guarded) (hcs : ∀ c ∈ [t, x, y], Calm known S c) :
    Ensures (ifElse known m t x y []) fun _ t' => Calm known S t' := by
  obtain ⟨ht, hx, hy⟩ := (wellShaped_triple rfl).mp h
  obtain ⟨hxc, hxnone⟩ := unbraced_calm hx.2 (hcs x (by simp))
  obtain ⟨hyc, hynone⟩ := unbraced_calm hy.2 (hcs y (by simp))
  have htc := hcs t (by simp)
  have hshape : (node m .ifElse [t, x.unbraced, y.unbraced]).WellShaped :=
    (wellShaped_triple rfl).mpr ⟨ht, fit_unbraced hx, fit_unbraced hy⟩
  have hg : S → (node m .ifElse [t, x.unbraced, y.unbraced]).Guarded := by
    intro hS
    obtain ⟨htest, hguards⟩ := guarded_node.mp (hguard hS)
    refine guarded_node.mpr ⟨htest, ?_⟩
    simpa using ⟨hguards t (by simp), guarded_unbraced (hguards x (by simp)),
      guarded_unbraced (hguards y (by simp))⟩
  have hcs' : ∀ c ∈ [t, x.unbraced, y.unbraced], Calm known S c := by
    simpa using ⟨htc, hxc, hyc⟩
  have hplan := IfPlan.of_justified t x.unbraced y.unbraced
  rw [ifElse]
  refine (noteUnbrace_ensures x).bind fun _ _ _ => (noteUnbrace_ensures y).bind fun _ _ _ => ?_
  simp only [isEmpty_nil, if_true]
  split
  · rename_i truth heq
    rw [heq] at hplan
    have htake : Rewrites known (.node m .ifElse [t, x.unbraced, y.unbraced]) _ :=
      .take hplan.1 hplan.2
    have hsize := branch_size_le truth x y
    have htakenc : Calm known S (if truth then x.unbraced else y.unbraced) := by
      split
      · exact hxc
      · exact hyc
    have htaken := (htake.wellShaped hshape).1
    have htakeng : S → _ := fun hS => htake.guarded hshape (hg hS)
    generalize (if truth then x.unbraced else y.unbraced) = taken at *
    obtain ⟨b, k, cs⟩ := taken
    refine ensures_performThen ?_
    by_cases hk : k = .ifElse
    · subst hk
      obtain ⟨t', x', y', rfl, -⟩ := (wellShaped_three rfl).mp htaken
      exact ifElse_calm t' x' y' htaken htakeng htakenc.children
    · have hplain : Ensures (plain known (.node m k cs)) fun _ t' => Calm known S t' :=
        plain_calm _ hk htaken htakeng htakenc.children
      split
      · rename_i heq'
        cases heq'
        exact absurd rfl hk
      · rename_i heq'
        cases heq'
        exact absurd rfl hk
      · rename_i heq'
        cases heq'
        exact absurd rfl hk
      · rename_i heq'
        cases heq'
        exact hplain
  · exact ensures_lift fun _ _ => ensures_performThen (expressionStatement_calm ht htc)
  · rename_i heq
    refine ensures_lift fun _ _ => ensures_lift fun s hs => ?_
    have hinvert : Rewrites known (.node m .ifElse [t, x.unbraced, y.unbraced])
        ⟨.node m .ifElse [s.tree, y.unbraced, x.unbraced], s.detached⟩ := .invert hs
    have hless : Simpler y.unbraced x.unbraced s.tree x y t :=
      invert_decreases (IfPlan.isEmpty_of_invert heq)
    refine ensures_release (ensures_noteChange (ifElse_calm s.tree y.unbraced x.unbraced
      (hinvert.wellShaped hshape).1 (fun hS => hinvert.guarded hshape (hg hS)) ?_))
    simpa using ⟨negation_calm hs ht.2 htc, hyc, hxc⟩
  · rename_i heq
    rw [heq] at hplan
    obtain ⟨b, z, htz⟩ := not_cases ht.2 hplan
    have hless : Simpler y.unbraced x.unbraced z x y t :=
      swap_decreases (IfPlan.isEmpty_of_swap heq) (by simp [htz])
    have hswap : Rewrites known
        (.node m .ifElse [.node b (.unary .not) [z], x.unbraced, y.unbraced])
        ⟨.node m .ifElse [z, y.unbraced, x.unbraced], [.node b (.unary .not) []]⟩ :=
      .invert (s := ⟨z, [.node b (.unary .not) []]⟩) rfl
    rw [htz] at hshape hg htc ⊢
    refine ensures_lift fun _ _ => ensures_release (ensures_noteChange
      (ifElse_calm z y.unbraced x.unbraced (hswap.wellShaped hshape).1
        (fun hS => hswap.guarded hshape (hg hS)) ?_))
    simpa using ⟨htc.children z (by simp), hyc, hxc⟩
  · rename_i k heq
    rw [heq] at hplan
    refine ensures_lift fun _ _ => ?_
    exact uniteBranches_calm hplan.1 hplan.2.1 hplan.2.2 hshape hg hcs'
  · rename_i heq
    refine ensures_lift fun _ _ => ensures_lift fun s hs => ?_
    obtain ⟨c, htree, hfit, hc⟩ := logicalStatement_calm hs heq hshape hcs'
    refine ensures_performThen ?_
    rw [htree]
    exact expressionStatement_calm hfit hc
  · rename_i heq
    refine ensures_pure (calm_of_eq ?_ hcs')
    exact ifElse_of_keep hxnone hynone heq
termination_by (x.size + y.size, if x.unbraced.isEmpty then 1 else 0, t.size)
decreasing_by
  · simp only [size_node, sizes_cons, sizes_nil] at hsize
    apply Prod.Lex.left
    omega
  · exact hless
  · exact hless

/-! ## Whole trees -/

theorem applyRules_calm (t : Tree (Option α)) (ht : t.WellShaped) (hguard : S → t.Guarded)
    (hcs : ∀ c ∈ t.children, Calm known S c) :
    Ensures (applyRules known t) fun _ t' => Calm known S t' := by
  by_cases hk : t.kind = .ifElse
  · obtain ⟨m, k, cs⟩ := t
    obtain rfl : k = .ifElse := hk
    obtain ⟨t, x, y, rfl, -⟩ := (wellShaped_three rfl).mp ht
    exact ifElse_calm t x y ht hguard hcs
  · rw [applyRules_of_ne known hk]
    exact plain_calm t hk ht hguard hcs

theorem visit_calm (t : Tree (Option α)) : t.WellShaped → (S → t.Guarded) →
    Ensures (visit known t) fun _ t' => Calm known S t' := by
  induction t with
  | node m k cs ih =>
    intro ht hguard
    have hcs : ∀ c ∈ cs, c.WellShaped := ht.child
    have hvisit : Carries known (.node m k cs) (.node m k) (visitAll known cs) :=
      visitAll_carries cs [] fun c hc => ⟨hcs c hc, visit_carries c (hcs c hc)⟩
    have hcalm := ensures_visitAll fun c hc =>
      ih c hc (hcs c hc) fun hS => (hguard hS).children c hc
    rw [visit]
    refine (hcalm.and (hvisit.ready ht hguard)).bind ?_
    rintro n cs' ⟨⟨-, hcs'⟩, ht', hguard'⟩
    exact applyRules_calm _ ht' hguard' hcs'

theorem applyRules_still (ht : t.WellShaped) :
    Ensures (applyRules known t) fun n _ => (n = 0 ↔ Still known t) := by
  obtain ⟨b, u, hruns, -⟩ : Carries known t id _ := applyRules_carries t ht
  exact hruns.ensures ⟨fun hzero => hruns.ensures hzero, fun hstill => hstill.of_runs hruns⟩

theorem visitAll_still : ∀ {cs : List (Tree (Option α))},
    (∀ c ∈ cs, Ensures (visit known c) fun n _ => (n = 0 ↔ Calm known True c)) →
    Ensures (visitAll known cs) fun n _ => (n = 0 ↔ ∀ c ∈ cs, Calm known True c)
  | [], _ => by
    rw [visitAll]
    exact ensures_pure (by simp)
  | c :: cs, h => by
    have ih := visitAll_still fun c hc => h c (.tail _ hc)
    rw [visitAll]
    refine (h c (.head _)).bind fun n c' hn => ih.bind fun n' cs' hn' => ensures_pure ?_
    rw [forall_mem_cons, ← hn, ← hn']
    omega

theorem visit_still (t : Tree (Option α)) : t.WellShaped →
    Ensures (visit known t) fun n _ => (n = 0 ↔ Calm known True t) := by
  induction t with
  | node m k cs ih =>
    intro ht
    have hcs : ∀ c ∈ cs, c.WellShaped := ht.child
    have hvisit : Carries known (.node m k cs) (.node m k) (visitAll known cs) :=
      visitAll_carries cs [] fun c hc => ⟨hcs c hc, visit_carries c (hcs c hc)⟩
    rw [visit]
    refine ((visitAll_still fun c hc => ih c hc (hcs c hc)).and (hvisit.lightens ht)).bind ?_
    rintro n cs' ⟨hn, ht', hlight⟩
    have hsame : n = 0 → cs' = cs := fun hzero => congrArg children (hlight.same hzero)
    refine (applyRules_still ht').imp fun n' _ hn' => ?_
    rw [calm_node, ← hn]
    constructor
    · intro hzero
      have hcs' := hsame (by omega)
      refine ⟨fun _ => ?_, by omega⟩
      rw [← hcs']
      exact hn'.mp (by omega)
    · rintro ⟨hroot, hzero⟩
      rw [hsame hzero] at hn'
      have := hn'.mpr (hroot fun _ => trivial)
      omega

end Simplifying

namespace Tree

variable {α β : Type} {known : WellKnown} {S : Prop}

theorem calm_iff_tidy {t : Tree (Option α)} :
    t.WellShaped → Calm known False t → (Calm known True t ↔ t.Tidy) := by
  induction t with
  | node m k cs ih =>
    intro ht hcalm
    obtain ⟨hroot, hcs⟩ := calm_node.mp hcalm
    have hshape := ht.child
    rw [calm_node, tidy_node]
    refine and_congr ?_ (forall₂_congr fun c hc => ih c hc (hshape c hc) (hcs c hc))
    by_cases hk : k = .sequence
    · subst hk
      simp only [forall_const]
      exact Simplifying.still_sequence_iff ht
    · simp only [hk, false_imp_iff, forall_const, iff_true]
      exact hroot fun h => absurd h hk

theorem Calm.congr {t : Tree (Option α)} : ∀ {u : Tree (Option β)}, Calm known S t →
    t.bare = u.bare → t.WellShaped → u.WellShaped → Calm known S u := by
  induction t with
  | node m k cs ih =>
    rintro ⟨m', k', cs'⟩ hcalm heq ht hu
    obtain ⟨hroot, hcs⟩ := calm_node.mp hcalm
    have hchildren := heq
    rw [bare_node, bare_node, node.injEq] at hchildren
    obtain ⟨-, rfl, hchildren⟩ := hchildren
    refine calm_node.mpr ⟨fun hk => (hroot hk).congr heq ht hu, fun c' hc' => ?_⟩
    have hmem : c'.bare ∈ cs.map bare := hchildren ▸ mem_map_of_mem hc'
    obtain ⟨c, hc, hbare⟩ := mem_map.mp hmem
    exact ih c hc (hcs c hc) hbare (ht.child c hc)
      (hu.child c' hc')

theorem tidy_congr {t : Tree α} {u : Tree β} (h : t.bare = u.bare) : t.Tidy ↔ u.Tidy := by
  rw [← tidy_map (fun _ => ()) t, ← tidy_map (fun _ => ()) u, ← bare, ← bare, h]

end Tree

namespace Store

variable {s : Store} {n : NodeId}

theorem Consistent.simplify_still (hs : s.Consistent) (known : WellKnown) (hn : s.Has n)
    (hv : s.verify n = .ok ()) : ∃ s' changed, s.simplify known n = .ok (s', changed) ∧
      (changed = false ↔ Calm known True ((s.tree n).map some)) := by
  obtain ⟨kids, h⟩ := hs
  have ht := h.verify_eq_ok.mp hv
  have htree : ((s.tree n).map some).WellShaped := wellShaped_map.mpr ht
  obtain ⟨t, trace, s', hvisit, hrun, -, -⟩ := h.simplify_run known hn ht
  obtain ⟨count, hcount, hstill⟩ := Simplifying.visit_still _ htree ⟨0, []⟩ t trace hvisit
  rw [Nat.zero_add] at hcount
  refine ⟨s', _, hrun, ?_⟩
  rw [← hstill, hcount, decide_eq_false_iff_not]
  omega

theorem Consistent.simplify_calm (hs : s.Consistent) (known : WellKnown) (hn : s.Has n)
    (hv : s.verify n = .ok ()) : ∃ s' changed, s.simplify known n = .ok (s', changed) ∧
      Calm known False ((s'.tree n).map some) ∧ ((s.tree n).Guarded → (s'.tree n).Tidy) := by
  obtain ⟨kids, h⟩ := hs
  have ht := h.verify_eq_ok.mp hv
  have htree : ((s.tree n).map some).WellShaped := wellShaped_map.mpr ht
  obtain ⟨t, trace, s', hvisit, hrun, hred, hgrown⟩ := h.simplify_run known hn ht
  have hshape := (hred.wellShaped htree).1
  have hbare : t.bare = ((s'.tree n).map some).bare := by rw [bare_map, hgrown.tree]
  have hshape' : ((s'.tree n).map some).WellShaped := by
    rw [← wellShaped_map (f := fun _ => ()), ← bare, ← hbare, bare,
      wellShaped_map]
    exact hshape
  obtain ⟨-, -, hcalm⟩ := Simplifying.visit_calm (S := False) _ htree False.elim ⟨0, []⟩ t
    trace hvisit
  refine ⟨s', _, hrun, hcalm.congr hbare hshape hshape', fun hguard => ?_⟩
  obtain ⟨-, -, hall⟩ := Simplifying.visit_calm (S := True) _ htree
    (fun _ => (guarded_map some _).mpr hguard) ⟨0, []⟩ t trace hvisit
  rw [← tidy_congr hgrown.tree.symm]
  exact (calm_iff_tidy hshape hcalm).mp hall

/-- After one pass over a tree that verifies, a second pass changes something exactly when some
sequence is left untidy. Only a conditional with equal branches can leave such a sequence behind,
and not when its test is an event or has no effects. -/
theorem simplify_twice (known : WellKnown) (hs : s.Consistent) (hn : s.Has n)
    (hv : s.verify n = .ok ()) : ∃ s₁ changed s₂ again, s.simplify known n = .ok (s₁, changed) ∧
      s₁.simplify known n = .ok (s₂, again) ∧
      (again = false ↔ (s₂.tree n).bare = (s₁.tree n).bare) ∧
      (again = false ↔ (s₁.tree n).Tidy) ∧ ((s.tree n).Guarded → again = false) := by
  obtain ⟨s₁, changed, hrun, hs₁, hn₁, hv₁, -, -⟩ := hs.simplify_progress known hn hv
  obtain ⟨s₁', changed', hrun', hcalm, hguard⟩ := hs.simplify_calm known hn hv
  rw [hrun, Except.ok.injEq, Prod.mk.injEq] at hrun'
  obtain ⟨rfl, rfl⟩ := hrun'
  obtain ⟨s₂, again, hagain, -, -, -, hflag, -⟩ := hs₁.simplify_progress known hn₁ hv₁
  obtain ⟨s₂', again', hagain', hstill⟩ := hs₁.simplify_still known hn₁ hv₁
  rw [hagain, Except.ok.injEq, Prod.mk.injEq] at hagain'
  obtain ⟨rfl, rfl⟩ := hagain'
  have hshape : ((s₁.tree n).map some).WellShaped := by
    obtain ⟨kids, h⟩ := hs₁
    exact wellShaped_map.mpr (h.verify_eq_ok.mp hv₁)
  have htidy : again = false ↔ (s₁.tree n).Tidy := by
    rw [hstill, calm_iff_tidy hshape hcalm, tidy_map]
  exact ⟨s₁, changed, s₂, again, hrun, hagain, hflag, htidy, fun h => htidy.mpr (hguard h)⟩

def sameChoice (test : Tree Unit → Tree Unit) : Store :=
  (Store.empty.grow (.node () .module [.node () .throw [.node () .conditional
    [test (.node () .call [.node () (.identifier ⟨0⟩) []]),
      .node () (.identifier ⟨0⟩) [], .node () (.identifier ⟨0⟩) []]]])).2

theorem consistent_sameChoice (test : Tree Unit → Tree Unit) : (sameChoice test).Consistent :=
  Consistent.grow ⟨_, Links.empty⟩ _

theorem simplify_twice_sameChoice :
    (sameChoice id).Consistent ∧ (sameChoice id).Has ⟨0⟩ ∧ (sameChoice id).verify ⟨0⟩ = .ok () ∧
      ((sameChoice id).tree ⟨0⟩).Guarded ∧
      ∃ s₁ s₂, (sameChoice id).simplify ⟨⟨1⟩, ⟨2⟩⟩ ⟨0⟩ = .ok (s₁, true) ∧
        s₁.simplify ⟨⟨1⟩, ⟨2⟩⟩ ⟨0⟩ = .ok (s₂, false) := by
  have hn : (sameChoice id).Has ⟨0⟩ := by decide
  have hv : (sameChoice id).verify ⟨0⟩ = .ok () := rfl
  have hguard : ((sameChoice id).tree ⟨0⟩).Guarded := rfl
  obtain ⟨s₁, changed, s₂, again, hrun, hagain, -, -, hsettles⟩ :=
    simplify_twice ⟨⟨1⟩, ⟨2⟩⟩ (consistent_sameChoice id) hn hv
  have hfirst : changed = true := by
    have hflag : ((sameChoice id).simplify ⟨⟨1⟩, ⟨2⟩⟩ ⟨0⟩).map Prod.snd = .ok true := rfl
    rw [hrun] at hflag
    exact Except.ok.inj hflag
  subst hfirst
  rw [hsettles hguard] at hagain
  exact ⟨consistent_sameChoice id, hn, hv, hguard, s₁, s₂, hrun, hagain⟩

set_option maxRecDepth 4096 in
theorem simplify_changes_again : let s := sameChoice fun call => .node () (.unary .negative) [call]
    s.Consistent ∧ s.Has ⟨0⟩ ∧ s.verify ⟨0⟩ = .ok () ∧ (do
      let (s₁, first) ← s.simplify ⟨⟨1⟩, ⟨2⟩⟩ ⟨0⟩
      let (s₂, second) ← s₁.simplify ⟨⟨1⟩, ⟨2⟩⟩ ⟨0⟩
      return (first, second, (s₂.tree ⟨0⟩).sameAs (s₁.tree ⟨0⟩))) = .ok (true, true, false) :=
  ⟨consistent_sameChoice _, by decide, rfl, rfl⟩

end Store

end ScriptPress

import ScriptPress.Proofs.Simplify.Shape

/-! # A weight that every rule lowers -/

namespace ScriptPress

open List Step

variable {k : Kind}

namespace Kind

def weight : Kind → Nat
  | empty => 1
  | sequence => 2
  | whileLoop => 6
  | _ => 3

theorem weight_pos (k : Kind) : 0 < k.weight := by
  unfold weight
  split <;> omega

theorem two_le_weight (h : k.isExpression) : 2 ≤ k.weight := by
  unfold weight
  split
  · cases h
  all_goals omega

theorem three_le_weight (he : k ≠ empty) (hs : k ≠ sequence) : 3 ≤ k.weight := by
  unfold weight
  split
  · exact absurd rfl he
  · exact absurd rfl hs
  all_goals omega

theorem weight_of_isLiteral (h : k.isLiteral) : k.weight = 3 := by
  cases k <;> first | rfl | cases h

end Kind

namespace Tree

variable {α β : Type} {s : Step α} {m : Option α} {t : Tree (Option α)}

/-- What an `if` weighs beyond its kind when its second branch is there. -/
def surcharge : Kind → List (Tree α) → Nat
  | .ifElse, [_, _, whenFalse] => if whenFalse.isEmpty then 0 else 4
  | _, _ => 0

mutual

def weight : Tree α → Nat
  | node _ k cs => k.weight + surcharge k cs + weights cs

def weights : List (Tree α) → Nat
  | [] => 0
  | c :: cs => c.weight + weights cs

end

@[simp] theorem weight_node (m : α) (k : Kind) (cs : List (Tree α)) :
    (node m k cs).weight = k.weight + surcharge k cs + weights cs := by rw [weight]

@[simp] theorem weights_nil : weights ([] : List (Tree α)) = 0 := by rw [weights]

@[simp] theorem weights_cons (c : Tree α) (cs : List (Tree α)) :
    weights (c :: cs) = c.weight + weights cs := by rw [weights]

@[simp] theorem weights_append (cs ds : List (Tree α)) :
    weights (cs ++ ds) = weights cs + weights ds := by
  induction cs with
  | nil => simp
  | cons c cs ih => rw [cons_append, weights_cons, weights_cons, ih, Nat.add_assoc]

theorem surcharge_of_ne (h : k ≠ .ifElse) (cs : List (Tree α)) : surcharge k cs = 0 := by
  unfold surcharge
  split
  · exact absurd rfl h
  · rfl

@[simp] theorem surcharge_nil (k : Kind) : surcharge k ([] : List (Tree α)) = 0 := by
  cases k <;> rfl

theorem surcharge_le (k : Kind) (cs : List (Tree α)) : surcharge k cs ≤ 4 := by
  unfold surcharge
  split
  · split <;> omega
  · omega

theorem weight_pos (t : Tree α) : 0 < t.weight := by
  obtain ⟨m, k, cs⟩ := t
  have := Kind.weight_pos k
  rw [weight_node]
  omega

theorem weight_eq (t : Tree α) :
    t.kind.weight + surcharge t.kind t.children + weights t.children = t.weight := by
  cases t
  rw [weight_node, kind_node, children_node]

theorem surcharge_map (f : α → β) (k : Kind) (cs : List (Tree α)) :
    surcharge k (cs.map (map f)) = surcharge k cs := by
  unfold surcharge
  split
  · rename_i a b c heq
    match cs, heq with
    | [x, y, z], heq =>
      simp only [map_cons, map_nil, List.cons.injEq, and_true] at heq
      rw [← heq.2.2, isEmpty, kind_map]
      rfl
  · rename_i hno
    split
    · exact absurd rfl (hno _ _ _ rfl)
    · rfl

theorem weight_map (f : α → β) (t : Tree α) : (t.map f).weight = t.weight := by
  induction t with
  | node m k cs ih =>
    have hcs : weights (cs.map (map f)) = weights cs := by
      clear m k
      induction cs with
      | nil => rfl
      | cons c cs ihs =>
        rw [map_cons, weights_cons, weights_cons, ih c mem_cons_self,
          ihs fun c hc => ih c (.tail _ hc)]
    rw [map_node, weight_node, weight_node, surcharge_map, hcs]

section

variable {P : List (Tree α) → Effects α → Prop}
  (pure : ∀ t : Tree α, P [t] (.none t))
  (whole : ∀ t : Tree α, t.effects = .ok (.whole t) → P [t] (.whole t))
  (nil : P [] ⟨[], []⟩)
  (append : ∀ {ts ts' e e'}, P ts e → P ts' e' → P (ts ++ ts') (e.append e'))
  (under : ∀ {m k ts e} rest, k ≠ .ifElse → P ts e → P [node m k (ts ++ rest)] (e.under m k rest))

include nil append

theorem effectsAll_splits : ∀ {cs : List (Tree α)} {e : Effects α},
    (∀ c ∈ cs, ∀ e, c.effects = .ok e → P [c] e) → effectsAll cs = .ok e → P cs e
  | [], e, _, h => by
    cases h
    exact nil
  | c :: cs, e, hcs, h => by
    obtain ⟨first, others, hfirst, hothers, rfl⟩ := effectsAll_cons h
    have hrest := effectsAll_splits (fun c hc => hcs c (.tail _ hc)) hothers
    exact append (hcs c (.head _) first hfirst) hrest

theorem effectsProperties_splits : ∀ {ps : List (Tree α)} {e : Effects α},
    (∀ p ∈ ps, ∀ e, p.effectsProperty = .ok e → P [p] e) → effectsProperties ps = .ok e → P ps e
  | [], e, _, h => by
    cases h
    exact nil
  | p :: ps, e, hps, h => by
    rw [effectsProperties] at h
    obtain ⟨first, hfirst, h⟩ := exists_of_bind_eq_ok h
    obtain ⟨others, hothers, h⟩ := exists_of_bind_eq_ok h
    cases h
    have hrest := effectsProperties_splits (fun p hp => hps p (.tail _ hp)) hothers
    exact append (hps p (.head _) first hfirst) hrest

theorem effectsOperands_splits {m : α} : ∀ {roles : List Part} {cs : List (Tree α)}
    {e : Effects α}, (∀ c ∈ cs, ∀ e, c.effects = .ok e → P [c] e) →
      effectsOperands m k roles cs = .ok e →
      ∃ ts rest e', cs = ts ++ rest ∧ e = e'.under m k rest ∧ P ts e'
  | [], cs, e, _, h => by
    rw [effectsOperands] at h
    cases h
    exact ⟨[], cs, ⟨[], []⟩, rfl, rfl, nil⟩
  | _ :: _, [], e, _, h => by
    rw [effectsOperands] at h
    cases h
  | _ :: roles, c :: cs, e, hcs, h => by
    rw [effectsOperands] at h
    obtain ⟨first, hfirst, h⟩ := exists_of_bind_eq_ok h
    obtain ⟨others, hothers, h⟩ := exists_of_bind_eq_ok h
    cases h
    obtain ⟨ts, rest, e', rfl, rfl, hP⟩ := effectsOperands_splits
      (fun c hc => hcs c (.tail _ hc)) hothers
    refine ⟨c :: ts, rest, first.append e', rfl, ?_, ?_⟩
    · simp [Effects.under, Effects.append]
    · exact append (hcs c (.head _) first hfirst) hP

include pure whole under

theorem effects_splits (t : Tree α) (e : Effects α) (h : t.effects = .ok e) : P [t] e := by
  -- The values of properties are two levels down, so the claim is made for properties as well.
  suffices hboth : (∀ e, t.effects = .ok e → P [t] e) ∧
      ∀ e, t.effectsProperty = .ok e → P [t] e from hboth.1 e h
  clear h e
  induction t with
  | node m k cs ih =>
    have hcs : ∀ c ∈ cs, ∀ e, c.effects = .ok e → P [c] e := fun c hc => (ih c hc).1
    constructor
    · intro e h
      have hk : ∀ {d}, discard k cs = .ok d → d ≠ .whole → k ≠ .ifElse := by
        rintro d hd hne rfl
        cases hd
        exact hne rfl
      rcases effects_cases h with ⟨-, rfl⟩ | ⟨hd, e', he', rfl⟩ | ⟨hd, e', he', rfl⟩ |
        ⟨roles, hd, he'⟩ | ⟨-, -, rfl⟩
      · exact pure _
      · have hP := under (m := m) [] (hk hd (by simp)) (effectsAll_splits nil append hcs he')
        rwa [append_nil] at hP
      · have hps := effectsProperties_splits nil append (fun p hp => (ih p hp).2) he'
        have hP := under (m := m) [] (hk hd (by simp)) hps
        rwa [append_nil] at hP
      · obtain ⟨ts, rest, e', rfl, rfl, hP⟩ := effectsOperands_splits nil append hcs he'
        exact under rest (hk hd (by simp)) hP
      · exact whole _ h
    · intro e h
      rw [effectsProperty.eq_def] at h
      simp only at h
      split at h
      · rename_i hk
        cases cs with
        | nil => cases h
        | cons c rest =>
          obtain ⟨e', he', h⟩ := exists_of_bind_eq_ok h
          cases h
          have hif : k ≠ .ifElse := by
            rintro rfl
            cases hk
          exact under rest hif (hcs c (.head _) e' he')
      · cases h

end

theorem weight_effects {t : Tree α} {e : Effects α} (h : t.effects = .ok e) :
    weights e.parts + weights e.remains = t.weight := by
  have hsplits := effects_splits (P := fun ts e => weights e.parts + weights e.remains = weights ts)
    (fun t => by simp [Effects.none]) (fun t _ => by simp [Effects.whole]) (by simp)
    (fun {ts ts' e e'} h h' => ?_) (fun {m k ts e} rest hk h => ?_) t e h
  · simpa using hsplits
  · simp only [Effects.append, weights_append]
    omega
  · simp only [Effects.under, weights_cons, weights_nil, weight_node, weights_append,
      surcharge_of_ne hk]
    omega

theorem weight_reduced (ht : t.Fit Kind.isExpression) (h : t.discarded = .ok (.reduced s)) :
    s.tree.weight < t.weight := by
  obtain ⟨e, he, hs⟩ := effects_total t ht
  have hweight := weight_effects he
  have hkind := Kind.two_le_weight ht.1
  rw [discarded, he] at h
  cases hs with
  | whole heq _ =>
    subst heq
    cases h
  | apart d hd fit below marks =>
    obtain ⟨parts, remains⟩ := e
    simp only at hd fit
    subst hd
    have hif : t.kind ≠ .ifElse := by
      intro heq
      have := ht.1
      rw [heq] at this
      cases this
    simp only [weights_cons, weights_nil, weight_node, surcharge_of_ne hif] at hweight
    rcases parts with _ | ⟨only, _ | ⟨b, rest⟩⟩
    · cases h
    · cases h
      simp only [become, weight_node, only.weight_eq]
      simp only [weights_cons, weights_nil] at hweight
      omega
    · have hforM := forM_expectExpression "sequence element" fit
      simp only [bind, Except.bind, hforM] at h
      split at h
      · cases h
      · rename_i hsame
        cases h
        simp only [fresh, become, new, kind_node, children_node, weight_node,
          Kind.weight, surcharge]
        -- A sequence weighs less than an operator, and less than itself with an element more.
        by_cases hseq : t.kind = .sequence
        · have hd : d ≠ [] := by
            rintro rfl
            simp [hseq] at hsame
          obtain ⟨c, d, rfl⟩ := exists_cons_of_ne_nil hd
          have := c.weight_pos
          simp only [weights_cons] at hweight ⊢
          omega
        · have := Kind.three_le_weight (k := t.kind) (by
            intro heq
            have := ht.1
            rw [heq] at this
            cases this) hseq
          omega

@[simp] theorem weight_become (m : Option α) (x : Tree (Option α))
    (dropped : List (Tree (Option α))) : (become m x dropped).tree.weight = x.weight := by
  rw [become, weight_node, x.weight_eq]

@[simp] theorem weight_leaf (m : Option α) (k : Kind) (dropped : List (Tree (Option α))) :
    (leaf m k dropped).tree.weight = k.weight := by
  rw [leaf, weight_node, surcharge_nil, weights_nil, Nat.add_zero]

theorem weights_commaParts_le (t : Tree (Option α)) : weights (commaParts t) ≤ t.weight := by
  unfold commaParts
  split
  · rw [weight_node]
    omega
  · simp

theorem weight_comma_le (x y : Tree (Option α)) :
    (comma x y).tree.weight ≤ 2 + x.weight + y.weight := by
  have hx := weights_commaParts_le x
  have hy := weights_commaParts_le y
  simp only [comma, new, weight_node, weights_append, Kind.weight, surcharge]
  omega

theorem weight_unbrace_lt {b : Tree (Option α)} (h : b.unbrace? = some s) :
    s.tree.weight < b.weight := by
  obtain ⟨m, ⟨rfl, rfl⟩ | ⟨c, rfl, rfl⟩⟩ := unbrace_cases h
  · simp [Kind.weight]
  · simp only [weight_become, weight_node, weights_cons, weights_nil, Kind.weight]
    omega

theorem weight_logical_lt {op : BinaryOp} {x y : Tree (Option α)}
    (h : logical m op x y [] = some s) : s.tree.weight < 3 + x.weight + y.weight := by
  obtain ⟨b, -, rfl⟩ := Option.map_eq_some_iff.mp h
  split <;> rw [weight_become] <;> omega

theorem weight_chosenBranch_lt {b : Bool} {t x y : Tree (Option α)}
    (h : chosenBranch m b t [x, y] = .ok s) :
    s.tree.weight < 3 + t.weight + x.weight + y.weight := by
  cases b <;> cases h <;> rw [weight_become] <;> omega

theorem weight_tryStatement_lt {b h f : Tree (Option α)} (hs : tryStatement m b h f [] = some s) :
    s.tree.weight < 3 + b.weight + h.weight + f.weight := by
  rcases tryStatement_cases hs with rfl | rfl | rfl
  · rw [weight_leaf, Kind.weight]
    omega
  · rw [weight_become]
    omega
  · rw [weight_become]
    omega

theorem weight_negation_le (h : negation t = .ok s) : s.tree.weight ≤ 3 + t.weight := by
  rcases negation_cases h with ⟨m, x, rest, rfl, rfl⟩ | ⟨b, -, rfl⟩ | rfl
  · simp only [weight_node, weights_cons]
    omega
  · simp [new, Kind.weight]
  · simp [new, Kind.weight, surcharge]

theorem isCatch_of_rethrows {t : Tree α} (h : t.rethrows = .ok true) :
    ∃ binding, t.kind = .catch binding := by
  unfold rethrows at h
  split at h
  · exact ⟨_, by assumption⟩
  · cases h

theorem Rewrites.weight_lt {known : WellKnown} (h : Rewrites known t s) (ht : t.WellShaped)
    (hif : t.kind ≠ .ifElse) : s.tree.weight < t.weight := by
  cases h
  case take | testOnly | invert | join | toLogical | toLogicalNot => exact absurd rfl hif
  -- What the steps that are computed by functions of their own weigh.
  case' dropEmpty c _ _ => have := c.weight_pos
  case' splice c _ hc =>
    have := c.weight_eq
    have := Kind.weight_pos c.kind
  case' mergeExpressions x y _ => have := weight_comma_le x y
  case' mergeIntoValue x y v _ hv =>
    have := weight_comma_le x y
    have : v ≠ .ifElse := by rcases hv with rfl | rfl <;> simp
    have : v.weight = 3 := by rcases hv with rfl | rfl <;> rfl
  case' mergeIntoSetup x setup _ _ _ => have := weight_comma_le x setup
  case' reduce c s _ hc hs =>
    have := weight_reduced ⟨hc, ht.child c (by simp)⟩ hs
  case' dropElement c _ _ => have := c.weight_pos
  case' dropClause c _ hc _ =>
    have := Kind.two_le_weight hc
    have := c.weight_eq
  case' foldUnary x k h =>
    have := Kind.weight_of_isLiteral (isLiteral_unaryValue h)
    have := x.weight_pos
  case' logical h => have := weight_logical_lt h
  case' foldBinary x y _ _ h =>
    have := Kind.weight_of_isLiteral (Kind.isLiteral_foldBinary h)
    have := x.weight_pos
  case' moveEmptyHead h y _ _ => have := h.weight_pos
  case' moveEmptyTail y z _ _ => have := z.weight_pos
  case' appendLiteral y _ => have := y.weight_pos
  case' choose h => have := weight_chosenBranch_lt h
  case' sameBranches t x y _ =>
    have := weight_comma_le t x
  case' toOr t x y _ _ => have := x.weight_pos
  case' toAnd t x y _ _ => have := y.weight_pos
  case' unbrace hs => have := weight_unbrace_lt hs
  case' dropTest t _ _ htruthy =>
    have htruth : t.kind.truth? = some true := by simpa [Kind.isTruthy] using htruthy
    have := Kind.weight_of_isLiteral (Kind.isLiteral_of_truth htruth)
    have := t.weight_eq
  case' dropRethrow h _ hh =>
    obtain ⟨binding, hbinding⟩ := isCatch_of_rethrows hh
    have := h.weight_eq
    simp only [hbinding, Kind.weight] at this
  case' tryBlock hs => have := weight_tryStatement_lt hs
  all_goals
    simp only [kind_node] at hif
    simp (disch := first | assumption | simp) only [weight_become, weight_leaf, fresh, new,
      weight_node, weights_append, weights_cons, weights_nil, surcharge_of_ne, Kind.weight] at *
    omega

theorem Rewrites.weight_lt_if {known : WellKnown} {cs : List (Tree (Option α))}
    (h : Rewrites known (node m .ifElse cs) s) (hs : s.tree.kind ≠ .ifElse) :
    s.tree.weight < (node m .ifElse cs).weight := by
  cases h
  case dropEmpty hk | splice hk | mergeDeclarations hk | mergeExpressions hk | mergeIntoValue hk |
      fillSetup hk | mergeIntoSetup hk | reduce hk => cases hk
  case unbrace | invert => exact absurd rfl hs
  case' take truth t x y _ _ =>
    have : (if truth then x else y).weight ≤ x.weight + y.weight := by split <;> omega
  case' testOnly t x y _ _ => have := x.weight_pos
  case' join k t x y hk =>
    have : k ≠ .ifElse := by
      rintro rfl
      cases hk
    have : k.weight = 3 := by cases k <;> first | rfl | cases hk
  case' toLogical y _ => have := y.weight_pos
  all_goals
    simp (disch := first | assumption | simp) only [weight_become, fresh, new, weight_node,
      weights_cons, weights_nil, surcharge_of_ne, Kind.weight] at *
    omega

end Tree

end ScriptPress

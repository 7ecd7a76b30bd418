import ScriptPress.Proofs.Simplify.Ensures

/-! # The pass is a reduction -/

namespace ScriptPress

open List Tree Step Simplifying

open Tree (Reduces Rewrites Lightened weights)

variable {α : Type} {known : WellKnown}
variable {t x : Tree (Option α)} {m : Option α}

theorem Kind.ne_ifElse_of_isList {k : Kind} (h : k.isList) : k ≠ .ifElse := by
  rintro rfl
  cases h

/-! ## Statement lists -/

namespace Simplifying

theorem Carries.prepend {k : Kind} {xs cs l : List (Tree (Option α))}
    {x : Simplifying α (List (Tree (Option α)))} (h : Carries known (.node m k (l ++ xs ++ cs))
      (fun cs' => .node m k (l ++ xs ++ cs')) x) : Carries known (.node m k (l ++ (xs ++ cs)))
      (fun cs' => .node m k (l ++ cs')) (x >>= fun cs' => pure (xs ++ cs')) := by
  rw [← append_assoc]
  refine h.bind fun cs' d _ => carries_pure ?_
  rw [append_assoc]

theorem spliceBlocks_carries {k : Kind} (hk : k.isList) : ∀ cs l : List (Tree (Option α)),
      Carries known (.node m k (l ++ cs)) (fun cs' => .node m k (l ++ cs')) (spliceBlocks cs)
  | [], l => carries_pure rfl
  | c :: cs, l => by
    have hif := Kind.ne_ifElse_of_isList hk
    unfold spliceBlocks
    split
    · rename_i hc
      exact carries_counted (.dropEmpty hk hc) (by simp [hif]) (spliceBlocks_carries hk cs l)
    · split
      · rename_i hc
        refine carries_counted (.splice hk hc) (by simp [hif]) ?_
        exact (spliceBlocks_carries hk cs (l ++ c.children)).prepend
      · exact (spliceBlocks_carries hk cs (l ++ [c])).prepend

end Simplifying

def Tree.Merges (a b : Tree (Option α)) (s : Step α) : Prop :=
  ∀ known m k l r, k.isList →
    Rewrites known (.node m k (l ++ a :: b :: r)) ⟨.node m k (l ++ s.tree :: r), s.detached⟩

theorem Step.merge_total {a b : Tree (Option α)} (ha : a.WellShaped) (hb : b.WellShaped) :
    ∃ o, merge a b = .ok o ∧ ∀ s ∈ o, a.Merges b s := by
  unfold merge
  split
  · refine ⟨_, rfl, ?_⟩
    rintro s ⟨⟩ known m k l r hk
    exact .mergeDeclarations hk
  · obtain ⟨x, rfl, -⟩ := (wellShaped_one rfl).mp ha
    obtain ⟨y, rfl, -⟩ := (wellShaped_one rfl).mp hb
    refine ⟨_, rfl, ?_⟩
    rintro s ⟨⟩ known m k l r hk
    exact .mergeExpressions hk
  · obtain ⟨x, rfl, -⟩ := (wellShaped_one rfl).mp ha
    obtain ⟨y, rfl, -⟩ := (wellShaped_one rfl).mp hb
    dsimp only
    split
    · exact ⟨_, rfl, by simp⟩
    · refine ⟨_, rfl, ?_⟩
      rintro s ⟨⟩ known m k l r hk
      exact .mergeIntoValue hk (.inl rfl)
  · obtain ⟨x, rfl, -⟩ := (wellShaped_one rfl).mp ha
    obtain ⟨y, rfl, -⟩ := (wellShaped_one rfl).mp hb
    refine ⟨_, rfl, ?_⟩
    rintro s ⟨⟩ known m k l r hk
    exact .mergeIntoValue hk (.inr rfl)
  · obtain ⟨x, rfl, -⟩ := (wellShaped_one rfl).mp ha
    obtain ⟨setup, t, u, body, rfl, -⟩ := (wellShaped_four rfl).mp hb
    dsimp only
    split
    · rename_i hs
      refine ⟨_, rfl, ?_⟩
      rintro s ⟨⟩ known m k l r hk
      exact .fillSetup hk hs
    · split
      · rename_i hs
        refine ⟨_, rfl, ?_⟩
        rintro s ⟨⟩ known m k l r hk
        exact .mergeIntoSetup hk hs
      · exact ⟨_, rfl, by simp⟩
  · exact ⟨_, rfl, by simp⟩

namespace Simplifying

variable {m : Option α} {k : Kind} {cs : List (Tree (Option α))} {c : Tree (Option α)}

theorem mergeFrom_carries (hk : k.isList) :
    ∀ (rest l : List (Tree (Option α))) (a : Tree (Option α)),
      (node m k (l ++ a :: rest)).WellShaped →
      Carries known (.node m k (l ++ a :: rest)) (fun cs' => .node m k (l ++ cs'))
        (mergeFrom a rest)
  | [], l, a, _ => carries_pure rfl
  | b :: rest, l, a, h => by
    have hcs := h.child
    obtain ⟨o, ho, hrule⟩ := merge_total (hcs a (by simp)) (hcs b (by simp))
    unfold mergeFrom
    refine carries_lift ho ?_
    cases o with
    | some s =>
      have hstep := hrule s rfl known m k l rest hk
      -- The merged statement stands in the place of both and may merge again.
      refine carries_performThen hstep (by simp [Kind.ne_ifElse_of_isList hk]) ?_
      exact mergeFrom_carries hk rest l s.tree (hstep.wellShaped h).1
    | none =>
      exact (mergeFrom_carries hk rest (l ++ [a]) b (by simpa using h)).prepend

theorem mergeNeighbours_carries (hk : k.isList) (h : (node m k cs).WellShaped) :
    Carries known (.node m k cs) (.node m k) (mergeNeighbours cs) := by
  cases cs with
  | nil => exact carries_pure rfl
  | cons first rest => exact mergeFrom_carries hk rest [] first h

theorem statements_carries (hk : k.isList) (h : (node m k cs).WellShaped) :
    Carries known (.node m k cs) id (statements m k cs) := by
  refine (spliceBlocks_carries hk cs []).bind fun cs' d hd => ?_
  exact (mergeNeighbours_carries hk (hd.wellShaped h).1).bind fun cs'' e _ => carries_pure rfl

/-! ## Values that nobody uses -/

theorem keepEffects_cases (hc : c.Fit Kind.isExpression) :
    (c.discarded = .ok .nothing ∧ keepEffects c = pure none) ∨ keepEffects c = pure (some c) ∨
      ∃ s, c.discarded = .ok (.reduced s) ∧
        keepEffects c = perform s >>= fun c' => pure (some c') := by
  unfold keepEffects
  obtain ⟨e, -, -, ⟨-, h⟩ | ⟨-, h⟩ | ⟨-, -, h⟩⟩ := discarded_total hc
  · exact .inl ⟨h, by rw [h]; rfl⟩
  · exact .inr (.inl (by rw [h]; rfl))
  · exact .inr (.inr ⟨_, h, by rw [h]; rfl⟩)

theorem keepEffects_carries {l r : List (Tree (Option α))} {β : Type} {g : β → Tree (Option α)}
    {f : Option (Tree (Option α)) → Simplifying α β} (hk : k.discards l.length r.length)
    (hc : c.Fit Kind.isExpression)
    (hnone : c.discarded = .ok .nothing → Carries known (.node m k (l ++ c :: r)) g (f none))
    (hsome : ∀ c', Carries known (.node m k (l ++ c' :: r)) g (f (some c'))) :
    Carries known (.node m k (l ++ c :: r)) g (keepEffects c >>= f) := by
  have hif : k ≠ .ifElse := by
    rintro rfl
    cases hk
  rcases keepEffects_cases hc with ⟨h, heq⟩ | heq | ⟨s, hs, heq⟩
  · rw [heq, pure_bind]
    exact hnone h
  · rw [heq, pure_bind]
    exact hsome c
  · rw [heq, bind_assoc]
    refine carries_performThen (.reduce hk hc.1 hs) (by simp [hif]) ?_
    rw [pure_bind]
    exact hsome s.tree

theorem expressionStatement_carries (hc : c.Fit Kind.isExpression) :
    Carries known (.node m .expression [c]) id (expressionStatement m [c]) := by
  refine keepEffects_carries (l := []) (r := []) rfl hc (fun h => ?_) fun c' => carries_pure rfl
  exact carries_perform (.dropStatement h) (by simp)

/-! ## Sequences -/

theorem flattenSequences_carries : ∀ cs l : List (Tree (Option α)),
      Carries known (.node m .sequence (l ++ cs)) (fun cs' => .node m .sequence (l ++ cs'))
        (flattenSequences cs)
  | [], l => carries_pure rfl
  | .node a k xs :: cs, l => by
    unfold flattenSequences
    split
    · rename_i hk
      cases hk
      exact carries_counted .flatten (by simp) (flattenSequences_carries cs (l ++ xs)).prepend
    · exact (flattenSequences_carries cs (l ++ [.node a k xs])).prepend

theorem flattenSequences_flat : ∀ cs : List (Tree (Option α)),
    Ensures (flattenSequences cs) fun n _ => n = 0 → ∀ c ∈ cs, c.kind ≠ .sequence
  | [] => ensures_pure (by simp)
  | c :: cs => by
    have ih := flattenSequences_flat cs
    unfold flattenSequences
    split
    · refine ensures_release (ensures_noteChange (ih.bind fun n cs' _ => ensures_pure fun hn => ?_))
      omega
    · rename_i hc
      refine ih.bind fun n cs' h => ensures_pure fun hn => ?_
      exact forall_mem_cons.mpr ⟨hc, h (by omega)⟩

theorem reduceElements_runs (known : WellKnown) :
    ∀ cs l : List (Tree (Option α)), (node m .sequence (l ++ cs)).WellShaped →
      ∃ cs' u, Runs (reduceElements cs) cs' u ∧
        Reduces known (.node m .sequence (l ++ cs)) (.node m .sequence (l ++ cs')) u.detached ∧
        weights cs' + u.changes ≤ weights cs ∧
        ((∀ c ∈ cs, c.kind ≠ .sequence) → u.changes = 0 → cs' = cs)
  | [], l, _ => ⟨[], _, runs_pure [], .refl _, Nat.le_refl _, fun _ _ => rfl⟩
  | [last], l, _ => ⟨[last], _, runs_pure [last], .refl _, Nat.le_refl _, fun _ _ => rfl⟩
  | c :: c₂ :: cs, l, h => by
    have hc : c.Fit Kind.isExpression := (wellShaped_of_element rfl).mp h c (by simp)
    -- What is done with an element that is kept, and with the ones behind it.
    have hkept : ∀ c', (node m .sequence (l ++ c' :: c₂ :: cs)).WellShaped → ∃ cs' u,
        Runs (if c'.kind = .sequence then do
            release [c'.emptied]
            return c'.children ++ (← reduceElements (c₂ :: cs))
          else return c' :: (← reduceElements (c₂ :: cs))) cs' u ∧
        Reduces known (.node m .sequence (l ++ c' :: c₂ :: cs)) (.node m .sequence (l ++ cs'))
          u.detached ∧ weights cs' + u.changes ≤ weights (c' :: c₂ :: cs) ∧ ((∀ c ∈ c' :: c₂ :: cs,
          c.kind ≠ .sequence) → u.changes = 0 → cs' = c' :: c₂ :: cs) := by
      rintro ⟨a, k, xs⟩ h'
      by_cases hk : k = .sequence
      · subst hk
        have hflat : Rewrites known (.node m .sequence (l ++ .node a .sequence xs :: c₂ :: cs))
            ⟨.node m .sequence (l ++ (xs ++ c₂ :: cs)), [.node a .sequence []]⟩ := .flatten
        obtain ⟨cs', u, hruns, hred, hweight, -⟩ := reduceElements_runs known (c₂ :: cs) (l ++ xs)
          (by simpa using (hflat.wellShaped h').1)
        simp only [append_assoc] at hred
        refine ⟨xs ++ cs', _, (runs_release _).bind (hruns.bind (runs_pure _)),
          (Reduces.rule hflat).trans (.trans hred (.refl _)), ?_, ?_⟩
        · simp only [Trace.after, weights_append, weights_cons, weight_node] at hweight ⊢
          omega
        · intro hno
          exact absurd rfl (hno _ (.head _))
      · obtain ⟨cs', u, hruns, hred, hweight, hsame⟩ := reduceElements_runs known (c₂ :: cs)
          (l ++ [.node a k xs]) (by simpa using h')
        simp only [append_assoc, singleton_append] at hred
        rw [kind_node, if_neg hk]
        refine ⟨.node a k xs :: cs', _, hruns.bind (runs_pure _), hred, ?_, fun hno hn => ?_⟩
        · simp only [Trace.after, weights_cons (.node a k xs)]
          omega
        · rw [hsame (forall_mem_cons.mp hno).2 hn]
    unfold reduceElements
    rcases keepEffects_cases hc with ⟨hnone, heq⟩ | heq | ⟨s, hs, heq⟩
    · -- The element has no effects, and another one comes after it.
      have hdrop : Rewrites known (.node m .sequence (l ++ c :: c₂ :: cs))
          ⟨.node m .sequence (l ++ c₂ :: cs), [c]⟩ := .dropElement (by simp) hnone
      obtain ⟨cs', u, hruns, hred, hweight, -⟩ :=
        reduceElements_runs known (c₂ :: cs) l (hdrop.wellShaped h).1
      rw [heq, pure_bind]
      refine ⟨cs', _, (runs_release [c]).bind (runs_noteChange.bind hruns),
        (Reduces.rule hdrop).trans (.trans (.refl _) hred), ?_, fun _ hn => ?_⟩
      · have := c.weight_pos
        simp only [Trace.after, weights_cons c]
        omega
      · simp [Trace.after] at hn
    · rw [heq, pure_bind]
      exact hkept c h
    · have hreduce : Rewrites known (.node m .sequence (l ++ c :: c₂ :: cs))
          ⟨.node m .sequence (l ++ s.tree :: c₂ :: cs), s.detached⟩ := .reduce rfl hc.1 hs
      obtain ⟨cs', u, hruns, hred, hweight, -⟩ := hkept s.tree (hreduce.wellShaped h).1
      rw [heq, bind_assoc]
      refine ⟨cs', _, (runs_perform s).bind hruns, (Reduces.rule hreduce).trans hred, ?_,
        fun _ hn => ?_⟩
      · have := weight_reduced hc hs
        simp only [Trace.after, weights_cons] at hweight ⊢
        omega
      · simp [Trace.after] at hn

theorem sequence_carries (h : (node m .sequence cs).WellShaped) :
    Carries known (.node m .sequence cs) id (sequence m cs) := by
  obtain ⟨cs', u, hruns, hred, hlight⟩ :
      Carries known (.node m .sequence cs) (.node m .sequence) _ :=
    flattenSequences_carries cs []
  have hflat := (flattenSequences_flat cs).of_runs hruns
  obtain ⟨cs'', v, hruns', hred', hweight, hsame⟩ :=
    reduceElements_runs known cs' [] (hred.wellShaped h).1
  have hlist : Carries known (.node m .sequence cs) (.node m .sequence)
      (flattenSequences cs >>= reduceElements) := by
    refine ⟨cs'', _, hruns.bind hruns', hred.trans hred', fun ht => ⟨?_, fun hn => ?_⟩⟩
    · have := (hlight ht).weight
      simp only [weight_node, Trace.after, surcharge] at this ⊢
      omega
    · obtain ⟨hu, hv⟩ := Nat.add_eq_zero_iff.mp hn
      obtain rfl : cs' = cs := by simpa using (hlight ht).same hu
      rw [hsame (hflat hu) hv]
  unfold sequence
  rw [← bind_assoc]
  refine hlist.bind fun cs'' e _ => ?_
  split
  · exact carries_perform .single (by simp)
  · exact carries_pure rfl

end Simplifying

/-! ## Rules that may or may not apply -/

def Tree.Offers (known : WellKnown) (t : Tree (Option α)) (x : Except Fault (Option (Step α))) :
    Prop :=
  ∃ o, x = .ok o ∧ ∀ s, o = some s → Rewrites known t s

open Tree (Offers)

theorem offers_none : Offers known t (.ok none) :=
  ⟨none, rfl, by simp⟩

theorem offers_some {s : Step α} (h : Rewrites known t s) : Offers known t (.ok (some s)) := by
  refine ⟨some s, rfl, ?_⟩
  rintro s' hs
  cases hs
  exact h

theorem offers_if {c : Prop} [Decidable c] {x : Except Fault (Option (Step α))}
    (h : c → Offers known t x) : Offers known t (if c then x else .ok none) := by
  split
  · rename_i hc
    exact h hc
  · exact offers_none

theorem offers_firstOf : ∀ {rules : List (Unit → Except Fault (Option (Step α)))},
      (∀ rule ∈ rules, Offers known t (rule ())) → Offers known t (firstOf rules)
  | [], _ => offers_none
  | rule :: rules, h => by
    obtain ⟨o, ho, hrule⟩ := h rule (.head _)
    unfold firstOf
    rw [ho]
    cases o with
    | none => exact offers_firstOf fun r hr => h r (.tail _ hr)
    | some s => exact ⟨some s, rfl, hrule⟩

theorem Tree.Offers.carries {x : Except Fault (Option (Step α))} (h : Offers known t x)
    (hif : t.kind ≠ .ifElse) :
    Carries known t id (liftM x >>= performOr t) := by
  obtain ⟨o, ho, hrule⟩ := h
  exact carries_lift ho (carries_performOr hrule hif)

/-! ## Operators and calls -/

theorem Step.unaryValue_total (op : UnaryOp) (hx : x.WellShaped) :
    ∃ o, unaryValue? op x = .ok o := by
  obtain ⟨e, he⟩ := hasEffects_total x hx
  cases op with
  | typeOf => cases e <;> exact ⟨_, by simp only [unaryValue?, he]; rfl⟩
  | void => cases e <;> exact ⟨_, by simp only [unaryValue?, he]; rfl⟩
  | _ => exact ⟨_, rfl⟩

theorem Step.unary_offers {op : UnaryOp} (hx : x.WellShaped) :
    Offers known (.node m (.unary op) [x]) (unary m op [x]) := by
  obtain ⟨o, ho⟩ := unaryValue_total op hx
  simp only [unary, ho, bind, Except.bind]
  cases o with
  | some k => exact offers_some (.foldUnary ho)
  | none =>
    simp only [tripleNegation]
    split
    · obtain ⟨y, rfl, -⟩ := (wellShaped_one rfl).mp hx
      dsimp only
      split
      · rename_i hy
        exact offers_some (.tripleNot hy)
      · exact offers_none
    · exact offers_none

theorem Step.call_offers {cs : List (Tree (Option α))} (h : (node m .call cs).WellShaped) :
    Offers known (.node m .call cs) (call known m cs) := by
  obtain ⟨hne, hcs⟩ := (wellShaped_call (.inl rfl)).mp h
  match cs, hne with
  | .node a k xs :: arguments, _ =>
    refine offers_if fun hk => ?_
    cases hk
    obtain ⟨object, rfl, hobject⟩ := (wellShaped_one rfl).mp (hcs _ (.head _)).2
    show Offers known _ (if object.kind ≠ .identifier known.math then _ else _)
    split
    · exact offers_none
    · rename_i hmath
      split
      · rename_i base exponent harguments
        -- Two numbers: the arguments are two nodes, and `Math` is a leaf.
        obtain ⟨p, rest, rfl, hp, hrest⟩ := map_eq_cons_iff.mp harguments
        obtain ⟨q, rest, rfl, hq, hrest⟩ := map_eq_cons_iff.mp hrest
        obtain rfl := map_eq_nil_iff.mp hrest
        obtain ⟨b, k, ys⟩ := object
        simp only [kind_node, ne_eq, Decidable.not_not] at hmath
        subst hmath
        obtain rfl : ys = [] := (wellShaped_none rfl).mp hobject.2
        exact offers_some (.power hp hq)
      · exact offers_none

namespace Simplifying

theorem unary_carries {op : UnaryOp} {x : Tree (Option α)} (hx : x.WellShaped) :
    Carries known (.node m (.unary op) [x]) id (unary m op [x]) :=
  (unary_offers hx).carries (by simp)

theorem call_carries {cs : List (Tree (Option α))} (h : (node m .call cs).WellShaped) :
    Carries known (.node m .call cs) id (call known m cs) :=
  (call_offers h).carries (by simp)

end Simplifying

/-! ## Concatenations -/

theorem Tree.sum_cases {t : Tree α} (ht : t.WellShaped) (h : t.isSum) :
    ∃ a x y, t = .node a (.binary .add) [x, y] ∧ x.WellShaped ∧ y.WellShaped := by
  obtain ⟨a, k, cs⟩ := t
  obtain rfl : k = .binary .add := by simpa [isSum] using h
  obtain ⟨x, y, rfl, hx, hy⟩ := (wellShaped_two rfl).mp ht
  exact ⟨a, x, y, rfl, hx.2, hy.2⟩

theorem Tree.isCertainlyString_total (t : Tree α) :
    t.WellShaped → ∃ b, t.isCertainlyString = .ok b := by
  induction t with
  | node m k cs ih =>
    intro ht
    by_cases hsum : (node m k cs).isSum
    · obtain ⟨a, x, y, heq, hx, hy⟩ := sum_cases ht hsum
      cases heq
      obtain ⟨b, hb⟩ := ih x (by simp) hx
      obtain ⟨c, hc⟩ := ih y (by simp) hy
      rw [isCertainlyString, hb]
      cases b with
      | true => exact ⟨true, rfl⟩
      | false => exact ⟨c, hc⟩
    · unfold isCertainlyString
      split
      · exact ⟨_, rfl⟩
      · rename_i heq
        cases heq
        exact absurd rfl hsum
      · exact ⟨_, rfl⟩

namespace Step.Concat

variable {m : Option α} {x y : Tree (Option α)}

theorem appendLiteral_offers (hx : x.WellShaped) :
    Offers known (.node m (.binary .add) [x, y]) (appendLiteral m x y []) := by
  refine offers_if fun h => ?_
  rw [Bool.and_eq_true] at h
  obtain ⟨a, x, z, rfl, -, hz⟩ := sum_cases hx h.1
  obtain ⟨b, k, zs⟩ := z
  split
  · rename_i heq
    cases heq
    obtain rfl : zs = [] := (wellShaped_none rfl).mp hz
    split
    · rename_i htail
      exact offers_some (.appendLiteral htail)
    · exact offers_none
  · exact offers_none
  · rename_i heq
    cases heq
    rename_i hno
    exact (hno x _ [] rfl).elim

theorem dropEmptyTail_offers (hx : x.WellShaped) :
    Offers known (.node m (.binary .add) [x, y]) (dropEmptyTail m x y []) := by
  refine offers_if fun h => ?_
  have hy : y.kind = .string "" := by simpa [Kind.isString] using h
  obtain ⟨b, hb⟩ := isCertainlyString_total x hx
  rw [hb]
  cases b with
  | true => exact offers_some (.dropEmptyTail hy hb)
  | false => exact offers_none

theorem moveEmptyHead_offers (hx : x.WellShaped) :
    Offers known (.node m (.binary .add) [x, y]) (moveEmptyHead m x y []) := by
  refine offers_if fun h => ?_
  rw [Bool.and_eq_true] at h
  obtain ⟨a, head, x, rfl, -, -⟩ := sum_cases hx h.1
  refine offers_if fun hhead => ?_
  split
  · rename_i htext
    exact offers_some (.moveEmptyHead (by simpa [Kind.isString] using hhead) htext)
  · exact offers_none

theorem prependLiteral_offers (hy : y.WellShaped) :
    Offers known (.node m (.binary .add) [x, y]) (prependLiteral m x y []) := by
  refine offers_if fun h => ?_
  rw [Bool.and_eq_true] at h
  obtain ⟨a, z, y, rfl, hz, -⟩ := sum_cases hy h.2
  obtain ⟨b, k, zs⟩ := z
  split
  · rename_i heq
    cases heq
    obtain rfl : zs = [] := (wellShaped_none rfl).mp hz
    split
    · rename_i htext
      exact offers_some (.prependLiteral htext)
    · exact offers_none
  · exact offers_none
  · rename_i heq
    cases heq

theorem moveEmptyTail_offers (hy : y.WellShaped) :
    Offers known (.node m (.binary .add) [x, y]) (moveEmptyTail m x y []) := by
  refine offers_if fun h => ?_
  rw [Bool.and_eq_true] at h
  obtain ⟨a, y, tail, rfl, -, -⟩ := sum_cases hy h.2
  refine offers_if fun htail => ?_
  split
  · rename_i htext
    exact offers_some (.moveEmptyTail (by simpa [Kind.isString] using htail) htext)
  · exact offers_none

theorem step_offers (hx : x.WellShaped) (hy : y.WellShaped) :
    Offers known (.node m (.binary .add) [x, y]) (step m x y []) := by
  unfold step
  split
  · rename_i h
    rw [Bool.and_eq_true] at h
    refine ⟨_, rfl, ?_⟩
    rintro s hs
    obtain ⟨k, hk, rfl⟩ := Option.map_eq_some_iff.mp hs
    exact .foldBinary h.1 h.2 hk
  · apply offers_firstOf
    simp only [forall_mem_cons, not_mem_nil, false_imp_iff, implies_true, and_true]
    exact ⟨appendLiteral_offers hx, dropEmptyTail_offers hx, moveEmptyHead_offers hx,
      prependLiteral_offers hy, moveEmptyTail_offers hy⟩

end Step.Concat

namespace Simplifying

theorem concat_carries (n : Nat) :
    ∀ t : Tree (Option α), t.size ≤ n → t.WellShaped → Carries known t id (concat t) := by
  induction n with
  | zero =>
    intro t hn
    have := t.size_pos
    omega
  | succ n ih =>
    intro t hn ht
    by_cases hsum : t.isSum
    · obtain ⟨m, x, y, rfl, hx, hy⟩ := sum_cases ht hsum
      rw [concat]
      obtain ⟨o, ho, hrule⟩ : Offers known (.node m (.binary .add) [x, y]) _ :=
        Concat.step_offers hx hy
      split
      · rename_i e he
        rw [ho] at he
        cases he
      · exact carries_pure rfl
      · rename_i s hs
        have hsize := Concat.step_size hs
        rw [ho, Except.ok.injEq] at hs
        have hrule := hrule s hs
        -- The result is smaller, so what is done to it is known already.
        simp only [Concat.weight, sizes_nil] at hsize
        simp only [size_node, sizes_cons, sizes_nil] at hn
        exact carries_performThen hrule (by simp) (ih s.tree (by omega) (hrule.wellShaped ht).1)
    · unfold concat
      split
      · rename_i heq
        exact absurd rfl hsum
      · exact carries_pure rfl

theorem binary_carries {op : BinaryOp} {x y : Tree (Option α)}
    (h : (node m (.binary op) [x, y]).WellShaped) :
    Carries known (.node m (.binary op) [x, y]) id (binary m op [x, y]) := by
  unfold binary
  dsimp only
  split
  · rename_i hop
    exact carries_performOr (fun s hs => .logical hop hs) (by simp)
  · split
    · rename_i hlit
      rw [Bool.and_eq_true] at hlit
      refine carries_performOr (fun s hs => ?_) (by simp)
      obtain ⟨k, hk, rfl⟩ := Option.map_eq_some_iff.mp hs
      exact .foldBinary hlit.1 hlit.2 hk
    · exact concat_carries _ _ (Nat.le_refl _) h

end Simplifying

/-! ## Conditionals -/

theorem Kind.expectExpression_eq_ok (role : String) {k : Kind} (h : k.isExpression) :
    k.expectExpression role = .ok () := by
  rw [expectExpression, if_pos h]

theorem Step.conditional_offers {y : Tree (Option α)} (ht : t.Fit Kind.isExpression)
    (hx : x.Fit Kind.isExpression) (hy : y.Fit Kind.isExpression) :
    Offers known (.node m .conditional [t, x, y]) (conditional m t [x, y]) := by
  obtain ⟨e, he⟩ := hasEffects_total t ht.2
  simp only [conditional, he, bind, Except.bind, isEmpty_nil, if_true]
  by_cases hxy : x.sameAs y
  · rw [if_pos hxy]
    cases e with
    | true => exact offers_some (.sameBranches hxy)
    | false => exact offers_some (.sameBranchesPure he hxy)
  · rw [if_neg hxy]
    have htrole := Kind.expectExpression_eq_ok "binary operand" ht.1
    have hxrole := Kind.expectExpression_eq_ok "binary operand" hx.1
    have hyrole := Kind.expectExpression_eq_ok "binary operand" hy.1
    cases e with
    | true => exact offers_none
    | false =>
      simp only [Bool.not_false, Bool.true_and]
      split
      · rename_i htx
        simp only [logicalOf, htrole, hyrole]
        exact offers_some (.toOr he htx)
      · split
        · rename_i hty
          simp only [logicalOf, htrole, hxrole]
          exact offers_some (.toAnd he hty)
        · exact offers_none

namespace Simplifying

variable {m : Option α} {t c f a u b h : Tree (Option α)} {l r : List (Tree (Option α))}

theorem conditionalOn_carries (t : Tree (Option α)) :
    ∀ x y : Tree (Option α), (node m .conditional [t, x, y]).WellShaped →
      Carries known (.node m .conditional [t, x, y]) id (conditionalOn m t [x, y]) := by
  induction t with
  | node a k cs ih =>
    intro x y h
    obtain ⟨ht, hx, hy⟩ := (wellShaped_triple rfl).mp h
    unfold conditionalOn
    split
    · rename_i heq
      cases heq
      obtain ⟨z, rfl, -⟩ := (wellShaped_one rfl).mp ht.2
      have hswap : Rewrites known (.node m .conditional [.node a (.unary .not) [z], x, y])
          ⟨.node m .conditional [z, y, x], [.node a (.unary .not) []]⟩ := .swapConditional
      exact carries_counted hswap (by simp) (ih z (by simp) y x (hswap.wellShaped h).1)
    · split
      · rename_i b hb
        cases b with
        | true =>
          exact carries_lift rfl (carries_perform (.choose hb rfl) (by simp))
        | false =>
          exact carries_lift rfl (carries_perform (.choose hb rfl) (by simp))
      · exact (conditional_offers ht hx hy).carries (by simp)

theorem conditional_carries {x y : Tree (Option α)}
    (h : (node m .conditional [t, x, y]).WellShaped) :
    Carries known (.node m .conditional [t, x, y]) id (conditional m [t, x, y]) :=
  conditionalOn_carries t x y h

/-! ## Loops and bodies -/

theorem unbrace_carries {k : Kind} (hk : k.hasBody) (hif : k ≠ .ifElse)
    (b : Tree (Option α)) :
    Carries known (.node m k (l ++ b :: r)) (fun b' => .node m k (l ++ b' :: r)) (unbrace b) := by
  unfold unbrace
  cases hb : b.unbrace? with
  | none => exact carries_pure rfl
  | some s => exact carries_perform (.unbrace hk hb) (by simp [hif])

theorem within_carries {p : Part} {k : Kind} {f : Tree (Option α) → Simplifying α (Tree (Option α))}
    (howner : p.owner k) (hposition : p.position = l.length)
    (hf : Carries known (.node m k (l ++ c :: r)) (fun c' => .node m k (l ++ c' :: r)) (f c)) :
    Carries known (.node m k (l ++ c :: r)) id (within p m k (l ++ c :: r) f) := by
  have hget : p.get k (l ++ c :: r) = .ok c := by
    simp [Part.get, howner, hposition]
  unfold within
  refine carries_lift hget (hf.bind fun c' d _ => carries_pure ?_)
  simp [hposition]

theorem dropTruthyTest_carries :
    Carries known (.node m .forLoop [a, t, u, b]) (fun t' => .node m .forLoop [a, t', u, b])
      (dropTruthyTest t) := by
  unfold dropTruthyTest
  split
  · rename_i ht
    exact carries_perform (.dropTest ht) (by simp)
  · exact carries_pure rfl

theorem reduceClause_carries (hk : Kind.forLoop.discards l.length r.length)
    (hc : c.WellShaped) :
    Carries known (.node m .forLoop (l ++ c :: r)) (fun c' => .node m .forLoop (l ++ c' :: r))
      (reduceClause c) := by
  unfold reduceClause
  split
  · rename_i he
    refine keepEffects_carries hk ⟨he, hc⟩ (fun h => ?_) fun c' => carries_pure rfl
    exact carries_perform (.dropClause hk he h) (by simp)
  · exact carries_pure rfl

theorem forLoop_carries (h : (node m .forLoop [a, t, u, b]).WellShaped) :
    Carries known (.node m .forLoop [a, t, u, b]) id (forLoop m [a, t, u, b]) := by
  unfold forLoop
  refine (unbrace_carries (l := [a, t, u]) (r := []) rfl (by simp) b).bind fun b' d hd => ?_
  refine dropTruthyTest_carries.bind fun t' d hd' => ?_
  obtain ⟨ha, -, -, -⟩ := (wellShaped_quadruple rfl).mp h
  refine (reduceClause_carries (l := []) (r := [t', u, b']) rfl ha.2).bind fun a' d hd'' => ?_
  obtain ⟨-, -, hu, -⟩ := (wellShaped_quadruple rfl).mp h
  refine (reduceClause_carries (l := [a', t']) (r := [b']) rfl hu.2).bind fun u' d _ => ?_
  exact carries_pure rfl

theorem whileLoop_carries (h : (node m .whileLoop [t, b]).WellShaped) :
    Carries known (.node m .whileLoop [t, b]) id (whileLoop m [t, b]) := by
  obtain ⟨ht, hb⟩ := (wellShaped_pair rfl).mp h
  have hloop : Rewrites known (.node m .whileLoop [t, b]) (fresh m .forLoop _ []) := .whileToFor
  have htest : t.kind.expectKind "for test" t.kind.fitsClause = .ok () := by
    simp [Kind.expectKind, Kind.fitsClause, ht.1]
  have hbody : b.kind.expectStatement "for body" = .ok () := by
    rw [Kind.expectStatement, if_pos hb.1]
  unfold whileLoop
  refine carries_lift htest (carries_lift hbody ?_)
  exact carries_performThen hloop (by simp) (forLoop_carries (hloop.wellShaped h).1)

/-! ## Exception handlers -/

theorem rethrows_total {h : Tree α} (hh : h.WellShaped) : ∃ b, h.rethrows = .ok b := by
  obtain ⟨m, k, cs⟩ := h
  cases k with
  | «catch» binding =>
    obtain ⟨body, rfl, hbody⟩ := (wellShaped_one rfl).mp hh
    have hpart : (node m (.catch binding) [body]).part Part.catchBody = .ok body := rfl
    simp only [rethrows, kind_node, hpart, bind, Except.bind]
    split
    · rename_i only honly
      split
      · rename_i hthrow
        obtain ⟨b, k, xs⟩ := body
        obtain rfl : xs = [only] := honly
        obtain ⟨a, k, ys⟩ := only
        obtain rfl : k = .throw := hthrow
        have hthrown := (wellShaped_node.mp hbody.2).2 _ (.head _)
        obtain ⟨v, rfl, -⟩ := (wellShaped_one rfl).mp hthrown
        exact ⟨_, rfl⟩
      · exact ⟨_, rfl⟩
    · exact ⟨_, rfl⟩
  | _ => exact ⟨_, rfl⟩

theorem dropRethrow_carries (hh : h.WellShaped) :
    Carries known (.node m .try [b, h, f]) (fun h' => .node m .try [b, h', f])
      (dropRethrow h) := by
  obtain ⟨r, hr⟩ := rethrows_total hh
  unfold dropRethrow
  refine carries_lift hr ?_
  cases r with
  | true => exact carries_perform (.dropRethrow hr) (by simp)
  | false => exact carries_pure rfl

theorem dropEmptyFinalizer_carries :
    Carries known (.node m .try [b, h, f]) (fun f' => .node m .try [b, h, f'])
      (dropEmptyFinalizer f) := by
  unfold dropEmptyFinalizer
  split
  · rename_i hf
    obtain ⟨a, k, cs⟩ := f
    obtain ⟨hk, hcs⟩ := hf
    obtain rfl : k = .block := hk
    obtain rfl : cs = [] := isEmpty_iff.mp hcs
    exact carries_perform .dropFinalizer (by simp)
  · exact carries_pure rfl

theorem tryStatement_carries (ht : (node m .try [b, h, f]).WellShaped) :
    Carries known (.node m .try [b, h, f]) id (tryStatement m [b, h, f]) := by
  obtain ⟨-, hh, -⟩ := (wellShaped_triple rfl).mp ht
  unfold tryStatement
  refine (dropRethrow_carries hh.2).bind fun h' d _ => ?_
  refine dropEmptyFinalizer_carries.bind fun f' d _ => ?_
  exact carries_performOr (fun s hs => .tryBlock hs) (by simp)

end Simplifying

/-! ## Branches -/

namespace IfPlan

def Justified (test whenTrue whenFalse : Tree α) : IfPlan → Prop
  | take truth => test.kind.truth? = some truth ∧
      (if truth then whenFalse else whenTrue).bindsNames = false
  | testOnly => whenTrue.isEmpty ∧ whenFalse.isEmpty
  | swap => test.isNot
  | join k => k.handsOver ∧ whenTrue.kind = k ∧ whenFalse.kind = k
  | logical => whenTrue.kind = .expression ∧ whenFalse.isEmpty
  | invert | keep => True

theorem ofBranches_justified (t x y : Tree α) : (ofBranches t x y).Justified t x y := by
  unfold ofBranches
  split
  · rename_i hx
    split
    · rename_i hy
      exact ⟨hx, hy⟩
    · trivial
  · split
    · rename_i h
      rw [Bool.and_eq_true] at h
      exact h.1
    · split
      · rename_i hx hy
        exact ⟨rfl, hx, hy⟩
      · rename_i hx hy
        exact ⟨rfl, hx, hy⟩
      · rename_i hx hy
        exact ⟨rfl, hx, hy⟩
      · rename_i hx hy
        exact ⟨hx, by rw [Tree.isEmpty, hy]; rfl⟩
      · trivial

theorem of_justified (t x y : Tree α) : (of t x y).Justified t x y := by
  unfold of
  split
  · rename_i truth ht
    by_cases hd : (if truth then y else x).bindsNames
    · rw [if_pos hd]
      exact ofBranches_justified t x y
    · rw [if_neg hd]
      exact ⟨ht, by simpa using hd⟩
  · exact ofBranches_justified t x y

end IfPlan

theorem Tree.not_cases {t : Tree α} (ht : t.WellShaped) (h : t.isNot) :
    ∃ a x, t = .node a (.unary .not) [x] := by
  obtain ⟨a, k, cs⟩ := t
  obtain rfl : k = .unary .not := by simpa [isNot] using h
  obtain ⟨x, rfl, -⟩ := (wellShaped_one rfl).mp ht
  exact ⟨a, x, rfl⟩

theorem Step.unitedBranches_eq_ok {a b : Option α} {k : Kind} {v w : Tree (Option α)}
    (ht : t.Fit Kind.isExpression) (hv : v.Fit Kind.isExpression) (hw : w.Fit Kind.isExpression) :
    unitedBranches k t (.node a k [v]) (.node b k [w]) =
      .ok ⟨new .conditional [t, v, w], [.node a k [], .node b k []]⟩ := by
  simp only [unitedBranches, branchValue, bind, Except.bind,
    Kind.expectExpression_eq_ok _ ht.1, Kind.expectExpression_eq_ok _ hv.1,
    Kind.expectExpression_eq_ok _ hw.1]
  rfl

theorem Step.negation_total (ht : t.Fit Kind.isExpression) : ∃ s, negation t = .ok s := by
  unfold negation
  split
  · obtain ⟨x, rfl, -⟩ := (wellShaped_one rfl).mp ht.2
    exact ⟨_, rfl⟩
  · split
    · exact ⟨_, rfl⟩
    · exact ⟨_, by rw [Kind.expectExpression_eq_ok _ ht.1]; rfl⟩

namespace Simplifying

variable {m : Option α} {y : Tree (Option α)}

theorem noteUnbrace_carries (b : Tree (Option α)) :
    Carries known (.node m .ifElse (l ++ b :: r)) (fun _ => .node m .ifElse (l ++ b.unbraced :: r))
      (noteUnbrace b) := by
  unfold noteUnbrace unbraced
  cases hb : b.unbrace? with
  | none => exact carries_pure rfl
  | some s =>
    have hlt := weight_unbrace_lt hb
    have hkind : b.isEmpty → s.tree.isEmpty := by
      rw [Tree.isEmpty, Tree.isBlock_of_unbrace hb]
      simp
    have := surcharge_exchange (k := .ifElse) (l := l) (r := r) hkind
    refine carries_performThen (.unbrace rfl hb) (fun _ => ?_) (carries_pure rfl)
    simp only [weight_node, weights_append, weights_cons]
    omega

theorem plain_carries (t : Tree (Option α)) (ht : t.WellShaped) :
    Carries known t id (plain known t) := by
  obtain ⟨m, k, cs⟩ := t
  cases k with
  | module => exact statements_carries rfl ht
  | block => exact statements_carries rfl ht
  | expression =>
    obtain ⟨x, rfl, hx⟩ := (wellShaped_one rfl).mp ht
    exact expressionStatement_carries hx
  | whileLoop =>
    obtain ⟨t, b, rfl, -⟩ := (wellShaped_two rfl).mp ht
    exact whileLoop_carries ht
  | forLoop =>
    obtain ⟨a, t, u, b, rfl, -⟩ := (wellShaped_four rfl).mp ht
    exact forLoop_carries ht
  | doWhile =>
    obtain ⟨b, t, rfl, -⟩ := (wellShaped_two rfl).mp ht
    exact within_carries (l := []) rfl rfl (unbrace_carries rfl (by simp) b)
  | forIn =>
    obtain ⟨a, v, b, rfl, -⟩ := (wellShaped_three rfl).mp ht
    exact within_carries (l := [a, v]) rfl rfl (unbrace_carries rfl (by simp) b)
  | label s =>
    obtain ⟨b, rfl, -⟩ := (wellShaped_one rfl).mp ht
    exact within_carries (l := []) rfl rfl (unbrace_carries rfl (by simp) b)
  | «try» =>
    obtain ⟨b, h, f, rfl, -⟩ := (wellShaped_three rfl).mp ht
    exact tryStatement_carries ht
  | conditional =>
    obtain ⟨t, x, y, rfl, -⟩ := (wellShaped_three rfl).mp ht
    exact conditional_carries ht
  | sequence => exact sequence_carries ht
  | call => exact call_carries ht
  | unary op =>
    obtain ⟨x, rfl, hx⟩ := (wellShaped_one rfl).mp ht
    exact unary_carries hx.2
  | binary op =>
    obtain ⟨x, y, rfl, -⟩ := (wellShaped_two rfl).mp ht
    exact binary_carries ht
  | _ => exact carries_pure rfl

theorem value_of_handsOver {k : Kind} (hk : k.handsOver) (hx : x.kind = k) (h : x.WellShaped) :
    ∃ a v, x = .node a k [v] ∧ v.Fit Kind.isExpression := by
  obtain ⟨a, j, cs⟩ := x
  obtain rfl : j = k := hx
  obtain ⟨v, rfl, hv⟩ := (wellShaped_one (Kind.places_of_handsOver hk)).mp h
  exact ⟨a, v, rfl, hv⟩

theorem uniteBranches_carries {k : Kind} (hk : k.handsOver) (hx : x.kind = k)
    (hy : y.kind = k) (h : (node m .ifElse [t, x, y]).WellShaped) :
    Carries known (.node m .ifElse [t, x, y]) id (uniteBranches m k t x y) := by
  have hplaces := Kind.places_of_handsOver hk
  obtain ⟨ht, hxs, hys⟩ := (wellShaped_triple rfl).mp h
  obtain ⟨a, v, rfl, hv⟩ := value_of_handsOver hk hx hxs.2
  obtain ⟨b, w, rfl, hw⟩ := value_of_handsOver hk hy hys.2
  have hif : k ≠ .ifElse := by
    rintro rfl
    cases hk
  have hjoin : Rewrites known (.node m .ifElse [t, .node a k [v], .node b k [w]])
      ⟨.node m k [new .conditional [t, v, w]],
        [new .empty [], .node a k [], .node b k []]⟩ := .join hk
  have hshape := (hjoin.wellShaped h).1
  have hvalue := (wellShaped_singleton hplaces).mp hshape
  obtain ⟨c, u, hruns, hred, hlight⟩ : Carries known _ (fun c => .node m k [c])
      (conditional none [t, v, w]) :=
    (conditional_carries hvalue.2).child (l := []) (r := []) fun h => absurd h hif
  have hc := (hred.wellShaped hshape).1
  obtain ⟨t', u', hruns', hred', hlight'⟩ : Carries known (.node m k [c]) id
      (if k = .expression then expressionStatement m [c] else pure (.node m k [c])) := by
    split
    · rename_i he
      subst he
      exact expressionStatement_carries ((wellShaped_singleton hplaces).mp hc)
    · exact carries_pure rfl
  unfold uniteBranches
  refine carries_lift (unitedBranches_eq_ok ht hv hw) ?_
  refine ⟨t', _, (runs_release _).bind (hruns.bind (runs_noteChange.bind hruns')), ?_, fun _ => ?_⟩
  · simpa [Trace.after] using (Reduces.rule hjoin).trans (hred.trans hred')
  · -- The change is counted only after the new conditional has been looked at.
    have hlt : (node m k [new .conditional [t, v, w]]).weight < _ :=
      hjoin.weight_lt_if hif
    have hrest : _ ≤ (node m k [new .conditional [t, v, w]]).weight :=
      ((hlight hshape).trans (hlight' hc)).weight
    refine ⟨?_, fun hn => ?_⟩
    · simp only [Trace.after] at hrest ⊢
      omega
    · simp [Trace.after] at hn

theorem logicalStatement_total (known : WellKnown) (hx : x.kind = .expression)
    (hy : y.isEmpty) (h : (node m .ifElse [t, x, y]).WellShaped) :
    ∃ s c, logicalStatement m t x y = .ok s ∧
      Rewrites known (.node m .ifElse [t, x, y]) s ∧ s.tree = .node m .expression [c] := by
  obtain ⟨ht, hxs, -⟩ := (wellShaped_triple rfl).mp h
  obtain ⟨a, v, rfl, hv⟩ := value_of_handsOver rfl hx hxs.2
  have hpart : (node a .expression [v]).part Part.expressionValue = .ok v := rfl
  have hvalue := Kind.expectExpression_eq_ok "binary operand" hv.1
  simp only [logicalStatement, hpart, hvalue, bind, Except.bind]
  by_cases hnot : t.isNot
  · rw [if_pos hnot]
    obtain ⟨b, z, rfl⟩ := not_cases ht.2 hnot
    have hz := (wellShaped_singleton rfl).mp ht.2
    simp only [negation, Kind.expectExpression_eq_ok _ hz.1]
    exact ⟨_, _, rfl, .toLogicalNot hy, rfl⟩
  · rw [if_neg hnot]
    simp only [Kind.expectExpression_eq_ok _ ht.1]
    exact ⟨_, _, rfl, .toLogical hy, rfl⟩

def noMore {γ : Type} (rest : List γ) : Except Fault Unit :=
  if rest.isEmpty then .ok () else .error (.wrongArity .ifElse 3 (3 + rest.length))

def follow (known : WellKnown) (m : Option α) (test a b : Tree (Option α))
    (rest : List (Tree (Option α))) : IfPlan → Simplifying α (Tree (Option α))
  | .take truth => do
    let taken := if truth then a else b
    let _ ← perform (become m taken (test :: (if truth then b else a) :: rest))
    applyRules known (.node m taken.kind taken.children)
  | .testOnly => do
    test.kind.expectExpression "expression statement value"
    let step ← perform (fresh m .expression [test] (a :: b :: rest))
    expressionStatement m step.children
  | .invert => do
    noMore rest
    let negated ← negation test
    release negated.detached
    noteChange
    ifElse known m negated.tree b a []
  | .swap => do
    noMore rest
    match test with
    | .node tm (.unary .not) (inner :: others) => do
      release [.node tm (.unary .not) others]
      noteChange
      ifElse known m inner b a []
    | t => throw (Part.unaryOperand.missingFrom t.kind)
  | .join statement => do
    noMore rest
    uniteBranches m statement test a b
  | .logical => do
    noMore rest
    let step ← perform (← logicalStatement m test a b)
    expressionStatement m step.children
  | .keep => return .node m .ifElse (test :: a :: b :: rest)

theorem applyRules_of_ne (known : WellKnown) (h : t.kind ≠ .ifElse) :
    applyRules known t = plain known t := by
  unfold applyRules
  split
  · exact absurd rfl h
  · rfl

theorem ifElse_eq (known : WellKnown) (m : Option α) (t x y : Tree (Option α))
    (rest : List (Tree (Option α))) :
    ifElse known m t x y rest = noteUnbrace x >>= fun _ => noteUnbrace y >>= fun _ =>
      follow known m t x.unbraced y.unbraced rest (IfPlan.of t x.unbraced y.unbraced) := by
  rw [ifElse]
  refine congrArg (noteUnbrace x >>= ·) (funext fun _ => ?_)
  refine congrArg (noteUnbrace y >>= ·) (funext fun _ => ?_)
  dsimp only
  rw [← noMore]
  split
  all_goals rename_i h
  all_goals conv_rhs => rw [h]
  · refine congrArg (perform _ >>= ·) (funext fun _ => ?_)
    split
    all_goals rename_i htaken
    all_goals conv_rhs => rw [htaken]
    · rfl
    · rfl
    · rename_i cs hmore htwo
      rcases cs with _ | ⟨a, _ | ⟨b, _ | ⟨c, cs⟩⟩⟩
      · rfl
      · rfl
      · exact absurd rfl (htwo a b)
      · exact absurd rfl (hmore a b c cs)
    · rename_i hkind
      refine Eq.symm (applyRules_of_ne known ?_)
      exact hkind
  all_goals rfl

theorem invert_lt {s : Step α} (hx : x.isEmpty) (hy : y.isEmpty = false)
    (h : negation t = .ok s) :
    (node m .ifElse [s.tree, y, x]).weight < (node m .ifElse [t, x, y]).weight := by
  have hle := weight_negation_le h
  simp only [weights_cons, weights_nil, weight_node, surcharge, hx, hy, if_true,
    Bool.false_eq_true, if_false]
  omega

theorem swap_lt {a : Option α} {z : Tree (Option α)} (hy : y.isEmpty = false) :
    (node m .ifElse [z, y, x]).weight <
      (node m .ifElse [.node a (.unary .not) [z], x, y]).weight := by
  have := surcharge_le .ifElse [z, y, x]
  have hcharge : surcharge .ifElse [.node a (.unary .not) [z], x, y] = 4 := by
    simp [surcharge, hy]
  simp only [weights_cons, weights_nil, weight_node, hcharge, Kind.weight]
  omega

theorem ifElse_carries (t x y : Tree (Option α)) (h : (node m .ifElse [t, x, y]).WellShaped) :
    Carries known (.node m .ifElse [t, x, y]) id (ifElse known m t x y []) := by
  rw [ifElse_eq]
  refine (noteUnbrace_carries (l := [t]) (r := [y]) x).bind fun _ d hd => ?_
  refine (noteUnbrace_carries (l := [t, x.unbraced]) (r := []) y).bind fun _ e he => ?_
  have h' : (node m .ifElse [t, x.unbraced, y.unbraced]).WellShaped :=
    (he.wellShaped (hd.wellShaped h).1).1
  obtain ⟨ht, -, -⟩ := (wellShaped_triple rfl).mp h'
  have hjustified := IfPlan.of_justified t x.unbraced y.unbraced
  cases hplan : IfPlan.of t x.unbraced y.unbraced with
  | take truth =>
    rw [hplan] at hjustified
    have htake : Rewrites known (.node m .ifElse [t, x.unbraced, y.unbraced]) _ :=
      .take hjustified.1 hjustified.2
    have hsize := branch_size_le truth x y
    have hlt : (if truth then x.unbraced else y.unbraced).weight <
        (node m .ifElse [t, x.unbraced, y.unbraced]).weight := by
      have := t.weight_pos
      simp only [weight_node, weights_cons]
      split <;> omega
    have htaken := (htake.wellShaped h').1
    simp only [follow]
    generalize (if truth then x.unbraced else y.unbraced) = taken at *
    rw [← weight_become m taken []] at hlt
    refine carries_performThen htake (fun _ => hlt) ?_
    -- The branch has the mark of the statement now, and is looked at again.
    obtain ⟨b, k, cs⟩ := taken
    by_cases hk : k = .ifElse
    · subst hk
      obtain ⟨t', x', y', rfl, -⟩ := (wellShaped_three rfl).mp htaken
      exact ifElse_carries t' x' y' htaken
    · have hne : (node m k cs).kind ≠ .ifElse := hk
      show Carries known (.node m k cs) id (applyRules known (.node m k cs))
      rw [applyRules_of_ne known hne]
      exact plain_carries _ htaken
  | testOnly =>
    rw [hplan] at hjustified
    have htest : Rewrites known (.node m .ifElse [t, x.unbraced, y.unbraced])
        (fresh m .expression [t] [x.unbraced, y.unbraced]) :=
      .testOnly hjustified.1 hjustified.2
    refine carries_lift (Kind.expectExpression_eq_ok _ ht.1) (carries_performThen htest ?_ ?_)
    · exact fun _ => htest.weight_lt_if (by simp [fresh, become, new])
    · exact expressionStatement_carries ht
  | invert =>
    obtain ⟨s, hs⟩ := negation_total ht
    obtain ⟨hempty, hfull⟩ := IfPlan.isEmpty_of_invert hplan
    have hinvert : Rewrites known (.node m .ifElse [t, x.unbraced, y.unbraced])
        ⟨.node m .ifElse [s.tree, y.unbraced, x.unbraced], s.detached⟩ := .invert hs
    have hless : Simpler y.unbraced x.unbraced s.tree x y t := invert_decreases ⟨hempty, hfull⟩
    refine carries_lift rfl (carries_lift hs (carries_counted hinvert ?_ ?_))
    · exact fun _ => invert_lt hempty hfull hs
    · exact ifElse_carries s.tree y.unbraced x.unbraced (hinvert.wellShaped h').1
  | swap =>
    rw [hplan] at hjustified
    obtain ⟨b, z, htz⟩ := not_cases ht.2 hjustified
    have hbranches := IfPlan.isEmpty_of_swap hplan
    have hless : Simpler y.unbraced x.unbraced z x y t := swap_decreases hbranches (by simp [htz])
    have hswap : Rewrites known
        (.node m .ifElse [.node b (.unary .not) [z], x.unbraced, y.unbraced])
        ⟨.node m .ifElse [z, y.unbraced, x.unbraced], [.node b (.unary .not) []]⟩ :=
      .invert (s := ⟨z, [.node b (.unary .not) []]⟩) rfl
    rw [htz] at h' ⊢
    refine carries_lift rfl (carries_counted hswap (fun _ => swap_lt hbranches.2) ?_)
    exact ifElse_carries z y.unbraced x.unbraced (hswap.wellShaped h').1
  | join k =>
    rw [hplan] at hjustified
    exact carries_lift rfl
      (uniteBranches_carries hjustified.1 hjustified.2.1 hjustified.2.2 h')
  | logical =>
    rw [hplan] at hjustified
    obtain ⟨s, c, hs, hrule, htree⟩ := logicalStatement_total known hjustified.1 hjustified.2 h'
    have hc := (hrule.wellShaped h').1
    have hstatement : Carries known s.tree id (expressionStatement m s.tree.children) := by
      rw [htree] at hc ⊢
      exact expressionStatement_carries ((wellShaped_singleton rfl).mp hc)
    refine carries_lift rfl (carries_lift hs (carries_performThen hrule ?_ hstatement))
    exact fun _ => hrule.weight_lt_if (by simp [htree])
  | keep => exact carries_pure rfl
termination_by (x.size + y.size, if x.unbraced.isEmpty then 1 else 0, t.size)
decreasing_by
  · simp only [size_node, sizes_cons, sizes_nil] at hsize
    apply Prod.Lex.left
    omega
  · exact hless
  · exact hless

/-! ## Whole trees -/

theorem applyRules_carries (t : Tree (Option α)) (ht : t.WellShaped) :
    Carries known t id (applyRules known t) := by
  obtain ⟨m, k, cs⟩ := t
  by_cases hk : k = .ifElse
  · subst hk
    obtain ⟨t, x, y, rfl, -⟩ := (wellShaped_three rfl).mp ht
    exact ifElse_carries t x y ht
  · rw [applyRules_of_ne known (show (node m k cs).kind ≠ _ from hk)]
    exact plain_carries _ ht

theorem visit_isEmpty (ht : t.WellShaped) (hempty : t.isEmpty) : visit known t = pure t := by
  obtain ⟨m, k, cs⟩ := t
  obtain rfl : k = .empty := by simpa [Tree.isEmpty] using hempty
  obtain rfl : cs = [] := (wellShaped_none rfl).mp ht
  rw [visit, visitAll]
  rfl

theorem visitAll_carries {k : Kind} : ∀ cs l : List (Tree (Option α)),
      (∀ c ∈ cs, c.WellShaped ∧ Carries known c id (visit known c)) →
      Carries known (.node m k (l ++ cs)) (fun cs' => .node m k (l ++ cs')) (visitAll known cs)
  | [], l, _ => by
    rw [visitAll]
    exact carries_pure rfl
  | c :: cs, l, h => by
    obtain ⟨hshape, hc⟩ := h c (.head _)
    have hchild : Carries known (.node m k (l ++ c :: cs)) (fun c' => .node m k (l ++ c' :: cs))
        (visit known c) := by
      by_cases hempty : c.isEmpty
      · rw [visit_isEmpty hshape hempty]
        exact carries_pure rfl
      · exact hc.child fun _ => by simpa using hempty
    rw [visitAll]
    refine hchild.bind fun c' d _ => ?_
    exact (visitAll_carries (k := k) cs (l ++ [c']) fun c hc => h c (.tail _ hc)).prepend

theorem visit_carries (t : Tree (Option α)) :
    t.WellShaped → Carries known t id (visit known t) := by
  induction t with
  | node m k cs ih =>
    intro ht
    rw [visit]
    have hcs : ∀ c ∈ cs, c.WellShaped := ht.child
    refine (visitAll_carries cs [] fun c hc => ⟨hcs c hc, ih c hc (hcs c hc)⟩).bind
      fun cs' d hd => ?_
    exact applyRules_carries _ (hd.wellShaped ht).1

end Simplifying

theorem Tree.simplify_total (known : WellKnown) {t : Tree α} (ht : (t.map some).WellShaped) :
    ∃ t' trace, t.simplify known = .ok (t', trace) ∧
      Reduces known (t.map some) t' trace.detached := by
  have hvisit : Carries known (t.map some) id _ := visit_carries _ ht
  obtain ⟨t', trace, hrun, hred, -⟩ := hvisit
  refine ⟨t', _, hrun ⟨0, []⟩, ?_⟩
  rw [Trace.after, append_nil]
  exact hred

end ScriptPress

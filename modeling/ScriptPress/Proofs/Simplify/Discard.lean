import Mathlib.Data.List.Perm.Basic
import ScriptPress.Proofs.Tree.Basic
import ScriptPress.Proofs.Tree.Shape
import ScriptPress.Simplify.Discard

/-! # Taking an expression apart -/

namespace ScriptPress

open List Kind

namespace Tree

variable {α : Type} {t : Tree (Option α)} {e : Effects (Option α)}

theorem anyHasEffects_total : ∀ {cs : List (Tree α)}, (∀ c ∈ cs, ∃ b, c.hasEffects = .ok b)
    → ∃ b, anyHasEffects cs = .ok b
  | [], _ => ⟨false, by rw [anyHasEffects]⟩
  | c :: cs, h => by
    obtain ⟨b, hb⟩ := h c (.head _)
    obtain ⟨b', hb'⟩ := anyHasEffects_total fun c hc => h c (.tail _ hc)
    rw [anyHasEffects, hb]
    cases b with
    | true => exact ⟨true, rfl⟩
    | false => exact ⟨b', hb'⟩

theorem propertyHasEffects_total {t : Tree α} (ht : t.Fit isProperty)
    (h : ∀ c ∈ t.children, ∃ b, c.hasEffects = .ok b) : ∃ b, t.propertyHasEffects = .ok b := by
  obtain ⟨m, k, cs⟩ := t
  obtain ⟨hk, hs⟩ := ht
  cases k <;> try cases hk
  obtain ⟨v, rfl, -⟩ := (wellShaped_one rfl).mp hs
  rw [propertyHasEffects]
  exact h v (.head _)

theorem anyPropertyHasEffects_total : ∀ {ps : List (Tree α)},
    (∀ p ∈ ps, ∃ b, p.propertyHasEffects = .ok b) → ∃ b, anyPropertyHasEffects ps = .ok b
  | [], _ => ⟨false, by rw [anyPropertyHasEffects]⟩
  | p :: ps, h => by
    obtain ⟨b, hb⟩ := h p (.head _)
    obtain ⟨b', hb'⟩ := anyPropertyHasEffects_total fun p hp => h p (.tail _ hp)
    rw [anyPropertyHasEffects, hb]
    cases b with
    | true => exact ⟨true, rfl⟩
    | false => exact ⟨b', hb'⟩

theorem hasEffects_total (t : Tree α) : t.WellShaped → ∃ b, t.hasEffects = .ok b := by
  -- Objects look two levels down, so the claim is proved for the children of children as well.
  suffices h : t.WellShaped →
      (∃ b, t.hasEffects = .ok b) ∧ ∀ c ∈ t.children, ∃ b, c.hasEffects = .ok b from
    fun ht => (h ht).1
  induction t with
  | node m k cs ih =>
    intro ht
    have hcs : ∀ c ∈ cs, c.WellShaped := ht.child
    have hall : ∀ c ∈ cs, ∃ b, c.hasEffects = .ok b := fun c hc => (ih c hc (hcs c hc)).1
    refine ⟨?_, hall⟩
    cases k with
    | unary op =>
      rw [hasEffects]
      by_cases hop : op.isPure
      · obtain ⟨v, rfl, -⟩ := (wellShaped_one rfl).mp ht
        simpa only [hop, if_true, operandHasEffects] using hall v mem_cons_self
      · exact ⟨true, by simp only [hop]; rfl⟩
    | array =>
      rw [hasEffects]
      exact anyHasEffects_total hall
    | object =>
      rw [hasEffects]
      apply anyPropertyHasEffects_total
      intro p hp
      have hfit := (wellShaped_of_element rfl).mp ht p hp
      exact propertyHasEffects_total hfit (ih p hp (hcs p hp)).2
    | _ => exact ⟨_, rfl⟩

theorem effectsAll_cons {c : Tree α} {cs : List (Tree α)} {e : Effects α}
    (h : effectsAll (c :: cs) = .ok e) : ∃ first others,
      c.effects = .ok first ∧ effectsAll cs = .ok others ∧ e = first.append others := by
  rw [effectsAll] at h
  obtain ⟨first, hfirst, h⟩ := exists_of_bind_eq_ok h
  obtain ⟨others, hothers, h⟩ := exists_of_bind_eq_ok h
  cases h
  exact ⟨first, others, hfirst, hothers, rfl⟩

theorem effects_cases {m : α} {k : Kind} {cs : List (Tree α)} {e : Effects α}
    (h : (node m k cs).effects = .ok e) :
    (node m k cs).hasEffects = .ok false ∧ e = .none (node m k cs) ∨
    discard k cs = .ok .elements ∧ (∃ e', effectsAll cs = .ok e' ∧ e = e'.under m k []) ∨
    discard k cs = .ok .properties ∧ (∃ e', effectsProperties cs = .ok e' ∧ e = e'.under m k []) ∨
    (∃ roles, discard k cs = .ok (.operands roles) ∧ effectsOperands m k roles cs = .ok e) ∨
    (node m k cs).hasEffects = .ok true ∧ discard k cs = .ok .whole ∧ e = .whole (node m k cs) := by
  rw [effects] at h
  obtain ⟨b, hb, h⟩ := exists_of_bind_eq_ok h
  cases b with
  | false =>
    cases h
    exact .inl ⟨hb, rfl⟩
  | true =>
    refine .inr ?_
    obtain ⟨d, hd, h⟩ := exists_of_bind_eq_ok h
    cases d with
    | elements =>
      obtain ⟨e', he', h⟩ := exists_of_bind_eq_ok h
      cases h
      exact .inl ⟨hd, e', he', rfl⟩
    | properties =>
      obtain ⟨e', he', h⟩ := exists_of_bind_eq_ok h
      cases h
      exact .inr (.inl ⟨hd, e', he', rfl⟩)
    | operands roles => exact .inr (.inr (.inl ⟨roles, hd, h⟩))
    | whole =>
      cases h
      exact .inr (.inr (.inr ⟨hb, hd, rfl⟩))

structure Split (e : Effects (Option α)) (ts : List (Tree (Option α))) : Prop where
  fit : ∀ p ∈ e.parts, p.Fit isExpression
  below : ∀ p ∈ e.parts, p ∈ subtreesAll ts
  marks : (marksAll e.parts ++ marksAll e.remains).Perm (marksAll ts)

inductive SplitTree (e : Effects (Option α)) (t : Tree (Option α)) : Prop
  | whole (h : e = .whole t) (ht : t.Fit isExpression)
  | apart (d : List (Tree (Option α))) (h : e.remains = [node t.mark t.kind d])
    (fit : ∀ p ∈ e.parts, p.Fit isExpression) (below : ∀ p ∈ e.parts, p ∈ t.subtrees)
    (marks : (marksAll e.parts ++ marksAll d).Perm (marksAll t.children))

theorem SplitTree.split (h : SplitTree e t) : Split e [t] := by
  cases h with
  | whole h ht =>
    subst h
    refine ⟨by simpa [Effects.whole] using ht, fun p hp => ?_, by simp [Effects.whole]⟩
    exact mem_subtreesAll.mpr ⟨t, mem_cons_self, mem_singleton.mp hp ▸ mem_subtrees_self t⟩
  | apart d h fit below marks =>
    refine ⟨fit, fun p hp => mem_subtreesAll.mpr ⟨t, mem_cons_self, below p hp⟩, ?_⟩
    rw [h, marksAll_cons, marksAll_nil, append_nil, marks_node, marksAll_cons, marksAll_nil,
      append_nil, t.marks_eq]
    -- The mark of the node stands between the parts and the other remains.
    refine perm_append_comm_assoc _ _ _ |>.trans ?_
    exact marks.append_left _

theorem Split.append {e' : Effects (Option α)} {ts ts' : List (Tree (Option α))} (h : Split e ts)
    (h' : Split e' ts') : Split (e.append e') (ts ++ ts') := by
  refine ⟨fun p hp => ?_, fun p hp => ?_, ?_⟩
  · rcases mem_append.mp hp with hp | hp
    · exact h.fit p hp
    · exact h'.fit p hp
  · rw [mem_subtreesAll]
    rcases mem_append.mp hp with hp | hp
    · obtain ⟨t, ht, hp⟩ := mem_subtreesAll.mp (h.below p hp)
      exact ⟨t, mem_append_left _ ht, hp⟩
    · obtain ⟨t, ht, hp⟩ := mem_subtreesAll.mp (h'.below p hp)
      exact ⟨t, mem_append_right _ ht, hp⟩
  · rw [marksAll_append]
    refine Perm.trans ?_ (h.marks.append h'.marks)
    simp only [Effects.append, marksAll_append, append_assoc]
    exact (perm_append_comm_assoc _ _ _).append_left _

theorem SplitTree.below (h : SplitTree e t) : ∀ p ∈ e.parts, p ∈ t.subtrees := by
  intro p hp
  obtain ⟨c, hc, hp⟩ := mem_subtreesAll.mp (h.split.below p hp)
  rwa [mem_singleton.mp hc] at hp

theorem SplitTree.none (t : Tree (Option α)) : SplitTree (.none t) t := by
  obtain ⟨m, k, cs⟩ := t
  exact .apart cs rfl (by simp [Effects.none]) (by simp [Effects.none]) (by simp [Effects.none])

theorem SplitTree.under {m : Option α} {k : Kind} {cs : List (Tree (Option α))}
    (rest : List (Tree (Option α))) (h : Split e cs) :
    SplitTree (e.under m k rest) (node m k (cs ++ rest)) := by
  refine .apart (e.remains ++ rest) rfl h.fit (fun p hp => ?_) ?_
  · obtain ⟨c, hc, hp⟩ := mem_subtreesAll.mp (h.below p hp)
    exact mem_subtrees_node.mpr (.inr ⟨c, mem_append_left _ hc, hp⟩)
  rw [children_node, marksAll_append, marksAll_append, ← append_assoc]
  exact h.marks.append_right _

theorem effectsAll_total : ∀ {cs : List (Tree (Option α))},
    (∀ c ∈ cs, ∃ e, c.effects = .ok e ∧ SplitTree e c) → ∃ e, effectsAll cs = .ok e ∧ Split e cs
  | [], _ => ⟨_, by rw [effectsAll], by simp, by simp, by simp⟩
  | c :: cs, h => by
    obtain ⟨e, he, hs⟩ := h c (.head _)
    obtain ⟨e', he', hs'⟩ := effectsAll_total fun c hc => h c (.tail _ hc)
    refine ⟨e.append e', by rw [effectsAll, he, he']; rfl, ?_⟩
    exact hs.split.append hs'

theorem effectsProperty_total (ht : t.Fit isProperty)
    (h : ∀ c ∈ t.children, c.Fit isExpression → ∃ e, c.effects = .ok e ∧ SplitTree e c) :
    ∃ e, t.effectsProperty = .ok e ∧ SplitTree e t := by
  obtain ⟨m, k, cs⟩ := t
  obtain ⟨hk, hs⟩ := ht
  cases k <;> try cases hk
  obtain ⟨v, rfl, hv⟩ := (wellShaped_one rfl).mp hs
  obtain ⟨e, he, hs⟩ := h v (.head _) hv
  exact ⟨e.under m _ [], by rw [effectsProperty, he]; rfl, .under [] hs.split⟩

theorem effectsProperties_total : ∀ {ps : List (Tree (Option α))},
    (∀ p ∈ ps, ∃ e, p.effectsProperty = .ok e ∧ SplitTree e p) →
      ∃ e, effectsProperties ps = .ok e ∧ Split e ps
  | [], _ => ⟨_, by rw [effectsProperties], by simp, by simp, by simp⟩
  | p :: ps, h => by
    obtain ⟨e, he, hs⟩ := h p (.head _)
    obtain ⟨e', he', hs'⟩ := effectsProperties_total fun p hp => h p (.tail _ hp)
    refine ⟨e.append e', by rw [effectsProperties, he, he']; rfl, ?_⟩
    exact hs.split.append hs'

theorem effectsOperands_total {m : Option α} {k : Kind} :
    ∀ {roles : List Part} {cs : List (Tree (Option α))}, roles.length ≤ cs.length →
      (∀ c ∈ cs, ∃ e, c.effects = .ok e ∧ SplitTree e c) →
      ∃ parts d, effectsOperands m k roles cs = .ok ⟨parts, [node m k d]⟩ ∧ Split ⟨parts, d⟩ cs
  | [], cs, _, _ => ⟨[], cs, by rw [effectsOperands], by simp, by simp, by simp⟩
  | _ :: roles, c :: cs, hlen, h => by
    obtain ⟨e, he, hs⟩ := h c (.head _)
    obtain ⟨parts, d, hd, hs'⟩ := effectsOperands_total (m := m) (k := k)
      (Nat.le_of_succ_le_succ hlen) fun c hc => h c (.tail _ hc)
    refine ⟨e.parts ++ parts, e.remains ++ d, ?_, ?_⟩
    · rw [effectsOperands, he, hd]
      rfl
    · exact hs.split.append hs'

theorem discard_logical {op : BinaryOp} {a b : Tree α} {e : Bool} (hop : op.isLogical)
    (he : b.hasEffects = .ok e) : discard (.binary op) [a, b] =
      .ok (if e then Discard.whole else .operands [Part.leftOperand]) := by
  have hright : Part.rightOperand.get (.binary op) [a, b] = .ok b := rfl
  rw [discard, if_pos hop, hright]
  show (b.hasEffects >>= fun e => pure _) = _
  rw [he]
  rfl

theorem discard_conditional {a b c : Tree α} {e f : Bool} (he : b.hasEffects = .ok e)
    (hf : c.hasEffects = .ok f) : discard .conditional [a, b, c] =
      .ok (if e || f then Discard.whole else .operands [Part.conditionalTest]) := by
  have htrue : Part.conditionalTrue.get .conditional [a, b, c] = .ok b := rfl
  have hfalse : Part.conditionalFalse.get .conditional [a, b, c] = .ok c := rfl
  simp only [discard, htrue, hfalse, bind, Except.bind, he]
  cases e with
  | true => rfl
  | false =>
    simp only [hf]
    cases f <;> rfl

theorem discard_total {m : α} {k : Kind} {cs : List (Tree α)} (h : (node m k cs).WellShaped) :
    ∃ d, discard k cs = .ok d ∧ match d with
      | .elements => k = .array ∨ k = .sequence
      | .properties => k = .object
      | .operands roles => roles.length ≤ cs.length ∧ ∀ c ∈ cs, c.Fit isExpression
      | .whole => True := by
  cases k with
  | array => exact ⟨_, rfl, .inl rfl⟩
  | sequence => exact ⟨_, rfl, .inr rfl⟩
  | object => exact ⟨_, rfl, rfl⟩
  | member p =>
    obtain ⟨a, rfl, ha⟩ := (wellShaped_one rfl).mp h
    exact ⟨_, rfl, by simp, by simpa using ha⟩
  | index =>
    obtain ⟨a, b, rfl, ha, hb⟩ := (wellShaped_two rfl).mp h
    exact ⟨_, rfl, by simp, by simpa using ⟨ha, hb⟩⟩
  | unary op =>
    obtain ⟨a, rfl, ha⟩ := (wellShaped_one rfl).mp h
    cases hop : op.isPure with
    | true =>
      exact ⟨.operands [Part.unaryOperand], by simp [discard, hop], by simp, by simpa using ha⟩
    | false => exact ⟨.whole, by simp [discard, hop], trivial⟩
  | binary op =>
    obtain ⟨a, b, rfl, ha, hb⟩ := (wellShaped_two rfl).mp h
    cases hop : op.isLogical with
    | false =>
      exact ⟨.operands [Part.leftOperand, Part.rightOperand], by simp [discard, hop],
        by simp, by simpa using ⟨ha, hb⟩⟩
    | true =>
      obtain ⟨e, he⟩ := hasEffects_total b hb.2
      have hd := discard_logical (a := a) hop he
      cases e with
      | true => exact ⟨_, hd, trivial⟩
      | false => exact ⟨_, hd, by simp, by simpa using ⟨ha, hb⟩⟩
  | conditional =>
    obtain ⟨a, b, c, rfl, ha, hb, hc⟩ := (wellShaped_three rfl).mp h
    obtain ⟨e, he⟩ := hasEffects_total b hb.2
    obtain ⟨f, hf⟩ := hasEffects_total c hc.2
    have hd := discard_conditional (a := a) he hf
    cases hef : e || f with
    | true => exact ⟨_, hd, by rw [hef]; trivial⟩
    | false =>
      rw [hef] at hd
      exact ⟨_, hd, by simp, by simpa using ⟨ha, hb, hc⟩⟩
  | _ => exact ⟨.whole, rfl, trivial⟩

theorem effects_of_pure {t : Tree α} (h : t.hasEffects = .ok false) :
    t.effects = .ok (.none t) := by
  obtain ⟨m, k, cs⟩ := t
  rw [effects, h]
  rfl

theorem effects_total (t : Tree (Option α)) :
    t.Fit isExpression → ∃ e, t.effects = .ok e ∧ SplitTree e t := by
  -- As for `hasEffects`, the values of properties are two levels down.
  suffices h : t.WellShaped → (t.kind.isExpression → ∃ e, t.effects = .ok e ∧ SplitTree e t) ∧
      ∀ c ∈ t.children, c.kind.isExpression → ∃ e, c.effects = .ok e ∧ SplitTree e c from
    fun ht => (h ht.2).1 ht.1
  induction t with
  | node m k cs ih =>
    intro ht
    have hcs : ∀ c ∈ cs, c.WellShaped := ht.child
    have hall : ∀ c ∈ cs, c.kind.isExpression → ∃ e, c.effects = .ok e ∧ SplitTree e c :=
      fun c hc => (ih c hc (hcs c hc)).1
    refine ⟨fun hk => ?_, hall⟩
    obtain ⟨b, hb⟩ := hasEffects_total _ ht
    cases b with
    | false => exact ⟨_, effects_of_pure hb, .none _⟩
    | true =>
      obtain ⟨d, hd, hd'⟩ := discard_total ht
      rw [effects, hb, hd]
      cases d with
      | elements =>
        have hfit : ∀ c ∈ cs, c.Fit isExpression := by
          rcases hd' with rfl | rfl <;> exact (wellShaped_of_element rfl).mp ht
        obtain ⟨e, he, hs⟩ := effectsAll_total fun c hc => hall c hc (hfit c hc).1
        refine ⟨e.under m k [], by rw [he]; rfl, ?_⟩
        simpa using SplitTree.under (m := m) (k := k) [] hs
      | properties =>
        subst hd'
        have hfit := (wellShaped_of_element rfl).mp ht
        obtain ⟨e, he, hs⟩ := effectsProperties_total fun p hp =>
          effectsProperty_total (hfit p hp) fun c hc hfit => (ih p hp (hcs p hp)).2 c hc hfit.1
        refine ⟨e.under m .object [], by rw [he]; rfl, ?_⟩
        simpa using SplitTree.under (m := m) (k := .object) [] hs
      | operands roles =>
        obtain ⟨parts, d, he, hs⟩ := effectsOperands_total (m := m) (k := k) hd'.1
          fun c hc => hall c hc (hd'.2 c hc).1
        refine ⟨_, he, .apart d rfl hs.fit (fun p hp => ?_) hs.marks⟩
        exact mem_subtrees_node.mpr (.inr (mem_subtreesAll.mp (hs.below p hp)))
      | whole => exact ⟨_, rfl, .whole rfl ⟨hk, ht⟩⟩

def reduction (m : Option α) (parts dropped : List (Tree (Option α))) : Step α :=
  match parts with
  | [only] => Step.become m only dropped
  | parts => Step.fresh m .sequence parts dropped

theorem forM_expectExpression (role : String) : ∀ {ts : List (Tree α)},
    (∀ t ∈ ts, t.Fit isExpression) → (ts.forM fun t => t.kind.expectExpression role) = .ok ()
  | [], _ => rfl
  | t :: ts, h => by
    simp only [List.forM, expectExpression, (h t mem_cons_self).1, if_true]
    exact forM_expectExpression role fun t ht => h t (.tail _ ht)

theorem discarded_total (ht : t.Fit isExpression) :
    ∃ e, t.effects = .ok e ∧ SplitTree e t ∧ (e.parts = [] ∧ t.discarded = .ok .nothing ∨
        e.parts ≠ [] ∧ t.discarded = .ok .unchanged ∨ e.parts ≠ [] ∧ e.remains ≠ [] ∧
          t.discarded = .ok (.reduced (reduction t.mark e.parts
            (e.remains.flatMap children)))) := by
  obtain ⟨e, he, hs⟩ := effects_total t ht
  refine ⟨e, he, hs, ?_⟩
  have hforM := forM_expectExpression "sequence element" hs.split.fit
  obtain ⟨parts, remains⟩ := e
  simp only [discarded, he, bind, Except.bind]
  match parts, hforM with
  | [], _ => exact .inl ⟨rfl, rfl⟩
  | [only], _ =>
    cases remains with
    | nil => exact .inr (.inl ⟨by simp, rfl⟩)
    | cons r rs => exact .inr (.inr ⟨by simp, by simp, rfl⟩)
  | a :: b :: rest, hforM =>
    have hremains : remains ≠ [] := by
      cases hs with
      | whole h _ => simp [Effects.whole] at h
      | apart d h _ _ _ => simp only at h; simp [h]
    by_cases hsame : (decide (t.kind = .sequence) && (remains.flatMap children).isEmpty)
    · exact .inr (.inl ⟨by simp, by simp only [hsame, if_true]; rfl⟩)
    · refine .inr (.inr ⟨by simp, hremains, ?_⟩)
      simp only [hsame, hforM, reduction]
      rfl

theorem exists_of_reduced {s : Step α} (ht : t.Fit isExpression)
    (h : t.discarded = .ok (.reduced s)) :
    ∃ e, t.effects = .ok e ∧ SplitTree e t ∧ e.parts ≠ [] ∧ e.remains ≠ [] ∧
      s = reduction t.mark e.parts (e.remains.flatMap children) := by
  obtain ⟨e, he, hs, ⟨-, h'⟩ | ⟨-, h'⟩ | ⟨hparts, hremains, h'⟩⟩ := discarded_total ht
  · rw [h'] at h
    cases h
  · rw [h'] at h
    cases h
  · rw [h', Except.ok.injEq, Discarded.reduced.injEq] at h
    exact ⟨e, he, hs, hparts, hremains, h.symm⟩

theorem marks_become (m : Option α) (x : Tree (Option α)) (dropped : List (Tree (Option α))) :
    ((Step.become m x dropped).tree.marks ++ marksAll (Step.become m x dropped).detached).Perm
      (m.toList ++ (x.marks ++ marksAll dropped)) := by
  simp only [Step.become, marks_node, marksAll_cons, husk, marksAll_nil, append_nil,
    append_assoc, x.marks_eq]
  exact (perm_append_comm_assoc _ _ _).append_left _

theorem reduced_total {s : Step α} (ht : t.Fit isExpression)
    (h : t.discarded = .ok (.reduced s)) :
    s.tree.Fit isExpression ∧ (s.tree.marks ++ marksAll s.detached).Perm t.marks := by
  obtain ⟨e, -, hs, hparts, hremains, rfl⟩ := exists_of_reduced ht h
  obtain ⟨parts, remains⟩ := e
  cases hs with
  | whole h _ => exact absurd (congrArg Effects.remains h) hremains
  | apart d hd fit _ marks =>
    simp only at hd fit marks
    subst hd
    rw [t.marks_eq]
    match parts, fit, marks with
    | [only], fit, marks =>
      refine ⟨?_, ?_⟩
      · obtain ⟨m, k, cs⟩ := only
        obtain ⟨hk, hshape⟩ := fit _ (.head _)
        exact ⟨hk, wellShaped_node.mpr (wellShaped_node.mp hshape)⟩
      · refine (marks_become _ _ _).trans (Perm.append_left _ ?_)
        simpa using marks
    | a :: b :: rest, fit, marks =>
      refine ⟨⟨rfl, (wellShaped_of_element rfl).mpr fit⟩, ?_⟩
      refine (marks_become _ _ _).trans (Perm.append_left _ ?_)
      simpa [new] using marks
    | [], _, _ => exact absurd rfl hparts

end Tree

end ScriptPress

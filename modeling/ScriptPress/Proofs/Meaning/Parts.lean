import ScriptPress.Proofs.Meaning.Effects
import ScriptPress.Proofs.Simplify.Store

/-! # What is left of a value that nobody uses -/

namespace ScriptPress

open List Tree

namespace Tree

variable {α : Type} {t u : Tree (Option α)} {cs parts : List (Tree (Option α))}
  {e : Effects (Option α)}

/-- The tree evaluates the parts in order and nothing else: it is the only one, or their sequence.
-/
inductive IsLeft (parts : List (Tree (Option α))) (t : Tree (Option α)) : Prop
  | only (p : Tree (Option α)) (hparts : parts = [p]) (hkind : t.kind = p.kind)
    (hchildren : t.children = p.children)
  | several (hparts : 2 ≤ parts.length) (hkind : t.kind = .sequence)
    (hchildren : t.children = parts)

theorem bare_eq_of (hkind : t.kind = u.kind) (hchildren : t.children = u.children) :
    t.bare = u.bare := by
  obtain ⟨m, k, cs⟩ := t
  obtain ⟨m', k', cs'⟩ := u
  simp only [kind_node, children_node] at hkind hchildren
  rw [bare_node, bare_node, hkind, hchildren]

theorem IsLeft.effect {ν σ ε : Type} {O : Operators ν σ ε} (h : IsLeft parts t) :
    t.effect O = effectAll O parts := by
  cases h with
  | only p hparts hkind hchildren =>
    rw [hparts, effectAll_singleton, effect_of_bare (bare_eq_of hkind hchildren)]
  | several _ hkind hchildren =>
    obtain ⟨m, k, cs⟩ := t
    cases hkind
    rw [effect_of_combines rfl, ← hchildren, children_node]

theorem parts_eq_of_remains (hcs : ∀ c ∈ cs, c.Fit Kind.isExpression)
    (he : effectsAll cs = .ok e) (hremains : e.remains = []) : e.parts = cs := by
  induction cs generalizing e with
  | nil =>
    rw [effectsAll] at he
    cases he
    rfl
  | cons c cs ih =>
    obtain ⟨hc, hcs⟩ := forall_mem_cons.mp hcs
    obtain ⟨first, others, hfirst, hothers, rfl⟩ := effectsAll_cons he
    obtain ⟨hnil, hnil'⟩ := append_eq_nil_iff.mp hremains
    obtain ⟨e, he, hsplit⟩ := effects_total c hc
    cases hfirst.symm.trans he
    cases hsplit with
    | whole h _ =>
      rw [Effects.append, h, ih hcs hothers hnil']
      rfl
    | apart d h _ _ _ =>
      rw [h] at hnil
      cases hnil

theorem children_eq_parts (ht : t.Fit Kind.isExpression) (hkind : t.kind = .sequence)
    (he : t.effects = .ok e) (hremains : e.remains.flatMap children = []) :
    t.children = e.parts := by
  obtain ⟨m, k, cs⟩ := t
  cases hkind
  rcases effects_cases he with ⟨hpure, -⟩ | ⟨-, e', he', rfl⟩ | ⟨hd, -⟩ | ⟨_, hd, -⟩ | ⟨-, hd, -⟩
  · cases hpure
  · rw [Effects.under, flatMap_singleton, children_node, append_nil] at hremains
    exact (parts_eq_of_remains ((wellShaped_of_element rfl).mp ht.2) he' hremains).symm
  · cases hd
  · cases hd
  · cases hd

theorem isLeft_of_unchanged (ht : t.Fit Kind.isExpression) (he : t.effects = .ok e)
    (h : t.discarded = .ok .unchanged) : IsLeft e.parts t := by
  obtain ⟨e', he', hsplit⟩ := effects_total t ht
  cases he.symm.trans he'
  rw [discarded, he] at h
  obtain ⟨parts, remains⟩ := e
  rcases parts with _ | ⟨only, _ | ⟨b, rest⟩⟩
  · cases h
  · cases hsplit with
    | whole hwhole _ =>
      cases hwhole
      exact .only t rfl rfl rfl
    | apart d hd _ _ _ =>
      cases hd
      cases h
  · by_cases hsame : (decide (t.kind = .sequence) && (remains.flatMap children).isEmpty)
    · obtain ⟨hkind, hremains⟩ := Bool.and_eq_true_iff.mp hsame
      rw [decide_eq_true_eq] at hkind
      exact .several (by simp) hkind (children_eq_parts ht hkind he (isEmpty_iff.mp hremains))
    · have hforM := forM_expectExpression "sequence element" hsplit.split.fit
      simp only [bind, Except.bind, hsame, hforM] at h
      cases h

theorem isLeft_reduction {m : Option α} {dropped : List (Tree (Option α))} (hparts : parts ≠ []) :
    IsLeft parts (reduction m parts dropped).tree := by
  match parts, hparts with
  | [p], _ => exact .only p rfl rfl rfl
  | a :: b :: rest, _ => exact .several (by simp) rfl rfl

theorem pairwise_disjoint (h : (marksAll parts).Nodup) :
    parts.Pairwise fun p q => p.marks.Disjoint q.marks := by
  induction parts with
  | nil => exact .nil
  | cons p parts ih =>
    rw [marksAll_cons, nodup_append'] at h
    refine pairwise_cons.mpr ⟨fun q hq x hp hx => ?_, ih h.2.1⟩
    exact h.2.2 hp (mem_marksAll hq hx)

theorem mark_reduction (m : Option α) (parts dropped : List (Tree (Option α))) :
    (reduction m parts dropped).tree.mark = m := by
  unfold reduction
  split <;> rfl

end Tree

namespace Simplifying

open Tree (IsLeft marksAll)

variable {α : Type} {t : Tree (Option α)} {e : Effects (Option α)}

theorem keepEffects_run (ht : t.Fit Kind.isExpression) (he : t.effects = .ok e) :
    ∃ result trace, (keepEffects t).run ⟨0, []⟩ = .ok (result, trace) ∧
      (result = none ↔ e.parts = []) ∧ (result = none → trace = ⟨0, []⟩) ∧
      ∀ u, result = some u → u.mark = t.mark ∧ IsLeft e.parts u ∧ u.Fit Kind.isExpression ∧
        (u.marks ++ marksAll trace.detached).Perm t.marks := by
  obtain ⟨e', he', -, hcases⟩ := discarded_total ht
  cases he.symm.trans he'
  unfold keepEffects
  rcases hcases with ⟨hnil, h⟩ | ⟨hne, h⟩ | ⟨hne, -, h⟩
  · rw [h]
    refine ⟨none, ⟨0, []⟩, rfl, by simp [hnil], fun _ => rfl, ?_⟩
    rintro u ⟨⟩
  · rw [h]
    refine ⟨some t, ⟨0, []⟩, rfl, by simp [hne], ?_, ?_⟩
    · rintro ⟨⟩
    · rintro u ⟨⟩
      exact ⟨rfl, isLeft_of_unchanged ht he h, ht, by simp⟩
  · obtain ⟨hfit, hmarks⟩ := reduced_total ht h
    rw [h]
    refine ⟨some _, ⟨1, _ ++ []⟩, rfl, by simp [hne], ?_, ?_⟩
    · rintro ⟨⟩
    · rintro u ⟨⟩
      exact ⟨mark_reduction _ _ _, isLeft_reduction hne, hfit, by simpa using hmarks⟩

end Simplifying

namespace Store

open Tree (effectAll IsLeft)

variable {s : Store} {n : NodeId}

/-- The parts of an expression in a store are trees in it without a common node, and evaluating them
in order does what evaluating the expression does. Keeping the effects of the expression gives
nothing and changes nothing exactly if there are no parts. Otherwise the parts take its place: the
node stands where it stood, evaluates exactly the parts in order, and nothing outside has changed.
-/
theorem keepEffects_keeps_parts (hs : s.Consistent) (hn : s.Has n) (hv : s.verify n = .ok ())
    (hk : (s.tree n).kind.isExpression = true) :
    ∃ e result trace, ((s.tree n).map some).effects = .ok e ∧
      (∀ (ν σ ε : Type) (O : Operators ν σ ε), effectAll O e.parts = (s.tree n).effect O) ∧
      (∀ p ∈ e.parts, p ∈ ((s.tree n).map some).subtrees) ∧
      e.parts.Pairwise (fun p q => p.marks.Disjoint q.marks) ∧
      (Simplifying.keepEffects ((s.tree n).map some)).run ⟨0, []⟩ = .ok (result, trace) ∧
      (result = none ↔ e.parts = []) ∧ (result = none → trace = ⟨0, []⟩) ∧ ∀ u, result = some u →
        IsLeft e.parts u ∧ Regrown s n u (s.regrow n u trace.detached) ∧
        (s.regrow n u trace.detached).verify n = .ok () ∧ ∀ (ν σ ε : Type) (O : Operators ν σ ε),
          ((s.regrow n u trace.detached).tree n).effect O = effectAll O e.parts := by
  obtain ⟨kids, h⟩ := hs
  have hshape : (s.tree n).WellShaped := h.verify_eq_ok.mp hv
  have hfit : ((s.tree n).map some).Fit Kind.isExpression :=
    ⟨by rwa [kind_map], wellShaped_map.mpr hshape⟩
  have hmarks : ((s.tree n).map some).marks = (s.tree n).preorder := by
    rw [marks_map, filterMap_some]
  have hmark : ((s.tree n).map some).mark = some n := by
    rw [mark_map, h.tree_eq, mark_node]
  obtain ⟨e, he, hsplit⟩ := effects_total _ hfit
  obtain ⟨result, trace, hrun, hnone, huntouched, hleft⟩ := Simplifying.keepEffects_run hfit he
  have hparts : (marksAll e.parts).Nodup := by
    have hperm := hsplit.split.marks
    rw [marksAll_cons, marksAll_nil, append_nil, hmarks] at hperm
    exact (nodup_append'.mp (hperm.nodup_iff.mpr (h.nodup_preorder n))).1
  refine ⟨e, result, trace, he, fun ν σ ε O => ?_, fun p hp => ?_, pairwise_disjoint hparts,
    hrun, hnone, huntouched, fun u hu => ?_⟩
  · rw [partsDo (.of_fit hfit) e he]
    exact effect_of_bare (bare_map some _)
  · obtain ⟨c, hc, hp⟩ := mem_subtreesAll.mp (hsplit.split.below p hp)
    rwa [mem_singleton.mp hc] at hp
  · obtain ⟨humark, hisLeft, hufit, huperm⟩ := hleft u hu
    have hgrown : Regrown s n u (s.regrow n u trace.detached) := by
      refine h.regrown (humark.trans hmark) ?_ hn
      rw [marksAll_cons, ← hmarks]
      exact huperm
    obtain ⟨kids', h'⟩ := hgrown.consistent
    refine ⟨hisLeft, hgrown, h'.verify_eq_ok.mpr ?_, fun ν σ ε O => ?_⟩
    · rw [← wellShaped_map, ← bare, hgrown.tree, bare, wellShaped_map]
      exact hufit.2
    · rw [effect_of_bare hgrown.tree]
      exact hisLeft.effect

def mixedValues : Store :=
  (Store.empty.grow (.node () .array
    [.node () .call [.node () (.identifier ⟨0⟩) []],
      .node () (.unary .negative) [.node () (.identifier ⟨1⟩) []], .node () (.binary .logicalAnd)
        [.node () .call [.node () (.identifier ⟨2⟩) []], .node () (.identifier ⟨1⟩) []]])).2

theorem keepEffects_keeps_parts_mixedValues :
    mixedValues.Consistent ∧ mixedValues.Has ⟨0⟩ ∧ mixedValues.verify ⟨0⟩ = .ok () ∧
      ∃ e u trace, ((mixedValues.tree ⟨0⟩).map some).effects = .ok e ∧
        e.parts.map mark = [some ⟨1⟩, some ⟨6⟩] ∧ (∀ (ν σ ε : Type) (O : Operators ν σ ε),
          effectAll O e.parts = (mixedValues.tree ⟨0⟩).effect O) ∧
        (Simplifying.keepEffects ((mixedValues.tree ⟨0⟩).map some)).run ⟨0, []⟩ =
          .ok (some u, trace) ∧
        IsLeft e.parts u ∧ (mixedValues.regrow ⟨0⟩ u trace.detached).verify ⟨0⟩ = .ok () := by
  have hs : mixedValues.Consistent := .grow ⟨_, Links.empty⟩ _
  have hn : mixedValues.Has ⟨0⟩ := by decide
  have hv : mixedValues.verify ⟨0⟩ = .ok () := rfl
  have hmarks : ((mixedValues.tree ⟨0⟩).map some).effects.toOption.map
      (fun e => e.parts.map mark) = some [some ⟨1⟩, some ⟨6⟩] := rfl
  obtain ⟨e, result, trace, he, heffect, -, -, hrun, hnone, -, hleft⟩ :=
    keepEffects_keeps_parts hs hn hv rfl
  rw [he, Except.toOption, Option.map_some, Option.some.injEq] at hmarks
  cases result with
  | none =>
    rw [hnone.mp rfl] at hmarks
    cases hmarks
  | some u =>
    obtain ⟨hu, -, hverify, -⟩ := hleft u rfl
    exact ⟨hs, hn, hv, e, u, trace, he, hmarks, heffect, hrun, hu, hverify⟩

end Store

end ScriptPress

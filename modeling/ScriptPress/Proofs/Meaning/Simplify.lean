import ScriptPress.Proofs.Meaning.Statements

/-! # Simplification preserves meaning -/

namespace ScriptPress

open List

theorem Kind.Substitutes.isExpression_eq {x y : Kind} (h : y.Substitutes x) :
    y.isExpression = x.isExpression := by
  rcases h with rfl | ⟨hx, hy⟩ | ⟨hx, hy⟩
  · rfl
  · rw [hx, hy]
  · rw [Bool.eq_iff_iff]
    refine ⟨fun h => ?_, fun h => ?_⟩
    · rw [not_isStatement_of_isExpression h] at hy
      cases hy
    · rw [not_isRewritten_of_isExpression h] at hx
      cases hx

namespace Tree

variable {α ω σ : Type} {H : Host ω σ} {known : WellKnown}
variable {t t' : Tree (Option α)} {d : List (Tree (Option α))}

theorem Rewrites.not_identifier {s : Step α} (h : Rewrites known t s) (name : SymbolId) :
    t.kind ≠ .identifier name := by
  intro hk
  cases h with
  | dropEmpty h | splice h | mergeDeclarations h | mergeExpressions h | mergeIntoValue h
  | fillSetup h | mergeIntoSetup h | reduce h | unbrace h =>
    rw [kind_node] at hk
    subst hk
    cases h
  | _ => cases hk

theorem Rewrites.replaces {s : Step α} (h : Rewrites known t s) (ht : t.WellShaped) (hc : t.Core) :
    Replaces H t s.tree := by
  obtain ⟨-, hsub⟩ := h.wellShaped ht
  have hexpr := Kind.Substitutes.isExpression_eq hsub
  refine ⟨?_, hsub, fun name hk => absurd hk (h.not_identifier name)⟩
  cases he : t.kind.isExpression with
  | true =>
    exact alike_of_evaluate he (hexpr.trans he) fun locals => h.evaluate ht hc he locals
  | false =>
    exact alike_of_execute he (hexpr.trans he) fun turns locals =>
      h.execute ht hc he turns locals

theorem Replaces.trans {t u v : Tree α} (h : Replaces H t u) (h' : Replaces H u v) :
    Replaces H t v where
  evaluate locals := (h.evaluate locals).trans (h'.evaluate locals)
  execute turns locals := (h.execute turns locals).trans (h'.execute turns locals)
  substitutes := h.substitutes.trans h'.substitutes
  identifier name hk := h'.identifier name (h.identifier name hk)

theorem core_child {m : α} {k : Kind} {l r : List (Tree α)} {c c' : Tree α}
    (hc : (node m k (l ++ c :: r)).Core) (h : Replaces H c c') (hc' : c'.Core) :
    (node m k (l ++ c' :: r)).Core := by
  obtain ⟨hk, hcs⟩ := core_node.mp hc
  simp only [forall_mem_append, forall_mem_cons] at hcs
  refine core_node.mpr ⟨?_, by
    simp only [forall_mem_append, forall_mem_cons]
    exact ⟨hcs.1, hc', hcs.2.2⟩⟩
  cases k with
  | sequence => simp [Kind.isCore]
  | call =>
    cases l with
    | nil =>
      obtain ⟨name, hname⟩ : ∃ name, c.kind = .identifier name := by
        rw [nil_append, map_cons] at hk
        generalize c.kind = k at hk ⊢
        cases k <;> first | exact ⟨_, rfl⟩ | cases hk
      rw [nil_append, map_cons, h.identifier name hname]
      rfl
    | cons f l =>
      rw [cons_append, map_cons] at hk ⊢
      generalize f.kind = k at hk ⊢
      cases k <;> first | rfl | cases hk
  | _ => exact hk

theorem Reduces.replaces (h : Reduces known t t' d) :
    t.WellShaped → t.Core → t'.Core ∧ Replaces H t t' := by
  induction h with
  | refl t => exact fun _ hc => ⟨hc, .refl t⟩
  | rule h => exact fun ht hc => ⟨h.core H ht hc, h.replaces ht hc⟩
  | trans h _ ih ih' =>
    intro ht hc
    obtain ⟨hcu, hu⟩ := ih ht hc
    obtain ⟨hcv, hv⟩ := ih' (h.wellShaped ht).1 hcu
    exact ⟨hcv, hu.trans hv⟩
  | @child m k l r c c' d _ ih =>
    intro ht hc
    obtain ⟨hcc, hr⟩ := ih (ht.child c (by simp))
      ((core_node.mp hc).2 c (by simp))
    refine ⟨core_child hc hr hcc, replaces_node ?_ ht hc⟩
    exact rel_append (forall₂_same.mpr fun c _ => .refl c)
      (.cons hr (forall₂_same.mpr fun c _ => .refl c))

theorem simplify_replaces {t : Tree α} (ht : t.WellShaped) (hc : t.Core)
    (h : Reduces known (t.map some) t' d) : Alike H t t' := by
  obtain ⟨-, hr⟩ := h.replaces (H := H) (wellShaped_map.mpr ht) (core_map.mpr hc)
  have hmap := replaces_map (H := H) some t ht hc
  exact ⟨fun locals => (hmap.evaluate locals).trans (hr.evaluate locals),
    fun turns locals => (hmap.execute turns locals).trans (hr.execute turns locals)⟩

end Tree

end ScriptPress

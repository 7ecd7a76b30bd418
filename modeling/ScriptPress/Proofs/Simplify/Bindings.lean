import ScriptPress.Proofs.Simplify.Declarations

/-! # Which statements bind names -/

namespace ScriptPress

open List

namespace Tree

variable {α : Type} {t : Tree α}

theorem IsExpression.not_isBinder (h : t.IsExpression) : ∀ u ∈ t.subtrees, u.isBinder = false := by
  refine h.node_induction (P := fun t => ∀ u ∈ t.subtrees, u.isBinder = false)
    fun m k cs hk hcs u hu => ?_
  rcases mem_subtrees_node.mp hu with rfl | ⟨c, hc, hu⟩
  · exact isBinder_of_isExpression hk
  · exact hcs c hc u hu

theorem bindsNames_iff (h : t.WellShaped) :
    t.bindsNames ↔ ∃ u ∈ t.subtrees, u.isBinder := by
  induction t with
  | node m k cs ih =>
    have hcs := h.child
    rw [bindsNames_node, Bool.or_eq_true, Bool.and_eq_true, Bool.not_eq_true', any_eq_true]
    constructor
    · rintro (hroot | ⟨-, c, hc, hbinds⟩)
      · exact ⟨_, mem_subtrees_self _, hroot⟩
      · obtain ⟨u, hu, hbinder⟩ := (ih c hc (hcs c hc)).mp hbinds
        exact ⟨u, mem_subtrees_node.mpr (.inr ⟨c, hc, hu⟩), hbinder⟩
    · rintro ⟨u, hu, hbinder⟩
      rcases mem_subtrees_node.mp hu with rfl | ⟨c, hc, huc⟩
      · exact .inl hbinder
      · cases hk : k.isExpression with
        | true =>
          have hexpression : (node m k cs).IsExpression := .of_fit ⟨hk, h⟩
          rw [hexpression.not_isBinder u hu] at hbinder
          cases hbinder
        | false => exact .inr ⟨rfl, c, hc, (ih c hc (hcs c hc)).mpr ⟨u, huc, hbinder⟩⟩

theorem mem_declaredBy {p : Kind → Bool} {x : SymbolId} : x ∈ t.declaredBy p ↔
    ∃ u ∈ t.subtrees, p u.kind ∧ x ∈ u.kind.declares (u.children.map kind) := by
  induction t with
  | node m k cs ih =>
    have hroot : x ∈ (if p k then k.declares (cs.map kind) else []) ↔
        p k ∧ x ∈ k.declares (cs.map kind) := by
      split <;> simp_all
    rw [declaredBy_node, mem_append, hroot, mem_flatMap]
    constructor
    · rintro (h | ⟨c, hc, hx⟩)
      · exact ⟨_, mem_subtrees_self _, h⟩
      · obtain ⟨u, hu, h⟩ := (ih c hc).mp hx
        exact ⟨u, mem_subtrees_node.mpr (.inr ⟨c, hc, hu⟩), h⟩
    · rintro ⟨u, hu, h⟩
      rcases mem_subtrees_node.mp hu with rfl | ⟨c, hc, hu⟩
      · exact .inl h
      · exact .inr ⟨c, hc, (ih c hc).mpr ⟨u, hu, h⟩⟩

theorem exists_declares (h : t.WellShaped) (hbinder : t.isBinder) :
    (∃ x, x ∈ t.kind.declares (t.children.map kind)) ∨ t.kind = .varStatement ∧
      t.children = [] := by
  obtain ⟨m, k, cs⟩ := t
  cases k with
  | function f => exact .inl ⟨f, mem_singleton_self f⟩
  | varStatement =>
    rcases cs with _ | ⟨⟨m', k', vs⟩, cs⟩
    · exact .inr ⟨rfl, rfl⟩
    · obtain ⟨hk, -⟩ := (wellShaped_of_element rfl).mp h _ (.head _)
      cases k' <;> cases hk
      exact .inl ⟨_, mem_cons_self⟩
  | _ => cases hbinder

end Tree

namespace Store

variable {s : Store} {n : NodeId}

/-- A tree that verifies binds names, by this test, exactly when there is a function or a `var` list
in it. So it misses a declaration only where the variable of a for-in loop is declared, and finds
one where there is none only in a list without declarations. -/
theorem bindsNames_iff_binder (hv : s.verify n = .ok ()) :
    ((s.tree n).bindsNames = true ↔ ∃ u ∈ (s.tree n).subtrees, u.isBinder = true) ∧
      ((s.tree n).declared ≠ [] → (s.tree n).bindsNames = true ∨ (s.tree n).loopVariables ≠ []) ∧
      ((s.tree n).bindsNames = true → (s.tree n).declared ≠ [] ∨
        ∃ u ∈ (s.tree n).subtrees, u.kind = .varStatement ∧ u.children = []) := by
  have ht := wellShaped_of_verify hv
  refine ⟨Tree.bindsNames_iff ht, fun hdeclared => ?_, fun hbinds => ?_⟩
  · cases hbinds : (s.tree n).bindsNames with
    | true => exact .inl rfl
    | false => exact .inr (Tree.declared_of_bindsNames ht hbinds ▸ hdeclared)
  · obtain ⟨u, hu, hbinder⟩ := (Tree.bindsNames_iff ht).mp hbinds
    rcases Tree.exists_declares (Tree.WellShaped.subtree ht hu) hbinder with ⟨x, hx⟩ | hempty
    · exact .inl (ne_nil_of_mem (Tree.mem_declaredBy.mpr ⟨u, hu, rfl, hx⟩))
    · exact .inr ⟨u, hu, hempty⟩

theorem bindsNames_iff_binder_deadBranch :
    deadBranch.verify ⟨0⟩ = .ok () ∧ (deadBranch.tree ⟨0⟩).bindsNames = true := by
  have hv : deadBranch.verify ⟨0⟩ = .ok () := rfl
  refine ⟨hv, (bindsNames_iff_binder hv).1.mpr ?_⟩
  exact any_eq_true.mp (rfl : (deadBranch.tree ⟨0⟩).subtrees.any Tree.isBinder = true)

def loopHead : Store :=
  (Store.empty.grow (.node () .forIn [.node () (.variable ⟨0⟩) [.node () .undefined []],
    .node () .this [], .node () .empty []])).2

theorem bindsNames_misses_loopHead :
    loopHead.verify ⟨0⟩ = .ok () ∧ (loopHead.tree ⟨0⟩).declared = [⟨0⟩] ∧
      (loopHead.tree ⟨0⟩).bindsNames = false :=
  ⟨rfl, by decide, by decide⟩

end Store

end ScriptPress

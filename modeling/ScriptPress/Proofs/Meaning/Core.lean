import ScriptPress.Proofs.Meaning.Basic
import ScriptPress.Proofs.Tree.Basic
import ScriptPress.Proofs.Tree.Shape

/-! # The small language -/

namespace ScriptPress

open List

/-- Whether a node is part of the small language, seen from its kind and those of its children. -/
def Kind.isCore (children : List Kind) : Kind → Bool
  | .module | .block | .empty | .expression | .ifElse | .whileLoop | .doWhile | .forLoop
  | .return | .throw | .try | .catch _ => true
  | .break target | .continue target => target.isNone
  | .boolean _ | .null | .number _ | .string _ | .undefined | .identifier _ | .this
  | .conditional | .binary _ => true
  | .unary op => op.isPure
  | .sequence => !children.isEmpty
  | .call => match children with
    | .identifier _ :: _ => true
    | _ => false
  | _ => false

namespace Tree

variable {α β ω σ : Type} {m : α} {k : Kind}
variable {cs : List (Tree α)} {t : Tree α} {t' : Tree β} {cs' : List (Tree β)}

/-- Every node is part of the small language. -/
inductive Core : Tree α → Prop
  | node {m : α} {k : Kind} {cs : List (Tree α)} (kind : k.isCore (cs.map Tree.kind))
    (children : ∀ c ∈ cs, Core c) : Core (node m k cs)

theorem core_node : (node m k cs).Core ↔ k.isCore (cs.map kind) ∧ ∀ c ∈ cs, c.Core := by
  refine ⟨fun h => ?_, fun h => .node h.1 h.2⟩
  cases h with
  | node kind children => exact ⟨kind, children⟩

theorem core_mark : (node m t.kind t.children).Core ↔ t.Core := by
  obtain ⟨a, k, cs⟩ := t
  rw [kind_node, children_node, core_node, core_node]

@[simp] theorem core_map {f : α → β} : (t.map f).Core ↔ t.Core := by
  induction t with
  | node m k cs ih =>
    rw [map_node, core_node, core_node, List.map_map, List.forall_mem_map]
    refine and_congr (by simp [Function.comp_def]) ?_
    exact forall_congr' fun c => imp_congr_right fun hc => ih c hc

@[simp] theorem wellShaped_map {f : α → β} : (t.map f).WellShaped ↔ t.WellShaped := by
  induction t with
  | node m k cs ih =>
    rw [map_node, wellShaped_node, wellShaped_node, List.map_map, List.forall_mem_map]
    refine and_congr (by simp [Function.comp_def]) ?_
    exact forall_congr' fun c => imp_congr_right fun hc => ih c hc

structure Alike (H : Host ω σ) (t : Tree α) (t' : Tree β) : Prop where
  evaluate : ∀ locals, t.evaluate H locals = t'.evaluate H locals
  execute : ∀ turns locals, t.execute H turns locals = t'.execute H turns locals

structure Replaces (H : Host ω σ) (t : Tree α) (t' : Tree β) : Prop extends Alike H t t' where
  substitutes : t'.kind.Substitutes t.kind
  identifier : ∀ s, t.kind = .identifier s → t'.kind = .identifier s

structure Stands (H : Host ω σ) (t : Tree α) (t' : Tree β) : Prop extends Alike H t t' where
  isEmpty : t.kind.fitsClause → t'.isEmpty = t.isEmpty
  handler : t.kind.fitsHandler → t'.kind = t.kind
  identifier : ∀ s, t.kind = .identifier s → t'.kind = .identifier s

variable {H : Host ω σ}

theorem alike_of_evaluate (ht : t.kind.isExpression) (ht' : t'.kind.isExpression)
    (h : ∀ locals, t.evaluate H locals = t'.evaluate H locals) : Alike H t t' := by
  obtain ⟨m, k, cs⟩ := t
  obtain ⟨m', k', cs'⟩ := t'
  refine ⟨h, fun turns locals => ?_⟩
  rw [kind_node] at ht ht'
  rw [execute_of_isExpression _ _ _ _ _ ht, execute_of_isExpression _ _ _ _ _ ht']

theorem alike_of_execute (ht : t.kind.isExpression = false) (ht' : t'.kind.isExpression = false)
    (h : ∀ turns locals, t.execute H turns locals = t'.execute H turns locals) : Alike H t t' := by
  obtain ⟨m, k, cs⟩ := t
  obtain ⟨m', k', cs'⟩ := t'
  refine ⟨fun locals => ?_, h⟩
  rw [kind_node] at ht ht'
  rw [evaluate_of_not_isExpression _ _ _ _ ht, evaluate_of_not_isExpression _ _ _ _ ht']

theorem Alike.holds (h : Alike H t t') (locals : Locals ω) :
    t.holds H locals = t'.holds H locals := by
  rw [Tree.holds, Tree.holds, h.evaluate]

theorem Replaces.kind_eq (h : Replaces H t t') (he : t.kind.isExpression = false)
    (hr : t.kind.isRewritten = false) : t'.kind = t.kind := by
  rcases h.substitutes with h | ⟨h, -⟩ | ⟨h, -⟩
  · exact h
  · rw [he] at h
    cases h
  · rw [hr] at h
    cases h

theorem Replaces.isEmpty_eq (h : Replaces H t t') (ht : t.kind.fitsClause) :
    t'.isEmpty = t.isEmpty := by
  rw [Kind.fitsClause, Bool.or_eq_true, beq_iff_eq] at ht
  rcases ht with ht | ht
  · have ht' : t'.kind.isExpression := by
      rcases h.substitutes with h | ⟨-, h⟩ | ⟨h, -⟩
      · rwa [h]
      · exact h
      · rw [Kind.not_isRewritten_of_isExpression ht] at h
        cases h
    have hne : ∀ {k : Kind}, k.isExpression → (k == .empty) = false := by
      intro k hk
      cases k <;> first | rfl | cases hk
    rw [isEmpty, isEmpty, hne ht, hne ht']
  · rw [isEmpty, isEmpty, h.kind_eq (by rw [ht]; rfl) (by rw [ht]; rfl)]

theorem Replaces.stands (h : Replaces H t t') : Stands H t t' := by
  refine ⟨h.toAlike, h.isEmpty_eq, fun ht => ?_, h.identifier⟩
  have hk : t.kind.isExpression = false ∧ t.kind.isRewritten = false := by
    generalize t.kind = k at ht ⊢
    cases k <;> first | exact ⟨rfl, rfl⟩ | cases ht
  exact h.kind_eq hk.1 hk.2

theorem Stands.clause (h : Stands H t t') (ht : t.kind.fitsClause) (locals : Locals ω) :
    t.clause H locals = t'.clause H locals := by
  rw [Tree.clause, Tree.clause, h.isEmpty ht, h.evaluate]

theorem Stands.test (h : Stands H t t') (ht : t.kind.fitsClause) (locals : Locals ω) :
    t.test H locals = t'.test H locals := by
  rw [Tree.test, Tree.test, h.isEmpty ht, h.toAlike.holds]

theorem Core.fitsClause (h : t.Core) (ht : t.kind.fitsSetup) : t.kind.fitsClause := by
  obtain ⟨m, k, cs⟩ := t
  cases k <;> first | rfl | cases ht; done | cases (core_node.mp h).1

theorem evaluateLast_congr (locals : Locals ω) (h : Forall₂ (Stands H) cs cs') :
    evaluateLast H locals cs = evaluateLast H locals cs' := by
  induction h with
  | nil => rfl
  | @cons c c' cs cs' hc hcs ih =>
    cases hcs with
    | nil => exact hc.evaluate locals
    | cons hd hds =>
      show (c.evaluate H locals >>= fun _ => evaluateLast H locals (_ :: _)) = _
      rw [hc.evaluate locals, ih]
      rfl

theorem evaluateAll_congr (locals : Locals ω) (h : Forall₂ (Stands H) cs cs') :
    evaluateAll H locals cs = evaluateAll H locals cs' := by
  induction h with
  | nil => rfl
  | @cons c c' cs cs' hc hcs ih =>
    show (c.evaluate H locals >>= fun v => evaluateAll H locals cs >>= fun vs => pure (v :: vs)) = _
    rw [hc.evaluate locals, ih]
    rfl

theorem executeAll_congr (turns : Nat) (locals : Locals ω) (h : Forall₂ (Stands H) cs cs') :
    executeAll H turns cs locals = executeAll H turns cs' locals := by
  induction h with
  | nil => rfl
  | cons hc hcs ih => rw [executeAll_cons, executeAll_cons, hc.execute, ih]

theorem attempt_congr (turns : Nat) (locals : Locals ω) {b h : Tree α} {b' h' : Tree β}
    (hb : Stands H b b') (hh : Stands H h h') (hfits : h.kind.fitsHandler) :
    attempt H locals b h turns = attempt H locals b' h' turns := by
  unfold attempt
  rw [hh.handler hfits, hb.execute]
  split
  · congr 1
    funext v
    exact hh.execute turns _
  · rfl

theorem alike_node {m' : β} (h : Forall₂ (Stands H) cs cs') (hs : (node m k cs).WellShaped)
    (hc : (node m k cs).Core) : Alike H (node m k cs) (node m' k cs') := by
  cases k with
  | module | block =>
    refine alike_of_execute rfl rfl fun turns locals => ?_
    rw [execute_list _ _ _ _ _ (by simp), execute_list _ _ _ _ _ (by simp)]
    exact executeAll_congr turns locals h
  | expression =>
    obtain ⟨x, rfl, -⟩ := (wellShaped_one rfl).mp hs
    obtain _ | ⟨hx, _ | _⟩ := h
    refine alike_of_execute rfl rfl fun turns locals => ?_
    rw [execute_expression, execute_expression, hx.evaluate]
  | ifElse =>
    obtain ⟨t, x, y, rfl, -⟩ := (wellShaped_three rfl).mp hs
    obtain _ | ⟨ht, _ | ⟨hx, _ | ⟨hy, _ | _⟩⟩⟩ := h
    refine alike_of_execute rfl rfl fun turns locals => ?_
    rw [execute_ifElse, execute_ifElse, ht.toAlike.holds, hx.execute, hy.execute]
  | whileLoop =>
    obtain ⟨t, b, rfl, -⟩ := (wellShaped_two rfl).mp hs
    obtain _ | ⟨ht, _ | ⟨hb, _ | _⟩⟩ := h
    refine alike_of_execute rfl rfl fun turns locals => ?_
    rw [execute_whileLoop, execute_whileLoop, ht.toAlike.holds, hb.execute]
  | doWhile =>
    obtain ⟨b, t, rfl, -⟩ := (wellShaped_two rfl).mp hs
    obtain _ | ⟨hb, _ | ⟨ht, _ | _⟩⟩ := h
    refine alike_of_execute rfl rfl fun turns locals => ?_
    rw [execute_doWhile, execute_doWhile, ht.toAlike.holds, hb.execute]
  | forLoop =>
    obtain ⟨a, t, u, b, rfl, ha, ht, hu, -⟩ := (wellShaped_four rfl).mp hs
    obtain _ | ⟨ha', _ | ⟨ht', _ | ⟨hu', _ | ⟨hb', _ | _⟩⟩⟩⟩ := h
    have hsetup := ((core_node.mp hc).2 a (by simp)).fitsClause ha.1
    refine alike_of_execute rfl rfl fun turns locals => ?_
    rw [execute_forLoop, execute_forLoop, ha'.clause hsetup, turn, turn, ht'.test ht.1,
      hu'.clause hu.1, hb'.execute]
  | «return» =>
    obtain ⟨x, rfl, -⟩ := (wellShaped_one rfl).mp hs
    obtain _ | ⟨hx, _ | _⟩ := h
    refine alike_of_execute rfl rfl fun turns locals => ?_
    rw [execute_return, execute_return, hx.evaluate]
  | throw =>
    obtain ⟨x, rfl, -⟩ := (wellShaped_one rfl).mp hs
    obtain _ | ⟨hx, _ | _⟩ := h
    refine alike_of_execute rfl rfl fun turns locals => ?_
    rw [execute_throw, execute_throw, hx.evaluate]
  | «try» =>
    obtain ⟨b, x, y, rfl, -, hx, -⟩ := (wellShaped_three rfl).mp hs
    obtain _ | ⟨hb', _ | ⟨hx', _ | ⟨hy', _ | _⟩⟩⟩ := h
    refine alike_of_execute rfl rfl fun turns locals => ?_
    rw [execute_try, execute_try, attempt_congr turns locals hb' hx' hx.1, hy'.execute]
  | «catch» name =>
    obtain ⟨b, rfl, -⟩ := (wellShaped_one rfl).mp hs
    obtain _ | ⟨hb, _ | _⟩ := h
    refine alike_of_execute rfl rfl fun turns locals => ?_
    rw [execute_catch, execute_catch, hb.execute]
  | «break» target | «continue» target =>
    obtain rfl := (wellShaped_none rfl).mp hs
    cases h
    cases target <;> exact ⟨fun _ => rfl, fun _ _ => rfl⟩
  | unary op =>
    obtain ⟨x, rfl, -⟩ := (wellShaped_one rfl).mp hs
    obtain _ | ⟨hx, _ | _⟩ := h
    refine alike_of_evaluate rfl rfl fun locals => ?_
    rw [evaluate_unary, evaluate_unary, hx.evaluate]
  | binary op =>
    obtain ⟨x, y, rfl, -⟩ := (wellShaped_two rfl).mp hs
    obtain _ | ⟨hx, _ | ⟨hy, _ | _⟩⟩ := h
    refine alike_of_evaluate rfl rfl fun locals => ?_
    cases op with
    | logicalAnd => rw [evaluate_logicalAnd, evaluate_logicalAnd, hx.evaluate, hy.evaluate]
    | logicalOr => rw [evaluate_logicalOr, evaluate_logicalOr, hx.evaluate, hy.evaluate]
    | _ =>
      rw [evaluate_binary _ _ _ _ _ rfl, evaluate_binary _ _ _ _ _ rfl, hx.evaluate, hy.evaluate]
  | conditional =>
    obtain ⟨t, x, y, rfl, -⟩ := (wellShaped_three rfl).mp hs
    obtain _ | ⟨ht, _ | ⟨hx, _ | ⟨hy, _ | _⟩⟩⟩ := h
    refine alike_of_evaluate rfl rfl fun locals => ?_
    rw [evaluate_conditional, evaluate_conditional, ht.evaluate, hx.evaluate, hy.evaluate]
  | sequence =>
    refine alike_of_evaluate rfl rfl fun locals => ?_
    rw [evaluate_sequence, evaluate_sequence]
    exact evaluateLast_congr locals h
  | call =>
    -- The function is called by name, and a name is never replaced.
    obtain ⟨t, cs, rfl⟩ := exists_cons_of_ne_nil ((wellShaped_call (.inl rfl)).mp hs).1
    obtain ⟨t', cs', ht, h₁, rfl⟩ := forall₂_cons_left_iff.mp h
    obtain ⟨s, hk⟩ : ∃ s, t.kind = .identifier s := by
      have hkind := (core_node.mp hc).1
      rw [map_cons] at hkind
      generalize t.kind = k at hkind ⊢
      cases k <;> first | exact ⟨_, rfl⟩ | cases hkind
    refine alike_of_evaluate rfl rfl fun locals => ?_
    rw [evaluate_call _ _ _ _ _ hk, evaluate_call _ _ _ _ _ (ht.identifier s hk),
      evaluateAll_congr locals h₁]
  | boolean _ | null | number _ | string _ | undefined | identifier _ | this | empty =>
    exact ⟨fun _ => rfl, fun _ _ => rfl⟩
  | _ => cases (core_node.mp hc).1

theorem replaces_node {m' : β} (h : Forall₂ (Replaces H) cs cs') (hs : (node m k cs).WellShaped)
    (hc : (node m k cs).Core) : Replaces H (node m k cs) (node m' k cs') :=
  ⟨alike_node (h.imp fun _ _ h => h.stands) hs hc, .refl k, fun _ hk => hk⟩

theorem Replaces.refl (t : Tree α) : Replaces H t t :=
  ⟨⟨fun _ => rfl, fun _ _ => rfl⟩, .refl _, fun _ hk => hk⟩

theorem replaces_map (f : α → β) (t : Tree α) : t.WellShaped → t.Core → Replaces H t (t.map f) := by
  induction t with
  | node m k cs ih =>
    intro hs hc
    rw [map_node]
    refine replaces_node ?_ hs hc
    rw [forall₂_map_right_iff, forall₂_same]
    exact fun c hmem => ih c hmem (hs.child c hmem) ((core_node.mp hc).2 c hmem)

end Tree

end ScriptPress

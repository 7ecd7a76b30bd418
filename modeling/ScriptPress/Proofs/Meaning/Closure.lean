import ScriptPress.Proofs.Meaning.Discard
import ScriptPress.Proofs.Simplify.Pass

/-! # The small language is closed under simplification -/

namespace ScriptPress

open List Kind

namespace Kind

theorem isCore_of_isLiteral {k : Kind} (h : k.isLiteral) (cs : List Kind) :
    k.isCore cs := by
  cases k <;> first | rfl | cases h

theorem isCore_of_isList {k : Kind} (h : k.isList) (cs : List Kind) :
    k.isCore cs := by
  cases k <;> first | rfl | cases h

theorem isCore_of_handsOver {k : Kind} (h : k.handsOver) (cs : List Kind) :
    k.isCore cs := by
  cases k <;> first | rfl | cases h

end Kind

namespace Tree

variable {α ω σ : Type} {H : Host ω σ} {m : Option α} {k : Kind} {l r : List (Tree (Option α))}
variable {t x y b : Tree (Option α)} {s : Step α}

theorem core_commaParts (h : t.Core) :
    Step.commaParts t ≠ [] ∧ ∀ c ∈ Step.commaParts t, c.Core := by
  obtain ⟨m, k, cs⟩ := t
  unfold Step.commaParts
  split
  · rename_i heq
    cases heq
    obtain ⟨hk, hcs⟩ := core_node.mp h
    exact ⟨by simpa [isCore] using hk, hcs⟩
  · exact ⟨by simp, by simpa using h⟩

theorem core_comma (hx : x.Core) (hy : y.Core) : (Step.comma x y).tree.Core := by
  obtain ⟨hne, hxs⟩ := core_commaParts hx
  have hys := (core_commaParts hy).2
  refine core_node.mpr ⟨by simp [isCore, hne], ?_⟩
  simp only [forall_mem_append]
  exact ⟨hxs, hys⟩

theorem core_leaf {m : α} (h : k.isLiteral) : (node m k []).Core :=
  core_node.mpr ⟨isCore_of_isLiteral h _, by simp⟩

theorem core_empty {m : α} : (node m .empty []).Core :=
  core_node.mpr ⟨rfl, by simp⟩

theorem core_negation (ht : t.Core) (h : Step.negation t = .ok s) : s.tree.Core := by
  rcases negation_cases h with ⟨m, x, rest, rfl, rfl⟩ | ⟨b, -, rfl⟩ | rfl
  · exact (core_node.mp ht).2 x (.head _)
  · exact core_leaf rfl
  · exact core_node.mpr ⟨rfl, by simpa using ht⟩

theorem core_unbrace (hb : b.Core) (h : b.unbrace? = some s) : s.tree.Core := by
  obtain ⟨m, ⟨rfl, rfl⟩ | ⟨c, rfl, rfl⟩⟩ := unbrace_cases h
  · exact core_empty
  · exact core_mark.mpr ((core_node.mp hb).2 c (.head _))

theorem core_tryStatement {h f : Tree (Option α)} (hb : b.Core) (hf : f.Core)
    (hs : Step.tryStatement m b h f [] = some s) : s.tree.Core := by
  rcases tryStatement_cases hs with rfl | rfl | rfl
  · exact core_empty
  · exact core_mark.mpr hf
  · exact core_mark.mpr hb

theorem core_logical {op : BinaryOp} (hx : x.Core) (hy : y.Core)
    (h : Step.logical m op x y [] = some s) : s.tree.Core := by
  obtain ⟨b, -, rfl⟩ := Option.map_eq_some_iff.mp h
  split
  · exact core_mark.mpr hy
  · exact core_mark.mpr hx

theorem core_chosenBranch {b : Bool} (hx : x.Core) (hy : y.Core)
    (h : Step.chosenBranch m b t [x, y] = .ok s) : s.tree.Core := by
  cases b with
  | true =>
    cases h
    exact core_mark.mpr hx
  | false =>
    cases h
    exact core_mark.mpr hy

theorem core_body {b' : Tree (Option α)} (hk : k.hasBody) (h : (node m k (l ++ b :: r)).Core)
    (hb : b'.Core) : (node m k (l ++ b' :: r)).Core := by
  rw [core_node] at h ⊢
  simp only [forall_mem_append, forall_mem_cons] at h ⊢
  refine ⟨?_, h.2.1, hb, h.2.2.2⟩
  cases k <;> first | rfl | cases hk; done | cases h.1

theorem core_list (xs ys : List (Tree (Option α))) (hk : k.isCore ((l ++ (ys ++ r)).map kind))
    (h : (node m k (l ++ (xs ++ r))).Core) (hys : (∀ x ∈ xs, x.Core) → ∀ y ∈ ys, y.Core) :
    (node m k (l ++ (ys ++ r))).Core := by
  refine core_node.mpr ⟨hk, ?_⟩
  have hcs := (core_node.mp h).2
  simp only [forall_mem_append] at hcs ⊢
  exact ⟨hcs.1, hys hcs.2.1, hcs.2.2⟩

theorem core_single {m : α} {x : Tree α} (h : (node m k [x]).Core) : x.Core :=
  (core_node.mp h).2 x (.head _)

theorem Rewrites.core (H : Host ω σ) {known : WellKnown} (h : Rewrites known t s)
    (ht : t.WellShaped) (hc : t.Core) : s.tree.Core := by
  have hcs : ∀ c ∈ t.children, c.Core := by
    cases t
    exact (core_node.mp hc).2
  cases h
  all_goals simp only [children_node, forall_mem_append, forall_mem_cons, not_mem_nil,
    false_imp_iff, implies_true, and_true] at hcs
  case dropEmpty c hk _ => exact core_list [c] [] (isCore_of_isList hk _) hc (by simp)
  case splice c hk _ =>
    refine core_list [c] _ (isCore_of_isList hk _) hc fun _ => ?_
    obtain ⟨a, k', xs⟩ := c
    exact (core_node.mp hcs.2.1).2
  case mergeDeclarations => cases (core_node.mp hcs.2.1).1
  case mergeExpressions hk =>
    have hcomma := core_comma (core_single hcs.2.1) (core_single hcs.2.2.1)
    refine core_list [_, _] [_] (isCore_of_isList hk _) hc fun _ => ?_
    simpa using core_node.mpr ⟨rfl, by simpa using hcomma⟩
  case mergeIntoValue hk hv =>
    have hcomma := core_comma (core_single hcs.2.1) (core_single hcs.2.2.1)
    refine core_list [_, _] [_] (isCore_of_isList hk _) hc fun _ => ?_
    rw [forall_mem_singleton]
    refine core_node.mpr ⟨?_, by simpa using hcomma⟩
    rcases hv with rfl | rfl <;> rfl
  case fillSetup hk _ =>
    have hothers := forall_mem_cons.mp (core_node.mp hcs.2.2.1).2
    refine core_list [_, _] [_] (isCore_of_isList hk _) hc fun _ => ?_
    simpa using core_node.mpr ⟨rfl, by simpa using ⟨core_single hcs.2.1, hothers.2⟩⟩
  case mergeIntoSetup hk _ =>
    have hothers := forall_mem_cons.mp (core_node.mp hcs.2.2.1).2
    have hcomma := core_comma (core_single hcs.2.1) hothers.1
    refine core_list [_, _] [_] (isCore_of_isList hk _) hc fun _ => ?_
    simpa using core_node.mpr ⟨rfl, by simpa using ⟨hcomma, hothers.2⟩⟩
  case reduce k l r c s hk hx hs =>
    have hred := discardValue_of_reduced (H := H) ⟨hx, ht.child c (by simp)⟩ hcs.2.1 hs
    refine core_list [c] [_] ?_ hc fun _ => by simpa using hred.1
    cases k with
    | sequence => simp [isCore]
    | expression | forLoop => rfl
    | _ => cases hk
  case dropElement c hr _ => exact core_list [c] [] (by simp [isCore, hr]) hc (by simp)
  case dropClause c _ _ _ => exact core_list [c] [_] rfl hc fun _ => by simpa using core_empty
  case flatten =>
    obtain ⟨hne, hinner⟩ := core_node.mp hcs.2.1
    refine core_list [_] _ ?_ hc fun _ => hinner
    simp only [isCore, Bool.not_eq_true', isEmpty_eq_false_iff, ne_eq, map_eq_nil_iff] at hne
    simp [isCore, hne]
  case dropStatement => exact core_empty
  case single => exact core_mark.mpr hcs
  case tripleNot => exact core_mark.mpr (core_single hcs)
  case dropEmptyTail => exact core_mark.mpr hcs.1
  case sameBranchesPure => exact core_mark.mpr hcs.2.1
  case foldUnary h => exact core_leaf (Step.isLiteral_unaryValue h)
  case foldBinary h => exact core_leaf (isLiteral_foldBinary h)
  case power => exact core_leaf rfl
  case logical h => exact core_logical hcs.1 hcs.2 h
  case choose h => exact core_chosenBranch hcs.2.1 hcs.2.2 h
  case sameBranches => exact core_mark.mpr (core_comma hcs.1 hcs.2.1)
  case unbrace hk hs => exact core_body hk hc (core_unbrace hcs.2.1 hs)
  case tryBlock hs => exact core_tryStatement hcs.1 hcs.2.2 hs
  case take truth _ _ _ _ _ =>
    cases truth
    · exact core_mark.mpr hcs.2.2
    · exact core_mark.mpr hcs.2.1
  case invert h =>
    have hs := core_negation hcs.1 h
    exact core_node.mpr ⟨rfl, by simpa using ⟨hs, hcs.2.2, hcs.2.1⟩⟩
  case join hk =>
    refine core_node.mpr ⟨isCore_of_handsOver hk _, ?_⟩
    rw [forall_mem_singleton]
    refine core_node.mpr ⟨rfl, ?_⟩
    simpa using ⟨hcs.1, core_single hcs.2.1, core_single hcs.2.2⟩
  -- What is left puts parts of the node and leaves under nodes that may have any children.
  all_goals
    simp only [Step.fresh, Step.become, new, kind_node, children_node, core_node, isCore,
      forall_mem_cons, not_mem_nil, false_imp_iff, implies_true, and_true, true_and] at hcs ⊢
    simp only [hcs, and_self]

end Tree

end ScriptPress

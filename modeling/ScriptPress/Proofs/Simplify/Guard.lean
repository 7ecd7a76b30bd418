import ScriptPress.Proofs.Simplify.Shape
import ScriptPress.Proofs.Tree.Form

/-! # Guarded trees -/

namespace ScriptPress

open List

namespace Kind

def isInert : Kind → Bool
  | boolean _ | null | number _ | string _ | undefined | regExp _ | identifier _ | this
  | array | object | property _ => true
  | unary op => op.isPure
  | _ => false

/-- Expressions whose effect is their own, whatever their operands are. -/
def isEvent : Kind → Bool
  | call | new | assign _ => true
  | unary op => !op.isPure
  | _ => false

theorem not_simple {k : Kind} (h : k.isList ∨ k.hasBody ∨
    ∃ before after, k.discards before after) : (k.isInert || k.isEvent) = false := by
  cases k <;> first | rfl | (rcases h with h | h | ⟨_, _, h⟩ <;> cases h)

theorem isInert_of_isLiteral {k : Kind} (h : k.isLiteral) : k.isInert := by
  cases k <;> first | rfl | cases h

end Kind

namespace Tree

variable {α β : Type} (f : α → β)
variable {m : α} {k : Kind} {cs l r : List (Tree α)} {t t' x : Tree (Option α)} {known : WellKnown}
  {s : Step α} {d dropped : List (Tree (Option α))}

def isInert (t : Tree α) : Bool := t.every fun k _ => k.isInert

/-- A test that is an event or does nothing, negated any number of times. -/
def isPlainTest : Tree α → Bool
  | node _ (.unary .not) [c] => c.isPlainTest
  | t => t.kind.isEvent || t.isInert

def guards : Kind → List (Tree α) → Bool
  | .conditional, test :: _ => test.isPlainTest
  | .ifElse, test :: _ => test.isPlainTest
  | .sequence, elements => !elements.isEmpty
  | _, _ => true

def Guarded (t : Tree α) : Prop := t.every guards = true

instance (t : Tree α) : Decidable t.Guarded := inferInstanceAs (Decidable (_ = true))

theorem guarded_node : (node m k cs).Guarded ↔ guards k cs ∧ ∀ c ∈ cs, c.Guarded :=
  every_node

theorem isInert_node :
    (node m k cs).isInert ↔ k.isInert ∧ ∀ c ∈ cs, c.isInert :=
  every_node

theorem Guarded.children {t : Tree α} (h : t.Guarded) : ∀ c ∈ t.children, c.Guarded := by
  obtain ⟨m, k, cs⟩ := t
  exact (guarded_node.mp h).2

theorem Guarded.subtrees {t u : Tree α} (h : t.Guarded) (hu : u ∈ t.subtrees) : u.Guarded :=
  every_subtrees h hu

theorem guarded_mark {t : Tree α} : (node m t.kind t.children).Guarded ↔ t.Guarded := by
  obtain ⟨m', k, cs⟩ := t
  rw [guarded_node, guarded_node, kind_node, children_node]

theorem guarded_leaf (h : k ≠ .sequence) : (node m k []).Guarded := by
  rw [guarded_node]
  refine ⟨?_, by simp⟩
  unfold guards
  split
  · rename_i heq
    cases heq
  · rename_i heq
    cases heq
  · exact absurd rfl h
  · rfl

theorem isInert_literal (h : k.isLiteral) : (node m k []).isInert := by
  rw [isInert_node]
  exact ⟨Kind.isInert_of_isLiteral h, by simp⟩

theorem isPlainTest_of_ne {t : Tree α} (h : t.isNot = false) :
    t.isPlainTest = (t.kind.isEvent || t.isInert) := by
  unfold isPlainTest
  split
  · cases h
  · rfl

theorem isPlainTest_not {c : Tree α} : (node m (.unary .not) [c]).isPlainTest = c.isPlainTest := by
  rw [isPlainTest]

theorem isPlainTest_of_isInert (t : Tree α) : t.isInert → t.isPlainTest := by
  induction t with
  | node m k cs ih =>
    intro h
    unfold isPlainTest
    split
    · rename_i c heq
      cases heq
      exact ih _ (by simp) ((isInert_node.mp h).2 _ (by simp))
    · simp [h]

theorem isInert_mark {t : Tree α} : (node m t.kind t.children).isInert = t.isInert := by
  obtain ⟨m', k, cs⟩ := t
  rw [Bool.eq_iff_iff, isInert_node, isInert_node, kind_node, children_node]

theorem isPlainTest_mark {t : Tree α} : (node m t.kind t.children).isPlainTest = t.isPlainTest := by
  obtain ⟨m', k, cs⟩ := t
  by_cases hnot : k = .unary .not ∧ ∃ c, cs = [c]
  · obtain ⟨rfl, c, rfl⟩ := hnot
    rw [isPlainTest, kind_node, children_node, isPlainTest]
  · have hmark := isInert_mark (m := m) (t := node m' k cs)
    rw [kind_node, children_node] at hmark ⊢
    unfold isPlainTest
    split
    · rename_i heq
      cases heq
      exact absurd ⟨rfl, _, rfl⟩ hnot
    · split
      · rename_i heq
        cases heq
        exact absurd ⟨rfl, _, rfl⟩ hnot
      · rw [kind_node, kind_node, hmark]

theorem kind_of_isPlainTest {t : Tree α} (h : t.isPlainTest) :
    (t.kind.isInert || t.kind.isEvent) := by
  by_cases hnot : t.isNot
  · rw [isNot, beq_iff_eq] at hnot
    rw [hnot]
    rfl
  · obtain ⟨m, k, cs⟩ := t
    rw [isPlainTest_of_ne (by simpa using hnot), Bool.or_eq_true, isInert_node] at h
    rcases h with h | ⟨h, -⟩
    · simpa using .inr h
    · simpa using .inl h

theorem Rewrites.of_simple (h : Rewrites known t s)
    (ht : (t.kind.isInert || t.kind.isEvent)) :
    (∃ m k, k.isLiteral ∧ s.tree = node m k []) ∨
      ∃ m a x, t = node m (.unary .not) [node a (.unary .not) [x]] ∧
        s.tree = node m x.kind x.children := by
  cases h
  case foldUnary h => exact .inl ⟨_, _, Step.isLiteral_unaryValue h, rfl⟩
  case tripleNot => exact .inr ⟨_, _, _, rfl, rfl⟩
  case power => exact .inl ⟨_, _, rfl, rfl⟩
  case dropEmpty hk _ | splice hk _ | mergeDeclarations hk | mergeExpressions hk |
      mergeIntoValue hk _ | fillSetup hk _ | mergeIntoSetup hk _ =>
    rw [kind_node, Kind.not_simple (.inl hk)] at ht
    cases ht
  case unbrace hk _ =>
    rw [kind_node, Kind.not_simple (.inr (.inl hk))] at ht
    cases ht
  case reduce hk _ _ =>
    rw [kind_node, Kind.not_simple (.inr (.inr ⟨_, _, hk⟩))] at ht
    cases ht
  all_goals cases ht

theorem Rewrites.isInert (h : Rewrites known t s) (ht : t.isInert) :
    s.tree.isInert := by
  have hkind : t.kind.isInert := by
    obtain ⟨m, k, cs⟩ := t
    exact (isInert_node.mp ht).1
  rcases h.of_simple (by simp [hkind]) with ⟨m, k, hk, heq⟩ | ⟨m, a, x, rfl, heq⟩
  · rw [heq]
    exact isInert_literal hk
  · rw [heq, isInert_mark]
    have hinner := (isInert_node.mp ht).2 _ (.head _)
    exact (isInert_node.mp hinner).2 _ (.head _)

theorem Reduces.isInert (h : Reduces known t t' d) : t.isInert → t'.isInert := by
  induction h with
  | refl t => exact id
  | rule h => exact h.isInert
  | trans _ _ ih ih' => exact fun ht => ih' (ih ht)
  | child _ ih =>
    simp only [isInert_node, forall_mem_append, forall_mem_cons]
    rintro ⟨hk, hl, hc, hr⟩
    exact ⟨hk, hl, ih hc, hr⟩

theorem Rewrites.isPlainTest (h : Rewrites known t s) (ht : t.isPlainTest) :
    s.tree.isPlainTest := by
  rcases h.of_simple (kind_of_isPlainTest ht) with ⟨m, k, hk, heq⟩ | ⟨m, a, x, rfl, heq⟩
  · rw [heq]
    exact isPlainTest_of_isInert _ (isInert_literal hk)
  · rw [heq, isPlainTest_mark]
    rwa [isPlainTest_not, isPlainTest_not] at ht

theorem Reduces.isPlainTest (h : Reduces known t t' d) :
    t.isPlainTest → t'.isPlainTest := by
  induction h with
  | refl t => exact id
  | rule h => exact h.isPlainTest
  | trans _ _ ih ih' => exact fun ht => ih' (ih ht)
  | @child m k l r c c' d h ih =>
    intro ht
    by_cases hnot : k = .unary .not ∧ l = [] ∧ r = []
    · obtain ⟨rfl, rfl, rfl⟩ := hnot
      simp only [nil_append, isPlainTest_not] at ht ⊢
      exact ih ht
    · have hother : ∀ c, (node m k (l ++ c :: r)).isPlainTest =
          (k.isEvent || (node m k (l ++ c :: r)).isInert) := by
        intro c
        unfold Tree.isPlainTest
        split
        · rename_i heq
          rw [node.injEq] at heq
          refine absurd ⟨heq.2.1, ?_⟩ hnot
          rcases append_eq_singleton_iff.mp heq.2.2 with ⟨hl, hr⟩ | ⟨_, hr⟩
          · exact ⟨hl, (List.cons.inj hr).2⟩
          · cases hr
        · rfl
      rw [hother, Bool.or_eq_true] at ht ⊢
      exact ht.imp_right (Reduces.child h).isInert

theorem guarded_commaParts (h : t.Guarded) :
    Step.commaParts t ≠ [] ∧ ∀ c ∈ Step.commaParts t, c.Guarded := by
  unfold Step.commaParts
  split
  · rw [guarded_node] at h
    exact ⟨by simpa [guards] using h.1, h.2⟩
  · exact ⟨by simp, by simpa using h⟩

theorem guarded_comma {y : Tree (Option α)} (hx : x.Guarded) (hy : y.Guarded) :
    (Step.comma x y).tree.Guarded := by
  obtain ⟨hne, hx⟩ := guarded_commaParts hx
  refine guarded_node.mpr ⟨by simp [guards, hne], ?_⟩
  exact forall_mem_append.mpr ⟨hx, (guarded_commaParts hy).2⟩

theorem guarded_reduced (ht : t.Fit Kind.isExpression) (h : t.discarded = .ok (.reduced s))
    (hg : t.Guarded) : s.tree.Guarded := by
  obtain ⟨e, -, hs, hparts, -, rfl⟩ := exists_of_reduced ht h
  have hguarded : ∀ p ∈ e.parts, p.Guarded := fun p hp => hg.subtrees (hs.below p hp)
  match e.parts, hparts, hguarded with
  | [only], _, hguarded => exact guarded_mark.mpr (hguarded only (.head _))
  | a :: b :: rest, _, hguarded => exact guarded_node.mpr ⟨rfl, hguarded⟩

theorem guarded_negation (h : Step.negation t = .ok s) (hs : t.WellShaped) (ht : t.Guarded)
    (htest : t.isPlainTest) : s.tree.Guarded ∧ s.tree.isPlainTest := by
  rcases negation_cases h with ⟨m, x, rest, rfl, rfl⟩ | ⟨b, -, rfl⟩ | rfl
  · refine ⟨ht.children x (.head _), ?_⟩
    obtain ⟨y, heq, -⟩ := (wellShaped_one rfl).mp hs
    cases heq
    rwa [isPlainTest_not] at htest
  · exact ⟨guarded_leaf (by simp), isPlainTest_of_isInert _ (isInert_literal rfl)⟩
  · exact ⟨guarded_node.mpr ⟨rfl, by simpa using ht⟩, by rwa [new, isPlainTest_not]⟩

theorem guarded_unbrace {b : Tree (Option α)} (h : b.unbrace? = some s) (hb : b.Guarded) :
    s.tree.Guarded := by
  obtain ⟨m, ⟨rfl, rfl⟩ | ⟨c, rfl, rfl⟩⟩ := unbrace_cases h
  · exact guarded_leaf (by simp)
  · exact guarded_mark.mpr (hb.children c (.head _))

theorem guards_of_ne (hc : k ≠ .conditional) (hi : k ≠ .ifElse) (hs : k ≠ .sequence)
    (cs : List (Tree α)) : guards k cs := by
  unfold guards
  split
  · exact absurd rfl hc
  · exact absurd rfl hi
  · exact absurd rfl hs
  · rfl

theorem guards_of_isList (h : k.isList) (cs : List (Tree α)) : guards k cs := by
  cases k <;> first | rfl | cases h

theorem guards_of_discards {c : Tree α} (h : k.discards l.length r.length) :
    guards k (l ++ c :: r) := by
  cases k <;> first | rfl | cases h | simp [guards]

theorem guards_of_handsOver (h : k.handsOver) (cs : List (Tree α)) : guards k cs := by
  cases k <;> first | rfl | cases h

theorem guards_exchange {c c' : Tree α} (h : c.isPlainTest → c'.isPlainTest)
    (hg : guards k (l ++ c :: r)) : guards k (l ++ c' :: r) := by
  by_cases hk : k = .conditional ∨ k = .ifElse
  · cases l with
    | nil => rcases hk with rfl | rfl <;> exact h hg
    | cons t l => rcases hk with rfl | rfl <;> exact hg
  · by_cases hs : k = .sequence
    · subst hs
      simp [guards]
    · rw [not_or] at hk
      exact guards_of_ne hk.1 hk.2 hs _

theorem guarded_become {m : Option α} : (Step.become m x dropped).tree.Guarded ↔ x.Guarded :=
  guarded_mark

theorem guarded_list (hk : k.isList) : (node m k cs).Guarded ↔ ∀ c ∈ cs, c.Guarded := by
  rw [guarded_node, guards_of_isList hk, eq_self_iff_true, true_and]

theorem guarded_literal {m : Option α} (h : k.isLiteral) :
    (Step.leaf m k dropped).tree.Guarded := by
  apply guarded_leaf
  rintro rfl
  cases h

theorem Rewrites.guarded (h : Rewrites known t s) (ht : t.WellShaped) (hg : t.Guarded) :
    s.tree.Guarded := by
  have hcs := hg.children
  cases h
  all_goals simp only [children_node, forall_mem_append, forall_mem_cons,
    not_mem_nil, false_imp_iff, implies_true, and_true] at hcs
  case dropEmpty hk _ => exact (guarded_list hk).mpr (forall_mem_append.mpr ⟨hcs.1, hcs.2.2⟩)
  case splice c hk _ =>
    refine (guarded_list hk).mpr (forall_mem_append.mpr ⟨hcs.1, ?_⟩)
    exact forall_mem_append.mpr ⟨hcs.2.1.children, hcs.2.2⟩
  case mergeDeclarations hk =>
    obtain ⟨hl, hxs, hys, hr⟩ := hcs
    refine (guarded_list hk).mpr (forall_mem_append.mpr ⟨hl, forall_mem_cons.mpr ⟨?_, hr⟩⟩)
    exact guarded_node.mpr ⟨rfl, forall_mem_append.mpr ⟨hxs.children, hys.children⟩⟩
  case mergeExpressions hk =>
    obtain ⟨hl, hx, hy, hr⟩ := hcs
    refine (guarded_list hk).mpr (forall_mem_append.mpr ⟨hl, forall_mem_cons.mpr ⟨?_, hr⟩⟩)
    have hcomma := guarded_comma (hx.children _ (.head _)) (hy.children _ (.head _))
    exact guarded_node.mpr ⟨rfl, by simpa using hcomma⟩
  case mergeIntoValue hk hv =>
    obtain ⟨hl, hx, hy, hr⟩ := hcs
    refine (guarded_list hk).mpr (forall_mem_append.mpr ⟨hl, forall_mem_cons.mpr ⟨?_, hr⟩⟩)
    have hcomma := guarded_comma (hx.children _ (.head _)) (hy.children _ (.head _))
    refine guarded_node.mpr ⟨?_, by simpa using hcomma⟩
    rcases hv with rfl | rfl <;> rfl
  case fillSetup hk _ =>
    obtain ⟨hl, hx, hloop, hr⟩ := hcs
    refine (guarded_list hk).mpr (forall_mem_append.mpr ⟨hl, forall_mem_cons.mpr ⟨?_, hr⟩⟩)
    refine guarded_node.mpr ⟨rfl, forall_mem_cons.mpr ⟨hx.children _ (.head _), ?_⟩⟩
    exact fun c hc => hloop.children c (.tail _ hc)
  case mergeIntoSetup hk _ =>
    obtain ⟨hl, hx, hloop, hr⟩ := hcs
    refine (guarded_list hk).mpr (forall_mem_append.mpr ⟨hl, forall_mem_cons.mpr ⟨?_, hr⟩⟩)
    have hcomma := guarded_comma (hx.children _ (.head _))
      (hloop.children _ (.head _))
    refine guarded_node.mpr ⟨rfl, forall_mem_cons.mpr ⟨hcomma, ?_⟩⟩
    exact fun c hc => hloop.children c (.tail _ hc)
  case reduce c s hk hc hs =>
    have hfit : c.Fit Kind.isExpression := ⟨hc, ht.child c (by simp)⟩
    refine guarded_node.mpr ⟨guards_of_discards hk, ?_⟩
    exact forall_mem_append.mpr
        ⟨hcs.1, forall_mem_cons.mpr ⟨guarded_reduced hfit hs hcs.2.1, hcs.2.2⟩⟩
  case dropStatement => exact guarded_leaf (by simp)
  case dropElement hr _ =>
    refine guarded_node.mpr ⟨by simp [guards, hr], forall_mem_append.mpr ⟨hcs.1, hcs.2.2⟩⟩
  case dropClause =>
    refine guarded_node.mpr ⟨rfl, forall_mem_append.mpr ⟨hcs.1, forall_mem_cons.mpr ⟨?_, hcs.2.2⟩⟩⟩
    exact guarded_leaf (by simp)
  case flatten =>
    obtain ⟨hl, hseq, hr⟩ := hcs
    have hne := (guarded_node.mp hseq).1
    refine guarded_node.mpr ⟨?_, ?_⟩
    · simp only [guards, Bool.not_eq_true', isEmpty_eq_false_iff] at hne ⊢
      simp [hne]
    · exact forall_mem_append.mpr ⟨hl, forall_mem_append.mpr ⟨hseq.children, hr⟩⟩
  case single => exact guarded_become.mpr hcs
  case foldUnary h => exact guarded_literal (Step.isLiteral_unaryValue h)
  case tripleNot => exact guarded_become.mpr (hcs.children _ (.head _))
  case logical h =>
    obtain ⟨b, -, rfl⟩ := Option.map_eq_some_iff.mp h
    split
    · exact guarded_become.mpr hcs.2
    · exact guarded_become.mpr hcs.1
  case foldBinary h => exact guarded_literal (Kind.isLiteral_foldBinary h)
  case power => exact guarded_literal rfl
  case dropEmptyTail => exact guarded_become.mpr hcs.1
  case choose b _ _ _ _ h =>
    cases b <;> cases h
    · exact guarded_become.mpr hcs.2.2
    · exact guarded_become.mpr hcs.2.1
  case sameBranches => exact guarded_become.mpr (guarded_comma hcs.1 hcs.2.1)
  case sameBranchesPure => exact guarded_become.mpr hcs.2.1
  case unbrace hk hs =>
    refine guarded_node.mpr ⟨guards_exchange (fun htest => ?_) (guarded_node.mp hg).1, ?_⟩
    · -- A block is no test.
      have hkind := kind_of_isPlainTest htest
      rw [isBlock_of_unbrace hs] at hkind
      cases hkind
    · exact forall_mem_append.mpr
        ⟨hcs.1, forall_mem_cons.mpr ⟨guarded_unbrace hs hcs.2.1, hcs.2.2⟩⟩
  case tryBlock hs =>
    rcases tryStatement_cases hs with rfl | rfl | rfl
    · exact guarded_leaf (by simp)
    · exact guarded_become.mpr hcs.2.2
    · exact guarded_become.mpr hcs.1
  case take truth t x y _ _ =>
    cases truth
    · exact guarded_become.mpr hcs.2.2
    · exact guarded_become.mpr hcs.2.1
  case invert h =>
    obtain ⟨hs, -, -⟩ := (wellShaped_triple rfl).mp ht
    obtain ⟨htest, hplain⟩ := guarded_negation h hs.2 hcs.1 (guarded_node.mp hg).1
    exact guarded_node.mpr ⟨hplain, by simpa using ⟨htest, hcs.2.2, hcs.2.1⟩⟩
  case swapConditional =>
    have hplain := (guarded_node.mp hg).1
    rw [guards, isPlainTest_not] at hplain
    have hinner := hcs.1.children _ (.head _)
    exact guarded_node.mpr ⟨hplain, by simpa using ⟨hinner, hcs.2.2, hcs.2.1⟩⟩
  case join hk =>
    have hx := hcs.2.1.children _ (.head _)
    have hy := hcs.2.2.children _ (.head _)
    refine guarded_node.mpr ⟨guards_of_handsOver hk _, ?_⟩
    rw [forall_mem_singleton]
    exact guarded_node.mpr ⟨(guarded_node.mp hg).1, by simpa using ⟨hcs.1, hx, hy⟩⟩
  -- What is left puts parts of the node and leaves under nodes that ask for nothing more.
  all_goals
    simp only [Step.fresh, Step.become, new, kind_node, children_node, guarded_node, guards,
      forall_mem_cons, not_mem_nil, false_imp_iff, implies_true, and_true, true_and] at hcs ⊢
    simp only [hcs, and_self]

theorem Reduces.guarded (h : Reduces known t t' d) : t.WellShaped → t.Guarded → t'.Guarded := by
  induction h with
  | refl t => exact fun _ hg => hg
  | rule h => exact h.guarded
  | trans h _ ih ih' => exact fun ht hg => ih' (h.wellShaped ht).1 (ih ht hg)
  | child h ih =>
    intro ht hg
    have hc := ht.child _ (mem_append_right _ (.head _))
    rw [guarded_node, forall_mem_append, forall_mem_cons] at hg ⊢
    exact ⟨guards_exchange h.isPlainTest hg.1, hg.2.1, ih hc hg.2.2.1, hg.2.2.2⟩

theorem isInert_map (t : Tree α) : (t.map f).isInert = t.isInert := by
  induction t with
  | node m k cs ih =>
    rw [Bool.eq_iff_iff, map_node, isInert_node, isInert_node, forall_mem_map]
    refine and_congr_right fun _ => forall₂_congr fun c hc => ?_
    rw [ih c hc]

theorem isPlainTest_map (t : Tree α) : (t.map f).isPlainTest = t.isPlainTest := by
  induction t with
  | node m k cs ih =>
    by_cases hnot : k = .unary .not ∧ ∃ c, cs = [c]
    · obtain ⟨rfl, c, rfl⟩ := hnot
      rw [map_node, map_singleton, isPlainTest_not, isPlainTest_not]
      exact ih c (.head _)
    · have hinert := isInert_map f (node m k cs)
      rw [map_node] at hinert ⊢
      unfold isPlainTest
      split
      · rename_i c heq
        rw [node.injEq] at heq
        obtain ⟨x, rfl, -⟩ := map_eq_singleton_iff.mp heq.2.2
        exact absurd ⟨heq.2.1, x, rfl⟩ hnot
      · split
        · rename_i c heq
          cases heq
          exact absurd ⟨rfl, c, rfl⟩ hnot
        · rw [kind_node, kind_node, hinert]

theorem guarded_map (t : Tree α) : (t.map f).Guarded ↔ t.Guarded := by
  induction t with
  | node m k cs ih =>
    have hguards : guards k (cs.map (map f)) = guards k cs := by
      by_cases hk : k = .conditional ∨ k = .ifElse
      · cases cs with
        | nil => rcases hk with rfl | rfl <;> rfl
        | cons t cs => rcases hk with rfl | rfl <;> exact isPlainTest_map f t
      · by_cases hs : k = .sequence
        · subst hs
          simp [guards]
        · rw [not_or] at hk
          rw [guards_of_ne hk.1 hk.2 hs, guards_of_ne hk.1 hk.2 hs]
    rw [map_node, guarded_node, guarded_node, hguards, forall_mem_map]
    exact and_congr_right fun _ => forall₂_congr ih

end Tree

end ScriptPress

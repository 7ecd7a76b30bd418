import ScriptPress.Proofs.Marks.Simplify
import ScriptPress.Proofs.Meaning.Store

/-! # Expressions without names -/

namespace ScriptPress

open List Kind

variable {α : Type}

namespace Tree

/-- An expression of literals, the pure unary operators, the binary operators that do not ask
about objects, conditionals and sequences. -/
inductive IsClosed : Tree α → Prop
  | literal {m : α} {k : Kind} (hk : k.isLiteral) : IsClosed (node m k [])
  | unary {m : α} {op : UnaryOp} {x : Tree α} (hop : op.isPure) (hx : IsClosed x) :
    IsClosed (node m (.unary op) [x])
  | binary {m : α} {op : BinaryOp} {x y : Tree α} (hin : op ≠ .in) (hinstance : op ≠ .instanceOf)
    (hx : IsClosed x) (hy : IsClosed y) : IsClosed (node m (.binary op) [x, y])
  | conditional {m : α} {t x y : Tree α} (ht : IsClosed t) (hx : IsClosed x) (hy : IsClosed y) :
    IsClosed (node m .conditional [t, x, y])
  | sequence {m : α} {cs : List (Tree α)} (hne : cs ≠ []) (hcs : ∀ c ∈ cs, IsClosed c) :
    IsClosed (node m .sequence cs)

variable {t : Tree α}

theorem IsClosed.isExpression (h : t.IsClosed) : t.kind.isExpression := by
  cases h with
  | literal hk => exact isExpression_of_isLiteral hk
  | _ => rfl

theorem IsClosed.wellShaped (h : t.IsClosed) : t.WellShaped := by
  induction h with
  | literal hk => exact (wellShaped_none (places_of_isLiteral hk)).mpr rfl
  | unary hop hx ih => exact (wellShaped_singleton rfl).mpr ⟨hx.isExpression, ih⟩
  | binary hin hinstance hx hy ihx ihy =>
    exact (wellShaped_pair rfl).mpr ⟨⟨hx.isExpression, ihx⟩, hy.isExpression, ihy⟩
  | conditional ht hx hy iht ihx ihy =>
    exact (wellShaped_triple rfl).mpr
      ⟨⟨ht.isExpression, iht⟩, ⟨hx.isExpression, ihx⟩, hy.isExpression, ihy⟩
  | sequence hne hcs ih =>
    exact (wellShaped_of_element rfl).mpr fun c hc => ⟨(hcs c hc).isExpression, ih c hc⟩

theorem IsClosed.core (h : t.IsClosed) : t.Core := by
  induction h with
  | @literal m k hk =>
    refine core_node.mpr ⟨?_, by simp⟩
    cases k <;> first | rfl | cases hk
  | unary hop hx ih => exact core_node.mpr ⟨hop, by simpa using ih⟩
  | binary hin hinstance hx hy ihx ihy => exact core_node.mpr ⟨rfl, by simpa using ⟨ihx, ihy⟩⟩
  | conditional ht hx hy iht ihx ihy =>
    exact core_node.mpr ⟨rfl, by simpa using ⟨iht, ihx, ihy⟩⟩
  | sequence hne hcs ih => exact core_node.mpr ⟨by simpa [isCore] using hne, ih⟩

theorem IsClosed.map {β : Type} (f : α → β) (h : t.IsClosed) : (t.map f).IsClosed := by
  induction h with
  | literal hk =>
    rw [map_node]
    exact .literal hk
  | unary hop hx ih =>
    rw [map_node]
    exact .unary hop ih
  | binary hin hinstance hx hy ihx ihy =>
    rw [map_node]
    exact .binary hin hinstance ihx ihy
  | conditional ht hx hy iht ihx ihy =>
    rw [map_node]
    exact .conditional iht ihx ihy
  | sequence hne hcs ih =>
    rw [map_node]
    exact .sequence (by simpa using hne) (by simpa using ih)

def IsLeaf (t : Tree α) : Prop := t.kind.isLiteral = true ∧ t.children = []

theorem hasEffects_of_isLiteral (h : t.kind.isLiteral) : t.hasEffects = .ok false := by
  obtain ⟨m, k, cs⟩ := t
  cases k <;> first | rfl | cases h

end Tree

namespace Kind

theorem exists_truth {k : Kind} (h : k.isLiteral) : ∃ b, k.truth? = some b := by
  obtain ⟨p, hp⟩ := value_of_isLiteral h
  exact ⟨_, truth_of_value hp⟩

theorem foldBinary_literals {op : BinaryOp} {k l : Kind} (hk : k.isLiteral)
    (hl : l.isLiteral) (hop : op.isLogical = false) (hin : op ≠ .in)
    (hinstance : op ≠ .instanceOf) : ∃ r, foldBinary op k l = some r := by
  obtain ⟨p, hp⟩ := value_of_isLiteral hk
  obtain ⟨q, hq⟩ := value_of_isLiteral hl
  cases op with
  | add =>
    obtain ⟨a, ha, -⟩ := text_of_value hp
    obtain ⟨b, hb, -⟩ := text_of_value hq
    rw [foldBinary, foldSum]
    split
    · exact ⟨_, by rw [ha, hb]; rfl⟩
    · exact ⟨_, foldNumbers_of_value hp hq⟩
  | equal | notEqual => exact ⟨_, by rw [foldBinary, looseEquals_of_value hp hq]; rfl⟩
  | equalStrict | notEqualStrict => exact ⟨_, by rw [foldBinary, strictEquals_of_value hp hq]; rfl⟩
  | lessThan | lessThanEqual | greaterThan | greaterThanEqual => exact ⟨_, rfl⟩
  | «in» => exact absurd rfl hin
  | instanceOf => exact absurd rfl hinstance
  | logicalAnd | logicalOr => cases hop
  | _ => exact ⟨_, foldNumbers_of_value hp hq⟩

end Kind

namespace Simplifying

variable {known : WellKnown} {m : Option α}

open Tree (IsClosed IsLeaf)

theorem unaryValue_of_isLiteral {op : UnaryOp} {x : Tree (Option α)} (hop : op.isPure)
    (hx : x.kind.isLiteral) : ∃ k, Step.unaryValue? op x = .ok (some k) := by
  obtain ⟨p, hp⟩ := value_of_isLiteral hx
  have heffects := Tree.hasEffects_of_isLiteral hx
  cases op with
  | typeOf =>
    have hname : ∃ name, x.kind.typeName? = some name := by
      cases hk : x.kind <;> rw [hk] at hx <;> first | exact ⟨_, rfl⟩ | cases hx
    obtain ⟨name, hname⟩ := hname
    exact ⟨_, by rw [Step.unaryValue?, heffects, hname]; rfl⟩
  | void => exact ⟨_, by rw [Step.unaryValue?, heffects]; rfl⟩
  | not =>
    simp only [Step.unaryValue?, foldUnary, truth_of_value hp]
    exact ⟨_, rfl⟩
  | negative | positive | complement =>
    simp only [Step.unaryValue?, foldUnary, number_of_value hp]
    exact ⟨_, rfl⟩
  | _ => cases hop

theorem unary_leaf {op : UnaryOp} {x : Tree (Option α)} (hop : op.isPure) (hx : x.IsLeaf) :
    Ensures (unary m op [x]) fun _ t => t.IsLeaf := by
  obtain ⟨k, hk⟩ := unaryValue_of_isLiteral hop hx.1
  have hstep : Step.unary m op [x] = .ok (some (Step.leaf m k [x])) := by
    rw [Step.unary, hk]
    rfl
  rw [unary, hstep]
  exact ensures_lift fun o ho => by
    cases ho
    exact ensures_perform ⟨Step.isLiteral_unaryValue hk, rfl⟩

theorem binary_leaf {op : BinaryOp} {x y : Tree (Option α)} (hin : op ≠ .in)
    (hinstance : op ≠ .instanceOf) (hx : x.IsLeaf) (hy : y.IsLeaf) :
    Ensures (binary m op [x, y]) fun _ t => t.IsLeaf := by
  rw [binary]
  split
  · obtain ⟨b, hb⟩ := exists_truth hx.1
    rw [Step.logical, hb, Option.map_some]
    refine ensures_perform ?_
    split
    · exact hy
    · exact hx
  · rename_i hop
    obtain ⟨k, hk⟩ := foldBinary_literals hx.1 hy.1 (by simpa using hop) hin hinstance
    rw [hx.1, hy.1, hk, Option.map_some]
    exact ensures_perform ⟨isLiteral_foldBinary hk, rfl⟩

theorem conditional_leaf {t x y : Tree (Option α)} (ht : t.IsLeaf) (hx : x.IsLeaf)
    (hy : y.IsLeaf) : Ensures (conditional m [t, x, y]) fun _ t => t.IsLeaf := by
  obtain ⟨b, hb⟩ := exists_truth ht.1
  have hnot : t.kind ≠ .unary .not := by
    intro heq
    rw [heq] at hb
    cases hb
  rw [conditional, conditionalOn_of_some hnot hb]
  refine ensures_lift fun s hs => ?_
  cases b with
  | true =>
    cases hs
    exact ensures_perform hx
  | false =>
    cases hs
    exact ensures_perform hy

theorem reduceElements_leaves : ∀ {cs : List (Tree (Option α))}, cs ≠ [] →
    (∀ c ∈ cs, c.IsLeaf) → Ensures (reduceElements cs) fun _ ds => ∃ c, c.IsLeaf ∧ ds = [c]
  | [], hne, _ => absurd rfl hne
  | [c], _, hcs => ensures_pure ⟨c, hcs c (.head _), rfl⟩
  | c :: d :: cs, _, hcs => by
    have ih := reduceElements_leaves (cons_ne_nil d cs) fun c hc =>
      hcs c (.tail _ hc)
    have hpure := Tree.hasEffects_of_isLiteral (hcs c (.head _)).1
    have hkeep : keepEffects c = pure none := by
      rw [keepEffects, Tree.discarded, Tree.effects_of_pure hpure]
      rfl
    rw [reduceElements, hkeep, pure_bind]
    · exact ensures_release (ensures_noteChange ih)
    · simp

theorem sequence_leaf {cs : List (Tree (Option α))} (hne : cs ≠ []) (hcs : ∀ c ∈ cs, c.IsLeaf) :
    Ensures (sequence m cs) fun _ t => t.IsLeaf := by
  have hflat : ∀ c ∈ cs, c.kind ≠ .sequence := by
    intro c hc heq
    have hliteral := (hcs c hc).1
    rw [heq] at hliteral
    cases hliteral
  rw [sequence, flattenSequences_of_flat hflat, pure_bind]
  refine (reduceElements_leaves hne hcs).bind ?_
  rintro _ _ ⟨c, hc, rfl⟩
  exact ensures_perform hc

theorem visit_leaf {t : Tree (Option α)} (h : t.IsClosed) :
    Ensures (visit known t) fun _ t' => t'.IsLeaf := by
  induction h with
  | @literal m k hk =>
    rw [visit, visitAll, pure_bind]
    have hrules : applyRules known (.node m k []) = pure (.node m k []) := by
      cases k <;> first | rfl | cases hk
    rw [hrules]
    exact ensures_pure ⟨hk, rfl⟩
  | @unary m op x hop hx ih =>
    rw [visit]
    refine (ensures_visitAll (forall_mem_singleton.mpr ih)).bind ?_
    rintro _ cs ⟨hlength, hcs⟩
    obtain ⟨x', rfl⟩ := length_eq_one_iff.mp hlength
    exact unary_leaf hop (hcs x' (by simp))
  | @binary m op x y hin hinstance hx hy ihx ihy =>
    rw [visit]
    refine (ensures_visitAll (P := IsLeaf) (by simpa using ⟨ihx, ihy⟩)).bind ?_
    rintro _ cs ⟨hlength, hcs⟩
    obtain ⟨x', y', rfl⟩ := length_eq_two.mp hlength
    exact binary_leaf hin hinstance (hcs x' (by simp)) (hcs y' (by simp))
  | @conditional m t x y ht hx hy iht ihx ihy =>
    rw [visit]
    refine (ensures_visitAll (P := IsLeaf) (by simpa using ⟨iht, ihx, ihy⟩)).bind ?_
    rintro _ cs ⟨hlength, hcs⟩
    obtain ⟨t', x', y', rfl⟩ := length_eq_three.mp hlength
    exact conditional_leaf (hcs t' (by simp)) (hcs x' (by simp)) (hcs y' (by simp))
  | @sequence m cs hne hcs ih =>
    rw [visit]
    refine (ensures_visitAll ih).bind ?_
    rintro _ cs' ⟨hlength, hcs'⟩
    refine sequence_leaf ?_ hcs'
    rintro rfl
    exact hne (length_eq_zero_iff.mp hlength.symm)

end Simplifying

namespace Store

variable {s : Store} {n : NodeId}

def plainTruth : Store :=
  (Store.empty.grow (.node () (.binary .logicalOr)
    [.node () (.unary .not) [.node () .null []],
      .node () (.unary .typeOf) [.node () .undefined []]])).2

end Store

end ScriptPress

import ScriptPress.Proofs.Store.Build

/-! # Histories of a store -/

namespace ScriptPress

/-- A call that changes a store. -/
inductive Edit where
  | createSymbol (name : String) (pinned : Bool)
  | renameSymbol (symbol : SymbolId) (name : String)
  | create (kind : Kind)
  | build (construction : Construction)
  | insert (parent child : NodeId) (position : Option NodeId)
  | append (parent child : NodeId)
  | detach (node : NodeId)
  | takeChildren (node : NodeId)
  | detachChildren (node : NodeId)
  | moveChildren (target source : NodeId)
  | replace (old new : NodeId)
  | dissolve (node : NodeId)
  | transplant (target source : NodeId)
  | setLeaf (node : NodeId) (kind : Kind)
  | copy (node : NodeId)

namespace Edit

def nodes : Edit → List NodeId
  | createSymbol _ _ | renameSymbol _ _ | create _ => []
  | build c => c.nodes
  | insert p c position => p :: c :: position.toList
  | append a b | moveChildren a b | replace a b | transplant a b => [a, b]
  | detach n | takeChildren n | detachChildren n | dissolve n | setLeaf n _ | copy n => [n]

def run (s : Store) : Edit → Except Fault Store
  | createSymbol name pinned => return (s.createSymbol name pinned).2
  | renameSymbol symbol name => return s.renameSymbol symbol name
  | create kind => return (s.create kind).2
  | build c => return (← c.action.run s).2
  | insert p c position => s.insert p c position
  | append p c => s.append p c
  | detach n => return s.detach n
  | takeChildren n => return (s.takeChildren n).2
  | detachChildren n => return s.detachChildren n
  | moveChildren target source => s.moveChildren target source
  | replace old new => s.replace old new
  | dissolve n => s.dissolve n
  | transplant target source => s.transplant target source
  | setLeaf n kind => return s.setLeaf n kind
  | copy n => return (s.copy n).2

end Edit

namespace Store

variable {s s' : Store} {e : Edit} {es : List Edit}

attribute [local simp] Edit.nodes

/-- Calls one after the other, on nodes that are in the store, and all succeed. -/
inductive History : Store → List Edit → Store → Prop
  | done (s : Store) : History s [] s
  | call {s s₁ s' : Store} {e : Edit} {es : List Edit} (nodes : ∀ n ∈ e.nodes, s.Has n)
    (run : e.run s = .ok s₁) (rest : History s₁ es s') : History s (e :: es) s'

/-- The links of a store agree with each other, and walks along them end. -/
structure IsForest (s : Store) : Prop where
  nodup : ∀ p, (s.children p).Nodup
  forward : ∀ p, Follows s.next? (s.firstChild? p) (s.children p)
  backward : ∀ p, Follows s.previous? (s.lastChild? p) (s.children p).reverse
  parent : ∀ c p, s.parent? c = some p ↔ c ∈ s.children p
  root : ∀ n, s.parent? n = none → s.previous? n = none ∧ s.next? n = none
  acyclic : ∀ n, ¬s.Above n n
  descent : WellFounded fun c p => s.parent? c = some p
  ascent : ∀ n, Follows s.parent? (s.parent? n) (s.ancestors n)
  ancestor : ∀ a n, s.isAncestor a n ↔ s.Above a n
  tree : ∀ n, s.tree n = .node n (s.kind n) ((s.children n).map s.tree)
  verify : ∀ n, s.verify n = (s.tree n).check

theorem Links.isForest {kids : NodeId → List NodeId} (h : s.Links kids) : s.IsForest where
  nodup p := by
    rw [h.children_eq]
    exact h.nodup p
  forward p := by
    rw [h.children_eq]
    exact h.follows_children p
  backward p := by
    rw [h.children_eq, h.last]
    exact h.follows_previous (r := []) (by rw [List.append_nil])
  parent c p := by
    rw [h.children_eq]
    exact h.parent c p
  root _ hn := h.siblings_none hn
  acyclic := h.not_above_self
  descent := by
    obtain ⟨rank, hrank⟩ := h.ranked
    exact Subrelation.wf (fun {c p} hp => hrank p c ((h.parent c p).mp hp)) (measure rank).wf
  ascent := h.follows_ancestors
  ancestor a n := by
    rw [← h.mem_ancestors]
    exact decide_eq_true_iff
  tree := h.tree_eq
  verify := h.verify_eq

theorem Consistent.run (h : s.Consistent) (hn : ∀ n ∈ e.nodes, s.Has n)
    (he : e.run s = .ok s') : s'.Consistent := by
  cases e with
  | createSymbol name pinned | renameSymbol symbol name =>
    cases he
    obtain ⟨kids, hlinks⟩ := h
    exact ⟨kids, hlinks.congr rfl rfl rfl rfl rfl (Nat.le_refl _)⟩
  | create kind =>
    cases he
    exact h.create kind
  | build c =>
    change (c.action.run s >>= fun r => Except.ok r.2) = .ok s' at he
    cases hr : c.action.run s with
    | error f =>
      rw [hr] at he
      cases he
    | ok r =>
      rw [hr] at he
      cases he
      exact (Building.keeps_construction c h hn r.1 r.2 hr).1
  | insert p c position =>
    exact (h.insert (hn p (by simp)) (hn c (by simp)) he).1
  | append p c =>
    exact (h.insert (hn p (by simp)) (hn c (by simp)) he).1
  | detach n =>
    cases he
    exact h.detach n
  | takeChildren n | detachChildren n =>
    cases he
    exact (h.detachChildren n).1
  | moveChildren target source => exact h.moveChildren (hn target (by simp)) he
  | replace old new => exact h.replace (hn new (by simp)) he
  | dissolve n => exact h.dissolve he
  | transplant target source => exact h.transplant (hn target (by simp)) he
  | setLeaf n kind =>
    cases he
    exact h.setLeaf n kind
  | copy n =>
    cases he
    exact h.copy n

theorem History.consistent (h : History s es s') (hs : s.Consistent) : s'.Consistent := by
  induction h with
  | done s => exact hs
  | call hn he _ ih => exact ih (hs.run hn he)

/-- A store that was made from the empty one by successful calls is a forest. -/
theorem isForest_of_history (h : History .empty es s) : s.IsForest := by
  obtain ⟨kids, hlinks⟩ := h.consistent ⟨_, Links.empty⟩
  exact hlinks.isForest

theorem isForest_of_history_block : ∃ s,
    History .empty [.create .block, .create .empty, .create .debugger, .append ⟨0⟩ ⟨1⟩,
      .insert ⟨0⟩ ⟨2⟩ (some ⟨1⟩), .copy ⟨0⟩] s ∧ s.children ⟨3⟩ = [⟨4⟩, ⟨5⟩] ∧ s.IsForest := by
  have h : History .empty [.create .block, .create .empty, .create .debugger, .append ⟨0⟩ ⟨1⟩,
      .insert ⟨0⟩ ⟨2⟩ (some ⟨1⟩), .copy ⟨0⟩] _ :=
    .call (by decide) rfl <| .call (by decide) rfl <| .call (by decide) rfl <|
      .call (by decide) rfl <| .call (by decide) rfl <| .call (by decide) rfl <| .done _
  exact ⟨_, h, by decide, isForest_of_history h⟩

end Store

end ScriptPress

import Mathlib.Data.List.Flatten
import ScriptPress.Proofs.Tree.Form

/-! # Labels and the jumps to them -/

namespace ScriptPress

open List

namespace Kind

def jumpsTo? : Kind → Option SymbolId
  | .break target | .continue target => target
  | _ => none

def label? : Kind → Option SymbolId
  | .label s => some s
  | _ => none

def labelsInside (labels : List SymbolId) : Kind → List SymbolId
  | .label s => s :: labels
  | .function _ => []
  | _ => labels

def isPassive : Kind → Bool
  | .break _ | .continue _ | .label _ | .function _ => false
  | _ => true

section

variable {k : Kind} (h : k.isPassive)

include h

theorem jumpsTo_of_isPassive : k.jumpsTo? = none := by
  cases k <;> first | rfl | cases h

theorem label_of_isPassive : k.label? = none := by
  cases k <;> first | rfl | cases h

theorem labelsInside_of_isPassive (labels : List SymbolId) : k.labelsInside labels = labels := by
  cases k <;> first | rfl | cases h

end

end Kind

namespace Tree

variable {α β : Type} {t : Tree α}

/-- The tree `u` stands in `t`, and `above` are the kinds of the nodes above it, innermost first. -/
inductive Lies : List Kind → Tree α → Tree α → Prop
  | here (t : Tree α) : Lies [] t t
  | child {above : List Kind} {m : α} {k : Kind} {cs : List (Tree α)} {c u : Tree α}
    (hc : c ∈ cs) (h : Lies above c u) : Lies (above ++ [k]) (node m k cs) u

/-- Every jump with a label stands below that label, with no function in between. -/
def JumpsInside (t : Tree α) : Prop :=
  ∀ above u s, Lies above t u → u.kind.jumpsTo? = some s →
    ∃ inner outer, above = inner ++ .label s :: outer ∧ ∀ k ∈ inner, k.isFunction = false

inductive Enclosed : List SymbolId → Tree α → Prop
  | node {labels : List SymbolId} {m : α} {k : Kind} {cs : List (Tree α)}
    (hjump : ∀ s, k.jumpsTo? = some s → s ∈ labels)
    (hcs : ∀ c ∈ cs, Enclosed (k.labelsInside labels) c) : Enclosed labels (node m k cs)

theorem enclosed_node {labels : List SymbolId} {m : α} {k : Kind} {cs : List (Tree α)} :
    Enclosed labels (node m k cs) ↔
      (∀ s, k.jumpsTo? = some s → s ∈ labels) ∧ ∀ c ∈ cs, Enclosed (k.labelsInside labels) c := by
  constructor
  · rintro ⟨hjump, hcs⟩
    exact ⟨hjump, hcs⟩
  · rintro ⟨hjump, hcs⟩
    exact .node hjump hcs

theorem enclosed_passive {labels : List SymbolId} {m : α} {k : Kind} {cs : List (Tree α)}
    (hk : k.isPassive) : Enclosed labels (node m k cs) ↔ ∀ c ∈ cs, Enclosed labels c := by
  rw [enclosed_node, Kind.jumpsTo_of_isPassive hk, Kind.labelsInside_of_isPassive hk]
  simp

theorem Enclosed.lies {labels : List SymbolId} {t u : Tree α} {above : List Kind} {s : SymbolId}
    (h : Enclosed labels t) (hu : Lies above t u) (hs : u.kind.jumpsTo? = some s) :
    (∃ inner outer, above = inner ++ .label s :: outer ∧ ∀ k ∈ inner, k.isFunction = false) ∨
      s ∈ labels ∧ ∀ k ∈ above, k.isFunction = false := by
  induction hu generalizing labels with
  | here t =>
    obtain ⟨m, k, cs⟩ := t
    exact .inr ⟨(enclosed_node.mp h).1 s hs, by simp⟩
  | @child above m k cs c u hc _ ih =>
    rcases ih ((enclosed_node.mp h).2 c hc) hs with ⟨inner, outer, rfl, hinner⟩ | ⟨hmem, habove⟩
    · exact .inl ⟨inner, outer ++ [k], by simp, hinner⟩
    · -- The node itself is the label, or it passes the label on, or it is a function.
      cases k with
      | label l =>
        rcases mem_cons.mp hmem with rfl | hmem
        · exact .inl ⟨above, [], rfl, habove⟩
        · refine .inr ⟨hmem, ?_⟩
          simpa [or_imp, forall_and] using ⟨habove, rfl⟩
      | function f => cases hmem
      | _ =>
        refine .inr ⟨hmem, ?_⟩
        simpa [or_imp, forall_and] using ⟨habove, rfl⟩

theorem Enclosed.jumpsInside (h : Enclosed [] t) : t.JumpsInside := by
  intro above u s hu hs
  rcases h.lies hu hs with hinner | ⟨hmem, -⟩
  · exact hinner
  · cases hmem

theorem enclosed_map (f : α → β) (t : Tree α) :
    ∀ labels, Enclosed labels (t.map f) ↔ Enclosed labels t := by
  induction t with
  | node m k cs ih =>
    intro labels
    rw [map_node, enclosed_node, enclosed_node, forall_mem_map]
    exact and_congr_right fun _ => forall₂_congr fun c hc => ih c hc _

/-- The symbols of the labels in a tree, one for each of its label nodes. -/
def labels (t : Tree α) : List SymbolId := t.subtrees.filterMap fun u => u.kind.label?

theorem labels_node (m : α) (k : Kind) (cs : List (Tree α)) :
    (node m k cs).labels = k.label?.toList ++ cs.flatMap labels := by
  have hall : ∀ ds : List (Tree α), (subtreesAll ds).filterMap (fun u => u.kind.label?) =
      ds.flatMap labels := by
    intro ds
    induction ds with
    | nil => rfl
    | cons d ds ih => rw [subtreesAll, filterMap_append, ih, flatMap_cons, labels]
  rw [labels, subtrees, filterMap_cons, hall, kind_node]
  cases k.label? <;> rfl

theorem labels_passive {m : α} {k : Kind} {cs : List (Tree α)} (hk : k.isPassive) :
    (node m k cs).labels = cs.flatMap labels := by
  rw [labels_node, Kind.label_of_isPassive hk, Option.toList_none, nil_append]

theorem labels_map (f : α → β) (t : Tree α) : (t.map f).labels = t.labels := by
  induction t with
  | node m k cs ih =>
    rw [map_node, labels_node, labels_node, flatMap_map]
    exact congrArg _ (flatMap_congr ih)

def Quiet (t : Tree α) : Prop := t.labels = [] ∧ ∀ labels, Enclosed labels t

theorem quiet_node {m : α} {k : Kind} {cs : List (Tree α)} (hk : k.isPassive)
    (hcs : ∀ c ∈ cs, c.Quiet) : (node m k cs).Quiet := by
  constructor
  · rw [labels_passive hk, flatMap_eq_nil_iff]
    exact fun c hc => (hcs c hc).1
  · exact fun labels => (enclosed_passive hk).mpr fun c hc => (hcs c hc).2 labels

theorem quiet_leaf (m : α) {k : Kind} (hk : k.isPassive) : (node m k []).Quiet :=
  quiet_node hk (by simp)

theorem IsExpression.quiet (h : t.IsExpression) : t.Quiet := by
  refine h.node_induction fun m k cs hk => quiet_node ?_
  rcases hk with hk | hk <;> cases k <;> first | rfl | cases hk

theorem Fit.quiet (h : t.Fit Kind.isExpression) : t.Quiet :=
  (IsExpression.of_fit h).quiet

structure Confines (ts us : List (Tree α)) : Prop where
  enclosed : ∀ labels, (∀ t ∈ ts, Enclosed labels t) → ∀ u ∈ us, Enclosed labels u
  labels : ∀ s, (us.flatMap labels).count s ≤ (ts.flatMap labels).count s

namespace Confines

variable {ts us vs ts' us' : List (Tree α)}

theorem refl (ts : List (Tree α)) : Confines ts ts :=
  ⟨fun _ h => h, fun _ => Nat.le_refl _⟩

theorem trans (h : Confines ts us) (h' : Confines us vs) : Confines ts vs := by
  constructor
  · intro labels hts
    exact h'.enclosed labels (h.enclosed labels hts)
  · intro s
    exact Nat.le_trans (h'.labels s) (h.labels s)

theorem append (h : Confines ts us) (h' : Confines ts' us') : Confines (ts ++ ts') (us ++ us') := by
  constructor
  · intro labels hts
    obtain ⟨hts, hts'⟩ := forall_mem_append.mp hts
    exact forall_mem_append.mpr ⟨h.enclosed labels hts, h'.enclosed labels hts'⟩
  · intro s
    rw [flatMap_append, flatMap_append, count_append, count_append]
    exact Nat.add_le_add (h.labels s) (h'.labels s)

theorem within (h : Confines ts us) (l r : List (Tree α)) :
    Confines (l ++ (ts ++ r)) (l ++ (us ++ r)) :=
  (refl l).append (h.append (refl r))

theorem of_sublist (h : us.Sublist ts) : Confines ts us := by
  constructor
  · intro labels hts u hu
    exact hts u (h.subset hu)
  · intro s
    exact (h.flatMap Tree.labels).count_le s

theorem of_perm (h : ts.Perm us) : Confines ts us := by
  constructor
  · intro labels hts u hu
    exact hts u (h.mem_iff.mpr hu)
  · intro s
    exact Nat.le_of_eq ((h.flatMap_right Tree.labels).count_eq s).symm

theorem of_quiet (h : ∀ u ∈ us, u.Quiet) : Confines ts us := by
  have hlabels : us.flatMap Tree.labels = [] :=
    flatMap_eq_nil_iff.mpr fun u hu => (h u hu).1
  constructor
  · intro labels _ u hu
    exact (h u hu).2 labels
  · intro s
    rw [hlabels]
    exact Nat.zero_le _

theorem exchange {t u : Tree α} (h : u.Quiet) : Confines [t] [u] :=
  of_quiet (forall_mem_singleton.mpr h)

section

variable {m m' : α} {k : Kind} {cs ds : List (Tree α)}

theorem node (h : Confines cs ds) : Confines [node m k cs] [node m' k ds] := by
  constructor
  · intro labels hcs
    rw [forall_mem_singleton, enclosed_node] at hcs ⊢
    exact ⟨hcs.1, h.enclosed _ hcs.2⟩
  · intro s
    have hs := h.labels s
    simp only [flatMap_singleton, labels_node, count_append]
    omega

theorem openNode (hk : k.isPassive) : Confines [Tree.node m k cs] cs := by
  constructor
  · intro labels h
    exact (enclosed_passive hk).mp (forall_mem_singleton.mp h)
  · intro s
    exact Nat.le_of_eq (by rw [flatMap_singleton, labels_passive hk])

theorem closeNode (hk : k.isPassive) : Confines cs [Tree.node m k cs] := by
  constructor
  · intro labels h
    exact forall_mem_singleton.mpr ((enclosed_passive hk).mpr h)
  · intro s
    exact Nat.le_of_eq (by rw [flatMap_singleton, labels_passive hk])

end

theorem mapAll {γ : Type} {f g : γ → Tree α} {as : List γ}
    (h : ∀ a ∈ as, Confines [f a] [g a]) : Confines (as.map f) (as.map g) := by
  induction as with
  | nil => exact refl []
  | cons a as ih =>
    rw [forall_mem_cons] at h
    exact h.1.append (ih h.2)

theorem of_map {f : Tree α → Tree α}
    (hkind : ∀ t, (f t).kind = t.kind ∨ t.kind.isPassive ∧ (f t).kind.isPassive)
    (hchildren : ∀ t, (f t).children.Sublist (t.children.map f)) (t : Tree α) :
    Confines [t] [f t] := by
  induction t with
  | node m k cs ih =>
    have hparts : Confines (cs.map id) (cs.map f) := mapAll ih
    rw [map_id] at hparts
    have hkept := hparts.trans (of_sublist (hchildren (.node m k cs)))
    have hkinds := hkind (.node m k cs)
    generalize f (.node m k cs) = u at hkept hkinds ⊢
    obtain ⟨m', k', ds⟩ := u
    rcases hkinds with hk | ⟨hk, hk'⟩
    · obtain rfl : k' = k := hk
      exact hkept.node
    · exact ((openNode hk).trans hkept).trans (closeNode hk')

theorem remark (m : α) (t : Tree α) : Confines [t] [Tree.node m t.kind t.children] := by
  obtain ⟨m', k, cs⟩ := t
  exact (refl cs).node

end Confines

end Tree

end ScriptPress

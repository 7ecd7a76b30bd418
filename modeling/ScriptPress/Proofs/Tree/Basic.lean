import Mathlib.Data.List.Basic
import ScriptPress.Tree.Basic

/-! # Induction over trees and the marks they carry -/

namespace ScriptPress

open List

namespace Tree

variable {α β : Type} {t : Tree (Option α)} {ts : List (Tree (Option α))} {u : Tree α} {m : α}
  (f : α → β)

@[induction_eliminator]
theorem induction {P : Tree α → Prop}
    (node : ∀ m k cs, (∀ c ∈ cs, P c) → P (node m k cs)) : ∀ t, P t
  | .node m k cs => node m k cs fun c _ => induction node c

mutual

def subtrees : Tree α → List (Tree α)
  | node m k cs => node m k cs :: subtreesAll cs

def subtreesAll : List (Tree α) → List (Tree α)
  | [] => []
  | c :: cs => c.subtrees ++ subtreesAll cs

end

theorem subtreesAll_eq (cs : List (Tree α)) : subtreesAll cs = cs.flatMap subtrees := by
  induction cs with
  | nil => rw [subtreesAll, flatMap_nil]
  | cons c cs ih => rw [subtreesAll, flatMap_cons, ih]

theorem mem_subtreesAll {cs : List (Tree α)} : u ∈ subtreesAll cs ↔ ∃ c ∈ cs, u ∈ c.subtrees := by
  rw [subtreesAll_eq, mem_flatMap]

theorem mem_subtrees_node {k : Kind} {cs : List (Tree α)} :
    u ∈ (node m k cs).subtrees ↔ u = node m k cs ∨ ∃ c ∈ cs, u ∈ c.subtrees := by
  rw [subtrees, mem_cons, mem_subtreesAll]

theorem mem_subtrees_self (t : Tree α) : t ∈ t.subtrees := by
  obtain ⟨m, k, cs⟩ := t
  exact mem_subtrees_node.mpr (.inl rfl)

theorem subtrees_trans {t e u : Tree α} (hu : u ∈ e.subtrees) (he : e ∈ t.subtrees) :
    u ∈ t.subtrees := by
  induction t with
  | node m k cs ih =>
    rcases mem_subtrees_node.mp he with rfl | ⟨c, hc, he⟩
    · exact hu
    · exact mem_subtrees_node.mpr (.inr ⟨c, hc, ih c hc he⟩)

mutual

/-- The marks of the nodes that have one, in order of appearance. -/
def marks : Tree (Option α) → List α
  | .node m _ cs => m.toList ++ marksAll cs

def marksAll : List (Tree (Option α)) → List α
  | [] => []
  | c :: cs => c.marks ++ marksAll cs

end

@[simp] theorem marks_node (m : Option α) (k : Kind) (cs : List (Tree (Option α))) :
    (node m k cs).marks = m.toList ++ marksAll cs := by rw [marks]

@[simp] theorem marksAll_nil : marksAll ([] : List (Tree (Option α))) = [] := by rw [marksAll]

@[simp] theorem marksAll_cons (c : Tree (Option α)) (cs : List (Tree (Option α))) :
    marksAll (c :: cs) = c.marks ++ marksAll cs := by rw [marksAll]

@[simp] theorem marksAll_append (cs ds : List (Tree (Option α))) :
    marksAll (cs ++ ds) = marksAll cs ++ marksAll ds := by
  induction cs with
  | nil => rfl
  | cons c cs ih => rw [cons_append, marksAll_cons, marksAll_cons, ih, append_assoc]

theorem marks_eq (t : Tree (Option α)) : t.marks = t.mark.toList ++ marksAll t.children := by
  cases t
  rw [marks_node, mark_node, children_node]

theorem mark_mem_marks (h : t.mark = some m) : m ∈ t.marks := by
  rw [marks_eq, h]
  exact mem_append_left _ (by simp)

theorem mem_marksAll (ht : t ∈ ts) (hm : m ∈ t.marks) : m ∈ marksAll ts := by
  obtain ⟨l, r, rfl⟩ := append_of_mem ht
  rw [marksAll_append, marksAll_cons]
  exact mem_append_right _ (mem_append_left _ hm)

@[simp] theorem map_node (m : α) (k : Kind) (cs : List (Tree α)) :
    (node m k cs).map f = node (f m) k (cs.map (map f)) := by
  have h : ∀ cs : List (Tree α), mapAll f cs = cs.map (map f) := by
    intro cs
    induction cs with
    | nil => rw [mapAll, map_nil]
    | cons c cs ih => rw [mapAll, map_cons, ih]
  rw [map, h]

@[simp] theorem mark_map (t : Tree α) : (t.map f).mark = f t.mark := by
  cases t
  rw [map_node, mark_node, mark_node]

@[simp] theorem kind_map (t : Tree α) : (t.map f).kind = t.kind := by
  cases t
  rw [map_node, kind_node, kind_node]

@[simp] theorem children_map (t : Tree α) : (t.map f).children = t.children.map (map f) := by
  cases t
  rw [map_node, children_node, children_node]

theorem map_map {γ : Type} (g : β → γ) (t : Tree α) : (t.map f).map g = t.map fun m => g (f m) := by
  induction t with
  | node m k cs ih =>
    rw [map_node, map_node, map_node, List.map_map]
    congr 1
    exact map_congr_left ih

@[simp] theorem bare_node (m : α) (k : Kind) (cs : List (Tree α)) :
    (node m k cs).bare = node () k (cs.map bare) := by
  rw [bare, map_node]
  rfl

@[simp] theorem bare_map (t : Tree α) : (t.map f).bare = t.bare :=
  map_map f _ t

@[simp] theorem preorder_node (m : α) (k : Kind) (cs : List (Tree α)) :
    (node m k cs).preorder = m :: cs.flatMap preorder := by
  have h : ∀ cs : List (Tree α), preorderAll cs = cs.flatMap preorder := by
    intro cs
    induction cs with
    | nil => rw [preorderAll, flatMap_nil]
    | cons c cs ih => rw [preorderAll, flatMap_cons, ih]
  rw [preorder, h]

theorem bare_unit (t : Tree Unit) : t.bare = t := by
  induction t with
  | node m k cs ih => rw [bare_node, map_congr_left ih, map_id']

theorem preorder_map (t : Tree α) : (t.map f).preorder = t.preorder.map f := by
  induction t with
  | node m k cs ih =>
    rw [map_node, preorder_node, preorder_node, map_cons, flatMap_map, map_flatMap]
    exact congrArg (f m :: ·) (flatMap_congr ih)

theorem length_preorder_bare (t : Tree α) : t.bare.preorder.length = t.preorder.length := by
  rw [bare, preorder_map, length_map]

theorem marks_map (f : α → Option β) (t : Tree α) : (t.map f).marks = t.preorder.filterMap f := by
  induction t with
  | node m k cs ih =>
    have hall : marksAll (cs.map (map f)) = (cs.flatMap preorder).filterMap f := by
      clear m k
      induction cs with
      | nil => rfl
      | cons c cs ihs =>
        rw [map_cons, marksAll_cons, ih c mem_cons_self, flatMap_cons,
          filterMap_append, ihs fun c hc => ih c (.tail _ hc)]
    rw [map_node, marks_node, preorder_node, hall, filterMap_cons]
    cases f m <;> rfl

theorem map_mark_subtrees (t : Tree α) : t.subtrees.map mark = t.preorder := by
  induction t with
  | node m k cs ih =>
    rw [subtrees, subtreesAll_eq, map_cons, map_flatMap, flatMap_congr ih, preorder_node, mark_node]

theorem map_mark_subtreesAll (ts : List (Tree α)) :
    (subtreesAll ts).map mark = ts.flatMap preorder := by
  rw [subtreesAll_eq, map_flatMap, flatMap_congr fun t _ => map_mark_subtrees t]

theorem mark_mem_preorder {t u : Tree α} (h : u ∈ t.subtrees) : u.mark ∈ t.preorder := by
  rw [← map_mark_subtrees]
  exact mem_map_of_mem h

/-- The tree `u` is `t` with a mark at each node that has none: both are halves of one tree of
pairs. -/
def Fills (u : Tree α) (t : Tree (Option α)) : Prop :=
  ∃ w : Tree (Option α × α), w.map Prod.fst = t ∧ w.map Prod.snd = u ∧
    ∀ p ∈ w.preorder, ∀ m ∈ p.1, p.2 = m

theorem Fills.bare_eq (h : u.Fills t) : u.bare = t.bare := by
  obtain ⟨w, rfl, rfl, -⟩ := h
  rw [bare_map, bare_map]

theorem Fills.node {mark : Option α} {k : Kind} {us : List (Tree α)} (hmark : ∀ x ∈ mark, m = x)
    (h : Forall₂ Fills us ts) : (node m k us).Fills (node mark k ts) := by
  obtain ⟨ws, rfl, rfl, hws⟩ : ∃ ws : List (Tree (Option α × α)), ws.map (map Prod.fst) = ts ∧
      ws.map (map Prod.snd) = us ∧ ∀ w ∈ ws, ∀ p ∈ w.preorder, ∀ m ∈ p.1, p.2 = m := by
    induction h with
    | nil => exact ⟨[], rfl, rfl, by simp⟩
    | cons h _ ih =>
      obtain ⟨w, rfl, rfl, hw⟩ := h
      obtain ⟨ws, rfl, rfl, hws⟩ := ih
      exact ⟨w :: ws, rfl, rfl, forall_mem_cons.mpr ⟨hw, hws⟩⟩
  refine ⟨.node (mark, m) k ws, map_node .., map_node .., ?_⟩
  rw [preorder_node, forall_mem_cons]
  refine ⟨hmark, fun p hp => ?_⟩
  obtain ⟨w, hw, hp⟩ := mem_flatMap.mp hp
  exact hws w hw p hp

theorem sameAll_iff : ∀ {cs : List (Tree α)} {cs' : List (Tree β)},
    (∀ c ∈ cs, ∀ c' : Tree β, c.sameAs c' ↔ c.bare = c'.bare) →
      (sameAll cs cs' ↔ cs.map bare = cs'.map bare)
  | [], [], _ => by rw [sameAll]; simp
  | [], _ :: _, _ => by rw [sameAll] <;> simp
  | _ :: _, [], _ => by rw [sameAll] <;> simp
  | c :: cs, c' :: cs', h => by
    have ih := @sameAll_iff cs cs' fun c hc => h c (.tail _ hc)
    rw [sameAll, Bool.and_eq_true, h c mem_cons_self c', ih, map_cons, map_cons, cons.injEq]

theorem sameAs_iff (t : Tree α) : ∀ t' : Tree β, t.sameAs t' ↔ t.bare = t'.bare := by
  induction t with
  | node m k cs ih =>
    rintro ⟨m', k', cs'⟩
    rw [sameAs, Bool.and_eq_true, beq_iff_eq, sameAll_iff ih, bare, bare, map_node, map_node,
      node.injEq]
    simp only [true_and]
    rfl

end Tree

end ScriptPress

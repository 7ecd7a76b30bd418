import ScriptPress.Proofs.Meaning.Core
import ScriptPress.Proofs.Simplify.Pass
import ScriptPress.Proofs.Store.Subtree

/-! # Simplifying a tree in a store -/

namespace ScriptPress

open List Tree

namespace Tree

variable {α : Type} {known : WellKnown}

theorem Rewrites.mark_eq (h : Rewrites known t s) : s.tree.mark = t.mark := by
  cases h with
  | logical _ h =>
    obtain ⟨b, -, rfl⟩ := Option.map_eq_some_iff.mp h
    split <;> rfl
  | choose _ h =>
    rw [Step.chosenBranch] at h
    split at h <;> cases h <;> rfl
  | @tryBlock _ b h f _ hs =>
    rw [Step.tryStatement] at hs
    by_cases hb : b.children.isEmpty
    · rw [if_pos hb] at hs
      split at hs <;> cases hs <;> rfl
    · rw [if_neg hb] at hs
      split at hs <;> cases hs
      rfl
  | _ => rfl

theorem Reduces.mark_eq {t t' : Tree (Option α)} {d : List (Tree (Option α))}
    (h : Reduces known t t' d) : t'.mark = t.mark := by
  induction h with
  | refl t => rfl
  | rule h => exact h.mark_eq
  | trans _ _ ih ih' => exact ih'.trans ih
  | child _ _ => rfl

def ReducesTo (known : WellKnown) (t u : Tree α) : Prop :=
  ∃ t' d, Reduces known (t.map some) t' d ∧ u.Fills t'

end Tree

namespace Store

open Tree (marksAll)

variable {s s' : Store} {kids kids' : NodeId → List NodeId} {n x : NodeId}

/-- The tree `t` has taken the place of the tree at `n`, and nothing else has changed. -/
structure Regrown (s : Store) (n : NodeId) (t : Tree (Option NodeId)) (s' : Store) : Prop where
  consistent : s'.Consistent
  fills : (s'.tree n).Fills t
  place : SamePlace s s' n
  size : s.size ≤ s'.size
  symbols : s'.symbols = s.symbols
  frame : ∀ x, s.Has x → x ≠ n → ¬s.Above n x → s'.slot? x = s.slot? x

theorem Regrown.tree {t : Tree (Option NodeId)} (h : Regrown s n t s') :
    (s'.tree n).bare = t.bare :=
  h.fills.bare_eq

section

variable {t : Tree (Option NodeId)} {detached : List (Tree (Option NodeId))}
  (h : s.Links kids) (hmark : t.mark = some n)
  (hperm : (marksAll (t :: detached)).Perm (s.tree n).preorder)

include h hmark hperm

theorem above_of_mem_children {u : Tree (Option NodeId)} (hu : u ∈ t :: detached)
    (hx : x ∈ marksAll u.children) : s.Above n x := by
  have hnodup : (marksAll (t :: detached)).Nodup := hperm.nodup_iff.mpr (h.nodup_preorder n)
  have hmem : x ∈ u.marks := by
    rw [marks_eq]
    exact mem_append_right _ hx
  have hne : x ≠ n := by
    rintro rfl
    rw [marksAll_cons, marks_eq, hmark, nodup_append, nodup_append] at hnodup
    obtain ⟨⟨-, -, hroot⟩, -, hrest⟩ := hnodup
    rcases mem_cons.mp hu with rfl | hu
    · exact hroot x (by simp) x hx rfl
    · exact hrest x (by simp) x (mem_marksAll hu hmem) rfl
  have hpre := hperm.mem_iff.mp (mem_marksAll hu hmem)
  exact ((h.mem_preorder n x).mp hpre).resolve_left hne

theorem Links.regrown (hn : s.Has n) : Regrown s n t (s.regrow n t detached) := by
  obtain ⟨kids₁, h₁⟩ := h.cleared (s.tree n).preorder
  -- A child of a node of the tree is below `n`.
  have hbelow : ∀ m ∈ (s.tree n).preorder, ∀ x ∈ kids m, s.Above n x := by
    intro m hm x hx
    have hstep := (h.parent x m).mpr hx
    rcases (h.mem_preorder n m).mp hm with rfl | hm
    · exact .single hstep
    · exact .head hstep hm
  have hready : Ready ((s.tree n).preorder.foldl detachChildren s) kids₁
      (marksAll (t :: detached)) := by
    refine ⟨hperm.nodup_iff.mpr (h.nodup_preorder n), fun m hm => ?_⟩
    have hpre := hperm.mem_iff.mp hm
    refine ⟨?_, by rw [h₁.lists, if_pos hpre]⟩
    rw [Has, h₁.size]
    rcases (h.mem_preorder n m).mp hpre with rfl | habove
    · exact hn
    · exact h.has_above habove
  have hfree : ∀ u ∈ t :: detached, ∀ m ∈ marksAll u.children,
      ((s.tree n).preorder.foldl detachChildren s).parent? m = none := by
    intro u hu m hm
    have habove := above_of_mem_children h hmark hperm hu hm
    rw [Option.eq_none_iff_forall_ne_some]
    intro q hq
    have hmem := (h₁.links.parent m q).mp hq
    rw [h₁.lists] at hmem
    split at hmem
    · exact absurd hmem not_mem_nil
    · rename_i hout
      -- The parent of a node below `n` is `n` or below it as well.
      obtain ⟨p, hp, hup⟩ := Relation.TransGen.head'_iff.mp habove
      rw [(h.parent m q).mpr hmem, Option.some.injEq] at hp
      subst hp
      refine hout ((h.mem_preorder n q).mpr ?_)
      rcases Relation.reflTransGen_iff_eq_or_transGen.mp hup with rfl | hup
      · exact .inl rfl
      · exact .inr hup
  obtain ⟨kids₂, h₂⟩ := plantEach_spec (t :: detached) h₁.links hready hfree
  have hplace : ∀ m ∈ (s.tree n).preorder, n ∉ kids m := fun m hm hx =>
    h.not_above_self n (hbelow m hm n hx)
  obtain ⟨hplanted, htree⟩ := h₂.trees t (.head _) n hmark
  refine ⟨⟨kids₂, h₂.links⟩, htree, (h₁.place n hplace).trans hplanted,
    Nat.le_trans (Nat.le_of_eq h₁.size.symm) h₂.size, h₂.symbols.trans h₁.symbols,
      fun x hx hne habove => ?_⟩
  have hout : x ∉ (s.tree n).preorder := by
    rw [h.mem_preorder, not_or]
    exact ⟨hne, habove⟩
  have hslot := (h₂.frame x (by rw [Has, h₁.size]; exact hx)
    (fun hm => hout (hperm.mem_iff.mp hm))).1
  exact hslot.trans (h₁.frame x hout fun m hm hxm => habove (hbelow m hm x hxm))

end

theorem Links.simplify_run (h : s.Links kids) (known : WellKnown) (hn : s.Has n)
    (ht : (s.tree n).WellShaped) : ∃ t trace s', (s.tree n).simplify known = .ok (t, trace) ∧
      s.simplify known n = .ok (s', 0 < trace.changes) ∧
      Reduces known ((s.tree n).map some) t trace.detached ∧ Regrown s n t s' := by
  obtain ⟨t, trace, hrun, hred⟩ := simplify_total known (wellShaped_map.mpr ht)
  have hmark : t.mark = some n := by
    rw [hred.mark_eq, h.tree_eq, map_node, mark_node]
  have hperm : (marksAll (t :: trace.detached)).Perm (s.tree n).preorder := by
    have hmarks := hred.marks (wellShaped_map.mpr ht)
    rw [marks_map, filterMap_some] at hmarks
    rw [marksAll_cons]
    exact hmarks
  refine ⟨t, trace, s.regrow n t trace.detached, hrun, ?_, hred, h.regrown hmark hperm hn⟩
  rw [simplify, hrun]
  rfl

theorem Links.simplify_eq_ok (h : s.Links kids) (known : WellKnown) (hn : s.Has n)
    (ht : (s.tree n).WellShaped) : ∃ t detached s' changed, s.simplify known n = .ok (s', changed) ∧
      Reduces known ((s.tree n).map some) t detached ∧ Regrown s n t s' := by
  obtain ⟨t, trace, s', -, hrun, hred, hgrown⟩ := h.simplify_run known hn ht
  exact ⟨t, trace.detached, s', _, hrun, hred, hgrown⟩

def guardedCall : Store :=
  (Store.empty.grow (.node () .block
    [.node () .ifElse
      [.node () (.identifier ⟨0⟩) [],
        .node () .expression [.node () .call [.node () (.identifier ⟨1⟩) []]], .node () .empty []],
      .node () .debugger []])).2

theorem consistent_guardedCall : guardedCall.Consistent := Consistent.grow ⟨_, Links.empty⟩ _

end Store

end ScriptPress

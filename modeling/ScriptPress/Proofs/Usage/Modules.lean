import ScriptPress.Proofs.Usage.Inline

/-! # Modules in a store -/

namespace ScriptPress

open List

namespace Tree

variable {α : Type}

theorem WellShaped.kind_ne_module {m : α} {k : Kind} {cs : List (Tree α)} {c : Tree α}
    (h : (node m k cs).WellShaped) (hc : c ∈ cs) : c.kind ≠ .module := by
  have hmem : c.kind ∈ cs.map kind := mem_map_of_mem hc
  have hcheck := (wellShaped_node.mp h).1
  intro hmodule
  rw [hmodule] at hmem
  rcases k.places_cases with ⟨places, hp⟩ | ⟨fits, hp⟩ | hk | ⟨s, rfl⟩
  · rw [Kind.checkChildren_of_places hp] at hcheck
    obtain ⟨fits, hfits, hm⟩ : ∃ fits ∈ places, fits .module := by
      obtain ⟨i, hi, heq⟩ := mem_iff_getElem.mp hmem
      have hlength := hcheck.length_eq
      refine ⟨places[i], getElem_mem _, ?_⟩
      have hget := forall₂_iff_get.mp hcheck |>.2 i hi (hlength ▸ hi)
      rw [get_eq_getElem, get_eq_getElem, heq] at hget
      exact hget
    revert fits
    cases k <;> cases hp <;> decide
  · rw [Kind.checkChildren_of_element hp] at hcheck
    have hm := hcheck _ hmem
    cases k <;> cases hp <;> cases hm
  · rw [Kind.checkChildren_call hk] at hcheck
    cases hcheck.2 _ hmem
  · rw [Kind.checkChildren_function] at hcheck
    obtain ⟨rest, heq, hrest⟩ := hcheck
    rw [heq] at hmem
    rcases mem_cons.mp hmem with hm | hm
    · cases hm
    · cases hrest _ hm

end Tree

namespace Store

variable {s s' : Store} {kids : NodeId → List NodeId} {roots : List NodeId} {n m y : NodeId}
  {x : SymbolId} {a : Access}

open Tree (usesAll subtreesAll)
open Usages (marksOf usageOf)

structure Modules (s : Store) (roots : List NodeId) : Prop where
  nodup : roots.Nodup
  kind : ∀ n ∈ roots, s.kind n = .module
  shaped : ∀ n ∈ roots, (s.tree n).WellShaped

/-- Different modules in a forest, and each of them verifies. -/
structure Verified (s : Store) (roots : List NodeId) : Prop where
  consistent : s.Consistent
  nodup : roots.Nodup
  kind : ∀ n ∈ roots, s.kind n = .module
  verify : ∀ n ∈ roots, s.verify n = .ok ()

theorem Verified.modules (h : s.Verified roots) : s.Modules roots := by
  obtain ⟨kids, hlinks⟩ := h.consistent
  exact ⟨h.nodup, h.kind, fun n hn => hlinks.verify_eq_ok.mp (h.verify n hn)⟩

theorem Modules.verified (hr : s.Modules roots) (hs : s.Consistent) : s.Verified roots := by
  obtain ⟨kids, h⟩ := hs
  exact ⟨⟨kids, h⟩, hr.nodup, hr.kind, fun n hn => h.verify_eq_ok.mpr (hr.shaped n hn)⟩

def nodesOf (s : Store) (roots : List NodeId) : List NodeId :=
  roots.flatMap fun n => (s.tree n).preorder

theorem mem_nodesOf : y ∈ s.nodesOf roots ↔ ∃ n ∈ roots, y ∈ (s.tree n).preorder :=
  mem_flatMap

namespace Links

variable (h : s.Links kids)

include h

theorem mem_preorder_of_parent {p : NodeId} (hp : s.parent? y = some p)
    (hmem : p ∈ (s.tree n).preorder) : y ∈ (s.tree n).preorder := by
  rw [h.mem_preorder] at hmem ⊢
  rcases hmem with rfl | hmem
  · exact .inr (.single hp)
  · exact .inr (.head hp hmem)

theorem exists_parent (hy : y ∈ (s.tree n).preorder) (hne : y ≠ n) :
    ∃ p ∈ (s.tree n).preorder, s.parent? y = some p := by
  have habove := ((h.mem_preorder n y).mp hy).resolve_left hne
  obtain ⟨p, hp, hrest⟩ := Relation.TransGen.head'_iff.mp habove
  refine ⟨p, (h.mem_preorder n p).mpr ?_, hp⟩
  exact (Relation.reflTransGen_iff_eq_or_transGen.mp hrest).imp_left Eq.symm

theorem wellShaped_of_mem (hn : (s.tree n).WellShaped) (hy : y ∈ (s.tree n).preorder) :
    (s.tree y).WellShaped :=
  hn.subtree ((h.mem_subtrees n _).mpr ⟨y, hy, rfl⟩)

theorem kind_ne_module {p : NodeId} (hp : (s.tree p).WellShaped) (hy : y ∈ kids p) :
    s.kind y ≠ .module := by
  rw [h.tree_eq, h.children_eq] at hp
  rw [← h.kind_tree]
  exact hp.kind_ne_module (mem_map_of_mem hy)

theorem not_mem_preorder_module (hr : s.Modules roots) (hn : n ∈ roots) (hm : m ∈ roots)
    (hne : m ≠ n) : m ∉ (s.tree n).preorder := by
  intro hmem
  obtain ⟨p, hp, hparent⟩ := h.exists_parent hmem hne
  exact h.kind_ne_module (h.wellShaped_of_mem (hr.shaped n hn) hp) ((h.parent m p).mp hparent)
    (hr.kind m hm)

theorem modules_disjoint (hr : s.Modules roots) (hn : n ∈ roots) (hm : m ∈ roots) (hne : n ≠ m)
    (hyn : y ∈ (s.tree n).preorder) : y ∉ (s.tree m).preorder := by
  intro hym
  -- Of two nodes above `y`, one is above the other.
  have hup : ∀ {n : NodeId}, y ∈ (s.tree n).preorder →
      Relation.ReflTransGen (fun c p => s.parent? c = some p) y n := by
    intro n hy
    rw [h.mem_preorder] at hy
    exact Relation.reflTransGen_iff_eq_or_transGen.mpr (hy.imp_left Eq.symm)
  have hunique : Relator.RightUnique fun c p => s.parent? c = some p := by
    intro c p q hp hq
    exact Option.some.inj (hp.symm.trans hq)
  rcases Relation.ReflTransGen.total_of_right_unique hunique (hup hyn) (hup hym) with hnm | hmn
  · refine h.not_mem_preorder_module hr hm hn hne ((h.mem_preorder m n).mpr ?_)
    exact (Relation.reflTransGen_iff_eq_or_transGen.mp hnm).imp_left Eq.symm
  · refine h.not_mem_preorder_module hr hn hm (Ne.symm hne) ((h.mem_preorder n m).mpr ?_)
    exact (Relation.reflTransGen_iff_eq_or_transGen.mp hmn).imp_left Eq.symm

theorem nodup_nodesOf (hr : s.Modules roots) : (s.nodesOf roots).Nodup := by
  refine nodup_flatMap.mpr ⟨fun n _ => h.nodup_preorder n, hr.nodup.imp_of_mem ?_⟩
  intro n m hn hm hne y hyn hym
  exact h.modules_disjoint hr hn hm hne hyn hym

theorem mem_subtreesAll {u : Tree NodeId} :
    u ∈ subtreesAll (roots.map s.tree) ↔ ∃ y ∈ s.nodesOf roots, u = s.tree y := by
  simp only [Tree.mem_subtreesAll, mem_map, exists_exists_and_eq_and, h.mem_subtrees, mem_nodesOf]
  constructor
  · rintro ⟨n, hn, y, hy, rfl⟩
    exact ⟨y, ⟨n, hn, hy⟩, rfl⟩
  · rintro ⟨y, ⟨n, hn, hy⟩, rfl⟩
    exact ⟨n, hn, y, hy, rfl⟩

variable (hr : s.Modules roots)

include hr

theorem nodup_marks : ((usesAll (roots.map s.tree)).map Occurrence.mark).Nodup := by
  refine Tree.nodup_marks_usesAll (forall_mem_map.mpr hr.shaped) ?_
  rw [flatMap_map]
  exact h.nodup_nodesOf hr

theorem shaped_of_mem (hy : y ∈ s.nodesOf roots) : (s.tree y).WellShaped := by
  obtain ⟨n, hn, hy⟩ := mem_nodesOf.mp hy
  exact h.wellShaped_of_mem (hr.shaped n hn) hy

theorem node_of_mem_marksOf (hy : y ∈ marksOf (usesAll (roots.map s.tree)) x a) :
    y ∈ s.nodesOf roots ∧ (s.kind y).mentioned? = some x ∧
      ((s.kind y).isVariable → a = .write) := by
  rw [Usages.mem_marksOf, Tree.usesAll_eq, mem_flatMap] at hy
  obtain ⟨t, ht, hy⟩ := hy
  obtain ⟨u, hu, hmark, hspec⟩ := Tree.node_of_mem_uses (forall_mem_map.mpr hr.shaped t ht) hy
  obtain ⟨z, hz, rfl⟩ := h.mem_subtreesAll.mp (Tree.mem_subtreesAll.mpr ⟨t, ht, hu⟩)
  rw [h.mark_tree] at hmark
  rw [h.kind_tree] at hspec
  subst hmark
  exact ⟨hz, hspec⟩

theorem mem_marksOf_of_node (hy : y ∈ s.nodesOf roots) (hx : (s.kind y).mentioned? = some x) :
    ∃ a, y ∈ marksOf (usesAll (roots.map s.tree)) x a := by
  obtain ⟨n, hn, hy⟩ := mem_nodesOf.mp hy
  have hu := (h.mem_subtrees n _).mpr ⟨y, hy, rfl⟩
  obtain ⟨a, ha⟩ := Tree.mem_uses_of_node (hr.shaped n hn) hu (by rw [h.kind_tree]; exact hx) false
  rw [h.mark_tree] at ha
  refine ⟨a, Usages.mem_marksOf.mpr ?_⟩
  rw [Tree.usesAll_eq]
  exact mem_flatMap.mpr ⟨_, mem_map_of_mem hn, ha⟩

theorem mem_writes_of_variable (hy : y ∈ s.nodesOf roots) (hx : s.kind y = .variable x) :
    y ∈ marksOf (usesAll (roots.map s.tree)) x .write := by
  obtain ⟨a, ha⟩ := h.mem_marksOf_of_node hr hy (by rw [hx]; rfl)
  obtain ⟨-, -, hwrite⟩ := h.node_of_mem_marksOf hr ha
  rwa [← hwrite (by rw [hx]; rfl)]

theorem nodup_marksOf : (marksOf (usesAll (roots.map s.tree)) x a).Nodup :=
  ((filter_sublist).map _).nodup (h.nodup_marks hr)

end Links

structure Keeps (s : Store) (roots : List NodeId) (s' : Store) : Prop where
  consistent : s'.Consistent
  size : s.size ≤ s'.size
  symbols : s'.symbols = s.symbols
  modules : s'.Modules roots
  detached : ∀ n ∈ roots, s.parent? n = none → s'.parent? n = none

theorem Keeps.trans {s₁ : Store} (h : Keeps s roots s₁) (h' : Keeps s₁ roots s') :
    Keeps s roots s' :=
  ⟨h'.consistent, Nat.le_trans h.size h'.size, h'.symbols.trans h.symbols, h'.modules,
    fun n hn hroot => h'.detached n hn (h.detached n hn hroot)⟩

theorem Keeps.verified (h : Keeps s roots s') : s'.Verified roots := h.modules.verified h.consistent

end Store

end ScriptPress

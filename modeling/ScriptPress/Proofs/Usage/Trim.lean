import ScriptPress.Proofs.Usage.Modules

/-! # What inlining may change -/

namespace ScriptPress

open List

theorem Kind.mentioned?_of_isLiteral {k : Kind} (h : k.isLiteral) : k.mentioned? = none := by
  cases k <;> first | rfl | cases h

namespace Store

variable {s s₁ s' : Store} {kids kids' : NodeId → List NodeId} {roots : List NodeId}
  {n y : NodeId} {x : SymbolId}

open Tree (usesAll)
open Usages (marksOf)

/-- In modules, names have become literals, declarations have been taken out of `var` lists, and
lists without any left are empty statements. All other nodes are what and where they were. Nothing
mentions a symbol whose declaration is gone. -/
structure Trims (s : Store) (roots : List NodeId) (s' : Store) : Prop where
  kind : ∀ y, s'.kind y = s.kind y ∨ y ∈ s.nodesOf roots ∧
    ((∃ x, s.kind y = .identifier x ∧ (s'.kind y).isLiteral) ∨
      (s.kind y = .varStatement ∧ s'.kind y = .empty ∧ s'.children y = []))
  parent : ∀ y, s'.parent? y = s.parent? y ∨ y ∈ s.nodesOf roots ∧
    (s.kind y).isVariable ∧ s'.parent? y = none
  children : ∀ p, s'.children p = (s.children p).filter fun c => s'.parent? c = some p
  gone : ∀ y x, s.kind y = .variable x → s'.parent? y ≠ s.parent? y →
    ∀ z ∈ s'.nodesOf roots, (s'.kind z).mentioned? ≠ some x

namespace Trims

variable (h : Trims s roots s')

include h

theorem parent_of_some {p : NodeId} (hp : s'.parent? y = some p) : s.parent? y = some p := by
  rcases h.parent y with heq | ⟨-, -, hnone⟩
  · rw [← heq, hp]
  · rw [hnone] at hp
    cases hp

theorem mem_nodesOf (hs : s.Links kids) (hs' : s'.Links kids') (hy : y ∈ s'.nodesOf roots) :
    y ∈ s.nodesOf roots := by
  obtain ⟨n, hn, hy⟩ := Store.mem_nodesOf.mp hy
  refine Store.mem_nodesOf.mpr ⟨n, hn, ?_⟩
  rw [hs'.mem_preorder] at hy
  rw [hs.mem_preorder]
  exact hy.imp_right (Relation.TransGen.mono (fun _ _ hp => h.parent_of_some hp) _ _)

theorem mentioned (hx : (s'.kind y).mentioned? = some x) : s'.kind y = s.kind y := by
  rcases h.kind y with heq | ⟨-, ⟨z, -, hliteral⟩ | ⟨-, hempty, -⟩⟩
  · exact heq
  · rw [Kind.mentioned?_of_isLiteral hliteral] at hx
    cases hx
  · rw [hempty] at hx
    cases hx

theorem kind_of_isVariable (hy : (s.kind y).isVariable) : s'.kind y = s.kind y := by
  rcases h.kind y with heq | ⟨-, ⟨z, hz, -⟩ | ⟨hz, -⟩⟩
  · exact heq
  · rw [hz] at hy
    cases hy
  · rw [hz] at hy
    cases hy

end Trims

theorem Trims.refl (h : s.Links kids) (roots : List NodeId) : Trims s roots s where
  kind y := .inl rfl
  parent y := .inl rfl
  children p := by
    rw [eq_comm, filter_eq_self, h.children_eq]
    exact fun c hc => decide_eq_true ((h.parent c p).mpr hc)
  gone y x _ hne := absurd rfl hne

theorem Trims.trans (hs : s.Links kids) (hs₁ : s₁.Links kids') (h : Trims s roots s₁)
    (hs' : s'.Consistent) (h' : Trims s₁ roots s') : Trims s roots s' := by
  obtain ⟨kids'', hs'⟩ := hs'
  refine ⟨fun y => ?_, fun y => ?_, fun p => ?_, fun y x hy hne z hz hx => ?_⟩
  · rcases h'.kind y with heq | ⟨hmem, hkind⟩
    · rcases h.kind y with heq₁ | ⟨hmem, hkind⟩
      · exact .inl (heq.trans heq₁)
      · refine .inr ⟨hmem, ?_⟩
        rw [heq]
        refine hkind.imp_right ?_
        rintro ⟨hlist, hempty, hnil⟩
        exact ⟨hlist, hempty, by rw [h'.children, hnil, filter_nil]⟩
    · -- Neither a name nor a list is what the first step has left behind.
      have heq₁ : s₁.kind y = s.kind y := by
        rcases h.kind y with heq₁ | ⟨-, ⟨z, -, hliteral⟩ | ⟨-, hempty, -⟩⟩
        · exact heq₁
        · rcases hkind with ⟨x, hx, -⟩ | ⟨hx, -⟩ <;> rw [hx] at hliteral <;> cases hliteral
        · rcases hkind with ⟨x, hx, -⟩ | ⟨hx, -⟩ <;> rw [hx] at hempty <;> cases hempty
      rw [heq₁] at hkind
      exact .inr ⟨h.mem_nodesOf hs hs₁ hmem, hkind⟩
  · rcases h'.parent y with heq | ⟨hmem, hvariable, hnone⟩
    · rw [heq]
      exact h.parent y
    · refine .inr ⟨h.mem_nodesOf hs hs₁ hmem, ?_, hnone⟩
      have hmention : ∃ x, (s₁.kind y).mentioned? = some x := by
        cases hk : s₁.kind y <;> rw [hk] at hvariable <;> cases hvariable
        exact ⟨_, rfl⟩
      obtain ⟨x, hx⟩ := hmention
      rwa [← h.mentioned hx]
  · rw [h'.children, h.children, filter_filter]
    refine filter_congr fun c _ => ?_
    rw [Bool.eq_iff_iff, Bool.and_eq_true, decide_eq_true_eq, decide_eq_true_eq]
    exact and_iff_left_of_imp h'.parent_of_some
  · have hkind : s₁.kind y = .variable x := by
      rw [h.kind_of_isVariable (by rw [hy]; rfl), hy]
    by_cases heq : s'.parent? y = s₁.parent? y
    · rw [h'.mentioned hx] at hx
      exact h.gone y x hy (heq ▸ hne) z (h'.mem_nodesOf hs₁ hs' hz) hx
    · exact h'.gone y x hkind heq z hz hx

theorem Links.mem_marks (h : s.Links kids) (hr : s.Modules roots) :
    y ∈ (usesAll (roots.map s.tree)).map Occurrence.mark ↔
      y ∈ s.nodesOf roots ∧ ∃ x, (s.kind y).mentioned? = some x := by
  constructor
  · intro hy
    obtain ⟨⟨x, a, y⟩, ho, rfl⟩ := mem_map.mp hy
    obtain ⟨hnode, hx, -⟩ := h.node_of_mem_marksOf hr (Usages.mem_marksOf.mpr ho)
    exact ⟨hnode, x, hx⟩
  · rintro ⟨hy, x, hx⟩
    obtain ⟨a, ha⟩ := h.mem_marksOf_of_node hr hy hx
    exact mem_map.mpr ⟨_, Usages.mem_marksOf.mp ha, rfl⟩

namespace Trims

variable (h : Trims s roots s') (hs : s.Links kids) (hr : s.Modules roots) (hs' : s'.Links kids')
  (hr' : s'.Modules roots)

include h hs hr hs' hr'

theorem marks_subset : (usesAll (roots.map s'.tree)).map Occurrence.mark ⊆
    (usesAll (roots.map s.tree)).map Occurrence.mark := by
  intro y hy
  obtain ⟨hnode, x, hx⟩ := (hs'.mem_marks hr').mp hy
  refine (hs.mem_marks hr).mpr ⟨h.mem_nodesOf hs hs' hnode, x, ?_⟩
  rwa [← h.mentioned hx]

theorem length_usesAll_le :
    (usesAll (roots.map s'.tree)).length ≤ (usesAll (roots.map s.tree)).length := by
  have hle := ((hs'.nodup_marks hr').subperm (h.marks_subset hs hr hs' hr')).length_le
  rwa [length_map, length_map] at hle

theorem length_usesAll_lt (hy : y ∈ s.nodesOf roots) (hx : (s.kind y).mentioned? = some x)
    (hgone : y ∈ s'.nodesOf roots → (s'.kind y).mentioned? = none) :
    (usesAll (roots.map s'.tree)).length < (usesAll (roots.map s.tree)).length := by
  have hnot : y ∉ (usesAll (roots.map s'.tree)).map Occurrence.mark := by
    intro hmem
    obtain ⟨hnode, z, hz⟩ := (hs'.mem_marks hr').mp hmem
    rw [hgone hnode] at hz
    cases hz
  have hmem := (hs.mem_marks hr).mpr ⟨hy, x, hx⟩
  have hle := ((nodup_cons.mpr ⟨hnot, hs'.nodup_marks hr'⟩).subperm
    (cons_subset.mpr ⟨hmem, h.marks_subset hs hr hs' hr'⟩)).length_le
  rwa [length_cons, length_map, length_map] at hle

end Trims

theorem Links.parent_congr (h : s.Links kids) (h' : s'.Links kids) : s'.parent? = s.parent? := by
  funext c
  refine Option.ext fun p => ?_
  rw [h.parent, h'.parent]

theorem Links.trims_of_kind (h : s.Links kids) (h' : s'.Links kids)
    (hkind : ∀ y, s'.kind y = s.kind y ∨ y ∈ s.nodesOf roots ∧
      ∃ x, s.kind y = .identifier x ∧ (s'.kind y).isLiteral) : Trims s roots s' where
  kind y := (hkind y).imp_right fun hy => ⟨hy.1, .inl hy.2⟩
  parent y := .inl (by rw [h.parent_congr h'])
  children p := by
    rw [h.parent_congr h', ← (Trims.refl h roots).children, h.children_eq, h'.children_eq]
  gone y x _ hne := absurd (by rw [h.parent_congr h']) hne

theorem Links.trims_drop (h : s.Links kids) {list d : NodeId} (hparent : s.parent? d = some list)
    (hlist : s.kind list = .varStatement) (hmem : list ∈ s.nodesOf roots)
    (hd : s.kind d = .variable x) (hroot : d ∉ roots)
    (hgone : ∀ z ∈ s.nodesOf roots, z ≠ d → (s.kind z).mentioned? ≠ some x) :
    Trims s roots (s.dropDeclaration list d) := by
  obtain ⟨l, r, hkids⟩ := append_of_mem ((h.parent d list).mp hparent)
  obtain ⟨hlinks, hkind, -, -⟩ := h.dropDeclaration_eq hkids
  have hleft : ∀ y p, (s.dropDeclaration list d).parent? y = some p ↔
      y ≠ d ∧ s.parent? y = some p := by
    intro y p
    rw [hlinks.parent, h.parent, h.mem_erase hkids]
  have hother : ∀ y ≠ d, (s.dropDeclaration list d).parent? y = s.parent? y := by
    intro y hy
    refine Option.ext fun p => ?_
    rw [hleft, and_iff_right hy]
  have hchange : ∀ y, (s.dropDeclaration list d).kind y = s.kind y ∨
      y = list ∧ l ++ r = [] ∧ (s.dropDeclaration list d).kind y = .empty := by
    intro y
    rw [hkind]
    split
    · rename_i hnil
      by_cases hy : y = list
      · subst hy
        exact .inr ⟨rfl, hnil, Function.update_self ..⟩
      · exact .inl (Function.update_of_ne hy ..)
    · exact .inl rfl
  have hnodes : ∀ z ∈ (s.dropDeclaration list d).nodesOf roots, z ∈ s.nodesOf roots ∧ z ≠ d := by
    intro z hz
    obtain ⟨n, hn, hz⟩ := mem_nodesOf.mp hz
    rw [hlinks.mem_preorder] at hz
    have habove := hz.imp_right (Relation.TransGen.mono (fun y p hp => ((hleft y p).mp hp).2) _ _)
    refine ⟨mem_nodesOf.mpr ⟨n, hn, (h.mem_preorder n z).mpr habove⟩, ?_⟩
    rintro rfl
    rcases hz with rfl | hz
    · exact hroot hn
    · obtain ⟨p, hp, -⟩ := Relation.TransGen.head'_iff.mp hz
      exact ((hleft z p).mp hp).1 rfl
  refine ⟨fun y => ?_, fun y => ?_, fun p => ?_, fun y z hy hne => ?_⟩
  · refine (hchange y).imp_right ?_
    rintro ⟨rfl, hnil, hempty⟩
    refine ⟨hmem, .inr ⟨hlist, hempty, ?_⟩⟩
    rw [hlinks.children_eq, Function.update_self, hnil]
  · by_cases hy : y = d
    · subst hy
      obtain ⟨n, hn, hlistn⟩ := mem_nodesOf.mp hmem
      refine .inr ⟨mem_nodesOf.mpr ⟨n, hn, h.mem_preorder_of_parent hparent hlistn⟩, ?_, ?_⟩
      · rw [hd]
        rfl
      · exact Option.eq_none_iff_forall_ne_some.mpr fun p hp => ((hleft y p).mp hp).1 rfl
    · exact .inl (hother y hy)
  · rw [hlinks.children_eq, h.children_eq]
    by_cases hp : p = list
    · subst hp
      have hself : ∀ c ∈ l ++ r, (s.dropDeclaration p d).parent? c = some p := fun c hc =>
        (hlinks.parent c p).mpr (by rw [Function.update_self]; exact hc)
      rw [forall_mem_append] at hself
      rw [Function.update_self, hkids, filter_append, filter_cons_of_neg (by simp [hleft]),
        filter_eq_self.mpr fun c hc => decide_eq_true (hself.1 c hc),
        filter_eq_self.mpr fun c hc => decide_eq_true (hself.2 c hc)]
    · rw [Function.update_of_ne hp, eq_comm, filter_eq_self]
      intro c hc
      have hcp := (h.parent c p).mpr hc
      refine decide_eq_true ((hleft c p).mpr ⟨?_, hcp⟩)
      rintro rfl
      exact hp (Option.some.inj (hcp.symm.trans hparent))
  · by_cases heq : y = d
    · subst heq
      obtain rfl := Kind.variable.inj (hd.symm.trans hy)
      intro z hz hx
      obtain ⟨hmem, hne⟩ := hnodes z hz
      rcases hchange z with heq | ⟨-, -, hempty⟩
      · exact hgone z hmem hne (heq ▸ hx)
      · rw [hempty] at hx
        cases hx
    · exact absurd (hother y heq) hne

end Store

end ScriptPress

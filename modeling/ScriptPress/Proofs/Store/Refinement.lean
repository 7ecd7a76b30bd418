import ScriptPress.Proofs.Store.History
import ScriptPress.Proofs.Store.Specification
import ScriptPress.Proofs.Store.Subtree

/-! # Stores refine forests -/

namespace ScriptPress.Store

open Tree List Forest

variable {s s' s₁ : Store} {F F' : Forest} {n p c x y : NodeId} {cs : List NodeId}
  {position : Option NodeId} {α : Type}

/-! ## The forest in a store -/

def forest (s : Store) : Forest := ⟨s.kind, s.parent?, s.children⟩

/-- The links of the store are those of the forest. -/
structure Represents (s : Store) (F : Forest) : Prop where
  links : s.Links F.children
  kind : s.kind = F.kind
  parent : s.parent? = F.parent

theorem Consistent.represents (h : s.Consistent) : s.Represents s.forest := by
  obtain ⟨kids, hlinks⟩ := h
  refine ⟨?_, rfl, rfl⟩
  rw [forest, hlinks.children_eq]
  exact hlinks

namespace Represents

theorem mem_children (h : s.Represents F) : c ∈ F.children p ↔ F.parent c = some p := by
  rw [← h.parent]
  exact (h.links.parent c p).symm

theorem eq_of_mem (h : s.Represents F) (hp : F.parent n = some p) {q : NodeId}
    (hq : n ∈ F.children q) : q = p := by
  rw [h.mem_children, hp, Option.some.injEq] at hq
  exact hq.symm

theorem splice_eq (h : s.Represents F) {l r : List NodeId} (hlist : F.children p = l ++ n :: r)
    (new : List NodeId) : (fun q => splice n new (F.children q)) =
      Function.update F.children p (l ++ new ++ r) := by
  have hnodup := h.links.nodup p
  rw [hlist, perm_middle.nodup_iff, nodup_cons, mem_append, not_or] at hnodup
  funext q
  by_cases hq : q = p
  · subst hq
    rw [Function.update_self, hlist, splice_middle hnodup.1.1 hnodup.1.2]
  · have hnot : n ∉ F.children q := fun hmem =>
      hq (h.links.unique (by rw [hlist]; simp) hmem)
    rw [Function.update_of_ne hq, splice_of_not_mem hnot]

end Represents

theorem parent?_foldl_detach (cs : List NodeId) (s : Store) (m : NodeId) :
    (cs.foldl detach s).parent? m = if m ∈ cs then none else s.parent? m := by
  induction cs generalizing s with
  | nil => simp
  | cons c cs ih =>
    rw [foldl_cons, ih, parent?_detach]
    by_cases hm : m ∈ cs <;> by_cases hc : m = c <;> simp [hm, hc]

theorem kind_foldl_detach (cs : List NodeId) (s : Store) (m : NodeId) :
    (cs.foldl detach s).kind m = s.kind m := by
  induction cs generalizing s with
  | nil => rfl
  | cons c cs ih => rw [foldl_cons, ih, kind_detach]

/-- `s` has become `s'`, which holds the forest `F`. No node or symbol was added. -/
structure Edited (s s' : Store) (F : Forest) : Prop extends s'.Represents F where
  size : s'.size = s.size
  symbols : s'.symbols = s.symbols

theorem Edited.trans (h : Edited s s₁ F) (h' : Edited s₁ s' F') : Edited s s' F' :=
  ⟨h'.toRepresents, h'.size.trans h.size, h'.symbols.trans h.symbols⟩

theorem Edited.has (h : Edited s s' F) (hn : s.Has n) : s'.Has n := by
  rw [Has, h.size]
  exact hn

namespace Represents

variable {target source : NodeId}

/-! ## Simple edits -/

section

variable (h : s.Represents F)
include h

protected theorem setKind (hn : s.Has n) (k : Kind) : Edited s (s.setKind n k) (F.setKind n k) := by
  refine ⟨⟨h.links.setKind n k, funext fun c => ?_, ?_⟩, size_modify _ _ _, rfl⟩
  · change _ = if c = n then k else F.kind c
    by_cases hc : c = n
    · subst hc
      rw [if_pos rfl, kind_setKind hn]
    · rw [if_neg hc, ← h.kind]
      exact kind_of_slot (slot?_setKind hc)
  · rw [Forest.setKind, ← h.parent]
    exact funext (link_setKind (fun _ => rfl) n)

protected theorem detach (n : NodeId) : Edited s (s.detach n) (F.remove n) := by
  refine ⟨⟨?_, funext fun c => ?_, funext fun c => ?_⟩, size_detach n, symbols_detach n⟩
  · cases hp : s.parent? n with
    | none =>
      have hsame : (F.remove n).children = F.children := by
        funext q
        exact splice_of_not_mem (h.links.not_mem hp)
      rw [hsame]
      exact h.links.detach_root hp
    | some p =>
      obtain ⟨l, r, hlist⟩ := append_of_mem ((h.links.parent n p).mp hp)
      rw [remove, h.splice_eq hlist, append_nil]
      exact h.links.detach hlist
  · rw [kind_detach, h.kind]
    rfl
  · rw [parent?_detach, h.parent]
    rfl

protected theorem detachChildren (n : NodeId) : Edited s (s.detachChildren n) (F.release n) := by
  have hcleared := h.links.cleared_foldl n
  have hlists : Function.update F.children n [] = (F.release n).children := by
    funext q
    by_cases hq : q = n <;> simp [release, hq]
  rw [hlists] at hcleared
  rw [detachChildren, h.links.children_eq]
  refine ⟨⟨hcleared.links, funext fun c => ?_, funext fun c => ?_⟩, hcleared.size, hcleared.symbols⟩
  · rw [kind_foldl_detach, h.kind]
    rfl
  · rw [parent?_foldl_detach, h.parent]
    rfl

theorem insert_apart (hs : s.insert p c position = .ok s') : p ∉ (s.tree c).preorder := by
  obtain ⟨hne, -, habove, -⟩ := insert_eq_ok hs
  rw [h.links.mem_preorder, not_or, ← h.links.mem_ancestors]
  exact ⟨Ne.symm hne, by simpa [isAncestor] using habove⟩

protected theorem insert (hp : s.Has p) (hc : s.Has c) (hs : s.insert p c position = .ok s') :
    Edited s s' (F.insert p [c] position) := by
  have hapart := h.insert_apart hs
  rw [h.links.mem_preorder, not_or] at hapart
  obtain ⟨hne, hroot, -, hposition, rfl⟩ := insert_eq_ok hs
  obtain ⟨l, r, hlist, rfl⟩ := h.links.split_position hposition
  have hlinks := h.links.attach hp hc hroot hlist hne hapart.2
  have hlists : Function.update F.children p (l ++ c :: r) = (F.insert p [c] r.head?).children := by
    cases r with
    | nil =>
      rw [append_nil] at hlist
      funext q
      by_cases hq : q = p <;> simp [Forest.insert, hq, hlist]
    | cons b r =>
      have hsplice := congrFun (h.splice_eq hlist [c, b]) p
      funext q
      by_cases hq : q = p
      · subst hq
        rw [Function.update_self] at hsplice ⊢
        simp [Forest.insert, hsplice]
      · simp [Forest.insert, hq]
  rw [hlists] at hlinks
  refine ⟨⟨hlinks, funext fun m => ?_, funext fun m => ?_⟩, size_attach, symbols_attach⟩
  · rw [kind_attach, h.kind]
    rfl
  · rw [parent?_attach hc, h.parent]
    simp [Forest.insert]

protected theorem insertAll (hp : s.Has p) (hcs : ∀ c ∈ cs, s.Has c)
    (hs : cs.foldlM (fun s c => s.insert p c position) s = .ok s') :
    Edited s s' (F.insert p cs position) := by
  induction cs generalizing s F with
  | nil =>
    cases hs
    rw [insert_nil]
    exact ⟨h, rfl, rfl⟩
  | cons c cs ih =>
    rw [forall_mem_cons] at hcs
    rw [foldlM_cons] at hs
    cases hc : s.insert p c position with
    | error e =>
      rw [hc] at hs
      cases hs
    | ok s₁ =>
      rw [hc] at hs
      have hposition : position ≠ some c := by
        obtain ⟨-, hroot, -, hposition, -⟩ := insert_eq_ok hc
        intro heq
        have hparent := hposition c heq
        rw [hroot] at hparent
        cases hparent
      have hfirst := h.insert hp hcs.1 hc
      have hrest := ih hfirst.toRepresents (hfirst.has hp)
        (fun c hc => hfirst.has (hcs.2 c hc)) hs
      rw [insert_cons hposition] at hrest
      exact hfirst.trans hrest

/-! ## Edits made of several steps -/

protected theorem moveChildren (htarget : s.Has target)
    (hs : s.moveChildren target source = .ok s') : Edited s s' (F.moveChildren target source) := by
  have hreleased := h.detachChildren source
  rw [Store.moveChildren, takeChildren, h.links.children_eq] at hs
  have hmoved := hreleased.insertAll (hreleased.has htarget)
    (fun c hc => hreleased.has (h.links.has hc)) hs
  rw [insert_release] at hmoved
  exact hreleased.trans hmoved

protected theorem replace {old new : NodeId} (hnew : s.Has new) (hs : s.replace old new = .ok s') :
    Edited s s' (F.replace old new) := by
  obtain ⟨p, hp, s₁, hi, rfl⟩ := replace_eq_ok hs
  have hold : old ≠ new := by
    rintro rfl
    obtain ⟨-, hroot, -⟩ := insert_eq_ok hi
    rw [hroot] at hp
    cases hp
  have hinserted := h.insert (h.links.owner p old ((h.links.parent old p).mp hp)) hnew hi
  have hremoved := hinserted.detach old
  rw [h.parent] at hp
  rw [remove_insert hp hold fun q hq => h.eq_of_mem hp hq] at hremoved
  exact hinserted.trans hremoved

protected theorem dissolve (hs : s.dissolve n = .ok s') : Edited s s' (F.dissolve n) := by
  obtain ⟨p, hp, s₁, hi, rfl⟩ := dissolve_eq_ok hs
  have hmem := (h.links.parent n p).mp hp
  have hreleased := h.detachChildren n
  rw [h.links.children_eq] at hi
  have hinserted := hreleased.insertAll (hreleased.has (h.links.owner p n hmem))
    (fun c hc => hreleased.has (h.links.has hc)) hi
  have hne : n ≠ p := by
    rintro rfl
    exact h.links.not_mem_self n hmem
  have hremoved := hinserted.detach n
  rw [h.parent] at hp
  rw [remove_insert_release hp hne (h.links.not_mem_self n)
    fun q hq => h.eq_of_mem hp hq] at hremoved
  exact (hreleased.trans hinserted).trans hremoved

protected theorem transplant (htarget : s.Has target) (hsource : s.Has source)
    (hs : s.transplant target source = .ok s') : Edited s s' (F.transplant target source) := by
  obtain ⟨hne, -, -, hmove⟩ := transplant_eq_ok hs
  have hreleased := h.detachChildren target
  have hemptied := hreleased.trans (hreleased.setKind (hreleased.has hsource) .empty)
  have hset := hemptied.trans (hemptied.setKind (hemptied.has htarget) (s.kind source))
  have hmoved := hset.trans (hset.moveChildren (hset.has htarget) hmove)
  rw [h.kind, moveChildren_setKind hne] at hmoved
  exact hmoved

/-! ## Trees that come along -/

theorem tree_eq (h' : s'.Represents F') (hkinds : ∀ y ∈ (s.tree x).preorder, F'.kind y = F.kind y)
    (hlists : ∀ y ∈ (s.tree x).preorder, F'.children y = F.children y) : s'.tree x = s.tree x := by
  refine h.links.tree_congr h'.links (P := fun y => y ∈ (s.tree x).preorder) ?_
    (h.links.mem_preorder_self x)
  intro y hy
  refine ⟨by rw [h.kind, h'.kind, hkinds y hy], hlists y hy, fun c hc => ?_⟩
  rw [h.links.mem_preorder] at hy ⊢
  have hparent := (h.links.parent c y).mpr hc
  rcases hy with rfl | hy
  · exact .inr (.single hparent)
  · exact .inr (.head hparent hy)

theorem not_mem_below (hy : y ∈ (s.tree x).preorder) : x ∉ F.children y := by
  intro hx
  rw [h.links.mem_preorder] at hy
  rcases hy with rfl | hy
  · exact h.links.not_mem_self y hx
  · exact h.links.not_above_self x (.head ((h.links.parent x y).mpr hx) hy)

theorem tree_detach (n : NodeId) : (s.detach n).tree n = s.tree n :=
  h.tree_eq (h.detach n).toRepresents (fun _ _ => rfl) fun _ hy =>
    splice_of_not_mem (h.not_mem_below hy)

theorem tree_insert (hp : s.Has p) (hc : s.Has c) (hs : s.insert p c position = .ok s') :
    s'.tree c = s.tree c := by
  refine h.tree_eq (h.insert hp hc hs).toRepresents (fun _ _ => rfl) fun y hy => ?_
  have hyp : y ≠ p := fun heq => h.insert_apart hs (heq ▸ hy)
  exact if_neg hyp

theorem tree_replace {old new : NodeId} (hnew : s.Has new) (hs : s.replace old new = .ok s') :
    s'.tree old = s.tree old ∧ s'.tree new = s.tree new := by
  have h' := (h.replace hnew hs).toRepresents
  obtain ⟨p, hp, s₁, hi, -⟩ := replace_eq_ok hs
  refine ⟨h.tree_eq h' (fun _ _ => rfl) fun y hy => ?_,
    h.tree_eq h' (fun _ _ => rfl) fun y hy => ?_⟩
  · exact splice_of_not_mem (h.not_mem_below hy)
  · -- Only the list that `old` was in has changed, and that one is not in the tree of `new`.
    refine splice_of_not_mem fun hold => h.insert_apart hi ?_
    rw [h.parent] at hp
    rwa [← h.eq_of_mem hp hold]

theorem tree_dissolve (hs : s.dissolve n = .ok s') (hc : c ∈ F.children n) :
    s'.tree c = s.tree c := by
  refine h.tree_eq (h.dissolve hs).toRepresents (fun _ _ => rfl) fun y hy => ?_
  have hyn : y ≠ n := fun heq => h.not_mem_below hy (heq ▸ hc)
  have hny : n ∉ F.children y := h.not_mem_below (h.links.mem_preorder_child hc hy)
  show (if y = n then [] else splice n (F.children n) (F.children y)) = F.children y
  rw [if_neg hyn, splice_of_not_mem hny]

theorem moveChildren_apart (htarget : s.Has target) (hs : s.moveChildren target source = .ok s')
    (hc : c ∈ F.children source) : target ∉ (s.tree c).preorder := by
  have h' := (h.moveChildren htarget hs).toRepresents
  have hmem : c ∈ (F.moveChildren target source).children target := by
    simp [Forest.moveChildren, hc]
  -- Below `c` all parents are the old ones, so a way up to `c` is still there.
  have hparent : ∀ y, s.Above c y → s'.parent? y = s.parent? y := by
    intro y hy
    have hys : y ∉ F.children source := by
      intro hys
      have hsource : source ∈ (s.tree c).preorder := by
        rw [h.links.mem_preorder]
        obtain ⟨q, hq, hqc⟩ := Relation.TransGen.head'_iff.mp hy
        rw [(h.links.parent y source).mpr hys, Option.some.injEq] at hq
        subst hq
        exact Relation.reflTransGen_iff_eq_or_transGen.mp hqc |>.imp_left Eq.symm
      exact h.not_mem_below hsource hc
    rw [h'.parent, h.parent]
    exact if_neg hys
  have habove : ∀ y, s.Above c y → s'.Above c y := by
    intro y hy
    induction hy using Relation.TransGen.head_induction_on with
    | single hp => exact .single ((hparent _ (.single hp)).trans hp)
    | head hp hrest ih => exact .head ((hparent _ (.head hp hrest)).trans hp) ih
  rw [h.links.mem_preorder]
  rintro (rfl | hbelow)
  · exact h'.links.not_mem_self target hmem
  · exact h'.links.not_above_self c (.head ((h'.links.parent c target).mpr hmem) (habove _ hbelow))

theorem tree_moveChildren (htarget : s.Has target) (hs : s.moveChildren target source = .ok s')
    (hc : c ∈ F.children source) : s'.tree c = s.tree c := by
  refine h.tree_eq (h.moveChildren htarget hs).toRepresents (fun _ _ => rfl) fun y hy => ?_
  have hsource : y ≠ source := fun heq => h.not_mem_below hy (heq ▸ hc)
  have htarget : y ≠ target := fun heq => h.moveChildren_apart htarget hs hc (heq ▸ hy)
  simp [Forest.moveChildren, hsource, htarget]

theorem transplant_apart (hs : s.transplant target source = .ok s')
    (hc : c ∈ F.children target ∨ c ∈ F.children source) (hy : y ∈ (s.tree c).preorder) :
    y ≠ target ∧ y ≠ source := by
  obtain ⟨-, hroot, habove, -⟩ := transplant_eq_ok hs
  rcases hc with hc | hc
  · refine ⟨fun heq => h.not_mem_below hy (heq ▸ hc), ?_⟩
    rintro rfl
    rcases (h.links.mem_preorder c y).mp hy with rfl | hbelow
    · exact h.links.not_mem hroot hc
    · obtain ⟨q, hq, -⟩ := Relation.TransGen.head'_iff.mp hbelow
      rw [hroot] at hq
      cases hq
  · refine ⟨?_, fun heq => h.not_mem_below hy (heq ▸ hc)⟩
    rintro rfl
    have hbelow := h.links.mem_preorder_child hc hy
    rcases (h.links.mem_preorder source y).mp hbelow with rfl | hbelow
    · exact h.not_mem_below hy hc
    · rw [← h.links.mem_ancestors] at hbelow
      simp [isAncestor, hbelow] at habove

theorem tree_transplant_child (htarget : s.Has target) (hsource : s.Has source)
    (hs : s.transplant target source = .ok s')
    (hc : c ∈ F.children target ∨ c ∈ F.children source) : s'.tree c = s.tree c := by
  refine h.tree_eq (h.transplant htarget hsource hs).toRepresents (fun y hy => ?_) fun y hy => ?_
  · obtain ⟨htarget, hsource⟩ := h.transplant_apart hs hc hy
    simp [Forest.transplant, htarget, hsource]
  · obtain ⟨htarget, hsource⟩ := h.transplant_apart hs hc hy
    simp [Forest.transplant, htarget, hsource]

theorem tree_transplant (htarget : s.Has target) (hsource : s.Has source)
    (hs : s.transplant target source = .ok s') :
    s'.tree target = .node target (s.kind source) (s.tree source).children := by
  have h' := (h.transplant htarget hsource hs).toRepresents
  have hkind : s'.kind target = s.kind source := by
    rw [h'.kind, h.kind]
    exact if_pos rfl
  have hlist : (F.transplant target source).children target = F.children source := if_pos rfl
  rw [h'.links.tree_eq, h'.links.children_eq, hkind, hlist, h.links.children_tree]
  congr 1
  exact map_congr_left fun c hc => h.tree_transplant_child htarget hsource hs (.inr hc)

end

end Represents

/-! ## New trees -/

/-- The tree `t` has been added at `c`: it is a new root, and its nodes are all the nodes that were
added. -/
structure Added {α : Type} (s : Store) (t : Tree α) (c : NodeId) (s' : Store) : Prop where
  consistent : s'.Consistent
  root : s'.parent? c = none
  dump : (s'.tree c).bare = t.bare
  fresh : ∀ y, y ∈ (s'.tree c).preorder ↔ s'.Has y ∧ ¬s.Has y
  grown : s.size ≤ s'.size
  kept : ∀ y, s.Has y →
    s'.kind y = s.kind y ∧ s'.parent? y = s.parent? y ∧ s'.children y = s.children y
  symbols : s'.symbols = s.symbols

theorem size_plant (t : Tree α) (s : Store) :
    (plant (t.map fun _ => none) s).2.size = s.size + t.preorder.length := by
  induction t generalizing s with
  | node m k cs ih =>
    have hall : ∀ (parent : NodeId) (s : Store),
        (plantAll parent (cs.map (map fun _ => none)) s).size =
          s.size + (cs.flatMap preorder).length := by
      intro parent
      induction cs with
      | nil =>
        intro s
        rw [map_nil, plantAll]
        simp
      | cons c cs ihcs =>
        intro s
        rw [forall_mem_cons] at ih
        rw [map_cons, plantAll, ihcs ih.2, size_attach, ih.1, flatMap_cons,
          length_append, Nat.add_assoc]
    rw [map_node, plant, preorder_node, hall, size_create, length_cons]
    omega

theorem mem_of_fresh {l : List NodeId} (hl : l.Nodup) (hfresh : ∀ y ∈ l, s'.Has y ∧ ¬s.Has y)
    (hsize : s'.size = s.size + l.length) (hy : s'.Has y ∧ ¬s.Has y) : y ∈ l := by
  have hmem : ∀ i, i ∈ range' s.size l.length ↔ s.size ≤ i ∧ i < s'.size := by
    intro i
    rw [mem_range'_1, hsize]
  have hsub : l.map NodeId.index ⊆ range' s.size l.length := by
    intro i hi
    obtain ⟨n, hn, rfl⟩ := mem_map.mp hi
    exact (hmem _).mpr ⟨Nat.le_of_not_lt (hfresh n hn).2, (hfresh n hn).1⟩
  have hperm := (subperm_of_subset (hl.map index_injective) hsub).perm_of_length_le (by simp)
  have hindex := hperm.mem_iff.mpr ((hmem y.index).mpr ⟨Nat.le_of_not_lt hy.2, hy.1⟩)
  obtain ⟨z, hz, heq⟩ := mem_map.mp hindex
  rwa [← index_injective heq]

theorem Consistent.added (h : s.Consistent) (t : Tree α) : Added s t (s.grow t).1 (s.grow t).2 := by
  obtain ⟨kids, hlinks⟩ := h
  have hmarks : (t.map fun _ => (none : Option NodeId)).marks = [] := by
    rw [marks_map, filterMap_none]
  have hbelow : marksAll (t.map fun _ => (none : Option NodeId)).children = [] := by
    rw [marks_eq] at hmarks
    exact (append_eq_nil_iff.mp hmarks).2
  obtain ⟨kids', h'⟩ := plant_spec (t.map fun _ => none) s kids hlinks
    (by rw [hmarks]; exact ⟨nodup_nil, by simp⟩) (by rw [hbelow]; simp)
  change Plants s kids _ (s.grow t).1 (s.grow t).2 kids' at h'
  have hsize : (s.grow t).2.size = s.size + t.preorder.length := size_plant t s
  generalize (s.grow t).1 = c at h' ⊢
  generalize (s.grow t).2 = s' at h' hsize ⊢
  have hplanted : ∀ y, Planted s s' [] y ↔ s'.Has y ∧ ¬s.Has y := by
    intro y
    simp [Planted, and_comm]
  have hfresh : ∀ y ∈ (s'.tree c).preorder, s'.Has y ∧ ¬s.Has y := by
    intro y hy
    have hroot := h'.planted
    rw [← hplanted, ← hmarks]
    rcases (h'.links.mem_preorder c y).mp hy with rfl | hy
    · exact hroot
    · exact h'.toGrown.below hroot hy
  have hdump : (s'.tree c).bare = t.bare := by
    rw [h'.tree, bare_map]
  have hlength : (s'.tree c).preorder.length = t.preorder.length := by
    rw [← length_preorder_bare, hdump, length_preorder_bare]
  refine ⟨⟨kids', h'.links⟩, ?_, hdump, fun y => ⟨hfresh y, ?_⟩, h'.size, fun y hy => ?_,
    h'.symbols⟩
  · have hnew : ¬s.Has c := (hfresh c (h'.links.mem_preorder_self c)).2
    rw [h'.place.parent, parent?, slot?_of_not_has hnew]
    rfl
  · exact mem_of_fresh (h'.links.nodup_preorder c) hfresh (by rw [hsize, hlength])
  · obtain ⟨hslot, hlist⟩ := h'.frame y hy (by rw [hmarks]; simp)
    refine ⟨kind_of_slot hslot, (samePlace_of_slot hslot).parent, ?_⟩
    rw [h'.links.children_eq, hlinks.children_eq, hlist]

theorem Added.tree_eq {t : Tree α} (h : Added s t c s') (hs : s.Consistent) (hy : s.Has y) :
    s'.tree y = s.tree y := by
  obtain ⟨kids, hlinks⟩ := hs
  obtain ⟨kids', hlinks'⟩ := h.consistent
  refine hlinks.tree_congr hlinks' (P := s.Has) (fun y hy => ?_) hy
  obtain ⟨hkind, -, hchildren⟩ := h.kept y hy
  rw [hlinks.children_eq, hlinks'.children_eq] at hchildren
  exact ⟨hkind, hchildren, fun c hc => hlinks.has hc⟩

/-! ## Dumps -/

/-- The trees of the nodes without a parent, in order of their numbers. -/
def dumps (s : Store) : List (Tree NodeId) :=
  (((range s.size).map NodeId.mk).filter fun n => (s.parent? n).isNone).map s.tree

theorem mem_dumps {t : Tree NodeId} :
    t ∈ s.dumps ↔ ∃ n, s.Has n ∧ s.parent? n = none ∧ s.tree n = t := by
  have hhas : ∀ n, n ∈ (range s.size).map NodeId.mk ↔ s.Has n := by
    intro n
    rw [mem_map]
    constructor
    · rintro ⟨i, hi, rfl⟩
      exact mem_range.mp hi
    · exact fun hn => ⟨n.index, mem_range.mpr hn, rfl⟩
  simp only [dumps, mem_map (f := s.tree), mem_filter, hhas,
    Option.isNone_iff_eq_none, and_assoc]

namespace Represents

theorem exists_root (h : s.Represents F) (hy : s.Has y) :
    ∃ r, s.Has r ∧ s.parent? r = none ∧ y ∈ (s.tree r).preorder := by
  have hclimb : ∀ o l, Follows s.parent? o l → ∀ y, s.Has y → s.parent? y = o →
      ∃ r, s.Has r ∧ s.parent? r = none ∧ y ∈ (s.tree r).preorder := by
    intro o l hfollows
    induction hfollows with
    | done => exact fun y hy hp => ⟨y, hy, hp, h.links.mem_preorder_self y⟩
    | @step p l _ ih =>
      intro y hy hp
      have hmem := (h.links.parent y p).mp hp
      obtain ⟨r, hr, hroot, hp⟩ := ih p (h.links.owner p y hmem) rfl
      refine ⟨r, hr, hroot, ?_⟩
      rw [h.links.mem_preorder] at hp ⊢
      have hparent := (h.links.parent y p).mpr hmem
      rcases hp with rfl | hp
      · exact .inr (.single hparent)
      · exact .inr (.head hparent hp)
  exact hclimb _ _ (h.links.follows_ancestors y) y hy rfl

theorem tree_eq_of_mem (h : s.Represents F) (h' : s'.Represents F') (hx : s'.tree x = s.tree x)
    (hy : y ∈ (s.tree x).preorder) : s'.tree y = s.tree y := by
  have hchild : ∀ {p c}, s'.tree p = s.tree p → s.parent? c = some p → s'.tree c = s.tree c := by
    intro p c hp hc
    have hmem : s.tree c ∈ (s'.tree p).children := by
      rw [hp, h.links.children_tree]
      exact mem_map_of_mem ((h.links.parent c p).mp hc)
    rw [h'.links.children_tree] at hmem
    obtain ⟨c', -, heq⟩ := mem_map.mp hmem
    have hmark := congrArg mark heq
    rw [h'.links.mark_tree, h.links.mark_tree] at hmark
    rwa [hmark] at heq
  rcases (h.links.mem_preorder x y).mp hy with rfl | hbelow
  · exact hx
  · induction hbelow using Relation.TransGen.head_induction_on with
    | single hp => exact hchild hx hp
    | head hp hrest ih => exact hchild (ih ((h.links.mem_preorder x _).mpr (.inr hrest))) hp

theorem eq_of_tree_eq (h : s.Represents F) (h' : s'.Represents F') (hy : s'.tree y = s.tree y) :
    F'.kind y = F.kind y ∧ F'.children y = F.children y := by
  constructor
  · rw [← h.kind, ← h'.kind, ← h.links.kind_tree, ← h'.links.kind_tree, hy]
  · have hmarks : ∀ {s : Store} {F : Forest}, s.Represents F →
        ((s.tree y).children).map mark = F.children y := by
      intro s F h
      rw [h.links.children_tree, List.map_map]
      exact (map_congr_left fun c _ => h.links.mark_tree c).trans (map_id _)
    rw [← hmarks h, ← hmarks h', hy]

theorem eq_of_not_has (h : s.Represents F) (hy : ¬s.Has y) :
    F.kind y = .empty ∧ F.children y = [] := by
  constructor
  · rw [← h.kind, Store.kind, slot?_of_not_has hy]
    rfl
  · rw [eq_nil_iff_forall_not_mem]
    exact fun c hc => hy (h.links.owner y c hc)

theorem dumps_eq_iff (h : s.Represents F) (h' : s'.Represents F') (hsize : s'.size = s.size) :
    s'.dumps = s.dumps ↔ F' = F := by
  constructor
  · intro hdumps
    have hnode : ∀ y, F'.kind y = F.kind y ∧ F'.children y = F.children y := by
      intro y
      by_cases hy : s.Has y
      · obtain ⟨r, hr, hroot, hmem⟩ := h.exists_root hy
        have htree : s.tree r ∈ s'.dumps := by
          rw [hdumps]
          exact mem_dumps.mpr ⟨r, hr, hroot, rfl⟩
        obtain ⟨r', -, -, heq⟩ := mem_dumps.mp htree
        have hmark := congrArg mark heq
        rw [h'.links.mark_tree, h.links.mark_tree] at hmark
        rw [hmark] at heq
        exact h.eq_of_tree_eq h' (h.tree_eq_of_mem h' heq hmem)
      · have hy' : ¬s'.Has y := by
          rw [Has, hsize]
          exact hy
        rw [(h.eq_of_not_has hy).1, (h.eq_of_not_has hy).2]
        exact h'.eq_of_not_has hy'
    have hlists : F'.children = F.children := funext fun y => (hnode y).2
    refine Forest.ext (funext fun y => (hnode y).1) (funext fun c => Option.ext fun p => ?_) hlists
    rw [← h.mem_children, ← h'.mem_children, hlists]
  · rintro rfl
    have htrees : s'.tree = s.tree :=
      funext fun y => h.tree_eq h' (fun _ _ => rfl) fun _ _ => rfl
    rw [dumps, dumps, htrees, h.parent, h'.parent, hsize]

end Represents

/-! ## The refinement -/

/-- What is in a store is a forest, and every edit of the store that succeeds is the edit of that
forest. The trees of the nodes that it moves stay as they are. -/
structure RefinesForest (s : Store) : Prop where
  dumps : ∀ s' : Store, s'.Consistent → s'.size = s.size →
    (s'.dumps = s.dumps ↔ s'.forest = s.forest)
  detach : ∀ n, Edited s (s.detach n) (s.forest.remove n) ∧ (s.detach n).tree n = s.tree n
  insert : ∀ p c position s', s.Has p → s.Has c → s.insert p c position = .ok s' →
    Edited s s' (s.forest.insert p [c] position) ∧ s'.tree c = s.tree c
  replace : ∀ old new s', s.Has new → s.replace old new = .ok s' →
    Edited s s' (s.forest.replace old new) ∧ s'.tree old = s.tree old ∧ s'.tree new = s.tree new
  dissolve : ∀ n s', s.dissolve n = .ok s' →
    Edited s s' (s.forest.dissolve n) ∧ ∀ c ∈ s.children n, s'.tree c = s.tree c
  moveChildren : ∀ target source s', s.Has target → s.moveChildren target source = .ok s' →
    Edited s s' (s.forest.moveChildren target source) ∧
      ∀ c ∈ s.children source, s'.tree c = s.tree c
  transplant : ∀ target source s', s.Has target → s.Has source →
    s.transplant target source = .ok s' → Edited s s' (s.forest.transplant target source) ∧
      s'.tree target = .node target (s.kind source) (s.tree source).children ∧
      ∀ c ∈ s.children target, s'.tree c = s.tree c
  copy : ∀ n, Added s (s.tree n) (s.copy n).1 (s.copy n).2

theorem refinesForest_of_consistent (h : s.Consistent) : s.RefinesForest where
  dumps _ h' hsize := h.represents.dumps_eq_iff h'.represents hsize
  detach n := ⟨h.represents.detach n, h.represents.tree_detach n⟩
  insert _ _ _ _ hp hc hs := ⟨h.represents.insert hp hc hs, h.represents.tree_insert hp hc hs⟩
  replace _ _ _ hnew hs := ⟨h.represents.replace hnew hs, h.represents.tree_replace hnew hs⟩
  dissolve _ _ hs := ⟨h.represents.dissolve hs, fun _ hc => h.represents.tree_dissolve hs hc⟩
  moveChildren _ _ _ htarget hs :=
    ⟨h.represents.moveChildren htarget hs, fun _ hc =>
      h.represents.tree_moveChildren htarget hs hc⟩
  transplant _ _ _ htarget hsource hs :=
    ⟨h.represents.transplant htarget hsource hs, h.represents.tree_transplant htarget hsource hs,
      fun _ hc => h.represents.tree_transplant_child htarget hsource hs (.inl hc)⟩
  copy n := h.added (s.tree n)

theorem refinesForest_of_consistent_blocks : ∃ s s',
    History .empty [.create .block, .create .empty, .create .debugger, .create .block,
      .create .debugger, .append ⟨0⟩ ⟨1⟩, .append ⟨0⟩ ⟨2⟩, .append ⟨3⟩ ⟨4⟩] s ∧
    s.transplant ⟨2⟩ ⟨3⟩ = .ok s' ∧ s.RefinesForest ∧
    Edited s s' (s.forest.transplant ⟨2⟩ ⟨3⟩) ∧ s'.children ⟨2⟩ = [⟨4⟩] := by
  have h : History .empty [.create .block, .create .empty, .create .debugger, .create .block,
      .create .debugger, .append ⟨0⟩ ⟨1⟩, .append ⟨0⟩ ⟨2⟩, .append ⟨3⟩ ⟨4⟩] _ :=
    .call (by decide) rfl <| .call (by decide) rfl <| .call (by decide) rfl <|
      .call (by decide) rfl <| .call (by decide) rfl <| .call (by decide) rfl <|
      .call (by decide) rfl <| .call (by decide) rfl <| .done _
  have hrefines := refinesForest_of_consistent (h.consistent ⟨_, Links.empty⟩)
  exact ⟨_, _, h, rfl, hrefines,
    (hrefines.transplant ⟨2⟩ ⟨3⟩ _ (by decide) (by decide) rfl).1, by decide⟩

end ScriptPress.Store

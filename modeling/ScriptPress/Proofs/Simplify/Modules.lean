import ScriptPress.Proofs.Simplify.Store
import ScriptPress.Proofs.Usage.Constant

/-! # Optimizing modules -/

namespace ScriptPress

open List Tree

def Tree.simplified {α : Type} (known : WellKnown) (t : Tree α) : Tree Unit × Bool :=
  match t.simplify known with
  | .ok (t', trace) => (t'.bare, 0 < trace.changes)
  | .error _ => (t.bare, false)

namespace Store

variable {s s' : Store} {kids kids' : NodeId → List NodeId} {roots ns : List NodeId}
  {n m : NodeId} {known : WellKnown}

theorem Follows.congr {link link' : NodeId → Option NodeId} {o : Option NodeId} {l : List NodeId}
    (h : Follows link o l) (hlink : ∀ n ∈ l, link' n = link n) : Follows link' o l := by
  induction h with
  | done => exact .done
  | step _ ih =>
    rw [forall_mem_cons] at hlink
    refine .step ?_
    rw [hlink.1]
    exact ih hlink.2

theorem Follows.unique {link : NodeId → Option NodeId} {o : Option NodeId} {l l' : List NodeId}
    (h : Follows link o l) (h' : Follows link o l') : l = l' := by
  have hl := h.chain_eq (max l.length l'.length) (Nat.le_max_left _ _)
  have hl' := h'.chain_eq (max l.length l'.length) (Nat.le_max_right _ _)
  exact hl.symm.trans hl'

theorem Links.tree_of_slots (h : s.Links kids) (h' : s'.Links kids')
    (hslots : ∀ y ∈ (s.tree n).preorder, s'.slot? y = s.slot? y) : s'.tree n = s.tree n := by
  refine h.tree_congr h' (P := fun y => y ∈ (s.tree n).preorder) ?_ (h.mem_preorder_self n)
  intro y hy
  have hchild : ∀ c ∈ kids y, c ∈ (s.tree n).preorder := fun c hc =>
    h.mem_preorder_of_parent ((h.parent c y).mpr hc) hy
  refine ⟨kind_of_slot (hslots y hy), ?_, hchild⟩
  have hfirst : s'.firstChild? y = s.firstChild? y := by
    rw [firstChild?, hslots y hy, firstChild?]
  have hfollows := h'.follows_children y
  rw [hfirst] at hfollows
  refine hfollows.unique ((h.follows_children y).congr fun c hc => ?_)
  rw [next?, hslots c (hchild c hc), next?]

theorem Modules.has (hr : s.Modules roots) (hn : n ∈ roots) : s.Has n :=
  has_of_kind (by rw [hr.kind n hn]; simp)

structure Simplified (s : Store) (known : WellKnown) (roots : List NodeId) (n : NodeId)
    (s' : Store) : Prop extends Keeps s roots s' where
  tree : (s'.tree n).bare = ((s.tree n).simplified known).1
  reduces : (s.tree n).ReducesTo known (s'.tree n)
  others : ∀ m ∈ roots, m ≠ n → s'.tree m = s.tree m

theorem Consistent.simplify_module (hs : s.Consistent) (hr : s.Modules roots) (hn : n ∈ roots)
    (known : WellKnown) : ∃ s', s.simplify known n = .ok (s', ((s.tree n).simplified known).2) ∧
      Simplified s known roots n s' := by
  obtain ⟨kids, h⟩ := hs
  obtain ⟨t, trace, s', htree, hrun, hred, hgrown⟩ :=
    h.simplify_run known (hr.has hn) (hr.shaped n hn)
  obtain ⟨kids', h'⟩ := hgrown.consistent
  have hout : ∀ m ∈ roots, m ≠ n → ∀ y ∈ (s.tree m).preorder, s'.slot? y = s.slot? y := by
    intro m hm hne y hy
    have hyn := h.modules_disjoint hr hm hn hne hy
    rw [h.mem_preorder, not_or] at hyn
    refine hgrown.frame y ?_ hyn.1 hyn.2
    rcases (h.mem_preorder m y).mp hy with rfl | hy
    · exact hr.has hm
    · exact h.has_above hy
  have hothers : ∀ m ∈ roots, m ≠ n → s'.tree m = s.tree m := fun m hm hne =>
    h.tree_of_slots h' (hout m hm hne)
  obtain ⟨hshaped, hkind⟩ := hred.wellShaped (wellShaped_map.mpr (hr.shaped n hn))
  have hkind' : (s'.tree n).kind = .module := by
    have hbare : (s'.tree n).kind = t.kind := by
      rw [← kind_map (fun _ => ()), ← bare, hgrown.tree, bare, kind_map]
    rw [kind_map, h.kind_tree, hr.kind n hn] at hkind
    rw [hbare]
    rcases hkind with hkind | ⟨hkind, -⟩ | ⟨hkind, -⟩
    · exact hkind
    · cases hkind
    · cases hkind
  have hshaped' : (s'.tree n).WellShaped := by
    rw [← wellShaped_map, ← bare, hgrown.tree, bare, wellShaped_map]
    exact hshaped
  have hresult : (s.tree n).simplified known = (t.bare, decide (0 < trace.changes)) := by
    rw [simplified, htree]
  rw [hresult]
  refine ⟨s', hrun, ⟨hgrown.consistent, hgrown.size, hgrown.symbols, ⟨hr.nodup, ?_, ?_⟩, ?_⟩,
    by rw [hresult]; exact hgrown.tree, ⟨t, _, hred, hgrown.fills⟩, hothers⟩
  · intro m hm
    by_cases hne : m = n
    · rw [hne, ← h'.kind_tree, hkind']
    · rw [← h'.kind_tree, hothers m hm hne, h.kind_tree, hr.kind m hm]
  · intro m hm
    by_cases hne : m = n
    · rw [hne]
      exact hshaped'
    · rw [hothers m hm hne]
      exact hr.shaped m hm
  · intro m hm hroot
    by_cases hne : m = n
    · rw [hne] at hroot ⊢
      rw [hgrown.place.parent, hroot]
    · rw [parent?, hout m hm hne m (h.mem_preorder_self m)]
      exact hroot

theorem simplifyAll_cons {s₁ : Store} {changed : Bool}
    (h : s.simplify known n = .ok (s₁, changed)) : s.simplifyAll known (n :: ns) =
      (s₁.simplifyAll known ns).map fun r => (r.1, changed :: r.2) := by
  rw [simplifyAll, h]
  show (s₁.simplifyAll known ns >>= _) = _
  cases s₁.simplifyAll known ns <;> rfl

theorem Consistent.simplifyAll_eq (hs : s.Consistent) (hr : s.Modules roots)
    (hns : ns ⊆ roots) (hnodup : ns.Nodup) (known : WellKnown) :
    ∃ s', s.simplifyAll known ns = .ok (s', ns.map fun n => ((s.tree n).simplified known).2) ∧
      Keeps s roots s' ∧ (∀ m ∈ roots, m ∉ ns → s'.tree m = s.tree m) ∧
      ∀ n ∈ ns, (s'.tree n).bare = ((s.tree n).simplified known).1 ∧
        (s.tree n).ReducesTo known (s'.tree n) := by
  induction ns generalizing s with
  | nil => exact ⟨s, rfl, ⟨hs, Nat.le_refl _, rfl, hr, fun _ _ h => h⟩, fun _ _ _ => rfl, by simp⟩
  | cons n ns ih =>
    rw [cons_subset] at hns
    rw [nodup_cons] at hnodup
    obtain ⟨s₁, hrun, h₁⟩ := hs.simplify_module hr hns.1 known
    obtain ⟨s', hrun', h', hothers, htrees⟩ := ih h₁.consistent h₁.modules hns.2 hnodup.2
    have hsame : ∀ m ∈ ns, s₁.tree m = s.tree m := by
      intro m hm
      have hne : m ≠ n := fun heq => hnodup.1 (heq ▸ hm)
      exact h₁.others m (hns.2 hm) hne
    refine ⟨s', ?_, h₁.toKeeps.trans h', fun m hm hnot => ?_, ?_⟩
    · have hflags : ns.map (fun m => ((s₁.tree m).simplified known).2) =
          ns.map fun m => ((s.tree m).simplified known).2 :=
        map_congr_left fun m hm => by rw [hsame m hm]
      rw [simplifyAll_cons hrun, hrun', hflags]
      rfl
    · rw [mem_cons, not_or] at hnot
      rw [hothers m hm hnot.2, h₁.others m hm hnot.1]
    · rw [forall_mem_cons]
      refine ⟨?_, fun m hm => ?_⟩
      · rw [hothers n hns.1 hnodup.1]
        exact ⟨h₁.tree, h₁.reduces⟩
      · rw [← hsame m hm]
        exact htrees m hm

theorem forM_eq_ok {f : NodeId → Except Fault Unit} (h : ∀ n ∈ ns, f n = .ok ()) :
    ns.forM f = .ok () := by
  induction ns with
  | nil => rfl
  | cons n ns ih =>
    rw [forall_mem_cons] at h
    show (f n >>= fun _ => ns.forM f) = _
    rw [h.1]
    exact ih h.2

inductive Pass (known : WellKnown) (roots : List NodeId) (s s' : Store) : Prop
  | inline (hkeeps : Keeps s roots s')
    (htrees : roots.map s'.tree = (inlineAll (roots.map s.tree)).1)
  | simplify (hkeeps : Keeps s roots s')
    (htrees : ∀ n ∈ roots, (s.tree n).ReducesTo known (s'.tree n))

theorem Pass.keeps (h : Pass known roots s s') : Keeps s roots s' := by
  cases h with
  | inline hkeeps _ => exact hkeeps
  | simplify hkeeps _ => exact hkeeps

theorem Consistent.inline_pass (hs : s.Consistent) (hr : s.Modules roots) (known : WellKnown) :
    ∃ s', s.inlineIn roots = .ok (s', (inlineAll (roots.map s.tree)).2) ∧
      Pass known roots s s' := by
  obtain ⟨s', hrun, hkeeps, htrees⟩ := hs.inlineIn_eq hr
  exact ⟨s', hrun, .inline hkeeps htrees⟩

theorem Consistent.simplify_pass (hs : s.Consistent) (hr : s.Modules roots)
    (known : WellKnown) : ∃ s', s.simplifyAll known roots =
        .ok (s', roots.map fun n => ((s.tree n).simplified known).2) ∧ Pass known roots s s' := by
  obtain ⟨s', hrun, hkeeps, -, htrees⟩ :=
    hs.simplifyAll_eq hr (List.Subset.refl _) hr.nodup known
  exact ⟨s', hrun, .simplify hkeeps fun n hn => (htrees n hn).2⟩

theorem Consistent.optimize_passes (hs : s.Consistent) (hr : s.Modules roots)
    (known : WellKnown) : ∃ s', s.optimize known roots = .ok s' ∧ Keeps s roots s' ∧
      Relation.ReflTransGen (Pass known roots) s s' := by
  obtain ⟨s₁, hrun₁, hpass₁⟩ := hs.inline_pass hr known
  have h₁ := hpass₁.keeps
  obtain ⟨s₂, hrun₂, hpass₂⟩ := h₁.consistent.simplify_pass h₁.modules known
  have h₂ := hpass₂.keeps
  obtain ⟨s₃, hrun₃, hpass₃⟩ := h₂.consistent.inline_pass h₂.modules known
  have h₃ := hpass₃.keeps
  obtain ⟨s₄, hrun₄, hpass₄⟩ := h₃.consistent.simplify_pass h₃.modules known
  have h₄ := hpass₄.keeps
  have hverify : ∀ {s : Store}, s.Verified roots → roots.forM s.verify = .ok () :=
    fun h => forM_eq_ok h.verify
  have h₁₃ := (h₁.trans h₂).trans h₃
  have hpasses : Relation.ReflTransGen (Pass known roots) s s₃ :=
    ((Relation.ReflTransGen.single hpass₁).tail hpass₂).tail hpass₃
  cases hagain : (inlineAll (roots.map s₂.tree)).2 with
  | true =>
    refine ⟨s₄, ?_, h₁₃.trans h₄, hpasses.tail hpass₄⟩
    rw [hagain] at hrun₃
    simp only [optimize, hrun₁, hrun₂, hrun₃, hrun₄, bind, Except.bind, if_true,
      hverify h₄.verified]
    rfl
  | false =>
    refine ⟨s₃, ?_, h₁₃, hpasses⟩
    rw [hagain] at hrun₃
    simp only [optimize, hrun₁, hrun₂, hrun₃, bind, Except.bind, pure, Except.pure,
      Bool.false_eq_true, if_false, hverify h₃.verified]

theorem Consistent.optimize_eq_ok (hs : s.Consistent) (hr : s.Modules roots)
    (known : WellKnown) : ∃ s', s.optimize known roots = .ok s' ∧ Keeps s roots s' := by
  obtain ⟨s', hrun, hkeeps, -⟩ := hs.optimize_passes hr known
  exact ⟨s', hrun, hkeeps⟩

end Store

end ScriptPress

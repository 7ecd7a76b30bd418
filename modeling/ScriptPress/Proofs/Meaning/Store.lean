import ScriptPress.Proofs.Meaning.Simplify
import ScriptPress.Proofs.Meaning.Turns
import ScriptPress.Proofs.Simplify.Store

/-! # Simplification preserves meaning -/

namespace ScriptPress

namespace Tree

variable {α β ω σ : Type} {H : Host ω σ}

theorem Alike.terminates_iff (h : Alike H t t') {c : Completion ω} :
    t.Terminates H s c s' ↔ t'.Terminates H s c s' := by
  unfold Terminates
  simp only [h.execute]

theorem alike_of_bare_eq (ht : t.WellShaped) (hc : t.Core) (h : t.bare = t'.bare) :
    Alike H t t' := by
  have ht' : t'.WellShaped := by
    rw [← wellShaped_map, ← bare, ← h, bare, wellShaped_map]
    exact ht
  have hc' : t'.Core := by
    rw [← core_map, ← bare, ← h, bare, core_map]
    exact hc
  have hl := replaces_map (H := H) (fun _ => ()) t ht hc
  have hr := replaces_map (H := H) (fun _ => ()) t' ht' hc'
  rw [← bare] at hl hr
  rw [← h] at hr
  exact ⟨fun locals => (hl.evaluate locals).trans (hr.evaluate locals).symm,
    fun turns locals => (hl.execute turns locals).trans (hr.execute turns locals).symm⟩

end Tree

namespace Store

variable {s : Store} {n : NodeId}

/-- Simplifying a verified program of the small language succeeds, and the new program does the
same as the one before on every host. What a program does is determined by the state. -/
theorem simplify_preserves_meaning (known : WellKnown) (hs : s.Consistent) (hn : s.Has n)
    (hv : s.verify n = .ok ()) (hc : (s.tree n).Core) :
    ∃ s' changed, s.simplify known n = .ok (s', changed) ∧
      ∀ (ω σ : Type) (H : Host ω σ) (before : σ) (c : Completion ω) (after : σ),
        ((s.tree n).Terminates H before c after ↔ (s'.tree n).Terminates H before c after) ∧
          ∀ c' after', (s.tree n).Terminates H before c after →
            (s.tree n).Terminates H before c' after' → c = c' ∧ after = after' := by
  obtain ⟨kids, h⟩ := hs
  have ht := h.verify_eq_ok.mp hv
  obtain ⟨t, d, s', changed, hrun, hred, hgrown⟩ := h.simplify_eq_ok known hn ht
  refine ⟨s', changed, hrun, fun ω σ H before c after => ⟨?_, fun c' after' => ?_⟩⟩
  · have hsimplified : Tree.Alike H (s.tree n) t := Tree.simplify_replaces ht hc hred
    have ht' : t.WellShaped := (hred.wellShaped (Tree.wellShaped_map.mpr ht)).1
    have hc' : t.Core := (hred.replaces (H := H) (Tree.wellShaped_map.mpr ht)
      (Tree.core_map.mpr hc)).1
    have hstored : Tree.Alike H t (s'.tree n) := Tree.alike_of_bare_eq ht' hc' hgrown.tree.symm
    rw [hsimplified.terminates_iff, hstored.terminates_iff]
  · exact Tree.Terminates.unique ht hc

def countdown : Store :=
  (Store.empty.grow (.node () .block
    [.node () .whileLoop
      [.node () (.identifier ⟨0⟩) [],
        .node () .block [.node () .expression [.node () .call [.node () (.identifier ⟨1⟩) []]]]],
      .node () .return [.node () (.identifier ⟨0⟩) []]])).2

def counter : Host Empty Nat where
  toPrimitive _ o := o.elim
  typeName o := o.elim
  identical o _ := o.elim
  contains _ _ := false
  isInstance _ _ := false
  read s _ := .boolean (s != 0)
  self _ := .undefined
  call _ _ _ := do
    set ((← get) - 1)
    return .undefined

theorem simplify_preserves_meaning_countdown :
    countdown.verify ⟨0⟩ = .ok () ∧ (countdown.tree ⟨0⟩).Core ∧
      (countdown.tree ⟨0⟩).Terminates counter 2 (.error (.return (.boolean false))) 0 ∧
      ∃ s' changed, countdown.simplify ⟨⟨2⟩, ⟨3⟩⟩ ⟨0⟩ = .ok (s', changed) ∧
        (s'.tree ⟨0⟩).Terminates counter 2 (.error (.return (.boolean false))) 0 := by
  have hs : countdown.Consistent := Consistent.grow ⟨_, Links.empty⟩ _
  have hv : countdown.verify ⟨0⟩ = .ok () := rfl
  have hc : (countdown.tree ⟨0⟩).Core := by
    have htree : countdown.tree ⟨0⟩ = .node ⟨0⟩ .block
          [.node ⟨1⟩ .whileLoop
            [.node ⟨2⟩ (.identifier ⟨0⟩) [], .node ⟨3⟩ .block
                [.node ⟨4⟩ .expression [.node ⟨5⟩ .call [.node ⟨6⟩ (.identifier ⟨1⟩) []]]]],
            .node ⟨7⟩ .return [.node ⟨8⟩ (.identifier ⟨0⟩) []]] := rfl
    rw [htree]
    simp [Tree.core_node, Kind.isCore]
  have hend : (countdown.tree ⟨0⟩).Terminates counter 2 (.error (.return (.boolean false))) 0 :=
    ⟨3, rfl⟩
  obtain ⟨s', changed, hrun, hmeaning⟩ :=
    simplify_preserves_meaning ⟨⟨2⟩, ⟨3⟩⟩ hs (by decide) hv hc
  exact ⟨hv, hc, hend, s', changed, hrun, (hmeaning _ _ counter _ _ _).1.mp hend⟩

end Store

end ScriptPress

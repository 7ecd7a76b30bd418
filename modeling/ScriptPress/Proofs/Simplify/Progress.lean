import ScriptPress.Proofs.Simplify.Store

/-! # Passes come to an end -/

namespace ScriptPress

open Tree

namespace Simplifying

open Tree (Lightened)

variable {α β : Type} {known : WellKnown} {t : Tree (Option α)} {m : Option α}
  {cs : List (Tree (Option α))} {g : β → Tree (Option α)}

theorem Carries.lightens {x : Simplifying α β} (hx : Carries known t g x) (ht : t.WellShaped) :
    Ensures x fun n b => (g b).WellShaped ∧ Lightened n t (g b) := by
  obtain ⟨b, u, hruns, hred, hlight⟩ := hx
  exact hruns.ensures ⟨(hred.wellShaped ht).1, hlight ht⟩

theorem Carries.wellShaped {x : Simplifying α β} (hx : Carries known t g x) (ht : t.WellShaped) :
    Ensures x fun _ b => (g b).WellShaped :=
  (hx.lightens ht).imp fun _ _ h => h.1

theorem reduceElements_wellShaped (known : WellKnown) (ht : (node m .sequence cs).WellShaped) :
    Ensures (reduceElements cs) fun n cs' => (node m .sequence cs').WellShaped ∧
      ((∀ c ∈ cs, c.kind ≠ .sequence) → n = 0 → cs' = cs) := by
  obtain ⟨cs', u, hruns, hred, -, hsame⟩ := reduceElements_runs known cs [] ht
  exact hruns.ensures ⟨(hred.wellShaped ht).1, hsame⟩

theorem wellShaped_block {k : Kind} (hk : k.isList) (h : (node m k cs).WellShaped) :
    (node (none : Option α) .block cs).WellShaped :=
  (wellShaped_of_element rfl).mpr
    ((wellShaped_of_element (Kind.element_of_isList hk)).mp h)

inductive Kept (c : Tree (Option α)) : Nat → Option (Tree (Option α)) → Prop
  | nothing (h : c.discarded = .ok .nothing) : Kept c 0 none
  | unchanged (h : c.discarded = .ok .unchanged) : Kept c 0 (some c)
  | reduced {s : Step α} (h : c.discarded = .ok (.reduced s)) : Kept c 1 (some s.tree)

theorem keepEffects_kept (c : Tree (Option α)) : Ensures (keepEffects c) (Kept c) := by
  unfold keepEffects
  refine ensures_lift fun d hd => ?_
  cases d with
  | nothing => exact ensures_pure (.nothing hd)
  | unchanged => exact ensures_pure (.unchanged hd)
  | reduced s => exact ensures_performThen (ensures_pure (.reduced hd))

end Simplifying

namespace Tree

variable {α β : Type}

theorem fit_unbraced {t : Tree (Option α)} (h : t.Fit Kind.isStatement) :
    t.unbraced.Fit Kind.isStatement := by
  unfold unbraced
  cases ht : t.unbrace? with
  | none => exact h
  | some s => exact fit_unbrace h.2 ht

theorem weight_bare (t : Tree α) : t.bare.weight = t.weight := weight_map _ t

theorem weight_congr {t : Tree α} {u : Tree β} (h : t.bare = u.bare) : t.weight = u.weight := by
  rw [← weight_bare, h, weight_bare]

end Tree

namespace Store

variable {s : Store} {n : NodeId}

/-- Simplifies the tree below a node again and again, a given number of times. -/
def simplifyTimes (known : WellKnown) (n : NodeId) : Nat → Store → Except Fault Store
  | 0, s => .ok s
  | count + 1, s => do
    let (s, _) ← s.simplify known n
    simplifyTimes known n count s

theorem Consistent.simplify_progress (hs : s.Consistent) (known : WellKnown) (hn : s.Has n)
    (hv : s.verify n = .ok ()) :
    ∃ s' changed, s.simplify known n = .ok (s', changed) ∧ s'.Consistent ∧ s'.Has n ∧
      s'.verify n = .ok () ∧ (changed = false ↔ (s'.tree n).bare = (s.tree n).bare) ∧
      (changed = true → (s'.tree n).weight < (s.tree n).weight) := by
  obtain ⟨kids, h⟩ := hs
  have ht := h.verify_eq_ok.mp hv
  have htree : ((s.tree n).map some).WellShaped := wellShaped_map.mpr ht
  obtain ⟨t, trace, s', hvisit, hrun, hred, hgrown⟩ := h.simplify_run known hn ht
  obtain ⟨kids', h'⟩ := hgrown.consistent
  have ht' : (s'.tree n).WellShaped := by
    rw [← wellShaped_map, ← bare, hgrown.tree, bare, wellShaped_map]
    exact (hred.wellShaped htree).1
  have hvisits : Simplifying.Carries known _ id _ := Simplifying.visit_carries _ htree
  obtain ⟨count, hcount, -, hlight⟩ := hvisits.lightens htree ⟨0, []⟩ t trace hvisit
  rw [Nat.zero_add] at hcount
  have hless : (decide (0 < trace.changes)) → (s'.tree n).weight < (s.tree n).weight := by
    intro hchanged
    have hpos : 0 < count := by simpa [hcount] using hchanged
    have hweight := hlight.weight
    rw [id, weight_map] at hweight
    rw [weight_congr hgrown.tree]
    omega
  refine ⟨s', _, hrun, hgrown.consistent, hn.mono hgrown.size, h'.verify_eq_ok.mpr ht', ⟨?_, ?_⟩,
    hless⟩
  · intro hchanged
    have hsame : t = _ := hlight.same (by simpa [hcount] using hchanged)
    rw [hgrown.tree, hsame, bare_map]
  · intro hbare
    rw [Bool.eq_false_iff]
    intro hchanged
    have hlt := hless hchanged
    rw [weight_congr hbare] at hlt
    exact Nat.lt_irrefl _ hlt

theorem Consistent.exists_simplifyTimes (known : WellKnown) (weight : Nat) :
    ∀ s : Store, s.Consistent → s.Has n → s.verify n = .ok () → (s.tree n).weight ≤ weight →
      ∃ count ≤ weight, ∃ s₁ s₂, simplifyTimes known n count s = .ok s₁ ∧
        s₁.simplify known n = .ok (s₂, false) := by
  induction weight with
  | zero =>
    intro s _ _ _ hweight
    have := (s.tree n).weight_pos
    omega
  | succ weight ih =>
    intro s hs hn hv hweight
    obtain ⟨s', changed, hrun, hs', hn', hv', -, hlight⟩ := hs.simplify_progress known hn hv
    cases changed with
    | false => exact ⟨0, Nat.zero_le _, s, s', rfl, hrun⟩
    | true =>
      have hlt := hlight rfl
      obtain ⟨count, hcount, s₁, s₂, hpasses, hlast⟩ := ih s' hs' hn' hv' (by omega)
      refine ⟨count + 1, Nat.succ_le_succ hcount, s₁, s₂, ?_, hlast⟩
      rw [simplifyTimes, hrun]
      exact hpasses

/-- The flag of a pass over a tree that verifies tells exactly whether the tree is another one than
before, and after as many passes as the tree weighs, if not sooner, a pass changes nothing. -/
theorem simplify_stabilizes (known : WellKnown) (hs : s.Consistent) (hn : s.Has n)
    (hv : s.verify n = .ok ()) : ∃ s' changed, s.simplify known n = .ok (s', changed) ∧
      (changed = false ↔ (s'.tree n).bare = (s.tree n).bare) ∧
      ∃ count ≤ (s.tree n).weight, ∃ s₁ s₂, simplifyTimes known n count s = .ok s₁ ∧
        s₁.simplify known n = .ok (s₂, false) := by
  obtain ⟨s', changed, hrun, -, -, -, hflag, -⟩ := hs.simplify_progress known hn hv
  exact ⟨s', changed, hrun, hflag,
    Consistent.exists_simplifyTimes known _ s hs hn hv (Nat.le_refl _)⟩

def busyWait : Store :=
  (Store.empty.grow (.node () .module
    [.node () .whileLoop [.node () .call [.node () (.identifier ⟨0⟩) []], .node () .block []]])).2

theorem consistent_busyWait : busyWait.Consistent := Consistent.grow ⟨_, Links.empty⟩ _

theorem simplify_stabilizes_busyWait :
    busyWait.Consistent ∧ busyWait.Has ⟨0⟩ ∧ busyWait.verify ⟨0⟩ = .ok () ∧
      (∃ s', busyWait.simplify ⟨⟨1⟩, ⟨2⟩⟩ ⟨0⟩ = .ok (s', true)) ∧
      ∃ count s₁ s₂, 0 < count ∧ simplifyTimes ⟨⟨1⟩, ⟨2⟩⟩ ⟨0⟩ count busyWait = .ok s₁ ∧
        s₁.simplify ⟨⟨1⟩, ⟨2⟩⟩ ⟨0⟩ = .ok (s₂, false) := by
  have hn : busyWait.Has ⟨0⟩ := by decide
  have hv : busyWait.verify ⟨0⟩ = .ok () := rfl
  obtain ⟨s', changed, hrun, -, count, -, s₁, s₂, hpasses, hlast⟩ :=
    simplify_stabilizes ⟨⟨1⟩, ⟨2⟩⟩ consistent_busyWait hn hv
  have hfirst : changed = true := by
    have hflag : (busyWait.simplify ⟨⟨1⟩, ⟨2⟩⟩ ⟨0⟩).map Prod.snd = .ok true := rfl
    rw [hrun] at hflag
    exact Except.ok.inj hflag
  subst hfirst
  refine ⟨consistent_busyWait, hn, hv, ⟨s', hrun⟩, count, s₁, s₂, ?_, hpasses, hlast⟩
  rcases Nat.eq_zero_or_pos count with rfl | hpos
  · cases hpasses
    rw [hrun] at hlast
    cases hlast
  · exact hpos

end Store

end ScriptPress

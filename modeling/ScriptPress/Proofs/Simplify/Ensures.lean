import ScriptPress.Proofs.Simplify.Run

/-! # What a computation of the pass guarantees -/

namespace ScriptPress.Simplifying

variable {α β γ : Type} {x : Simplifying α β} {f : γ → Simplifying α β} {b : β}

def Ensures (x : Simplifying α β) (Q : Nat → β → Prop) : Prop :=
  ∀ before b after, x.run before = .ok (b, after) → ∃ n, after.changes = before.changes + n ∧ Q n b

variable {Q : Nat → β → Prop}

theorem Ensures.imp (h : Ensures x P) (hPQ : ∀ n b, P n b → Q n b) : Ensures x Q := by
  intro before b after hrun
  obtain ⟨n, hn, hP⟩ := h before b after hrun
  exact ⟨n, hn, hPQ n b hP⟩

theorem Ensures.and (hP : Ensures x P) (hQ : Ensures x Q) : Ensures x fun n b => P n b ∧ Q n b := by
  intro before b after hrun
  obtain ⟨n, hn, hP⟩ := hP before b after hrun
  obtain ⟨n', hn', hQ⟩ := hQ before b after hrun
  obtain rfl : n = n' := Nat.add_left_cancel (hn.symm.trans hn')
  exact ⟨n, hn, hP, hQ⟩

theorem Ensures.of_runs {u : Trace α} (h : Ensures x Q) (hx : Runs x b u) : Q u.changes b := by
  obtain ⟨n, hn, hQ⟩ := h ⟨0, []⟩ b _ (hx _)
  rwa [Nat.add_left_cancel hn]

theorem Runs.ensures {u : Trace α} (hx : Runs x b u) (h : Q u.changes b) : Ensures x Q := by
  intro before b' after hrun
  rw [hx before] at hrun
  cases hrun
  exact ⟨u.changes, rfl, h⟩

theorem ensures_pure (h : Q 0 b) : Ensures (pure b : Simplifying α β) Q := by
  intro before b' after hrun
  cases hrun
  exact ⟨0, rfl, h⟩

theorem ensures_throw (e : Fault) : Ensures (throw e : Simplifying α β) Q := by
  intro before b after hrun
  cases hrun

theorem Ensures.bind {x : Simplifying α γ} {P : Nat → γ → Prop} (hx : Ensures x P)
    (hf : ∀ n c, P n c → Ensures (f c) fun n' b => Q (n + n') b) : Ensures (x >>= f) Q := by
  intro before b after hrun
  rw [StateT.run_bind] at hrun
  cases hc : x.run before with
  | error e =>
    rw [hc] at hrun
    cases hrun
  | ok r =>
    obtain ⟨c, middle⟩ := r
    rw [hc] at hrun
    obtain ⟨n, hn, hP⟩ := hx before c middle hc
    obtain ⟨n', hn', hQ⟩ := hf n c hP middle b after hrun
    exact ⟨n + n', by rw [hn', hn, Nat.add_assoc], hQ⟩

theorem ensures_lift {x : Except Fault γ} (hf : ∀ c, x = .ok c → Ensures (f c) Q) :
    Ensures (liftM x >>= f) Q := by
  cases x with
  | error e =>
    intro before b after hrun
    cases hrun
  | ok c => exact hf c rfl

theorem ensures_release {ts : List (Tree (Option α))} {f : Unit → Simplifying α β}
    (hf : Ensures (f ()) Q) : Ensures (release ts >>= f) Q := by
  intro before b after hrun
  obtain ⟨n, hn, hQ⟩ := hf ⟨before.changes, ts ++ before.detached⟩ b after hrun
  exact ⟨n, hn, hQ⟩

theorem ensures_noteChange {f : Unit → Simplifying α β}
    (hf : Ensures (f ()) fun n b => Q (n + 1) b) : Ensures (noteChange >>= f) Q := by
  intro before b after hrun
  obtain ⟨n, hn, hQ⟩ := hf ⟨before.changes + 1, before.detached⟩ b after hrun
  exact ⟨n + 1, by rw [hn, Nat.add_assoc, Nat.add_comm 1 n], hQ⟩

theorem ensures_performThen {s : Step α} {f : Tree (Option α) → Simplifying α β}
    (hf : Ensures (f s.tree) fun n b => Q (n + 1) b) : Ensures (perform s >>= f) Q := by
  intro before b after hrun
  obtain ⟨n, hn, hQ⟩ := hf ⟨before.changes + 1, s.detached ++ before.detached⟩ b after hrun
  exact ⟨n + 1, by rw [hn, Nat.add_assoc, Nat.add_comm 1 n], hQ⟩

theorem ensures_perform {s : Step α} {Q : Nat → Tree (Option α) → Prop} (h : Q 1 s.tree) :
    Ensures (perform s) Q := by
  intro before b after hrun
  cases hrun
  exact ⟨1, rfl, h⟩

theorem ensures_performOr {t : Tree (Option α)} {o : Option (Step α)}
    {Q : Nat → Tree (Option α) → Prop} (hnone : o = none → Q 0 t)
    (hsome : ∀ s, o = some s → Q 1 s.tree) : Ensures (performOr t o) Q := by
  cases o with
  | none => exact ensures_pure (hnone rfl)
  | some s => exact ensures_perform (hsome s rfl)

theorem flattenSequences_of_flat : ∀ {cs : List (Tree (Option α))}, (∀ c ∈ cs, c.kind ≠ .sequence) →
    flattenSequences cs = pure cs
  | [], _ => rfl
  | c :: cs, h => by
    have ih := flattenSequences_of_flat fun c hc => h c (.tail _ hc)
    rw [flattenSequences, if_neg (h c List.mem_cons_self), ih, pure_bind]

theorem ensures_visitAll {known : WellKnown} {P : Tree (Option α) → Prop} :
    ∀ {cs : List (Tree (Option α))}, (∀ c ∈ cs, Ensures (visit known c) fun _ c' => P c') →
      Ensures (visitAll known cs) fun _ cs' => cs'.length = cs.length ∧ ∀ c ∈ cs', P c
  | [], _ => by
    rw [visitAll]
    exact ensures_pure (by simp)
  | c :: cs, h => by
    have ih := ensures_visitAll fun c hc => h c (.tail _ hc)
    rw [visitAll]
    refine (h c (.head _)).bind fun _ c' hc' => ih.bind ?_
    rintro _ cs' ⟨hlength, hcs'⟩
    exact ensures_pure ⟨congrArg (· + 1) hlength, List.forall_mem_cons.mpr ⟨hc', hcs'⟩⟩

end ScriptPress.Simplifying

import ScriptPress.Proofs.Simplify.Weight

/-! # Runs of the simplifying monad -/

namespace ScriptPress

variable {α β γ : Type} {x : Simplifying α β} {b : β}

namespace Trace

def after (added before : Trace α) : Trace α :=
  ⟨before.changes + added.changes, added.detached ++ before.detached⟩

theorem after_after (a b c : Trace α) : (a.after b).after c = a.after (b.after c) := by
  simp [after, Nat.add_assoc]

end Trace

namespace Simplifying

open Tree (Reduces Rewrites)

def Runs (x : Simplifying α β) (b : β) (u : Trace α) : Prop :=
  ∀ before, x.run before = .ok (b, u.after before)

theorem runs_pure (b : β) : Runs (pure b : Simplifying α β) b ⟨0, []⟩ := by
  intro before
  simp only [Trace.after, Nat.add_zero, List.nil_append]
  rfl

theorem runs_lift {x : Except Fault β} (h : x = .ok b) :
    Runs (liftM x : Simplifying α β) b ⟨0, []⟩ := by
  subst h
  intro before
  simp only [Trace.after, Nat.add_zero, List.nil_append]
  rfl

theorem Runs.bind {f : β → Simplifying α γ} {c : γ} {u v : Trace α} (hx : Runs x b u)
    (hf : Runs (f b) c v) : Runs (x >>= f) c (v.after u) := by
  intro before
  rw [StateT.run_bind, hx before]
  show (f b).run (u.after before) = _
  rw [hf, Trace.after_after]

theorem runs_release (ts : List (Tree (Option α))) : Runs (release ts) () ⟨0, ts⟩ :=
  fun _ => rfl

theorem runs_noteChange : Runs (noteChange : Simplifying α Unit) () ⟨1, []⟩ :=
  fun _ => rfl

theorem runs_perform (s : Step α) : Runs (perform s) s.tree ⟨1, s.detached⟩ :=
  fun _ => rfl

end Simplifying

namespace Tree

variable {n n' : Nat} {t t' t'' : Tree α}

structure Lightened (n : Nat) (t t' : Tree α) : Prop where
  weight : t'.weight + n ≤ t.weight
  same : n = 0 → t' = t

namespace Lightened

theorem refl (t : Tree α) : Lightened 0 t t := ⟨Nat.le_refl _, fun _ => rfl⟩

theorem trans (h : Lightened n t t') (h' : Lightened n' t' t'') : Lightened (n + n') t t'' := by
  constructor
  · have := h.weight
    have := h'.weight
    omega
  · intro hn
    rw [h'.same (by omega), h.same (by omega)]

theorem one (h : t'.weight < t.weight) : Lightened 1 t t' := ⟨h, fun hn => by cases hn⟩

end Lightened

theorem surcharge_exchange {k : Kind} {l r : List (Tree α)} {c c' : Tree α}
    (h : c.isEmpty → c'.isEmpty) :
    surcharge k (l ++ c' :: r) ≤ surcharge k (l ++ c :: r) := by
  by_cases hk : k = .ifElse
  · subst hk
    match l, r with
    | [], [] | [], [_] | [], [_, _] | [], _ :: _ :: _ :: _ => simp [surcharge]
    | [_], [] | [_], [_] | [_], _ :: _ :: _ => simp [surcharge]
    | [_, _], [] =>
      simp only [List.cons_append, List.nil_append, surcharge]
      by_cases hc : c.isEmpty
      · simp [hc, h hc]
      · rw [if_neg hc]
        split <;> omega
    | [_, _], _ :: _ => simp [surcharge]
    | _ :: _ :: _ :: _, _ => simp [surcharge]
  · simp [surcharge_of_ne hk]

end Tree

namespace Simplifying

open Tree (Reduces Rewrites Lightened)

variable {known : WellKnown} {t t' : Tree (Option α)} {g : β → Tree (Option α)}
variable {f : β → Simplifying α γ} {h : γ → Tree (Option α)}

def Carries (known : WellKnown) (t : Tree (Option α)) (g : β → Tree (Option α))
    (x : Simplifying α β) : Prop :=
  ∃ b u, Runs x b u ∧ Reduces known t (g b) u.detached ∧
    (t.WellShaped → Lightened u.changes t (g b))

theorem carries_pure (h : g b = t) : Carries known t g (pure b) :=
  ⟨b, ⟨0, []⟩, runs_pure b, h ▸ .refl _, fun _ => h ▸ .refl _⟩

theorem Carries.bind (hx : Carries known t g x)
    (hf : ∀ b d, Reduces known t (g b) d → Carries known (g b) h (f b)) :
    Carries known t h (x >>= f) := by
  obtain ⟨b, u, hb, hr, hl⟩ := hx
  obtain ⟨c, v, hc, hr', hl'⟩ := hf b _ hr
  exact ⟨c, v.after u, hb.bind hc, hr.trans hr', fun ht => (hl ht).trans (hl' (hr.wellShaped ht).1)⟩

theorem carries_lift {x : Except Fault β} (hx : x = .ok b) (hf : Carries known t h (f b)) :
    Carries known t h (liftM x >>= f) := by
  subst hx
  exact hf

theorem carries_performThen {s : Step α} {f : Tree (Option α) → Simplifying α β}
    (h : Rewrites known t ⟨t', s.detached⟩) (hif : t.kind = .ifElse → t'.weight < t.weight)
    (hf : Carries known t' g (f s.tree)) : Carries known t g (perform s >>= f) := by
  obtain ⟨c, v, hc, hr, hl⟩ := hf
  refine ⟨c, _, (runs_perform s).bind hc, (Reduces.rule h).trans hr, fun ht => ?_⟩
  have hlt : t'.weight < t.weight := by
    by_cases hk : t.kind = .ifElse
    · exact hif hk
    · exact h.weight_lt ht hk
  exact (Lightened.one hlt).trans (hl (h.wellShaped ht).1)

theorem carries_counted {d : List (Tree (Option α))} {x : Unit → Unit → Simplifying α β}
    (h : Rewrites known t ⟨t', d⟩) (hif : t.kind = .ifElse → t'.weight < t.weight)
    (hx : Carries known t' g (x () ())) :
    Carries known t g (release d >>= fun a => noteChange >>= x a) :=
  carries_performThen (s := ⟨t', d⟩) (f := fun _ => x () ()) h hif hx

theorem carries_perform {g : Tree (Option α) → Tree (Option α)} {s : Step α}
    (h : Rewrites known t ⟨g s.tree, s.detached⟩)
    (hif : t.kind = .ifElse → (g s.tree).weight < t.weight) : Carries known t g (perform s) :=
  carries_performThen h hif (carries_pure rfl)

theorem carries_performOr {o : Option (Step α)} (h : ∀ s, o = some s → Rewrites known t s)
    (hif : t.kind ≠ .ifElse) : Carries known t id (performOr t o) := by
  cases o with
  | none => exact carries_pure rfl
  | some s => exact carries_perform (h s rfl) fun hk => absurd hk hif

theorem Carries.child {m : Option α} {k : Kind} {l r : List (Tree (Option α))} {c : Tree (Option α)}
    (hx : Carries known c g x) (hk : k = .ifElse → c.isEmpty = false) :
    Carries known (.node m k (l ++ c :: r)) (fun b => .node m k (l ++ g b :: r)) x := by
  obtain ⟨b, u, hb, hr, hl⟩ := hx
  refine ⟨b, u, hb, .child hr, fun ht => ?_⟩
  have hlight := hl (ht.child c (by simp))
  have hcharge : Tree.surcharge k (l ++ g b :: r) ≤ Tree.surcharge k (l ++ c :: r) := by
    by_cases hif : k = .ifElse
    · exact Tree.surcharge_exchange fun hc => by simp [hk hif] at hc
    · simp [Tree.surcharge_of_ne hif]
  constructor
  · have := hlight.weight
    simp only [Tree.weight_node, Tree.weights_append, Tree.weights_cons]
    omega
  · intro hn
    exact congrArg (fun c => Tree.node m k (l ++ c :: r)) (hlight.same hn)

end Simplifying

end ScriptPress

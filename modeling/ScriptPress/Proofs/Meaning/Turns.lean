import ScriptPress.Proofs.Meaning.Core

/-! # More turns change nothing -/

namespace ScriptPress

variable {α β γ ω σ : Type} {e e' : Execution ω σ Unit}

def Extends (x x' : StateT σ Option β) : Prop :=
  ∀ s r, x.run s = some r → x'.run s = some r

namespace Extends

theorem refl (x : StateT σ Option β) : Extends x x :=
  fun _ _ h => h

theorem bind {x x' : StateT σ Option β} {f f' : β → StateT σ Option γ} (hx : Extends x x')
    (hf : ∀ b, Extends (f b) (f' b)) : Extends (x >>= f) (x' >>= f') := by
  intro s r h
  rw [StateT.run_bind, Option.bind_eq_bind, Option.bind_eq_some_iff] at h
  obtain ⟨⟨b, s'⟩, hb, hr⟩ := h
  rw [StateT.run_bind, hx s _ hb]
  exact hf b s' r hr

end Extends

namespace Execution

def Extended (e e' : Execution ω σ β) : Prop := Extends e.run e'.run

namespace Extended

theorem refl (e : Execution ω σ β) : Extended e e :=
  Extends.refl _

theorem bind {e e' : Execution ω σ β} {f f' : β → Execution ω σ γ} (he : Extended e e')
    (hf : ∀ b, Extended (f b) (f' b)) : Extended (e >>= f) (e' >>= f') := by
  refine Extends.bind he fun c => ?_
  cases c with
  | ok b => exact hf b
  | error a => exact Extends.refl _

theorem ite {c : Bool} {e e' f f' : Execution ω σ β} (he : Extended e e') (hf : Extended f f') :
    Extended (if c then e else f) (if c then e' else f') := by
  cases c with
  | true => exact he
  | false => exact hf

theorem enter (h : Extended e e') : Extended (enter e) (enter e') :=
  Extends.bind h fun _ => Extends.refl _

theorem handled {f f' : Value ω → Execution ω σ Unit} (he : Extended e e')
    (hf : ∀ v, Extended (f v) (f' v)) : Extended (handled e f) (handled e' f') := by
  refine Extends.bind he fun c => ?_
  rcases c with (_ | _ | _ | v) | _
  case error.throw => exact hf v
  all_goals exact Extends.refl _

theorem ensured {e e' f f' : Execution ω σ Unit} (he : Extended e e') (hf : Extended f f') :
    Extended (ensured e f) (ensured e' f') :=
  Extends.bind he fun _ => Extends.bind hf fun _ => Extends.refl _

theorem iterate {n n' : Nat} (hn : n ≤ n') {turn turn' : Execution ω σ Bool}
    (h : Extended turn turn') : Extended (iterate n turn) (iterate n' turn') := by
  induction n generalizing n' with
  | zero =>
    intro s r hr
    cases hr
  | succ n ih =>
    obtain ⟨k, rfl⟩ : ∃ k, n' = k + 1 := ⟨n' - 1, by omega⟩
    rw [Execution.iterate, Execution.iterate]
    exact bind h fun b => ite (ih (by omega)) (refl _)

end Extended

end Execution

namespace Tree

open Execution

variable {H : Host ω σ}

theorem executeAll_extended (locals : Locals ω) {cs : List (Tree α)}
    (h : ∀ c ∈ cs, Extended (c.execute H n locals) (c.execute H n' locals)) :
    Extended (executeAll H n cs locals) (executeAll H n' cs locals) := by
  induction cs with
  | nil => exact .refl _
  | cons c cs ih =>
    rw [executeAll_cons, executeAll_cons]
    exact (h c (.head _)).bind fun _ => ih fun c hc => h c (.tail _ hc)

theorem execute_extended (hn : n ≤ n') (t : Tree α) : t.WellShaped → t.Core → ∀ locals,
      Extended (t.execute H n locals) (t.execute H n' locals) := by
  induction t with
  | node m k cs ih =>
    intro hs hc locals
    have ih : ∀ c ∈ cs, ∀ locals, Extended (c.execute H n locals) (c.execute H n' locals) :=
      fun c hmem => ih c hmem (hs.child c hmem) ((core_node.mp hc).2 c hmem)
    by_cases he : k.isExpression
    · rw [execute_of_isExpression _ _ _ _ _ he, execute_of_isExpression _ _ _ _ _ he]
      exact .refl _
    · cases k with
      | module | block =>
        rw [execute_list _ _ _ _ _ (by simp), execute_list _ _ _ _ _ (by simp)]
        exact executeAll_extended locals fun c hmem => ih c hmem locals
      | expression | «return» | throw =>
        obtain ⟨x, rfl, -⟩ := (wellShaped_one rfl).mp hs
        exact .refl _
      | empty => exact .refl _
      | ifElse =>
        obtain ⟨t, x, y, rfl, -⟩ := (wellShaped_three rfl).mp hs
        rw [execute_ifElse, execute_ifElse]
        exact .bind (.refl _) fun _ => .ite (ih x (by simp) locals) (ih y (by simp) locals)
      | whileLoop =>
        obtain ⟨t, b, rfl, -⟩ := (wellShaped_two rfl).mp hs
        rw [execute_whileLoop, execute_whileLoop]
        refine .iterate hn (.bind (.refl _) fun _ => .ite ?_ (.refl _))
        exact (ih b (by simp) locals).enter
      | doWhile =>
        obtain ⟨b, t, rfl, -⟩ := (wellShaped_two rfl).mp hs
        rw [execute_doWhile, execute_doWhile]
        exact .iterate hn (.bind (ih b (by simp) locals).enter fun _ => .refl _)
      | forLoop =>
        obtain ⟨a, t, u, b, rfl, -⟩ := (wellShaped_four rfl).mp hs
        rw [execute_forLoop, execute_forLoop]
        refine .bind (.refl _) fun _ => .iterate hn (.bind (.refl _) fun _ => .ite ?_ (.refl _))
        exact .bind (ih b (by simp) locals).enter fun _ => .refl _
      | «try» =>
        obtain ⟨b, x, y, rfl, -⟩ := (wellShaped_three rfl).mp hs
        rw [execute_try, execute_try]
        refine .ensured ?_ (ih y (by simp) locals)
        unfold attempt
        split
        · exact .handled (ih b (by simp) locals) fun v => ih x (by simp) _
        · exact ih b (by simp) locals
      | «catch» name =>
        obtain ⟨b, rfl, -⟩ := (wellShaped_one rfl).mp hs
        exact ih b (by simp) locals
      | «break» target | «continue» target =>
        obtain rfl := (wellShaped_none rfl).mp hs
        cases target <;> exact .refl _
      | _ => first | exact absurd rfl he | cases (core_node.mp hc).1

theorem Terminates.unique {t : Tree α} (hs : t.WellShaped) (hc : t.Core) {s : σ}
    {c c' : Completion ω} {s₁ s₂ : σ} (h : t.Terminates H s c s₁) (h' : t.Terminates H s c' s₂) :
    c = c' ∧ s₁ = s₂ := by
  obtain ⟨n, hn⟩ := h
  obtain ⟨n', hn'⟩ := h'
  have hmax := execute_extended (H := H) (Nat.le_max_left n n') t hs hc .none s _ hn
  have hmax' := execute_extended (H := H) (Nat.le_max_right n n') t hs hc .none s _ hn'
  rw [hmax, Option.some.injEq, Prod.mk.injEq] at hmax'
  exact hmax'

end Tree

end ScriptPress

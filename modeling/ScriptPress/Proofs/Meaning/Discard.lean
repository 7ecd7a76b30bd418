import ScriptPress.Proofs.Meaning.Core
import ScriptPress.Proofs.Meaning.Laws
import ScriptPress.Proofs.Simplify.Discard

/-! # The meaning of discarded values -/

namespace ScriptPress

open List

namespace Tree

variable {α ω σ : Type} {H : Host ω σ} (locals : Locals ω)

def discardAll (H : Host ω σ) (locals : Locals ω) : List (Tree α) → Evaluation ω σ Unit
  | [] => pure ()
  | t :: ts => t.evaluate H locals >>= fun _ => discardAll H locals ts

theorem discardAll_append (l r : List (Tree α)) :
    discardAll H locals (l ++ r) = discardAll H locals l >>= fun _ => discardAll H locals r := by
  induction l with
  | nil => rfl
  | cons t l ih => rw [cons_append, discardAll, discardAll, ih, bind_assoc]

theorem evaluateLast_cons (t : Tree α) {ts : List (Tree α)} (h : ts ≠ []) :
    evaluateLast H locals (t :: ts) =
      t.evaluate H locals >>= fun _ => evaluateLast H locals ts := by
  obtain ⟨u, us, rfl⟩ := exists_cons_of_ne_nil h
  rfl

theorem evaluateLast_append (l : List (Tree α)) {r : List (Tree α)} (h : r ≠ []) :
    evaluateLast H locals (l ++ r) =
      discardAll H locals l >>= fun _ => evaluateLast H locals r := by
  induction l with
  | nil => rfl
  | cons t l ih =>
    rw [cons_append, evaluateLast_cons _ _ (by simp [h]), ih, discardAll, bind_assoc]

theorem evaluateLast_discard (ts : List (Tree α)) :
    (evaluateLast H locals ts >>= fun _ => pure ()) = discardAll H locals ts := by
  induction ts with
  | nil => rfl
  | cons t ts ih =>
    cases ts with
    | nil => rfl
    | cons u us =>
      rw [evaluateLast_cons _ _ (by simp), bind_assoc, ih]
      rfl

theorem lookup_reads (s : SymbolId) : Reads (lookup H locals s) := by
  unfold lookup
  split
  · exact reads_pure _
  · exact reads_get _

theorem reads_of_pure (t : Tree α) (locals : Locals ω) :
    t.WellShaped → t.Core → t.hasEffects = .ok false → Reads (t.evaluate H locals) := by
  induction t with
  | node m k cs ih =>
    intro hs hc he
    have hcore := (core_node.mp hc).1
    cases k with
    | boolean _ | null | number _ | string _ | undefined => exact reads_pure _
    | identifier s => exact lookup_reads locals s
    | this => exact reads_get _
    | unary op =>
      obtain ⟨x, rfl, hx⟩ := (wellShaped_one rfl).mp hs
      have hop : op.isPure := hcore
      rw [hasEffects] at he
      simp only [hop, if_true, operandHasEffects] at he
      rw [evaluate_unary]
      exact (ih x (by simp) hx.2 ((core_node.mp hc).2 x (by simp)) he).map _
    | _ =>
      first
      | cases hcore; done
      | cases (show (Except.ok true : Except Fault Bool) = .ok false from he)

structure Performs (H : Host ω σ) (parts : List (Tree α))
    (e : Locals ω → Evaluation ω σ Unit) : Prop where
  core : ∀ p ∈ parts, p.Core
  discard : ∀ locals, e locals = discardAll H locals parts

theorem Performs.append {l r : List (Tree α)} {e f : Locals ω → Evaluation ω σ Unit}
    (hl : Performs H l e) (hr : Performs H r f) :
    Performs H (l ++ r) fun locals => e locals >>= fun _ => f locals := by
  refine ⟨fun p hp => ?_, fun locals => ?_⟩
  · rcases mem_append.mp hp with hp | hp
    · exact hl.core p hp
    · exact hr.core p hp
  · rw [discardAll_append, hl.discard, hr.discard]

def discardValue (H : Host ω σ) (t : Tree α) (locals : Locals ω) : Evaluation ω σ Unit :=
  t.evaluate H locals >>= fun _ => pure ()

theorem performs_whole {t : Tree α} (h : t.Core) : Performs H [t] (t.discardValue H) :=
  ⟨by simpa using h, fun _ => rfl⟩

theorem effectsAll_performs : ∀ {cs : List (Tree (Option α))} {e : Effects (Option α)},
    (∀ c ∈ cs, ∃ e, c.effects = .ok e ∧ Performs H e.parts (c.discardValue H)) →
      effectsAll cs = .ok e → Performs H e.parts fun locals => discardAll H locals cs
  | [], e, _, he => by
    rw [effectsAll] at he
    cases he
    exact ⟨by simp, fun _ => rfl⟩
  | c :: cs, e, h, he => by
    obtain ⟨e₁, he₁, hp⟩ := h c (.head _)
    have hcs := fun c hc => h c (.tail _ hc)
    rw [effectsAll, he₁] at he
    cases he₂ : effectsAll cs with
    | error f =>
      rw [he₂] at he
      cases he
    | ok e₂ =>
      rw [he₂] at he
      cases he
      have happ := hp.append (effectsAll_performs hcs he₂)
      refine ⟨happ.core, fun locals => ?_⟩
      refine Eq.trans ?_ (happ.discard locals)
      simp only [discardValue, discardAll, bind_assoc, pure_bind]

theorem effectsOperands_performs {m : Option α} {k : Kind} :
    ∀ {roles : List Part} {cs : List (Tree (Option α))}, roles.length ≤ cs.length →
      (∀ c ∈ cs, ∃ e, c.effects = .ok e ∧ Performs H e.parts (c.discardValue H)) →
      ∃ e, effectsOperands m k roles cs = .ok e ∧
        Performs H e.parts fun locals => discardAll H locals (cs.take roles.length)
  | [], cs, _, _ => ⟨_, by rw [effectsOperands], by simp, fun _ => rfl⟩
  | _ :: roles, c :: cs, hlen, h => by
    obtain ⟨e, he, hp⟩ := h c (.head _)
    obtain ⟨e', he', hp'⟩ := effectsOperands_performs (m := m) (k := k)
      (Nat.le_of_succ_le_succ hlen) fun c hc => h c (.tail _ hc)
    refine ⟨_, by rw [effectsOperands, he, he']; rfl, (hp.append hp').core, fun locals => ?_⟩
    refine Eq.trans ?_ ((hp.append hp').discard locals)
    simp only [length_cons, take_succ_cons, discardValue, discardAll, bind_assoc, pure_bind]

theorem effects_performs (t : Tree (Option α)) : t.Fit Kind.isExpression → t.Core →
    ∃ e, t.effects = .ok e ∧ Performs H e.parts (t.discardValue H) := by
  induction t with
  | node m k cs ih =>
    intro hfit hc
    obtain ⟨hk, hs⟩ := hfit
    have hcs := (core_node.mp hc).2
    have hcore := (core_node.mp hc).1
    obtain ⟨b, hb⟩ := hasEffects_total _ hs
    cases b with
    | false =>
      refine ⟨_, effects_of_pure hb, by simp [Effects.none], fun locals => ?_⟩
      exact (reads_of_pure _ locals hs hc hb).discard _
    | true =>
      have hall : ∀ c ∈ cs, c.kind.isExpression →
          ∃ e, c.effects = .ok e ∧ Performs H e.parts (c.discardValue H) := fun c hmem he =>
        ih c hmem ⟨he, hs.child c hmem⟩ (hcs c hmem)
      -- All cases but two: leading operands, and what the others do must not matter.
      have hoperands : ∀ {r : List Part}, discard k cs = .ok (.operands r) →
          (∀ locals, (node m k cs).discardValue H locals = discardAll H locals (cs.take r.length)) →
          ∃ e, (node m k cs).effects = .ok e ∧
            Performs H e.parts ((node m k cs).discardValue H) := by
        intro roles hd heval
        obtain ⟨d, hd', hroles⟩ := discard_total hs
        rw [hd, Except.ok.injEq] at hd'
        subst hd'
        obtain ⟨e, he, hp⟩ := effectsOperands_performs (m := m) (k := k) hroles.1
          fun c hmem => hall c hmem (hroles.2 c hmem).1
        refine ⟨e, by rw [effects, hb, hd]; exact he, hp.core, fun locals => ?_⟩
        rw [heval, hp.discard]
      have hwhole : discard k cs = .ok .whole → ∃ e, (node m k cs).effects = .ok e ∧
          Performs H e.parts ((node m k cs).discardValue H) := by
        intro hd
        exact ⟨_, by rw [effects, hb, hd]; rfl, performs_whole hc⟩
      cases k with
      | boolean _ | null | number _ | string _ | undefined | identifier _ | this =>
        cases (show (Except.ok false : Except Fault Bool) = .ok true from hb)
      | call => exact hwhole rfl
      | sequence =>
        have hfit := (wellShaped_of_element rfl).mp hs
        obtain ⟨e, he, -⟩ := effectsAll_total fun c hc => effects_total c (hfit c hc)
        have hp := effectsAll_performs (fun c hc => hall c hc (hfit c hc).1) he
        refine ⟨e.under m .sequence [], ?_, hp.core, fun locals => ?_⟩
        · rw [effects, hb]
          show (effectsAll cs >>= fun e => _) = _
          rw [he]
          rfl
        · rw [discardValue, evaluate_sequence, evaluateLast_discard]
          exact hp.discard locals
      | unary op =>
        obtain ⟨x, rfl, hx⟩ := (wellShaped_one rfl).mp hs
        have hop : op.isPure := hcore
        refine hoperands (r := [Part.unaryOperand]) (by simp [discard, hop]) fun locals => ?_
        rw [discardValue, evaluate_unary, bind_assoc]
        rfl
      | binary op =>
        obtain ⟨x, y, rfl, hx, hy⟩ := (wellShaped_two rfl).mp hs
        cases hop : op.isLogical with
        | false =>
          refine hoperands (r := [Part.leftOperand, Part.rightOperand])
            (by simp [discard, hop]) fun locals => ?_
          rw [discardValue, evaluate_binary _ _ _ _ _ hop]
          simp only [bind_assoc]
          rfl
        | true =>
          obtain ⟨e, he⟩ := hasEffects_total y hy.2
          have hd := discard_logical (a := x) hop he
          cases e with
          | true => exact hwhole hd
          | false =>
            -- The right operand only reads, whether it is evaluated or not.
            refine hoperands hd fun locals => ?_
            have hreads : Reads (y.evaluate H locals) :=
              reads_of_pure y locals hy.2 (hcs y (by simp)) he
            cases op with
            | logicalAnd =>
              rw [discardValue, evaluate_logicalAnd, bind_assoc]
              refine congrArg _ (funext fun v => ?_)
              split
              · exact hreads.discard _
              · rfl
            | logicalOr =>
              rw [discardValue, evaluate_logicalOr, bind_assoc]
              refine congrArg _ (funext fun v => ?_)
              split
              · rfl
              · exact hreads.discard _
            | _ => cases hop
      | conditional =>
        obtain ⟨t, x, y, rfl, ht, hx, hy⟩ := (wellShaped_three rfl).mp hs
        obtain ⟨e, he⟩ := hasEffects_total x hx.2
        obtain ⟨f, hf⟩ := hasEffects_total y hy.2
        have hd := discard_conditional (a := t) he hf
        cases e with
        | true => exact hwhole hd
        | false =>
          cases f with
          | true => exact hwhole hd
          | false =>
            refine hoperands hd fun locals => ?_
            have hreads : Reads (x.evaluate H locals) :=
              reads_of_pure x locals hx.2 (hcs x (by simp)) he
            have hreads' : Reads (y.evaluate H locals) :=
              reads_of_pure y locals hy.2 (hcs y (by simp)) hf
            rw [discardValue, evaluate_conditional, bind_assoc]
            refine congrArg _ (funext fun v => ?_)
            split
            · exact hreads.discard _
            · exact hreads'.discard _
      | _ => first | cases hcore; done | cases hk

theorem evaluate_mark (m : α) (t : Tree α) :
    (node m t.kind t.children).evaluate H locals = t.evaluate H locals := by
  cases t
  rw [kind_node, children_node, evaluate.eq_def, evaluate.eq_def]

theorem execute_mark (turns : Nat) (locals : Locals ω) (m : α) (t : Tree α) :
    (node m t.kind t.children).execute H turns locals = t.execute H turns locals := by
  cases t
  rw [kind_node, children_node, execute.eq_def, execute.eq_def]

variable {c : Tree (Option α)}

theorem discardValue_of_nothing (hc : c.Fit Kind.isExpression) (hcore : c.Core)
    (h : c.discarded = .ok .nothing) (locals : Locals ω) : c.discardValue H locals = pure () := by
  obtain ⟨e, he, hp⟩ := effects_performs (H := H) c hc hcore
  obtain ⟨e', he', -, ⟨hnil, -⟩ | ⟨-, h'⟩ | ⟨-, -, h'⟩⟩ := discarded_total hc
  · rw [he, Except.ok.injEq] at he'
    subst he'
    rw [hp.discard, hnil]
    rfl
  · rw [h'] at h
    cases h
  · rw [h'] at h
    cases h

theorem reduction_performs {m : Option α} {parts dropped : List (Tree (Option α))}
    {e : Locals ω → Evaluation ω σ Unit} (hne : parts ≠ []) (h : Performs H parts e) :
    (reduction m parts dropped).tree.Core ∧
      ∀ locals, (reduction m parts dropped).tree.discardValue H locals = e locals := by
  match parts, hne with
  | [only], _ =>
    refine ⟨core_mark.mpr (h.core only (.head _)), fun locals => ?_⟩
    rw [h.discard, discardValue]
    show ((node m only.kind only.children).evaluate H locals >>= _) = _
    rw [evaluate_mark]
    rfl
  | a :: b :: rest, _ =>
    refine ⟨core_node.mpr ⟨rfl, h.core⟩, fun locals => ?_⟩
    rw [h.discard, discardValue]
    show ((node m .sequence (a :: b :: rest)).evaluate H locals >>= _) = _
    rw [evaluate_sequence, evaluateLast_discard]

theorem discardValue_of_reduced {s : Step α} (hc : c.Fit Kind.isExpression) (hcore : c.Core)
    (h : c.discarded = .ok (.reduced s)) :
    s.tree.Core ∧ ∀ locals, s.tree.discardValue H locals = c.discardValue H locals := by
  obtain ⟨e, he, hp⟩ := effects_performs (H := H) c hc hcore
  obtain ⟨e', he', -, hne, -, rfl⟩ := exists_of_reduced hc h
  rw [he, Except.ok.injEq] at he'
  subst he'
  exact reduction_performs hne hp

end Tree

end ScriptPress

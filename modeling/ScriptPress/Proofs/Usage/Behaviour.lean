import ScriptPress.Proofs.Meaning.StraightLine
import ScriptPress.Proofs.Usage.Constant

/-! # Inlining and calls -/

namespace ScriptPress

open List

variable {α β ω : Type} {y : SymbolId}

/-! ## Machines side by side -/

structure Machine.Agree (x : SymbolId) (known : Option Primitive) (s s' : Machine ω) : Prop where
  calls : s.calls = s'.calls
  values : ∀ y, y ≠ x → s.values y = s'.values y
  known : ∀ p, known = some p → s.values x = .primitive p

def Evaluation.Together (x : SymbolId) (known known' : Option Primitive)
    (e e' : Evaluation ω (Machine ω) β) : Prop :=
  ∀ s s', s.Agree x known s' → (e.run.run s).1 = (e'.run.run s').1 ∧
    (e.run.run s).2.calls = (e'.run.run s').2.calls ∧
    ∀ b, (e.run.run s).1 = .ok b → (e.run.run s).2.Agree x known' (e'.run.run s').2

namespace Evaluation

variable {γ : Type} {x : SymbolId} {known known' known'' : Option Primitive}
  {e e' : Evaluation ω (Machine ω) β} {f f' : β → Evaluation ω (Machine ω) γ}

theorem run_bind_ok {s s' : Machine ω} {b : β} (h : e.run.run s = (.ok b, s')) :
    (e >>= f).run.run s = (f b).run.run s' := by
  show ExceptT.bindCont f (e s).1 (e s).2 = _
  rw [show e s = _ from h]
  rfl

theorem run_bind_error {s s' : Machine ω} {v : Value ω} (h : e.run.run s = (.error v, s')) :
    (e >>= f).run.run s = (.error v, s') := by
  show ExceptT.bindCont f (e s).1 (e s).2 = _
  rw [show e s = _ from h]
  rfl

theorem together_pure (b : β) :
    Together x known known (pure b : Evaluation ω (Machine ω) β) (pure b) :=
  fun _ _ h => ⟨rfl, h.calls, fun _ _ => h⟩

theorem Together.bind (h : Together x known known' e e')
    (hf : ∀ b, Together x known' known'' (f b) (f' b)) :
    Together x known known'' (e >>= f) (e' >>= f') := by
  intro s s' hs
  obtain ⟨hresult, hcalls, hok⟩ := h s s' hs
  rcases hr : e.run.run s with ⟨result, s₁⟩
  rcases hr' : e'.run.run s' with ⟨result', s₁'⟩
  rw [hr, hr'] at hresult hcalls
  rw [hr, hr'] at hok
  obtain rfl : result = result' := hresult
  cases result with
  | error v =>
    rw [run_bind_error hr, run_bind_error hr']
    exact ⟨rfl, hcalls, by simp⟩
  | ok b =>
    rw [run_bind_ok hr, run_bind_ok hr']
    exact hf b s₁ s₁' (hok b rfl)

theorem together_ite {c : Prop} [Decidable c] {d d' : Evaluation ω (Machine ω) β}
    (h : Together x known known' e e') (hd : Together x known known' d d') :
    Together x known known' (if c then e else d) (if c then e' else d') := by
  split
  · exact h
  · exact hd

theorem together_store (hy : y ≠ x) (v : Value ω) :
    Together x known known (Machine.store y v) (Machine.store y v) := by
  intro s s' h
  refine ⟨rfl, h.calls, fun _ _ => ⟨h.calls, fun z hz => ?_, fun p hp => ?_⟩⟩
  · show (if z = y then v else s.values z) = if z = y then v else s'.values z
    rw [h.values z hz]
  · show (if x = y then v else s.values x) = _
    rw [if_neg (Ne.symm hy), h.known p hp]

end Evaluation

namespace Tree

open Evaluation

variable {x : SymbolId} {k : Kind} {p : Primitive} {known : Option Primitive}
  {pinned : SymbolId → Bool} {W : World ω}
variable {cs us : List (Tree α)} {e u t : Tree α}

/-! ## Expressions -/

def Avoids (x : SymbolId) (e : Tree α) : Prop := ∀ u ∈ e.subtrees, u.kind ≠ .identifier x

theorem Avoids.child {m : α} {kind : Kind} (h : (node m kind cs).Avoids x) {c : Tree α}
    (hc : c ∈ cs) : c.Avoids x :=
  fun u hu => h u (mem_subtrees_node.mpr (.inr ⟨c, hc, hu⟩))

theorem together_lookup (hy : y ≠ x) :
    Together x known known (lookup W.host .none y) (lookup W.host .none y) := by
  intro s s' h
  refine ⟨?_, h.calls, fun _ _ => h⟩
  show Except.ok (s.values y) = Except.ok (s'.values y)
  rw [h.values y hy]

theorem together_evaluateAll {f : Tree α → Tree α}
    (h : ∀ c ∈ cs, Together x known known (c.evaluate W.host .none) ((f c).evaluate W.host .none)) :
    Together x known known (evaluateAll W.host .none cs) (evaluateAll W.host .none (cs.map f)) := by
  induction cs with
  | nil => exact together_pure []
  | cons c cs ih =>
    refine (h c (.head _)).bind fun v => ?_
    exact (ih fun d hd => h d (.tail _ hd)).bind fun vs => together_pure _

theorem together_evaluateLast {f : Tree α → Tree α}
    (h : ∀ c ∈ cs, Together x known known (c.evaluate W.host .none) ((f c).evaluate W.host .none)) :
    Together x known known (evaluateLast W.host .none cs)
      (evaluateLast W.host .none (cs.map f)) := by
  induction cs with
  | nil => exact together_pure _
  | cons c cs ih =>
    have hrest := ih fun d hd => h d (.tail _ hd)
    cases cs with
    | nil => exact h c (.head _)
    | cons d ds => exact (h c (.head _)).bind fun _ => hrest

theorem together_call (f : SymbolId) (v : Value ω) (vs : List (Value ω)) :
    Together x known known (W.host.call f v vs) (W.host.call f v vs) := by
  intro s s' h
  have hcalls : s.calls ++ [⟨f, v, vs⟩] = s'.calls ++ [⟨f, v, vs⟩] := by rw [h.calls]
  exact ⟨congrArg W.reply hcalls, hcalls, fun _ _ => ⟨hcalls, h.values, h.known⟩⟩

theorem Plain.together (hx : pinned x = false) (hk : k.value? = some p) (he : e.Plain pinned)
    (hs : e.WellShaped) (hknown : known = some p ∨ e.Avoids x) :
    Together x known known (e.evaluate W.host .none)
      ((e.substitute x k).evaluate W.host .none) := by
  induction e with
  | node m kind cs ih =>
    have hcs : ∀ c ∈ cs, Together x known known (c.evaluate W.host .none)
        ((c.substitute x k).evaluate W.host .none) := fun c hc =>
      ih c hc (he.child hs hc) (hs.child c hc)
        (hknown.imp_right fun h => h.child hc)
    have hcore := (core_node.mp he.core).1
    have hexpression := he.expression
    rw [substitute_node]
    cases kind with
    | identifier y =>
      by_cases hy : y = x
      · -- The name itself: the first machine reads the constant that the second one has.
        subst hy
        have hsome : known = some p := by
          rcases hknown with h | h
          · exact h
          · exact absurd rfl (h _ (mem_subtrees_self _))
        rw [if_pos rfl, evaluate_literal _ _ _ _ hk, evaluate_identifier]
        intro s s' h
        refine ⟨?_, h.calls, fun _ _ => h⟩
        show Except.ok (s.values y) = Except.ok (.primitive p)
        rw [h.known p hsome]
      · rw [if_neg (by simpa using hy), evaluate_identifier, evaluate_identifier]
        exact together_lookup hy
    | this =>
      rw [if_neg (by simp), evaluate_this, evaluate_this]
      exact fun _ _ h => ⟨rfl, h.calls, fun _ _ => h⟩
    | unary op =>
      obtain ⟨a, rfl, -⟩ := (wellShaped_one rfl).mp hs
      rw [if_neg (by simp), map_singleton, evaluate_unary, evaluate_unary]
      exact (hcs a (.head _)).bind fun v => together_pure _
    | binary op =>
      obtain ⟨a, b, rfl, -⟩ := (wellShaped_two rfl).mp hs
      have ha := hcs a (.head _)
      have hb := hcs b (by simp)
      rw [if_neg (by simp), map_cons, map_singleton]
      by_cases hop : op.isLogical = false
      · rw [evaluate_binary _ _ _ _ _ hop, evaluate_binary _ _ _ _ _ hop]
        exact ha.bind fun v => hb.bind fun w => together_pure _
      · cases op with
        | logicalAnd =>
          rw [evaluate_logicalAnd, evaluate_logicalAnd]
          exact ha.bind fun v => together_ite hb (together_pure _)
        | logicalOr =>
          rw [evaluate_logicalOr, evaluate_logicalOr]
          exact ha.bind fun v => together_ite (together_pure _) hb
        | _ => exact absurd rfl hop
    | conditional =>
      obtain ⟨a, b, c, rfl, -⟩ := (wellShaped_three rfl).mp hs
      rw [if_neg (by simp), map_cons, map_cons, map_singleton,
        evaluate_conditional, evaluate_conditional]
      exact (hcs a (.head _)).bind fun v =>
        together_ite (hcs b (by simp)) (hcs c (by simp))
    | sequence =>
      rw [if_neg (by simp), evaluate_sequence, evaluate_sequence]
      exact together_evaluateLast hcs
    | call =>
      -- A function that is called is pinned, so it is not the name.
      obtain ⟨m', f, arguments, rfl, hf⟩ := he.callee_eq hs
      have hne : f ≠ x := by
        rintro rfl
        rw [hx] at hf
        cases hf
      rw [if_neg (by simp), map_cons, substitute_node, if_neg (by simpa using hne),
        evaluate_call _ _ _ _ _ rfl, evaluate_call _ _ _ _ _ rfl]
      refine (together_lookup hne).bind fun v => ?_
      refine (together_evaluateAll fun c hc => hcs c (.tail _ hc)).bind ?_
      exact fun vs => together_call f v vs
    | boolean _ | null | number _ | string _ | undefined =>
      rw [if_neg (by simp)]
      exact together_pure _
    | array | index | member _ | «new» | object | regExp _ | assign _ => cases hcore
    | _ => cases hexpression

/-! ## Steps -/

theorem substitute_assign {m m' m'' : α} {op : AssignOp} (hy : y ≠ x) :
    (node m .expression [node m' (.assign op) [node m'' (.identifier y) [], e]]).substitute x k =
      node m .expression
        [node m' (.assign op) [node m'' (.identifier y) [], e.substitute x k]] := by
  simp [hy]

theorem IsStep.together (hx : pinned x = false) (hk : k.value? = some p) (hu : u.IsStep pinned)
    (hs : u.WellShaped) (htarget : u.target? ≠ some x)
    (hcopy : ∀ y, u.kind = .variable y → ∀ v ∈ u.children, v.kind = .identifier x → k ≠ .undefined)
    (hknown : known = some p ∨ u.Avoids x) :
    Together x known known (u.perform W) ((u.substitute x k).perform W) := by
  cases hu with
  | @declare m y v name value =>
    have hy : y ≠ x := fun h => htarget (congrArg some h)
    have hv : Together x known known (v.evaluate W.host .none)
        ((v.substitute x k).evaluate W.host .none) :=
      value.together hx hk (hs.child v (.head _))
        (hknown.imp_right fun h => h.child (.head _))
    have hkind : (v.substitute x k).kind = .undefined ↔ v.kind = .undefined := by
      rw [kind_substitute]
      split
      · rename_i heq
        simp [heq, hcopy y rfl v mem_cons_self heq]
      · rfl
    rw [substitute_node, if_neg (by simp)]
    show Together x known known (if v.kind = .undefined then _ else _)
      (if (v.substitute x k).kind = .undefined then _ else _)
    simp only [hkind]
    exact together_ite (together_pure ()) (hv.bind fun w => together_store hy w)
  | @assign m m' m'' op y e value =>
    have hy : y ≠ x := fun h => htarget (congrArg some h)
    have hassign := hs.child _ (.head _)
    have he : Together x known known (e.evaluate W.host .none)
        ((e.substitute x k).evaluate W.host .none) :=
      value.together hx hk (hassign.child e (by simp))
        (hknown.imp_right fun h => (h.child mem_cons_self).child (by simp))
    rw [substitute_assign hy]
    exact (together_lookup hy).bind fun old => he.bind fun new => together_store hy _
  | @call m m' cs value =>
    have hcall : Together x known known ((node m' .call cs).evaluate W.host .none)
        (((node m' .call cs).substitute x k).evaluate W.host .none) :=
      value.together hx hk (hs.child _ (.head _))
        (hknown.imp_right fun h => h.child (.head _))
    rw [substitute_node, if_neg (by simp), map_singleton]
    rw [substitute_node, if_neg (by simp)] at hcall ⊢
    exact hcall.bind fun _ => together_pure ()

theorem together_declare (hk : k.value? = some p) {m m' : α} (h : k = .undefined → known = some p) :
    Together x known (some p) ((node m (.variable x) [node m' k []]).perform W) (pure ()) := by
  show Together x known (some p) (if k = .undefined then pure ()
    else (node m' k []).evaluate W.host .none >>= Machine.store x) (pure ())
  intro s s' hs
  split
  · rename_i hundefined
    exact ⟨rfl, hs.calls, fun _ _ => h hundefined ▸ hs⟩
  · rw [evaluate_literal _ _ _ _ hk, pure_bind]
    refine ⟨rfl, hs.calls, fun _ _ => ⟨hs.calls, fun y hy => ?_, fun q hq => ?_⟩⟩
    · show (if y = x then _ else s.values y) = s'.values y
      rw [if_neg hy, hs.values y hy]
    · show (if x = x then Value.primitive p else _) = _
      rw [if_pos rfl, Option.some.inj hq]

/-! ## Runs -/

def inlineSteps (x : SymbolId) (k : Kind) (us : List (Tree α)) : List (Tree α) :=
  others x (us.map (substitute x k))

def WritesFirst (x : SymbolId) (us : List (Tree α)) : Prop :=
  ∀ o, (us.flatMap (uses false)).find? (fun o => o.symbol = x) = some o → o.access = .write

structure Inlines (pinned : SymbolId → Bool) (x : SymbolId) (k : Kind) (us : List (Tree α)) :
    Prop where
  isStep : ∀ u ∈ us, u.IsStep pinned
  shaped : ∀ u ∈ us, u.WellShaped
  declare : ∀ u ∈ us, u.target? = some x → ∃ m m', u = node m (.variable x) [node m' k []]
  copy : ∀ u ∈ us, ∀ y, u.kind = .variable y → ∀ v ∈ u.children, v.kind = .identifier x →
    k ≠ .undefined

theorem Inlines.tail (h : Inlines pinned x k (u :: us)) : Inlines pinned x k us :=
  ⟨fun w hw => h.isStep w (.tail _ hw), fun w hw => h.shaped w (.tail _ hw),
    fun w hw => h.declare w (.tail _ hw), fun w hw => h.copy w (.tail _ hw)⟩

theorem WritesFirst.cons (h : WritesFirst x (u :: us)) (hu : u.IsStep pinned) (hs : u.WellShaped)
    (htarget : u.target? ≠ some x) : u.Avoids x ∧ WritesFirst x us := by
  have hread : ∀ o ∈ u.uses false, o.symbol = x → o.access = .read := by
    intro o ho hsymbol
    obtain ⟨os, hos, ⟨huses, -⟩ | ⟨y, m, huses, hy⟩⟩ := hu.uses_eq hs
    · exact hos o (huses ▸ ho)
    · rw [huses] at ho
      rcases mem_cons.mp ho with rfl | ho
      · exact absurd (hsymbol ▸ hy) htarget
      · exact hos o ho
  have hnone : (u.uses false).find? (fun o => o.symbol = x) = none := by
    cases hfind : (u.uses false).find? (fun o => o.symbol = x) with
    | none => rfl
    | some o =>
      have hwrite := h o (by rw [flatMap_cons, find?_append, hfind]; rfl)
      rw [hread o (mem_of_find?_eq_some hfind) (by simpa using find?_some hfind)]
        at hwrite
      cases hwrite
  constructor
  · intro w hw hkind
    obtain ⟨a, ha⟩ := mem_uses_of_node hs hw (by rw [hkind]; rfl) false
    exact find?_eq_none.mp hnone _ ha (by simp)
  · intro o ho
    exact h o (by rw [flatMap_cons, find?_append, hnone]; exact ho)

theorem inlineSteps_cons_declare {m m' : α} :
    inlineSteps x k (node m (.variable x) [node m' k []] :: us) = inlineSteps x k us := by
  rw [inlineSteps, map_cons, substitute_node, if_neg (by simp), others,
    filter_cons_of_neg (by simp)]
  rfl

theorem IsStep.kind_substitute_ne (hu : u.IsStep pinned) (htarget : u.target? ≠ some x) :
    (u.substitute x k).kind ≠ .variable x := by
  cases hu with
  | declare => simpa [target?] using htarget
  | assign | call => simp

theorem inlineSteps_cons (hu : u.IsStep pinned) (htarget : u.target? ≠ some x) :
    inlineSteps x k (u :: us) = u.substitute x k :: inlineSteps x k us := by
  rw [inlineSteps, map_cons, others,
    filter_cons_of_pos (by simpa using hu.kind_substitute_ne htarget)]
  rfl

theorem Inlines.together (known : Option Primitive) (hx : pinned x = false) (hk : k.value? = some p)
    (h : Inlines pinned x k us) (hknown : known = some p ∨ (k ≠ .undefined ∧ WritesFirst x us)) :
    ∃ known', Together x known known' (performAll W us) (performAll W (inlineSteps x k us)) := by
  induction us generalizing known with
  | nil => exact ⟨known, together_pure ()⟩
  | cons u us ih =>
    have hu := h.isStep u (.head _)
    have hs := h.shaped u (.head _)
    by_cases htarget : u.target? = some x
    · obtain ⟨m, m', rfl⟩ := h.declare u (.head _) htarget
      have hfirst : k = .undefined → known = some p := fun hundefined =>
        hknown.resolve_right fun h => h.1 hundefined
      obtain ⟨known', hrest⟩ := ih (some p) h.tail (.inl rfl)
      refine ⟨known', ?_⟩
      rw [inlineSteps_cons_declare, ← pure_bind () fun _ => performAll W (inlineSteps x k us)]
      exact (together_declare hk hfirst).bind fun _ => hrest
    · have hstep : known = some p ∨ u.Avoids x → Together x known known (u.perform W)
          ((u.substitute x k).perform W) :=
        hu.together hx hk hs htarget (h.copy u (.head _))
      rw [inlineSteps_cons hu htarget]
      rcases hknown with hsome | ⟨hdefined, hfirst⟩
      · obtain ⟨known', hrest⟩ := ih known h.tail (.inl hsome)
        exact ⟨known', (hstep (.inl hsome)).bind fun _ => hrest⟩
      · obtain ⟨havoids, hfirst⟩ := hfirst.cons hu hs htarget
        obtain ⟨known', hrest⟩ := ih known h.tail (.inr ⟨hdefined, hfirst⟩)
        exact ⟨known', (hstep (.inr havoids)).bind fun _ => hrest⟩

/-! ## The inlined program -/

theorem subtrees_substitute (t : Tree α) :
    (t.substitute x k).subtrees = t.subtrees.map (substitute x k) := by
  induction t with
  | node m kind cs ih =>
    have hall : ∀ cs : List (Tree α), (∀ c ∈ cs, (c.substitute x k).subtrees =
        c.subtrees.map (substitute x k)) →
        subtreesAll (cs.map (substitute x k)) = (subtreesAll cs).map (substitute x k) := by
      intro cs
      induction cs with
      | nil => exact fun _ => rfl
      | cons c cs ih =>
        intro h
        rw [map_cons, subtreesAll, subtreesAll, map_append, h c mem_cons_self,
          ih fun d hd => h d (.tail _ hd)]
    rw [subtrees, map_cons, substitute_node, subtrees, hall cs ih]

theorem undeclare_eq_self (h : ∀ u ∈ t.subtrees, u.kind ≠ .varStatement) : t.undeclare x = t := by
  induction t with
  | node m kind cs ih =>
    have hcs : ∀ c ∈ cs, c.undeclare x = c := fun c hc =>
      ih c hc fun u hu => h u (mem_subtrees_node.mpr (.inr ⟨c, hc, hu⟩))
    have hkind : kind ≠ .varStatement := h _ (mem_subtrees_self _)
    rw [undeclare_of_ne hkind, map_congr_left hcs, map_id']

section

variable (hx : pinned x = false) (hk : k.isLiteral)

include hk in
theorem kind_substitute_eq {t : Tree α} {kind : Kind} (hkind : kind.isLiteral = false)
    (h : (t.substitute x k).kind = kind) : t.kind = kind := by
  rw [kind_substitute] at h
  split at h
  · rw [← h, hk] at hkind
    cases hkind
  · exact h

include hx hk in
theorem Plain.core_substitute (he : e.Plain pinned) (hs : e.WellShaped) :
    (e.substitute x k).Core := by
  induction e with
  | node m kind cs ih =>
    rw [substitute_node, core_node, forall_mem_map]
    refine ⟨?_, fun c hc => ih c hc (he.child hs hc) (hs.child c hc)⟩
    split
    · cases k <;> first | rfl | cases hk
    · have hcore := (core_node.mp he.core).1
      cases kind with
      | call =>
        obtain ⟨m', f, arguments, rfl, hf⟩ := he.callee_eq hs
        have hne : f ≠ x := by
          rintro rfl
          rw [hx] at hf
          cases hf
        simp [hne, Kind.isCore]
      | sequence => simpa [Kind.isCore] using hcore
      | _ => exact hcore

include hx hk in
theorem Plain.substitute (he : e.Plain pinned) (hs : e.WellShaped) :
    (e.substitute x k).Plain pinned := by
  refine ⟨he.core_substitute hx hk hs, ?_, ?_⟩
  · rw [kind_substitute]
    split
    · exact Kind.isExpression_of_isLiteral hk
    · exact he.expression
  · rw [subtrees_substitute, forall_mem_map]
    intro u hu hcall c hc f hf
    have hkind := kind_substitute_eq hk rfl hcall
    obtain ⟨m, kind, cs⟩ := u
    rw [substitute_node, children_node, head?_map] at hc
    obtain ⟨d, hd, rfl⟩ := Option.map_eq_some_iff.mp hc
    exact he.callee _ hu hkind d hd f (kind_substitute_eq hk rfl hf)

include hx hk in
theorem IsStep.substitute {u : Tree α} (hu : u.IsStep pinned) (hs : u.WellShaped)
    (htarget : u.target? ≠ some x) :
    (u.substitute x k).IsStep pinned ∧ (u.substitute x k).target? = u.target? := by
  cases hu with
  | @declare m y v name value =>
    rw [substitute_node, if_neg (by simp), map_singleton]
    have hv := hs.child v (.head _)
    exact ⟨.declare name (value.substitute hx hk hv), rfl⟩
  | @assign m m' m'' op y e value =>
    have hy : y ≠ x := fun h => htarget (congrArg some h)
    have hassign := hs.child _ (.head _)
    have he := hassign.child e (by simp)
    rw [substitute_assign hy]
    exact ⟨.assign (value.substitute hx hk he), rfl⟩
  | @call m m' cs value =>
    have hcall := value.substitute hx hk (hs.child _ (.head _))
    rw [substitute_node, if_neg (by simp), map_singleton]
    rw [substitute_node, if_neg (by simp)] at hcall ⊢
    exact ⟨.call hcall, rfl⟩

end

theorem StraightLine.steps_inlined (h : t.StraightLine pinned) (hk : k.isLiteral) :
    ((t.substitute x k).undeclare x).steps = inlineSteps x k t.steps := by
  have hstep : ∀ u ∈ t.steps, (u.substitute x k).undeclare x = u.substitute x k := by
    intro u hu
    apply undeclare_eq_self
    rw [subtrees_substitute, forall_mem_map]
    intro w hw hkind
    exact ((h.steps u hu).kind_subtree (h.shaped_step hu) hw).1 (kind_substitute_eq hk rfl hkind)
  have hparts : ∀ c ∈ t.children,
      ((c.substitute x k).undeclare x).parts = others x (c.parts.map (substitute x k)) := by
    intro c hc
    rcases h.child_cases hc with ⟨m, ds, rfl, hds⟩ | ⟨m, rfl⟩ | ⟨hkind, hc⟩
    · rw [substitute_node, if_neg (by simp), undeclare_varStatement, parts_varStatement]
      split
      · rename_i hnil
        rw [hnil.1]
        rfl
      · rw [parts_varStatement]
        conv_rhs => rw [← map_id (others x (ds.map (substitute x k)))]
        refine map_congr_left fun u hu => ?_
        obtain ⟨d, hd, rfl⟩ := mem_map.mp (mem_filter.mp hu).1
        exact hstep d (hds d hd)
    · rfl
    · have hkind' : (c.substitute x k).kind = .expression := by
        rw [kind_substitute, hkind, if_neg (by simp)]
      rw [hstep c hc, parts_of_ne (by simp [hkind']) (by simp [hkind']),
        parts_of_ne (by simp [hkind]) (by simp [hkind]), map_singleton, others,
        filter_cons_of_pos (by simp [hkind']), filter_nil]
  have hkind := h.kind
  obtain ⟨m, kind, cs⟩ := t
  obtain rfl : kind = _ := hkind
  rw [substitute_node, if_neg (by simp), undeclare_of_ne (by simp), Tree.steps, Tree.steps,
    inlineSteps, others, children_node, children_node, List.map_map, List.flatMap_map,
    map_flatMap, filter_flatMap]
  exact flatMap_congr hparts

/-! ## The constant in a straight-line program -/

theorem IsStep.countP_writes (hu : u.IsStep pinned) (hs : u.WellShaped) :
    (u.uses false).countP (fun o => o.symbol = x ∧ o.access = .write) =
      if u.target? = some x then 1 else 0 := by
  obtain ⟨os, hos, h⟩ := hu.uses_eq hs
  have hreads : os.countP (fun o => o.symbol = x ∧ o.access = .write) = 0 := by
    rw [countP_eq_zero]
    intro o ho
    simp [hos o ho]
  rcases h with ⟨huses, htarget⟩ | ⟨y, m, huses, htarget⟩
  · rw [huses, htarget, hreads]
    rfl
  · rw [huses, htarget, countP_cons, hreads]
    simp

theorem StraightLine.length_writes (h : t.StraightLine pinned) (x : SymbolId) :
    (Usages.marksOf (usesAll [t]) x .write).length =
      t.steps.countP fun u => u.target? = some x := by
  have hlist : ∀ us : List (Tree α), (∀ u ∈ us, u.IsStep pinned ∧ u.WellShaped) →
      (us.flatMap (uses false)).countP (fun o => o.symbol = x ∧ o.access = .write) =
        us.countP fun u => u.target? = some x := by
    intro us
    induction us with
    | nil => exact fun _ => rfl
    | cons u us ih =>
      intro hus
      obtain ⟨hu, hs⟩ := hus u (.head _)
      rw [flatMap_cons, countP_append, hu.countP_writes hs,
        ih fun w hw => hus w (.tail _ hw), countP_cons, Nat.add_comm]
      simp
  rw [Usages.marksOf, length_map, ← countP_eq_length_filter, h.uses_eq]
  exact hlist t.steps fun u hu => ⟨h.steps u hu, h.shaped_step hu⟩

theorem StraightLine.of_constant (h : t.StraightLine pinned)
    (hconstant : constant? x [t] = some k) :
    k.isLiteral ∧ pinned x = false ∧ t.WrittenOnce x ∧
      ∃ m m', node m (.variable x) [node m' k []] ∈ t.steps := by
  rw [constant?] at hconstant
  split at hconstant
  · rename_i hlength
    obtain ⟨hvalue, hk⟩ := Option.filter_eq_some_iff.mp hconstant
    obtain ⟨v, hv, rfl⟩ := Option.map_eq_some_iff.mp hvalue
    obtain ⟨d, hd, hv⟩ := Option.bind_eq_some_iff.mp hv
    obtain ⟨list, hlist, hkind, hmem, hvariable⟩ :=
      mem_declarations.mp (mem_of_mem_head? hd)
    have hstep : d ∈ t.steps := by
      rw [subtreesAll, subtreesAll, append_nil] at hlist
      rcases h.mem_subtrees hlist with rfl | ⟨hchild, -⟩ | ⟨st, hst, hu⟩
      · rw [h.kind] at hkind
        cases hkind
      · refine mem_flatMap.mpr ⟨list, hchild, ?_⟩
        rw [parts, hkind]
        exact hmem
      · exact absurd hkind ((h.steps st hst).kind_subtree (h.shaped_step hst) hu).1
    refine ⟨hk, ?_⟩
    have hshaped := h.shaped_step hstep
    cases h.steps d hstep with
    | @declare m y w name value =>
      cases hvariable
      obtain rfl : w = v := by simpa using hv
      obtain ⟨m', kind, cs⟩ := w
      obtain rfl := (wellShaped_none (Kind.places_of_isLiteral hk)).mp
        (hshaped.child _ (.head _))
      exact ⟨name, (h.length_writes x).symm.trans hlength, m, m', hstep⟩
    | assign | call => cases hvariable
  · cases hconstant

theorem WrittenOnce.unique {d : Tree α} (h : t.WrittenOnce x) (hu : u ∈ t.steps) (hd : d ∈ t.steps)
    (hux : u.target? = some x) (hdx : d.target? = some x) : u = d := by
  rw [WrittenOnce, countP_eq_length_filter] at h
  obtain ⟨w, hw⟩ := length_eq_one_iff.mp h
  have hmem : ∀ v ∈ t.steps, v.target? = some x → v = w := by
    intro v hv hvx
    have hfilter : v ∈ t.steps.filter fun u => u.target? = some x :=
      mem_filter.mpr ⟨hv, by simpa using hvx⟩
    rw [hw] at hfilter
    exact mem_singleton.mp hfilter
  rw [hmem u hu hux, hmem d hd hdx]

theorem Settled.inlines (hsettled : t.Settled) (h : t.StraightLine pinned)
    (hconstant : constant? x [t] = some k) :
    Inlines pinned x k t.steps ∧ (k = .undefined ∨ WritesFirst x t.steps) := by
  obtain ⟨-, -, honce, m, m', hd⟩ := h.of_constant hconstant
  refine ⟨⟨h.steps, fun u hu => h.shaped_step hu, fun u hu hux => ⟨m, m', ?_⟩, ?_⟩, ?_⟩
  · exact honce.unique hu hd hux rfl
  · rintro u hu y hy v hv hname rfl
    refine hsettled.copied _ hd x rfl honce ?_ u hu y hy v hv hname
    rintro ⟨w, hw, hdefined⟩
    obtain rfl := mem_singleton.mp hw
    exact hdefined rfl
  · by_cases hundefined : k = .undefined
    · exact .inl hundefined
    · exact .inr (hsettled.declared _ hd x rfl honce ⟨_, mem_cons_self, hundefined⟩)

theorem Settled.calls_inlined (hsettled : t.Settled) (h : t.StraightLine pinned)
    (hconstant : constant? x [t] = some k) (globals : SymbolId → Value ω) :
    ((t.substitute x k).undeclare x).calls W pinned globals = t.calls W pinned globals := by
  obtain ⟨hk, hx, -⟩ := h.of_constant hconstant
  obtain ⟨hinlines, hfirst⟩ := hsettled.inlines h hconstant
  obtain ⟨p, hp⟩ := Kind.value_of_isLiteral hk
  rw [calls, calls, h.steps_inlined hk]
  by_cases hundefined : k = .undefined
  · -- The name has the constant from the start.
    subst hundefined
    cases hp
    obtain ⟨known', htogether⟩ := hinlines.together (some .undefined) hx rfl (.inl rfl)
    refine (htogether _ _ ⟨rfl, fun _ _ => rfl, fun q hq => ?_⟩).2.1.symm
    cases hq
    exact if_neg (by simp [hx])
  · obtain ⟨known', htogether⟩ :=
      hinlines.together none hx hp (.inr ⟨hundefined, hfirst.resolve_left hundefined⟩)
    exact (htogether _ _ ⟨rfl, fun _ _ => rfl, fun q hq => by cases hq⟩).2.1.symm

/-! ## One symbol after the other -/

theorem mem_inlineSteps :
    u ∈ inlineSteps x k us ↔ ∃ w ∈ us, w.substitute x k = u ∧ u.kind ≠ .variable x := by
  rw [inlineSteps, others, mem_filter, mem_map, decide_eq_true_eq]
  constructor
  · rintro ⟨⟨w, hw, heq⟩, hne⟩
    exact ⟨w, hw, heq, hne⟩
  · rintro ⟨w, hw, heq, hne⟩
    exact ⟨⟨w, hw, heq⟩, hne⟩

namespace Inlines

variable {us : List (Tree α)}

theorem target_ne (h : Inlines pinned x k us) {w : Tree α} (hw : w ∈ us)
    (hne : (w.substitute x k).kind ≠ .variable x) : w.target? ≠ some x := by
  intro htarget
  obtain ⟨m, m', rfl⟩ := h.declare w hw htarget
  exact hne (by simp)

theorem countP_target (h : Inlines pinned x k us) (hx : pinned x = false) (hk : k.isLiteral)
    {z : SymbolId} (hz : z ≠ x) : (inlineSteps x k us).countP (fun u => u.target? = some z) =
      us.countP fun u => u.target? = some z := by
  induction us with
  | nil => rfl
  | cons u us ih =>
    by_cases htarget : u.target? = some x
    · obtain ⟨m, m', rfl⟩ := h.declare u (.head _) htarget
      rw [inlineSteps_cons_declare, ih h.tail, countP_cons_of_neg]
      simpa [target?] using Ne.symm hz
    · have hu := h.isStep u (.head _)
      have hs := h.shaped u (.head _)
      rw [inlineSteps_cons hu htarget, countP_cons, countP_cons, ih h.tail,
        (hu.substitute hx hk hs htarget).2]

theorem filter_uses (h : Inlines pinned x k us) (hk : k.isLiteral) :
    ((inlineSteps x k us).flatMap (uses false)).filter (fun o => o.symbol ≠ x) =
      (us.flatMap (uses false)).filter fun o => o.symbol ≠ x := by
  induction us with
  | nil => rfl
  | cons u us ih =>
    rw [flatMap_cons, filter_append, ← ih h.tail]
    by_cases htarget : u.target? = some x
    · obtain ⟨m, m', rfl⟩ := h.declare u (.head _) htarget
      rw [inlineSteps_cons_declare, uses, usesAll_eq, flatMap_singleton, uses_literal hk]
      simp
    · rw [inlineSteps_cons (h.isStep u mem_cons_self) htarget, flatMap_cons,
        filter_append, filter_uses_substitute hk (h.shaped u (.head _))]

theorem writesFirst_iff (h : Inlines pinned x k us) (hk : k.isLiteral) {z : SymbolId}
    (hz : z ≠ x) : WritesFirst z (inlineSteps x k us) ↔ WritesFirst z us := by
  have hfind : ∀ os : List (Occurrence α), os.find? (fun o => o.symbol = z) =
      (os.filter fun o => o.symbol ≠ x).find? fun o => o.symbol = z := by
    intro os
    rw [find?_filter]
    congr 1
    funext o
    by_cases ho : o.symbol = z
    · simp [ho, hz]
    · simp [ho]
  rw [WritesFirst, WritesFirst, hfind, hfind (us.flatMap _), h.filter_uses hk]

end Inlines

section

variable {t : Tree α}

theorem StraightLine.inlined (h : t.StraightLine pinned) (hinlines : Inlines pinned x k t.steps)
    (hx : pinned x = false) (hk : k.isLiteral) :
    ((t.substitute x k).undeclare x).StraightLine pinned := by
  obtain ⟨hshaped, -⟩ := h.shaped.substitute (x := x) hk
  refine ⟨?_, (hshaped.undeclare x).1, ?_⟩
  · have hkind : (t.substitute x k).kind = .module := by
      rw [kind_substitute, h.kind, if_neg (by simp)]
    rw [kind_undeclare_of_ne (by simp [hkind]), hkind]
  · rw [h.steps_inlined hk]
    intro u hu
    obtain ⟨w, hw, rfl, hne⟩ := mem_inlineSteps.mp hu
    exact ((h.steps w hw).substitute hx hk (h.shaped_step hw) (hinlines.target_ne hw hne)).1

theorem children_substitute (t : Tree α) :
    (t.substitute x k).children = t.children.map (substitute x k) := by
  obtain ⟨m, kind, cs⟩ := t
  rw [substitute_node, children_node, children_node]

theorem initialized_substitute {d : Tree α}
    (h : ∀ v ∈ d.children, v.kind = .identifier x → k ≠ .undefined) :
    (d.substitute x k).Initialized ↔ d.Initialized := by
  rw [Initialized, Initialized, children_substitute]
  simp only [mem_map, exists_exists_and_eq_and]
  refine exists_congr fun v => and_congr_right fun hv => ?_
  rw [kind_substitute]
  split
  · rename_i heq
    simp [heq, h v hv heq]
  · rfl

theorem Settled.inlined (hsettled : t.Settled) (h : t.StraightLine pinned)
    (hinlines : Inlines pinned x k t.steps) (hx : pinned x = false) (hk : k.isLiteral) :
    ((t.substitute x k).undeclare x).Settled := by
  have hsteps := h.steps_inlined (x := x) hk
  have honce : ∀ {z}, z ≠ x → ((t.substitute x k).undeclare x).WrittenOnce z → t.WrittenOnce z := by
    intro z hz
    rw [WrittenOnce, WrittenOnce, hsteps, hinlines.countP_target hx hk hz]
    exact id
  -- A declaration that is left comes from one of another name, with an initializer or without.
  have hold : ∀ d ∈ ((t.substitute x k).undeclare x).steps, ∀ z, d.kind = .variable z →
      z ≠ x ∧ ∃ w ∈ t.steps, w.substitute x k = d ∧ w.kind = .variable z ∧
        (d.Initialized ↔ w.Initialized) := by
    intro d hd z hz
    rw [hsteps] at hd
    obtain ⟨w, hw, rfl, hne⟩ := mem_inlineSteps.mp hd
    have hkind := kind_substitute_eq hk rfl hz
    refine ⟨?_, w, hw, rfl, hkind, initialized_substitute (hinlines.copy w hw z hkind)⟩
    rintro rfl
    exact hne hz
  constructor
  · intro d hd z hz hz_once hd_init
    obtain ⟨hne, w, hw, rfl, hkind, hinit⟩ := hold d hd z hz
    rw [hsteps]
    exact (hinlines.writesFirst_iff hk hne).mpr
      (hsettled.declared w hw z hkind (honce hne hz_once) (hinit.mp hd_init))
  · intro d hd z hz hz_once hd_init u hu y hy v hv hname
    obtain ⟨hne, w, hw, rfl, hkind, hinit⟩ := hold d hd z hz
    obtain ⟨-, u', hu', rfl, hy', -⟩ := hold u hu y hy
    rw [children_substitute] at hv
    obtain ⟨v', hv', rfl⟩ := mem_map.mp hv
    exact hsettled.copied w hw z hkind (honce hne hz_once) (fun h => hd_init (hinit.mpr h)) u' hu'
      y hy' v' hv' (kind_substitute_eq hk rfl hname)

theorem StraightLine.onlyNamed (h : t.StraightLine pinned) (x : SymbolId) :
    Tree.onlyNamed x [t] := by
  rw [Tree.onlyNamed, all_eq_true]
  intro u hu
  rw [subtreesAll, subtreesAll, append_nil] at hu
  have hcases : u.kind.mentioned? = some x → u.kind = .identifier x ∨ u.kind = .variable x := by
    intro hmention
    rcases h.mem_subtrees hu with rfl | ⟨-, hkind | hkind⟩ | ⟨st, hst, hu⟩
    · rw [h.kind] at hmention
      cases hmention
    · rw [hkind] at hmention
      cases hmention
    · rw [hkind] at hmention
      cases hmention
    · exact ((h.steps st hst).kind_subtree (h.shaped_step hst) hu).2 x hmention
  by_cases hmention : u.kind.mentioned? = some x
  · rcases hcases hmention with hkind | hkind <;> simp [hkind]
  · simp [hmention]

theorem Settled.calls_inlineEach (hsettled : t.Settled) (h : t.StraightLine pinned)
    (globals : SymbolId → Value ω) (xs : List SymbolId) :
    ∃ t', (inlineEach xs [t]).1 = [t'] ∧ t'.calls W pinned globals = t.calls W pinned globals := by
  induction xs generalizing t with
  | nil => exact ⟨t, rfl, rfl⟩
  | cons x xs ih =>
    show ∃ t', (inlineEach xs (Tree.inlined x [t]).1).1 = [t'] ∧ _
    rw [Tree.inlined]
    cases hconstant : constant? x [t] with
    | none => exact ih hsettled h
    | some k =>
      obtain ⟨hk, hx, -⟩ := h.of_constant hconstant
      obtain ⟨hinlines, -⟩ := hsettled.inlines h hconstant
      simp only [h.onlyNamed x, if_true, map_singleton]
      rw [← hsettled.calls_inlined h hconstant globals]
      exact ih (hsettled.inlined h hinlines hx hk) (h.inlined hinlines hx hk)

end

end Tree

/-! ## Programs in a store -/

namespace Store

variable {s : Store} {n : NodeId}

/-- Scanning and inlining leaves the calls of a straight-line program as they are. -/
theorem inlineIn_preserves_calls (hs : s.Consistent) (hline : (s.tree n).StraightLine s.isPinned)
    (hsettled : (s.tree n).Settled) (W : World ω) (globals : SymbolId → Value ω) :
    ∃ s' changed, s.inlineIn [n] = .ok (s', changed) ∧ s'.Verified [n] ∧
      (s'.tree n).calls W s'.isPinned globals = (s.tree n).calls W s.isPinned globals := by
  obtain ⟨kids, hlinks⟩ := hs
  have hmodules : s.Modules [n] := by
    refine ⟨nodup_singleton n, ?_, ?_⟩
    · rw [forall_mem_singleton, ← hlinks.kind_tree]
      exact hline.kind
    · rw [forall_mem_singleton]
      exact hline.shaped
  obtain ⟨s', hrun, hkeeps, htree⟩ := Consistent.inlineIn_eq ⟨kids, hlinks⟩ hmodules
  refine ⟨s', _, hrun, hkeeps.verified, ?_⟩
  obtain ⟨t', ht', hcalls⟩ := hsettled.calls_inlineEach hline globals
    ((Usages.ofOccurrences (Tree.usesAll [s.tree n])).map Prod.fst)
  have hpinned : s'.isPinned = s.isPinned := by
    funext x
    rw [isPinned, isPinned, hkeeps.symbols]
  rw [map_singleton, map_singleton, Tree.inlineAll, ht', singleton_inj] at htree
  rw [htree, hpinned, hcalls]

def silence : World Unit where
  toPrimitive _ _ := .undefined
  typeName _ := "object"
  identical _ _ := true
  contains _ _ := false
  isInstance _ _ := false
  self := .undefined
  reply _ := .ok .undefined

def flaggedCalls : Store :=
  (({ Store.empty with symbols := #[⟨"f", true⟩, ⟨"x", false⟩, ⟨"y", false⟩] } : Store).grow
    (.node () .module
      [.node () .varStatement
        [.node () (.variable ⟨1⟩) [.node () (.boolean true) []],
          .node () (.variable ⟨2⟩) [.node () .undefined []]], .node () .expression
          [.node () (.assign .assign) [.node () (.identifier ⟨2⟩) [],
            .node () .call [.node () (.identifier ⟨0⟩) [], .node () (.identifier ⟨1⟩) []]]],
        .node () .expression
          [.node () .call [.node () (.identifier ⟨0⟩) [], .node () (.identifier ⟨1⟩) [],
            .node () (.identifier ⟨2⟩) []]]])).2

theorem inlineIn_preserves_calls_flaggedCalls :
    flaggedCalls.Consistent ∧ (flaggedCalls.tree ⟨0⟩).StraightLine flaggedCalls.isPinned ∧
      (flaggedCalls.tree ⟨0⟩).Settled ∧
      ∃ s' changed, flaggedCalls.inlineIn [⟨0⟩] = .ok (s', changed) ∧ s'.Verified [⟨0⟩] ∧
        (s'.tree ⟨0⟩).calls silence s'.isPinned (fun _ => .undefined) =
          (flaggedCalls.tree ⟨0⟩).calls silence flaggedCalls.isPinned fun _ => .undefined := by
  have hs : flaggedCalls.Consistent :=
    (Consistent.withSymbols ⟨_, Links.empty⟩ _).grow _
  have hsteps : (flaggedCalls.tree ⟨0⟩).steps =
      [.node ⟨2⟩ (.variable ⟨1⟩) [.node ⟨3⟩ (.boolean true) []],
        .node ⟨4⟩ (.variable ⟨2⟩) [.node ⟨5⟩ .undefined []],
        .node ⟨6⟩ .expression [.node ⟨7⟩ (.assign .assign) [.node ⟨8⟩ (.identifier ⟨2⟩) [],
          .node ⟨9⟩ .call [.node ⟨10⟩ (.identifier ⟨0⟩) [], .node ⟨11⟩ (.identifier ⟨1⟩) []]]],
        .node ⟨12⟩ .expression [.node ⟨13⟩ .call [.node ⟨14⟩ (.identifier ⟨0⟩) [],
          .node ⟨15⟩ (.identifier ⟨1⟩) [], .node ⟨16⟩ (.identifier ⟨2⟩) []]]] := rfl
  have hf : flaggedCalls.isPinned ⟨0⟩ = true := rfl
  have hline : (flaggedCalls.tree ⟨0⟩).StraightLine flaggedCalls.isPinned := by
    refine ⟨rfl, rfl, ?_⟩
    rw [hsteps]
    simp only [forall_mem_cons, not_mem_nil, false_implies, implies_true, and_true]
    refine ⟨.declare rfl ⟨?_, rfl, ?_⟩, .declare rfl ⟨?_, rfl, ?_⟩, .assign ⟨?_, rfl, ?_⟩,
      .call ⟨?_, rfl, ?_⟩⟩
    all_goals simp [Tree.core_node, Kind.isCore, Tree.subtrees, Tree.subtreesAll, hf]
  have hsettled : (flaggedCalls.tree ⟨0⟩).Settled := by
    -- The first use of `x` is its declaration; `y` is written twice.
    have honce : ∀ d ∈ (flaggedCalls.tree ⟨0⟩).steps, ∀ x, d.kind = .variable x →
        (flaggedCalls.tree ⟨0⟩).WrittenOnce x →
        x = ⟨1⟩ ∧ d = .node ⟨2⟩ (.variable ⟨1⟩) [.node ⟨3⟩ (.boolean true) []] := by
      intro d hd x hx hwritten
      have htwice : ¬(flaggedCalls.tree ⟨0⟩).WrittenOnce ⟨2⟩ := by
        show ¬(2 = 1)
        decide
      rw [hsteps] at hd
      simp only [mem_cons, not_mem_nil, or_false] at hd
      rcases hd with rfl | rfl | rfl | rfl
      · cases hx
        exact ⟨rfl, rfl⟩
      · cases hx
        exact absurd hwritten htwice
      · cases hx
      · cases hx
    constructor
    · intro d hd x hx hwritten _ o ho
      obtain ⟨rfl, -⟩ := honce d hd x hx hwritten
      rw [hsteps] at ho
      cases ho
      rfl
    · intro d hd x hx hwritten hinit
      obtain ⟨-, rfl⟩ := honce d hd x hx hwritten
      exact absurd ⟨_, mem_cons_self, by simp⟩ hinit
  exact ⟨hs, hline, hsettled, inlineIn_preserves_calls hs hline hsettled silence _⟩

def earlyRead : Store :=
  (({ Store.empty with symbols := #[⟨"f", true⟩, ⟨"x", false⟩] } : Store).grow (.node () .module
    [.node () .expression
        [.node () .call [.node () (.identifier ⟨0⟩) [], .node () (.identifier ⟨1⟩) []]],
      .node () .varStatement [.node () (.variable ⟨1⟩) [.node () (.number 1) []]]])).2

def lostInitializer : Store :=
  (({ Store.empty with symbols := #[⟨"f", true⟩, ⟨"x", false⟩, ⟨"y", false⟩] } : Store).grow
    (.node () .module
      [.node () .expression
          [.node () (.assign .assign) [.node () (.identifier ⟨2⟩) [], .node () (.number 5) []]],
        .node () .varStatement [.node () (.variable ⟨1⟩) [.node () .undefined []]],
        .node () .varStatement [.node () (.variable ⟨2⟩) [.node () (.identifier ⟨1⟩) []]],
        .node () .expression
          [.node () .call [.node () (.identifier ⟨0⟩) [], .node () (.identifier ⟨2⟩) []]]])).2

def passed (s : Store) (n : NodeId) : List (List (Value Unit)) :=
  ((s.tree n).calls silence s.isPinned fun _ => .undefined).map Call.arguments

theorem inlineIn_changes_calls_earlyRead : earlyRead.passed ⟨0⟩ = [[.undefined]] ∧
      (earlyRead.inlineIn [⟨0⟩]).map (fun r => r.1.passed ⟨0⟩) = .ok [[.number 1]] ∧
    lostInitializer.passed ⟨0⟩ = [[.undefined]] ∧
      (lostInitializer.inlineIn [⟨0⟩]).map (fun r => r.1.passed ⟨0⟩) = .ok [[.number 5]] :=
  ⟨rfl, rfl, rfl, rfl⟩

end Store

end ScriptPress

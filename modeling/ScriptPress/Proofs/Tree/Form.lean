import ScriptPress.Proofs.Tree.Basic
import ScriptPress.Proofs.Tree.Shape
import ScriptPress.Tree.Effects

/-! # The forms of expressions and statements -/

namespace ScriptPress.Tree

open List Kind

variable {α : Type} {t : Tree α} {p : Kind → List (Tree α) → Bool} {cs : List (Tree α)} {m : α}

mutual

def every (p : Kind → List (Tree α) → Bool) : Tree α → Bool
  | node _ k cs => p k cs && everyAll p cs

def everyAll (p : Kind → List (Tree α) → Bool) : List (Tree α) → Bool
  | [] => true
  | c :: cs => every p c && everyAll p cs

end

theorem everyAll_iff : everyAll p cs ↔ ∀ c ∈ cs, c.every p := by
  induction cs with
  | nil =>
    rw [everyAll]
    exact ⟨nofun, fun _ => rfl⟩
  | cons c cs ih => rw [everyAll, Bool.and_eq_true, ih, forall_mem_cons]

theorem every_node {k : Kind} : (node m k cs).every p ↔ p k cs ∧ ∀ c ∈ cs, c.every p := by
  rw [every, Bool.and_eq_true, everyAll_iff]

theorem every_subtrees {t u : Tree α} (h : t.every p) (hu : u ∈ t.subtrees) : u.every p := by
  induction t with
  | node m k cs ih =>
    rcases mem_subtrees_node.mp hu with rfl | ⟨c, hc, hu⟩
    · exact h
    · exact ih c hc ((every_node.mp h).2 c hc) hu

theorem WellShaped.subtree {t u : Tree α} (h : t.WellShaped) (hu : u ∈ t.subtrees) :
    u.WellShaped := by
  induction t with
  | node m k cs ih =>
    rcases mem_subtrees_node.mp hu with rfl | ⟨c, hc, hu⟩
    · exact h
    · exact ih c hc (h.child c hc) hu

def isBinder (t : Tree α) : Bool := t.kind == .varStatement || t.kind.isFunction

theorem bindsNames_node (m : α) (k : Kind) (cs : List (Tree α)) : (node m k cs).bindsNames =
    ((node m k cs).isBinder || (!k.isExpression && cs.any bindsNames)) := by
  have hany : anyBindsNames cs = cs.any bindsNames := by
    induction cs with
    | nil => rfl
    | cons c cs ih => rw [anyBindsNames, ih, any_cons]
  rw [← hany]
  cases k <;> rfl

theorem isBinder_of_isExpression {k : Kind} (h : k.isExpression ∨ k.isProperty) :
    (node m k cs).isBinder = false := by
  rcases h with h | h <;> cases k <;> first | rfl | cases h

inductive IsExpression : Tree α → Prop
  | array {m : α} {cs : List (Tree α)} (hcs : ∀ c ∈ cs, IsExpression c) :
    IsExpression (node m .array cs)
  | boolean {m : α} {b : Bool} : IsExpression (node m (.boolean b) [])
  | call {m : α} {c : Tree α} {cs : List (Tree α)} (hc : IsExpression c)
    (hcs : ∀ a ∈ cs, IsExpression a) : IsExpression (node m .call (c :: cs))
  | conditional {m : α} {a b c : Tree α} (ha : IsExpression a) (hb : IsExpression b)
    (hc : IsExpression c) : IsExpression (node m .conditional [a, b, c])
  | identifier {m : α} {s : SymbolId} : IsExpression (node m (.identifier s) [])
  | index {m : α} {a b : Tree α} (ha : IsExpression a) (hb : IsExpression b) :
    IsExpression (node m .index [a, b])
  | member {m : α} {s : SymbolId} {a : Tree α} (ha : IsExpression a) :
    IsExpression (node m (.member s) [a])
  | new {m : α} {c : Tree α} {cs : List (Tree α)} (hc : IsExpression c)
    (hcs : ∀ a ∈ cs, IsExpression a) : IsExpression (node m .new (c :: cs))
  | null {m : α} : IsExpression (node m .null [])
  | number {m : α} {x : Float} : IsExpression (node m (.number x) [])
  | object {m : α} {ps : List (α × SymbolId × Tree α)} (hps : ∀ p ∈ ps, IsExpression p.2.2) :
    IsExpression (node m .object (ps.map fun p => node p.1 (.property p.2.1) [p.2.2]))
  | regExp {m : α} {source : String} : IsExpression (node m (.regExp source) [])
  | sequence {m : α} {cs : List (Tree α)} (hcs : ∀ c ∈ cs, IsExpression c) :
    IsExpression (node m .sequence cs)
  | string {m : α} {s : String} : IsExpression (node m (.string s) [])
  | this {m : α} : IsExpression (node m .this [])
  | undefined {m : α} : IsExpression (node m .undefined [])
  | unary {m : α} {op : UnaryOp} {a : Tree α} (ha : IsExpression a) :
    IsExpression (node m (.unary op) [a])
  | binary {m : α} {op : BinaryOp} {a b : Tree α} (ha : IsExpression a) (hb : IsExpression b) :
    IsExpression (node m (.binary op) [a, b])
  | assign {m : α} {op : AssignOp} {a b : Tree α} (ha : IsExpression a) (hb : IsExpression b) :
    IsExpression (node m (.assign op) [a, b])

theorem IsExpression.node_induction {P : Tree α → Prop} (h : t.IsExpression)
    (step : ∀ m k cs, k.isExpression ∨ k.isProperty → (∀ c ∈ cs, P c) → P (node m k cs)) : P t := by
  induction h with
  | array _ ih | sequence _ ih => exact step _ _ _ (.inl rfl) ih
  | call _ _ ih ihs | new _ _ ih ihs =>
    exact step _ _ _ (.inl rfl) (forall_mem_cons.mpr ⟨ih, ihs⟩)
  | object _ ih =>
    refine step _ _ _ (.inl rfl) (forall_mem_map.mpr fun p hp => ?_)
    exact step _ _ _ (.inr rfl) (forall_mem_singleton.mpr (ih p hp))
  | conditional _ _ _ iha ihb ihc => exact step _ _ _ (.inl rfl) (by simpa using ⟨iha, ihb, ihc⟩)
  | index _ _ iha ihb | binary _ _ iha ihb | assign _ _ iha ihb =>
    exact step _ _ _ (.inl rfl) (by simpa using ⟨iha, ihb⟩)
  | member _ ih | unary _ ih => exact step _ _ _ (.inl rfl) (forall_mem_singleton.mpr ih)
  | _ => exact step _ _ _ (.inl rfl) (by simp)

theorem exists_properties {P : Tree α → Prop} :
    ∀ {cs : List (Tree α)}, (∀ c ∈ cs, c.Fit isProperty) →
      (∀ c ∈ cs, ∀ v ∈ c.children, v.Fit isExpression → P v) →
      ∃ ps : List (α × SymbolId × Tree α),
        cs = ps.map (fun p => node p.1 (.property p.2.1) [p.2.2]) ∧ ∀ p ∈ ps, P p.2.2
  | [], _, _ => ⟨[], rfl, nofun⟩
  | ⟨m, k, vs⟩ :: cs, hfit, hP => by
    obtain ⟨ps, rfl, hps⟩ := exists_properties (P := P)
      (fun c hc => hfit c (.tail _ hc))
      (fun c hc => hP c (.tail _ hc))
    obtain ⟨hk, hshape⟩ := hfit _ (.head _)
    cases k <;> cases hk
    case property s =>
      obtain ⟨v, rfl, hv⟩ := (wellShaped_one rfl).mp hshape
      refine ⟨(m, s, v) :: ps, rfl, forall_mem_cons.mpr ⟨?_, hps⟩⟩
      exact hP _ (.head _) v (.head _) hv

theorem IsExpression.of_fit (h : t.Fit isExpression) : t.IsExpression := by
  have hdeep : ∀ t : Tree α, (t.Fit isExpression → t.IsExpression) ∧
      ∀ c ∈ t.children, c.Fit isExpression → c.IsExpression := by
    intro t
    induction t with
    | node m k cs ih =>
      have hcs : ∀ c ∈ cs, c.Fit isExpression → c.IsExpression := fun c hc => (ih c hc).1
      refine ⟨fun ⟨hk, hshape⟩ => ?_, hcs⟩
      cases k with
      | array =>
        have hfit := (wellShaped_of_element rfl).mp hshape
        exact .array fun c hc => hcs c hc (hfit c hc)
      | sequence =>
        have hfit := (wellShaped_of_element rfl).mp hshape
        exact .sequence fun c hc => hcs c hc (hfit c hc)
      | object =>
        have hfit := (wellShaped_of_element rfl).mp hshape
        obtain ⟨ps, rfl, hps⟩ := exists_properties hfit fun c hc => (ih c hc).2
        exact .object hps
      | call =>
        obtain ⟨hne, hfit⟩ := (wellShaped_call (.inl rfl)).mp hshape
        obtain ⟨c, cs, rfl⟩ := exists_cons_of_ne_nil hne
        obtain ⟨hc, hall⟩ := forall_mem_cons.mp fun c hc => hcs c hc (hfit c hc)
        exact .call hc hall
      | new =>
        obtain ⟨hne, hfit⟩ := (wellShaped_call (.inr rfl)).mp hshape
        obtain ⟨c, cs, rfl⟩ := exists_cons_of_ne_nil hne
        obtain ⟨hc, hall⟩ := forall_mem_cons.mp fun c hc => hcs c hc (hfit c hc)
        exact .new hc hall
      | conditional =>
        obtain ⟨a, b, c, rfl, ha, hb, hc⟩ := (wellShaped_three rfl).mp hshape
        exact .conditional (hcs a (by simp) ha) (hcs b (by simp) hb) (hcs c (by simp) hc)
      | index =>
        obtain ⟨a, b, rfl, ha, hb⟩ := (wellShaped_two rfl).mp hshape
        exact .index (hcs a (by simp) ha) (hcs b (by simp) hb)
      | binary op =>
        obtain ⟨a, b, rfl, ha, hb⟩ := (wellShaped_two rfl).mp hshape
        exact .binary (hcs a (by simp) ha) (hcs b (by simp) hb)
      | assign op =>
        obtain ⟨a, b, rfl, ha, hb⟩ := (wellShaped_two rfl).mp hshape
        exact .assign (hcs a (by simp) ha) (hcs b (by simp) hb)
      | member s =>
        obtain ⟨a, rfl, ha⟩ := (wellShaped_one rfl).mp hshape
        exact .member (hcs a (by simp) ha)
      | unary op =>
        obtain ⟨a, rfl, ha⟩ := (wellShaped_one rfl).mp hshape
        exact .unary (hcs a (by simp) ha)
      | boolean _ | identifier _ | null | number _ | regExp _ | string _ | this | undefined =>
        obtain rfl := (wellShaped_none rfl).mp hshape
        constructor
      | _ => cases hk
  exact (hdeep t).1 h

theorem IsExpression.isExpression (h : t.IsExpression) : t.kind.isExpression := by
  cases h <;> rfl

def IsVariable (t : Tree α) : Prop := ∃ m s v, t = node m (.variable s) [v] ∧ v.IsExpression

def IsEmpty (t : Tree α) : Prop := ∃ m, t = node m .empty []

def IsClause (t : Tree α) : Prop := t.IsExpression ∨ t.IsEmpty

def IsSetup (t : Tree α) : Prop :=
  t.IsClause ∨ ∃ m vs, t = node m .varStatement vs ∧ ∀ v ∈ vs, v.IsVariable

def IsHead (t : Tree α) : Prop := t.IsExpression ∨ t.IsVariable

/-- The handler of a `try`, with its name and its block, or what stands for none. -/
def handler (m : α) : Option (SymbolId × α × List (Tree α)) → Tree α
  | none => node m .empty []
  | some (s, m', cs) => node m (.catch s) [node m' .block cs]

def finalizer (m : α) : Option (List (Tree α)) → Tree α
  | none => node m .empty []
  | some cs => node m .block cs

inductive IsStatement : Tree α → Prop
  | block {m : α} {cs : List (Tree α)} (hcs : ∀ c ∈ cs, IsStatement c) :
    IsStatement (node m .block cs)
  | break {m : α} {l : Option SymbolId} : IsStatement (node m (.break l) [])
  | continue {m : α} {l : Option SymbolId} : IsStatement (node m (.continue l) [])
  | debugger {m : α} : IsStatement (node m .debugger [])
  | directive {m : α} {s : String} : IsStatement (node m (.directive s) [])
  | doWhile {m : α} {b t : Tree α} (hb : IsStatement b) (ht : t.IsExpression) :
    IsStatement (node m .doWhile [b, t])
  | empty {m : α} : IsStatement (node m .empty [])
  | expression {m : α} {e : Tree α} (he : e.IsExpression) : IsStatement (node m .expression [e])
  | forLoop {m : α} {s t u b : Tree α} (hs : s.IsSetup) (ht : t.IsClause) (hu : u.IsClause)
    (hb : IsStatement b) : IsStatement (node m .forLoop [s, t, u, b])
  | forIn {m : α} {h v b : Tree α} (hh : h.IsHead) (hv : v.IsExpression) (hb : IsStatement b) :
    IsStatement (node m .forIn [h, v, b])
  | function {m m' : α} {s : SymbolId} {cs ps : List (Tree α)} (hcs : ∀ c ∈ cs, IsStatement c)
    (hps : ∀ p ∈ ps, p.IsVariable) : IsStatement (node m (.function s) (node m' .block cs :: ps))
  | ifElse {m : α} {t a b : Tree α} (ht : t.IsExpression) (ha : IsStatement a)
    (hb : IsStatement b) : IsStatement (node m .ifElse [t, a, b])
  | label {m : α} {s : SymbolId} {b : Tree α} (hb : IsStatement b) :
    IsStatement (node m (.label s) [b])
  | return {m : α} {e : Tree α} (he : e.IsExpression) : IsStatement (node m .return [e])
  | throw {m : α} {e : Tree α} (he : e.IsExpression) : IsStatement (node m .throw [e])
  | try {m m' mh mf : α} {cs : List (Tree α)} {h : Option (SymbolId × α × List (Tree α))}
    {f : Option (List (Tree α))} (hcs : ∀ c ∈ cs, IsStatement c)
    (hh : ∀ p ∈ h, ∀ c ∈ p.2.2, IsStatement c) (hf : ∀ ds ∈ f, ∀ c ∈ ds, IsStatement c) :
    IsStatement (node m .try [node m' .block cs, handler mh h, finalizer mf f])
  | varStatement {m : α} {vs : List (Tree α)} (hvs : ∀ v ∈ vs, v.IsVariable) :
    IsStatement (node m .varStatement vs)
  | whileLoop {m : α} {t b : Tree α} (ht : t.IsExpression) (hb : IsStatement b) :
    IsStatement (node m .whileLoop [t, b])

theorem IsVariable.of_fit (h : t.Fit isVariable) : t.IsVariable := by
  obtain ⟨m, k, cs⟩ := t
  obtain ⟨hk, hshape⟩ := h
  cases k <;> cases hk
  case «variable» s =>
    obtain ⟨v, rfl, hv⟩ := (wellShaped_one rfl).mp hshape
    exact ⟨m, s, v, rfl, .of_fit hv⟩

theorem IsEmpty.of_wellShaped (hk : t.kind = .empty) (h : t.WellShaped) : t.IsEmpty := by
  obtain ⟨m, k, cs⟩ := t
  cases hk
  obtain rfl := (wellShaped_none rfl).mp h
  exact ⟨m, rfl⟩

theorem IsClause.of_fit (h : t.Fit fitsClause) : t.IsClause := by
  obtain ⟨hk, hshape⟩ := h
  rw [fitsClause, Bool.or_eq_true, beq_iff_eq] at hk
  exact hk.imp (fun hk => .of_fit ⟨hk, hshape⟩) fun hk => .of_wellShaped hk hshape

theorem IsSetup.of_fit (h : t.Fit fitsSetup) : t.IsSetup := by
  obtain ⟨hk, hshape⟩ := h
  rw [fitsSetup, Bool.or_eq_true, beq_iff_eq] at hk
  rcases hk with hk | hk
  · exact .inl (.of_fit ⟨hk, hshape⟩)
  · obtain ⟨m, k, vs⟩ := t
    cases hk
    have hvs := (wellShaped_of_element rfl).mp hshape
    exact .inr ⟨m, vs, rfl, fun v hv => .of_fit (hvs v hv)⟩

theorem IsHead.of_fit (h : t.Fit fitsHead) : t.IsHead := by
  obtain ⟨hk, hshape⟩ := h
  rw [fitsHead, Bool.or_eq_true] at hk
  exact hk.imp (fun hk => .of_fit ⟨hk, hshape⟩) fun hk => .of_fit ⟨hk, hshape⟩

theorem exists_block {P : Tree α → Prop} (hk : t.kind = .block) (h : t.WellShaped)
    (hP : ∀ c ∈ t.children, c.Fit isStatement → P c) :
    ∃ m cs, t = node m .block cs ∧ ∀ c ∈ cs, P c := by
  obtain ⟨m, k, cs⟩ := t
  cases hk
  have hfit := (wellShaped_of_element rfl).mp h
  exact ⟨m, cs, rfl, fun c hc => hP c hc (hfit c hc)⟩

theorem exists_handler {P : Tree α → Prop} (h : t.Fit fitsHandler)
    (hP : ∀ b ∈ t.children, ∀ c ∈ b.children, c.Fit isStatement → P c) :
    ∃ m o, t = handler m o ∧ ∀ p ∈ o, ∀ c ∈ p.2.2, P c := by
  obtain ⟨hk, hshape⟩ := h
  rw [fitsHandler, Bool.or_eq_true, beq_iff_eq] at hk
  rcases hk with hk | hk
  · obtain ⟨m, rfl⟩ := IsEmpty.of_wellShaped hk hshape
    exact ⟨m, none, rfl, nofun⟩
  · obtain ⟨m, k, cs⟩ := t
    cases k with
    | «catch» s =>
      obtain ⟨b, rfl, hb, hbshape⟩ := (wellShaped_one rfl).mp hshape
      obtain ⟨m', ds, rfl, hds⟩ := exists_block (eq_of_beq hb) hbshape (hP b (.head _))
      refine ⟨m, some (s, m', ds), rfl, ?_⟩
      rintro p ⟨⟩
      exact hds
    | _ => cases hk

theorem exists_finalizer {P : Tree α → Prop} (h : t.Fit fitsFinalizer)
    (hP : ∀ c ∈ t.children, c.Fit isStatement → P c) :
    ∃ m o, t = finalizer m o ∧ ∀ ds ∈ o, ∀ c ∈ ds, P c := by
  obtain ⟨hk, hshape⟩ := h
  rw [fitsFinalizer, Bool.or_eq_true, beq_iff_eq, beq_iff_eq] at hk
  rcases hk with hk | hk
  · obtain ⟨m, rfl⟩ := IsEmpty.of_wellShaped hk hshape
    exact ⟨m, none, rfl, nofun⟩
  · obtain ⟨m, ds, rfl, hds⟩ := exists_block hk hshape hP
    refine ⟨m, some ds, rfl, ?_⟩
    rintro es ⟨⟩
    exact hds

theorem IsStatement.of_fit (h : t.Fit isStatement) : t.IsStatement := by
  -- The statements of a handler are two levels below their `try`.
  have hdeep : ∀ t : Tree α, (t.Fit isStatement → t.IsStatement) ∧
      (∀ c ∈ t.children, c.Fit isStatement → c.IsStatement) ∧
      ∀ b ∈ t.children, ∀ c ∈ b.children, c.Fit isStatement → c.IsStatement := by
    intro t
    induction t with
    | node m k cs ih =>
      have hcs : ∀ c ∈ cs, c.Fit isStatement → c.IsStatement := fun c hc => (ih c hc).1
      refine ⟨fun ⟨hk, hshape⟩ => ?_, hcs, fun c hc => (ih c hc).2.1⟩
      cases k with
      | block =>
        have hfit := (wellShaped_of_element rfl).mp hshape
        exact .block fun c hc => hcs c hc (hfit c hc)
      | varStatement =>
        have hfit := (wellShaped_of_element rfl).mp hshape
        exact .varStatement fun c hc => .of_fit (hfit c hc)
      | doWhile =>
        obtain ⟨b, t, rfl, hb, ht⟩ := (wellShaped_two rfl).mp hshape
        exact .doWhile (hcs b (by simp) hb) (.of_fit ht)
      | whileLoop =>
        obtain ⟨t, b, rfl, ht, hb⟩ := (wellShaped_two rfl).mp hshape
        exact .whileLoop (.of_fit ht) (hcs b (by simp) hb)
      | expression =>
        obtain ⟨e, rfl, he⟩ := (wellShaped_one rfl).mp hshape
        exact .expression (.of_fit he)
      | «return» =>
        obtain ⟨e, rfl, he⟩ := (wellShaped_one rfl).mp hshape
        exact .return (.of_fit he)
      | throw =>
        obtain ⟨e, rfl, he⟩ := (wellShaped_one rfl).mp hshape
        exact .throw (.of_fit he)
      | forLoop =>
        obtain ⟨s, t, u, b, rfl, hs, ht, hu, hb⟩ := (wellShaped_four rfl).mp hshape
        exact .forLoop (.of_fit hs) (.of_fit ht) (.of_fit hu) (hcs b (by simp) hb)
      | forIn =>
        obtain ⟨h, v, b, rfl, hh, hv, hb⟩ := (wellShaped_three rfl).mp hshape
        exact .forIn (.of_fit hh) (.of_fit hv) (hcs b (by simp) hb)
      | function s =>
        obtain ⟨hkinds, hchildren⟩ := wellShaped_node.mp hshape
        obtain ⟨rest, hmap, hrest⟩ := checkChildren_function.mp hkinds
        obtain ⟨b, ps, rfl, hb, rfl⟩ := map_eq_cons_iff.mp hmap
        obtain ⟨m', ds, rfl, hds⟩ := exists_block hb (hchildren b (by simp))
          (ih b (by simp)).2.1
        refine .function hds fun p hp => .of_fit ⟨?_, hchildren p (.tail _ hp)⟩
        exact hrest _ (mem_map_of_mem hp)
      | ifElse =>
        obtain ⟨t, a, b, rfl, ht, ha, hb⟩ := (wellShaped_three rfl).mp hshape
        exact .ifElse (.of_fit ht) (hcs a (by simp) ha) (hcs b (by simp) hb)
      | label s =>
        obtain ⟨b, rfl, hb⟩ := (wellShaped_one rfl).mp hshape
        exact .label (hcs b (by simp) hb)
      | «try» =>
        obtain ⟨b, h, f, rfl, hb, hh, hf⟩ := (wellShaped_three rfl).mp hshape
        obtain ⟨m', ds, rfl, hds⟩ := exists_block (eq_of_beq hb.1) hb.2 (ih b (by simp)).2.1
        obtain ⟨mh, h, rfl, hhandler⟩ := exists_handler hh (ih h (by simp)).2.2
        obtain ⟨mf, f, rfl, hfinalizer⟩ := exists_finalizer hf (ih f (by simp)).2.1
        exact .try hds hhandler hfinalizer
      | «break» _ | «continue» _ | debugger | directive _ | empty =>
        obtain rfl := (wellShaped_none rfl).mp hshape
        constructor
      | _ => cases hk
  exact (hdeep t).1 h

theorem isStatement_of_module (h : (node m .module cs).WellShaped) : ∀ c ∈ cs, c.IsStatement :=
  fun c hc => .of_fit ((wellShaped_of_element rfl).mp h c hc)

end ScriptPress.Tree

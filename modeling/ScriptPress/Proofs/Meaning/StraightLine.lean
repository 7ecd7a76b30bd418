import ScriptPress.Proofs.Meaning.Core
import ScriptPress.Proofs.Usage.Scan

/-! # Straight-line programs -/

namespace ScriptPress

open List

variable {α ω : Type}

/-- A call: the name and the value of the function, and the arguments. -/
structure Call (ω : Type) where
  callee : SymbolId
  function : Value ω
  arguments : List (Value ω)

structure Machine (ω : Type) where
  values : SymbolId → Value ω
  calls : List (Call ω)

/-- The objects, the value of `this`, and how the last one of some calls ends. -/
structure World (ω : Type) extends Objects ω where
  self : Value ω
  reply : List (Call ω) → Except (Value ω) (Value ω)

/-- The operator that an assignment applies to the old value, unless it forgets that. -/
def AssignOp.operator? : AssignOp → Option BinaryOp
  | assign => none
  | add => some .add
  | bitwiseAnd => some .bitwiseAnd
  | bitwiseOr => some .bitwiseOr
  | bitwiseXor => some .bitwiseXor
  | divide => some .divide
  | multiply => some .multiply
  | remainder => some .remainder
  | shiftLeft => some .shiftLeft
  | shiftRight => some .shiftRight
  | shiftRightUnsigned => some .shiftRightUnsigned
  | subtract => some .subtract

namespace World

def host (W : World ω) : Host ω (Machine ω) where
  toObjects := W.toObjects
  read s x := s.values x
  self _ := W.self
  call callee function arguments := ExceptT.mk fun s =>
    let calls := s.calls ++ [⟨callee, function, arguments⟩]
    (W.reply calls, { s with calls })

def update (W : World ω) (op : AssignOp) (old new : Value ω) : Value ω :=
  match op.operator? with
  | none => new
  | some op => W.binary op old new

end World

def Machine.store (x : SymbolId) (v : Value ω) : Evaluation ω (Machine ω) Unit :=
  ExceptT.mk fun s => (.ok (), { s with values := fun y => if y = x then v else s.values y })

namespace Tree

def perform (W : World ω) : Tree α → Evaluation ω (Machine ω) Unit
  | node _ kind cs =>
    match kind, cs with
    | .variable x, [v] =>
      if v.kind = .undefined then pure ()
      else v.evaluate W.host .none >>= Machine.store x
    | .expression, [node _ (.assign op) [node _ (.identifier x) _, e]] => do
      let old ← lookup W.host .none x
      let new ← e.evaluate W.host .none
      Machine.store x (W.update op old new)
    | .expression, [e] => do
      let _ ← e.evaluate W.host .none
    | _, _ => pure ()

def performAll (W : World ω) : List (Tree α) → Evaluation ω (Machine ω) Unit
  | [] => pure ()
  | u :: us => do
    u.perform W
    performAll W us

/-- The declarations in a `var` list; any other statement that is not empty itself. -/
def parts (c : Tree α) : List (Tree α) :=
  match c.kind with
  | .varStatement => c.children
  | .empty => []
  | _ => [c]

def steps (t : Tree α) : List (Tree α) := t.children.flatMap parts

def target? : Tree α → Option SymbolId
  | node _ (.variable x) _ => some x
  | node _ .expression [node _ (.assign _) (node _ (.identifier x) _ :: _)] => some x
  | _ => none

def Initialized (u : Tree α) : Prop := ∃ v ∈ u.children, v.kind ≠ .undefined

/-- The calls of a program, where pinned names have the values that the world gives them. -/
def calls (W : World ω) (pinned : SymbolId → Bool) (globals : SymbolId → Value ω) (t : Tree α) :
    List (Call ω) :=
  ((performAll W t.steps).run.run
    ⟨fun x => if pinned x then globals x else .undefined, []⟩).2.calls

/-- An expression that computes a value and calls pinned names only. -/
structure Plain (pinned : SymbolId → Bool) (e : Tree α) : Prop where
  core : e.Core
  expression : e.kind.isExpression
  callee : ∀ u ∈ e.subtrees, u.kind = .call → ∀ c ∈ u.children.head?, ∀ f,
    c.kind = .identifier f → pinned f

inductive IsStep (pinned : SymbolId → Bool) : Tree α → Prop
  | declare {m : α} {x : SymbolId} {v : Tree α} (name : pinned x = false)
    (value : v.Plain pinned) : IsStep pinned (node m (.variable x) [v])
  | assign {m m' m'' : α} {op : AssignOp} {x : SymbolId} {e : Tree α} (value : e.Plain pinned) :
    IsStep pinned (node m .expression [node m' (.assign op) [node m'' (.identifier x) [], e]])
  | call {m m' : α} {cs : List (Tree α)} (value : (node m' .call cs).Plain pinned) :
    IsStep pinned (node m .expression [node m' .call cs])

/-- A module that only declares, assigns to names and calls pinned names. -/
structure StraightLine (pinned : SymbolId → Bool) (t : Tree α) : Prop where
  kind : t.kind = .module
  shaped : t.WellShaped
  steps : ∀ u ∈ t.steps, u.IsStep pinned

def WrittenOnce (x : SymbolId) (t : Tree α) : Prop :=
  t.steps.countP (fun u => u.target? = some x) = 1

/-- A name that is written by nothing but a declaration is not read before that, and when the
declaration has no initializer, the name alone is no initializer either. -/
structure Settled (t : Tree α) : Prop where
  declared : ∀ d ∈ t.steps, ∀ x, d.kind = .variable x → t.WrittenOnce x → d.Initialized →
    ∀ o, (t.steps.flatMap (uses false)).find? (fun o => o.symbol = x) = some o → o.access = .write
  copied : ∀ d ∈ t.steps, ∀ x, d.kind = .variable x → t.WrittenOnce x → ¬d.Initialized →
    ∀ u ∈ t.steps, ∀ y, u.kind = .variable y → ∀ v ∈ u.children, v.kind ≠ .identifier x

section

variable {pinned : SymbolId → Bool} {e u : Tree α} {cs : List (Tree α)} {c st : Tree α} {m : α}

attribute [local simp] Kind.mentioned? Kind.symbol? kind_node

theorem core_subtree (h : e.Core) (hu : u ∈ e.subtrees) : u.Core := by
  induction e with
  | node m k cs ih =>
    rcases mem_subtrees_node.mp hu with rfl | ⟨c, hc, hu⟩
    · exact h
    · exact ih c hc ((core_node.mp h).2 c hc) hu

theorem isExpression_child {k : Kind} (hs : (node m k cs).WellShaped) (hcore : (node m k cs).Core)
    (hk : k.isExpression) (hc : c ∈ cs) : c.kind.isExpression := by
  cases k with
  | unary op =>
    obtain ⟨x, rfl, hx⟩ := (wellShaped_one rfl).mp hs
    obtain rfl := mem_singleton.mp hc
    exact hx.1
  | binary op =>
    obtain ⟨x, y, rfl, hx, hy⟩ := (wellShaped_two rfl).mp hs
    rcases mem_pair.mp hc with rfl | rfl
    · exact hx.1
    · exact hy.1
  | conditional =>
    obtain ⟨t, x, y, rfl, ht, hx, hy⟩ := (wellShaped_three rfl).mp hs
    simp only [mem_cons, not_mem_nil, or_false] at hc
    rcases hc with rfl | rfl | rfl
    · exact ht.1
    · exact hx.1
    · exact hy.1
  | sequence => exact ((wellShaped_of_element rfl).mp hs c hc).1
  | call => exact (((wellShaped_call (.inl rfl)).mp hs).2 c hc).1
  | boolean _ | null | number _ | string _ | undefined | identifier _ | this =>
    obtain rfl := (wellShaped_none rfl).mp hs
    cases hc
  | array | index | member _ | «new» | object | regExp _ | assign _ => cases (core_node.mp hcore).1
  | _ => cases hk

theorem Plain.subtree (h : e.Plain pinned) (hs : e.WellShaped) (hu : u ∈ e.subtrees) :
    u.Plain pinned := by
  refine ⟨core_subtree h.core hu, ?_, fun w hw => h.callee w (subtrees_trans hw hu)⟩
  have hcore := h.core
  have hexpression := h.expression
  clear h
  induction e with
  | node m k cs ih =>
    rcases mem_subtrees_node.mp hu with rfl | ⟨c, hc, hu⟩
    · exact hexpression
    · exact ih c hc (hs.child c hc) hu ((core_node.mp hcore).2 c hc)
        (isExpression_child hs hcore hexpression hc)

theorem Plain.child {k : Kind} (h : (node m k cs).Plain pinned) (hs : (node m k cs).WellShaped)
    (hc : c ∈ cs) : c.Plain pinned :=
  h.subtree hs (mem_subtrees_node.mpr (.inr ⟨c, hc, mem_subtrees_self c⟩))

theorem Plain.callee_eq (h : (node m .call cs).Plain pinned) (hs : (node m .call cs).WellShaped) :
    ∃ m' f arguments, cs = node m' (.identifier f) [] :: arguments ∧ pinned f := by
  obtain ⟨c, arguments, rfl⟩ := exists_cons_of_ne_nil ((wellShaped_call (.inl rfl)).mp hs).1
  obtain ⟨f, hf⟩ : ∃ f, c.kind = .identifier f := by
    have hkind := (core_node.mp h.core).1
    rw [map_cons] at hkind
    generalize c.kind = k at hkind ⊢
    cases k <;> first | exact ⟨_, rfl⟩ | cases hkind
  have hpinned := h.callee _ (mem_subtrees_self _) rfl c rfl f hf
  obtain ⟨m', k, cs⟩ := c
  obtain rfl : k = _ := hf
  obtain rfl := (wellShaped_none rfl).mp (hs.child _ (.head _))
  exact ⟨m', f, arguments, rfl, hpinned⟩

theorem Plain.kind_of_mentioned (h : e.Plain pinned) (hs : e.WellShaped) (hu : u ∈ e.subtrees)
    {x : SymbolId} (hx : u.kind.mentioned? = some x) : u.kind = .identifier x := by
  have hplain := h.subtree hs hu
  have hcore := hplain.core
  have hexpression := hplain.expression
  obtain ⟨m, k, cs⟩ := u
  rw [kind_node] at hx hexpression ⊢
  cases k <;>
    first
    | (cases hx; rfl)
    | (cases hx; done)
    | (cases hexpression; done)
    | cases (core_node.mp hcore).1

theorem Plain.access (h : e.Plain pinned) (hs : e.WellShaped) :
    ∀ o ∈ e.uses false, o.access = .read := by
  induction e with
  | node m k cs ih =>
    have hcs : ∀ o ∈ usesAll cs, o.access = .read := by
      intro o ho
      rw [usesAll_eq, mem_flatMap] at ho
      obtain ⟨c, hc, ho⟩ := ho
      exact ih c hc (h.child hs hc) (hs.child c hc) o ho
    have hcore := (core_node.mp h.core).1
    have hexpression := h.expression
    cases k with
    | identifier s =>
      intro o ho
      rw [uses] at ho
      obtain rfl := mem_singleton.mp ho
      rfl
    | unary op =>
      obtain ⟨x, rfl, -⟩ := (wellShaped_one rfl).mp hs
      have hop : op.isAssign = false := by
        cases op <;> first | rfl | cases hcore
      rw [uses, hop]
      exact ih x (.head _) (h.child hs (.head _))
        (hs.child x (.head _))
    | boolean _ | null | number _ | string _ | undefined | this | conditional | binary _
    | sequence | call =>
      rw [uses]
      · exact hcs
      all_goals simp
    | array | index | member _ | «new» | object | regExp _ | assign _ => cases hcore
    | _ => cases hexpression

theorem IsStep.kind_subtree (h : st.IsStep pinned) (hs : st.WellShaped) (hu : u ∈ st.subtrees) :
    u.kind ≠ .varStatement ∧ ∀ x, u.kind.mentioned? = some x →
      u.kind = .identifier x ∨ u.kind = .variable x := by
  have hplain : ∀ {e : Tree α}, e.Plain pinned → e.WellShaped → u ∈ e.subtrees →
      u.kind ≠ .varStatement ∧ ∀ x, u.kind.mentioned? = some x →
        u.kind = .identifier x ∨ u.kind = .variable x := by
    intro e he hs hu
    refine ⟨fun hkind => ?_, fun x hx => .inl (he.kind_of_mentioned hs hu hx)⟩
    have hexpression := (he.subtree hs hu).expression
    rw [hkind] at hexpression
    cases hexpression
  cases h with
  | declare name value =>
    rcases mem_subtrees_node.mp hu with rfl | ⟨c, hc, hu'⟩
    · simp
    · obtain rfl := mem_singleton.mp hc
      exact hplain value (hs.child _ hc) hu'
  | assign value =>
    rcases mem_subtrees_node.mp hu with rfl | ⟨c, hc, hu'⟩
    · simp
    · obtain rfl := mem_singleton.mp hc
      have hassign := hs.child _ hc
      rcases mem_subtrees_node.mp hu' with rfl | ⟨d, hd, hu''⟩
      · simp
      · rcases mem_pair.mp hd with rfl | rfl
        · rcases mem_subtrees_node.mp hu'' with rfl | ⟨c, hc, -⟩
          · simp
          · cases hc
        · exact hplain value (hassign.child _ hd) hu''
  | call value =>
    rcases mem_subtrees_node.mp hu with rfl | ⟨c, hc, hu'⟩
    · simp
    · obtain rfl := mem_singleton.mp hc
      exact hplain value (hs.child _ hc) hu'

theorem parts_varStatement (m : α) (cs : List (Tree α)) : (node m .varStatement cs).parts = cs :=
  rfl

theorem parts_of_ne (hlist : c.kind ≠ .varStatement) (hempty : c.kind ≠ .empty) :
    c.parts = [c] := by
  unfold parts
  split
  · rename_i h
    exact absurd h hlist
  · rename_i h
    exact absurd h hempty
  · rfl

namespace StraightLine

variable {t : Tree α}

theorem child (h : t.StraightLine pinned) (hc : c ∈ t.children) :
    c.WellShaped ∧ c.kind.isStatement := by
  obtain ⟨m, k, cs⟩ := t
  obtain rfl : k = _ := h.kind
  exact ((wellShaped_of_element rfl).mp h.shaped c hc).symm

theorem child_cases (h : t.StraightLine pinned) (hc : c ∈ t.children) :
    (∃ m ds, c = node m .varStatement ds ∧ ∀ d ∈ ds, d ∈ t.steps) ∨ (∃ m, c = node m .empty []) ∨
      (c.kind = .expression ∧ c ∈ t.steps) := by
  obtain ⟨hshaped, hstatement⟩ := h.child hc
  have hsteps : ∀ u ∈ c.parts, u ∈ t.steps := fun u hu => mem_flatMap.mpr ⟨c, hc, hu⟩
  obtain ⟨m, k, cs⟩ := c
  by_cases hlist : k = .varStatement
  · subst hlist
    exact .inl ⟨m, cs, rfl, hsteps⟩
  by_cases hempty : k = .empty
  · subst hempty
    obtain rfl := (wellShaped_none rfl).mp hshaped
    exact .inr (.inl ⟨m, rfl⟩)
  · have hstep : node m k cs ∈ t.steps := by
      apply hsteps
      rw [parts_of_ne (show (node m k cs).kind ≠ _ from hlist) hempty]
      exact mem_singleton_self _
    refine .inr (.inr ⟨?_, hstep⟩)
    cases h.steps _ hstep with
    | declare => cases hstatement
    | assign | call => rfl

theorem shaped_step (h : t.StraightLine pinned) (hu : u ∈ t.steps) : u.WellShaped := by
  obtain ⟨c, hc, hu⟩ := mem_flatMap.mp hu
  have hshaped := (h.child hc).1
  rcases h.child_cases hc with ⟨m, ds, rfl, -⟩ | ⟨m, rfl⟩ | ⟨hkind, -⟩
  · exact hshaped.child u hu
  · cases hu
  · rw [parts_of_ne (by simp [hkind]) (by simp [hkind])] at hu
    obtain rfl := mem_singleton.mp hu
    exact hshaped

theorem mem_subtrees (h : t.StraightLine pinned) (hu : u ∈ t.subtrees) :
    u = t ∨ (u ∈ t.children ∧ (u.kind = .varStatement ∨ u.kind = .empty)) ∨
      ∃ st ∈ t.steps, u ∈ st.subtrees := by
  obtain ⟨m, k, cs⟩ := t
  rcases mem_subtrees_node.mp hu with rfl | ⟨c, hc, hu⟩
  · exact .inl rfl
  rcases h.child_cases hc with ⟨m', ds, rfl, hds⟩ | ⟨m', rfl⟩ | ⟨-, hstep⟩
  · rcases mem_subtrees_node.mp hu with rfl | ⟨d, hd, hu⟩
    · exact .inr (.inl ⟨hc, .inl rfl⟩)
    · exact .inr (.inr ⟨d, hds d hd, hu⟩)
  · rcases mem_subtrees_node.mp hu with rfl | ⟨d, hd, -⟩
    · exact .inr (.inl ⟨hc, .inr rfl⟩)
    · cases hd
  · exact .inr (.inr ⟨c, hstep, hu⟩)

theorem uses_eq (h : t.StraightLine pinned) : usesAll [t] = t.steps.flatMap (uses false) := by
  have hparts : ∀ c ∈ t.children, c.uses false = c.parts.flatMap (uses false) := by
    intro c hc
    rcases h.child_cases hc with ⟨m, ds, rfl, -⟩ | ⟨m, rfl⟩ | ⟨hkind, -⟩
    · rw [parts_varStatement, ← usesAll_eq, uses] <;> simp
    · rfl
    · rw [parts_of_ne (by simp [hkind]) (by simp [hkind]), flatMap_singleton]
  have hmodule : t.uses false = usesAll t.children := by
    have hkind := h.kind
    obtain ⟨m, k, cs⟩ := t
    obtain rfl : k = _ := hkind
    rw [uses, children_node] <;> simp
  rw [usesAll_eq, flatMap_singleton, hmodule, usesAll_eq, Tree.steps, flatMap_assoc]
  exact flatMap_congr hparts

end StraightLine

theorem IsStep.uses_eq (h : st.IsStep pinned) (hs : st.WellShaped) :
    ∃ os, (∀ o ∈ os, o.access = .read) ∧ (st.uses false = os ∧ st.target? = none ∨
      ∃ x m, st.uses false = ⟨x, .write, m⟩ :: os ∧ st.target? = some x) := by
  cases h with
  | @declare m x v name value =>
    refine ⟨v.uses false, value.access (hs.child v (.head _)),
      .inr ⟨x, m, ?_, rfl⟩⟩
    rw [uses, usesAll_eq, flatMap_singleton]
  | @assign m m' m'' op x e value =>
    have hassign := hs.child _ (.head _)
    refine ⟨e.uses false, value.access (hassign.child e (by simp)),
      .inr ⟨x, m'', ?_, rfl⟩⟩
    rw [uses, usesAll_eq, flatMap_singleton, uses, uses]
    · rfl
    all_goals simp
  | @call m m' cs value =>
    refine ⟨(node m' .call cs).uses false,
      value.access (hs.child _ (.head _)), .inl ⟨?_, rfl⟩⟩
    rw [uses, usesAll_eq, flatMap_singleton]
    all_goals simp

end

end Tree

end ScriptPress

import ScriptPress.Proofs.Tree.Shape
import ScriptPress.Estree.Program

/-! # What a document is read into -/

namespace ScriptPress

open List

/-! ## Results without a defect -/

section

variable {α β ε : Type} {f : α → Except ε β}

theorem ok_bind : Except.ok a >>= f = f a := rfl

theorem mapM_eq_ok {as : List α} {bs : List β} :
    as.mapM f = .ok bs ↔ List.Forall₂ (fun a b => f a = .ok b) as bs := by
  constructor
  · intro h
    induction as generalizing bs with
    | nil =>
      cases h
      exact .nil
    | cons a as ih =>
      rw [mapM_cons] at h
      obtain ⟨b, hb, h⟩ := exists_of_bind_eq_ok h
      obtain ⟨bs, hbs, h⟩ := exists_of_bind_eq_ok h
      cases h
      exact .cons hb (ih hbs)
  · intro h
    induction h with
    | nil => rfl
    | cons ha _ ih =>
      rw [mapM_cons, ha, ih]
      rfl

end

namespace Reading

variable {α β : Type} {x y : Reading α} {f : α → Reading β} {n n' : Names} {a a' : α} {b : β}
  {d : Defect}

theorem run_bind_eq_ok : (x >>= f).run n = .ok (b, n') ↔
    ∃ a m, x.run n = .ok (a, m) ∧ (f a).run m = .ok (b, n') := by
  rw [StateT.run_bind]
  cases hx : x.run n with
  | error d => exact ⟨fun h => (by cases h), by rintro ⟨a, m, ⟨⟩, _⟩⟩
  | ok p =>
    constructor
    · intro h
      exact ⟨p.1, p.2, rfl, h⟩
    · rintro ⟨a, m, ⟨⟩, h⟩
      exact h

theorem run_pure_eq_ok : (pure a : Reading α).run n = .ok (a', n') ↔ a = a' ∧ n = n' := by
  constructor
  · intro h
    cases h
    exact ⟨rfl, rfl⟩
  · rintro ⟨rfl, rfl⟩
    rfl

theorem run_throw_eq_ok : (throw d : Reading α).run n = .ok (a, n') ↔ False :=
  ⟨fun h => (by cases h), False.elim⟩

theorem run_lift_eq_ok {x : Except Defect α} :
    (liftM x : Reading α).run n = .ok (a, n') ↔ x = .ok a ∧ n = n' := by
  cases x with
  | error d => exact ⟨fun h => (by cases h), fun h => (by cases h.1)⟩
  | ok b => exact run_pure_eq_ok.trans (by rw [Except.ok.injEq])

theorem run_unless_eq_ok {c : Prop} [Decidable c] {g : β → Reading α} :
    (if c then throw d >>= g else x).run n = .ok (a, n') ↔ ¬c ∧ x.run n = .ok (a, n') := by
  split
  · rename_i hc
    exact ⟨fun h => (by cases h), fun h => absurd hc h.1⟩
  · rename_i hc
    exact ⟨fun h => ⟨hc, h⟩, And.right⟩

end Reading

open Reading

/-! ## The table -/

def Kind.opensScope : Kind → Bool
  | .function _ | .catch _ | .label _ => true
  | _ => false

namespace Element

inductive Role where
  | value
  | statement
  | block
  | declaration
  | declarator
  | loopVariable
  | property
  | handler

inductive Item where
  | read (role : Role) (scope : Scope) (e : Element)
  | made (t : Tree Unit)

namespace Item

abbrev value (scope : Scope) {e : Element} (c : e.Child) : Item := .read .value scope c.1

abbrev statement (scope : Scope) {e : Element} (c : e.Child) : Item := .read .statement scope c.1

abbrev block (scope : Scope) {e : Element} (c : e.Child) : Item := .read .block scope c.1

abbrev handler (scope : Scope) {e : Element} (c : e.Child) : Item := .read .handler scope c.1

abbrev leaf (k : Kind) : Item := .made (.plain k [])

def valueOr (declared : Role) (scope : Scope) {e : Element} (c : e.Child) : Item :=
  .read (if c.1.type = "VariableDeclaration" then declared else .value) scope c.1

def optional {e : Element} (missing : Kind) (read : e.Child → Item) : Option e.Child → Item
  | none => leaf missing
  | some c => read c

end Item

inductive Arranges : Role → Scope → Element → Names → Kind → List Item → Names → Prop
  | identifier {scope e n name s m} : e.type = "Identifier" → e.identifierName = .ok name →
      (scope.resolve name).run n = .ok (s, m) → Arranges .value scope e n (.identifier s) [] m
  | literal {scope e n k} : e.type = "Literal" → k.isLiteral →
      Arranges .value scope e n k [] n
  | regExp {scope e n source} : e.type = "Literal" → source.toList.head? = some '/' →
      Arranges .value scope e n (.regExp source) [] n
  | this {scope e n} : e.type = "ThisExpression" → Arranges .value scope e n .this [] n
  | array {scope e n cs} : e.type = "ArrayExpression" → e.nodes "elements" = .ok cs →
      Arranges .value scope e n .array (cs.map (.optional .undefined (.value scope))) n
  | object {scope e n ps} : e.type = "ObjectExpression" → e.list "properties" = .ok ps →
      Arranges .value scope e n .object (ps.map fun p => .read .property scope p.1) n
  | conditional {scope e n a b c} : e.type = "ConditionalExpression" → e.node "test" = .ok a →
      e.node "consequent" = .ok b → e.node "alternate" = .ok c →
      Arranges .value scope e n .conditional [.value scope a, .value scope b, .value scope c] n
  | index {scope e n a b} : e.type = "MemberExpression" → e.node "object" = .ok a →
      e.node "property" = .ok b →
      Arranges .value scope e n .index [.value scope a, .value scope b] n
  | call {scope e n c cs} : e.type = "CallExpression" → e.node "callee" = .ok c →
      e.list "arguments" = .ok cs →
      Arranges .value scope e n .call (.value scope c :: cs.map (.value scope)) n
  | new {scope e n c cs} : e.type = "NewExpression" → e.node "callee" = .ok c →
      e.list "arguments" = .ok cs →
      Arranges .value scope e n .new (.value scope c :: cs.map (.value scope)) n
  | sequence {scope e n cs} : e.type = "SequenceExpression" → e.list "expressions" = .ok cs →
      Arranges .value scope e n .sequence (cs.map (.value scope)) n
  | unary {scope e n op c} : e.type = "UnaryExpression" ∨ e.type = "UpdateExpression" →
      e.node "argument" = .ok c → Arranges .value scope e n (.unary op) [.value scope c] n
  | power {scope e n a b} : e.type = "BinaryExpression" ∨ e.type = "LogicalExpression" →
      e.node "left" = .ok a → e.node "right" = .ok b → Arranges .value scope e n .call
        [.made (.plain (.member scope.known.pow) [.plain (.identifier scope.known.math) []]),
          .value scope a, .value scope b] n
  | binary {scope e n op a b} : e.type = "BinaryExpression" ∨ e.type = "LogicalExpression" →
      e.node "left" = .ok a → e.node "right" = .ok b →
      Arranges .value scope e n (.binary op) [.value scope a, .value scope b] n
  | assign {scope e n op a b} : e.type = "AssignmentExpression" → e.node "left" = .ok a →
      e.node "right" = .ok b →
      Arranges .value scope e n (.assign op) [.value scope a, .value scope b] n
  | property {scope e n c name s v m} : e.type = "Property" → e.node "key" = .ok c →
      c.1.keyName = .ok name → (propertySymbol name).run n = .ok (s, m) → e.node "value" = .ok v →
      Arranges .property scope e n (.property s) [.value scope v] m
  | declarator {scope e n c name s v m} : e.node "id" = .ok c → c.1.identifierName = .ok name →
      (scope.resolve name).run n = .ok (s, m) → e.optional "init" = .ok v →
      Arranges .declarator scope e n (.variable s) [.optional .undefined (.value scope) v] m
  | loopVariable {scope e n d c name s m} : e.type = "VariableDeclaration" →
      e.list "declarations" = .ok [d] → d.1.optional "init" = .ok none → d.1.node "id" = .ok c →
      c.1.identifierName = .ok name → (scope.resolve name).run n = .ok (s, m) →
      Arranges .loopVariable scope e n (.variable s) [.leaf .undefined] m
  | handler {scope e n p name s frame c m} : e.optional "param" = .ok (some p) →
      p.1.identifierName = .ok name → (Frame.declare [] name).run n = .ok ((s, frame), m) →
      e.node "body" = .ok c →
      Arranges .handler scope e n (.catch s) [.block (scope.enter frame) c] m
  | block {role scope e n cs} : role = .statement ∨ role = .block → e.type = "BlockStatement" →
      e.list "body" = .ok cs → Arranges role scope e n .block (cs.map (.statement scope)) n
  | break {scope e n target} : e.type = "BreakStatement" → e.jumpLabel scope = .ok target →
      Arranges .statement scope e n (.break target) [] n
  | continue {scope e n target} : e.type = "ContinueStatement" → e.jumpLabel scope = .ok target →
      Arranges .statement scope e n (.continue target) [] n
  | debugger {scope e n} : e.type = "DebuggerStatement" →
      Arranges .statement scope e n .debugger [] n
  | empty {scope e n} : e.type = "EmptyStatement" → Arranges .statement scope e n .empty [] n
  | directive {scope e n text} : e.type = "ExpressionStatement" →
      e.optionalText "directive" = some text → Arranges .statement scope e n (.directive text) [] n
  | expression {scope e n c} : e.type = "ExpressionStatement" →
      e.optionalText "directive" = none → e.node "expression" = .ok c →
      Arranges .statement scope e n .expression [.value scope c] n
  | forLoop {scope e n i t u b} : e.type = "ForStatement" → e.optional "init" = .ok i →
      e.optional "test" = .ok t → e.optional "update" = .ok u → e.node "body" = .ok b →
      Arranges .statement scope e n .forLoop
        [.optional .empty (.valueOr .declaration scope) i, .optional .empty (.value scope) t,
          .optional .empty (.value scope) u, .statement scope b] n
  | forIn {scope e n l r b} : e.type = "ForInStatement" → e.node "left" = .ok l →
      e.node "right" = .ok r → e.node "body" = .ok b → Arranges .statement scope e n .forIn
        [.valueOr .loopVariable scope l, .value scope r, .statement scope b] n
  | function {scope e n c name s n₁ ps trees frame n₂ body es names frame' m} :
      e.type = "FunctionDeclaration" → e.node "id" = .ok c → c.1.identifierName = .ok name →
      (scope.resolve name).run n = .ok (s, n₁) → e.list "params" = .ok ps →
      (parameters [] (ps.map (·.1))).run n₁ = .ok ((trees, frame), n₂) → e.node "body" = .ok body →
      body.1.list "body" = .ok es → hoistedAll (es.map (·.1)) = .ok names →
      (frame.declareAll names).run n₂ = .ok (frame', m) → body.1.type = "BlockStatement" →
      Arranges .statement scope e n (.function s)
        (.block (scope.enterFunction frame') body :: trees.map .made) m
  | ifElse {scope e n a b c} : e.type = "IfStatement" → e.node "test" = .ok a →
      e.node "consequent" = .ok b → e.optional "alternate" = .ok c →
      Arranges .statement scope e n .ifElse
        [.value scope a, .statement scope b, .optional .empty (.statement scope) c] n
  | label {scope e n l name s b m} : e.type = "LabeledStatement" → e.node "label" = .ok l →
      l.1.identifierName = .ok name → (createSymbol name false).run n = .ok (s, m) →
      e.node "body" = .ok b →
      Arranges .statement scope e n (.label s) [.statement (scope.withLabel name s) b] m
  | return {scope e n c} : e.type = "ReturnStatement" → e.optional "argument" = .ok c →
      Arranges .statement scope e n .return [.optional .undefined (.value scope) c] n
  | throw {scope e n c} : e.type = "ThrowStatement" → e.node "argument" = .ok c →
      Arranges .statement scope e n .throw [.value scope c] n
  | try {scope e n b h f} : e.type = "TryStatement" → e.node "block" = .ok b →
      e.optional "handler" = .ok h → e.optional "finalizer" = .ok f →
      Arranges .statement scope e n .try
        [.block scope b, .optional .empty (.handler scope) h, .optional .empty (.block scope) f] n
  | varStatement {role scope e n ds} : role = .statement ∨ role = .declaration →
      e.type = "VariableDeclaration" → e.list "declarations" = .ok ds →
      Arranges role scope e n .varStatement (ds.map fun d => .read .declarator scope d.1) n
  | whileLoop {scope e n a b} : e.type = "WhileStatement" → e.node "test" = .ok a →
      e.node "body" = .ok b →
      Arranges .statement scope e n .whileLoop [.value scope a, .statement scope b] n
  | doWhile {scope e n a b} : e.type = "DoWhileStatement" → e.node "body" = .ok b →
      e.node "test" = .ok a →
      Arranges .statement scope e n .doWhile [.statement scope b, .value scope a] n

def Item.In (scope : Scope) : Item → Prop
  | read _ inner _ => inner = scope
  | made t => t = .plain .undefined [] ∨ t = .plain .empty []

theorem Item.in_value {scope : Scope} {e : Element} (c : e.Child) : (value scope c).In scope := rfl

theorem Item.in_optional {scope : Scope} {e : Element} {k : Kind} {f : e.Child → Item}
    (hk : k = .undefined ∨ k = .empty) (hf : ∀ c, (f c).In scope) (o : Option e.Child) :
    (optional k f o).In scope := by
  cases o with
  | none => rcases hk with rfl | rfl <;> simp [optional, In]
  | some c => exact hf c

theorem Arranges.inside {role : Role} {scope : Scope} {e : Element} {n m : Names} {k : Kind}
    {items : List Item} (h : Arranges role scope e n k items m) (hk : k.opensScope = false) :
    (∀ item ∈ items, item.In scope) ∨ role = .value ∧ k = .call ∧ ∃ a b : e.Child, items =
      [.made (.plain (.member scope.known.pow) [.plain (.identifier scope.known.math) []]),
        .value scope a, .value scope b] := by
  have hread : ∀ role (c : e.Child), (Item.read role scope c.1).In scope := fun _ _ => rfl
  have hvalueOr : ∀ role (c : e.Child), (Item.valueOr role scope c).In scope := fun _ _ => rfl
  have hundefined := @Item.in_optional scope e .undefined (.value scope) (.inl rfl) (hread _)
  have hempty := fun f => @Item.in_optional scope e .empty f (.inr rfl)
  cases h with
  | power => exact .inr ⟨rfl, rfl, _, _, rfl⟩
  | handler | function | label => cases hk
  | array => exact .inl (forall_mem_map.mpr fun c _ => hundefined c)
  | object | sequence | block | varStatement =>
    exact .inl (forall_mem_map.mpr fun c _ => hread _ c)
  | call | new =>
    exact .inl (forall_mem_cons.mpr ⟨hread _ _, forall_mem_map.mpr fun c _ => hread _ c⟩)
  | loopVariable => exact .inl (forall_mem_singleton.mpr (.inl rfl))
  | _ => exact .inl (by simp [hread, hvalueOr, hundefined, hempty])

/-! ## Whole documents -/

abbrev Way := Role → Scope → Element → Names → Tree Unit → Names → Prop

def Item.ReadBy (R : Way) (n : Names) (t : Tree Unit) (n' : Names) : Item → Prop
  | read role scope e => R role scope e n t n'
  | made t' => t' = t ∧ n = n'

inductive ReadsAll (R : Way) : List Item → Names → List (Tree Unit) → Names → Prop
  | nil {n} : ReadsAll R [] n [] n
  | cons {item items n t m ts n'} (h : item.ReadBy R n t m) (hs : ReadsAll R items m ts n') :
      ReadsAll R (item :: items) n (t :: ts) n'

def chain (start : Tree Unit) (parts : List (Tree Unit × String)) : Tree Unit :=
  parts.foldl (fun t part => .plain (.binary .add)
    [.plain (.binary .add) [t, part.1], .plain (.string part.2) []]) start

inductive Reads : Way
  | node {role scope e n k items m ts n' R} (h : Arranges role scope e n k items m)
      (hts : ReadsAll R items m ts n')
      (hR : ∀ {role scope e n t n'}, R role scope e n t n' → Reads role scope e n t n') :
      Reads role scope e n (.plain k ts) n'
  | member {scope e c p name n t m s n'} (htype : e.type = "MemberExpression")
      (hc : e.node "object" = .ok c) (hp : e.node "property" = .ok p)
      (hname : p.1.identifierName = .ok name) (ht : Reads .value scope c.1 n t m)
      (hs : (propertySymbol name).run m = .ok (s, n')) :
      Reads .value scope e n (.plain (.member s) [t]) n'
  | parenthesized {scope e c n t n'} (htype : e.type = "ParenthesizedExpression")
      (hc : e.node "expression" = .ok c) (ht : Reads .value scope c.1 n t n') :
      Reads .value scope e n t n'
  | template {scope e cs n ts n' R start texts} (htype : e.type = "TemplateLiteral")
      (hcs : e.list "expressions" = .ok cs) (hts : ReadsAll R (cs.map (.value scope)) n ts n')
      (hR : ∀ {role scope e n t n'}, R role scope e n t n' → Reads role scope e n t n') :
      Reads .value scope e n (chain (.plain (.string start) []) (ts.zip texts)) n'

/-! ## Readings follow the table -/

variable {scope : Scope} {e : Element} {n m n' : Names} {t : Tree Unit} {es : List Element}
  {c : e.Child} {ts : List (Tree Unit)}

theorem reads_of_arranges (h : Arranges role scope e n k items m)
    (hts : ReadsAll Reads items m ts n') : Reads role scope e n (.plain k ts) n' := .node h hts id

theorem readsAll_mapM {α : Type} {f : α → Reading (Tree Unit)} {i : α → Item}
    (h : ∀ {a n t n'}, (f a).run n = .ok (t, n') → (i a).ReadBy Reads n t n') :
    ∀ {as : List α} {n ts n'}, (as.mapM f).run n = .ok (ts, n') →
      ReadsAll Reads (as.map i) n ts n'
  | [], n, ts, n', hrun => by
    cases hrun
    exact .nil
  | a :: as, n, ts, n', hrun => by
    simp only [mapM_cons, run_bind_eq_ok, run_pure_eq_ok] at hrun
    obtain ⟨t, m, ht, ts, _, hts, rfl, rfl⟩ := hrun
    exact .cons (h ht) (readsAll_mapM h hts)

theorem literal_cases (h : e.literal = .ok k) :
    k.isLiteral ∨ ∃ source, k = .regExp source ∧ source.toList.head? = some '/' := by
  unfold literal at h
  split at h
  · left
    unfold plainLiteral at h
    repeat' split at h
    all_goals cases h
    all_goals rfl
  · split at h
    · cases h
    · cases h
      exact .inr ⟨_, rfl, by simp [ToString.toString]⟩

section

variable {sub : e.Child → Reading (Tree Unit)}
  (hsub : ∀ {c n t n'}, (sub c).run n = .ok (t, n') → Reads .value scope c.1 n t n')

include hsub

theorem reads_target (h : (e.target sub c).run n = .ok (t, n')) :
    Reads .value scope c.1 n t n' := by
  unfold target at h
  split at h
  all_goals first | exact hsub h | cases h

theorem reads_property {p : e.Child} (h : (e.property sub p).run n = .ok (t, n')) :
    Reads .property scope p.1 n t n' := by
  simp only [property, run_bind_eq_ok, run_lift_eq_ok, run_pure_eq_ok] at h
  obtain ⟨_, _, ⟨hplain, rfl⟩, c, _, ⟨hc, rfl⟩, name, _, ⟨hname, rfl⟩, s, m, hs, v, _, ⟨hv, rfl⟩,
    value, _, hvalue, rfl, rfl⟩ := h
  have htype : p.1.type = "Property" := by
    by_contra hne
    rw [expectPlainProperty, if_pos hne] at hplain
    cases hplain
  exact reads_of_arranges (.property htype hc hname hs hv) (.cons (hsub hvalue) .nil)

theorem reads_element {c : Option e.Child} (h : (e.element sub c).run n = .ok (t, n')) :
    (Item.optional .undefined (.value scope) c).ReadBy Reads n t n' := by
  cases c with
  | none => exact run_pure_eq_ok.mp h
  | some c => exact hsub h

theorem reads_member (htype : e.type = "MemberExpression")
    (h : (e.member sub).run n = .ok (t, n')) : Reads .value scope e n t n' := by
  simp only [member, run_unless_eq_ok, run_bind_eq_ok, run_lift_eq_ok] at h
  obtain ⟨-, c, _, ⟨hc, rfl⟩, -, value, m, hvalue, p, _, ⟨hp, rfl⟩, h⟩ := h
  split at h
  · simp only [run_bind_eq_ok, run_pure_eq_ok] at h
    obtain ⟨index, _, hindex, rfl, rfl⟩ := h
    exact reads_of_arranges (.index htype hc hp) (.cons (hsub hvalue) (.cons (hsub hindex) .nil))
  · simp only [run_bind_eq_ok, run_lift_eq_ok, run_pure_eq_ok] at h
    obtain ⟨name, _, ⟨hname, rfl⟩, s, _, hs, rfl, rfl⟩ := h
    exact .member htype hc hp hname (hsub hvalue) hs

theorem reads_call (hk : ∀ {c cs}, e.node "callee" = .ok c → e.list "arguments" = .ok cs →
      Arranges .value scope e n k (.value scope c :: cs.map (.value scope)) n)
    (h : (e.call sub k).run n = .ok (t, n')) : Reads .value scope e n t n' := by
  simp only [call, run_unless_eq_ok, run_bind_eq_ok, run_lift_eq_ok, run_pure_eq_ok] at h
  obtain ⟨-, c, _, ⟨hc, rfl⟩, callee, m, hcallee, cs, _, ⟨hcs, rfl⟩, arguments, _, harguments, rfl,
    rfl⟩ := h
  exact reads_of_arranges (hk hc hcs) (.cons (hsub hcallee) (readsAll_mapM hsub harguments))

theorem reads_unary (htype : e.type = "UnaryExpression") (h : (e.unary sub).run n = .ok (t, n')) :
    Reads .value scope e n t n' := by
  simp only [unary, run_bind_eq_ok, run_lift_eq_ok] at h
  obtain ⟨operator, _, ⟨-, rfl⟩, h⟩ := h
  split at h
  · simp only [run_bind_eq_ok, run_lift_eq_ok, run_pure_eq_ok] at h
    obtain ⟨c, _, ⟨hc, rfl⟩, value, _, hvalue, rfl, rfl⟩ := h
    exact reads_of_arranges (.unary (.inl htype) hc) (.cons (hsub hvalue) .nil)
  · cases h

theorem reads_update (htype : e.type = "UpdateExpression")
    (h : (e.update sub).run n = .ok (t, n')) :
    Reads .value scope e n t n' := by
  simp only [update, run_bind_eq_ok, run_lift_eq_ok] at h
  obtain ⟨operator, _, ⟨-, rfl⟩, h⟩ := h
  split at h
  · simp only [run_bind_eq_ok, run_lift_eq_ok, run_pure_eq_ok] at h
    obtain ⟨c, _, ⟨hc, rfl⟩, value, _, hvalue, rfl, rfl⟩ := h
    exact reads_of_arranges (.unary (.inr htype) hc) (.cons (reads_target hsub hvalue) .nil)
  · cases h

theorem reads_binary (htype : e.type = "BinaryExpression" ∨ e.type = "LogicalExpression")
    (h : (e.binary scope sub).run n = .ok (t, n')) : Reads .value scope e n t n' := by
  simp only [binary, run_bind_eq_ok, run_lift_eq_ok] at h
  obtain ⟨operator, _, ⟨-, rfl⟩, a, _, ⟨ha, rfl⟩, left, _, hleft, b, _, ⟨hb, rfl⟩, right, _, hright,
    h⟩ := h
  split at h
  · obtain ⟨rfl, rfl⟩ := run_pure_eq_ok.mp h
    exact reads_of_arranges (.power htype ha hb)
      (.cons ⟨rfl, rfl⟩ (.cons (hsub hleft) (.cons (hsub hright) .nil)))
  · split at h
    · obtain ⟨rfl, rfl⟩ := run_pure_eq_ok.mp h
      exact reads_of_arranges (.binary htype ha hb) (.cons (hsub hleft) (.cons (hsub hright) .nil))
    · cases h

theorem reads_assign (htype : e.type = "AssignmentExpression")
    (h : (e.assign sub).run n = .ok (t, n')) : Reads .value scope e n t n' := by
  simp only [assign, run_bind_eq_ok, run_lift_eq_ok] at h
  obtain ⟨operator, _, ⟨-, rfl⟩, h⟩ := h
  split at h
  · simp only [run_bind_eq_ok, run_lift_eq_ok, run_pure_eq_ok] at h
    obtain ⟨a, _, ⟨ha, rfl⟩, left, _, hleft, b, _, ⟨hb, rfl⟩, right, _, hright, rfl, rfl⟩ := h
    exact reads_of_arranges (.assign htype ha hb)
      (.cons (reads_target hsub hleft) (.cons (hsub hright) .nil))
  · cases h

theorem readsAll_template {start : Tree Unit} : ∀ {cs ds : List e.Child} {n t n'},
    cs.length = ds.length → ((cs.zip ds).foldlM (e.templatePart sub) start).run n = .ok (t, n') →
      ∃ ts texts, ReadsAll Reads (cs.map (.value scope)) n ts n' ∧ t = chain start (ts.zip texts)
  | [], _, n, t, n', _, h => by
    cases h
    exact ⟨[], [], .nil, rfl⟩
  | c :: cs, d :: ds, n, t, n', hlength, h => by
    simp only [zip_cons_cons, foldlM_cons, templatePart, run_bind_eq_ok, run_lift_eq_ok,
      run_pure_eq_ok] at h
    obtain ⟨_, _, ⟨value, m, hvalue, text, _, ⟨-, rfl⟩, rfl, rfl⟩, h⟩ := h
    obtain ⟨ts, texts, hts, rfl⟩ := readsAll_template (Nat.succ.inj hlength) h
    exact ⟨value :: ts, text :: texts, .cons (hsub hvalue) hts, rfl⟩

theorem reads_template (htype : e.type = "TemplateLiteral")
    (h : (e.template sub).run n = .ok (t, n')) : Reads .value scope e n t n' := by
  simp only [template, run_bind_eq_ok, run_lift_eq_ok, run_unless_eq_ok] at h
  obtain ⟨quasis, _, ⟨-, rfl⟩, cs, _, ⟨hcs, rfl⟩, hlength, h⟩ := h
  split at h
  · cases h
  · simp only [run_bind_eq_ok, run_lift_eq_ok] at h
    obtain ⟨text, _, ⟨-, rfl⟩, h⟩ := h
    obtain ⟨ts, texts, hts, rfl⟩ := readsAll_template hsub
      (Nat.succ.inj (not_not.mp hlength)).symm h
    exact .template htype hcs hts id

theorem reads_expressionFrom (h : (e.expressionFrom scope sub).run n = .ok (t, n')) :
    Reads .value scope e n t n' := by
  unfold expressionFrom at h
  split at h
  all_goals rename_i htype
  all_goals try simp only [run_bind_eq_ok, run_lift_eq_ok, run_pure_eq_ok] at h
  · obtain ⟨name, _, ⟨hname, rfl⟩, s, _, hs, rfl, rfl⟩ := h
    exact reads_of_arranges (.identifier htype hname hs) .nil
  · obtain ⟨k, _, ⟨hk, rfl⟩, rfl, rfl⟩ := h
    rcases literal_cases hk with hk | ⟨source, rfl, hslash⟩
    · exact reads_of_arranges (.literal htype hk) .nil
    · exact reads_of_arranges (.regExp htype hslash) .nil
  · obtain ⟨rfl, rfl⟩ := h
    exact reads_of_arranges (.this htype) .nil
  · obtain ⟨c, _, ⟨hc, rfl⟩, h⟩ := h
    exact .parenthesized htype hc (hsub h)
  · obtain ⟨cs, _, ⟨hcs, rfl⟩, ts, _, hts, rfl, rfl⟩ := h
    exact reads_of_arranges (.array htype hcs) (readsAll_mapM (reads_element hsub) hts)
  · obtain ⟨cs, _, ⟨hcs, rfl⟩, ts, _, hts, rfl, rfl⟩ := h
    exact reads_of_arranges (.object htype hcs) (readsAll_mapM (reads_property hsub) hts)
  · obtain ⟨a, _, ⟨ha, rfl⟩, test, _, htest, b, _, ⟨hb, rfl⟩, whenTrue, _, htrue, c, _, ⟨hc, rfl⟩,
      whenFalse, _, hfalse, rfl, rfl⟩ := h
    exact reads_of_arranges (.conditional htype ha hb hc)
      (.cons (hsub htest) (.cons (hsub htrue) (.cons (hsub hfalse) .nil)))
  · exact reads_member hsub htype h
  · exact reads_call hsub (.call htype) h
  · exact reads_call hsub (.new htype) h
  · obtain ⟨cs, _, ⟨hcs, rfl⟩, ts, _, hts, rfl, rfl⟩ := h
    exact reads_of_arranges (.sequence htype hcs) (readsAll_mapM hsub hts)
  · exact reads_unary hsub htype h
  · exact reads_update hsub htype h
  · exact reads_binary hsub (.inl htype) h
  · exact reads_binary hsub (.inr htype) h
  · exact reads_assign hsub htype h
  · exact reads_template hsub htype h
  · cases h

end

theorem reads_expression (scope : Scope) (e : Element) {n n' : Names} {t : Tree Unit}
    (h : (e.expression scope).run n = .ok (t, n')) : Reads .value scope e n t n' := by
  rw [expression] at h
  exact reads_expressionFrom (fun {c n t n'} => reads_expression scope c.1) h
termination_by e.size
decreasing_by exact c.2

/-! ## Statements -/

theorem reads_expressionOr {missing : Kind} {name : String}
    (h : (e.expressionOr scope missing name).run n = .ok (t, n')) :
    ∃ c, e.optional name = .ok c ∧
      (Item.optional missing (.value scope) c).ReadBy Reads n t n' := by
  simp only [expressionOr, run_bind_eq_ok, run_lift_eq_ok] at h
  obtain ⟨c, _, ⟨hc, rfl⟩, h⟩ := h
  refine ⟨c, hc, ?_⟩
  cases c with
  | none => exact run_pure_eq_ok.mp h
  | some c => exact reads_expression scope c.1 h

theorem reads_declarator (h : (e.declarator scope).run n = .ok (t, n')) :
    Reads .declarator scope e n t n' := by
  simp only [declarator, run_bind_eq_ok, run_lift_eq_ok, run_pure_eq_ok] at h
  obtain ⟨c, _, ⟨hc, rfl⟩, name, _, ⟨hname, rfl⟩, s, m, hs, value, _, hvalue, rfl, rfl⟩ := h
  obtain ⟨v, hv, hvalue⟩ := reads_expressionOr hvalue
  exact reads_of_arranges (.declarator hc hname hs hv) (.cons hvalue .nil)

theorem reads_varStatement (hrole : role = .statement ∨ role = .declaration)
    (htype : e.type = "VariableDeclaration") (h : (e.varStatement scope).run n = .ok (t, n')) :
    Reads role scope e n t n' := by
  simp only [varStatement, run_bind_eq_ok, run_lift_eq_ok, run_pure_eq_ok] at h
  obtain ⟨_, _, ⟨-, rfl⟩, ds, _, ⟨hds, rfl⟩, ts, _, hts, rfl, rfl⟩ := h
  exact reads_of_arranges (.varStatement hrole htype hds) (readsAll_mapM reads_declarator hts)

theorem reads_loopVariable (htype : e.type = "VariableDeclaration")
    (h : (e.loopVariable scope).run n = .ok (t, n')) : Reads .loopVariable scope e n t n' := by
  simp only [loopVariable, run_bind_eq_ok, run_lift_eq_ok] at h
  obtain ⟨_, _, ⟨-, rfl⟩, ds, _, ⟨hds, rfl⟩, h⟩ := h
  split at h
  · simp only [run_unless_eq_ok, run_bind_eq_ok, run_lift_eq_ok, run_pure_eq_ok] at h
    obtain ⟨init, _, ⟨hinit, rfl⟩, hnone, c, _, ⟨hc, rfl⟩, name, _, ⟨hname, rfl⟩, s, _, hs, rfl,
      rfl⟩ := h
    rw [Option.not_isSome_iff_eq_none.mp hnone] at hinit
    exact reads_of_arranges (.loopVariable htype hds hinit hc hname hs) (.cons ⟨rfl, rfl⟩ .nil)
  · cases h

theorem Reads.block (h : Reads .statement scope e n t n') (htype : e.type = "BlockStatement") :
    Reads .block scope e n t n' := by
  cases h with
  | node h hts hR =>
    cases h
    case block hcs => exact .node (.block (.inr rfl) htype hcs) hts hR
    all_goals simp_all

theorem readsAll_made (ts : List (Tree Unit)) : ReadsAll Reads (ts.map .made) n ts n := by
  induction ts with
  | nil => exact .nil
  | cons t ts ih => exact .cons ⟨rfl, rfl⟩ ih

section

variable {sub : Scope → e.Child → Reading (Tree Unit)}
  (hsub : ∀ {scope c n t n'}, (sub scope c).run n = .ok (t, n') → Reads .statement scope c.1 n t n')

theorem reads_optionalPart {part : e.Child → Reading (Tree Unit)} (item : e.Child → Item)
    {name : String}
    (hpart : ∀ {c n t n'}, (part c).run n = .ok (t, n') → (item c).ReadBy Reads n t n')
    (h : (e.optionalPart part name).run n = .ok (t, n')) :
    ∃ c, e.optional name = .ok c ∧ (Item.optional .empty item c).ReadBy Reads n t n' := by
  simp only [optionalPart, run_bind_eq_ok, run_lift_eq_ok] at h
  obtain ⟨c, _, ⟨hc, rfl⟩, h⟩ := h
  refine ⟨c, hc, ?_⟩
  cases c with
  | none => exact run_pure_eq_ok.mp h
  | some c => exact hpart h

include hsub

theorem reads_blockPart (h : (e.blockPart scope sub c).run n = .ok (t, n')) :
    c.1.type = "BlockStatement" ∧ Reads .block scope c.1 n t n' := by
  simp only [blockPart, run_unless_eq_ok] at h
  exact ⟨not_not.mp h.1, (hsub h.2).block (not_not.mp h.1)⟩

theorem reads_forLoop (htype : e.type = "ForStatement")
    (h : (e.forLoop scope sub).run n = .ok (t, n')) : Reads .statement scope e n t n' := by
  simp only [forLoop, run_bind_eq_ok, run_lift_eq_ok] at h
  obtain ⟨i, _, ⟨hi, rfl⟩, h⟩ := h
  -- What is read after the first clause.
  have hrest : ∀ {setup m},
      (Item.optional .empty (.valueOr .declaration scope) i).ReadBy Reads n setup m →
      ((do
        let test ← e.expressionOr scope .empty "test"
        let update ← e.expressionOr scope .empty "update"
        let body ← sub scope (← e.node "body")
        return Tree.plain .forLoop [setup, test, update, body] : Reading (Tree Unit)).run m =
          .ok (t, n')) → Reads .statement scope e n t n' := by
    intro setup m hsetup h
    simp only [run_bind_eq_ok, run_lift_eq_ok, run_pure_eq_ok] at h
    obtain ⟨test, _, htest, update, _, hupdate, b, _, ⟨hb, rfl⟩, body, _, hbody, rfl, rfl⟩ := h
    obtain ⟨_, ht, htest⟩ := reads_expressionOr htest
    obtain ⟨_, hu, hupdate⟩ := reads_expressionOr hupdate
    exact reads_of_arranges (.forLoop htype hi ht hu hb)
      (.cons hsetup (.cons htest (.cons hupdate (.cons (hsub hbody) .nil))))
  cases i with
  | none =>
    obtain ⟨setup, m, hsetup, h⟩ := run_bind_eq_ok.mp h
    exact hrest (run_pure_eq_ok.mp hsetup) h
  | some c =>
    simp only at h
    split at h
    · rename_i hvar
      obtain ⟨setup, m, hsetup, h⟩ := run_bind_eq_ok.mp h
      refine hrest ?_ h
      rw [Item.optional, Item.valueOr, if_pos hvar]
      exact reads_varStatement (.inr rfl) hvar hsetup
    · rename_i hvar
      obtain ⟨setup, m, hsetup, h⟩ := run_bind_eq_ok.mp h
      refine hrest ?_ h
      rw [Item.optional, Item.valueOr, if_neg hvar]
      exact reads_expression scope c.1 hsetup

theorem reads_forIn (htype : e.type = "ForInStatement")
    (h : (e.forIn scope sub).run n = .ok (t, n')) : Reads .statement scope e n t n' := by
  simp only [forIn, run_bind_eq_ok, run_lift_eq_ok] at h
  obtain ⟨l, _, ⟨hl, rfl⟩, h⟩ := h
  -- The head of the loop first.
  obtain ⟨setup, m, hsetup, h⟩ : ∃ setup m,
      (Item.valueOr .loopVariable scope l).ReadBy Reads n setup m ∧
      ((do
        let value ← (← e.node "right").1.expression scope
        let body ← sub scope (← e.node "body")
        return Tree.plain .forIn [setup, value, body] : Reading (Tree Unit)).run m =
          .ok (t, n')) := by
    split at h
    · rename_i hvar
      obtain ⟨setup, m, hsetup, h⟩ := run_bind_eq_ok.mp h
      refine ⟨setup, m, ?_, h⟩
      rw [Item.valueOr, if_pos hvar]
      exact reads_loopVariable hvar hsetup
    · rename_i hvar
      obtain ⟨setup, m, hsetup, h⟩ := run_bind_eq_ok.mp h
      refine ⟨setup, m, ?_, h⟩
      rw [Item.valueOr, if_neg hvar]
      exact reads_target (fun h => reads_expression scope _ h) hsetup
  simp only [run_bind_eq_ok, run_lift_eq_ok, run_pure_eq_ok] at h
  obtain ⟨r, _, ⟨hr, rfl⟩, value, _, hvalue, b, _, ⟨hb, rfl⟩, body, _, hbody, rfl, rfl⟩ := h
  exact reads_of_arranges (.forIn htype hl hr hb)
    (.cons hsetup (.cons (reads_expression scope _ hvalue) (.cons (hsub hbody) .nil)))

theorem reads_labelled (htype : e.type = "LabeledStatement")
    (h : (e.labelled scope sub).run n = .ok (t, n')) : Reads .statement scope e n t n' := by
  simp only [labelled, run_bind_eq_ok, run_lift_eq_ok, run_pure_eq_ok] at h
  obtain ⟨l, _, ⟨hl, rfl⟩, name, _, ⟨hname, rfl⟩, s, _, hs, b, _, ⟨hb, rfl⟩, body, _, hbody, rfl,
    rfl⟩ := h
  exact reads_of_arranges (.label htype hl hname hs hb) (.cons (hsub hbody) .nil)

theorem reads_handler (h : (e.handler scope sub c).run n = .ok (t, n')) :
    Reads .handler scope c.1 n t n' := by
  simp only [handler, run_bind_eq_ok, run_lift_eq_ok] at h
  obtain ⟨p, _, ⟨hp, rfl⟩, h⟩ := h
  split at h
  · cases h
  · simp only [run_bind_eq_ok, run_lift_eq_ok, run_pure_eq_ok] at h
    obtain ⟨name, _, ⟨hname, rfl⟩, declared, _, hs, b, _, ⟨hb, rfl⟩, body, _, hbody, rfl, rfl⟩ := h
    obtain ⟨-, hbody⟩ := reads_blockPart hsub hbody
    exact reads_of_arranges (.handler hp hname hs hb) (.cons hbody .nil)

theorem reads_function (htype : e.type = "FunctionDeclaration")
    (h : (e.function scope sub).run n = .ok (t, n')) : Reads .statement scope e n t n' := by
  simp only [function, run_unless_eq_ok, run_bind_eq_ok, run_lift_eq_ok, run_pure_eq_ok] at h
  obtain ⟨-, -, c, _, ⟨hc, rfl⟩, name, _, ⟨hname, rfl⟩, s, _, hs, ps, _, ⟨hps, rfl⟩, declared, _,
    hparameters, body, _, ⟨hbody, rfl⟩, es, _, ⟨hes, rfl⟩, names, _, ⟨hnames, rfl⟩,
      frame, _, hframe,
    block, _, hblock, rfl, rfl⟩ := h
  obtain ⟨hbodyType, hblock⟩ := reads_blockPart hsub hblock
  exact reads_of_arranges
    (.function htype hc hname hs hps hparameters hbody hes hnames hframe hbodyType)
    (.cons hblock (readsAll_made _))

theorem reads_statementFrom (h : (e.statementFrom scope sub).run n = .ok (t, n')) :
    Reads .statement scope e n t n' := by
  unfold statementFrom at h
  split at h
  all_goals rename_i htype
  all_goals try simp only [run_bind_eq_ok, run_lift_eq_ok, run_pure_eq_ok] at h
  · obtain ⟨cs, _, ⟨hcs, rfl⟩, ts, _, hts, rfl, rfl⟩ := h
    exact reads_of_arranges (.block (.inl rfl) htype hcs) (readsAll_mapM hsub hts)
  · obtain ⟨target, _, ⟨htarget, rfl⟩, rfl, rfl⟩ := h
    exact reads_of_arranges (.break htype htarget) .nil
  · obtain ⟨target, _, ⟨htarget, rfl⟩, rfl, rfl⟩ := h
    exact reads_of_arranges (.continue htype htarget) .nil
  · obtain ⟨rfl, rfl⟩ := h
    exact reads_of_arranges (.debugger htype) .nil
  · obtain ⟨rfl, rfl⟩ := h
    exact reads_of_arranges (.empty htype) .nil
  · split at h
    · rename_i hdirective
      obtain ⟨rfl, rfl⟩ := run_pure_eq_ok.mp h
      exact reads_of_arranges (.directive htype hdirective) .nil
    · rename_i hdirective
      simp only [run_bind_eq_ok, run_lift_eq_ok, run_pure_eq_ok] at h
      obtain ⟨c, _, ⟨hc, rfl⟩, value, _, hvalue, rfl, rfl⟩ := h
      exact reads_of_arranges (.expression htype hdirective hc)
        (.cons (reads_expression scope _ hvalue) .nil)
  · exact reads_forLoop hsub htype h
  · exact reads_forIn hsub htype h
  · exact reads_function hsub htype h
  · obtain ⟨a, _, ⟨ha, rfl⟩, test, _, htest, b, _, ⟨hb, rfl⟩, whenTrue, _, htrue,
      whenFalse, _, hfalse,
      rfl, rfl⟩ := h
    obtain ⟨c, hc, hfalse⟩ := reads_optionalPart (.statement scope) hsub hfalse
    exact reads_of_arranges (.ifElse htype ha hb hc)
      (.cons (reads_expression scope _ htest) (.cons (hsub htrue) (.cons hfalse .nil)))
  · exact reads_labelled hsub htype h
  · obtain ⟨value, _, hvalue, rfl, rfl⟩ := h
    obtain ⟨c, hc, hvalue⟩ := reads_expressionOr hvalue
    exact reads_of_arranges (.return htype hc) (.cons hvalue .nil)
  · obtain ⟨c, _, ⟨hc, rfl⟩, value, _, hvalue, rfl, rfl⟩ := h
    exact reads_of_arranges (.throw htype hc) (.cons (reads_expression scope _ hvalue) .nil)
  · obtain ⟨b, _, ⟨hb, rfl⟩, block, _, hblock, handler, _, hhandler, finalizer, _, hfinalizer, rfl,
      rfl⟩ := h
    obtain ⟨_, hh, hhandler⟩ := reads_optionalPart (.handler scope) (reads_handler hsub) hhandler
    obtain ⟨_, hf, hfinalizer⟩ := reads_optionalPart (.block scope)
      (fun h => (reads_blockPart hsub h).2) hfinalizer
    exact reads_of_arranges (.try htype hb hh hf)
      (.cons (reads_blockPart hsub hblock).2 (.cons hhandler (.cons hfinalizer .nil)))
  · exact reads_varStatement (.inl rfl) htype h
  · obtain ⟨a, _, ⟨ha, rfl⟩, test, _, htest, b, _, ⟨hb, rfl⟩, body, _, hbody, rfl, rfl⟩ := h
    exact reads_of_arranges (.whileLoop htype ha hb)
      (.cons (reads_expression scope _ htest) (.cons (hsub hbody) .nil))
  · obtain ⟨b, _, ⟨hb, rfl⟩, body, _, hbody, a, _, ⟨ha, rfl⟩, test, _, htest, rfl, rfl⟩ := h
    exact reads_of_arranges (.doWhile htype hb ha)
      (.cons (hsub hbody) (.cons (reads_expression scope _ htest) .nil))
  · cases h

end

theorem reads_statement (scope : Scope) (e : Element) {n n' : Names} {t : Tree Unit}
    (h : (e.statement scope).run n = .ok (t, n')) : Reads .statement scope e n t n' := by
  rw [statement] at h
  exact reads_statementFrom (fun {inner c n t n'} => reads_statement inner c.1) h
termination_by e.size
decreasing_by exact c.2

/-! ## Induction -/

def Item.Is (P : Role → Scope → Element → Tree Unit → Prop) (item : Item) (t : Tree Unit) : Prop :=
  match item with
  | read role scope e => P role scope e t
  | made t' => t' = t

theorem ReadsAll.forall₂ {R : Way} {P : Role → Scope → Element → Tree Unit → Prop}
    (h : ReadsAll R items n ts n')
    (hR : ∀ {role scope e n t n'}, R role scope e n t n' → P role scope e t) :
    List.Forall₂ (Item.Is P) items ts := by
  induction h with
  | nil => exact .nil
  | @cons item items n t m ts n' h hs ih =>
    refine .cons ?_ ih
    cases item with
    | read role scope e => exact hR h
    | made t' => exact h.1

theorem readsAll_statements {cs : List (Tree Unit)}
    (h : (es.mapM (statement scope)).run n = .ok (cs, n')) :
    ReadsAll Reads (es.map (.read .statement scope)) n cs n' :=
  readsAll_mapM (i := .read .statement scope) (fun {e _ _ _} => reads_statement scope e) h

theorem forall₂_statements {P : Element → Tree Unit → Prop} {cs : List (Tree Unit)}
    (h : (es.mapM (statement scope)).run n = .ok (cs, n'))
    (hP : ∀ {e n t n'}, Reads .statement scope e n t n' → P e t) : List.Forall₂ P es cs := by
  have hcs := (readsAll_statements h).forall₂ (P := fun role inner e t =>
    role = .statement → inner = scope → P e t) fun hreads hrole hinner => by
      subst hrole hinner
      exact hP hreads
  rw [forall₂_map_left_iff] at hcs
  exact hcs.imp fun e t h => h rfl rfl

theorem chain_induction {P : Tree Unit → Prop} {start : Tree Unit} (texts : List String)
    (hstart : P start) (htext : ∀ s, P (.plain (.string s) []))
    (hadd : ∀ a b, P a → P b → P (.plain (.binary .add) [a, b])) (hts : ∀ t ∈ ts, P t) :
    P (chain start (ts.zip texts)) := by
  induction ts generalizing start texts with
  | nil => exact hstart
  | cons t ts ih =>
    rw [forall_mem_cons] at hts
    cases texts with
    | nil => exact hstart
    | cons text texts => exact ih texts (hadd _ _ (hadd _ _ hstart hts.1) (htext text)) hts.2

theorem parameters_eq {frame : Frame} {r : List (Tree Unit) × Frame}
    (h : (parameters frame es).run n = .ok (r, n')) :
    ∀ t ∈ r.1, ∃ s, t = .plain (.variable s) [.plain .undefined []] := by
  induction es generalizing frame n r with
  | nil =>
    cases h
    simp
  | cons e es ih =>
    simp only [parameters, Reading.run_bind_eq_ok, Reading.run_pure_eq_ok] at h
    obtain ⟨name, _, -, declared, _, -, rest, _, hrest, rfl, rfl⟩ := h
    exact forall_mem_cons.mpr ⟨⟨_, rfl⟩, ih hrest⟩

end Element

end ScriptPress

import ScriptPress.Proofs.Estree.Reads

/-! # Stray jumps in documents -/

namespace ScriptPress

open List

namespace Element

variable {labels : List String}

/-! ## Parts of elements -/

def At (e : Element) (name : String) (c : Element) : Prop :=
  ∃ v, e.field? name = some v ∧
    (of v = .ok c ∨ ∃ items, v = .array items ∧ ∃ item ∈ items, of item = .ok c)

/-- The fields that hold parts of the program, in elements that can be read. The other elements are
refused with all that is in them. -/
def partNames (e : Element) : Option (List String) :=
  match e.type with
  | "BlockStatement" => some ["body"]
  | "ExpressionStatement" =>
    some (if (e.optionalText "directive").isSome then [] else ["expression"])
  | "ForStatement" => some ["init", "test", "update", "body"]
  | "ForInStatement" => some ["left", "right", "body"]
  | "FunctionDeclaration" => some ["params", "body"]
  | "IfStatement" => some ["test", "consequent", "alternate"]
  | "ReturnStatement" | "ThrowStatement" => some ["argument"]
  | "TryStatement" => some ["block", "finalizer"]
  | "WhileStatement" | "DoWhileStatement" => some ["test", "body"]
  | "ParenthesizedExpression" => some ["expression"]
  | "ArrayExpression" => some ["elements"]
  | "ConditionalExpression" => some ["test", "consequent", "alternate"]
  | "MemberExpression" => some ["object", "property"]
  | "CallExpression" | "NewExpression" => some ["callee", "arguments"]
  | "SequenceExpression" | "TemplateLiteral" => some ["expressions"]
  | "UnaryExpression" | "UpdateExpression" => some ["argument"]
  | "BinaryExpression" | "LogicalExpression" | "AssignmentExpression" => some ["left", "right"]
  | "BreakStatement" | "ContinueStatement" | "DebuggerStatement" | "EmptyStatement"
  | "LabeledStatement" | "VariableDeclaration" | "Identifier" | "Literal" | "ThisExpression"
  | "ObjectExpression" => some []
  | _ => none

/-- The second element is a part of the first one. Declarators, handlers and properties are no
parts themselves but hold some. -/
inductive Holds : Element → Element → Prop
  | part {e c : Element} {name : String} (hname : ∀ names, e.partNames = some names → name ∈ names)
    (hc : e.At name c) : Holds e c
  | declarator {e d c : Element} {name : String} (he : e.type = "VariableDeclaration")
    (hd : e.At "declarations" d) (hname : name ∈ ["id", "init"]) (hc : d.At name c) : Holds e c
  | handler {e h c : Element} {name : String} (he : e.type = "TryStatement")
    (hh : e.At "handler" h) (hname : name ∈ ["param", "body"]) (hc : h.At name c) : Holds e c
  | property {e p c : Element} {name : String} (he : e.type = "ObjectExpression")
    (hp : e.At "properties" p) (hname : p.type = "Property" → name ∈ ["key", "value"])
    (hc : p.At name c) : Holds e c

/-- The types of elements that are functions, or like functions for the jumps in them. -/
def functionTypes : List String :=
  ["FunctionDeclaration", "FunctionExpression", "ArrowFunctionExpression", "StaticBlock"]

def namesInside (e : Element) (labels : List String) : List String :=
  if e.type ∈ functionTypes then [] else labels

/-- In an element with the given labels around it stands a jump whose label does not stand around
the jump in its own function. -/
inductive Stray : List String → Element → Prop
  | jump {labels : List String} {e l : Element} {name : String}
    (he : e.type = "BreakStatement" ∨ e.type = "ContinueStatement") (hl : e.At "label" l)
    (hname : l.identifierName = .ok name) (hstray : name ∉ labels) : Stray labels e
  | label {labels : List String} {e l c : Element} {name : String}
    (he : e.type = "LabeledStatement") (hl : e.At "label" l) (hname : l.identifierName = .ok name)
    (hc : e.At "body" c) (h : Stray (name :: labels) c) : Stray labels e
  | part {labels : List String} {e c : Element} (hc : e.Holds c)
    (h : Stray (e.namesInside labels) c) : Stray labels e

/-! ## Finding a part -/

variable {e c : Element} {name : String}

theorem child_eq_ok : e.child v h = .ok a ↔ of v = .ok a.1 := by
  unfold child
  split
  · rename_i heq
    simp [heq, Subtype.ext_iff]
  · rename_i heq
    simp [heq]

theorem at_optional {o : Option e.Child} (ho : e.optional name = .ok o) :
    e.At name c ↔ ∃ a : e.Child, o = some a ∧ a.1 = c := by
  unfold optional at ho
  split at ho
  · rename_i hv
    cases ho
    simp [At, hv]
  · rename_i hv
    cases ho
    simp [At, hv, of]
  · rename_i v _ hv
    obtain ⟨a, ha, ho⟩ := exists_of_bind_eq_ok ho
    rw [child_eq_ok] at ha
    cases ho
    have harray : ∀ items, v ≠ .array items := by
      rintro items rfl
      cases ha
    simp [At, hv, ha, harray]

theorem at_node (ha : e.node name = .ok a) : e.At name c ↔ a.1 = c := by
  unfold node at ha
  obtain ⟨o, ho, ha⟩ := exists_of_bind_eq_ok ha
  rw [at_optional ho]
  split at ha
  · cases ha
    simp
  · cases ha

theorem mem_children {items : List Json} {hitems : sizeOf items ≤ e.size}
    {cs : List (Option e.Child)} (hcs : e.children items hitems = .ok cs) :
    (∃ item ∈ items, of item = .ok c) ↔ ∃ a : e.Child, some a ∈ cs ∧ a.1 = c := by
  induction items generalizing cs with
  | nil =>
    unfold children at hcs
    cases hcs
    simp
  | cons item items ih =>
    -- The entry itself, and then the rest of the list.
    unfold children at hcs
    simp only [mem_cons, or_and_right, exists_or, exists_eq_left]
    split at hcs
    · rename_i hnull
      obtain ⟨_, ho, hcs⟩ := exists_of_bind_eq_ok hcs
      obtain ⟨rest, hrest, hcs⟩ := exists_of_bind_eq_ok hcs
      cases ho
      cases hcs
      rw [ih hrest]
      cases item <;> first | cases hnull; done | simp [of]
    · obtain ⟨o, ho, hcs⟩ := exists_of_bind_eq_ok hcs
      obtain ⟨rest, hrest, hcs⟩ := exists_of_bind_eq_ok hcs
      obtain ⟨a, ha, ho⟩ := exists_of_bind_eq_ok ho
      rw [child_eq_ok] at ha
      cases ho
      cases hcs
      rw [ih hrest, ha]
      simp

theorem at_nodes {cs : List (Option e.Child)} (hcs : e.nodes name = .ok cs) :
    e.At name c ↔ ∃ a : e.Child, some a ∈ cs ∧ a.1 = c := by
  unfold nodes at hcs
  split at hcs
  · rename_i items hv
    rw [← mem_children hcs]
    simp [At, hv, of]
  · cases hcs

theorem at_list {cs : List e.Child} (hcs : e.list name = .ok cs) :
    e.At name c ↔ ∃ a ∈ cs, a.1 = c := by
  unfold list at hcs
  obtain ⟨os, hos, hcs⟩ := exists_of_bind_eq_ok hcs
  have hsome : List.Forall₂ (fun o a => o = some a) os cs := (mapM_eq_ok.mp hcs).imp fun o a h => by
    cases o <;> cases h
    rfl
  rw [← forall₂_map_right_iff, forall₂_eq_eq_eq] at hsome
  rw [at_nodes hos, hsome]
  simp

/-! ## What is read holds no stray jump -/

def Spares (labels : List String) (name : String) (e : Element) : Prop :=
  ∀ c, e.At name c → ¬Stray labels c

theorem spares_node (ha : e.node name = .ok a) (h : ¬Stray labels a.1) :
    e.Spares labels name := fun _ hc => (at_node ha).mp hc ▸ h

theorem spares_optional {o : Option e.Child} (ho : e.optional name = .ok o)
    (h : ∀ a, o = some a → ¬Stray labels a.1) : e.Spares labels name := by
  intro c hc
  obtain ⟨a, ha, rfl⟩ := (at_optional ho).mp hc
  exact h a ha

theorem spares_list {cs : List e.Child} (hcs : e.list name = .ok cs)
    (h : ∀ a ∈ cs, ¬Stray labels a.1) : e.Spares labels name := by
  intro c hc
  obtain ⟨a, ha, rfl⟩ := (at_list hcs).mp hc
  exact h a ha

theorem not_stray {type : String} {names : List String} (he : e.type = type)
    (htype : type ∉ ["BreakStatement", "ContinueStatement", "LabeledStatement",
      "VariableDeclaration", "ObjectExpression"]) (hnames : e.partNames = some names)
    (hhandler : type = "TryStatement" → ∀ h, e.At "handler" h →
      ∀ name ∈ ["param", "body"], h.Spares (e.namesInside labels) name)
    (hparts : ∀ name ∈ names, e.Spares (e.namesInside labels) name) : ¬Stray labels e := by
  subst he
  simp only [mem_cons, not_mem_nil, or_false, not_or] at htype
  intro h
  cases h with
  | jump he => exact he.elim htype.1 htype.2.1
  | label he => exact htype.2.2.1 he
  | part hc h =>
    cases hc with
    | part hname hc => exact hparts _ (hname _ hnames) _ hc h
    | declarator he => exact htype.2.2.2.1 he
    | handler he hh hname hc => exact hhandler he _ hh _ hname _ hc h
    | property he => exact htype.2.2.2.2 he

theorem not_stray_of_type {type : String} {names : List String} (he : e.type = type)
    (htype : type ∉ ["BreakStatement", "ContinueStatement", "LabeledStatement",
      "VariableDeclaration", "ObjectExpression", "TryStatement"] ∧ type ∉ functionTypes)
    (hnames : e.partNames = some names) (hparts : ∀ name ∈ names, e.Spares labels name) :
    ¬Stray labels e := by
  subst he
  have hsame : e.namesInside labels = labels := if_neg htype.2
  refine not_stray rfl (fun h => htype.1 (by simp_all)) hnames (fun he => ?_) (by rwa [hsame])
  exact absurd htype.1 (by simp [he])

theorem not_stray_name (h : e.type = "Identifier" ∨ e.type = "Literal") : ¬Stray labels e := by
  rcases h with h | h
  · exact not_stray_of_type h (by decide) (by rw [partNames, h]; rfl) (by simp)
  · exact not_stray_of_type h (by decide) (by rw [partNames, h]; rfl) (by simp)

theorem type_of_identifierName (h : e.identifierName = .ok name) : e.type = "Identifier" := by
  by_contra hne
  rw [identifierName, if_neg hne] at h
  cases h

theorem type_of_parameters {es : List Element} {frame : Frame} {n n' : Names}
    {r : List (Tree Unit) × Frame} (h : (parameters frame es).run n = .ok (r, n')) :
    ∀ e ∈ es, e.type = "Identifier" := by
  induction es generalizing frame n n' r with
  | nil => simp
  | cons e es ih =>
    simp only [parameters, Reading.run_bind_eq_ok, Reading.run_lift_eq_ok] at h
    obtain ⟨name, _, ⟨hname, -⟩, declared, _, -, rest, _, hrest, -⟩ := h
    exact forall_mem_cons.mpr ⟨type_of_identifierName hname, ih hrest⟩

theorem type_of_keyName (h : e.keyName = .ok name) :
    e.type = "Identifier" ∨ e.type = "Literal" := by
  unfold keyName at h
  split at h
  · exact .inl ‹_›
  · exact .inr ‹_›
  · cases h

theorem spares_name {text : String} (ha : e.node name = .ok a) (h : a.1.identifierName = .ok text) :
    e.Spares labels name :=
  spares_node ha (not_stray_name (.inl (type_of_identifierName h)))

def Role.Clean (labels : List String) : Role → Element → Prop
  | declarator, e => ∀ name ∈ ["id", "init"], e.Spares labels name
  | handler, e => ∀ name ∈ ["param", "body"], e.Spares labels name
  | property, e => e.type = "Property" ∧ ∀ name ∈ ["key", "value"], e.Spares labels name
  | _, e => ¬Stray labels e

def Item.Clean : Item → Prop
  | read role scope e => role.Clean (scope.labels.map Prod.fst) e
  | made _ => True

variable {role : Role} {scope : Scope} {n m n' : Names} {k : Kind} {items : List Item}
  {t : Tree Unit}

theorem not_stray_declaration (htype : e.type = "VariableDeclaration")
    (h : ∀ d, e.At "declarations" d → ∀ name ∈ ["id", "init"], d.Spares labels name) :
    ¬Stray labels e := by
  intro hstray
  cases hstray with
  | part hc hstray =>
    rw [namesInside, if_neg (by rw [htype]; decide)] at hstray
    cases hc with
    | part hname => simp [partNames, htype] at hname
    | declarator _ hd hname hc => exact h _ hd _ hname _ hc hstray
    | _ => simp_all
  | _ => simp_all

theorem not_stray_jump {target : Option SymbolId}
    (htype : e.type = "BreakStatement" ∨ e.type = "ContinueStatement")
    (h : e.jumpLabel scope = .ok target) : ¬Stray (scope.labels.map Prod.fst) e := by
  intro hstray
  have hparts : e.partNames = some [] := by
    rcases htype with htype | htype <;> rw [partNames, htype] <;> rfl
  cases hstray with
  | jump _ hl hname hstray =>
    unfold jumpLabel at h
    obtain ⟨o, ho, h⟩ := exists_of_bind_eq_ok h
    obtain ⟨l, rfl, rfl⟩ := (at_optional ho).mp hl
    obtain ⟨name, hname', h⟩ := exists_of_bind_eq_ok h
    cases hname.symm.trans hname'
    split at h
    · rename_i s hlookup
      obtain ⟨_, _, hlabels, -⟩ := lookup_eq_some_iff.mp hlookup
      exact hstray (by simp [hlabels])
    · cases h
  | part hc =>
    cases hc with
    | part hname => simp [hparts] at hname
    | _ => simp_all
  | _ => simp_all

theorem Item.clean_optional {f : e.Child → Item} {o : Option e.Child} (h : (optional k f o).Clean) :
    ∀ c, o = some c → (f c).Clean := by
  rintro c rfl
  exact h

theorem Item.clean_valueOr {c : e.Child} (h : (valueOr role scope c).Clean)
    (hrole : role = .declaration ∨ role = .loopVariable) :
    ¬Stray (scope.labels.map Prod.fst) c.1 := by
  unfold valueOr at h
  split at h
  · rcases hrole with rfl | rfl <;> exact h
  · exact h

theorem Arranges.clean (h : Arranges role scope e n k items m)
    (hitems : ∀ item ∈ items, item.Clean) :
    role.Clean (scope.labels.map Prod.fst) e := by
  cases h with
  | identifier htype | literal htype | regExp htype | this htype | debugger htype | empty htype =>
    exact not_stray_of_type htype (by decide) (by rw [partNames, htype]; rfl) (by simp)
  | array htype hcs =>
    refine not_stray_of_type htype (by decide) (by rw [partNames, htype]; rfl)
      (forall_mem_singleton.mpr fun c hc => ?_)
    obtain ⟨c', hc', rfl⟩ := (at_nodes hcs).mp hc
    exact forall_mem_map.mp hitems _ hc'
  | object htype hps =>
    rw [forall_mem_map] at hitems
    intro h
    cases h with
    | part hc h =>
      rw [namesInside, if_neg (by rw [htype]; decide)] at h
      cases hc with
      | part hname => simp [partNames, htype] at hname
      | property _ hp hname hc =>
        obtain ⟨p, hmem, rfl⟩ := (at_list hps).mp hp
        exact (hitems p hmem).2 _ (hname (hitems p hmem).1) _ hc h
      | _ => simp_all
    | _ => simp_all
  | sequence htype hcs =>
    exact not_stray_of_type htype (by decide) (by rw [partNames, htype]; rfl)
      (forall_mem_singleton.mpr (spares_list hcs fun c hc => hitems _ (mem_map_of_mem hc)))
  | block hrole htype hcs =>
    have h : ¬Stray (scope.labels.map Prod.fst) e :=
      not_stray_of_type htype (by decide) (by rw [partNames, htype]; rfl)
        (forall_mem_singleton.mpr (spares_list hcs fun c hc => hitems _ (mem_map_of_mem hc)))
    rcases hrole with rfl | rfl <;> exact h
  | conditional htype ha hb hc =>
    simp only [forall_mem_cons] at hitems
    exact not_stray_of_type htype (by decide) (by rw [partNames, htype]; rfl)
      (by simpa using ⟨spares_node ha hitems.1, spares_node hb hitems.2.1,
        spares_node hc hitems.2.2.1⟩)
  | index htype ha hb | assign htype ha hb | whileLoop htype ha hb =>
    simp only [forall_mem_cons] at hitems
    exact not_stray_of_type htype (by decide) (by rw [partNames, htype]; rfl)
      (by simpa using ⟨spares_node ha hitems.1, spares_node hb hitems.2.1⟩)
  | power htype ha hb =>
    simp only [forall_mem_cons] at hitems
    rcases htype with htype | htype <;>
      exact not_stray_of_type htype (by decide) (by rw [partNames, htype]; rfl)
        (by simpa using ⟨spares_node ha hitems.2.1, spares_node hb hitems.2.2.1⟩)
  | binary htype ha hb =>
    simp only [forall_mem_cons] at hitems
    rcases htype with htype | htype <;>
      exact not_stray_of_type htype (by decide) (by rw [partNames, htype]; rfl)
        (by simpa using ⟨spares_node ha hitems.1, spares_node hb hitems.2.1⟩)
  | unary htype ha =>
    rw [forall_mem_singleton] at hitems
    rcases htype with htype | htype <;>
      exact not_stray_of_type htype (by decide) (by rw [partNames, htype]; rfl)
        (forall_mem_singleton.mpr (spares_node ha hitems))
  | call htype hc hcs | new htype hc hcs =>
    rw [forall_mem_cons, forall_mem_map] at hitems
    exact not_stray_of_type htype (by decide) (by rw [partNames, htype]; rfl)
      (by simpa using ⟨spares_node hc hitems.1, spares_list hcs hitems.2⟩)
  | property htype hc hname hs hv =>
    rw [forall_mem_singleton] at hitems
    exact ⟨htype, by simpa using ⟨spares_node hc (not_stray_name (type_of_keyName hname)),
      spares_node hv hitems⟩⟩
  | declarator hc hname hs hv =>
    have hv := spares_optional hv (Item.clean_optional (forall_mem_singleton.mp hitems))
    simpa [Role.Clean] using ⟨spares_name hc hname, hv⟩
  | loopVariable htype hds hinit hc hname hs =>
    refine not_stray_declaration htype fun d hd => ?_
    obtain ⟨d, hmem, rfl⟩ := (at_list hds).mp hd
    rw [mem_singleton.mp hmem]
    simpa using ⟨spares_name hc hname, spares_optional hinit (by simp)⟩
  | handler hp hname hs hc =>
    rw [forall_mem_singleton] at hitems
    have hp : e.Spares (scope.labels.map Prod.fst) "param" := spares_optional hp fun a ha =>
      Option.some.inj ha ▸ not_stray_name (.inl (type_of_identifierName hname))
    simpa [Role.Clean] using ⟨hp, spares_node hc hitems⟩
  | «break» htype htarget => exact not_stray_jump (.inl htype) htarget
  | «continue» htype htarget => exact not_stray_jump (.inr htype) htarget
  | directive htype hdirective =>
    exact not_stray_of_type htype (by decide) (by rw [partNames, htype, hdirective]; rfl) (by simp)
  | expression htype hdirective hc =>
    rw [forall_mem_singleton] at hitems
    exact not_stray_of_type htype (by decide) (by rw [partNames, htype, hdirective]; rfl)
      (forall_mem_singleton.mpr (spares_node hc hitems))
  | forLoop htype hi ht hu hb =>
    simp only [forall_mem_cons] at hitems
    obtain ⟨hsetup, htest, hupdate, hbody, -⟩ := hitems
    exact not_stray_of_type htype (by decide) (by rw [partNames, htype]; rfl)
      (by simpa using ⟨spares_optional hi fun c hc =>
          Item.clean_valueOr (Item.clean_optional hsetup c hc) (.inl rfl),
        spares_optional ht (Item.clean_optional htest),
        spares_optional hu (Item.clean_optional hupdate), spares_node hb hbody⟩)
  | forIn htype hl hr hb =>
    simp only [forall_mem_cons] at hitems
    exact not_stray_of_type htype (by decide) (by rw [partNames, htype]; rfl)
      (by simpa using ⟨spares_node hl (Item.clean_valueOr hitems.1 (.inr rfl)),
        spares_node hr hitems.2.1, spares_node hb hitems.2.2.1⟩)
  | function htype hc hname hs hps hparameters hbody =>
    have hblock := hitems _ (.head _)
    have hinside : e.namesInside (scope.labels.map Prod.fst) = [] := if_pos (by rw [htype]; decide)
    refine not_stray htype (by decide) (by rw [partNames, htype]; rfl) (by simp) ?_
    rw [hinside]
    have hps : e.Spares [] "params" := spares_list hps fun p hp =>
      not_stray_name (.inl (type_of_parameters hparameters _ (mem_map_of_mem hp)))
    simpa using ⟨hps, spares_node hbody hblock⟩
  | ifElse htype ha hb hc =>
    simp only [forall_mem_cons] at hitems
    exact not_stray_of_type htype (by decide) (by rw [partNames, htype]; rfl)
      (by simpa using ⟨spares_node ha hitems.1, spares_node hb hitems.2.1,
        spares_optional hc (Item.clean_optional hitems.2.2.1)⟩)
  | label htype hl hname hs hb =>
    rw [forall_mem_singleton] at hitems
    intro h
    cases h with
    | label _ hl' hname' hc h =>
      obtain rfl := (at_node hl).mp hl'
      cases hname.symm.trans hname'
      exact spares_node hb hitems _ hc h
    | part hc h =>
      cases hc with
      | part hname => simp [partNames, htype] at hname
      | _ => simp_all
    | jump => simp_all
  | «return» htype hc =>
    exact not_stray_of_type htype (by decide) (by rw [partNames, htype]; rfl)
      (forall_mem_singleton.mpr (spares_optional hc
        (Item.clean_optional (forall_mem_singleton.mp hitems))))
  | throw htype hc =>
    rw [forall_mem_singleton] at hitems
    exact not_stray_of_type htype (by decide) (by rw [partNames, htype]; rfl)
      (forall_mem_singleton.mpr (spares_node hc hitems))
  | «try» htype hb hh hf =>
    simp only [forall_mem_cons] at hitems
    obtain ⟨hblock, hhandler, hfinalizer, -⟩ := hitems
    have hsame : e.namesInside (scope.labels.map Prod.fst) = scope.labels.map Prod.fst :=
      if_neg (by rw [htype]; decide)
    refine not_stray htype (by decide) (by rw [partNames, htype]; rfl) (fun _ h hat => ?_) ?_
    · obtain ⟨h, rfl, rfl⟩ := (at_optional hh).mp hat
      rw [hsame]
      exact hhandler
    · rw [hsame]
      simpa using ⟨spares_node hb hblock, spares_optional hf (Item.clean_optional hfinalizer)⟩
  | varStatement hrole htype hds =>
    rw [forall_mem_map] at hitems
    have h : ¬Stray (scope.labels.map Prod.fst) e := not_stray_declaration htype fun d hd => by
      obtain ⟨d, hmem, rfl⟩ := (at_list hds).mp hd
      exact hitems d hmem
    rcases hrole with rfl | rfl <;> exact h
  | doWhile htype hb ha =>
    simp only [forall_mem_cons] at hitems
    exact not_stray_of_type htype (by decide) (by rw [partNames, htype]; rfl)
      (by simpa using ⟨spares_node ha hitems.2.1, spares_node hb hitems.1⟩)

theorem ReadsAll.clean {R : Way} {ts : List (Tree Unit)} (h : ReadsAll R items n ts n')
    (hR : ∀ {role scope e n t n'}, R role scope e n t n' →
      role.Clean (scope.labels.map Prod.fst) e) : ∀ item ∈ items, item.Clean := by
  induction h with
  | nil => simp
  | @cons item _ _ _ _ _ _ h _ ih =>
    refine forall_mem_cons.mpr ⟨?_, ih⟩
    cases item with
    | read role scope e => exact hR h
    | made t => trivial

theorem Reads.clean (h : Reads role scope e n t n') : role.Clean (scope.labels.map Prod.fst) e := by
  induction h with
  | node h hts _ ih => exact h.clean (hts.clean ih)
  | member htype hc hp hname _ _ ih =>
    exact not_stray_of_type htype (by decide) (by rw [partNames, htype]; rfl)
      (by simpa using ⟨spares_node hc ih, spares_name hp hname⟩)
  | parenthesized htype hc _ ih =>
    exact not_stray_of_type htype (by decide) (by rw [partNames, htype]; rfl)
      (forall_mem_singleton.mpr (spares_node hc ih))
  | template htype hcs hts _ ih =>
    exact not_stray_of_type htype (by decide) (by rw [partNames, htype]; rfl)
      (forall_mem_singleton.mpr (spares_list hcs fun c hc =>
        hts.clean ih _ (mem_map_of_mem hc)))

theorem not_stray_of_statement (h : (e.statement scope).run n = .ok (t, n')) :
    ¬Stray (scope.labels.map Prod.fst) e :=
  (reads_statement scope e h).clean

end Element

end ScriptPress

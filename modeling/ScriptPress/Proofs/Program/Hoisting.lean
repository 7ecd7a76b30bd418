import ScriptPress.Proofs.Program.Scope

/-! # Declarations in programs from files -/

namespace ScriptPress

open List Element

namespace Frame

variable {table : Array Symbol} {frames : List Frame} {s : SymbolId}

def Bound (table : Array Symbol) (frames : List Frame) (s : SymbolId) : Prop :=
  ∃ name, nameIn table s = some name ∧ (find? frames name).isSome

theorem Bound.cons (frame : Frame) (h : Bound table frames s) :
    Bound table (frame :: frames) s := by
  obtain ⟨name, hname, hfind⟩ := h
  refine ⟨name, hname, ?_⟩
  rw [find_cons, Option.isSome_or, hfind, Bool.or_true]

theorem Binds.bound {frame : Frame} {xs : List SymbolId} (h : frame.Binds table xs) (hs : s ∈ xs)
    {name : String} (hname : nameIn table s = some name) : Bound table (frame :: frames) s := by
  refine ⟨name, hname, ?_⟩
  rw [find_cons, Option.isSome_or, (h.names name).mpr (hname ▸ mem_map_of_mem hs), Bool.true_or]

theorem Resolves.exists_nameIn (h : Resolves table frames s) :
    ∃ name, nameIn table s = some name := by
  rcases h with ⟨name, hs, -⟩ | ⟨name, hs, -⟩
  · exact ⟨name, by rw [nameIn, hs, Option.map_some]⟩
  · exact ⟨name, by rw [nameIn, hs, Option.map_some]⟩

theorem Resolves.unpinned (h : Resolves table frames s) (hs : Bound table frames s) :
    ∃ name, table[s.index]? = some ⟨name, false⟩ := by
  rcases h with ⟨name, hentry, -⟩ | ⟨name, hentry, hfind⟩
  · exact ⟨name, hentry⟩
  · obtain ⟨other, hother, hsome⟩ := hs
    rw [nameIn, hentry, Option.map_some, Option.some.injEq] at hother
    rw [← hother, hfind] at hsome
    cases hsome

end Frame

namespace Tree

variable {α : Type} {table : Array Symbol} {known : WellKnown} {frames : List Frame} {t : Tree α}

theorem Scoped.exists_nameIn {x : SymbolId} (h : Scoped table known frames t)
    (hx : x ∈ t.bindings) :
    ∃ name, nameIn table x = some name := by
  induction h with
  | identifier _ =>
    rw [bindings_eq_nil rfl (by simp)] at hx
    cases hx
  | @power frames m a b l r _ _ ihl ihr =>
    rw [bindings_node rfl, flatMap_cons, flatMap_cons, flatMap_cons,
      flatMap_nil, append_nil, mem_append, mem_append] at hx
    rcases hx with hx | hx | hx
    · cases hx
    · exact ihl hx
    · exact ihr hx
  | declaration hs _ _ | function _ hs _ _ _ =>
    rw [bindings_of_hoists rfl, mem_singleton] at hx
    exact hx ▸ hs.exists_nameIn
  | handler _ _ _ ih =>
    rw [bindings_node rfl] at hx
    obtain ⟨c, hc, hxc⟩ := mem_flatMap.mp hx
    exact ih c hc hxc
  | @neutral frames m k cs hk _ ih =>
    have hnone : k.hoists? = none := by cases k <;> first | rfl | cases hk
    obtain ⟨c, hc, hxc⟩ := mem_flatMap.mp (bindings_node hnone ▸ hx)
    exact ih c hc hxc

theorem Scoped.bound_of_binds {frame : Frame} {cs : List (Tree α)} {x : SymbolId}
    (h : Scoped table known (frame :: frames) t) (hframe : frame.Binds table (cs.flatMap bindings))
    (ht : t ∈ cs) (hx : x ∈ t.bindings) : Frame.Bound table (frame :: frames) x := by
  obtain ⟨name, hname⟩ := h.exists_nameIn hx
  exact hframe.bound (mem_flatMap.mpr ⟨t, ht, hx⟩) hname

theorem Scoped.unpinned {d : Tree α} {s : SymbolId} (h : Scoped table known frames t)
    (hshaped : t.WellShaped) (hbound : ∀ x ∈ t.bindings, Frame.Bound table frames x)
    (hd : d ∈ t.subtrees) (hs : d.kind.hoists? = some s) :
    ∃ name, table[s.index]? = some ⟨name, false⟩ := by
  induction h with
  | identifier _ =>
    rcases mem_subtrees_node.mp hd with rfl | ⟨c, hc, -⟩
    · cases hs
    · cases hc
  | @power frames m a b l r _ _ ihl ihr =>
    have hparts : ∀ c ∈ [l, r], c.WellShaped ∧ ∀ x ∈ c.bindings, Frame.Bound table frames x := by
      intro c hc
      refine ⟨hshaped.child c (.tail _ hc), fun x hx => hbound x ?_⟩
      rw [bindings_node rfl]
      exact mem_flatMap.mpr ⟨c, mem_cons_of_mem _ hc, hx⟩
    simp only [mem_subtrees_node, mem_cons, not_mem_nil, or_false, exists_eq_or_imp,
      exists_eq_left, false_and, exists_false] at hd
    rcases hd with rfl | (rfl | rfl) | hd | hd
    · cases hs
    · cases hs
    · cases hs
    · exact ihl (hparts l (by simp)).1 (hparts l (by simp)).2 hd
    · exact ihr (hparts r (by simp)).1 (hparts r (by simp)).2 hd
  | @declaration frames m y v hy _ ih =>
    rw [bindings_of_hoists rfl, forall_mem_singleton] at hbound
    rcases mem_subtrees_node.mp hd with rfl | ⟨c, hc, hdc⟩
    · cases hs
      exact hy.unpinned hbound
    · -- An initial value is an expression, in which nothing is declared.
      obtain ⟨x, hx, hv⟩ := (wellShaped_one rfl).mp hshaped
      cases hx
      obtain rfl := mem_singleton.mp hc
      refine ih hv.2 (fun x hx => ?_) hdc
      rw [(IsExpression.of_fit hv).bindings_eq] at hx
      cases hx
  | @function frames m y cs frame hy hframe hcs ih =>
    rw [bindings_of_hoists rfl, forall_mem_singleton] at hbound
    rcases mem_subtrees_node.mp hd with rfl | ⟨c, hc, hdc⟩
    · cases hs
      exact hy.unpinned hbound
    · refine ih c hc (hshaped.child c hc) (fun x hx => ?_) hdc
      exact (hcs c hc).bound_of_binds hframe hc hx
  | @handler frames m y cs name _ _ ih =>
    rw [bindings_node rfl] at hbound
    rcases mem_subtrees_node.mp hd with rfl | ⟨c, hc, hdc⟩
    · cases hs
    · refine ih c hc (hshaped.child c hc) (fun x hx => ?_) hdc
      exact (hbound x (mem_flatMap.mpr ⟨c, hc, hx⟩)).cons _
  | @neutral frames m k cs hk _ ih =>
    have hnone : k.hoists? = none := by cases k <;> first | rfl | cases hk
    rw [bindings_node hnone] at hbound
    rcases mem_subtrees_node.mp hd with rfl | ⟨c, hc, hdc⟩
    · rw [kind_node, hnone] at hs
      cases hs
    · refine ih c hc (hshaped.child c hc) (fun x hx => ?_) hdc
      exact hbound x (mem_flatMap.mpr ⟨c, hc, hx⟩)

end Tree

namespace Program

variable {files : List SourceFile} {p : Program}

theorem unpinned_ofFiles (h : ofFiles files = .ok p) (hn : n ∈ p.modules)
    (hd : d ∈ (p.store.tree n).subtrees) (hs : d.kind.hoists? = some s) :
    ∃ name, p.store.symbols[s.index]? = some ⟨name, false⟩ := by
  obtain ⟨frame, hscoped⟩ := wellScoped_ofFiles h
  have hshaped := (lowers_ofFiles h).verified.modules.shaped n hn
  have hbinds : frame.Binds p.store.symbols
      ((p.modules.map p.store.tree).flatMap Tree.bindings) := by
    rw [flatMap_map]
    exact hscoped.binds
  have htree := hscoped.trees n hn
  refine htree.unpinned hshaped (fun x hx => ?_) hd hs
  exact htree.bound_of_binds hbinds (mem_map_of_mem hn) hx

/-- Wherever statements can be read, hoisting finds the names of the declarations in the trees, in
their order and as often. So no declaration in a program from files carries a pinned symbol. -/
theorem hoisting_agrees_with_reading :
    (∀ (scope : Scope) (names names' : Names) (es : List Element) (cs : List (Tree Unit)),
      names.Sound → scope.Sound names.symbols →
      (es.mapM (statement scope)).run names = .ok (cs, names') →
      ∃ ns, hoistedAll es = .ok ns ∧
        (cs.flatMap Tree.bindings).map (nameIn names'.symbols) = ns.map some) ∧
    ∀ files p, ofFiles files = .ok p → ∀ n ∈ p.modules, ∀ d ∈ (p.store.tree n).subtrees,
      ∀ s, d.kind.hoists? = some s → ∃ name, p.store.symbols[s.index]? = some ⟨name, false⟩ := by
  refine ⟨?_, fun files p h n hn d hd s hs => unpinned_ofFiles h hn hd hs⟩
  intro scope names names' es cs hnames hscope hrun
  have hwithin := ((readsAll_statements hrun).grows (fun h => h.grows) hnames).2
  have hscope' : scope.Sound names'.symbols := fun frame hframe name s hs =>
    hwithin _ _ (hscope frame hframe name s hs)
  exact (settled_statements hrun hnames (fun _ _ hi => hi) hscope').2

def scatteredNames : SourceFile :=
  let declarations (names : List String) : Json :=
    .element "VariableDeclaration" [("kind", .string "var"), ("declarations", .array
      (names.map fun name => .element "VariableDeclarator" [("id", .name name)]))]
  .ofStatements
    [.element "TryStatement"
      [("block", .block [.element "ForInStatement" [("left", declarations ["i"]),
        ("right", .name "o"), ("body", declarations ["i", "j"])]]),
      ("handler", .element "CatchClause" [("param", .name "e"), ("body", .block
        [declarations ["e"], .element "FunctionDeclaration" [("id", .name "f"),
          ("params", .array [.name "x"]), ("body", .block [declarations ["k"]])]])])],
    .element "IfStatement" [("test", .name "o"),
      ("consequent", .element "LabeledStatement" [("label", .name "l"),
        ("body", .element "DoWhileStatement" [("body", declarations ["j"]), ("test", .name "o")])]),
      ("alternate", .element "ForStatement" [("init", declarations ["k"]),
        ("body", .element "EmptyStatement" [])])]]

theorem hoisting_agrees_with_reading_scatteredNames :
    (∃ es cs names', scatteredNames.statements = .ok es ∧
      (es.mapM (statement ⟨⟨⟨0⟩, ⟨1⟩⟩, [[("e", ⟨2⟩)]], []⟩)).run
        ⟨#[⟨"Math", true⟩, ⟨"pow", true⟩, ⟨"e", false⟩], [("Math", ⟨0⟩)], [("pow", ⟨1⟩)]⟩ =
          .ok (cs, names') ∧ hoistedAll es = .ok ["i", "i", "j", "e", "f", "j", "k"] ∧
      (cs.flatMap Tree.bindings).map (nameIn names'.symbols) =
        (["i", "i", "j", "e", "f", "j", "k"]).map some) ∧
    ∃ p, ofFiles [scatteredNames] = .ok p ∧ ∃ n ∈ p.modules, ∃ d ∈ (p.store.tree n).subtrees,
      d.kind.hoists? = some ⟨2⟩ ∧ ∃ name, p.store.symbols[2]? = some ⟨name, false⟩ := by
  have hsound : Names.Sound
      ⟨#[⟨"Math", true⟩, ⟨"pow", true⟩, ⟨"e", false⟩], [("Math", ⟨0⟩)], [("pow", ⟨1⟩)]⟩ := by
    intro name s hs
    rw [Frame.lookup_singleton] at hs
    split at hs
    · rename_i heq
      cases hs
      rw [heq]
      rfl
    · cases hs
  have hscope : Scope.Sound #[⟨"Math", true⟩, ⟨"pow", true⟩, ⟨"e", false⟩]
      ⟨⟨⟨0⟩, ⟨1⟩⟩, [[("e", ⟨2⟩)]], []⟩ :=
    forall_mem_singleton.mpr (Frame.Binds.handler rfl).sound
  constructor
  · obtain ⟨⟨es, cs, names'⟩, hr, hnames⟩ := exists_of_any (do
        let es ← scatteredNames.statements
        let r ← (es.mapM (statement ⟨⟨⟨0⟩, ⟨1⟩⟩, [[("e", ⟨2⟩)]], []⟩)).run
          ⟨#[⟨"Math", true⟩, ⟨"pow", true⟩, ⟨"e", false⟩], [("Math", ⟨0⟩)], [("pow", ⟨1⟩)]⟩
        return (es, r))
      (fun r => (hoistedAll r.1).toOption = some ["i", "i", "j", "e", "f", "j", "k"])
      (by decide +kernel)
    obtain ⟨es', hes, hr⟩ := exists_of_bind_eq_ok hr
    obtain ⟨r, hrun, hr⟩ := exists_of_bind_eq_ok hr
    cases hr
    obtain ⟨ns, hns, hbindings⟩ :=
      hoisting_agrees_with_reading.1 _ _ _ _ _ hsound hscope hrun
    rw [hns, Except.toOption, Option.some.injEq] at hnames
    subst hnames
    exact ⟨es, cs, names', hes, hrun, hns, hbindings⟩
  · obtain ⟨p, hp, n, hn, d, hd, hs⟩ := exists_of_any (ofFiles [scatteredNames])
      (fun p => ∃ n ∈ p.modules, ∃ d ∈ (p.store.tree n).subtrees, d.kind.hoists? = some ⟨2⟩)
      (by decide +kernel)
    exact ⟨p, hp, n, hn, d, hd, hs, hoisting_agrees_with_reading.2 _ p hp n hn d hd _ hs⟩

end Program

end ScriptPress

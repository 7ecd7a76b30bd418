import ScriptPress.Proofs.Estree.Scope
import ScriptPress.Proofs.Program.Lowering

/-! # Names in programs from files -/

namespace ScriptPress

open List Tree

open Reading (Settles settles_lift settles_globalSymbol settles_propertySymbol grows_of_settles)

namespace Json

def element (type : String) (fields : List (String × Json)) : Json :=
  .object (("type", .string type) :: fields)

def name (name : String) : Json := element "Identifier" [("name", .string name)]

def block (statements : List Json) : Json :=
  element "BlockStatement" [("body", .array statements)]

end Json

def SourceFile.ofStatements (statements : List Json) : SourceFile :=
  ⟨"main", false, .element "Program" [("body", .array statements)]⟩

theorem exists_of_any {ε α : Type} (x : Except ε α) (P : α → Prop) [DecidablePred P]
    (h : x.toOption.any (fun a => decide (P a))) : ∃ a, x = .ok a ∧ P a := by
  cases x with
  | error e => cases h
  | ok a => exact ⟨a, rfl, of_decide_eq_true h⟩

namespace Reading

variable {table : Array Symbol}

def HasGlobal (table : Array Symbol) (name : String) : Prop :=
  ∃ s : SymbolId, table[s.index]? = some ⟨name, true⟩

theorem settles_globals (names : List String) :
    Settles table (names.forM fun name => discard (globalSymbol name))
      fun _ => ∀ name ∈ names, HasGlobal table name := by
  induction names with
  | nil => exact .pure (by simp)
  | cons name names ih =>
    have hfirst : Settles table (discard (globalSymbol name)) fun _ => HasGlobal table name :=
      (settles_globalSymbol name).bind fun s => .pure fun hs => ⟨s, hs⟩
    refine hfirst.bind fun _ => ih.mono fun _ hnames hname => ?_
    exact forall_mem_cons.mpr ⟨hname, hnames⟩

structure Gathers (table : Array Symbol) (frame : Frame) (opened : List Opened)
    (nss : List (List String)) (frame' : Frame) : Prop where
  code : Forall₂ (fun o ns => Element.hoistedAll o.2 = .ok ns)
    (opened.filter (!·.1.declaration)) nss
  grows : Frame.Grows table frame nss.flatten frame'
  provided : ∀ o ∈ opened, o.1.declaration → ∀ ns, Element.hoistedAll o.2 = .ok ns →
    ∀ name ∈ ns, HasGlobal table name

theorem settles_topLevel (opened : List Opened) (frame : Frame) :
    Settles table (topLevel frame opened) fun frame' =>
      ∃ nss, Gathers table frame opened nss frame' := by
  induction opened generalizing frame with
  | nil => exact .pure ⟨[], .nil, .refl table frame, by simp⟩
  | cons o opened ih =>
    obtain ⟨file, statements⟩ := o
    unfold topLevel
    refine (settles_lift _).bind fun names => ?_
    cases hfile : file.declaration with
    | true =>
      refine (settles_globals names).bind fun _ => (ih frame).mono ?_
      rintro frame' ⟨nss, hcode, hgrows, hprovided⟩ hglobals hnames
      refine ⟨nss, ?_, hgrows, forall_mem_cons.mpr ⟨fun _ ns hns => ?_, hprovided⟩⟩
      · rwa [filter_cons_of_neg (by simp [hfile])]
      · cases hnames.symm.trans hns
        exact hglobals
    | false =>
      refine (Frame.settles_declareAll names frame).bind fun inner => (ih inner).mono ?_
      rintro frame' ⟨nss, hcode, hgrows, hprovided⟩ hinner hnames
      refine ⟨names :: nss, ?_, hinner.trans hgrows, forall_mem_cons.mpr ⟨fun h => ?_, hprovided⟩⟩
      · rw [filter_cons_of_pos (by simp [hfile])]
        exact .cons hnames hcode
      · rw [hfile] at h
        cases h

variable {scope : Scope} {os : List Opened} {n n' : Names} {ts : List (Tree Unit)}

theorem ReadsFiles.grows (h : ReadsFiles scope os n ts n') : n.Grows n' := by
  induction h with
  | nil => exact .refl _
  | cons h _ ih => exact ((Element.readsAll_statements h).grows fun h => h.grows).trans ih

theorem ReadsFiles.settled {nss : List (List String)} (h : ReadsFiles scope os n ts n')
    (hn : n.Sound) (htable : Symbol.Within n'.symbols table) (hscope : scope.Sound table)
    (hnss : Forall₂ (fun o ns => Element.hoistedAll o.2 = .ok ns) os nss) :
    (∀ t ∈ ts, t.Scoped table scope.known scope.frames) ∧
      (ts.flatMap bindings).map (nameIn table) = nss.flatten.map some := by
  induction h generalizing nss with
  | nil =>
    cases hnss
    exact ⟨by simp, rfl⟩
  | cons h hs ih =>
    obtain _ | ⟨hns, hnss⟩ := hnss
    obtain ⟨hm, -⟩ := (Element.readsAll_statements h).grows (fun h => h.grows) hn
    have hwithin := (hs.grows hm).2.trans htable
    obtain ⟨hscoped, names, hnames, hbindings⟩ := Element.settled_statements h hn hwithin hscope
    obtain ⟨hrest, hothers⟩ := ih hm htable hnss
    cases hns.symm.trans hnames
    refine ⟨forall_mem_cons.mpr ⟨.neutral rfl hscoped, hrest⟩, ?_⟩
    rw [flatMap_cons, plain, bindings_node rfl, map_append, hbindings, hothers,
      flatten_cons, map_append]

theorem settles_wellKnown : Settles table wellKnown fun known =>
      table[known.math.index]? = some ⟨"Math", true⟩ := by
  refine (settles_globalSymbol "Math").bind fun math => ?_
  exact (settles_propertySymbol "pow").bind fun pow => .pure fun _ hmath => hmath

end Reading

namespace Program

variable {files : List SourceFile} {p : Program}

structure WellScoped (p : Program) (frame : Frame) : Prop where
  binds : frame.Binds p.store.symbols (p.modules.flatMap fun n => (p.store.tree n).bindings)
  trees : ∀ n ∈ p.modules, (p.store.tree n).Scoped p.store.symbols p.known [frame]
  math : p.store.symbols[p.known.math.index]? = some ⟨"Math", true⟩

theorem Made.sound {opened : List Opened} {frame : Frame} {names names' names'' : Names}
    (h : Made files p opened frame names names' names'') : names.Sound ∧ names.Grows names' := by
  have hempty : Names.Sound ⟨#[], [], []⟩ := by
    intro name s hs
    cases hs
  exact ⟨(grows_of_settles (fun _ => Reading.settles_wellKnown) h.known hempty).1,
    grows_of_settles (fun _ => Reading.settles_topLevel opened []) h.topLevel⟩

theorem gathers_ofFiles (h : ofFiles files = .ok p) :
    ∃ opened nss frame, Forall₂ SourceFile.Opens files opened ∧
      Reading.Gathers p.store.symbols [] opened nss frame ∧ p.WellScoped frame := by
  obtain ⟨opened, frame, names, names', names'', hmade⟩ := ofFiles_eq_ok h
  have hsymbols : names''.symbols = p.store.symbols := hmade.grown.symbols.symm
  have htable : Symbol.Within names''.symbols p.store.symbols := hsymbols ▸ fun _ _ hi => hi
  obtain ⟨hnames, hgrows⟩ := hmade.sound
  obtain ⟨hnames', hwithin⟩ := hgrows hnames
  have hwithin' := (hmade.read.grows hnames').2.trans htable
  have hmath := Reading.settles_wellKnown.result hmade.known (by intro name s hs; cases hs)
    (hwithin.trans hwithin')
  obtain ⟨nss, hgathers⟩ :=
    (Reading.settles_topLevel opened []).result hmade.topLevel hnames hwithin'
  have hsound : frame.Sound p.store.symbols := hgathers.grows.sound (by intro name s hs; cases hs)
  obtain ⟨hscoped, hbindings⟩ := hmade.read.settled hnames' htable
    (forall_mem_singleton.mpr hsound) hgathers.code
  simp only [flatMap_map, bare, bindings_map] at hbindings
  refine ⟨opened, nss, frame, hmade.opens, hgathers, ⟨hsound, fun name => ?_⟩,
    fun n hn => ?_, hmath⟩
  · rw [hbindings, hgathers.grows.names]
    simp
  · exact (hscoped _ (mem_map_of_mem hn)).of_map

theorem wellScoped_ofFiles (h : ofFiles files = .ok p) : ∃ frame, p.WellScoped frame := by
  obtain ⟨_, _, frame, -, -, hscoped⟩ := gathers_ofFiles h
  exact ⟨frame, hscoped⟩

theorem WellScoped.exists_name {frame : Frame} {n : NodeId} {i : Tree NodeId} {s : SymbolId}
    (h : p.WellScoped frame) (hn : n ∈ p.modules) (hi : i ∈ (p.store.tree n).subtrees)
    (hk : i.kind = .identifier s) :
    ∃ name, p.store.symbols[s.index]? = some ⟨name, p.store.isPinned s⟩ := by
  have hentry : ∀ name pinned, p.store.symbols[s.index]? = some ⟨name, pinned⟩ →
      ∃ name, p.store.symbols[s.index]? = some ⟨name, p.store.isPinned s⟩ := by
    intro name pinned hs
    refine ⟨name, ?_⟩
    rw [Store.isPinned, hs]
    rfl
  rcases (h.trees n hn).resolves hi hk with ⟨inner, hres⟩ | ⟨u, -, hmath, -⟩
  · rcases hres with ⟨name, hs, -⟩ | ⟨name, hs, -⟩
    · exact hentry name false hs
    · exact hentry name true hs
  · rw [hk, Kind.identifier.injEq] at hmath
    exact hentry "Math" true (hmath ▸ h.math)

/-- A global in a program from files is captured by no function and no handler around it and by no
top level, unless it is the `Math` of a power. -/
theorem ofFiles_captures_only_power {n : NodeId} {i : Tree NodeId} {s : SymbolId}
    (h : ofFiles files = .ok p) (hn : n ∈ p.modules) (hi : i ∈ (p.store.tree n).subtrees)
    (hk : i.kind = .identifier s) (hs : p.store.isPinned s = true) :
    (∃ u ∈ (p.store.tree n).subtrees, IsPower p.known u i) ∨
      (∀ f ∈ (p.store.tree n).subtrees, i ∈ f.subtrees → ∀ x ∈ f.ownBindings,
        nameIn p.store.symbols x ≠ nameIn p.store.symbols s) ∧
      ∀ m ∈ p.modules, ∀ x ∈ (p.store.tree m).bindings,
        nameIn p.store.symbols x ≠ nameIn p.store.symbols s := by
  obtain ⟨frame, hscoped⟩ := wellScoped_ofFiles h
  obtain ⟨name, hname⟩ := hscoped.exists_name hn hi hk
  rw [hs] at hname
  have hsame : nameIn p.store.symbols s = some name := by rw [nameIn, hname, Option.map_some]
  rcases (hscoped.trees n hn).resolves hi hk with ⟨inner, hres⟩ | hpower
  · by_cases hpower : ∃ u ∈ (p.store.tree n).subtrees, IsPower p.known u i
    · exact .inl hpower
    · push Not at hpower
      rw [hsame]
      refine .inr ⟨fun f hf hif x hx => ?_, fun m hm x hx => ?_⟩
      · exact (hscoped.trees n hn).nameIn_ne_of_pinned hk hname hpower hf hif hx
      · exact hres.nameIn_ne hname (by simp) hscoped.binds (mem_flatMap.mpr ⟨m, hm, hx⟩)
  · exact .inl hpower

def wrappedCall : List SourceFile :=
  [.ofStatements [.element "FunctionDeclaration" [("id", .name "f"), ("params", .array [.name "x"]),
    ("body", .block [.element "ExpressionStatement" [("expression",
      .element "CallExpression" [("callee", .name "g"), ("arguments", .array [.name "x"])])]])]]]

theorem ofFiles_captures_only_power_wrappedCall :
    ∃ p, ofFiles wrappedCall = .ok p ∧ ∃ n ∈ p.modules, ∃ i ∈ (p.store.tree n).subtrees,
      i.kind = .identifier ⟨4⟩ ∧ p.store.isPinned ⟨4⟩ = true ∧
      ((∃ u ∈ (p.store.tree n).subtrees, IsPower p.known u i) ∨
        (∀ f ∈ (p.store.tree n).subtrees, i ∈ f.subtrees → ∀ x ∈ f.ownBindings,
          nameIn p.store.symbols x ≠ nameIn p.store.symbols ⟨4⟩) ∧
        ∀ m ∈ p.modules, ∀ x ∈ (p.store.tree m).bindings,
          nameIn p.store.symbols x ≠ nameIn p.store.symbols ⟨4⟩) := by
  obtain ⟨p, hp, n, hn, i, hi, hk, hs⟩ := exists_of_any (ofFiles wrappedCall)
    (fun p => ∃ n ∈ p.modules, ∃ i ∈ (p.store.tree n).subtrees,
      i.kind = .identifier ⟨4⟩ ∧ p.store.isPinned ⟨4⟩ = true) (by decide +kernel)
  exact ⟨p, hp, n, hn, i, hi, hk, hs, ofFiles_captures_only_power hp hn hi hk hs⟩

def powerOfParameter : List SourceFile :=
  [.ofStatements [.element "FunctionDeclaration" [("id", .name "f"),
    ("params", .array [.name "Math"]), ("body", .block [.element "ReturnStatement" [("argument",
      .element "BinaryExpression" [("operator", .string "**"), ("left", .name "Math"),
        ("right", .name "Math")])]])]]]

theorem ofFiles_captures_math_powerOfParameter :
    ∃ p, ofFiles powerOfParameter = .ok p ∧ p.store.isPinned p.known.math = true ∧
      ∃ n ∈ p.modules, ∃ f ∈ (p.store.tree n).subtrees, ∃ i ∈ f.subtrees, ∃ x ∈ f.ownBindings,
        i.kind = .identifier p.known.math ∧ p.store.isPinned x = false ∧
          nameIn p.store.symbols x = nameIn p.store.symbols p.known.math :=
  exists_of_any _ _ (by decide +kernel)

/-- A symbol of a program from files that is used and not pinned is declared in the program, unless
the function or the top level that it belongs to diverts it to a handler. -/
theorem ofFiles_declares_or_diverts {n : NodeId} {i : Tree NodeId} {s : SymbolId}
    (h : ofFiles files = .ok p) (hn : n ∈ p.modules) (hi : i ∈ (p.store.tree n).subtrees)
    (hk : i.kind = .identifier s) (hs : p.store.isPinned s = false) :
    (∃ m ∈ p.modules, (p.store.tree m).Declares s) ∨
      (∃ f ∈ (p.store.tree n).subtrees, (∃ y, f.kind = .function y) ∧ i ∈ f.subtrees ∧
        Diverts p.store.symbols f.children s) ∨
      Diverts p.store.symbols (p.modules.map p.store.tree) s := by
  obtain ⟨frame, hscoped⟩ := wellScoped_ofFiles h
  obtain ⟨name, hname⟩ := hscoped.exists_name hn hi hk
  rw [hs] at hname
  have hmath : ∀ other, p.store.symbols[p.known.math.index]? ≠ some ⟨other, false⟩ := by
    intro other hother
    rw [hscoped.math] at hother
    cases hother
  rcases (hscoped.trees n hn).accountsFor hi hk hname hmath with hfind | hdeclares | hdiverts
  · rw [Frame.find_cons, Frame.find?, findSome?_nil, Option.or_none] at hfind
    have hbinds : frame.Binds p.store.symbols
        ((p.modules.map p.store.tree).flatMap bindings) := by
      rw [flatMap_map]
      exact hscoped.binds
    have htrees : ∀ c ∈ p.modules.map p.store.tree,
        c.Scoped p.store.symbols p.known [frame] := forall_mem_map.mpr hscoped.trees
    rcases Scoped.declares_or_diverts hbinds htrees hfind with hdeclares | hdiverts
    · obtain ⟨c, hc, hdeclares⟩ := hdeclares
      obtain ⟨m, hm, rfl⟩ := mem_map.mp hc
      exact .inl ⟨m, hm, hdeclares⟩
    · exact .inr (.inr hdiverts)
  · exact .inl ⟨n, hn, hdeclares⟩
  · exact .inr (.inl hdiverts)

theorem ofFiles_declares_or_diverts_wrappedCall :
    ∃ p, ofFiles wrappedCall = .ok p ∧ ∃ n ∈ p.modules, ∃ i ∈ (p.store.tree n).subtrees,
      i.kind = .identifier ⟨3⟩ ∧ p.store.isPinned ⟨3⟩ = false ∧
      ((∃ m ∈ p.modules, (p.store.tree m).Declares ⟨3⟩) ∨
        (∃ f ∈ (p.store.tree n).subtrees, (∃ y, f.kind = .function y) ∧ i ∈ f.subtrees ∧
          Diverts p.store.symbols f.children ⟨3⟩) ∨
        Diverts p.store.symbols (p.modules.map p.store.tree) ⟨3⟩) := by
  obtain ⟨p, hp, n, hn, i, hi, hk, hs⟩ := exists_of_any (ofFiles wrappedCall)
    (fun p => ∃ n ∈ p.modules, ∃ i ∈ (p.store.tree n).subtrees,
      i.kind = .identifier ⟨3⟩ ∧ p.store.isPinned ⟨3⟩ = false) (by decide +kernel)
  exact ⟨p, hp, n, hn, i, hi, hk, hs, ofFiles_declares_or_diverts hp hn hi hk hs⟩

def declaredInHandler : List SourceFile :=
  [.ofStatements
    [.element "TryStatement" [("block", .block []),
      ("handler", .element "CatchClause" [("param", .name "e"), ("body", .block
        [.element "VariableDeclaration" [("kind", .string "var"), ("declarations", .array
          [.element "VariableDeclarator" [("id", .name "e"), ("init", .null)]])]])]),
      ("finalizer", .null)], .element "ExpressionStatement" [("expression", .name "e")]]]

theorem ofFiles_declares_nothing_declaredInHandler :
    ∃ p, ofFiles declaredInHandler = .ok p ∧ ∃ n ∈ p.modules,
      ∃ i ∈ (p.store.tree n).subtrees, i.kind = .identifier ⟨2⟩ ∧
        p.store.isPinned ⟨2⟩ = false ∧ ¬∃ m ∈ p.modules, (p.store.tree m).Declares ⟨2⟩ := by
  unfold Declares
  exact exists_of_any _ _ (by decide +kernel)

end Program

end ScriptPress

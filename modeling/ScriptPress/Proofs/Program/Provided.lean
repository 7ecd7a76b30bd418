import ScriptPress.Proofs.Program.Scope
import ScriptPress.Proofs.Program.Total

/-! # Names that the environment provides -/

namespace ScriptPress

open List Option

open Reading (Settles settles_lift settles_globalSymbol)

def Kind.refers? : Kind → Option SymbolId
  | .identifier s | .variable s | .function s => some s
  | _ => none

theorem Kind.refers?_of_isNeutral {k : Kind} (h : k.isNeutral) : k.refers? = none := by
  cases k <;> first | rfl | cases h

namespace Frame

variable {table : Array Symbol} {frames : List Frame} {name : String} {s : SymbolId}

/-- The symbol is what a name stands for inside of the frames. -/
inductive Denotes (table : Array Symbol) (frames : List Frame) (name : String) (s : SymbolId) : Prop
  | bound (hs : table[s.index]? = some ⟨name, false⟩) (hfind : find? frames name = some s)
  | free (hs : table[s.index]? = some ⟨name, true⟩) (hfind : find? frames name = none)

theorem Resolves.denotes (h : Resolves table frames s) (hname : nameIn table s = some name) :
    Denotes table frames name s := by
  rcases h with ⟨other, hs, hfind⟩ | ⟨other, hs, hfind⟩
  all_goals
    rw [nameIn, hs, map_some, some.injEq] at hname
    subst hname
  · exact .bound hs hfind
  · exact .free hs hfind

theorem Denotes.of_cons {frame : Frame} (h : Denotes table (frame :: frames) name s)
    (hframe : frame.lookup name = none) : Denotes table frames name s := by
  have hfind : find? (frame :: frames) name = find? frames name := by
    rw [find_cons, hframe, none_or]
  rcases h with ⟨hs, h⟩ | ⟨hs, h⟩
  · exact .bound hs (hfind ▸ h)
  · exact .free hs (hfind ▸ h)

theorem Binds.lookup_eq_none {frame : Frame} {xs : List SymbolId} (h : frame.Binds table xs)
    (hxs : ∀ x ∈ xs, nameIn table x ≠ some name) : frame.lookup name = none := by
  rw [← not_isSome_iff_eq_none, h.names]
  intro hmem
  obtain ⟨x, hx, hname⟩ := mem_map.mp hmem
  exact hxs x hx hname

end Frame

namespace Tree

variable {α : Type} {table : Array Symbol} {known : WellKnown} {frames : List Frame}
  {t d : Tree α} {name : String} {s : SymbolId}

mutual

/-- The trees in a tree that stand outside of every function and every handler in it that binds the
name. -/
def outside (table : Array Symbol) (name : String) : Tree α → List (Tree α)
  | node m k cs =>
    node m k cs :: if some name ∈ (node m k cs).ownBindings.map (nameIn table) then []
      else outsideAll table name cs

def outsideAll (table : Array Symbol) (name : String) : List (Tree α) → List (Tree α)
  | [] => []
  | c :: cs => c.outside table name ++ outsideAll table name cs

end

theorem mem_outsideAll {cs : List (Tree α)} :
    d ∈ outsideAll table name cs ↔ ∃ c ∈ cs, d ∈ c.outside table name := by
  induction cs with
  | nil => simp [outsideAll]
  | cons c cs ih =>
    rw [outsideAll, mem_append, ih]
    simp

theorem mem_outside_node {m : α} {k : Kind} {cs : List (Tree α)} :
    d ∈ (node m k cs).outside table name ↔ d = node m k cs ∨
      (∀ x ∈ (node m k cs).ownBindings, nameIn table x ≠ some name) ∧
        ∃ c ∈ cs, d ∈ c.outside table name := by
  rw [outside, mem_cons]
  refine or_congr_right ?_
  split
  · rename_i hmem
    obtain ⟨x, hx, hname⟩ := mem_map.mp hmem
    refine iff_of_false (by simp) fun h => h.1 x hx hname
  · rename_i hmem
    rw [mem_outsideAll, iff_and_self]
    exact fun _ x hx hname => hmem (hname ▸ mem_map_of_mem hx)

theorem mem_subtrees_of_outside (h : d ∈ t.outside table name) : d ∈ t.subtrees := by
  induction t with
  | node m k cs ih =>
    rcases mem_outside_node.mp h with rfl | ⟨-, c, hc, hd⟩
    · exact mem_subtrees_self _
    · exact mem_subtrees_node.mpr (.inr ⟨c, hc, ih c hc hd⟩)

theorem Scoped.denotes_root (h : Scoped table known frames d) (hs : d.kind.refers? = some s)
    (hname : nameIn table s = some name) : Frame.Denotes table frames name s := by
  cases h with
  | identifier h | declaration h _ | function _ h _ _ =>
    cases hs
    exact h.denotes hname
  | neutral hk _ =>
    rw [kind_node, Kind.refers?_of_isNeutral hk] at hs
    cases hs
  | _ => cases hs

theorem Scoped.denotes (h : Scoped table known frames t) (hd : d ∈ t.outside table name)
    (hs : d.kind.refers? = some s) (hname : nameIn table s = some name) :
    Frame.Denotes table frames name s ∨ ∃ u ∈ t.subtrees, IsPower known u d := by
  induction t generalizing frames with
  | node m k cs ih =>
    rcases mem_outside_node.mp hd with rfl | ⟨hfree, c, hc, hdc⟩
    · exact .inl (h.denotes_root hs hname)
    have hlift : ∀ {frames' : List Frame}, Scoped table known frames' c →
        Frame.Denotes table frames' name s ∨ ∃ u ∈ (node m k cs).subtrees, IsPower known u d := by
      intro frames' hscoped
      refine (ih c hc hscoped hdc).imp_right ?_
      rintro ⟨u, hu, hpower⟩
      exact ⟨u, mem_subtrees_node.mpr (.inr ⟨c, hc, hu⟩), hpower⟩
    cases h with
    | identifier => cases hc
    | power hl hr =>
      simp only [mem_cons, not_mem_nil, or_false] at hc
      rcases hc with rfl | rfl | rfl
      · -- Below the function of a power there is the name `Math` and nothing else.
        rcases mem_subtrees_node.mp (mem_subtrees_of_outside hdc) with rfl | ⟨i, hi, hd⟩
        · cases hs
        · obtain rfl := mem_singleton.mp hi
          rcases mem_subtrees_node.mp hd with rfl | ⟨c, hc, -⟩
          · exact .inr ⟨_, mem_subtrees_self _, rfl, _, _, _, _, rfl⟩
          · cases hc
      · exact hlift hl
      · exact hlift hr
    | declaration _ hv =>
      obtain rfl := mem_singleton.mp hc
      exact hlift hv
    | function frame _ hframe hcs =>
      refine (hlift (hcs c hc)).imp_left fun h => h.of_cons ?_
      exact hframe.lookup_eq_none hfree
    | handler other hother hcs =>
      refine (hlift (hcs c hc)).imp_left fun h => h.of_cons ?_
      exact (Frame.Binds.handler hother).lookup_eq_none hfree
    | neutral _ hcs => exact hlift (hcs c hc)

end Tree

namespace SourceFile

def topNames (file : SourceFile) : Except Defect (List String) := do
  Element.hoistedAll (← file.statements)

def Declares (file : SourceFile) (name : String) : Prop :=
  ∃ ns, file.topNames = .ok ns ∧ name ∈ ns

instance (file : SourceFile) (name : String) : Decidable (file.Declares name) :=
  decidable_of_iff (file.topNames.toOption.any (name ∈ ·)) (by
    rw [Declares]
    cases file.topNames <;> simp [Except.toOption])

theorem topNames_eq {file : SourceFile} {es : List Element} (h : file.statements = .ok es) :
    file.topNames = Element.hoistedAll es := by
  rw [topNames, h]
  rfl

end SourceFile

namespace Store

variable {s : Store} {roots : List NodeId} {x : SymbolId} {name : String}

theorem Modules.shortenNamesIn_pinned (hr : s.Modules roots)
    (hx : s.symbols[x.index]? = some ⟨name, true⟩) :
    ∃ s' count, s.shortenNamesIn roots = .ok (s', count) ∧
      s'.symbols[x.index]? = some ⟨name, true⟩ := by
  have hlists := Usages.lists_ofOccurrences (Tree.usesAll (roots.map s.tree))
  obtain ⟨ranks, -, -, -, hrenames⟩ := shortenNames_ranks (s := s) hlists.ordered
  have hrun : s.shortenNamesIn roots =
      .ok (s.shortenNames (Usages.ofOccurrences (Tree.usesAll (roots.map s.tree)))) := by
    rw [shortenNamesIn, hr.usages_eq]
    rfl
  refine ⟨_, _, hrun, (hrenames.kept x fun hmem => ?_).trans hx⟩
  obtain ⟨⟨y, other⟩, hpair, rfl⟩ := mem_map.mp hmem
  have hrenamable := mem_renamingOrder.mp (of_mem_zip hpair).1
  have hpinned : s.isPinned y := by
    rw [isPinned, hx]
    rfl
  rw [hrenamable.2] at hpinned
  cases hpinned

end Store

namespace Program

variable {files : List SourceFile} {p : Program} {name : String} {s : SymbolId}

/-- The symbol is pinned, and it is printed under the name after shortening names, whether the
program is optimized before or not. -/
def KeepsName (p : Program) (s : SymbolId) (name : String) : Prop :=
  p.store.symbols[s.index]? = some ⟨name, true⟩ ∧ ∀ p₁, p₁ = p ∨ p.optimize = .ok p₁ →
      ∃ p₂, p₁.shortenNames = .ok p₂ ∧ p₂.store.symbolName s = name

theorem keepsName_of_pinned (h : ofFiles files = .ok p)
    (hs : p.store.symbols[s.index]? = some ⟨name, true⟩) : p.KeepsName s name := by
  have hverified := (lowers_ofFiles h).verified
  refine ⟨hs, fun p₁ hp₁ => ?_⟩
  have hready : p₁.store.Modules p₁.modules ∧ p₁.store.symbols[s.index]? = some ⟨name, true⟩ := by
    rcases hp₁ with rfl | hoptimize
    · exact ⟨hverified.modules, hs⟩
    · obtain ⟨s', hrun, hkeeps⟩ :=
        hverified.consistent.optimize_eq_ok hverified.modules p.known
      rw [optimize, hrun] at hoptimize
      cases hoptimize
      exact ⟨hkeeps.modules, by rw [hkeeps.symbols, hs]⟩
  obtain ⟨s', count, hrun, hs'⟩ := hready.1.shortenNamesIn_pinned hready.2
  refine ⟨{ p₁ with store := s' }, by rw [shortenNames, hrun]; rfl, ?_⟩
  rw [Store.symbolName, hs']
  rfl

theorem declares_ofFiles (h : ofFiles files = .ok p) : ∃ frame, p.WellScoped frame ∧
      (∀ name, (frame.lookup name).isSome ↔
        ∃ file ∈ files, file.declaration = false ∧ file.Declares name) ∧
      ∀ file ∈ files, file.declaration → ∀ name, file.Declares name →
        Reading.HasGlobal p.store.symbols name := by
  obtain ⟨opened, nss, frame, hopens, hgathers, hscoped⟩ := gathers_ofFiles h
  have hcode : List.Forall₂ (fun file ns => file.topNames = .ok ns)
      (files.filter (!·.declaration)) nss :=
    forall₂_comp (SourceFile.forall₂_filter hopens) hgathers.code fun _ o _ ho hns =>
      (SourceFile.topNames_eq ho.2).trans hns
  refine ⟨frame, hscoped, fun name => ?_, ?_⟩
  · rw [hgathers.grows.names, lookup_nil, isSome_none, Bool.false_eq_true, false_or,
      mem_flatten]
    constructor
    · rintro ⟨ns, hns, hname⟩
      obtain ⟨file, hfile, htop⟩ := exists_of_forall₂ hcode hns
      obtain ⟨hmem, hdeclaration⟩ := mem_filter.mp hfile
      exact ⟨file, hmem, by simpa using hdeclaration, ns, htop, hname⟩
    · rintro ⟨file, hfile, hdeclaration, ns, htop, hname⟩
      have hmem : file ∈ files.filter (!·.declaration) :=
        mem_filter.mpr ⟨hfile, by rw [hdeclaration]; rfl⟩
      obtain ⟨ns', hns', htop'⟩ := exists_of_forall₂ hcode.flip hmem
      cases htop.symm.trans htop'
      exact ⟨ns, hns', hname⟩
  · rintro file hfile hdeclaration name ⟨ns, htop, hname⟩
    obtain ⟨o, ho, rfl, hes⟩ := exists_of_forall₂ hopens.flip hfile
    rw [SourceFile.topNames_eq hes] at htop
    exact hgathers.provided o ho hdeclaration ns htop name hname

/-- A name from a declaration file has a pinned symbol. Where the name is used or declared outside
of the functions and handlers that bind it, it carries a pinned symbol and keeps its name, provided
that no file with code declares it at its top level. If one does, the symbol is not pinned, except
in the `Math` of a power. -/
theorem ofFiles_provided_names (h : ofFiles files = .ok p)
    (hprovided : ∃ file ∈ files, file.declaration = true ∧ file.Declares name) :
    Reading.HasGlobal p.store.symbols name ∧
    ∀ n ∈ p.modules, ∀ d ∈ (p.store.tree n).outside p.store.symbols name, ∀ s,
      d.kind.refers? = some s → nameIn p.store.symbols s = some name →
        ((∀ file ∈ files, file.declaration = false → ¬file.Declares name) → p.KeepsName s name) ∧
        ((∃ file ∈ files, file.declaration = false ∧ file.Declares name) →
          p.store.symbols[s.index]? = some ⟨name, false⟩ ∨
            ∃ u ∈ (p.store.tree n).subtrees, Tree.IsPower p.known u d) := by
  obtain ⟨frame, hscoped, hcode, hglobal⟩ := declares_ofFiles h
  have hframe := hcode name
  have hfind : Frame.find? [frame] name = frame.lookup name := by
    rw [Frame.find_cons, Frame.find?, List.findSome?_nil, or_none]
  constructor
  · obtain ⟨file, hfile, hdeclaration, hname⟩ := hprovided
    exact hglobal file hfile hdeclaration name hname
  intro n hn d hout s hd hname
  rcases (hscoped.trees n hn).denotes hout hd hname with hdenotes | ⟨u, hu, hpower⟩
  · rcases hdenotes with ⟨hs, hbound⟩ | ⟨hs, hfree⟩
    · refine ⟨fun hnone => ?_, fun _ => .inl hs⟩
      obtain ⟨file, hfile, hdeclaration, hdeclares⟩ := hframe.mp (by rw [← hfind, hbound]; rfl)
      exact absurd hdeclares (hnone file hfile hdeclaration)
    · refine ⟨fun _ => keepsName_of_pinned h hs, fun hsome => ?_⟩
      rw [← hframe, ← hfind, hfree] at hsome
      cases hsome
  · -- The `Math` of a power is the well-known global, whatever is declared around it.
    refine ⟨fun _ => keepsName_of_pinned h ?_, fun _ => .inr ⟨u, hu, hpower⟩⟩
    rw [hpower.1, Kind.refers?, some.injEq] at hd
    rw [← hd, nameIn, hscoped.math, map_some, some.injEq] at hname
    rw [← hd, hscoped.math, ← hname]

def declaredBeside (provided : List String) : List SourceFile :=
  let declaration (name : String) (fields : List (String × Json)) : Json :=
    .element "VariableDeclaration" [("kind", .string "var"), ("declarations", .array
      [.element "VariableDeclarator" (("id", .name name) :: fields)])]
  [⟨"environment", true, .element "Program"
      [("body", .array (provided.map fun name => declaration name []))]⟩,
    .ofStatements [declaration "api" [("init", .name "host")],
      .element "ExpressionStatement" [("expression", .element "CallExpression"
        [("callee", .name "host"), ("arguments", .array [.name "api"])])]]]

theorem ofFiles_provided_names_host :
    (∃ p, ofFiles (declaredBeside ["host"]) = .ok p ∧ ∃ n ∈ p.modules,
      ∃ d ∈ (p.store.tree n).outside p.store.symbols "host",
        d.kind.refers? = some ⟨2⟩ ∧ p.KeepsName ⟨2⟩ "host") ∧
    ∃ p, ofFiles (declaredBeside ["host", "api"]) = .ok p ∧ ∃ n ∈ p.modules,
      ∃ d ∈ (p.store.tree n).outside p.store.symbols "api",
        d.kind.refers? = some ⟨4⟩ ∧ (p.store.symbols[4]? = some ⟨"api", false⟩ ∨
          ∃ u ∈ (p.store.tree n).subtrees, Tree.IsPower p.known u d) := by
  constructor
  · obtain ⟨p, hp, n, hn, d, hd, hs, hname⟩ := exists_of_any (ofFiles (declaredBeside ["host"]))
      (fun p => ∃ n ∈ p.modules, ∃ d ∈ (p.store.tree n).outside p.store.symbols "host",
        d.kind.refers? = some ⟨2⟩ ∧ nameIn p.store.symbols ⟨2⟩ = some "host") (by decide +kernel)
    have hkeeps := (ofFiles_provided_names hp (by decide +kernel)).2 n hn d hd ⟨2⟩ hs hname
    exact ⟨p, hp, n, hn, d, hd, hs, hkeeps.1 (by decide +kernel)⟩
  · obtain ⟨p, hp, n, hn, d, hd, hs, hname⟩ :=
      exists_of_any (ofFiles (declaredBeside ["host", "api"]))
      (fun p => ∃ n ∈ p.modules, ∃ d ∈ (p.store.tree n).outside p.store.symbols "api",
        d.kind.refers? = some ⟨4⟩ ∧ nameIn p.store.symbols ⟨4⟩ = some "api") (by decide +kernel)
    have hkeeps := (ofFiles_provided_names hp (by decide +kernel)).2 n hn d hd ⟨4⟩ hs hname
    exact ⟨p, hp, n, hn, d, hd, hs, hkeeps.2 (by decide +kernel)⟩

theorem ofFiles_renames_provided_api :
    (∃ file ∈ declaredBeside ["api"], file.declaration = true ∧ file.Declares "api") ∧
    ∃ p, ofFiles (declaredBeside ["api"]) = .ok p ∧
      (∃ n ∈ p.modules, ∃ d ∈ (p.store.tree n).outside p.store.symbols "api",
        d.kind.refers? = some ⟨3⟩ ∧ p.store.symbols[3]? = some ⟨"api", false⟩) ∧
      ∃ p', p.shortenNames = .ok p' ∧ p'.store.symbolName ⟨3⟩ = "a" := by
  refine ⟨by decide +kernel, ?_⟩
  obtain ⟨p, hp, hd, hrenamed⟩ := exists_of_any (ofFiles (declaredBeside ["api"]))
    (fun p => (∃ n ∈ p.modules, ∃ d ∈ (p.store.tree n).outside p.store.symbols "api",
        d.kind.refers? = some ⟨3⟩ ∧ p.store.symbols[3]? = some ⟨"api", false⟩) ∧
      p.shortenNames.toOption.any (fun p' => decide (p'.store.symbolName ⟨3⟩ = "a")) = true)
    (by decide +kernel)
  exact ⟨p, hp, hd, exists_of_any p.shortenNames _ hrenamed⟩

end Program

end ScriptPress

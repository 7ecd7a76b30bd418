import ScriptPress.Compile
import ScriptPress.Proofs.Estree.Directives
import ScriptPress.Proofs.Print.Bodies
import ScriptPress.Proofs.Program.Scope

/-! # Prologues of programs from files -/

namespace ScriptPress

open Prologue (IsRaw fits read isSolid)

/-- What is printed first of an identifier or a label cannot be taken for a directive. -/
def Kind.isNamed (st : Style) : Kind → Bool
  | .identifier s | .label s => (st.name s).toList.head?.any isSolid
  | _ => true

namespace Tree

variable {α : Type} {st : Style} {t : Tree α} {ds : List String}

theorem every_bare (p : Kind → Bool) (t : Tree α) :
    t.bare.every (fun k _ => p k) = t.every fun k _ => p k := by
  induction t with
  | node m k cs ih =>
    rw [Bool.eq_iff_iff, bare_node, every_node, every_node, List.forall_mem_map]
    exact and_congr_right fun _ => forall₂_congr fun c hc => Bool.eq_iff_iff.mp (ih c hc)

theorem From.clean (h : t.From ds) (hnames : t.every (fun k _ => k.isNamed st))
    (hquote : ∀ d ∈ ds, fits (quote d) .plain d.toList) : t.Clean st := by
  induction t with
  | node m k cs ih =>
    obtain ⟨hk, hcs⟩ := every_node.mp h
    obtain ⟨hname, hnames⟩ := every_node.mp hnames
    refine clean_node.mpr ⟨?_, fun c hc => ih c hc (hcs c hc) (hnames c hc)⟩
    cases k with
    | identifier | label => exact hname
    | regExp source =>
      have hslash : source.toList.head? = some '/' := of_decide_eq_true hk
      rw [Kind.isClean, hslash]
      rfl
    | directive text => exact hquote text (of_decide_eq_true hk)
    | _ => rfl

end Tree

namespace Program

variable {files : List SourceFile} {p : Program}

theorem directives_subset_of_statements {file : SourceFile} (h : file.statements = .ok es)
    {e : Element} (he : e ∈ es) : e.directives ⊆ file.program.directives := by
  unfold SourceFile.statements at h
  obtain ⟨program, hprogram, h⟩ := exists_of_bind_eq_ok h
  split at h
  · cases h
  · obtain ⟨cs, hcs, h⟩ := exists_of_bind_eq_ok h
    cases h
    obtain ⟨c, hc, rfl⟩ := List.mem_map.mp he
    rw [← Element.directives_of hprogram]
    exact ((Element.at_list hcs).mpr ⟨c, hc, rfl⟩).directives_subset

theorem from_ofFiles (h : ofFiles files = .ok p) {n : NodeId} (hn : n ∈ p.modules) :
    ∃ file ∈ files, (p.store.tree n).From file.program.directives := by
  obtain ⟨file, hfile, es, scope, names, cs, names', hes, hrun, htree⟩ :=
    exists_of_forall₂ (lowers_ofFiles h).modules hn
  refine ⟨file, (List.mem_filter.mp hfile).1, ?_⟩
  have hcs : ∀ c ∈ cs, c.From file.program.directives := by
    intro c hc
    obtain ⟨e, he, hfrom⟩ := exists_of_forall₂ (Element.forall₂_statements
      (P := fun e t => ∀ ds, e.directives ⊆ ds → t.From ds) hrun fun h _ hds => h.from hds) hc
    exact hfrom _ (directives_subset_of_statements hes he)
  rw [Tree.From, ← Tree.every_bare, htree]
  exact Tree.every_node.mpr ⟨rfl, hcs⟩

/-- The text of each module begins with the directives of the module, and each function in it with
those of the function. What stands behind them is read as more directives if it is written as a
string and nothing else. So it is in both modes and whatever symbols are called, before renaming and
after it. -/
theorem print_prologues (st : Style) (h : ofFiles files = .ok p)
    (hraw : ∀ file ∈ files, ∀ d ∈ file.program.directives, IsRaw d)
    (hquotes : ∀ file ∈ files, ∀ d ∈ file.program.directives,
      '"' ∈ d.toList → fits '\'' .plain d.toList = true)
    {n : NodeId} (hn : n ∈ p.modules)
    (hnames : (p.store.tree n).every (fun k _ => k.isNamed st) = true) :
    ∃ text, (p.store.tree n).print st = .ok text ∧ read .ready text.toList =
        Tree.leading (p.store.tree n).children ++ Tree.strays (p.store.tree n).children ∧
      Tree.Located st text.toList (p.store.tree n).functions := by
  have hverified := (lowers_ofFiles h).verified
  obtain ⟨kids, hlinks⟩ := hverified.consistent
  have hshaped := hverified.modules.shaped n hn
  have hkind := (hlinks.kind_tree n).trans (hverified.kind n hn)
  obtain ⟨file, hfile, hfrom⟩ := from_ofFiles h hn
  have hclean : (p.store.tree n).Clean st := hfrom.clean hnames fun d hd =>
    Tree.fits_quote (hraw file hfile d hd) (hquotes file hfile d hd)
  refine ⟨_, Tree.print_eq hshaped hkind, ?_⟩
  rw [String.toList_ofList]
  exact Tree.located_text hshaped hkind hclean

def stringStatement (value : String) (directive : Option String) : Json :=
  .element "ExpressionStatement" (("expression", .element "Literal" [("value", .string value)]) ::
    directive.toList.map fun text => ("directive", .string text))

def directed : SourceFile :=
  .ofStatements [stringStatement "it's" (some "it's"), stringStatement "plain" none,
    .element "FunctionDeclaration" [("id", .name "f"), ("params", .array [.name "x"]),
      ("body", .block [stringStatement "say \"hi\"" (some "say \"hi\""),
        .element "ReturnStatement" [("argument", .name "x")]])]]

theorem print_prologues_directed : ∃ p, ofFiles [directed] = .ok p ∧ ∃ n ∈ p.modules,
    ∃ text, p.store.print .minified n = .ok text ∧
      read .ready text.toList = ["it's".toList] ++ ["plain".toList] ∧
      Tree.Located ⟨.minified, p.store.symbolName⟩ text.toList (p.store.tree n).functions := by
  obtain ⟨p, hp, n, hn, hnames, hleading, hstrays⟩ := exists_of_any (ofFiles [directed])
    (fun p => ∃ n ∈ p.modules,
      (p.store.tree n).every (fun k _ => k.isNamed ⟨.minified, p.store.symbolName⟩) = true ∧
      Tree.leading (p.store.tree n).children = ["it's".toList] ∧
      Tree.strays (p.store.tree n).children = ["plain".toList]) (by decide +kernel)
  obtain ⟨text, hprint, hread, hfunctions⟩ := print_prologues ⟨.minified, p.store.symbolName⟩ hp
    (by decide +kernel) (by decide +kernel) hn hnames
  rw [hleading, hstrays] at hread
  exact ⟨p, hp, n, hn, text, hprint, hread, hfunctions⟩

theorem print_changes_prologues :
    (∃ p, ofFiles [.ofStatements [stringStatement "use strict" none]] = .ok p ∧ ∃ n ∈ p.modules,
      Tree.leading (p.store.tree n).children = [] ∧
      p.store.print .normal n = .ok "\"use strict\";\n" ∧
      read .ready "\"use strict\";\n".toList = ["use strict".toList]) ∧ IsRaw "\\\"'" ∧
    ∃ p, ofFiles [.ofStatements [stringStatement "\"'" (some "\\\"'")]] = .ok p ∧ ∃ n ∈ p.modules,
      Tree.leading (p.store.tree n).children = ["\\\"'".toList] ∧
      p.store.print .normal n = .ok "'\\\"'';\n" ∧ read .ready "'\\\"'';\n".toList = [] := by
  refine ⟨?_, by decide, ?_⟩
  · exact exists_of_any _ _ (by decide +kernel)
  · exact exists_of_any _ _ (by decide +kernel)

end Program

end ScriptPress

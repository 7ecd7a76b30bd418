import ScriptPress.Proofs.Print.Lines
import ScriptPress.Proofs.Program.Lowering
import ScriptPress.Proofs.Simplify.Modules
import ScriptPress.Proofs.Usage.Naming

/-! # Compiling never fails inside -/

namespace ScriptPress

open Program

namespace Store

variable {s s' : Store} {roots : List NodeId} {n : NodeId}

theorem Consistent.of_slots (h : s.Consistent) (hslots : s'.slots = s.slots) :
    s'.Consistent ∧ s'.tree = s.tree := by
  have hslot : s'.slot? = s.slot? := by
    funext n
    rw [slot?, hslots, slot?]
  obtain ⟨kids, hlinks⟩ := h
  have hlinks' : s'.Links kids := by
    refine hlinks.congr ?_ ?_ ?_ ?_ ?_ (Nat.le_of_eq (by rw [size, size, hslots]))
    all_goals
      funext n
      simp only [parent?, firstChild?, lastChild?, next?, previous?, hslot]
  refine ⟨⟨kids, hlinks'⟩, funext fun n => hlinks.tree_of_slots hlinks' fun y _ => ?_⟩
  rw [hslot]

theorem Modules.of_trees (hr : s.Modules roots) (hs : s.Consistent) (hs' : s'.Consistent)
    (htree : s'.tree = s.tree) : s'.Modules roots := by
  obtain ⟨kids, h⟩ := hs
  obtain ⟨kids', h'⟩ := hs'
  refine ⟨hr.nodup, fun n hn => ?_, fun n hn => ?_⟩
  · rw [← h'.kind_tree, htree, h.kind_tree, hr.kind n hn]
  · rw [htree]
    exact hr.shaped n hn

theorem Consistent.shortenNamesIn_eq_ok (hs : s.Consistent) (hr : s.Modules roots) :
    ∃ s' count, s.shortenNamesIn roots = .ok (s', count) ∧ s'.Consistent ∧ s'.Modules roots := by
  have hlists := Usages.lists_ofOccurrences (Tree.usesAll (roots.map s.tree))
  obtain ⟨ranks, -, -, -, hrenames⟩ := shortenNames_ranks (s := s) hlists.ordered
  obtain ⟨hs', htree⟩ := hs.of_slots hrenames.slots
  have hrun : s.shortenNamesIn roots =
      .ok (s.shortenNames (Usages.ofOccurrences (Tree.usesAll (roots.map s.tree)))) := by
    rw [shortenNamesIn, hr.usages_eq]
    rfl
  exact ⟨_, _, hrun, hs', hr.of_trees hs hs' htree⟩

theorem Modules.print_eq_ok (hr : s.Modules roots) (hs : s.Consistent) (hn : n ∈ roots)
    (mode : Mode) : ∃ text, s.print mode n = .ok text := by
  obtain ⟨kids, h⟩ := hs
  exact ⟨_, Tree.print_eq (hr.shaped n hn) (by rw [h.kind_tree, hr.kind n hn])⟩

end Store

namespace Program

theorem mapM_print_eq_ok {s : Store} {roots : List NodeId} {mode : Mode}
    (h : ∀ n ∈ roots, ∃ text, s.print mode n = .ok text) :
    ∃ texts, roots.mapM (s.print mode) = .ok texts := by
  induction roots with
  | nil => exact ⟨[], rfl⟩
  | cons n roots ih =>
    rw [List.forall_mem_cons] at h
    obtain ⟨text, htext⟩ := h.1
    obtain ⟨texts, htexts⟩ := ih h.2
    refine ⟨text :: texts, ?_⟩
    rw [List.mapM_cons, htext, htexts]
    rfl

theorem build_eq (p : Program) (options : Options) :
    p.build options = ((if options.optimize then p.optimize else pure p) >>= fun p =>
      (if options.rename then p.shortenNames else pure p) >>= fun p => p.print options.mode) := by
  rw [build]
  cases options.optimize <;> cases options.rename <;> rfl

theorem build_eq_ok {p : Program} (hs : p.store.Consistent) (hr : p.store.Modules p.modules)
    (options : Options) : ∃ text, p.build options = .ok text := by
  obtain ⟨p₁, hoptimize, hs₁, hr₁⟩ : ∃ p₁ : Program,
      (if options.optimize then p.optimize else pure p) = .ok p₁ ∧ p₁.store.Consistent ∧
        p₁.store.Modules p₁.modules := by
    cases options.optimize with
    | true =>
      obtain ⟨s', hrun, hkeeps⟩ := hs.optimize_eq_ok hr p.known
      refine ⟨{ p with store := s' }, ?_, hkeeps.consistent, hkeeps.modules⟩
      rw [if_pos rfl, optimize, hrun]
      rfl
    | false => exact ⟨p, rfl, hs, hr⟩
  obtain ⟨p₂, hrename, hs₂, hr₂⟩ : ∃ p₂ : Program,
      (if options.rename then p₁.shortenNames else pure p₁) = .ok p₂ ∧ p₂.store.Consistent ∧
        p₂.store.Modules p₂.modules := by
    cases options.rename with
    | true =>
      obtain ⟨s', count, hrun, hs', hr'⟩ := hs₁.shortenNamesIn_eq_ok hr₁
      refine ⟨{ p₁ with store := s' }, ?_, hs', hr'⟩
      rw [if_pos rfl, shortenNames, hrun]
      rfl
    | false => exact ⟨p₁, rfl, hs₁, hr₁⟩
  obtain ⟨texts, hprint⟩ := mapM_print_eq_ok fun n hn => hr₂.print_eq_ok hs₂ hn options.mode
  refine ⟨String.join texts, ?_⟩
  rw [build_eq, hoptimize]
  show (if options.rename then p₁.shortenNames else pure p₁) >>= _ = _
  rw [hrename]
  show p₂.print options.mode = _
  rw [print, hprint]
  rfl

end Program

theorem compile_cases (files : List SourceFile) (options : Options) :
    (∃ text, compile files options = .ok text) ∨
      ∃ d, compile files options = .error (.defect d) := by
  rw [compile]
  cases hfiles : ofFiles files with
  | error d => exact .inr ⟨d, rfl⟩
  | ok p =>
    have hlowers := lowers_ofFiles hfiles
    obtain ⟨text, htext⟩ := build_eq_ok hlowers.verified.consistent
      hlowers.verified.modules options
    refine .inl ⟨text, ?_⟩
    simp only [htext]

/-- What the passes do to modules that verify: they succeed, and the modules verify again. -/
structure Store.Passes (s : Store) (roots : List NodeId) : Prop where
  inline : ∃ s' changed, s.inlineIn roots = .ok (s', changed) ∧ s'.Verified roots
  simplify : ∀ known, ∀ n ∈ roots, ∃ s' changed,
    s.simplify known n = .ok (s', changed) ∧ s'.Verified roots
  optimize : ∀ known, ∃ s', s.optimize known roots = .ok s' ∧ s'.Verified roots
  print : ∀ mode, ∀ n ∈ roots, ∃ text, s.print mode n = .ok text

theorem Store.Verified.passes {s : Store} {roots : List NodeId} (h : s.Verified roots) :
    s.Passes roots where
  inline := by
    obtain ⟨s', hrun, hkeeps, -⟩ := h.consistent.inlineIn_eq h.modules
    exact ⟨s', _, hrun, hkeeps.verified⟩
  simplify known n hn := by
    obtain ⟨s', hrun, hsimplified⟩ := h.consistent.simplify_module h.modules hn known
    exact ⟨s', _, hrun, hsimplified.toKeeps.verified⟩
  optimize known := by
    obtain ⟨s', hrun, hkeeps⟩ := h.consistent.optimize_eq_ok h.modules known
    exact ⟨s', hrun, hkeeps.verified⟩
  print mode n hn := h.modules.print_eq_ok h.consistent hn mode

def constantFlag : List SourceFile :=
  [⟨"env", true, .object [("type", .string "Program"), ("body", .array [])]⟩,
    ⟨"main", false, .object [("type", .string "Program"), ("body", .array
      [.object [("type", .string "VariableDeclaration"), ("kind", .string "var"),
        ("declarations", .array [.object [("type", .string "VariableDeclarator"),
          ("id", .object [("type", .string "Identifier"), ("name", .string "x")]),
          ("init", .object [("type", .string "Literal"), ("value", .bool true)])]])],
      .object [("type", .string "ExpressionStatement"), ("expression", .object
        [("type", .string "CallExpression"),
          ("callee", .object [("type", .string "Identifier"), ("name", .string "f")]),
          ("arguments", .array [.object [("type", .string "Identifier"),
            ("name", .string "x")]])])]])]⟩]

end ScriptPress

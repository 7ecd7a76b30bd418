import ScriptPress.Proofs.Estree.Labels
import ScriptPress.Proofs.Estree.Stray
import ScriptPress.Proofs.Program.Optional
import ScriptPress.Proofs.Simplify.Labels

/-! # Labels in programs from files -/

namespace ScriptPress

open List

open Tree (Fenced Confines)

def SourceFile.HasStray (file : SourceFile) : Prop :=
  ∃ es, file.statements = .ok es ∧ ∃ e ∈ es, e.Stray []

namespace Reading

variable {scope : Scope} {os : List Opened} {n n' : Names} {ts : List (Tree Unit)}

theorem ReadsFiles.fenced (h : ReadsFiles scope os n ts n') (hn : n.Sound)
    (hscope : scope.labelSymbols = []) : Fenced [] n.symbols.size n'.symbols.size ts := by
  induction h with
  | nil => exact .nil
  | @cons o os n cs m ts n' h hs ih =>
    have hcs := Element.readsAll_statements h
    obtain ⟨hm, hwithin⟩ := hcs.grows (fun h => h.grows) hn
    have hfenced := hcs.fenced hn (forall_mem_map.mpr fun e _ => hscope) id
      fun h hn => h.fenced hn
    have hmodule : Fenced [] n.symbols.size m.symbols.size [.plain .module cs] :=
      .node rfl (by simp [Kind.jumpsTo?]) hfenced
    exact hmodule.append (ih hm) hwithin.size_le (hs.grows hm).2.size_le

end Reading

namespace Tree

variable {α : Type} {x : SymbolId} {k : Kind}

theorem Confines.substitute (hk : k.isLiteral) (t : Tree α) :
    Confines [t] [t.substitute x k] := by
  refine .of_map (fun t => ?_) (fun t => ?_) t
  · rw [kind_substitute]
    split
    · rename_i hkind
      refine .inr ⟨by rw [hkind]; rfl, ?_⟩
      cases k <;> first | rfl | cases hk
    · exact .inl rfl
  · obtain ⟨m, kind, cs⟩ := t
    rw [substitute_node, children_node]
    exact List.Sublist.refl _

theorem Confines.undeclare (t : Tree α) : Confines [t] [t.undeclare x] := by
  refine .of_map (fun t => ?_) (fun t => ?_) t
  · rcases kind_undeclare_cases x t with hkind | ⟨hkind, hkind'⟩
    · exact .inl hkind
    · rw [hkind, hkind']
      exact .inr ⟨rfl, rfl⟩
  · obtain ⟨m, kind, cs⟩ := t
    by_cases hkind : kind = .varStatement
    · subst hkind
      rw [undeclare_varStatement]
      split
      · exact nil_sublist _
      · exact filter_sublist.map _
    · rw [undeclare_of_ne hkind, children_node]
      exact List.Sublist.refl _

theorem Confines.inlined (x : SymbolId) (ts : List (Tree α)) :
    Confines ts (Tree.inlined x ts).1 := by
  unfold Tree.inlined
  split
  · exact .refl ts
  · rename_i k hconstant
    have hk := (constant?_eq_some hconstant).1
    have hall : ∀ f : Tree α → Tree α, (∀ t, Confines [t] [f t]) → Confines ts (ts.map f) := by
      intro f hf
      have hmap : Confines (ts.map id) (ts.map f) := .mapAll fun t _ => hf t
      rwa [map_id] at hmap
    split
    · exact hall _ fun t => (Confines.substitute hk t).trans (.undeclare _)
    · exact hall _ fun t => .substitute hk t

theorem Confines.inlineEach (xs : List SymbolId) (ts : List (Tree α)) :
    Confines ts (Tree.inlineEach xs ts).1 := by
  induction xs generalizing ts with
  | nil => exact .refl ts
  | cons x xs ih => exact (Confines.inlined x ts).trans (ih _)

end Tree

namespace Store

variable {s s' : Store} {known : WellKnown} {roots : List NodeId}

theorem Pass.confines (h : Pass known roots s s') (hr : s.Modules roots) :
    Confines (roots.map s.tree) (roots.map s'.tree) := by
  cases h with
  | inline _ htrees =>
    rw [htrees]
    exact .inlineEach _ _
  | simplify _ htrees => exact .mapAll fun n hn => (htrees n hn).confines (hr.shaped n hn)

theorem confines_of_passes (h : Relation.ReflTransGen (Pass known roots) s s')
    (hr : s.Modules roots) : Confines (roots.map s.tree) (roots.map s'.tree) := by
  suffices hall : s'.Modules roots ∧ Confines (roots.map s.tree) (roots.map s'.tree) from hall.2
  induction h with
  | refl => exact ⟨hr, .refl _⟩
  | tail _ hpass ih => exact ⟨hpass.keeps.modules, ih.2.trans (hpass.confines ih.1)⟩

end Store

namespace Program

variable {files : List SourceFile} {p : Program}

/-- Every jump with a label stands inside that label in its own function, and no two labels have the
same symbol. -/
structure LabelsFit (p : Program) : Prop where
  inside : ∀ n ∈ p.modules, (p.store.tree n).JumpsInside
  distinct : (p.modules.flatMap fun n => (p.store.tree n).labels).Nodup

theorem labelsFit_of_enclosed
    (henclosed : ∀ t ∈ p.modules.map p.store.tree, t.Enclosed [])
    (hnodup : ((p.modules.map p.store.tree).flatMap Tree.labels).Nodup) : p.LabelsFit := by
  constructor
  · intro n hn
    exact (henclosed _ (mem_map_of_mem hn)).jumpsInside
  · rwa [flatMap_map] at hnodup

theorem enclosed_ofFiles (h : ofFiles files = .ok p) :
    (∀ t ∈ p.modules.map p.store.tree, t.Enclosed []) ∧
      ((p.modules.map p.store.tree).flatMap Tree.labels).Nodup := by
  obtain ⟨_, _, _, _, _, hmade⟩ := ofFiles_eq_ok h
  obtain ⟨hnames, hgrows⟩ := hmade.sound
  obtain ⟨henclosed, hnodup, -⟩ := hmade.read.fenced (hgrows hnames).1 rfl
  simp only [forall_mem_map, flatMap_map, Tree.bare, Tree.enclosed_map,
    Tree.labels_map] at henclosed hnodup ⊢
  exact ⟨henclosed, hnodup⟩

theorem not_hasStray_ofFiles (h : ofFiles files = .ok p) {file : SourceFile} (hfile : file ∈ files)
    (hcode : file.declaration = false) : ¬file.HasStray := by
  rintro ⟨es, hes, e, he, hstray⟩
  obtain ⟨_, _, _, _, _, hmade⟩ := ofFiles_eq_ok h
  obtain ⟨o, ho, hopens, hstatements⟩ := exists_of_forall₂
    (SourceFile.forall₂_filter hmade.opens).flip (mem_filter.mpr ⟨hfile, by rw [hcode]; rfl⟩)
  cases hes.symm.trans hstatements
  obtain ⟨t, -, _, cs, _, hrun, -⟩ := exists_of_forall₂ hmade.read.forall₂.flip ho
  obtain ⟨c, -, hclean⟩ := exists_of_forall₂
    (Element.forall₂_statements hrun fun h => h.clean).flip he
  exact hclean hstray

/-- The jumps of a program from files stand inside their labels, before and after optimization.
Files with code in which one does not are refused. -/
theorem ofFiles_labels (files : List SourceFile) : (∀ p, ofFiles files = .ok p → p.LabelsFit ∧
      ∃ p', p.optimize = .ok p' ∧ p'.modules = p.modules ∧ p'.LabelsFit) ∧
    ((∃ file ∈ files, file.declaration = false ∧ file.HasStray) →
      ∃ d, ofFiles files = .error d) := by
  constructor
  · intro p h
    obtain ⟨henclosed, hnodup⟩ := enclosed_ofFiles h
    have hverified := (lowers_ofFiles h).verified
    obtain ⟨s', hrun, -, hpasses⟩ :=
      hverified.consistent.optimize_passes hverified.modules p.known
    have hconfines := Store.confines_of_passes hpasses hverified.modules
    refine ⟨labelsFit_of_enclosed henclosed hnodup, { p with store := s' }, ?_, rfl, ?_⟩
    · rw [optimize, hrun]
      rfl
    · refine labelsFit_of_enclosed (hconfines.enclosed [] henclosed) ?_
      rw [nodup_iff_count_le_one] at hnodup ⊢
      exact fun s => Nat.le_trans (hconfines.labels s) (hnodup s)
  · rintro ⟨file, hfile, hcode, hstray⟩
    cases h : ofFiles files with
    | error d => exact ⟨d, rfl⟩
    | ok p => exact absurd hstray (not_hasStray_ofFiles h hfile hcode)

def nestedLabels : List SourceFile :=
  let label (body : Json) : Json :=
    .element "LabeledStatement" [("label", .name "a"), ("body", body)]
  let loop (body : Json) : Json :=
    .element "WhileStatement" [("test", .name "b"), ("body", body)]
  let jump (type : String) : Json := .element type [("label", .name "a")]
  [.ofStatements [label (loop (.block
    [.element "FunctionDeclaration" [("id", .name "f"), ("params", .array []),
      ("body", .block [label (loop (jump "BreakStatement"))])], jump "ContinueStatement"]))]]

def strayBreak : Json := .element "BreakStatement" [("label", .name "a")]

theorem hasStray_strayBreak (name : String) (declaration : Bool) :
    SourceFile.HasStray ⟨name, declaration,
      .element "Program" [("body", .array [strayBreak])]⟩ := by
  refine ⟨_, rfl, _, mem_singleton.mpr rfl, ?_⟩
  exact .jump (.inl rfl) ⟨.name "a", rfl, .inl rfl⟩ rfl (by simp)

theorem ofFiles_labels_nestedLabels : (∃ p, ofFiles nestedLabels = .ok p ∧
      (p.modules.flatMap fun n => (p.store.tree n).labels).length = 2 ∧ p.LabelsFit ∧
      ∃ p', p.optimize = .ok p' ∧ p'.modules = p.modules ∧ p'.LabelsFit) ∧
    ∃ d, ofFiles [.ofStatements [strayBreak]] = .error d := by
  constructor
  · obtain ⟨p, hp, hlabels⟩ := exists_of_any (ofFiles nestedLabels)
      (fun p => (p.modules.flatMap fun n => (p.store.tree n).labels).length = 2) (by decide +kernel)
    exact ⟨p, hp, hlabels, (ofFiles_labels nestedLabels).1 p hp⟩
  · refine (ofFiles_labels _).2 ⟨_, mem_singleton.mpr rfl, rfl, ?_⟩
    exact hasStray_strayBreak "main" false

theorem ofFiles_accepts_stray_declaration :
    ∃ file : SourceFile, file.HasStray ∧ ∃ p, ofFiles [file] = .ok p := by
  refine ⟨_, hasStray_strayBreak "types" true, ?_⟩
  obtain ⟨p, hp, -⟩ := exists_of_any (ofFiles [⟨"types", true, .element "Program"
    [("body", .array [strayBreak])]⟩]) (fun _ => True) (by decide +kernel)
  exact ⟨p, hp⟩

end Program

end ScriptPress

import ScriptPress.Proofs.Estree.Names
import ScriptPress.Proofs.Meaning.Core
import ScriptPress.Proofs.Store.Refinement
import ScriptPress.Proofs.Usage.Modules

/-! # Programs from files -/

namespace ScriptPress

open List

variable {files : List SourceFile}

theorem forall₂_comp {R : α → β → Prop} {S : β → γ → Prop} {T : α → γ → Prop} {as : List α}
    {bs : List β} {cs : List γ} (h : Forall₂ R as bs) (h' : Forall₂ S bs cs)
    (hT : ∀ a b c, R a b → S b c → T a c) : Forall₂ T as cs := by
  induction h generalizing cs with
  | nil =>
    cases h'
    exact .nil
  | cons hab _ ih =>
    cases h' with
    | cons hbc hrest => exact .cons (hT _ _ _ hab hbc) (ih hrest)

namespace Program

open Store (Added)

structure Grown (s : Store) (ts : List (Tree Unit)) (ns : List NodeId) (s' : Store) : Prop where
  consistent : s'.Consistent
  nodup : ns.Nodup
  fresh : ∀ n ∈ ns, ¬s.Has n
  roots : ∀ n ∈ ns, s'.parent? n = none
  trees : Forall₂ (fun t n => (s'.tree n).bare = t) ts ns
  size : s.size ≤ s'.size
  symbols : s'.symbols = s.symbols
  kept : ∀ y, s.Has y → s'.tree y = s.tree y ∧ s'.parent? y = s.parent? y

theorem growAll_cons (s : Store) (t : Tree Unit) (ts : List (Tree Unit)) :
    growAll s (t :: ts) = ((s.grow t).1 :: (growAll (s.grow t).2 ts).1,
      (growAll (s.grow t).2 ts).2) :=
  rfl

theorem grown_growAll (ts : List (Tree Unit)) {s : Store} (hs : s.Consistent) :
    Grown s ts (growAll s ts).1 (growAll s ts).2 := by
  induction ts generalizing s with
  | nil =>
    exact ⟨hs, nodup_nil, by simp [growAll], by simp [growAll], .nil, Nat.le_refl _,
      rfl, fun _ _ => ⟨rfl, rfl⟩⟩
  | cons t ts ih =>
    have hadd := hs.added t
    have hrest := ih hadd.consistent
    rw [growAll_cons]
    generalize (s.grow t).1 = n at hadd ⊢
    generalize (s.grow t).2 = s₁ at hadd hrest ⊢
    generalize (growAll s₁ ts).1 = ns at hrest ⊢
    generalize (growAll s₁ ts).2 = s' at hrest ⊢
    obtain ⟨kids₁, h₁⟩ := hadd.consistent
    obtain ⟨hn, hnew⟩ := (hadd.fresh n).mp (h₁.mem_preorder_self n)
    refine ⟨hrest.consistent, ?_, ?_, ?_, .cons ?_ hrest.trees,
      Nat.le_trans hadd.grown hrest.size, hrest.symbols.trans hadd.symbols, fun y hy => ?_⟩
    · exact nodup_cons.mpr ⟨fun hmem => hrest.fresh n hmem hn, hrest.nodup⟩
    · rw [forall_mem_cons]
      exact ⟨hnew, fun m hm hhas => hrest.fresh m hm (hhas.mono hadd.grown)⟩
    · rw [forall_mem_cons]
      exact ⟨(hrest.kept n hn).2.trans hadd.root, hrest.roots⟩
    · rw [(hrest.kept n hn).1, hadd.dump]
      exact Tree.bare_unit t
    · obtain ⟨htree, hparent⟩ := hrest.kept y (hy.mono hadd.grown)
      exact ⟨htree.trans (hadd.tree_eq hs hy), hparent.trans (hadd.kept y hy).2.1⟩

end Program

/-- The tree is a module with what the statements of the file are read into. -/
def SourceFile.Yields (file : SourceFile) (t : Tree Unit) : Prop :=
  ∃ elements scope names cs names', file.statements = .ok elements ∧
    (elements.mapM (Element.statement scope)).run names = .ok (cs, names') ∧ t = .plain .module cs

theorem SourceFile.Yields.wellShaped {file : SourceFile} {t : Tree Unit} (h : file.Yields t) :
    t.WellShaped := by
  obtain ⟨es, scope, names, cs, names', -, hrun, rfl⟩ := h
  refine (Tree.wellShaped_of_element rfl).mpr fun c hc => ?_
  obtain ⟨e, -, hfit⟩ := exists_of_forall₂ (Element.forall₂_statements hrun fun h => h.fit) hc
  exact hfit

def SourceFile.Opens (file : SourceFile) (o : Opened) : Prop :=
  o.1 = file ∧ file.statements = .ok o.2

theorem SourceFile.forall₂_filter {opened : List Opened}
    (h : Forall₂ SourceFile.Opens files opened) :
    Forall₂ SourceFile.Opens (files.filter (!·.declaration))
      (opened.filter (!·.1.declaration)) := by
  induction h with
  | nil => exact .nil
  | @cons file o files opened ho _ ih =>
    rw [filter_cons, filter_cons, ho.1]
    split
    · exact .cons ho ih
    · exact ih

namespace Reading

theorem opens_of_run {opened : List Opened} {n n' : Names}
    (h : (files.mapM fun file => (do return (file, ← file.statements) : Reading Opened)).run n =
      .ok (opened, n')) : Forall₂ SourceFile.Opens files opened ∧ n = n' := by
  induction files generalizing n opened with
  | nil =>
    cases h
    exact ⟨.nil, rfl⟩
  | cons file files ih =>
    simp only [mapM_cons, run_bind_eq_ok, run_pure_eq_ok, run_lift_eq_ok] at h
    obtain ⟨_, _, ⟨es, _, ⟨hes, rfl⟩, rfl, rfl⟩, rest, _, hrest, rfl, rfl⟩ := h
    obtain ⟨hopens, rfl⟩ := ih hrest
    exact ⟨.cons ⟨rfl, hes⟩ hopens, rfl⟩

inductive ReadsFiles (scope : Scope) : List Opened → Names → List (Tree Unit) → Names → Prop
  | nil {n} : ReadsFiles scope [] n [] n
  | cons {o os n cs m ts n'} (h : (o.2.mapM (Element.statement scope)).run n = .ok (cs, m))
      (hs : ReadsFiles scope os m ts n') : ReadsFiles scope (o :: os) n (.plain .module cs :: ts) n'

variable {scope : Scope} {os : List Opened} {n n' : Names} {ts : List (Tree Unit)}

theorem readsFiles_of_run
    (h : (os.mapM fun o => (do return .plain .module (← o.2.mapM (Element.statement scope)) :
      Reading (Tree Unit))).run n = .ok (ts, n')) : ReadsFiles scope os n ts n' := by
  induction os generalizing n ts with
  | nil =>
    cases h
    exact .nil
  | cons o os ih =>
    simp only [mapM_cons, run_bind_eq_ok, run_pure_eq_ok] at h
    obtain ⟨_, m, ⟨cs, _, hcs, rfl, rfl⟩, ts, _, hts, rfl, rfl⟩ := h
    exact .cons hcs (ih hts)

theorem ReadsFiles.forall₂ (h : ReadsFiles scope os n ts n') :
    Forall₂ (fun o t => ∃ names cs names',
      (o.2.mapM (Element.statement scope)).run names = .ok (cs, names') ∧ t = .plain .module cs)
      os ts := by
  induction h with
  | nil => exact .nil
  | cons h _ ih => exact .cons ⟨_, _, _, h, rfl⟩ ih

end Reading

namespace Program

structure Made (files : List SourceFile) (p : Program) (opened : List Opened) (frame : Frame)
    (names names' names'' : Names) : Prop where
  known : Reading.wellKnown.run ⟨#[], [], []⟩ = .ok (p.known, names)
  opens : Forall₂ SourceFile.Opens files opened
  topLevel : (Reading.topLevel [] opened).run names = .ok (frame, names')
  read : Reading.ReadsFiles ⟨p.known, [frame], []⟩ (opened.filter (!·.1.declaration)) names'
    (p.modules.map fun n => (p.store.tree n).bare) names''
  grown : Grown ⟨#[], names''.symbols⟩ (p.modules.map fun n => (p.store.tree n).bare) p.modules
    p.store

theorem ofFiles_eq_ok {p : Program} (h : ofFiles files = .ok p) :
    ∃ opened frame names names' names'', Made files p opened frame names names' names'' := by
  unfold ofFiles at h
  obtain ⟨⟨⟨known, ts⟩, names''⟩, hrun, h⟩ := exists_of_bind_eq_ok h
  cases h
  simp only [Reading.modules, Reading.run_bind_eq_ok, Reading.run_pure_eq_ok] at hrun
  obtain ⟨known, names, hknown, ts, names'', hmodules, hr, rfl⟩ := hrun
  obtain ⟨opened, _, hopened, frame, names', htop, hts⟩ := hmodules
  cases hr
  obtain ⟨hopens, rfl⟩ := Reading.opens_of_run hopened
  have hempty : Store.Consistent ⟨#[], names''.symbols⟩ :=
    ⟨_, Store.Links.empty.congr rfl rfl rfl rfl rfl (Nat.le_refl _)⟩
  have hgrown := grown_growAll ts hempty
  generalize growAll ⟨#[], names''.symbols⟩ ts = r at hgrown ⊢
  obtain rfl : ts = r.1.map fun n => (r.2.tree n).bare := by
    rw [← forall₂_eq_eq_eq, forall₂_map_right_iff]
    exact hgrown.trees.imp fun t n hn => hn.symm
  exact ⟨opened, frame, names, names', names'', hknown, hopens, htop,
    Reading.readsFiles_of_run hts, hgrown⟩

/-- The program has one module for each file with code, in order, and all is well with them. -/
structure Lowers (files : List SourceFile) (p : Program) : Prop where
  verified : p.store.Verified p.modules
  detached : ∀ n ∈ p.modules, p.store.parent? n = none
  modules : Forall₂ (fun file n => file.Yields (p.store.tree n).bare)
    (files.filter (!·.declaration)) p.modules

theorem lowers_ofFiles {p : Program} (h : ofFiles files = .ok p) : Lowers files p := by
  obtain ⟨opened, frame, _, _, _, hmade⟩ := ofFiles_eq_ok h
  obtain ⟨kids, hlinks⟩ := hmade.grown.consistent
  have hmodules : Forall₂ (fun file n => file.Yields (p.store.tree n).bare)
      (files.filter (!·.declaration)) p.modules := by
    rw [← forall₂_map_right_iff (f := fun n => (p.store.tree n).bare)]
    refine forall₂_comp (SourceFile.forall₂_filter hmade.opens) hmade.read.forall₂ ?_
    rintro file o t ⟨-, hopens⟩ ⟨names, cs, names', hrun, ht⟩
    exact ⟨o.2, _, names, cs, names', hopens, hrun, ht⟩
  refine ⟨⟨hmade.grown.consistent, hmade.grown.nodup, fun n hn => ?_, fun n hn => ?_⟩,
    hmade.grown.roots, hmodules⟩
  · obtain ⟨file, -, _, _, _, _, _, -, -, htree⟩ := exists_of_forall₂ hmodules hn
    have hkind := congrArg Tree.kind htree
    rwa [Tree.bare, Tree.kind_map, hlinks.kind_tree] at hkind
  · obtain ⟨file, -, hyields⟩ := exists_of_forall₂ hmodules hn
    have hshaped := hyields.wellShaped
    rw [Tree.bare, Tree.wellShaped_map] at hshaped
    exact hlinks.verify_eq_ok.mpr hshaped

end Program

end ScriptPress

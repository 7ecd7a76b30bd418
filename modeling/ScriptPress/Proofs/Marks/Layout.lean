import ScriptPress.Proofs.Marks.Print
import ScriptPress.Proofs.Marks.Simplify
import ScriptPress.Proofs.Marks.Usage
import ScriptPress.Proofs.Program.Total

/-! # Passes do not see how a store is laid out -/

namespace ScriptPress

open List

namespace Tree

variable {α β : Type}

theorem exists_position_of_mem_usesAll {ts : List (Tree α)} {o : Occurrence α}
    (hts : ∀ t ∈ ts, t.WellShaped) (h : o ∈ usesAll ts) :
    ∃ (i : Nat) (path : List Nat) (t u : Tree α),
      ts[i]? = some t ∧ t.below? path = some u ∧ u.mark = o.mark := by
  rw [usesAll_eq, mem_flatMap] at h
  obtain ⟨t, ht, ho⟩ := h
  obtain ⟨u, hu, hmark, -⟩ := node_of_mem_uses (hts t ht) ho
  obtain ⟨i, hi⟩ := mem_iff_getElem?.mp ht
  obtain ⟨path, hpath⟩ := exists_below?_of_mem_subtrees hu
  exact ⟨i, path, t, u, hi, hpath, hmark⟩

theorem simplified_congr (known : WellKnown) {t : Tree α} {u : Tree β} (h : t.bare = u.bare) :
    t.simplified known = u.simplified known := by
  have hsame := simplify_congr known h
  rw [simplified, simplified]
  rcases ht : t.simplify known with e | ⟨t', trace⟩ <;>
    rcases hu : u.simplify known with e' | ⟨u', trace'⟩ <;> rw [ht, hu] at hsame
  · rw [h]
  · cases hsame
  · cases hsame
  · simp only [Except.map, Except.ok.injEq, Prod.mk.injEq] at hsame
    simp only [hsame.1, hsame.2]

end Tree

namespace Store

variable {s s' : Store} {roots roots' : List NodeId} {i : Nat} {n n' : NodeId}

/-- Verified modules of two stores with the same symbols, equal in pairs but for the nodes that
they are made of. -/
structure SameModules (s : Store) (roots : List NodeId) (s' : Store) (roots' : List NodeId) :
    Prop where
  verified : s.Verified roots
  verified' : s'.Verified roots'
  symbols : s'.symbols = s.symbols
  trees : Forall₂ (fun n n' => (s.tree n).bare = (s'.tree n').bare) roots roots'

def nodeAt? (s : Store) (roots : List NodeId) (i : Nat) (path : List Nat) : Option NodeId :=
  roots[i]?.bind fun n => ((s.tree n).below? path).map Tree.mark

def SamePosition (s : Store) (roots : List NodeId) (s' : Store) (roots' : List NodeId)
    (n n' : NodeId) : Prop :=
  ∃ i path, s.nodeAt? roots i path = some n ∧ s'.nodeAt? roots' i path = some n'

/-- The usages of one symbol, read and written at the same positions in the same order. -/
structure SameUsage (s : Store) (roots : List NodeId) (s' : Store) (roots' : List NodeId)
    (e e' : SymbolId × Usage NodeId) : Prop where
  symbol : e.1 = e'.1
  reads : Forall₂ (SamePosition s roots s' roots') e.2.reads e'.2.reads
  writes : Forall₂ (SamePosition s roots s' roots') e.2.writes e'.2.writes

/-- All passes give the same answers in two stores, and leave the same modules in them. -/
structure PassesAgree (s : Store) (roots : List NodeId) (s' : Store) (roots' : List NodeId) :
    Prop where
  simplify : ∀ known (i : Nat) n n', roots[i]? = some n → roots'[i]? = some n' →
    ∃ changed s₁ s₁', s.simplify known n = .ok (s₁, changed) ∧
      s'.simplify known n' = .ok (s₁', changed) ∧ SameModules s₁ roots s₁' roots'
  simplifyAll : ∀ known, ∃ flags s₁ s₁', s.simplifyAll known roots = .ok (s₁, flags) ∧
    s'.simplifyAll known roots' = .ok (s₁', flags) ∧ SameModules s₁ roots s₁' roots'
  inline : ∃ us us', s.usages roots = .ok us ∧ s'.usages roots' = .ok us' ∧
    Forall₂ (SameUsage s roots s' roots') us us' ∧
    ∃ changed s₁ s₁', s.inlineConstants us = .ok (s₁, changed) ∧
      s'.inlineConstants us' = .ok (s₁', changed) ∧ SameModules s₁ roots s₁' roots'
  print : ∀ mode (i : Nat) n n', roots[i]? = some n → roots'[i]? = some n' →
    ∃ text, s.print mode n = .ok text ∧ s'.print mode n' = .ok text

namespace SameModules

variable (h : SameModules s roots s' roots')

include h

theorem map_bare : (roots.map s.tree).map Tree.bare = (roots'.map s'.tree).map Tree.bare := by
  rw [← forall₂_eq_eq_eq, map_map, map_map, forall₂_map_left_iff, forall₂_map_right_iff]
  exact h.trees

theorem bare_eq (hn : roots[i]? = some n) (hn' : roots'[i]? = some n') :
    (s.tree n).bare = (s'.tree n').bare := by
  have hi := congrArg (·[i]?) h.map_bare
  simpa [getElem?_map, hn, hn'] using hi

theorem keeps {s₁ s₁' : Store} (hs : Keeps s roots s₁) (hs' : Keeps s' roots' s₁')
    (htrees : Forall₂ (fun n n' => (s₁.tree n).bare = (s₁'.tree n').bare) roots roots') :
    SameModules s₁ roots s₁' roots' :=
  ⟨hs.verified, hs'.verified, by rw [hs.symbols, hs'.symbols, h.symbols], htrees⟩

theorem simplify_eq (known : WellKnown) (hn : roots[i]? = some n) (hn' : roots'[i]? = some n') :
    ∃ changed s₁ s₁', s.simplify known n = .ok (s₁, changed) ∧
      s'.simplify known n' = .ok (s₁', changed) ∧ SameModules s₁ roots s₁' roots' := by
  obtain ⟨s₁, hrun, h₁⟩ := h.verified.consistent.simplify_module h.verified.modules
    (mem_of_getElem? hn) known
  obtain ⟨s₁', hrun', h₁'⟩ := h.verified'.consistent.simplify_module h.verified'.modules
    (mem_of_getElem? hn') known
  have hsame := Tree.simplified_congr known (h.bare_eq hn hn')
  rw [← hsame] at hrun'
  refine ⟨_, s₁, s₁', hrun, hrun', h.keeps h₁.toKeeps h₁'.toKeeps ?_⟩
  obtain ⟨hlength, htrees⟩ := forall₂_iff_get.mp h.trees
  refine forall₂_iff_get.mpr ⟨hlength, fun j hj hj' => ?_⟩
  have hm := getElem?_eq_getElem hj
  have hm' := getElem?_eq_getElem hj'
  rw [get_eq_getElem, get_eq_getElem]
  -- The module at position `i` is the one that was simplified in both stores.
  by_cases hij : j = i
  · subst hij
    rw [hn, Option.some.injEq] at hm
    rw [hn', Option.some.injEq] at hm'
    rw [← hm, ← hm', h₁.tree, h₁'.tree, hsame]
  · have hne : roots[j] ≠ n := fun heq =>
      hij ((getElem?_inj hj h.verified.nodup).mp (by rw [hm, hn, heq]))
    have hne' : roots'[j] ≠ n' := fun heq =>
      hij ((getElem?_inj hj' h.verified'.nodup).mp (by rw [hm', hn', heq]))
    rw [h₁.others _ (getElem_mem hj) hne, h₁'.others _ (getElem_mem hj') hne']
    exact htrees j hj hj'

theorem simplifyAll_eq (known : WellKnown) :
    ∃ flags s₁ s₁', s.simplifyAll known roots = .ok (s₁, flags) ∧
      s'.simplifyAll known roots' = .ok (s₁', flags) ∧ SameModules s₁ roots s₁' roots' := by
  obtain ⟨s₁, hrun, h₁, -, htrees⟩ := h.verified.consistent.simplifyAll_eq h.verified.modules
    (Subset.refl roots) h.verified.nodup known
  obtain ⟨s₁', hrun', h₁', -, htrees'⟩ := h.verified'.consistent.simplifyAll_eq
    h.verified'.modules (Subset.refl roots') h.verified'.nodup known
  have hsame : Forall₂ (fun n n' =>
      (s.tree n).simplified known = (s'.tree n').simplified known) roots roots' :=
    h.trees.imp fun _ _ => Tree.simplified_congr known
  have hflags : roots.map (fun n => ((s.tree n).simplified known).2) =
      roots'.map fun n => ((s'.tree n).simplified known).2 := by
    rw [← forall₂_eq_eq_eq, forall₂_map_left_iff, forall₂_map_right_iff]
    exact hsame.imp fun _ _ heq => congrArg Prod.snd heq
  rw [← hflags] at hrun'
  refine ⟨_, s₁, s₁', hrun, hrun', h.keeps h₁ h₁' ?_⟩
  obtain ⟨hlength, hget⟩ := forall₂_iff_get.mp hsame
  refine forall₂_iff_get.mpr ⟨hlength, fun j hj hj' => ?_⟩
  rw [(htrees _ (get_mem roots _)).1, (htrees' _ (get_mem roots' _)).1, hget j hj hj']

theorem exists_pairs : ∃ ws : List (Tree (NodeId × NodeId)),
    ws.map (Tree.map Prod.fst) = roots.map s.tree ∧
      ws.map (Tree.map Prod.snd) = roots'.map s'.tree :=
  Tree.exists_zipAll h.map_bare fun t _ u => Tree.exists_zip t u

omit h in
theorem nodeAt?_of_map {β : Type} {f : β → NodeId} {ws : List (Tree β)}
    (hws : ws.map (Tree.map f) = roots.map s.tree) {path : List Nat} {w u : Tree β}
    (hw : ws[i]? = some w) (hu : w.below? path = some u) :
    s.nodeAt? roots i path = some (f u.mark) := by
  have hi : (roots.map s.tree)[i]? = some (w.map f) := by rw [← hws, getElem?_map, hw]; rfl
  rw [getElem?_map, Option.map_eq_some_iff] at hi
  obtain ⟨n, hn, htree⟩ := hi
  rw [nodeAt?, hn, Option.bind_some, htree, Tree.below?_map, hu, Option.map_some, Option.map_some,
    Tree.mark_map]

theorem usages_eq : ∃ us us', s.usages roots = .ok us ∧ s'.usages roots' = .ok us' ∧
    Forall₂ (SameUsage s roots s' roots') us us' := by
  obtain ⟨ws, hws, hws'⟩ := h.exists_pairs
  have hshaped : ∀ w ∈ ws, w.WellShaped := by
    have hs := forall_mem_map.mpr h.verified.modules.shaped
    rw [← hws, forall_mem_map] at hs
    exact fun w hw => Tree.wellShaped_map.mp (hs w hw)
  refine ⟨_, _, h.verified.modules.usages_eq, h.verified'.modules.usages_eq, ?_⟩
  -- Both scans are halves of the scan of the pairs, and a pair has one position.
  rw [← hws, ← hws', Tree.usesAll_map, Tree.usesAll_map, Usages.ofOccurrences_map,
    Usages.ofOccurrences_map, forall₂_map_left_iff, forall₂_map_right_iff, forall₂_same]
  rintro ⟨x, u⟩ hu
  obtain ⟨-, rfl⟩ := ((Usages.lists_ofOccurrences _).mem x u).mp hu
  have hmarks : ∀ a, Forall₂ (SamePosition s roots s' roots')
      ((Usages.marksOf (Tree.usesAll ws) x a).map Prod.fst)
      ((Usages.marksOf (Tree.usesAll ws) x a).map Prod.snd) := by
    intro a
    rw [forall₂_map_left_iff, forall₂_map_right_iff, forall₂_same]
    intro p hp
    obtain ⟨i, path, w, v, hw, hv, rfl⟩ :=
      Tree.exists_position_of_mem_usesAll hshaped (Usages.mem_marksOf.mp hp)
    exact ⟨i, path, nodeAt?_of_map hws hw hv, nodeAt?_of_map hws' hw hv⟩
  exact ⟨rfl, hmarks .read, hmarks .write⟩

theorem inlineIn_eq : ∃ changed s₁ s₁', s.inlineIn roots = .ok (s₁, changed) ∧
    s'.inlineIn roots' = .ok (s₁', changed) ∧ SameModules s₁ roots s₁' roots' := by
  obtain ⟨s₁, hrun, h₁, htrees⟩ := h.verified.consistent.inlineIn_eq h.verified.modules
  obtain ⟨s₁', hrun', h₁', htrees'⟩ := h.verified'.consistent.inlineIn_eq h.verified'.modules
  obtain ⟨hbare, hflag⟩ := Tree.inlineAll_congr h.map_bare
  rw [← hflag] at hrun'
  refine ⟨_, s₁, s₁', hrun, hrun', h.keeps h₁ h₁' ?_⟩
  rw [← htrees, ← htrees', map_map, map_map, ← forall₂_eq_eq_eq,
    forall₂_map_left_iff, forall₂_map_right_iff] at hbare
  exact hbare

theorem print_eq (mode : Mode) (hn : roots[i]? = some n) (hn' : roots'[i]? = some n') :
    ∃ text, s.print mode n = .ok text ∧ s'.print mode n' = .ok text := by
  have hmem := mem_of_getElem? hn
  have hmodules := h.verified.modules
  obtain ⟨text, htext⟩ := hmodules.print_eq_ok h.verified.consistent hmem mode
  obtain ⟨kids, hlinks⟩ := h.verified.consistent
  have hname : s'.symbolName = s.symbolName := by
    funext x
    rw [symbolName, h.symbols, symbolName]
  refine ⟨text, htext, ?_⟩
  rw [Store.print, hname, ← Tree.print_congr (h.bare_eq hn hn') (hmodules.shaped n hmem)
    (by rw [hlinks.kind_tree, hmodules.kind n hmem])]
  exact htext

end SameModules

def constantModule : Tree Unit :=
  .node () .module [.node () .varStatement [.node () (.variable ⟨1⟩) [.node () (.number 1) []]]]

def callModule : Tree Unit :=
  .node () .module [.node () .expression [.node () (.boolean true) []], .node () .expression
      [.node () .call [.node () (.identifier ⟨0⟩) [], .node () (.identifier ⟨1⟩) []]]]

def blankStore : Store := { Store.empty with symbols := #[⟨"f", true⟩, ⟨"x", false⟩] }

def tidyStore : Store := ((blankStore.grow constantModule).2.grow callModule).2

def litteredStore : Store :=
  (((blankStore.grow (.node () .empty [])).2.grow callModule).2.grow constantModule).2

end Store

end ScriptPress

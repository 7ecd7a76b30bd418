import ScriptPress.Proofs.Marks.Tree
import ScriptPress.Proofs.Usage.Constant

/-! # Scanning, inlining and marks -/

namespace ScriptPress

open List

variable {α β : Type} (f : α → β) (x : SymbolId) (ts : List (Tree α)) (t : Tree α)
  (os : List (Occurrence α))

def Occurrence.map (o : Occurrence α) : Occurrence β := ⟨o.symbol, o.access, f o.mark⟩

def Usage.map (u : Usage α) : Usage β := ⟨u.reads.map f, u.writes.map f⟩

namespace Usages

theorem single_map (o : Occurrence α) : single (o.map f) = (single o).map f := by
  obtain ⟨x, a, m⟩ := o
  cases a <;> rfl

theorem merge_map (u v : Usage α) : merge (u.map f) (v.map f) = (merge u v).map f := by
  simp only [merge, Usage.map, map_append]

theorem record_map (o : Occurrence α) (us : Usages α) :
    record (o.map f) (us.map (Prod.map id (Usage.map f))) =
      (record o us).map (Prod.map id (Usage.map f)) := by
  induction us with
  | nil =>
    rw [map_nil, record, record, single_map]
    rfl
  | cons e us ih =>
    obtain ⟨x, u⟩ := e
    rw [map_cons, Prod.map_apply, id, record, record, single_map, merge_map, ih]
    show (if o.symbol.index < x.index then _ else if o.symbol = x then _ else _) = _
    split
    · rfl
    · split <;> rfl

theorem ofOccurrences_map : ofOccurrences (os.map (Occurrence.map f)) =
      (ofOccurrences os).map (Prod.map id (Usage.map f)) := by
  have hfold : ∀ us : Usages α, (os.map (Occurrence.map f)).foldl (fun us o => record o us)
        (us.map (Prod.map id (Usage.map f))) =
        (os.foldl (fun us o => record o us) us).map (Prod.map id (Usage.map f)) := by
    induction os with
    | nil => exact fun _ => rfl
    | cons o os ih =>
      intro us
      rw [map_cons, foldl_cons, foldl_cons, record_map, ih]
  exact hfold []

theorem marksOf_map (x : SymbolId) (a : Access) :
    marksOf (os.map (Occurrence.map f)) x a = (marksOf os x a).map f := by
  rw [marksOf, marksOf, filter_map, map_map, map_map]
  rfl

end Usages

namespace Tree

theorem uses_map (target : Bool) :
    (t.map f).uses target = (t.uses target).map (Occurrence.map f) := by
  induction t generalizing target with
  | node m k cs ih =>
    have hall : usesAll (cs.map (map f)) = (usesAll cs).map (Occurrence.map f) := by
      rw [usesAll_eq, usesAll_eq, flatMap_map, map_flatMap]
      exact flatMap_congr fun c hc => ih c hc false
    rw [map_node, uses.eq_def, uses.eq_def]
    cases k with
    | member s =>
      rcases cs with _ | ⟨o, _ | ⟨p, cs⟩⟩
      · exact hall
      · simp only [map_cons, map_nil, ih o mem_cons_self]
        cases target with
        | false => rfl
        | true => simp only [if_true, map_append]; rfl
      · exact hall
    | unary op =>
      rcases cs with _ | ⟨x, _ | ⟨y, cs⟩⟩
      · exact hall
      · exact ih x (.head _) op.isAssign
      · exact hall
    | assign op =>
      rcases cs with _ | ⟨x, _ | ⟨y, _ | ⟨z, cs⟩⟩⟩
      · exact hall
      · exact hall
      · simp only [map_cons, map_nil, ih x mem_cons_self, ih y (by simp), map_append]
      · exact hall
    | forIn =>
      rcases cs with _ | ⟨x, _ | ⟨y, _ | ⟨z, _ | ⟨w, cs⟩⟩⟩⟩
      · exact hall
      · exact hall
      · exact hall
      · simp only [map_cons, map_nil, ih x mem_cons_self, ih y (by simp),
          ih z (by simp), map_append]
      · exact hall
    | «break» l | «continue» l =>
      cases l with
      | none => exact hall
      | some s => rfl
    | identifier s => rfl
    | function s | label s | property s | «variable» s | «catch» s =>
      simp only [hall, map_cons]
      rfl
    | _ => exact hall

theorem usesAll_map : usesAll (ts.map (map f)) = (usesAll ts).map (Occurrence.map f) := by
  rw [usesAll_eq, usesAll_eq, flatMap_map, map_flatMap]
  exact flatMap_congr fun t _ => uses_map f t false

theorem substitute_map (k : Kind) (t : Tree α) :
    (t.map f).substitute x k = (t.substitute x k).map f := by
  induction t with
  | node m kind cs ih =>
    rw [map_node, substitute_node, substitute_node, map_node, List.map_map, List.map_map]
    congr 1
    exact map_congr_left ih

theorem undeclare_map : (t.map f).undeclare x = (t.undeclare x).map f := by
  induction t with
  | node m kind cs ih =>
    have hmap : ∀ ds ⊆ cs,
        (ds.map (map f)).map (undeclare x) = (ds.map (undeclare x)).map (map f) := by
      intro ds hds
      rw [List.map_map, List.map_map]
      exact map_congr_left fun c hc => ih c (hds hc)
    rw [map_node]
    by_cases hkind : kind = .varStatement
    · subst hkind
      have hothers : others x (cs.map (map f)) = (others x cs).map (map f) := by
        rw [others, others, filter_map]
        simp only [Function.comp_def, kind_map]
      rw [undeclare_varStatement, undeclare_varStatement, hothers]
      simp only [map_eq_nil_iff, ne_eq]
      split
      · rw [map_node, map_nil]
      · rw [map_node, hmap (others x cs) (filter_subset_self cs)]
    · rw [undeclare_of_ne hkind, undeclare_of_ne hkind, map_node, hmap cs (Subset.refl cs)]

theorem subtreesAll_map : subtreesAll (ts.map (map f)) = (subtreesAll ts).map (map f) := by
  have hall : ∀ cs : List (Tree α), (∀ c ∈ cs, (c.map f).subtrees = c.subtrees.map (map f)) →
      subtreesAll (cs.map (map f)) = (subtreesAll cs).map (map f) := by
    intro cs hcs
    induction cs with
    | nil => rfl
    | cons c cs ih =>
      rw [map_cons, subtreesAll, subtreesAll, hcs c mem_cons_self,
        ih fun d hd => hcs d (.tail _ hd), map_append]
  have htree : ∀ t : Tree α, (t.map f).subtrees = t.subtrees.map (map f) := by
    intro t
    induction t with
    | node m k cs ih => rw [map_node, subtrees, subtrees, hall cs ih, map_cons, map_node]
  exact hall ts fun t _ => htree t

theorem declarations_map : declarations x (ts.map (map f)) = (declarations x ts).map (map f) := by
  rw [declarations, declarations, subtreesAll_map, flatMap_map, map_flatMap]
  refine flatMap_congr fun u _ => ?_
  rw [kind_map, children_map]
  split
  · rw [filter_map]
    simp only [Function.comp_def, kind_map]
  · rfl

theorem constant?_map : constant? x (ts.map (map f)) = constant? x ts := by
  rw [constant?, constant?, usesAll_map, Usages.marksOf_map, length_map, declarations_map,
    head?_map]
  cases (declarations x ts).head? with
  | none => rfl
  | some d =>
    simp only [Option.map_some, Option.bind_some, children_map, head?_map, Option.map_map]
    simp only [Function.comp_def, kind_map]

theorem onlyNamed_map : onlyNamed x (ts.map (map f)) = onlyNamed x ts := by
  rw [onlyNamed, onlyNamed, subtreesAll_map, all_map]
  simp only [Function.comp_def, kind_map]

theorem inlined_map :
    inlined x (ts.map (map f)) = ((inlined x ts).1.map (map f), (inlined x ts).2) := by
  rw [inlined, inlined, constant?_map, onlyNamed_map]
  cases constant? x ts with
  | none => rfl
  | some k =>
    dsimp only
    split
    · rw [List.map_map, List.map_map]
      simp only [Function.comp_def, substitute_map, undeclare_map]
    · rw [List.map_map, List.map_map, subtreesAll_map, List.any_map]
      simp only [Function.comp_def, substitute_map, kind_map]

theorem inlineEach_map (xs : List SymbolId) (ts : List (Tree α)) :
    inlineEach xs (ts.map (map f)) = ((inlineEach xs ts).1.map (map f), (inlineEach xs ts).2) := by
  induction xs generalizing ts with
  | nil => rfl
  | cons x xs ih => rw [inlineEach, inlineEach, inlined_map, ih]

theorem inlineAll_map :
    inlineAll (ts.map (map f)) = ((inlineAll ts).1.map (map f), (inlineAll ts).2) := by
  have hsymbols : ∀ us : Usages α,
      (us.map (Prod.map id (Usage.map f))).map Prod.fst = us.map Prod.fst := by
    intro us
    rw [List.map_map]
    rfl
  rw [inlineAll, inlineAll, usesAll_map, Usages.ofOccurrences_map, hsymbols, inlineEach_map]

theorem inlineAll_congr {ts : List (Tree α)} {us : List (Tree β)}
    (h : ts.map bare = us.map bare) : (inlineAll ts).1.map bare = (inlineAll us).1.map bare ∧
      (inlineAll ts).2 = (inlineAll us).2 := by
  have hts := inlineAll_map (fun _ : α => ()) ts
  have hus := inlineAll_map (fun _ : β => ()) us
  have heq := hts.symm.trans ((congrArg inlineAll h).trans hus)
  exact ⟨congrArg Prod.fst heq, congrArg Prod.snd heq⟩

/-- The tree at a position, which is reached by choosing a child again and again. -/
def below? : Tree α → List Nat → Option (Tree α)
  | t, [] => some t
  | t, i :: path => t.children[i]?.bind fun c => c.below? path

theorem below?_map (path : List Nat) : (t.map f).below? path = (t.below? path).map (map f) := by
  induction path generalizing t with
  | nil => rfl
  | cons i path ih =>
    rw [below?, below?, children_map, getElem?_map]
    cases t.children[i]? with
    | none => rfl
    | some c => exact ih c

theorem exists_below?_of_mem_subtrees {t u : Tree α} (h : u ∈ t.subtrees) :
    ∃ path, t.below? path = some u := by
  induction t with
  | node m k cs ih =>
    rcases mem_subtrees_node.mp h with rfl | ⟨c, hc, hu⟩
    · exact ⟨[], rfl⟩
    · obtain ⟨path, hpath⟩ := ih c hc hu
      obtain ⟨i, hi⟩ := mem_iff_getElem?.mp hc
      refine ⟨i :: path, ?_⟩
      rw [below?, children_node, hi, Option.bind_some, hpath]

theorem exists_zipAll {cs : List (Tree α)} {ds : List (Tree β)} (hcs : cs.map bare = ds.map bare)
    (h : ∀ c ∈ cs, ∀ d : Tree β, c.bare = d.bare →
      ∃ w : Tree (α × β), w.map Prod.fst = c ∧ w.map Prod.snd = d) :
    ∃ ws : List (Tree (α × β)), ws.map (map Prod.fst) = cs ∧ ws.map (map Prod.snd) = ds := by
  induction cs generalizing ds with
  | nil =>
    obtain rfl := map_eq_nil_iff.mp hcs.symm
    exact ⟨[], rfl, rfl⟩
  | cons c cs ih =>
    cases ds with
    | nil => cases hcs
    | cons d ds =>
      rw [map_cons, map_cons, cons.injEq] at hcs
      obtain ⟨w, rfl, rfl⟩ := h c (.head _) d hcs.1
      obtain ⟨ws, rfl, rfl⟩ := ih hcs.2 fun e he => h e (.tail _ he)
      exact ⟨w :: ws, rfl, rfl⟩

theorem exists_zip (u : Tree β) (h : t.bare = u.bare) :
    ∃ w : Tree (α × β), w.map Prod.fst = t ∧ w.map Prod.snd = u := by
  induction t generalizing u with
  | node m k cs ih =>
    obtain ⟨m', k', ds⟩ := u
    rw [bare_node, bare_node, node.injEq] at h
    obtain ⟨-, rfl, hcs⟩ := h
    obtain ⟨ws, rfl, rfl⟩ := exists_zipAll hcs ih
    exact ⟨node (m, m') k ws, map_node _ _ _ _, map_node _ _ _ _⟩

end Tree

end ScriptPress

import ScriptPress.Proofs.Program.Scope
import ScriptPress.Proofs.Simplify.Modules
import ScriptPress.Proofs.Simplify.Optional

/-! # What optimization leaves out -/

namespace ScriptPress

open List

namespace Tree

variable {α : Type} {x : SymbolId} {k : Kind} {p : Kind → Prop} {ts : List (Tree α)}
  {f : Tree α → Tree α} {t : Tree α}

structure Thins (f : Tree α → Tree α) : Prop where
  mark : ∀ t, (f t).mark = t.mark
  kind : ∀ t, (f t).kind = t.kind ∨ (f t).kind.omits = false
  bound : ∀ t, (f t).kind.bound? = t.kind.bound?
  children : ∀ t, ∀ c' ∈ (f t).children, ∃ c ∈ t.children, c' = f c

theorem Thins.mem_optionals (hf : Thins f) {e' : Option SymbolId × Tree α}
    (h : e' ∈ (f t).optionals) : ∃ c, (e'.1, c) ∈ t.optionals ∧ e'.2 = f c := by
  induction t with
  | node m k cs ih =>
    have hkind := hf.kind (node m k cs)
    have hchildren := hf.children (node m k cs)
    rw [kind_node] at hkind
    rw [children_node] at hchildren
    rw [← optionals_become m, optionals_node, mem_append] at h
    rw [optionals_node]
    rcases h with h | h
    · rcases hkind with hk | hk
      · rw [hk] at h
        cases k with
        | array =>
          obtain ⟨c', hc', rfl⟩ := mem_map.mp h
          obtain ⟨c, hc, rfl⟩ := hchildren c' hc'
          exact ⟨c, mem_append_left _ (mem_map_of_mem hc), rfl⟩
        | varStatement =>
          obtain ⟨d', hd', h⟩ := mem_flatMap.mp h
          obtain ⟨d, hd, rfl⟩ := hchildren d' hd'
          obtain ⟨c', hc', rfl⟩ := mem_map.mp h
          obtain ⟨c, hc, rfl⟩ := hf.children d c' hc'
          refine ⟨c, mem_append_left _ (mem_flatMap.mpr ⟨d, hd, ?_⟩), rfl⟩
          rw [hf.bound]
          exact mem_map_of_mem hc
        | _ => cases h
      · rw [ownOptionals_plain hk] at h
        cases h
    · obtain ⟨c', hc', h⟩ := mem_flatMap.mp h
      obtain ⟨c, hc, rfl⟩ := hchildren c' hc'
      obtain ⟨v, hv, heq⟩ := ih c hc h
      exact ⟨v, mem_append_right _ (mem_flatMap.mpr ⟨c, hc, hv⟩), heq⟩

theorem Thins.descends (hf : Thins f) (hyields : ∀ t, (f t).Yields true p → t.Yields true p)
    (ts : List (Tree α)) : Descends p (ts.flatMap optionals) ((ts.map f).flatMap optionals) := by
  intro e' he'
  rw [flatMap_map] at he'
  obtain ⟨t, ht, he'⟩ := mem_flatMap.mp he'
  obtain ⟨c, hc, heq⟩ := hf.mem_optionals he'
  refine ⟨(e'.1, c), mem_flatMap.mpr ⟨t, ht, hc⟩, rfl, ?_, ?_⟩
  · rw [heq, hf.mark]
  · rw [heq]
    exact hyields c

theorem thins_substitute (hk : k.isLiteral) : Thins (substitute x k : Tree α → Tree α) where
  mark := by
    rintro ⟨m, kind, cs⟩
    rw [substitute_node, mark_node, mark_node]
  kind t := by
    rw [kind_substitute]
    split
    · exact .inr (by cases k <;> first | rfl | cases hk)
    · exact .inl rfl
  bound t := by
    rw [kind_substitute]
    split
    · rename_i hkind
      rw [hkind]
      cases k <;> first | rfl | cases hk
    · rfl
  children := by
    rintro ⟨m, kind, cs⟩ c' hc'
    rw [substitute_node, children_node] at hc'
    obtain ⟨c, hc, rfl⟩ := mem_map.mp hc'
    exact ⟨c, hc, rfl⟩

theorem thins_undeclare : Thins (undeclare x : Tree α → Tree α) where
  mark := by
    rintro ⟨m, kind, cs⟩
    by_cases hkind : kind = .varStatement
    · subst hkind
      rw [undeclare_varStatement]
      split <;> rfl
    · rw [undeclare_of_ne hkind, mark_node, mark_node]
  kind t := by
    rcases kind_undeclare_cases x t with hkind | ⟨-, hkind⟩
    · exact .inl hkind
    · exact .inr (by rw [hkind]; rfl)
  bound t := by
    rcases kind_undeclare_cases x t with hkind | ⟨hkind, hkind'⟩
    · rw [hkind]
    · rw [hkind, hkind']
      rfl
  children := by
    rintro ⟨m, kind, cs⟩ c' hc'
    rw [children_node]
    by_cases hkind : kind = .varStatement
    · subst hkind
      rw [undeclare_varStatement] at hc'
      split at hc'
      · cases hc'
      · obtain ⟨c, hc, rfl⟩ := mem_map.mp hc'
        exact ⟨c, (mem_filter.mp hc).1, rfl⟩
    · rw [undeclare_of_ne hkind, children_node] at hc'
      obtain ⟨c, hc, rfl⟩ := mem_map.mp hc'
      exact ⟨c, hc, rfl⟩

section

variable (hp : Kind.Innate true p)

include hp

theorem Yields.of_map {m : α} {cs : List (Tree α)}
    (hf : ∀ c ∈ cs, (f c).Yields true p → c.Yields true p) (l : List (Tree α))
    (h : (node m k (l ++ cs.map f)).Yields true p) : (node m k (l ++ cs)).Yields true p := by
  induction cs generalizing l with
  | nil => exact h
  | cons c cs ih =>
    rw [forall_mem_cons] at hf
    have hfirst : (node m k (l ++ c :: cs.map f)).Yields true p := .exchange hp hf.1 h
    rw [append_cons] at hfirst ⊢
    exact ih hf.2 (l ++ [c]) hfirst

theorem yields_of_substitute (hk : k.isLiteral) (hx : p k → p (.identifier x))
    (h : (t.substitute x k).Yields true p) : t.Yields true p := by
  induction t with
  | node m kind cs ih =>
    rw [substitute_node] at h
    split at h
    · rename_i hkind
      subst hkind
      rw [yields_self (Kind.handsOn_of_isLiteral hk)] at h
      exact (yields_self fun _ => rfl).mpr (hx h)
    · exact .of_map hp ih [] h

theorem yields_of_undeclare (hempty : ¬p .empty) (h : (t.undeclare x).Yields true p) :
    t.Yields true p := by
  induction t with
  | node m kind cs ih =>
    by_cases hkind : kind = .varStatement
    · subst hkind
      rw [undeclare_varStatement] at h
      split at h
      · exact absurd ((yields_self fun _ => rfl).mp h) hempty
      · exact (yields_self fun _ => rfl).mpr ((yields_self fun _ => rfl).mp h)
    · rw [undeclare_of_ne hkind] at h
      exact .of_map hp ih [] h

omit hp in
theorem constant?_eq_some (h : constant? x ts = some k) :
    k.isLiteral ∧ ∃ v, (some x, v) ∈ ts.flatMap optionals ∧ v.kind = k := by
  unfold constant? at h
  split at h
  · obtain ⟨hvalue, hliteral⟩ := Option.filter_eq_some_iff.mp h
    obtain ⟨v, hv, rfl⟩ := Option.map_eq_some_iff.mp hvalue
    obtain ⟨d, hd, hv⟩ := Option.bind_eq_some_iff.mp hv
    obtain ⟨u, hu, hlist, hmem, hkind⟩ := mem_declarations.mp (mem_of_head? hd)
    obtain ⟨t, ht, hu⟩ := mem_subtreesAll.mp hu
    refine ⟨hliteral, v, mem_flatMap.mpr ⟨t, ht, optionals_subset_of_mem hu ?_⟩, rfl⟩
    obtain ⟨m, k, ds⟩ := u
    obtain rfl : k = .varStatement := hlist
    rw [optionals_node]
    refine mem_append_left _ (mem_flatMap.mpr ⟨d, hmem, ?_⟩)
    rw [hkind]
    exact mem_map_of_mem (mem_of_head? hv)
  · cases h

theorem descends_inlined (hempty : ¬p .empty)
    (hx : ∀ k, constant? x ts = some k → p k → p (.identifier x)) :
    Descends p (ts.flatMap optionals) ((inlined x ts).1.flatMap optionals) := by
  unfold inlined
  cases hconstant : constant? x ts with
  | none => exact .of_subset (List.Subset.refl _)
  | some k =>
    have hk := (constant?_eq_some hconstant).1
    have hsubstitute := (thins_substitute hk).descends
      (fun t => yields_of_substitute hp hk (hx k hconstant)) ts
    simp only
    split
    · refine hsubstitute.trans ?_
      have hundeclare := thins_undeclare.descends
        (fun t => yields_of_undeclare hp (x := x) hempty) (ts.map (substitute x k))
      rwa [List.map_map] at hundeclare
    · exact hsubstitute

end

/-- An expression of the kind may come down to `undefined` in a program with the given places that
may be left out. A name may when the variable is declared with a value that hands on something of
the sort, or with none. A sequence without elements stands for anything. -/
inductive MayVanish (es : List (Option SymbolId × Tree α)) : Kind → Prop
  | undefined : MayVanish es .undefined
  | void : MayVanish es (.unary .void)
  | sequence : MayVanish es .sequence
  | name {x : SymbolId} {v : Tree α} {k : Kind} (hv : (some x, v) ∈ es)
    (hk : k ∈ v.outcomes true) (h : MayVanish es k) : MayVanish es (.identifier x)

variable {es : List (Option SymbolId × Tree α)}

theorem innate_mayVanish (es : List (Option SymbolId × Tree α)) :
    Kind.Innate true (MayVanish es) where
  sequence := .sequence
  literal hliteral h := by
    cases h with
    | undefined => exact ⟨rfl, rfl, .void⟩
    | _ => cases hliteral

theorem not_mayVanish_empty : ¬MayVanish es .empty := by
  intro h
  cases h

theorem yields_undefined (h : t.kind = .undefined) : t.Yields true (MayVanish es) := by
  obtain ⟨m, k, cs⟩ := t
  obtain rfl : k = .undefined := h
  exact (yields_self fun _ => rfl).mpr .undefined

theorem Descends.inlined (h : Descends (MayVanish es) es (ts.flatMap optionals)) (x : SymbolId) :
    Descends (MayVanish es) es ((Tree.inlined x ts).1.flatMap optionals) := by
  have hinnate := innate_mayVanish es
  refine h.trans (descends_inlined hinnate not_mayVanish_empty fun k hconstant hk => ?_)
  obtain ⟨hliteral, v, hv, rfl⟩ := constant?_eq_some hconstant
  -- The value of the declaration is `undefined` now, so it could vanish from the start.
  obtain ⟨⟨y, v₀⟩, hv₀, hsymbol, -, hyields⟩ := h _ hv
  obtain ⟨j, hj, hvanish⟩ := hyields (yields_undefined (hinnate.literal hliteral hk).1)
  cases hsymbol
  exact .name hv₀ hj hvanish

theorem Descends.inlineEach (h : Descends (MayVanish es) es (ts.flatMap optionals))
    (xs : List SymbolId) :
    Descends (MayVanish es) es ((Tree.inlineEach xs ts).1.flatMap optionals) := by
  induction xs generalizing ts with
  | nil => exact h
  | cons x xs ih => exact ih (h.inlined x)

end Tree

namespace Store

variable {s s' : Store} {known : WellKnown} {roots : List NodeId}

def optionals (s : Store) (roots : List NodeId) : List (Option SymbolId × Tree NodeId) :=
  (roots.map s.tree).flatMap Tree.optionals

open Tree (Descends MayVanish)

variable {es : List (Option SymbolId × Tree NodeId)}

theorem Pass.descends (h : Pass known roots s s') (hr : s.Modules roots)
    (hes : Descends (MayVanish es) es (s.optionals roots)) :
    Descends (MayVanish es) es (s'.optionals roots) := by
  cases h with
  | inline _ htrees =>
    rw [optionals, htrees]
    exact hes.inlineEach _
  | simplify _ htrees =>
    refine hes.trans fun e' he' => ?_
    rw [optionals, flatMap_map] at he'
    obtain ⟨n, hn, he'⟩ := mem_flatMap.mp he'
    obtain ⟨e, he, hc⟩ :=
      (htrees n hn).descends (Tree.innate_mayVanish es) (hr.shaped n hn) e' he'
    rw [optionals, flatMap_map]
    exact ⟨e, mem_flatMap.mpr ⟨n, hn, he⟩, hc⟩

theorem descends_of_passes (h : Relation.ReflTransGen (Pass known roots) s s')
    (hr : s.Modules roots) :
    Descends (MayVanish (s.optionals roots)) (s.optionals roots) (s'.optionals roots) := by
  suffices hall : s'.Modules roots ∧
      Descends (MayVanish (s.optionals roots)) (s.optionals roots) (s'.optionals roots) from hall.2
  induction h with
  | refl => exact ⟨hr, .of_subset (List.Subset.refl _)⟩
  | tail _ hpass ih => exact ⟨hpass.keeps.modules, hpass.descends ih.1 ih.2⟩

theorem Links.eq_tree_of_mem_optionals {kids : NodeId → List NodeId} (h : s.Links kids)
    {e : Option SymbolId × Tree NodeId} (he : e ∈ s.optionals roots) : e.2 = s.tree e.2.mark := by
  obtain ⟨t, ht, he⟩ := mem_flatMap.mp he
  have hsub := Tree.mem_subtreesAll.mpr ⟨t, ht, Tree.mem_subtrees_of_mem_optionals he⟩
  obtain ⟨y, -, hy⟩ := h.mem_subtreesAll.mp hsub
  rw [hy, h.mark_tree]

end Store

namespace Program

variable {files : List SourceFile} {p : Program}

/-- A place that may be left out of an optimized program was there before, at the same node. Where
it is `undefined`, and so will be left out, the expression before could come down to `undefined` by
folding a `void` and by inlining variables. -/
theorem optimize_optionals (h : ofFiles files = .ok p) :
    ∃ p', p.optimize = .ok p' ∧ p'.modules = p.modules ∧
      ∀ x n, (x, p'.store.tree n) ∈ p'.store.optionals p.modules →
        (x, p.store.tree n) ∈ p.store.optionals p.modules ∧ (p'.store.kind n = .undefined →
            (p.store.tree n).Yields true (Tree.MayVanish (p.store.optionals p.modules))) := by
  have hverified := (lowers_ofFiles h).verified
  obtain ⟨s', hrun, hkeeps, hpasses⟩ :=
    hverified.consistent.optimize_passes hverified.modules p.known
  obtain ⟨kids, hlinks⟩ := hverified.consistent
  obtain ⟨kids', hlinks'⟩ := hkeeps.consistent
  refine ⟨{ p with store := s' }, by rw [optimize, hrun]; rfl, rfl, fun x n hn => ?_⟩
  obtain ⟨⟨y, c⟩, hc, hsymbol, hmark, hyields⟩ :=
    Store.descends_of_passes hpasses hverified.modules _ hn
  obtain rfl : x = y := hsymbol
  obtain rfl : c = p.store.tree n := by
    have htree := hlinks.eq_tree_of_mem_optionals hc
    rwa [← hmark, hlinks'.mark_tree] at htree
  refine ⟨hc, fun hkind => hyields (Tree.yields_undefined ?_)⟩
  rw [hlinks'.kind_tree]
  exact hkind

def voidNull : Json :=
  .element "UnaryExpression" [("operator", .string "void"), ("prefix", .bool true),
    ("argument", .element "Literal" [("value", .null)])]

def voidValues : List SourceFile :=
  let call (argument : Json) : Json := .element "ExpressionStatement" [("expression",
    .element "CallExpression" [("callee", .name "f"), ("arguments", .array [argument])])]
  let var (value : Json) : Json := .element "VariableDeclaration" [("kind", .string "var"),
    ("declarations", .array
      [.element "VariableDeclarator" [("id", .name "x"), ("init", value)]])]
  [.ofStatements [call (.element "ArrayExpression" [("elements", .array [voidNull])]),
    var (.name "f"), var voidNull, call (.name "x")]]

theorem optimize_optionals_voidValues :
    ∃ p p', ofFiles voidValues = .ok p ∧ p.optimize = .ok p' ∧ p'.modules = p.modules ∧
      ∀ x n, (x, p'.store.tree n) ∈ p'.store.optionals p.modules →
        (x, p.store.tree n) ∈ p.store.optionals p.modules ∧ (p'.store.kind n = .undefined →
            (p.store.tree n).Yields true (Tree.MayVanish (p.store.optionals p.modules))) := by
  obtain ⟨p, hp, -⟩ := exists_of_any (ofFiles voidValues) (fun _ => True) (by decide +kernel)
  obtain ⟨p', hrun, hspec⟩ := optimize_optionals hp
  exact ⟨p, p', hp, hrun, hspec⟩

def Vacates (p p' : Program) (x : Option SymbolId) : Prop :=
  ∃ e ∈ p.store.optionals p.modules, ∃ e' ∈ p'.store.optionals p'.modules,
    e.1 = x ∧ e'.1 = x ∧ e'.2.mark = e.2.mark ∧ e.2.kind ≠ .undefined ∧ e'.2.kind = .undefined

instance (p p' : Program) (x : Option SymbolId) : Decidable (Vacates p p' x) :=
  inferInstanceAs (Decidable (∃ e ∈ _, ∃ e' ∈ _, _))

theorem optimize_vacates_voidValues : ∃ p, ofFiles voidValues = .ok p ∧ ∃ p', p.optimize = .ok p' ∧
      Vacates p p' none ∧ Vacates p p' (some ⟨2⟩) := by
  obtain ⟨p, hp, hoptimized⟩ := exists_of_any (ofFiles voidValues)
    (fun p => p.optimize.toOption.any (fun p' =>
      decide (Vacates p p' none ∧ Vacates p p' (some ⟨2⟩))) = true) (by decide +kernel)
  exact ⟨p, hp, exists_of_any p.optimize _ hoptimized⟩

end Program

end ScriptPress

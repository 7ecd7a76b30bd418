import ScriptPress.Proofs.Simplify.Declarations
import ScriptPress.Proofs.Simplify.Outcomes

/-! # What may be left out -/

namespace ScriptPress

variable {k : Kind}

open List Kind Step

namespace Kind

variable {k : Kind}

def omits : Kind → Bool
  | array | varStatement => true
  | _ => false

theorem omits_of_isList (h : k.isList) : k.omits = false := by
  cases k <;> first | rfl | cases h

theorem omits_of_hasBody (h : k.hasBody) : k.omits = false := by
  cases k <;> first | rfl | cases h

theorem omits_of_handsOver (h : k.handsOver) : k.omits = false := by
  cases k <;> first | rfl | cases h

theorem omits_of_discards {before after : Nat} (h : k.discards before after) :
    k.omits = false := by
  cases k <;> first | rfl | cases h

end Kind

namespace Tree

variable {α β : Type} {s : Step α} (m : α)

/-- The places at a node that may be left out: the elements of an array, and the values in a `var`
list, each with its variable. -/
def ownOptionals (k : Kind) (cs : List (Tree α)) : List (Option SymbolId × Tree α) :=
  match k with
  | .array => cs.map fun c => (none, c)
  | .varStatement => cs.flatMap fun d => d.children.map fun c => (d.kind.bound?, c)
  | _ => []

mutual

def optionals : Tree α → List (Option SymbolId × Tree α)
  | node _ k cs => ownOptionals k cs ++ optionalsAll cs

def optionalsAll : List (Tree α) → List (Option SymbolId × Tree α)
  | [] => []
  | c :: cs => optionals c ++ optionalsAll cs

end

theorem optionalsAll_eq (cs : List (Tree α)) : optionalsAll cs = cs.flatMap optionals := by
  induction cs with
  | nil => rw [optionalsAll, flatMap_nil]
  | cons c cs ih => rw [optionalsAll, ih, flatMap_cons]

theorem optionals_node (k : Kind) (cs : List (Tree α)) :
    (node m k cs).optionals = ownOptionals k cs ++ cs.flatMap optionals := by
  rw [optionals, optionalsAll_eq]

theorem optionals_become (t : Tree α) : (node m t.kind t.children).optionals = t.optionals := by
  obtain ⟨m', k, cs⟩ := t
  rw [kind_node, children_node, optionals_node, optionals_node]

theorem ownOptionals_plain (hk : k.omits = false) (cs : List (Tree α)) :
    ownOptionals k cs = [] := by
  cases k <;> first | rfl | cases hk

theorem optionals_plain (hk : k.omits = false) (cs : List (Tree α)) :
    (node m k cs).optionals = cs.flatMap optionals := by
  rw [optionals_node, ownOptionals_plain hk, nil_append]

@[simp] theorem optionals_leaf (k : Kind) : (node m k []).optionals = [] := by
  rw [optionals_node]
  cases k <;> rfl

theorem optionals_subset_of_mem {t u : Tree α} (hu : u ∈ t.subtrees) :
    u.optionals ⊆ t.optionals := by
  induction t with
  | node m k cs ih =>
    rcases mem_subtrees_node.mp hu with rfl | ⟨c, hc, hu⟩
    · exact Subset.refl _
    · intro e he
      rw [optionals_node]
      exact mem_append_right _ (mem_flatMap.mpr ⟨c, hc, ih c hc hu he⟩)

theorem mem_subtrees_of_mem_optionals {t : Tree α} {e : Option SymbolId × Tree α}
    (h : e ∈ t.optionals) : e.2 ∈ t.subtrees := by
  induction t with
  | node m k cs ih =>
    rw [optionals_node, mem_append] at h
    rw [mem_subtrees_node]
    rcases h with h | h
    · refine .inr ?_
      cases k with
      | array =>
        obtain ⟨c, hc, rfl⟩ := mem_map.mp h
        exact ⟨c, hc, mem_subtrees_self c⟩
      | varStatement =>
        obtain ⟨⟨m', k', ds⟩, hd, h⟩ := mem_flatMap.mp h
        obtain ⟨c, hc, rfl⟩ := mem_map.mp h
        exact ⟨_, hd, mem_subtrees_node.mpr (.inr ⟨c, hc, mem_subtrees_self c⟩)⟩
      | _ => cases h
    · obtain ⟨c, hc, h⟩ := mem_flatMap.mp h
      exact .inr ⟨c, hc, ih c hc h⟩

theorem ownOptionals_map (f : α → β) (k : Kind) (cs : List (Tree α)) :
    ownOptionals k (cs.map (map f)) = (ownOptionals k cs).map (Prod.map id (map f)) := by
  cases k with
  | array =>
    rw [ownOptionals, ownOptionals, List.map_map, List.map_map]
    rfl
  | varStatement =>
    rw [ownOptionals, ownOptionals, flatMap_map, map_flatMap]
    refine flatMap_congr fun d _ => ?_
    rw [children_map, kind_map, List.map_map, List.map_map]
    rfl
  | _ => rfl

theorem optionals_map (f : α → β) (t : Tree α) :
    (t.map f).optionals = t.optionals.map (Prod.map id (map f)) := by
  induction t with
  | node m k cs ih =>
    rw [map_node, optionals_node, optionals_node, ownOptionals_map, map_append,
      flatMap_map, map_flatMap]
    exact congrArg _ (flatMap_congr ih)

theorem optionals_become_child {m m' : α} {cs : List (Tree α)} {x : Tree α} (hx : x ∈ cs) :
    (node m' x.kind x.children).optionals ⊆ (node m k cs).optionals := by
  rw [optionals_become]
  exact optionals_subset_of_mem (mem_subtrees_node.mpr (.inr ⟨x, hx, mem_subtrees_self x⟩))

theorem optionals_commaParts (t : Tree (Option α)) :
    (commaParts t).flatMap optionals = t.optionals := by
  obtain ⟨m, k, cs⟩ := t
  cases k <;> simp [commaParts, optionals_node, ownOptionals]

theorem optionals_comma (x y : Tree (Option α)) :
    (comma x y).tree.optionals = x.optionals ++ y.optionals := by
  rw [comma, new, optionals_node, flatMap_append, optionals_commaParts, optionals_commaParts]
  rfl

theorem optionals_unbrace {b : Tree (Option α)} (h : b.unbrace? = some s) :
    s.tree.optionals ⊆ b.optionals := by
  obtain ⟨m, ⟨rfl, rfl⟩ | ⟨c, rfl, rfl⟩⟩ := unbrace_cases h
  · simp [leaf, optionals_node, ownOptionals]
  · rw [become, optionals_become, optionals_node, flatMap_singleton]
    exact subset_append_right _ _

theorem optionals_reduced {t : Tree (Option α)} (ht : t.Fit isExpression)
    (h : t.discarded = .ok (.reduced s)) : s.tree.optionals ⊆ t.optionals := by
  obtain ⟨e, -, hs, -, -, rfl⟩ := exists_of_reduced ht h
  have hparts := hs.below
  generalize e.parts = parts at hparts ⊢
  unfold reduction
  split
  · rename_i only
    rw [become, optionals_become]
    exact optionals_subset_of_mem (hparts only (.head _))
  · intro e he
    rw [fresh, become, optionals_become, new, optionals_node] at he
    obtain ⟨p, hp, he⟩ := mem_flatMap.mp he
    exact optionals_subset_of_mem (hparts p hp) he

theorem optionals_negation {t : Tree (Option α)} (h : negation t = .ok s) :
    s.tree.optionals ⊆ t.optionals := by
  rcases negation_cases h with ⟨m, x, rest, rfl, rfl⟩ | ⟨b, -, rfl⟩ | rfl
  · rw [optionals_node, flatMap_cons]
    exact Subset.trans (subset_append_left _ _) (subset_append_right _ _)
  · simp [new, optionals_node, ownOptionals]
  · simp [new, optionals_node, ownOptionals]

theorem optionals_tryStatement {m : Option α} {b h f : Tree (Option α)}
    (hs : tryStatement m b h f [] = some s) :
    s.tree.optionals ⊆ (node m .try [b, h, f]).optionals := by
  rcases tryStatement_cases hs with rfl | rfl | rfl
  · simp [leaf, optionals_node, ownOptionals]
  · exact optionals_become_child (by simp)
  · exact optionals_become_child (by simp)

theorem optionals_exchange {m : α} (hk : k.omits = false) (ts us : List (Tree α))
    (h : us.flatMap optionals ⊆ ts.flatMap optionals) (l r : List (Tree α)) :
    (node m k (l ++ (us ++ r))).optionals ⊆ (node m k (l ++ (ts ++ r))).optionals := by
  intro e he
  rw [optionals_plain m hk, flatMap_append, flatMap_append, mem_append, mem_append] at he ⊢
  exact he.imp_right (Or.imp_left fun he => h he)

theorem Rewrites.optionals_subset {known : WellKnown} {t : Tree (Option α)} (h : Rewrites known t s)
    (ht : t.WellShaped) : s.tree.optionals ⊆ t.optionals := by
  cases h with
  | @dropEmpty m k l r c hk hc =>
    exact optionals_exchange (omits_of_isList hk) [c] [] (by simp) l r
  | @splice m k l r c hk hc =>
    refine optionals_exchange (omits_of_isList hk) [c] _ ?_ l r
    obtain ⟨mc, kc, cs⟩ := c
    simp [optionals_node]
  | @mergeDeclarations m k l r a b xs ys hk =>
    refine optionals_exchange (omits_of_isList hk) [_, _] [_] ?_ l r
    intro e he
    simp only [optionals_node, ownOptionals, flatMap_append, flatMap_cons,
      flatMap_nil, mem_append] at he ⊢
    tauto
  | @mergeExpressions m k l r a b x y hk =>
    refine optionals_exchange (omits_of_isList hk) [_, _] [_] ?_ l r
    simp (disch := decide) [optionals_plain, optionals_comma]
  | @mergeIntoValue m k l r a b x y v hk hv =>
    refine optionals_exchange (omits_of_isList hk) [_, _] [_] ?_ l r
    rcases hv with rfl | rfl <;> simp (disch := decide) [optionals_plain, optionals_comma]
  | @fillSetup m k l r a b x setup others hk hs =>
    refine optionals_exchange (omits_of_isList hk) [_, _] [_] ?_ l r
    intro e he
    simp (disch := decide) only [optionals_plain, flatMap_cons, flatMap_nil,
      append_nil, mem_append] at he ⊢
    exact he.imp_right .inr
  | @mergeIntoSetup m k l r a b x setup others hk hs =>
    refine optionals_exchange (omits_of_isList hk) [_, _] [_] ?_ l r
    simp (disch := decide) [optionals_plain, optionals_comma]
  | @reduce m k l r c s hk hc hs =>
    refine optionals_exchange (omits_of_discards hk) [c] [s.tree] ?_ l r
    simpa using optionals_reduced ⟨hc, ht.child c (by simp)⟩ hs
  | @dropElement m l r c hr hc =>
    exact optionals_exchange rfl [c] [] (by simp) l r
  | @dropClause m l r c hk he hc =>
    exact optionals_exchange rfl [c] [_] (by simp) l r
  | @flatten m a l cs r =>
    refine optionals_exchange rfl [_] cs ?_ l r
    simp (disch := decide) [optionals_plain]
  | @unbrace m k l r b s hk hs =>
    refine optionals_exchange (omits_of_hasBody hk) [b] [s.tree] ?_ l r
    simpa using optionals_unbrace hs
  | @invert m x y s t h =>
    intro e he
    simp (disch := decide) only [optionals_plain, flatMap_cons, flatMap_nil,
      append_nil, mem_append] at he ⊢
    exact Or.imp (fun he => optionals_negation h he) Or.symm he
  | @join m a b k t x y hk =>
    have hplain := omits_of_handsOver hk
    simp (disch := first | assumption | decide) [optionals_plain, new]
  | tryBlock h => exact optionals_tryStatement h
  | dropStatement _ | foldUnary _ | foldBinary _ _ _ | power _ _ => simp [leaf]
  | single | dropEmptyTail _ _ | sameBranchesPure _ _ => exact optionals_become_child (by simp)
  | @logical m op x y s hop h =>
    obtain ⟨b, -, rfl⟩ := Option.map_eq_some_iff.mp h
    split <;> exact optionals_become_child (by simp)
  | @choose m b t x y s ht h =>
    cases b <;> cases h <;> exact optionals_become_child (by simp)
  | @take m truth t x y ht hd =>
    cases truth <;> exact optionals_become_child (by simp)
  | _ =>
    intro e he
    simp (disch := decide) only [optionals_plain, optionals_leaf, optionals_become,
      optionals_comma, become, fresh, new, kind_node, children_node,
      flatMap_cons, flatMap_nil, append_nil, nil_append, mem_append] at he ⊢
    tauto

section

variable {p : Kind → Prop} {es es' : List (Option SymbolId × Tree α)}

structure Continues (p : Kind → Prop) (e e' : Option SymbolId × Tree α) : Prop where
  symbol : e'.1 = e.1
  mark : e'.2.mark = e.2.mark
  yields : e'.2.Yields true p → e.2.Yields true p

def Descends (p : Kind → Prop) (es es' : List (Option SymbolId × Tree α)) : Prop :=
  ∀ e' ∈ es', ∃ e ∈ es, Continues p e e'

theorem Continues.refl (p : Kind → Prop) (e : Option SymbolId × Tree α) : Continues p e e :=
  ⟨rfl, rfl, id⟩

theorem Descends.of_subset (h : es' ⊆ es) : Descends p es es' :=
  fun e' he' => ⟨e', h he', .refl p e'⟩

theorem Descends.trans {es es' es'' : List (Option SymbolId × Tree α)} (h : Descends p es es')
    (h' : Descends p es' es'') : Descends p es es'' := by
  intro e'' he''
  obtain ⟨e', he', hc'⟩ := h' e'' he''
  obtain ⟨e, he, hc⟩ := h e' he'
  exact ⟨e, he, hc'.symbol.trans hc.symbol, hc'.mark.trans hc.mark,
    fun hy => hc.yields (hc'.yields hy)⟩

theorem Descends.append {es es' fs fs' : List (Option SymbolId × Tree α)} (h : Descends p es es')
    (h' : Descends p fs fs') : Descends p (es ++ fs) (es' ++ fs') := by
  intro e' he'
  rcases mem_append.mp he' with he' | he'
  · obtain ⟨e, he, hc⟩ := h e' he'
    exact ⟨e, mem_append_left _ he, hc⟩
  · obtain ⟨e, he, hc⟩ := h' e' he'
    exact ⟨e, mem_append_right _ he, hc⟩

theorem Descends.cons {e e' : Option SymbolId × Tree α} (h : Continues p e e')
    (h' : Descends p es es') : Descends p (e :: es) (e' :: es') := by
  intro f hf
  rcases mem_cons.mp hf with rfl | hf
  · exact ⟨e, mem_cons_self, h⟩
  · obtain ⟨g, hg, hc⟩ := h' f hf
    exact ⟨g, mem_cons_of_mem e hg, hc⟩

theorem Descends.exchange {x : Option SymbolId} {c c' : Tree α} (h : Continues p (x, c) (x, c'))
    (l r : List (Tree α)) :
    Descends p ((l ++ c :: r).map fun c => (x, c)) ((l ++ c' :: r).map fun c => (x, c)) := by
  rw [map_append, map_append, map_cons, map_cons]
  exact .append (.of_subset (Subset.refl _)) (.cons h (.of_subset (Subset.refl _)))

theorem Descends.flatMap {f : Tree α → List (Option SymbolId × Tree α)} {c c' : Tree α}
    (h : Descends p (f c) (f c')) (l r : List (Tree α)) :
    Descends p ((l ++ c :: r).flatMap f) ((l ++ c' :: r).flatMap f) := by
  rw [flatMap_append, flatMap_append, flatMap_cons, flatMap_cons]
  exact .append (.of_subset (Subset.refl _)) (.append h (.of_subset (Subset.refl _)))

variable {known : WellKnown} {t t' : Tree (Option α)} {d : List (Tree (Option α))}
  (hp : Innate true p)

include hp

theorem Reduces.continues (h : Reduces known t t' d) (ht : t.Fit isExpression)
    (x : Option SymbolId) : Continues p (x, t) (x, t') :=
  ⟨rfl, h.mark_eq, h.yields hp ht⟩

theorem Reduces.variable (h : Reduces known t t' d) (ht : t.Fit isVariable) :
    t'.kind = t.kind ∧ Descends p (t.children.map fun c => (t.kind.bound?, c))
      (t'.children.map fun c => (t.kind.bound?, c)) := by
  induction h with
  | refl t => exact ⟨rfl, .of_subset (Subset.refl _)⟩
  | @rule t s h =>
    obtain ⟨m, k, cs⟩ := t
    cases k <;> first | cases ht.1; done | cases h <;> contradiction
  | @trans t u v d e h _ ih ih' =>
    obtain ⟨hkind, hdescends⟩ := ih ht
    obtain ⟨hkind', hdescends'⟩ := ih' ⟨by rw [hkind]; exact ht.1, (h.wellShaped ht.2).1⟩
    rw [hkind] at hkind' hdescends'
    exact ⟨hkind', hdescends.trans hdescends'⟩
  | @child m k l r c c' d h ih =>
    have hfit : c.Fit isExpression := by
      obtain ⟨hk, hs⟩ := ht
      cases k <;> first | cases hk; done | skip
      obtain ⟨v, hv, hfit⟩ := (wellShaped_one rfl).mp hs
      have hc : c ∈ [v] := hv ▸ mem_append_right l (.head _)
      rwa [mem_singleton.mp hc]
    exact ⟨rfl, .exchange (h.continues hp hfit k.bound?) l r⟩

theorem Reduces.ownOptionals {m : Option α} {l r : List (Tree (Option α))}
    (h : Reduces known t t' d) (ht : (node m k (l ++ t :: r)).WellShaped) :
    Descends p (Tree.ownOptionals k (l ++ t :: r)) (Tree.ownOptionals k (l ++ t' :: r)) := by
  cases k with
  | array =>
    have hfit := (wellShaped_of_element rfl).mp ht t (by simp)
    exact .exchange (h.continues hp hfit none) l r
  | varStatement =>
    have hfit := (wellShaped_of_element rfl).mp ht t (by simp)
    obtain ⟨hkind, hdescends⟩ := h.variable hp hfit
    refine .flatMap ?_ l r
    rw [hkind]
    exact hdescends
  | _ => exact .of_subset (nil_subset _)

theorem Reduces.descends (h : Reduces known t t' d) (ht : t.WellShaped) :
    Descends p t.optionals t'.optionals := by
  induction h with
  | refl t => exact .of_subset (Subset.refl _)
  | rule h => exact .of_subset (h.optionals_subset ht)
  | trans h _ ih ih' => exact (ih ht).trans (ih' (h.wellShaped ht).1)
  | @child m k l r c c' d h ih =>
    rw [optionals_node, optionals_node]
    have hc := ht.child c (by simp)
    exact .append (h.ownOptionals hp ht) (.flatMap (ih hc) l r)

omit hp in
theorem ReducesTo.descends {t u : Tree α} (hp : Innate true p) (h : t.ReducesTo known u)
    (ht : t.WellShaped) : Descends p t.optionals u.optionals := by
  obtain ⟨t', d, hred, w, rfl, rfl, hmarks⟩ := h
  intro e' he'
  rw [optionals_map] at he'
  obtain ⟨⟨x, v⟩, hv, rfl⟩ := mem_map.mp he'
  obtain ⟨e, he, hc⟩ := hred.descends hp (wellShaped_map.mpr ht) (x, v.map Prod.fst)
    (by rw [optionals_map]; exact mem_map_of_mem hv)
  rw [optionals_map] at he
  obtain ⟨⟨y, c⟩, hmem, rfl⟩ := mem_map.mp he
  obtain ⟨hsymbol, hmark, hyields⟩ := hc
  simp only [Prod.map, id_eq, mark_map, Yields, outcomes_map] at hsymbol hmark hyields
  refine ⟨(y, c), hmem, hsymbol, ?_, ?_⟩
  · rw [Prod.map, mark_map]
    exact hmarks v.mark (mark_mem_preorder (mem_subtrees_of_mem_optionals hv)) c.mark hmark
  · intro hy
    rw [Yields, Prod.map, outcomes_map] at hy
    exact hyields hy

end

end Tree

end ScriptPress

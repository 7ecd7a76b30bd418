import ScriptPress.Proofs.Simplify.Store
import ScriptPress.Proofs.Tree.Labels

/-! # Simplification and labels -/

namespace ScriptPress

open List

namespace Kind

theorem isPassive_of_handsOver {k : Kind} (h : k.handsOver) : k.isPassive := by
  cases k <;> first | rfl | cases h

end Kind

namespace Tree

variable {α : Type} {known : WellKnown} {m : α} {s : Step α}

theorem quiet_value {k : Kind} {cs : List (Tree α)} (hk : k.handsOver)
    (h : (node m k cs).WellShaped) : (node m k cs).Quiet := by
  obtain ⟨x, rfl, hx⟩ := (wellShaped_one (Kind.places_of_handsOver hk)).mp h
  exact quiet_node (Kind.isPassive_of_handsOver hk) (forall_mem_singleton.mpr hx.quiet)

namespace Confines

variable {k : Kind}

theorem list {ts us : List (Tree α)} (h : Confines ts us) (l r : List (Tree α)) :
    Confines [Tree.node m k (l ++ (ts ++ r))] [Tree.node m k (l ++ (us ++ r))] :=
  (h.within l r).node

theorem child {c c' : Tree α} (h : Confines [c] [c']) (l r : List (Tree α)) :
    Confines [Tree.node m k (l ++ c :: r)] [Tree.node m k (l ++ c' :: r)] :=
  h.list l r

theorem pair {a b c : Tree α} (h : Confines [a, b] [c]) (l r : List (Tree α)) :
    Confines [Tree.node m k (l ++ a :: b :: r)] [Tree.node m k (l ++ c :: r)] :=
  h.list l r

theorem keepChild {cs : List (Tree α)} {c : Tree α} (hk : k.isPassive) (hc : c ∈ cs) :
    Confines [Tree.node m k cs] [Tree.node m c.kind c.children] :=
  ((openNode hk).trans (of_sublist (singleton_sublist.mpr hc))).trans (remark m c)

theorem mergeDeclarations {a b : α} (xs ys : List (Tree α)) :
    Confines [Tree.node a .varStatement xs, Tree.node b .varStatement ys]
      [Tree.node a .varStatement (xs ++ ys)] :=
  ((openNode rfl).append (openNode rfl)).trans (closeNode rfl)

theorem setup {a x y : Tree α} {b : α} {others : List (Tree α)} (hy : y.Quiet) :
    Confines [a, Tree.node b .forLoop (x :: others)] [Tree.node b .forLoop (y :: others)] :=
  (of_sublist (sublist_cons_self _ _)).trans ((exchange hy).child [] others)

theorem unbrace {b : Tree (Option α)} (h : b.unbrace? = some s) : Confines [b] [s.tree] := by
  obtain ⟨m, ⟨rfl, rfl⟩ | ⟨c, rfl, rfl⟩⟩ := unbrace_cases h
  · exact .exchange (quiet_leaf m rfl)
  · exact .keepChild rfl (by simp)

theorem tryStatement {m : Option α} {b h f : Tree (Option α)}
    (hs : Step.tryStatement m b h f [] = some s) :
    Confines [Tree.node m .try [b, h, f]] [s.tree] := by
  rcases tryStatement_cases hs with rfl | rfl | rfl
  · exact .exchange (quiet_leaf m rfl)
  · exact .keepChild rfl (by simp)
  · exact .keepChild rfl (by simp)

end Confines

theorem Rewrites.confines {t : Tree (Option α)} (h : Rewrites known t s) (ht : t.WellShaped) :
    Confines [t] [s.tree] := by
  obtain ⟨hnew, hkind⟩ := h.wellShaped ht
  -- An expression has neither labels nor jumps, and a rule makes another expression of it.
  by_cases hexpression : t.kind.isExpression
  · exact .exchange (Fit.quiet ⟨Kind.stable_isExpression hkind hexpression, hnew⟩)
  cases h with
  | @dropEmpty m k l r c => exact (Confines.of_sublist (nil_sublist [c])).list l r
  | @splice m k l r c _ hc =>
    obtain ⟨mc, kc, cs⟩ := c
    obtain rfl : kc = .block := isBlock_of_isDissolvable hc
    exact (Confines.openNode rfl).list l r
  | @mergeDeclarations m k l r a b xs ys => exact (Confines.mergeDeclarations xs ys).list l r
  | @mergeExpressions m k l r =>
    refine Confines.pair (.of_quiet (forall_mem_singleton.mpr ?_)) l r
    exact quiet_value rfl (hnew.child _ (by simp))
  | @mergeIntoValue m k l r a b y z v _ hv =>
    refine Confines.pair (.of_quiet (forall_mem_singleton.mpr ?_)) l r
    exact quiet_value (by rcases hv with rfl | rfl <;> rfl) (hnew.child _ (by simp))
  | @fillSetup m k l r a b y setup others =>
    have hy := (wellShaped_singleton rfl).mp (ht.child (Tree.node a .expression [y]) (by simp))
    exact (Confines.setup hy.quiet).pair l r
  | @mergeIntoSetup m k l r a b y setup others _ hs =>
    have hloop := hnew.child (Tree.node b .forLoop ((Step.comma y setup).tree :: others)) (by simp)
    exact (Confines.setup (Fit.quiet ⟨rfl, hloop.child _ (.head _)⟩)).pair l r
  | @reduce m k l r c s hk hc hs =>
    have hfit := (reduced_total ⟨hc, ht.child c (by simp)⟩ hs).1
    exact (Confines.exchange hfit.quiet).child l r
  | dropStatement => exact .exchange (quiet_leaf _ rfl)
  | @dropClause m l r c => exact (Confines.exchange (quiet_leaf c.mark rfl)).child l r
  | @unbrace m k l r b s _ hs => exact (Confines.unbrace hs).child l r
  | @dropTest m a t u b => exact (Confines.exchange (quiet_leaf t.mark rfl)).child [a] [u, b]
  | @whileToFor m t b =>
    have hempty : Confines [] [(new .empty [] : Tree (Option α))] :=
      .of_quiet (forall_mem_singleton.mpr (quiet_leaf none rfl))
    have hclauses : Confines [t, b] [new .empty [], t, new .empty [], b] :=
      (hempty.append (.refl [t])).append (hempty.append (.refl [b]))
    exact ((Confines.openNode rfl).trans hclauses).trans (.closeNode rfl)
  | @dropRethrow m b h f => exact (Confines.exchange (quiet_leaf h.mark rfl)).child [b] [f]
  | @dropFinalizer m a b h => exact (Confines.exchange (quiet_leaf a rfl)).child [b, h] []
  | tryBlock hs => exact .tryStatement hs
  | @take m truth t y z =>
    -- Whichever branch is taken, it is a child of the statement.
    cases truth with
    | true => exact .keepChild rfl (by simp)
    | false => exact .keepChild rfl (by simp)
  | @invert m y z s t h =>
    obtain ⟨ht', -, -⟩ := (wellShaped_triple rfl).mp ht
    have hbranches : Confines [y, z] [z, y] := .of_perm (.swap z y [])
    exact ((Confines.exchange (fit_negation ht' h).quiet).append hbranches).node
  | join hk => exact .exchange (quiet_value hk hnew)
  | testOnly | toLogical | toLogicalNot => exact .exchange (quiet_value rfl hnew)
  | _ => exact absurd rfl hexpression

theorem Reduces.confines {t t' : Tree (Option α)} {d : List (Tree (Option α))}
    (h : Reduces known t t' d) (ht : t.WellShaped) : Confines [t] [t'] := by
  induction h with
  | refl t => exact .refl [t]
  | rule h => exact h.confines ht
  | trans h _ ih ih' => exact (ih ht).trans (ih' (h.wellShaped ht).1)
  | @child m k l r c c' d h ih =>
    exact (ih (ht.child c (by simp))).child l r

theorem ReducesTo.confines {t u : Tree α} (h : t.ReducesTo known u) (ht : t.WellShaped) :
    Confines [t] [u] := by
  obtain ⟨t', d, hreduces, hfills⟩ := h
  have hconfines := hreduces.confines (wellShaped_map.mpr ht)
  have henclosed : ∀ labels, Enclosed labels u ↔ Enclosed labels t' := by
    intro labels
    rw [← enclosed_map (fun _ => ()) u, ← enclosed_map (fun _ => ()) t']
    exact iff_of_eq (congrArg (Enclosed labels) hfills.bare_eq)
  have hlabels : u.labels = t'.labels := by
    rw [← labels_map (fun _ => ()) u, ← labels_map (fun _ => ()) t']
    exact congrArg Tree.labels hfills.bare_eq
  constructor
  · simp only [forall_mem_singleton]
    intro labels h
    have hafter := hconfines.enclosed labels
    simp only [forall_mem_singleton, enclosed_map] at hafter
    exact (henclosed labels).mpr (hafter h)
  · intro s
    have hcount := hconfines.labels s
    simp only [flatMap_singleton, labels_map] at hcount ⊢
    rwa [hlabels]

end Tree

end ScriptPress

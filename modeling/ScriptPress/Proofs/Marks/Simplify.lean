import ScriptPress.Proofs.Marks.Step
import ScriptPress.Proofs.Simplify.Pass

/-! # Simplifying and marks -/

namespace ScriptPress

open List Tree Step

variable {α β : Type} (f : Option α → Option β)

def Trace.map (trace : Trace α) : Trace β := ⟨trace.changes, trace.detached.map (Tree.map f)⟩

namespace Simplifying

variable {γ γ' δ δ' : Type} (g : γ → γ')

def Commutes (g : γ → γ') (x : Simplifying α γ) (y : Simplifying β γ') : Prop :=
  ∀ trace, y.run (trace.map f) = (x.run trace).map fun r => (g r.1, r.2.map f)

variable {f} in
theorem Commutes.bind {g : γ → γ'} {h : δ → δ'} {x : Simplifying α γ} {y : Simplifying β γ'}
    {k : γ → Simplifying α δ} {k' : γ' → Simplifying β δ'} (hx : Commutes f g x y)
    (hk : ∀ a, Commutes f h (k a) (k' (g a))) : Commutes f h (x >>= k) (y >>= k') := by
  intro trace
  rw [StateT.run_bind, StateT.run_bind, hx trace]
  cases x.run trace with
  | error e => rfl
  | ok r => exact hk r.1 r.2

theorem commutes_pure (a : γ) : Commutes f g (pure a : Simplifying α γ) (pure (g a)) :=
  fun _ => rfl

theorem commutes_node (m : Option α) (k : Kind) (cs : List (Tree (Option α))) :
    Commutes f (Tree.map f) (pure (.node m k cs)) (pure (.node (f m) k (cs.map (Tree.map f)))) := by
  rw [← map_node]
  exact commutes_pure f _ _

theorem commutes_append (cs ds : List (Tree (Option α))) :
    Commutes f (List.map (Tree.map f)) (pure (cs ++ ds) : Simplifying α _)
      (pure (cs.map (Tree.map f) ++ ds.map (Tree.map f))) := by
  rw [← map_append]
  exact commutes_pure f _ _

theorem commutes_throw (e : Fault) : Commutes f g (throw e : Simplifying α γ) (throw e) :=
  fun _ => rfl

theorem commutes_lift (x : Except Fault γ) :
    Commutes f g (liftM x : Simplifying α γ) (liftM (x.map g)) := by
  intro trace
  cases x <;> rfl

theorem commutes_same (x : Except Fault γ) :
    Commutes f id (liftM x : Simplifying α γ) (liftM x) := by
  intro trace
  cases x <;> rfl

theorem commutes_noteChange : Commutes f id (noteChange : Simplifying α Unit) noteChange :=
  fun _ => rfl

theorem commutes_release (ts : List (Tree (Option α))) :
    Commutes f id (release ts) (release (ts.map (Tree.map f))) := by
  intro trace
  show Except.ok ((), _) = Except.ok ((), _)
  simp [Trace.map]

theorem commutes_perform (s : Step α) : Commutes f (Tree.map f) (perform s) (perform (s.map f)) :=
  (commutes_release f s.detached).bind fun _ =>
    (commutes_noteChange f).bind fun _ => commutes_pure f (Tree.map f) s.tree

theorem commutes_performOr (t : Tree (Option α)) (s? : Option (Step α)) :
    Commutes f (Tree.map f) (performOr t s?) (performOr (t.map f) (s?.map (map f))) := by
  cases s? with
  | none => exact commutes_pure f (Tree.map f) t
  | some s => exact commutes_perform f s

/-! ## Expressions -/

section

variable (hf : f none = none) {m : Option α} {cs : List (Tree (Option α))} {t : Tree (Option α)}

theorem commutes_leaf (m : Option α) (k : Kind) (ds : List (Tree (Option α))) :
    Commutes f (Tree.map f) (perform (leaf m k ds))
      (perform (leaf (f m) k (ds.map (map f)))) := by
  rw [← map_leaf]
  exact commutes_perform f _

theorem commutes_become (m : Option α) (t : Tree (Option α)) (ds : List (Tree (Option α))) :
    Commutes f (Tree.map f) (perform (become m t ds))
      (perform (become (f m) (t.map f) (ds.map (map f)))) := by
  rw [← map_become]
  exact commutes_perform f _

include hf in
theorem commutes_fresh (m : Option α) (k : Kind) (cs ds : List (Tree (Option α))) :
    Commutes f (Tree.map f) (perform (fresh m k cs ds))
      (perform (fresh (f m) k (cs.map (map f)) (ds.map (map f)))) := by
  rw [← map_fresh f hf]
  exact commutes_perform f _

theorem commutes_stepOr (m : Option α) (k : Kind) (cs : List (Tree (Option α)))
    (s? : Option (Step α)) : Commutes f (Tree.map f) (performOr (.node m k cs) s?)
      (performOr (.node (f m) k (cs.map (map f))) (s?.map (map f))) := by
  rw [← map_node]
  exact commutes_performOr f _ s?

theorem commutes_unary (op : UnaryOp) :
    Commutes f (Tree.map f) (unary m op cs) (unary (f m) op (cs.map (Tree.map f))) := by
  rw [unary, unary, unary_map]
  exact (commutes_lift f _ (Step.unary m op cs)).bind fun s? => commutes_stepOr f m _ cs s?

theorem commutes_call (known : WellKnown) :
    Commutes f (Tree.map f) (call known m cs) (call known (f m) (cs.map (Tree.map f))) := by
  rw [call, call, call_map]
  exact (commutes_lift f _ (Step.call known m cs)).bind fun s? => commutes_stepOr f m _ cs s?

theorem concat_of_ne (h : t.kind ≠ .binary .add) : concat t = pure t := by
  unfold concat
  split
  · exact absurd rfl h
  · rfl

def concatAfter (t : Tree (Option α)) : Option (Step α) → Simplifying α (Tree (Option α))
  | none => pure t
  | some s => do
    let _ ← perform s
    concat s.tree

theorem concat_sum (m : Option α) (left right : Tree (Option α)) (rest : List (Tree (Option α))) :
    concat (.node m (.binary .add) (left :: right :: rest)) =
      liftM (Concat.step m left right rest) >>=
        concatAfter (.node m (.binary .add) (left :: right :: rest)) := by
  rw [concat]
  split
  all_goals
    rename_i h
    conv_rhs => rw [h]
    rfl

theorem commutes_concat (t : Tree (Option α)) :
    Commutes f (Tree.map f) (concat t) (concat (t.map f)) := by
  by_cases hk : t.kind = .binary .add
  · obtain ⟨m, k, cs⟩ := t
    obtain rfl : k = _ := hk
    rw [Tree.map_node]
    rcases cs with _ | ⟨a, _ | ⟨b, cs⟩⟩
    · rw [map_nil, concat, concat]
      exact commutes_throw f _ _
    · rw [map_cons, map_nil, concat, concat]
      exact commutes_throw f _ _
    · simp only [map_cons]
      rw [concat_sum, concat_sum, Concat.step_map]
      intro trace
      -- The step is known in what follows, and with it that the sum gets smaller.
      cases hstep : Concat.step m a b cs with
      | error e => rfl
      | ok s? =>
        cases s? with
        | none => exact commutes_node f m (.binary .add) (a :: b :: cs) trace
        | some s =>
          have hless : s.tree.size < (Tree.node m (.binary .add) (a :: b :: cs)).size := by
            rw [Tree.size_node, Tree.sizes_cons, Tree.sizes_cons]
            exact Concat.step_size hstep
          have hafter : Commutes f (Tree.map f) (perform s >>= fun _ => concat s.tree)
              (perform (s.map f) >>= fun _ => concat (s.tree.map f)) :=
            (commutes_perform f s).bind fun _ => commutes_concat s.tree
          exact hafter trace
  · rw [concat_of_ne hk, concat_of_ne (by rwa [Tree.kind_map])]
    exact commutes_pure f _ t
termination_by t.size

theorem commutes_binary (op : BinaryOp) :
    Commutes f (Tree.map f) (binary m op cs) (binary (f m) op (cs.map (Tree.map f))) := by
  rcases cs with _ | ⟨a, _ | ⟨b, cs⟩⟩
  · exact commutes_throw f _ _
  · exact commutes_throw f _ _
  · simp only [binary, map_cons, kind_map, logical_map]
    split
    · exact commutes_stepOr f m (.binary op) (a :: b :: cs) _
    · split
      · have hfold := commutes_stepOr f m (.binary op) (a :: b :: cs)
          ((Kind.foldBinary op a.kind b.kind).map fun k => leaf m k (a :: b :: cs))
        simpa only [Option.map_map, Function.comp_def, map_leaf, map_cons] using hfold
      · simpa using commutes_concat f (.node m (.binary op) (a :: b :: cs))

include hf in
theorem commutes_keepEffects (t : Tree (Option α)) :
    Commutes f (Option.map (Tree.map f)) (keepEffects t) (keepEffects (t.map f)) := by
  rw [keepEffects, keepEffects, discarded_map f hf]
  refine (commutes_lift f (Discarded.map f) t.discarded).bind fun d => ?_
  cases d with
  | nothing => exact commutes_pure f _ none
  | unchanged => exact commutes_pure f _ (some t)
  | reduced s => exact (commutes_perform f s).bind fun u => commutes_pure f _ (some u)

include hf in
theorem commutes_expressionStatement (m : Option α) (cs : List (Tree (Option α))) :
    Commutes f (Tree.map f) (expressionStatement m cs)
      (expressionStatement (f m) (cs.map (map f))) := by
  cases cs with
  | nil => exact commutes_throw f _ _
  | cons value rest =>
    rw [map_cons, expressionStatement, expressionStatement]
    refine (commutes_keepEffects f hf value).bind fun value? => ?_
    cases value? with
    | none => exact commutes_leaf f m .empty (value :: rest)
    | some value => exact commutes_node f m .expression (value :: rest)

theorem commutes_flattenSequences (cs : List (Tree (Option α))) :
    Commutes f (List.map (Tree.map f)) (flattenSequences cs)
      (flattenSequences (cs.map (map f))) := by
  induction cs with
  | nil => exact commutes_pure f _ []
  | cons c cs ih =>
    rw [map_cons, flattenSequences, flattenSequences, kind_map]
    split
    · rw [emptied_map, children_map]
      refine (commutes_release f [c.emptied]).bind fun _ => ?_
      exact (commutes_noteChange f).bind fun _ => ih.bind (commutes_append f c.children)
    · exact ih.bind fun ds => commutes_pure f (List.map (Tree.map f)) (c :: ds)

include hf in
theorem commutes_reduceElements (cs : List (Tree (Option α))) :
    Commutes f (List.map (Tree.map f)) (reduceElements cs)
      (reduceElements (cs.map (map f))) := by
  induction cs with
  | nil => exact commutes_pure f _ []
  | cons c cs ih =>
    by_cases hcs : cs = []
    · subst hcs
      exact commutes_pure f _ [c]
    · have hmap : cs.map (Tree.map f) ≠ [] := by simpa using hcs
      rw [map_cons, reduceElements.eq_3 _ _ hcs, reduceElements.eq_3 _ _ hmap]
      refine (commutes_keepEffects f hf c).bind fun c? => ?_
      cases c? with
      | none =>
        refine (commutes_release f [c]).bind fun _ => ?_
        exact (commutes_noteChange f).bind fun _ => ih
      | some u =>
        simp only [Option.map_some, kind_map]
        split
        · rw [emptied_map, children_map]
          exact (commutes_release f [u.emptied]).bind fun _ =>
            ih.bind (commutes_append f u.children)
        · exact ih.bind fun es => commutes_pure f (List.map (Tree.map f)) (u :: es)

include hf in
theorem commutes_sequence (m : Option α) (cs : List (Tree (Option α))) :
    Commutes f (Tree.map f) (sequence m cs) (sequence (f m) (cs.map (Tree.map f))) := by
  rw [sequence, sequence]
  refine (commutes_flattenSequences f cs).bind fun ds => ?_
  refine (commutes_reduceElements f hf ds).bind fun es => ?_
  rcases es with _ | ⟨a, _ | ⟨b, es⟩⟩
  · exact commutes_node f m .sequence []
  · exact commutes_become f m a []
  · exact commutes_node f m .sequence (a :: b :: es)

theorem conditionalOn_of_some (h : t.kind ≠ .unary .not) {b : Bool}
    (hb : t.kind.truth? = some b) :
    conditionalOn m t cs = liftM (chosenBranch m b t cs) >>= perform := by
  unfold conditionalOn
  split
  · exact absurd rfl h
  · simp only [hb]

theorem conditionalOn_of_none (h : t.kind ≠ .unary .not) (hnone : t.kind.truth? = none) :
    conditionalOn m t cs =
      liftM (Step.conditional m t cs) >>= performOr (.node m .conditional (t :: cs)) := by
  unfold conditionalOn
  split
  · exact absurd rfl h
  · simp only [hnone]

include hf in
theorem commutes_conditionalOn (m : Option α) (t : Tree (Option α)) (cs : List (Tree (Option α))) :
    Commutes f (Tree.map f) (conditionalOn m t cs)
      (conditionalOn (f m) (t.map f) (cs.map (map f))) := by
  induction t generalizing cs with
  | node tm k tcs ih =>
    by_cases hk : k = .unary .not
    · subst hk
      rw [map_node, conditionalOn.eq_def, conditionalOn.eq_def]
      rcases cs with _ | ⟨a, _ | ⟨b, _ | ⟨c, cs⟩⟩⟩
      · exact commutes_throw f _ _
      · exact commutes_throw f _ _
      · cases tcs with
        | nil => exact commutes_throw f _ _
        | cons inner others =>
          have hrelease := commutes_release f [.node tm (.unary .not) others]
          rw [map_singleton, map_node] at hrelease
          refine hrelease.bind fun _ => (commutes_noteChange f).bind fun _ => ?_
          exact ih inner (.head _) [b, a]
      · simp only [map_cons, length_cons, length_map]
        exact commutes_throw f _ _
    · have hne : (node tm k tcs).kind ≠ .unary .not := hk
      have hne' : ((node tm k tcs).map f).kind ≠ .unary .not := by rwa [kind_map]
      cases htruth : (node tm k tcs).kind.truth? with
      | some b =>
        rw [conditionalOn_of_some hne htruth,
          conditionalOn_of_some hne' (by rwa [kind_map]), chosenBranch_map]
        exact (commutes_lift f (Step.map f) _).bind fun s => commutes_perform f s
      | none =>
        rw [conditionalOn_of_none hne htruth,
          conditionalOn_of_none hne' (by rwa [kind_map]), conditional_map f hf]
        exact (commutes_lift f _ _).bind fun s? =>
          commutes_stepOr f m .conditional (.node tm k tcs :: cs) s?

include hf in
theorem commutes_conditional (m : Option α) (cs : List (Tree (Option α))) :
    Commutes f (Tree.map f) (conditional m cs) (conditional (f m) (cs.map (Tree.map f))) := by
  cases cs with
  | nil => exact commutes_throw f _ _
  | cons t cs => exact commutes_conditionalOn f hf m t cs

/-! ## Statements -/

theorem commutes_spliceBlocks (cs : List (Tree (Option α))) :
    Commutes f (List.map (Tree.map f)) (spliceBlocks cs) (spliceBlocks (cs.map (Tree.map f))) := by
  induction cs with
  | nil => exact commutes_pure f _ []
  | cons c cs ih =>
    rw [map_cons, spliceBlocks, spliceBlocks, Tree.isEmpty_map, Tree.isDissolvable_map]
    split
    · refine (commutes_release f [c]).bind fun _ => ?_
      exact (commutes_noteChange f).bind fun _ => ih
    · split
      · rw [emptied_map, children_map]
        refine (commutes_release f [c.emptied]).bind fun _ => ?_
        exact (commutes_noteChange f).bind fun _ => ih.bind (commutes_append f c.children)
      · exact ih.bind fun ds => commutes_pure f (List.map (Tree.map f)) (c :: ds)

include hf in
theorem commutes_mergeFrom (t : Tree (Option α)) (cs : List (Tree (Option α))) :
    Commutes f (List.map (Tree.map f)) (mergeFrom t cs)
      (mergeFrom (t.map f) (cs.map (map f))) := by
  induction cs generalizing t with
  | nil => exact commutes_pure f _ [t]
  | cons c cs ih =>
    rw [map_cons, mergeFrom, mergeFrom, merge_map f hf]
    refine (commutes_lift f (Option.map (Step.map f)) (Step.merge t c)).bind fun s? => ?_
    cases s? with
    | none => exact (ih c).bind fun ds => commutes_pure f (List.map (Tree.map f)) (t :: ds)
    | some s => exact (commutes_perform f s).bind fun u => ih u

include hf in
theorem commutes_statements (m : Option α) (k : Kind) (cs : List (Tree (Option α))) :
    Commutes f (Tree.map f) (statements m k cs) (statements (f m) k (cs.map (Tree.map f))) := by
  have hmerge : ∀ ds : List (Tree (Option α)), Commutes f (List.map (Tree.map f))
      (mergeNeighbours ds) (mergeNeighbours (ds.map (map f))) := by
    intro ds
    cases ds with
    | nil => exact commutes_pure f _ []
    | cons d ds => exact commutes_mergeFrom f hf d ds
  rw [statements, statements]
  exact (commutes_spliceBlocks f cs).bind fun ds => (hmerge ds).bind (commutes_node f m k)

theorem commutes_dropRethrow (t : Tree (Option α)) :
    Commutes f (Tree.map f) (dropRethrow t) (dropRethrow (t.map f)) := by
  rw [dropRethrow, dropRethrow, rethrows_map, mark_map, children_map]
  refine (commutes_same f t.rethrows).bind fun b => ?_
  cases b with
  | false => exact commutes_pure f _ t
  | true => exact commutes_leaf f t.mark .empty t.children

theorem commutes_dropEmptyFinalizer (t : Tree (Option α)) :
    Commutes f (Tree.map f) (dropEmptyFinalizer t) (dropEmptyFinalizer (t.map f)) := by
  have hnil : (t.children.map (Tree.map f)).isEmpty = t.children.isEmpty := by
    cases t.children <;> rfl
  rw [dropEmptyFinalizer, dropEmptyFinalizer, kind_map, mark_map, children_map, hnil]
  split
  · exact commutes_leaf f t.mark .empty []
  · exact commutes_pure f _ t

theorem commutes_tryStatement (m : Option α) (cs : List (Tree (Option α))) :
    Commutes f (Tree.map f) (tryStatement m cs) (tryStatement (f m) (cs.map (Tree.map f))) := by
  rcases cs with _ | ⟨block, _ | ⟨handler, clauses⟩⟩
  · exact commutes_throw f _ _
  · exact commutes_throw f _ _
  · rw [map_cons, map_cons, tryStatement, tryStatement]
    refine (commutes_dropRethrow f handler).bind fun handler' => ?_
    cases clauses with
    | nil => exact commutes_throw f _ _
    | cons finalizer rest =>
      refine (commutes_dropEmptyFinalizer f finalizer).bind fun finalizer' => ?_
      rw [tryStatement_map]
      exact commutes_stepOr f m .try (block :: handler' :: finalizer' :: rest) _

/-! ## Loops and labels -/

theorem commutes_unbrace (t : Tree (Option α)) :
    Commutes f (Tree.map f) (unbrace t) (unbrace (t.map f)) := by
  rw [unbrace, unbrace, unbrace?_map]
  exact commutes_performOr f t _

theorem commutes_within (p : Part) (m : Option α) (k : Kind) (cs : List (Tree (Option α)))
    {x : Tree (Option α) → Simplifying α (Tree (Option α))}
    {y : Tree (Option β) → Simplifying β (Tree (Option β))}
    (h : ∀ c, Commutes f (Tree.map f) (x c) (y (c.map f))) :
    Commutes f (Tree.map f) (within p m k cs x) (within p (f m) k (cs.map (Tree.map f)) y) := by
  rw [within, within, Part.get_map]
  refine (commutes_lift f (Tree.map f) (p.get k cs)).bind fun c => (h c).bind fun d => ?_
  rw [← map_set]
  exact commutes_node f m k _

theorem commutes_dropTruthyTest (t : Tree (Option α)) :
    Commutes f (Tree.map f) (dropTruthyTest t) (dropTruthyTest (t.map f)) := by
  rw [dropTruthyTest, dropTruthyTest, kind_map, mark_map, children_map]
  split
  · exact commutes_leaf f t.mark .empty t.children
  · exact commutes_pure f _ t

include hf in
theorem commutes_reduceClause (t : Tree (Option α)) :
    Commutes f (Tree.map f) (reduceClause t) (reduceClause (t.map f)) := by
  rw [reduceClause, reduceClause, kind_map, mark_map, children_map]
  split
  · refine (commutes_keepEffects f hf t).bind fun u? => ?_
    cases u? with
    | none => exact commutes_leaf f t.mark .empty t.children
    | some u => exact commutes_pure f (Tree.map f) u
  · exact commutes_pure f _ t

include hf in
theorem commutes_forLoop (m : Option α) (cs : List (Tree (Option α))) :
    Commutes f (Tree.map f) (forLoop m cs) (forLoop (f m) (cs.map (Tree.map f))) := by
  rcases cs with _ | ⟨setup, _ | ⟨test, _ | ⟨update, _ | ⟨body, rest⟩⟩⟩⟩
  · exact commutes_throw f _ _
  · exact commutes_throw f _ _
  · exact commutes_throw f _ _
  · exact commutes_throw f _ _
  · simp only [map_cons]
    rw [forLoop, forLoop]
    refine (commutes_unbrace f body).bind fun body' => ?_
    refine (commutes_dropTruthyTest f test).bind fun test' => ?_
    refine (commutes_reduceClause f hf setup).bind fun setup' => ?_
    refine (commutes_reduceClause f hf update).bind fun update' => ?_
    exact commutes_node f m .forLoop (setup' :: test' :: update' :: body' :: rest)

include hf in
theorem commutes_whileLoop (m : Option α) (cs : List (Tree (Option α))) :
    Commutes f (Tree.map f) (whileLoop m cs) (whileLoop (f m) (cs.map (Tree.map f))) := by
  rcases cs with _ | ⟨test, _ | ⟨body, _ | ⟨c, cs⟩⟩⟩
  · exact commutes_throw f _ _
  · exact commutes_throw f _ _
  · simp only [map_cons, map_nil]
    rw [whileLoop, whileLoop, kind_map, kind_map]
    refine (commutes_same f _).bind fun _ => (commutes_same f _).bind fun _ => ?_
    have hperform := commutes_fresh f hf m .forLoop
      [new .empty [], test, new .empty [], body] []
    simp only [map_cons, map_nil, map_new f hf] at hperform
    refine hperform.bind fun loop => ?_
    rw [children_map]
    exact commutes_forLoop f hf m loop.children
  · rw [whileLoop.eq_2, whileLoop.eq_2, length_map]
    · exact commutes_throw f _ _
    all_goals simp

/-! ## If statements -/

theorem commutes_noteUnbrace (t : Tree (Option α)) :
    Commutes f id (noteUnbrace t) (noteUnbrace (t.map f)) := by
  rw [noteUnbrace, noteUnbrace, unbrace?_map]
  cases t.unbrace? with
  | none => exact commutes_pure f id ()
  | some s => exact (commutes_perform f s).bind fun _ => commutes_pure f id ()

include hf in
theorem commutes_uniteBranches (m : Option α) (k : Kind) (t u v : Tree (Option α)) :
    Commutes f (Tree.map f) (uniteBranches m k t u v)
      (uniteBranches (f m) k (t.map f) (u.map f) (v.map f)) := by
  rw [uniteBranches, uniteBranches, unitedBranches_map f hf]
  refine (commutes_lift f (Step.map f) (Step.unitedBranches k t u v)).bind fun joined => ?_
  have hrelease := commutes_release f (new .empty [] :: joined.detached)
  rw [map_cons, map_new f hf] at hrelease
  refine hrelease.bind fun _ => ?_
  have hconditional := commutes_conditional f hf none joined.tree.children
  rw [hf, ← children_map] at hconditional
  refine hconditional.bind fun value => (commutes_noteChange f).bind fun _ => ?_
  split
  · exact commutes_expressionStatement f hf m [value]
  · exact commutes_node f m k [value]

include hf in
theorem commutes_plain (known : WellKnown) (t : Tree (Option α)) :
    Commutes f (Tree.map f) (plain known t) (plain known (t.map f)) := by
  obtain ⟨m, k, cs⟩ := t
  rw [map_node]
  cases k with
  | module | block => exact commutes_statements f hf m _ cs
  | expression => exact commutes_expressionStatement f hf m cs
  | whileLoop => exact commutes_whileLoop f hf m cs
  | forLoop => exact commutes_forLoop f hf m cs
  | doWhile | forIn | label _ => exact commutes_within f _ m _ cs (commutes_unbrace f)
  | «try» => exact commutes_tryStatement f m cs
  | conditional => exact commutes_conditional f hf m cs
  | sequence => exact commutes_sequence f hf m cs
  | call => exact commutes_call f known
  | unary op => exact commutes_unary f op
  | binary op => exact commutes_binary f op
  | _ => exact commutes_node f m _ cs

theorem isNot_of_swap {u v : Tree (Option α)} (h : IfPlan.of t u v = .swap) : t.isNot := by
  have h := IfPlan.of_eq_ofBranches h (by simp)
  unfold IfPlan.ofBranches at h
  split at h
  · split at h <;> cases h
  · split at h
    · rename_i hnot
      rw [Bool.and_eq_true] at hnot
      exact hnot.1
    · split at h <;> cases h

include hf in
theorem commutes_ifElse (known : WellKnown) (m : Option α) (t x y : Tree (Option α))
    (rest : List (Tree (Option α))) : Commutes f (Tree.map f) (ifElse known m t x y rest)
      (ifElse known (f m) (t.map f) (x.map f) (y.map f) (rest.map (Tree.map f))) := by
  have hmore : noMore (rest.map (Tree.map f)) = noMore rest := by
    cases rest <;> simp [noMore]
  rw [ifElse_eq, ifElse_eq, Step.unbraced_map, Step.unbraced_map, IfPlan.of_map]
  refine (commutes_noteUnbrace f x).bind fun _ => (commutes_noteUnbrace f y).bind fun _ => ?_
  cases hplan : IfPlan.of t x.unbraced y.unbraced with
  | take truth =>
    have hsize := branch_size_le truth x y
    simp only [follow, ← apply_ite (Tree.map f)]
    generalize (if truth then x.unbraced else y.unbraced) = taken at hsize ⊢
    generalize (if truth then y.unbraced else x.unbraced) = dropped
    refine (commutes_become f m taken (t :: dropped :: rest)).bind fun _ => ?_
    rw [Tree.kind_map, Tree.children_map, ← Tree.map_node]
    -- The branch has the mark of the statement now, and is looked at again.
    obtain ⟨b, k, cs⟩ := taken
    by_cases hk : k = .ifElse
    · subst hk
      rw [Tree.kind_node, Tree.children_node, Tree.map_node]
      rcases cs with _ | ⟨u, _ | ⟨v, _ | ⟨w, more⟩⟩⟩
      · exact commutes_throw f _ _
      · exact commutes_throw f _ _
      · exact commutes_throw f _ _
      · exact commutes_ifElse known m u v w more
    · have hplain := commutes_plain f hf known (.node m k cs)
      rw [← applyRules_of_ne known (show (Tree.node m k cs).kind ≠ _ from hk),
        ← applyRules_of_ne known (by rwa [Tree.kind_map])] at hplain
      exact hplain
  | testOnly =>
    simp only [follow, Tree.kind_map]
    refine (commutes_same f _).bind fun _ => ?_
    refine (commutes_fresh f hf m .expression [t]
      (x.unbraced :: y.unbraced :: rest)).bind fun step => ?_
    rw [Tree.children_map]
    exact commutes_expressionStatement f hf m step.children
  | invert =>
    simp only [follow, hmore, Step.negation_map f hf]
    refine (commutes_same f _).bind fun _ => ?_
    refine (commutes_lift f (Step.map f) (Step.negation t)).bind fun negated => ?_
    refine (commutes_release f negated.detached).bind fun _ => ?_
    refine (commutes_noteChange f).bind fun _ => ?_
    have hless : Simpler y.unbraced x.unbraced negated.tree x y t :=
      invert_decreases (IfPlan.isEmpty_of_invert hplan)
    exact commutes_ifElse known m negated.tree y.unbraced x.unbraced []
  | swap =>
    simp only [follow, hmore]
    refine (commutes_same f _).bind fun _ => ?_
    obtain ⟨tm, k, tcs⟩ := t
    obtain rfl : k = .unary .not := by simpa [Tree.isNot] using isNot_of_swap hplan
    rw [Tree.map_node]
    cases tcs with
    | nil => exact commutes_throw f _ _
    | cons inner others =>
      have hrelease := commutes_release f [.node tm (.unary .not) others]
      rw [map_singleton, Tree.map_node] at hrelease
      refine hrelease.bind fun _ => (commutes_noteChange f).bind fun _ => ?_
      have hsize : inner.size < (Tree.node tm (.unary .not) (inner :: others)).size := by
        rw [Tree.size_node, Tree.sizes_cons]
        omega
      have hless : Simpler y.unbraced x.unbraced inner x y
          (.node tm (.unary .not) (inner :: others)) :=
        swap_decreases (IfPlan.isEmpty_of_swap hplan) hsize
      exact commutes_ifElse known m inner y.unbraced x.unbraced []
  | join statement =>
    simp only [follow, hmore]
    exact (commutes_same f _).bind fun _ => commutes_uniteBranches f hf m statement t _ _
  | logical =>
    simp only [follow, hmore, Step.logicalStatement_map f hf]
    refine (commutes_same f _).bind fun _ => ?_
    refine (commutes_lift f (Step.map f) _).bind fun s => ?_
    refine (commutes_perform f s).bind fun step => ?_
    rw [Tree.children_map]
    exact commutes_expressionStatement f hf m step.children
  | keep => exact commutes_node f m .ifElse (t :: x.unbraced :: y.unbraced :: rest)
termination_by (x.size + y.size, if x.unbraced.isEmpty then 1 else 0, t.size)
decreasing_by
  · simp only [Tree.size_node, Tree.sizes_cons] at hsize
    apply Prod.Lex.left
    omega
  · exact hless
  · exact hless

/-! ## Whole trees -/

include hf in
theorem commutes_applyRules (known : WellKnown) (t : Tree (Option α)) :
    Commutes f (Tree.map f) (applyRules known t) (applyRules known (t.map f)) := by
  by_cases hk : t.kind = .ifElse
  · obtain ⟨m, k, cs⟩ := t
    obtain rfl : k = _ := hk
    rw [map_node]
    rcases cs with _ | ⟨u, _ | ⟨v, _ | ⟨w, more⟩⟩⟩
    · exact commutes_throw f _ _
    · exact commutes_throw f _ _
    · exact commutes_throw f _ _
    · exact commutes_ifElse f hf known m u v w more
  · rw [applyRules_of_ne known hk, applyRules_of_ne known (by rwa [kind_map])]
    exact commutes_plain f hf known t

include hf in
theorem commutes_visit (known : WellKnown) (t : Tree (Option α)) :
    Commutes f (Tree.map f) (visit known t) (visit known (t.map f)) := by
  induction t with
  | node m k cs ih =>
    have hall : Commutes f (List.map (Tree.map f)) (visitAll known cs)
        (visitAll known (cs.map (map f))) := by
      induction cs with
      | nil => exact commutes_pure f _ []
      | cons c cs ihs =>
        rw [map_cons, visitAll, visitAll]
        refine (ih c (.head _)).bind fun d => ?_
        refine (ihs fun e he => ih e (.tail _ he)).bind fun ds => ?_
        exact commutes_pure f (List.map (Tree.map f)) (d :: ds)
    rw [map_node, visit, visit]
    refine hall.bind fun ds => ?_
    rw [← map_node]
    exact commutes_applyRules f hf known (.node m k ds)

end

end Simplifying

namespace Tree

theorem simplify_blank (known : WellKnown) (t : Tree α) :
    ((Simplifying.visit known (t.bare.map fun _ => (none : Option Unit))).run ⟨0, []⟩).map
      (fun r => (r.1.bare, r.2.changes)) =
        (t.simplify known).map fun r => (r.1.bare, r.2.changes) := by
  have hvisit := Simplifying.commutes_visit (fun _ : Option α => (none : Option Unit)) rfl known
    (t.map some) ⟨0, []⟩
  have hmarks : (t.map some).map (fun _ => (none : Option Unit)) = t.bare.map fun _ => none := by
    rw [bare, map_map, map_map]
  rw [hmarks] at hvisit
  rw [show (⟨0, []⟩ : Trace Unit) = Trace.map (fun _ => none) (⟨0, []⟩ : Trace α) from rfl, hvisit,
    simplify]
  cases (Simplifying.visit known (t.map some)).run ⟨0, []⟩ with
  | error e => rfl
  | ok r => exact congrArg (fun u => Except.ok (u, r.2.changes)) (bare_map _ r.1)

theorem simplify_congr (known : WellKnown) {t : Tree α} {u : Tree β} (h : t.bare = u.bare) :
    (t.simplify known).map (fun r => (r.1.bare, r.2.changes)) =
      (u.simplify known).map fun r => (r.1.bare, r.2.changes) := by
  rw [← simplify_blank, ← simplify_blank, h]

end Tree

end ScriptPress

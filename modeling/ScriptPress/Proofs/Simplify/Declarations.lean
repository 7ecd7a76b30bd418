import ScriptPress.Proofs.Simplify.Store
import ScriptPress.Proofs.Tree.Form

/-! # Simplification and declarations -/

namespace ScriptPress

open List Kind

/-! ## Declarations -/

namespace Kind

variable {k : Kind}

def bound? : Kind → Option SymbolId
  | .variable s => some s
  | _ => none

/-- The symbols that a node declares, given the kinds of its children. -/
def declares (k : Kind) (children : List Kind) : List SymbolId :=
  match k with
  | .function s => [s]
  | .varStatement | .forIn => children.filterMap bound?
  | _ => []

theorem declares_exchange (k : Kind) {x y : Kind} (h : x.bound? = y.bound?)
    (l r : List Kind) : k.declares (l ++ x :: r) = k.declares (l ++ y :: r) := by
  have hmap : (l ++ x :: r).filterMap bound? = (l ++ y :: r).filterMap bound? := by
    simp only [filterMap_append, filterMap_cons, h]
  cases k <;> first | rfl | exact hmap

theorem declares_of_isList (h : k.isList) (ks : List Kind) : k.declares ks = [] := by
  cases k <;> first | rfl | cases h

theorem declares_of_handsOver (h : k.handsOver) (ks : List Kind) : k.declares ks = [] := by
  cases k <;> first | rfl | cases h

theorem bound_of_isExpression (h : k.isExpression) : k.bound? = none := by
  cases k <;> first | rfl | cases h

theorem bound_of_isStatement (h : k.isStatement) : k.bound? = none := by
  cases k <;> first | rfl | cases h

theorem bound_of_isRewritten (h : k.isRewritten) : k.bound? = none := by
  cases k <;> first | rfl | cases h

theorem Substitutes.bound_eq {x y : Kind} (h : y.Substitutes x) : y.bound? = x.bound? := by
  rcases h with rfl | ⟨hx, hy⟩ | ⟨hx, hy⟩
  · rfl
  · rw [bound_of_isExpression hx, bound_of_isExpression hy]
  · rw [bound_of_isRewritten hx, bound_of_isStatement hy]

end Kind

namespace Tree

variable {α : Type} {t : Tree α} {s : Step α}

mutual

def declaredBy (p : Kind → Bool) : Tree α → List SymbolId
  | node _ k cs => (if p k then k.declares (cs.map kind) else []) ++ declaredByAll p cs

def declaredByAll (p : Kind → Bool) : List (Tree α) → List SymbolId
  | [] => []
  | c :: cs => declaredBy p c ++ declaredByAll p cs

end

/-- The symbols that a tree declares: its functions, and the variables right below a `var` list or
a for-in loop. -/
def declared (t : Tree α) : List SymbolId := t.declaredBy fun _ => true

def loopVariables (t : Tree α) : List SymbolId := t.declaredBy (· == .forIn)

/-- What a node exposes by its kind: a handler all that it declares, a branching statement the
variables of its for-in loops. -/
def ownExposed (t : Tree α) : List SymbolId :=
  match t.kind with
  | .catch _ => t.declared
  | .ifElse => t.loopVariables
  | _ => []

mutual

/-- The declarations that stand in a handler, and those of for-in loops that stand in a branch. -/
def exposed : Tree α → List SymbolId
  | node m k cs => ownExposed (node m k cs) ++ exposedAll cs

def exposedAll : List (Tree α) → List SymbolId
  | [] => []
  | c :: cs => exposed c ++ exposedAll cs

end

theorem declaredByAll_eq (p : Kind → Bool) (cs : List (Tree α)) :
    declaredByAll p cs = cs.flatMap (declaredBy p) := by
  induction cs with
  | nil => rw [declaredByAll, flatMap_nil]
  | cons c cs ih => rw [declaredByAll, ih, flatMap_cons]

theorem declaredBy_node (p : Kind → Bool) (m : α) (k : Kind) (cs : List (Tree α)) :
    (node m k cs).declaredBy p =
      (if p k then k.declares (cs.map kind) else []) ++ cs.flatMap (declaredBy p) := by
  rw [declaredBy, declaredByAll_eq]

theorem exposedAll_eq (cs : List (Tree α)) : exposedAll cs = cs.flatMap exposed := by
  induction cs with
  | nil => rw [exposedAll, flatMap_nil]
  | cons c cs ih => rw [exposedAll, ih, flatMap_cons]

theorem exposed_node (m : α) (k : Kind) (cs : List (Tree α)) :
    (node m k cs).exposed = (node m k cs).ownExposed ++ cs.flatMap exposed := by
  rw [exposed, exposedAll_eq]

theorem ownExposed_cases (α : Type) (k : Kind) :
    (∀ (m : α) cs, (node m k cs).ownExposed = (node m k cs).declared) ∨
      (∀ (m : α) cs, (node m k cs).ownExposed = (node m k cs).loopVariables) ∨
      ∀ (m : α) cs, (node m k cs).ownExposed = [] := by
  cases k with
  | «catch» s => exact .inl fun _ _ => rfl
  | ifElse => exact .inr (.inl fun _ _ => rfl)
  | _ => exact .inr (.inr fun _ _ => rfl)

/-! ## Trees that declare nothing -/

def Silent (t : Tree α) : Prop := ∀ p, t.declaredBy p = []

theorem silent_node {m : α} {k : Kind} {cs : List (Tree α)} (hk : k.declares (cs.map kind) = [])
    (hcs : ∀ c ∈ cs, c.Silent) : (node m k cs).Silent := by
  intro p
  rw [declaredBy_node, hk, ite_self, nil_append, flatMap_eq_nil_iff]
  exact fun c hc => hcs c hc p

theorem Silent.exposed_eq (h : t.Silent) : t.exposed = [] := by
  induction t with
  | node m k cs ih =>
    have hcs : ∀ c ∈ cs, c.Silent := by
      intro c hc p
      have hp := h p
      rw [declaredBy_node, append_eq_nil_iff, flatMap_eq_nil_iff] at hp
      exact hp.2 c hc
    have hown : (node m k cs).ownExposed = [] := by
      unfold ownExposed
      split
      · exact h _
      · exact h _
      · rfl
    rw [exposed_node, hown, nil_append, flatMap_eq_nil_iff]
    exact fun c hc => ih c hc (hcs c hc)

theorem IsExpression.silent (h : t.IsExpression) : t.Silent := by
  refine h.node_induction fun m k cs hk => silent_node ?_
  rcases hk with hk | hk <;> cases k <;> first | rfl | cases hk

theorem Fit.silent (h : t.Fit isExpression) : t.Silent :=
  (IsExpression.of_fit h).silent

theorem silent_leaf (m : α) {k : Kind} (h : k.declares [] = []) : (node m k []).Silent :=
  silent_node h (by simp)

/-! ## Keeping declarations -/

structure Keeps (x : SymbolId) (ts us : List (Tree α)) : Prop where
  declared : ∀ p, (us.flatMap (declaredBy p)).count x ≤ (ts.flatMap (declaredBy p)).count x
  exposed : (us.flatMap exposed).count x ≤ (ts.flatMap exposed).count x
  lost : (ts.flatMap Tree.declared).count x + (us.flatMap Tree.exposed).count x ≤
    (us.flatMap Tree.declared).count x + (ts.flatMap Tree.exposed).count x

namespace Keeps

variable {x : SymbolId} {ts us vs ts' us' : List (Tree α)} {c c' : Tree α}

theorem refl (x : SymbolId) (ts : List (Tree α)) : Keeps x ts ts :=
  ⟨fun _ => Nat.le_refl _, Nat.le_refl _, Nat.le_refl _⟩

theorem trans (h : Keeps x ts us) (h' : Keeps x us vs) : Keeps x ts vs := by
  refine ⟨fun p => Nat.le_trans (h'.declared p) (h.declared p),
    Nat.le_trans h'.exposed h.exposed, ?_⟩
  have hlost := h.lost
  have hlost' := h'.lost
  omega

theorem append (h : Keeps x ts us) (h' : Keeps x ts' us') : Keeps x (ts ++ ts') (us ++ us') := by
  obtain ⟨hdeclared, hexposed, hlost⟩ := h
  obtain ⟨hdeclared', hexposed', hlost'⟩ := h'
  refine ⟨fun p => ?_, ?_, ?_⟩ <;> simp only [flatMap_append, count_append]
  · exact Nat.add_le_add (hdeclared p) (hdeclared' p)
  · omega
  · omega

theorem within (h : Keeps x ts us) (l r : List (Tree α)) :
    Keeps x (l ++ (ts ++ r)) (l ++ (us ++ r)) :=
  (refl x l).append (h.append (refl x r))

theorem of_eq
    (hdeclared : ∀ p, (us.flatMap (declaredBy p)).count x = (ts.flatMap (declaredBy p)).count x)
    (hexposed : (us.flatMap Tree.exposed).count x = (ts.flatMap Tree.exposed).count x) :
    Keeps x ts us := by
  refine ⟨fun p => Nat.le_of_eq (hdeclared p), Nat.le_of_eq hexposed, Nat.le_of_eq ?_⟩
  exact congrArg₂ _ (hdeclared _).symm hexposed

theorem of_perm (h : ts.Perm us) : Keeps x ts us :=
  of_eq (fun _ => (h.flatMap_right _).symm.count_eq x) ((h.flatMap_right _).symm.count_eq x)

theorem of_silent (hts : ∀ t ∈ ts, t.Silent) (hus : ∀ u ∈ us, u.Silent) : Keeps x ts us := by
  have hdeclared : ∀ {vs : List (Tree α)}, (∀ v ∈ vs, v.Silent) →
      ∀ p, vs.flatMap (declaredBy p) = [] := fun h p =>
    flatMap_eq_nil_iff.mpr fun v hv => h v hv p
  have hexposed : ∀ {vs : List (Tree α)}, (∀ v ∈ vs, v.Silent) → vs.flatMap Tree.exposed = [] :=
    fun h => flatMap_eq_nil_iff.mpr fun v hv => (h v hv).exposed_eq
  refine of_eq (fun p => ?_) ?_
  · rw [hdeclared hts, hdeclared hus]
  · rw [hexposed hts, hexposed hus]

theorem drop (h : c.Silent) : Keeps x [c] [] :=
  of_silent (forall_mem_singleton.mpr h) (by simp)

theorem add (h : c.Silent) : Keeps x [] [c] :=
  of_silent (by simp) (forall_mem_singleton.mpr h)

theorem exchange (h : c.Silent) (h' : c'.Silent) : Keeps x [c] [c'] :=
  of_silent (forall_mem_singleton.mpr h) (forall_mem_singleton.mpr h')

theorem remark (x : SymbolId) (m : α) (t : Tree α) : Keeps x [t] [node m t.kind t.children] := by
  obtain ⟨m', k, cs⟩ := t
  have hdeclared : ∀ p, (node m k cs).declaredBy p = (node m' k cs).declaredBy p := by
    intro p
    rw [declaredBy_node, declaredBy_node]
  have hown : (node m k cs).ownExposed = (node m' k cs).ownExposed := by
    rcases ownExposed_cases α k with hown | hown | hown <;> rw [hown, hown]
    · exact hdeclared _
    · exact hdeclared _
  refine of_eq (fun p => ?_) ?_
  · simp only [kind_node, children_node, flatMap_singleton, hdeclared]
  · simp only [kind_node, children_node, flatMap_singleton, exposed_node, hown]

theorem dropHandler (h : c.kind.isCatch) : Keeps x [c] [] := by
  obtain ⟨m, k, cs⟩ := c
  cases k <;> cases h
  refine ⟨fun p => Nat.zero_le _, Nat.zero_le _, ?_⟩
  simp only [flatMap_singleton, flatMap_nil, exposed_node, count_append,
    count_nil, ownExposed, kind_node]
  omega

section

variable {m m' : α} {k : Kind} {cs ds : List (Tree α)}

theorem node (h : Keeps x cs ds) (hk : k.declares (ds.map kind) = k.declares (cs.map kind)) :
    Keeps x [node m k cs] [node m k ds] := by
  have hdeclared : ∀ p, ((Tree.node m k ds).declaredBy p).count x ≤
      ((Tree.node m k cs).declaredBy p).count x := by
    intro p
    rw [declaredBy_node, declaredBy_node, hk, count_append, count_append]
    exact Nat.add_le_add_left (h.declared p) _
  have hexposed := h.exposed
  have hlost := h.lost
  have hall : ((Tree.node m k ds).declared).count x ≤ ((Tree.node m k cs).declared).count x :=
    hdeclared _
  have hloops : ((Tree.node m k ds).loopVariables).count x ≤
      ((Tree.node m k cs).loopVariables).count x := hdeclared _
  have hsplit : ∀ es : List (Tree α), k.declares (es.map kind) = k.declares (cs.map kind) →
      ((Tree.node m k es).declared).count x =
        (k.declares (cs.map kind)).count x + (es.flatMap Tree.declared).count x := by
    intro es hes
    rw [Tree.declared, declaredBy_node, if_pos rfl, hes, count_append]
    rfl
  have hcs := hsplit cs rfl
  have hds := hsplit ds hk
  rcases ownExposed_cases α k with hown | hown | hown
  all_goals
    refine ⟨fun p => ?_, ?_, ?_⟩ <;>
      simp only [flatMap_singleton, exposed_node, count_append, hown]
    · exact hdeclared p
    · omega
    · omega

theorem openNode (hk : k.declares (cs.map kind) = []) : Keeps x [Tree.node m k cs] cs := by
  have hdeclared : ∀ p, (Tree.node m k cs).declaredBy p = cs.flatMap (declaredBy p) := by
    intro p
    rw [declaredBy_node, hk, ite_self, nil_append]
  refine ⟨fun p => ?_, ?_, ?_⟩
  · simp only [flatMap_singleton, hdeclared]
    exact Nat.le_refl _
  · simp only [flatMap_singleton, exposed_node, count_append]
    exact Nat.le_add_left _ _
  · simp only [flatMap_singleton, exposed_node, count_append]
    have hall := congrArg (count x) (hdeclared fun _ => true)
    change ((Tree.node m k cs).declared).count x = (cs.flatMap Tree.declared).count x at hall
    omega

theorem closeNode (hk : k.declares (cs.map kind) = []) (hown : (Tree.node m k cs).ownExposed = []) :
    Keeps x cs [Tree.node m k cs] := by
  refine of_eq (fun p => ?_) ?_
  · rw [flatMap_singleton, declaredBy_node, hk, ite_self, nil_append]
  · rw [flatMap_singleton, exposed_node, hown, nil_append]

end

end Keeps

/-! ## Rules -/

theorem silent_of_isEmpty (ht : t.WellShaped) (h : t.isEmpty) : t.Silent := by
  obtain ⟨m, rfl⟩ := IsEmpty.of_wellShaped (eq_of_beq h) ht
  exact silent_leaf m rfl

theorem declared_of_bindsNames (ht : t.WellShaped) (h : t.bindsNames = false) :
    t.declared = t.loopVariables := by
  induction t with
  | node m k cs ih =>
    cases hk : k.isExpression with
    | true =>
      have hsilent : (node m k cs).Silent := Fit.silent ⟨hk, ht⟩
      rw [declared, loopVariables, hsilent, hsilent]
    | false =>
      rw [bindsNames_node, hk, Bool.not_false, Bool.true_and, Bool.or_eq_false_iff,
        any_eq_false] at h
      obtain ⟨hbinder, hcs⟩ := h
      have hchildren : cs.flatMap declared = cs.flatMap loopVariables :=
        flatMap_congr fun c hc => ih c hc (ht.child c hc) (by simpa using hcs c hc)
      have hown : k.declares (cs.map kind) =
          if k == .forIn then k.declares (cs.map kind) else [] := by
        cases k with
        | varStatement | function s => cases hbinder
        | _ => rfl
      rw [declared, loopVariables, declaredBy_node, declaredBy_node, if_pos rfl, ← hown]
      exact congrArg _ hchildren

theorem Keeps.take {x : SymbolId} {m : α} {t a b : Tree α} (ht : t.Silent) (hb : b.WellShaped)
    (hbinds : b.bindsNames = false) {cs : List (Tree α)} (hcs : cs.Perm [t, a, b]) :
    Keeps x [Tree.node m .ifElse cs] [a] := by
  have hdeclared : ∀ p, ((Tree.node m .ifElse cs).declaredBy p).count x =
      (a.declaredBy p).count x + (b.declaredBy p).count x := by
    intro p
    rw [declaredBy_node, show ifElse.declares (cs.map kind) = [] from rfl, ite_self,
      nil_append, (hcs.flatMap_right _).count_eq]
    simp only [flatMap_cons, flatMap_nil, ht p, nil_append, append_nil, count_append]
  have hexposed : ((Tree.node m .ifElse cs).exposed).count x =
      (a.loopVariables).count x + (b.loopVariables).count x +
        (a.exposed.count x + b.exposed.count x) := by
    rw [exposed_node, count_append, (hcs.flatMap_right _).count_eq]
    simp only [flatMap_cons, flatMap_nil, ht.exposed_eq, nil_append, append_nil, count_append]
    exact congrArg (· + _) (hdeclared (· == .forIn))
  have hall : ((Tree.node m .ifElse cs).declared).count x =
      (a.declared).count x + (b.declared).count x := hdeclared _
  have hloops := congrArg (count x) (declared_of_bindsNames hb hbinds)
  refine ⟨fun p => ?_, ?_, ?_⟩
  · simp only [flatMap_singleton, hdeclared]
    exact Nat.le_add_right _ _
  · simp only [flatMap_singleton, hexposed]
    omega
  · simp only [flatMap_singleton, hexposed]
    omega

theorem Keeps.unbrace {x : SymbolId} {b : Tree (Option α)} (h : b.unbrace? = some s) :
    Keeps x [b] [s.tree] := by
  obtain ⟨m, ⟨rfl, rfl⟩ | ⟨c, rfl, rfl⟩⟩ := unbrace_cases h
  · exact .exchange (silent_leaf m rfl) (silent_leaf m rfl)
  · exact (Keeps.openNode rfl).trans (.remark x m _)

theorem Keeps.tryStatement {x : SymbolId} {m : Option α} {b h f : Tree (Option α)}
    (hb : b.Fit (· == .block)) (hh : h.Fit fitsHandler) (hf : f.Fit fitsFinalizer)
    (hs : Step.tryStatement m b h f [] = some s) :
    Keeps x [Tree.node m .try [b, h, f]] [s.tree] := by
  have hopen : Keeps x [Tree.node m .try [b, h, f]] [b, h, f] := .openNode rfl
  unfold Step.tryStatement at hs
  split at hs
  · rename_i hnil
    have hblock : b.Silent := by
      obtain ⟨mb, k, cs⟩ := b
      obtain rfl : k = .block := eq_of_beq hb.1
      obtain rfl : cs = [] := isEmpty_iff.mp hnil
      exact silent_leaf mb rfl
    have hhandler : Keeps x [h] [] := by
      rcases Bool.or_eq_true _ _ ▸ hh.1 with hempty | hcatch
      · exact .drop (silent_of_isEmpty hh.2 hempty)
      · exact .dropHandler hcatch
    have hrest : Keeps x [b, h, f] [f] :=
      ((Keeps.drop hblock).append hhandler).append (.refl x [f])
    split at hs
    · rename_i hempty
      cases hs
      exact (hopen.trans hrest).trans
        (.exchange (silent_of_isEmpty hf.2 hempty) (silent_leaf m rfl))
    · cases hs
      exact (hopen.trans hrest).trans (.remark x m f)
  · split at hs
    · rename_i hempty
      rw [Bool.and_eq_true] at hempty
      cases hs
      have hrest : Keeps x [b, h, f] [b] :=
        (Keeps.refl x [b]).append ((Keeps.drop (silent_of_isEmpty hh.2 hempty.1)).append
          (.drop (silent_of_isEmpty hf.2 hempty.2)))
      exact (hopen.trans hrest).trans (.remark x m b)
    · cases hs

theorem Keeps.list {x : SymbolId} {m : α} {k : Kind} {ts us : List (Tree α)} (h : Keeps x ts us)
    (hk : k.isList) (l r : List (Tree α)) :
    Keeps x [Tree.node m k (l ++ (ts ++ r))] [Tree.node m k (l ++ (us ++ r))] :=
  (h.within l r).node (by rw [declares_of_isList hk, declares_of_isList hk])

theorem Keeps.pair {x : SymbolId} {m : α} {k : Kind} {a b c : Tree α} (h : Keeps x [a, b] [c])
    (hk : k.isList) (l r : List (Tree α)) :
    Keeps x [Tree.node m k (l ++ a :: b :: r)] [Tree.node m k (l ++ c :: r)] :=
  h.list hk l r

theorem Keeps.child {x : SymbolId} {m : α} {k : Kind} {c c' : Tree α} (h : Keeps x [c] [c'])
    (hk : c'.kind.bound? = c.kind.bound?) (l r : List (Tree α)) :
    Keeps x [Tree.node m k (l ++ c :: r)] [Tree.node m k (l ++ c' :: r)] := by
  refine (h.within l r).node ?_
  show k.declares ((l ++ c' :: r).map kind) = k.declares ((l ++ c :: r).map kind)
  simp only [map_append, map_cons]
  exact k.declares_exchange hk _ _

theorem Keeps.mergeDeclarations {x : SymbolId} {a b : α} (xs ys : List (Tree α)) :
    Keeps x [Tree.node a .varStatement xs, Tree.node b .varStatement ys]
      [Tree.node a .varStatement (xs ++ ys)] := by
  refine .of_eq (fun p => ?_) ?_
  · simp only [flatMap_cons, flatMap_nil, append_nil, declaredBy_node,
      declares, map_append, filterMap_append, flatMap_append, count_append]
    split
    · rw [count_append]
      omega
    · rw [count_nil]
      omega
  · simp only [flatMap_cons, flatMap_nil, append_nil, exposed_node,
      flatMap_append, count_append, ownExposed, kind_node, count_nil]
    omega

theorem silent_value {m : α} {k : Kind} {cs : List (Tree α)} (hk : k.handsOver)
    (h : (node m k cs).WellShaped) : (node m k cs).Silent := by
  obtain ⟨x, rfl, hx⟩ := (wellShaped_one (places_of_handsOver hk)).mp h
  exact silent_node (declares_of_handsOver hk _) (forall_mem_singleton.mpr hx.silent)

theorem Keeps.values {x : SymbolId} {a b c : α} {j k v : Kind} {xs ys zs : List (Tree α)}
    (hj : j.handsOver) (hk : k.handsOver) (hv : v.handsOver)
    (ha : (Tree.node a j xs).WellShaped) (hb : (Tree.node b k ys).WellShaped)
    (hc : (Tree.node c v zs).WellShaped) :
    Keeps x [Tree.node a j xs, Tree.node b k ys] [Tree.node c v zs] := by
  refine .of_silent ?_ (forall_mem_singleton.mpr (silent_value hv hc))
  simpa using ⟨silent_value hj ha, silent_value hk hb⟩

theorem Keeps.setup {x : SymbolId} {a b : α} {s s' : Tree α} {xs others : List (Tree α)}
    (ha : (Tree.node a .expression xs).WellShaped) (hs : s.Silent) (hs' : s'.Silent) :
    Keeps x [Tree.node a .expression xs, Tree.node b .forLoop (s :: others)]
      [Tree.node b .forLoop (s' :: others)] := by
  have hloop : Keeps x (s :: others) (s' :: others) := (Keeps.exchange hs hs').within [] others
  exact ((Keeps.drop (silent_value rfl ha)).append (.refl x [_])).trans (hloop.node rfl)

theorem Rewrites.keeps {known : WellKnown} {t : Tree (Option α)} (h : Rewrites known t s)
    (ht : t.WellShaped) (x : SymbolId) : Keeps x [t] [s.tree] := by
  obtain ⟨hnew, hkind⟩ := h.wellShaped ht
  by_cases hexpression : t.kind.isExpression
  · exact .exchange (Fit.silent ⟨hexpression, ht⟩)
      (Fit.silent ⟨stable_isExpression hkind hexpression, hnew⟩)
  cases h with
  | @dropEmpty m k l r c hk hc =>
    exact (Keeps.drop (silent_of_isEmpty (ht.child c (by simp)) hc)).list hk l r
  | @splice m k l r c hk hc =>
    obtain ⟨mc, kc, cs⟩ := c
    obtain rfl : kc = .block := isBlock_of_isDissolvable hc
    exact (Keeps.openNode rfl).list hk l r
  | @mergeDeclarations m k l r a b xs ys hk => exact (Keeps.mergeDeclarations xs ys).list hk l r
  | @mergeExpressions m k l r a b y z hk =>
    refine Keeps.pair (.values rfl rfl rfl ?_ ?_ (hnew.child _ (by simp))) hk l r
    · exact ht.child _ (by simp)
    · exact ht.child _ (by simp)
  | @mergeIntoValue m k l r a b y z v hk hv =>
    have hhands : v.handsOver := by rcases hv with rfl | rfl <;> rfl
    refine Keeps.pair (.values rfl hhands hhands ?_ ?_ (hnew.child _ (by simp))) hk l r
    · exact ht.child _ (by simp)
    · exact ht.child _ (by simp)
  | @fillSetup m k l r a b y setup others hk hs =>
    have ha := ht.child (Tree.node a .expression [y]) (by simp)
    have hloop := ht.child (Tree.node b .forLoop (setup :: others)) (by simp)
    have hsetup := silent_of_isEmpty (hloop.child setup (by simp)) hs
    exact (Keeps.setup ha hsetup ((wellShaped_singleton rfl).mp ha).silent).pair hk l r
  | @mergeIntoSetup m k l r a b y setup others hk hs =>
    have ha := ht.child (Tree.node a .expression [y]) (by simp)
    have hloop := ht.child (Tree.node b .forLoop (setup :: others)) (by simp)
    have hsetup : setup.Fit isExpression := ⟨hs, hloop.child setup (by simp)⟩
    have hcomma := fit_comma ((wellShaped_singleton rfl).mp ha) hsetup
    exact (Keeps.setup ha hsetup.silent hcomma.silent).pair hk l r
  | @reduce m k l r c s hk hc hs =>
    have hfit : c.Fit isExpression := ⟨hc, ht.child c (by simp)⟩
    have hreduced := (reduced_total hfit hs).1
    exact (Keeps.exchange hfit.silent hreduced.silent).child
      (Substitutes.bound_eq (.expression hc hreduced.1)) l r
  | dropStatement => exact .exchange (silent_value rfl ht) (silent_leaf _ rfl)
  | @dropClause m l r c hk he hc =>
    have hfit : c.Fit isExpression := ⟨he, ht.child c (by simp)⟩
    exact ((Keeps.exchange hfit.silent (silent_leaf c.mark rfl)).within l r).node rfl
  | @unbrace m k l r b s hk hs =>
    have hstatement := (fit_unbrace (ht.child b (by simp)) hs).1
    refine (Keeps.unbrace hs).child ?_ l r
    rw [isBlock_of_unbrace hs]
    exact bound_of_isStatement hstatement
  | @dropTest m a t u b htruthy =>
    have hsilent : t.Silent := by
      rcases IsClause.of_fit ((wellShaped_quadruple rfl).mp ht).2.1 with hclause | ⟨mt, rfl⟩
      · exact hclause.silent
      · exact silent_leaf mt rfl
    exact ((Keeps.exchange hsilent (silent_leaf t.mark rfl)).within [a] [u, b]).node rfl
  | @whileToFor m t b =>
    have hempty : (new .empty [] : Tree (Option α)).Silent := silent_leaf none rfl
    have hopen : Keeps x [Tree.node m .whileLoop [t, b]] [t, b] := .openNode rfl
    have hclauses : Keeps x [t, b] [new .empty [], t, new .empty [], b] :=
      ((Keeps.add hempty).append (.refl x [t])).append
        ((Keeps.add hempty).append (.refl x [b]))
    exact (hopen.trans hclauses).trans (.closeNode rfl rfl)
  | @dropRethrow m b h f hh =>
    have hcatch : h.kind.isCatch := by
      unfold rethrows at hh
      split at hh
      · rename_i heq
        rw [heq]
        rfl
      · cases hh
    have hhandler : Keeps x [h] [Tree.node h.mark .empty []] :=
      (Keeps.dropHandler hcatch).trans (.add (silent_leaf h.mark rfl))
    exact (hhandler.within [b] [f]).node rfl
  | @dropFinalizer m a b h =>
    exact ((Keeps.exchange (silent_leaf a rfl) (silent_leaf a rfl)).within [b, h] []).node rfl
  | tryBlock hs =>
    obtain ⟨hb, hh, hf⟩ := (wellShaped_triple rfl).mp ht
    exact .tryStatement hb hh hf hs
  | @take m truth t y z htruth hd =>
    obtain ⟨ht', hy, hz⟩ := (wellShaped_triple rfl).mp ht
    cases truth with
    | true => exact (Keeps.take ht'.silent hz.2 hd (.refl _)).trans (.remark x m y)
    | false =>
      exact (Keeps.take ht'.silent hy.2 hd ((Perm.swap z y []).cons t)).trans
        (.remark x m z)
  | @invert m y z s t h =>
    obtain ⟨ht', -, -⟩ := (wellShaped_triple rfl).mp ht
    have hbranches : Keeps x [y, z] [z, y] := .of_perm (.swap z y [])
    exact ((Keeps.exchange ht'.silent (fit_negation ht' h).silent).append hbranches).node rfl
  | testOnly hy hz =>
    obtain ⟨ht', hy', hz'⟩ := (wellShaped_triple rfl).mp ht
    refine .exchange (silent_node rfl ?_) (silent_value rfl hnew)
    simpa using ⟨ht'.silent, silent_of_isEmpty hy'.2 hy, silent_of_isEmpty hz'.2 hz⟩
  | join hk =>
    obtain ⟨ht', hy, hz⟩ := (wellShaped_triple rfl).mp ht
    refine .exchange (silent_node rfl ?_) (silent_value hk hnew)
    simpa using ⟨ht'.silent, silent_value hk hy.2, silent_value hk hz.2⟩
  | toLogical hz | toLogicalNot hz =>
    obtain ⟨ht', hy, hz'⟩ := (wellShaped_triple rfl).mp ht
    refine .exchange (silent_node rfl ?_) (silent_value rfl hnew)
    simpa using ⟨ht'.silent, silent_value rfl hy.2, silent_of_isEmpty hz'.2 hz⟩
  | _ => exact absurd rfl hexpression

theorem Reduces.keeps {known : WellKnown} {t t' : Tree (Option α)} {d : List (Tree (Option α))}
    (h : Reduces known t t' d) (ht : t.WellShaped) (x : SymbolId) : Keeps x [t] [t'] := by
  induction h with
  | refl t => exact .refl x [t]
  | rule h => exact h.keeps ht x
  | trans h _ ih ih' => exact (ih ht).trans (ih' (h.wellShaped ht).1)
  | @child m k l r c c' d h ih =>
    have hc := ht.child c (by simp)
    exact (ih hc).child (h.wellShaped hc).2.bound_eq l r

/-! ## Marks -/

theorem declaredBy_map {β : Type} (f : α → β) (p : Kind → Bool) (t : Tree α) :
    (t.map f).declaredBy p = t.declaredBy p := by
  induction t with
  | node m k cs ih =>
    have hkinds : (cs.map (Tree.map f)).map kind = cs.map kind := by
      rw [List.map_map]
      exact map_congr_left fun c _ => kind_map f c
    rw [map_node, declaredBy_node, declaredBy_node, hkinds, flatMap_map]
    exact congrArg _ (flatMap_congr fun c hc => ih c hc)

theorem exposed_map {β : Type} (f : α → β) (t : Tree α) : (t.map f).exposed = t.exposed := by
  induction t with
  | node m k cs ih =>
    have hown : (node (f m) k (cs.map (Tree.map f))).ownExposed = (node m k cs).ownExposed := by
      have hdeclared := fun p => declaredBy_map f p (node m k cs)
      simp only [map_node] at hdeclared
      cases k with
      | «catch» s => exact hdeclared fun _ => true
      | ifElse => exact hdeclared (· == .forIn)
      | _ => rfl
    rw [map_node, exposed_node, exposed_node, hown, flatMap_map]
    exact congrArg _ (flatMap_congr fun c hc => ih c hc)

end Tree

/-! ## Simplifying a tree in a store -/

namespace Store

variable {s : Store} {n : NodeId}

/-- Simplification never declares a symbol that was not declared before. It never loses the
declaration of a symbol either, unless that is declared in a handler, or by a for-in loop in a
branch. -/
theorem simplify_keeps_declarations (known : WellKnown) (hs : s.Consistent) (hn : s.Has n)
    (hv : s.verify n = .ok ()) : ∃ s' changed, s.simplify known n = .ok (s', changed) ∧
      ∀ x, (x ∈ (s'.tree n).declared → x ∈ (s.tree n).declared) ∧
        (x ∉ (s.tree n).exposed → (x ∈ (s'.tree n).declared ↔ x ∈ (s.tree n).declared)) := by
  obtain ⟨kids, h⟩ := hs
  have ht := h.verify_eq_ok.mp hv
  obtain ⟨t, d, s', changed, hrun, hred, hgrown⟩ := h.simplify_eq_ok known hn ht
  refine ⟨s', changed, hrun, fun x => ?_⟩
  have hkeeps := hred.keeps (Tree.wellShaped_map.mpr ht) x
  have hafter : (s'.tree n).declared = t.declared := by
    have hbare := congrArg Tree.declared hgrown.tree
    rwa [Tree.declared, Tree.bare, Tree.declaredBy_map, Tree.declared, Tree.bare,
      Tree.declaredBy_map] at hbare
  have hbefore : ((s.tree n).map some).declared = (s.tree n).declared := Tree.declaredBy_map _ _ _
  have hle := hkeeps.declared fun _ => true
  have hlost := hkeeps.lost
  simp only [flatMap_singleton] at hle hlost
  change (t.declared).count x ≤ (((s.tree n).map some).declared).count x at hle
  rw [hbefore] at hle hlost
  rw [Tree.exposed_map] at hlost
  rw [hafter]
  simp only [← count_pos_iff]
  constructor
  · omega
  · intro hx
    omega

def deadBranch : Store :=
  (Store.empty.grow (.node () .module
    [.node () .ifElse
      [.node () (.boolean false) [], .node () .block
          [.node () .varStatement [.node () (.variable ⟨0⟩) [.node () .undefined []]]],
        .node () .empty []]])).2

theorem simplify_keeps_declarations_deadBranch :
    deadBranch.Consistent ∧ deadBranch.Has ⟨0⟩ ∧ deadBranch.verify ⟨0⟩ = .ok () ∧
      ⟨0⟩ ∉ (deadBranch.tree ⟨0⟩).exposed ∧
      ∃ s' changed, deadBranch.simplify ⟨⟨1⟩, ⟨2⟩⟩ ⟨0⟩ = .ok (s', changed) ∧
        ⟨0⟩ ∈ (s'.tree ⟨0⟩).declared := by
  have hs : deadBranch.Consistent := Consistent.grow ⟨_, Links.empty⟩ _
  have hn : deadBranch.Has ⟨0⟩ := by decide
  have hexposed : ⟨0⟩ ∉ (deadBranch.tree ⟨0⟩).exposed := by decide
  have hdeclared : ⟨0⟩ ∈ (deadBranch.tree ⟨0⟩).declared := by decide
  obtain ⟨s', changed, hrun, hkeeps⟩ := simplify_keeps_declarations ⟨⟨1⟩, ⟨2⟩⟩ hs hn rfl
  exact ⟨hs, hn, rfl, hexposed, s', changed, hrun, ((hkeeps ⟨0⟩).2 hexposed).mpr hdeclared⟩

def idleHandler : Store :=
  (Store.empty.grow (.node () .module
    [.node () .try
      [.node () .block [], .node () (.catch ⟨0⟩)
          [.node () .block
            [.node () .varStatement [.node () (.variable ⟨1⟩) [.node () .undefined []]]]],
        .node () .empty []]])).2

theorem simplify_loses_declaration_idleHandler :
    idleHandler.verify ⟨0⟩ = .ok () ∧ (idleHandler.tree ⟨0⟩).declared = [⟨1⟩] ∧
      (idleHandler.simplify ⟨⟨2⟩, ⟨3⟩⟩ ⟨0⟩).map (fun r => (r.1.tree ⟨0⟩).declared) = .ok [] :=
  ⟨rfl, by decide, by decide +kernel⟩

end Store

end ScriptPress

import ScriptPress.Proofs.Simplify.Store

/-! # Where the value of an expression is handed on from -/

namespace ScriptPress

variable {known : WellKnown}

open List Tree Kind

namespace Kind

/-- What a node hands on, given what each of its children hands on. The left operand of a logical
operator counts only if `left` is set. A sequence without elements stands for itself. -/
def handsOn (left : Bool) (k : Kind) (parts : List (List Kind)) : List Kind :=
  match k with
  | .sequence => parts.getLast?.getD [.sequence]
  | .conditional => parts.tail.flatten
  | .binary op =>
    if op.isLogical then (if left then parts else parts.tail).flatten else [.binary op]
  | k => [k]

structure Innate (left : Bool) (p : Kind → Prop) : Prop where
  sequence : p .sequence
  literal : ∀ {k : Kind}, k.isLiteral → p k → k = .undefined ∧ left = true ∧ p (.unary .void)

/-- The kinds of nodes that a call and a deletion treat as a place inside an object. -/
def isReference : Kind → Bool
  | member _ | index => true
  | _ => false

theorem handsOn_of_isLiteral {left : Bool} {k : Kind} (h : k.isLiteral)
    (parts : List (List Kind)) : k.handsOn left parts = [k] := by
  cases k <;> first | rfl | cases h

theorem handsOn_of_isReference {left : Bool} {k : Kind} (h : k.isReference)
    (parts : List (List Kind)) : k.handsOn left parts = [k] := by
  cases k <;> first | rfl | cases h

theorem isExpression_of_mem {k x : Kind} {ks : List Kind} (hk : k.isExpression)
    (hobject : k ≠ .object) (h : k.checkChildren ks = .ok ()) (hx : x ∈ ks) :
    x.isExpression := by
  rcases k.places_cases with ⟨places, hplaces⟩ | ⟨fits, hfits⟩ | hcall | ⟨s, rfl⟩
  · have hall : ∀ fits ∈ places, fits = isExpression := by
      cases k <;> cases hk <;> cases hplaces <;> simp
    have hforall := (checkChildren_of_places hplaces).mp h
    clear h hplaces
    induction hforall with
    | nil => cases hx
    | cons hfit _ ih =>
      rcases mem_cons.mp hx with rfl | hx
      · rwa [hall _ (.head _)] at hfit
      · exact ih hx fun fits hfits => hall fits (.tail _ hfits)
  · obtain rfl : fits = isExpression := by
      cases k <;> first | cases hk; done | cases hfits <;> first | rfl | exact absurd rfl hobject
    exact (checkChildren_of_element hfits).mp h x hx
  · exact ((checkChildren_call hcall).mp h).2 x hx
  · cases hk

end Kind

namespace Tree

variable {α : Type} {d : List (Tree (Option α))}

mutual

/-- The kinds of the nodes that the value of an expression may be handed on from. -/
def outcomes (left : Bool) : Tree α → List Kind
  | node _ k cs => k.handsOn left (outcomesEach left cs)

def outcomesEach (left : Bool) : List (Tree α) → List (List Kind)
  | [] => []
  | c :: cs => outcomes left c :: outcomesEach left cs

end

/-- Some node that the value may be handed on from has a kind of the given sort. -/
def Yields (left : Bool) (p : Kind → Prop) (t : Tree α) : Prop := ∃ k ∈ t.outcomes left, p k

instance {left : Bool} {p : Kind → Prop} [DecidablePred p] (t : Tree α) :
    Decidable (t.Yields left p) :=
  inferInstanceAs (Decidable (∃ k ∈ t.outcomes left, p k))

theorem outcomes_node (left : Bool) (m : α) (k : Kind) (cs : List (Tree α)) :
    (node m k cs).outcomes left = k.handsOn left (cs.map (outcomes left)) := by
  have heach : ∀ cs : List (Tree α), outcomesEach left cs = cs.map (outcomes left) := by
    intro cs
    induction cs with
    | nil => rw [outcomesEach, map_nil]
    | cons c cs ih => rw [outcomesEach, ih, map_cons]
  rw [outcomes, heach]

theorem outcomes_map {β : Type} (left : Bool) (f : α → β) (t : Tree α) :
    (t.map f).outcomes left = t.outcomes left := by
  induction t with
  | node m k cs ih =>
    rw [map_node, outcomes_node, outcomes_node, List.map_map]
    exact congrArg _ (map_congr_left ih)

theorem outcomes_of_sameAs {t u : Tree α} (left : Bool) (h : t.sameAs u) :
    t.outcomes left = u.outcomes left := by
  rw [← outcomes_map left (fun _ => ()) t, ← outcomes_map left (fun _ => ()) u]
  exact congrArg _ ((sameAs_iff t u).mp h)

/-! ## What a node hands on -/

section

variable {left : Bool} {p : Kind → Prop} {m m' : α} {k : Kind} {cs l r : List (Tree α)}
  {t x y : Tree α}

theorem yields_mark : (node m t.kind t.children).Yields left p ↔ t.Yields left p := by
  obtain ⟨m', k, cs⟩ := t
  simp only [Yields, kind_node, children_node, outcomes_node]

theorem yields_sequence (hp : p .sequence) :
    (node m .sequence cs).Yields left p ↔ ∀ x ∈ cs.getLast?, x.Yields left p := by
  rw [Yields, outcomes_node, handsOn, getLast?_map]
  cases cs.getLast? with
  | none => simp [hp]
  | some x => simp [Yields]

theorem yields_conditional :
    (node m .conditional [t, x, y]).Yields left p ↔ x.Yields left p ∨ y.Yields left p := by
  simp only [Yields, outcomes_node, handsOn, map_cons, map_nil, tail_cons,
    flatten_cons, flatten_nil, append_nil, mem_append, or_and_right, exists_or]

theorem yields_logical {op : BinaryOp} (hop : op.isLogical) :
    (node m (.binary op) [x, y]).Yields left p ↔
      left = true ∧ x.Yields left p ∨ y.Yields left p := by
  cases left with
  | true =>
    simp [Yields, outcomes_node, handsOn, hop, or_and_right, exists_or]
  | false => simp [Yields, outcomes_node, handsOn, hop]

theorem yields_self (hk : ∀ parts, k.handsOn left parts = [k]) :
    (node m k cs).Yields left p ↔ p k := by
  rw [Yields, outcomes_node, hk]
  simp

end

/-! ## Rules -/

theorem void_of_unaryValue {op : UnaryOp} {x : Tree (Option α)}
    (h : Step.unaryValue? op x = .ok (some .undefined)) : op = .void := by
  cases op with
  | void => rfl
  | typeOf =>
    simp only [Step.unaryValue?, bind, Except.bind] at h
    split at h
    · cases h
    · split at h <;> simp [pure, Except.pure] at h
  | not | negative | positive | complement =>
    simp [Step.unaryValue?, foldUnary] at h
  | _ => cases h

theorem foldBinary_ne_undefined {op : BinaryOp} {a b : Kind} :
    foldBinary op a b ≠ some .undefined := by
  intro h
  cases op with
  | add =>
    rw [foldBinary, foldSum] at h
    split at h <;> simp [foldNumbers, Option.bind_eq_some_iff] at h
  | _ =>
    simp [foldBinary, foldWords, foldUnsignedShift, foldNumbers,
      foldOrder, Option.bind_eq_some_iff] at h

theorem kind_of_isCertainlyString {t : Tree α} (h : t.isCertainlyString = .ok true) :
    (∃ text, t.kind = .string text) ∨ t.kind = .binary .add := by
  rw [isCertainlyString.eq_def] at h
  split at h
  · exact .inl ⟨_, rfl⟩
  · exact .inr rfl
  · cases h

section

variable {left : Bool} {p : Kind → Prop} (hp : Innate left p)

include hp

theorem Yields.of_comma {x y : Tree (Option α)} (h : (Step.comma x y).tree.Yields left p) :
    y.Yields left p := by
  obtain ⟨m, k, cs⟩ := y
  have hlast := (yields_sequence hp.sequence).mp h
  by_cases hk : k = .sequence
  · subst hk
    refine (yields_sequence hp.sequence).mpr fun z hz => hlast z ?_
    exact mem_getLast?_append_of_mem_getLast? hz
  · have hparts : Step.commaParts (node m k cs) = [node m k cs] := by
      cases k <;> first | rfl | exact absurd rfl hk
    exact hlast _ (by simp [hparts])

theorem Rewrites.yields {t : Tree (Option α)} {s : Step α} (h : Rewrites known t s)
    (ht : t.Fit isExpression) (hs : s.tree.Yields left p) : t.Yields left p := by
  cases h with
  | dropEmpty hk _ | splice hk _ | mergeDeclarations hk | mergeExpressions hk
  | mergeIntoValue hk _ | fillSetup hk _ | mergeIntoSetup hk _ =>
    exact absurd ht.1 (by simp [not_isExpression_of_isList hk])
  | unbrace hk _ => exact absurd ht.1 (by simp [not_isExpression_of_hasBody hk])
  | @reduce m k l r c s hk hc _ =>
    -- The last element of the sequence is another one.
    obtain ⟨rfl, hr⟩ : k = .sequence ∧ r ≠ [] := by
      cases k <;> first | cases ht.1; done | cases r <;> first | cases hk; done | simp
    rw [yields_sequence hp.sequence, getLast?_append_cons,
      getLast?_cons_of_ne_nil hr] at hs ⊢
    exact hs
  | @dropElement m l r c hr hc =>
    rw [yields_sequence hp.sequence] at hs ⊢
    rw [getLast?_append_of_ne_nil l hr] at hs
    rwa [getLast?_append_cons, getLast?_cons_of_ne_nil hr]
  | @flatten m a l cs r =>
    rw [yields_sequence hp.sequence] at hs ⊢
    by_cases hr : r = []
    · subst hr
      rw [append_nil] at hs
      have hinner : (node a .sequence cs).Yields left p :=
        (yields_sequence hp.sequence).mpr fun x hx =>
          hs x (mem_getLast?_append_of_mem_getLast? hx)
      simpa using hinner
    · rw [← append_assoc, getLast?_append_of_ne_nil _ hr] at hs
      rwa [getLast?_append_cons, getLast?_cons_of_ne_nil hr]
  | single => exact (yields_sequence hp.sequence).mpr (by simpa using yields_mark.mp hs)
  | @foldUnary m op x k h =>
    have hk := Step.isLiteral_unaryValue h
    obtain ⟨rfl, -, hvoid⟩ := hp.literal hk ((yields_self (handsOn_of_isLiteral hk)).mp hs)
    obtain rfl := void_of_unaryValue h
    exact (yields_self fun _ => rfl).mpr hvoid
  | @tripleNot m a x hx =>
    have hkind : x.kind = .unary .not := eq_of_beq hx
    obtain ⟨m', k, cs⟩ := x
    subst hkind
    exact (yields_self fun _ => rfl).mpr ((yields_self fun _ => rfl).mp hs)
  | @logical m op x y s hop h =>
    obtain ⟨b, hb, rfl⟩ := Option.map_eq_some_iff.mp h
    refine (yields_logical hop).mpr ?_
    split at hs
    · exact .inr (yields_mark.mp hs)
    · have hliteral := isLiteral_of_truth hb
      have hleft := (hp.literal hliteral
        ((yields_self (handsOn_of_isLiteral hliteral)).mp hs)).2.1
      exact .inl ⟨hleft, yields_mark.mp hs⟩
  | @foldBinary m op k x y _ _ h =>
    have hk := isLiteral_foldBinary h
    obtain ⟨rfl, -⟩ := hp.literal hk ((yields_self (handsOn_of_isLiteral hk)).mp hs)
    exact absurd h foldBinary_ne_undefined
  | power _ _ => cases (hp.literal rfl ((yields_self fun _ => rfl).mp hs)).1
  | appendLiteral | moveEmptyHead | prependLiteral | moveEmptyTail =>
    exact (yields_self fun _ => rfl).mpr ((yields_self fun _ => rfl).mp hs)
  | @dropEmptyTail m x y hy hx =>
    change (node m x.kind x.children).Yields left p at hs
    rcases kind_of_isCertainlyString hx with ⟨text, hkind⟩ | hkind
    · rw [hkind] at hs
      cases (hp.literal rfl ((yields_self fun _ => rfl).mp hs)).1
    · rw [hkind] at hs
      exact (yields_self fun _ => rfl).mpr ((yields_self fun _ => rfl).mp hs)
  | swapConditional => exact yields_conditional.mpr (yields_conditional.mp hs).symm
  | @choose m b t x y s ht h =>
    refine yields_conditional.mpr ?_
    cases b with
    | true =>
      cases h
      exact .inl (yields_mark.mp hs)
    | false =>
      cases h
      exact .inr (yields_mark.mp hs)
  | sameBranches _ =>
    exact yields_conditional.mpr (.inl (.of_comma hp (yields_mark.mp hs)))
  | sameBranchesPure _ _ => exact yields_conditional.mpr (.inl (yields_mark.mp hs))
  | toOr _ h =>
    refine yields_conditional.mpr ?_
    rcases (yields_logical rfl).mp hs with ⟨-, hs⟩ | hs
    · exact .inl (by rwa [Yields, ← outcomes_of_sameAs left h])
    · exact .inr hs
  | toAnd _ h =>
    refine yields_conditional.mpr ?_
    rcases (yields_logical rfl).mp hs with ⟨-, hs⟩ | hs
    · exact .inr (by rwa [Yields, ← outcomes_of_sameAs left h])
    · exact .inl hs
  | _ => cases ht.1

theorem Yields.exchange {m : α} {k : Kind} {l r : List (Tree α)} {c c' : Tree α}
    (hc : c'.Yields left p → c.Yields left p) (h : (node m k (l ++ c' :: r)).Yields left p) :
    (node m k (l ++ c :: r)).Yields left p := by
  have hflatten : ∀ l : List (Tree α), (∃ k ∈ ((l ++ c' :: r).map (outcomes left)).flatten, p k) →
        ∃ k ∈ ((l ++ c :: r).map (outcomes left)).flatten, p k := by
    intro l h
    simp only [map_append, map_cons, flatten_append, flatten_cons,
      mem_append, or_and_right, exists_or] at h ⊢
    exact h.imp_right (Or.imp_left hc)
  have htail : (∃ k ∈ ((l ++ c' :: r).map (outcomes left)).tail.flatten, p k) →
      ∃ k ∈ ((l ++ c :: r).map (outcomes left)).tail.flatten, p k := by
    cases l with
    | nil => exact id
    | cons d l => exact hflatten l
  cases k with
  | sequence =>
    rw [yields_sequence hp.sequence] at h ⊢
    cases hr : r with
    | nil =>
      subst hr
      simpa using hc (by simpa using h)
    | cons d ds =>
      rw [hr, getLast?_append_cons, getLast?_cons_of_ne_nil (by simp)] at h
      rwa [getLast?_append_cons, getLast?_cons_of_ne_nil (by simp)]
  | conditional =>
    rw [Yields, outcomes_node] at h ⊢
    exact htail h
  | binary op =>
    rw [Yields, outcomes_node, handsOn] at h ⊢
    by_cases hop : op.isLogical
    · rw [if_pos hop] at h ⊢
      by_cases hleft : left = true
      · rw [if_pos hleft] at h ⊢
        exact hflatten l h
      · rw [if_neg hleft] at h ⊢
        exact htail h
    · rwa [if_neg hop] at h ⊢
  | _ =>
    rw [Yields, outcomes_node] at h ⊢
    exact h

theorem Reduces.yields {t t' : Tree (Option α)} (h : Reduces known t t' d) (ht : t.Fit isExpression)
    (ht' : t'.Yields left p) : t.Yields left p := by
  induction h with
  | refl t => exact ht'
  | rule h => exact h.yields hp ht ht'
  | trans h _ ih ih' =>
    obtain ⟨hshape, hkind⟩ := h.wellShaped ht.2
    exact ih ht (ih' ⟨stable_isExpression hkind ht.1, hshape⟩ ht')
  | @child m k l r c c' d h ih =>
    by_cases hobject : k = .object
    · subst hobject
      exact ht'
    · refine .exchange hp (ih ?_) ht'
      obtain ⟨hchildren, hshape⟩ := wellShaped_node.mp ht.2
      exact ⟨isExpression_of_mem ht.1 hobject hchildren
        (mem_map_of_mem (mem_append_right _ mem_cons_self)), hshape c (by simp)⟩

end

/-! ## Targets of calls and operands of deletions -/

/-- The operand that a call or a deletion treats as a reference when it is one. -/
def subject? (t : Tree α) : Option (Tree α) :=
  match t.kind with
  | .call | .unary .delete => t.children.head?
  | _ => none

theorem subject_cases {t c : Tree α} (h : t.subject? = some c) :
    (t.kind = .call ∨ t.kind = .unary .delete) ∧ ∃ m r, t = node m t.kind (c :: r) := by
  obtain ⟨m, k, cs⟩ := t
  have hsplit : ∀ {k : Kind}, cs.head? = some c → ∃ m' r, node m k cs = node m' k (c :: r) := by
    intro k hcs
    obtain ⟨r, rfl⟩ := head?_eq_some_iff.mp hcs
    exact ⟨m, r, rfl⟩
  rw [subject?] at h
  split at h
  · rename_i hk
    exact ⟨.inl hk, hsplit h⟩
  · rename_i hk
    exact ⟨.inr hk, hsplit h⟩
  · cases h

theorem Rewrites.not_isLiteral {t : Tree (Option α)} {s : Step α} (h : Rewrites known t s) :
    ¬t.kind.isLiteral := by
  intro hk
  have hexpression := isExpression_of_isLiteral hk
  cases h with
  | dropEmpty hlist _ | splice hlist _ | mergeDeclarations hlist | mergeExpressions hlist
  | mergeIntoValue hlist _ | fillSetup hlist _ | mergeIntoSetup hlist _ =>
    rw [kind_node, not_isExpression_of_isList hlist] at hexpression
    cases hexpression
  | unbrace hbody _ =>
    rw [kind_node, not_isExpression_of_hasBody hbody] at hexpression
    cases hexpression
  | @reduce m k l r c s hdiscards _ _ =>
    cases k <;> first | cases hk; done | cases hdiscards
  | _ => cases hk

theorem Reduces.literal {t t' : Tree (Option α)} (h : Reduces known t t' d)
    (hk : t.kind.isLiteral) : t'.kind = t.kind := by
  induction h with
  | refl t => rfl
  | rule h => exact absurd hk h.not_isLiteral
  | trans _ _ ih ih' =>
    have hfirst := ih hk
    exact (ih' (by rwa [hfirst])).trans hfirst
  | child _ _ => rfl

theorem Reduces.subject {t t' c : Tree (Option α)} (h : Reduces known t t' d)
    (hc : t.subject? = some c) :
    ∃ c' e, Reduces known c c' e ∧ (t'.kind = t.kind ∧ t'.subject? = some c' ∨
        t.kind = .call ∧ (∃ x, t'.kind = .number x) ∧ c'.kind = .member known.pow) := by
  induction h generalizing c with
  | refl t => exact ⟨c, [], .refl c, .inl ⟨rfl, hc⟩⟩
  | @rule t s h =>
    obtain ⟨m, k, cs⟩ := t
    rcases (subject_cases hc).1 with hk | hk
    · cases hk
      cases h with
      | power _ _ =>
        cases hc
        exact ⟨_, [], .refl _, .inr ⟨rfl, ⟨_, rfl⟩, rfl⟩⟩
      | _ => contradiction
    · cases hk
      cases h with
      | foldUnary h => cases h
      | _ => contradiction
  | @trans t u v d e h h' ih ih' =>
    obtain ⟨c', d', hred, ⟨hkind, hsubject⟩ | ⟨hkind, ⟨x, hx⟩, hpow⟩⟩ := ih hc
    · obtain ⟨c'', e', hred', hlast⟩ := ih' hsubject
      exact ⟨c'', e' ++ d', hred.trans hred', by rwa [hkind] at hlast⟩
    · refine ⟨c', d', hred, .inr ⟨hkind, ⟨x, ?_⟩, hpow⟩⟩
      rw [h'.literal (by rw [hx]; rfl), hx]
  | @child m k l r x y d h ih =>
    obtain ⟨hk, -⟩ := subject_cases hc
    have hhead : ∀ cs : List (Tree (Option α)), (node m k cs).subject? = cs.head? := by
      intro cs
      rcases hk with hk | hk <;> cases hk <;> rfl
    simp only [hhead] at hc ⊢
    cases l with
    | nil =>
      cases hc
      exact ⟨y, d, h, .inl ⟨rfl, rfl⟩⟩
    | cons a l =>
      cases hc
      exact ⟨c, [], .refl c, .inl ⟨rfl, rfl⟩⟩

theorem innate_reference {k : Kind} (hk : k.isReference) :
    Innate false fun x => x = k ∨ x = .sequence := by
  refine ⟨.inr rfl, fun {x} hliteral h => ?_⟩
  rcases h with rfl | rfl
  · cases x <;> first | cases hk; done | cases hliteral
  · cases hliteral

theorem subject_map {β : Type} (f : α → β) (t : Tree α) :
    (t.map f).subject? = t.subject?.map (map f) := by
  obtain ⟨m, k, cs⟩ := t
  rw [map_node, subject?, subject?]
  simp only [kind_node, children_node]
  split <;> simp

theorem fit_subject {t c : Tree α} (ht : t.WellShaped) (hc : t.subject? = some c) :
    c.Fit isExpression := by
  obtain ⟨hk, m, r, heq⟩ := subject_cases hc
  rw [heq] at ht
  obtain ⟨hchildren, hshape⟩ := wellShaped_node.mp ht
  refine ⟨isExpression_of_mem (k := t.kind) ?_ ?_ hchildren (.head _), hshape c (.head _)⟩
  · rcases hk with hk | hk <;> rw [hk] <;> rfl
  · rcases hk with hk | hk <;> rw [hk] <;> simp

end Tree

/-! ## Simplifying a call or a deletion in a store -/

namespace Store

variable {s : Store} {n : NodeId}

/-- Simplifying a call or a deletion leaves one of the same kind, or gives a number for a call of
`Math.pow`. Its operand is a member or an index expression afterwards only if the operand before
is one of the same kind or hands one on: as the last element of a sequence, as a branch of a
conditional or as the right operand of a logical operator. A sequence without elements stands for
any of them. -/
theorem simplify_subject_reference (known : WellKnown) (hs : s.Consistent) (hn : s.Has n)
    (hv : s.verify n = .ok ()) {c : Tree NodeId} (hc : (s.tree n).subject? = some c) :
    ∃ s' changed, s.simplify known n = .ok (s', changed) ∧ ((s'.tree n).kind = (s.tree n).kind ∧
          (∃ c', (s'.tree n).subject? = some c' ∧ (c'.kind.isReference = true →
            c.Yields false fun k => k = c'.kind ∨ k = .sequence)) ∨
        (s.tree n).kind = .call ∧ (∃ x, (s'.tree n).kind = .number x) ∧
          c.Yields false fun k => k = .member known.pow ∨ k = .sequence) := by
  obtain ⟨kids, h⟩ := hs
  have ht := h.verify_eq_ok.mp hv
  obtain ⟨t, d, s', changed, hrun, hred, hgrown⟩ := h.simplify_eq_ok known hn ht
  refine ⟨s', changed, hrun, ?_⟩
  obtain ⟨u, e, hredc, hcases⟩ := hred.subject (c := c.map some) (by rw [subject_map, hc]; rfl)
  have hkind : (s'.tree n).kind = t.kind := by
    rw [← kind_map (fun _ => ()), ← kind_map (fun _ => ()) t]
    exact congrArg Tree.kind hgrown.tree
  have hbefore : u.kind.isReference = true →
      c.Yields false fun k => k = u.kind ∨ k = .sequence := by
    intro hreference
    have hfit := fit_subject (wellShaped_map.mpr ht) (c := c.map some)
      (by rw [subject_map, hc]; rfl)
    have hyields := hredc.yields (innate_reference hreference) hfit
      (yields_mark (m := u.mark) |>.mp
        ((yields_self (handsOn_of_isReference hreference)).mpr (.inl rfl)))
    rwa [Yields, outcomes_map] at hyields
  rcases hcases with ⟨hsame, hu⟩ | ⟨hcall, ⟨x, hx⟩, hpow⟩
  · have hbare := congrArg subject? hgrown.tree
    rw [bare, bare, subject_map, subject_map, hu] at hbare
    obtain ⟨c', hc', heq⟩ := Option.map_eq_some_iff.mp hbare
    have hkinds : c'.kind = u.kind := by
      rw [← kind_map (fun _ => ()) c', heq, kind_map]
    refine .inl ⟨?_, c', hc', by rwa [hkinds]⟩
    rw [hkind, hsame, kind_map]
  · refine .inr ⟨by rwa [kind_map] at hcall, ⟨x, hkind.trans hx⟩, ?_⟩
    rw [← hpow]
    exact hbefore (by rw [hpow]; rfl)

def chosenTarget : Store :=
  (Store.empty.grow (.node () .call
    [.node () .sequence
      [.node () .null [], .node () (.binary .logicalOr)
          [.node () (.member ⟨1⟩) [.node () (.identifier ⟨0⟩) []],
            .node () (.identifier ⟨2⟩) []]]])).2

theorem simplify_subject_reference_chosenTarget :
    chosenTarget.Consistent ∧ chosenTarget.Has ⟨0⟩ ∧ chosenTarget.verify ⟨0⟩ = .ok () ∧
      (chosenTarget.tree ⟨0⟩).subject? = some (chosenTarget.tree ⟨1⟩) ∧
      ∃ s' changed, chosenTarget.simplify ⟨⟨3⟩, ⟨4⟩⟩ ⟨0⟩ = .ok (s', changed) ∧
        (s'.tree ⟨0⟩).kind = .call ∧
        ∃ c', (s'.tree ⟨0⟩).subject? = some c' ∧ c'.kind.isReference = false := by
  have hs : chosenTarget.Consistent := Consistent.grow ⟨_, Links.empty⟩ _
  have hn : chosenTarget.Has ⟨0⟩ := by decide
  have hc : (chosenTarget.tree ⟨0⟩).subject? = some (chosenTarget.tree ⟨1⟩) := rfl
  have houtcomes : (chosenTarget.tree ⟨1⟩).outcomes false = [.identifier ⟨2⟩] := rfl
  obtain ⟨s', changed, hrun, ⟨hkind, c', hc', hreference⟩ | ⟨-, -, hpow⟩⟩ :=
    simplify_subject_reference ⟨⟨3⟩, ⟨4⟩⟩ hs hn rfl hc
  · refine ⟨hs, hn, rfl, hc, s', changed, hrun, hkind, c', hc', ?_⟩
    rw [← Bool.not_eq_true]
    intro htrue
    obtain ⟨k, hk, hcases⟩ := hreference htrue
    rw [houtcomes, mem_singleton] at hk
    subst hk
    rcases hcases with hcases | hcases
    · rw [← hcases] at htrue
      cases htrue
    · cases hcases
  · exact absurd hpow (by decide)

def hiddenMember (operation : Kind) : Store :=
  (Store.empty.grow (.node () operation
    [.node () .sequence
      [.node () .null [], .node () (.member ⟨1⟩) [.node () (.identifier ⟨0⟩) []]]])).2

theorem simplify_uncovers_reference_hiddenMember : (hiddenMember .call).verify ⟨0⟩ = .ok () ∧
      (hiddenMember (.unary .delete)).verify ⟨0⟩ = .ok () ∧
      ((hiddenMember .call).tree ⟨0⟩).subject?.map Tree.kind = some .sequence ∧
      ((hiddenMember (.unary .delete)).tree ⟨0⟩).subject?.map Tree.kind = some .sequence ∧
      ((hiddenMember .call).simplify ⟨⟨3⟩, ⟨4⟩⟩ ⟨0⟩).map
        (fun r => (r.1.tree ⟨0⟩).subject?.map Tree.kind) = .ok (some (.member ⟨1⟩)) ∧
      ((hiddenMember (.unary .delete)).simplify ⟨⟨3⟩, ⟨4⟩⟩ ⟨0⟩).map
        (fun r => (r.1.tree ⟨0⟩).subject?.map Tree.kind) = .ok (some (.member ⟨1⟩)) :=
  ⟨rfl, rfl, rfl, rfl, by decide +kernel, by decide +kernel⟩

end Store

end ScriptPress

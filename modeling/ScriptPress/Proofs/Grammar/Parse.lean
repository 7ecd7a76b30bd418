import ScriptPress.Proofs.Grammar.Expression
import ScriptPress.Proofs.Grammar.Scan

/-! # What the grammar reads -/

namespace ScriptPress.Grammar

open List Token Option

variable {e e' e'' : Expr} {t : Token Float} {ts ts' ts'' r r' r'' : Tokens} {es : List Expr}
  {op : UnaryOp} {calls : Bool} {least : Nat} {s : String}
variable {allowIn : Bool}

/-! ## What may follow -/

def grip (allowIn : Bool) (t : Token Float) : Nat :=
  match t with
  | .punct .comma => 2
  | .punct .question => 4
  | .punct .increment | .punct .decrement => 15
  | .punct .leftParen => 16
  | .punct .dot | .punct .leftBracket => 17
  | t =>
    match t.binary? allowIn with
    | some op => op.precedence + 3
    | none => if t.assign?.isSome then 4 else 0

/-- The tokens begin with one that holds on to what is before it at most at level `n`. -/
def Follows (allowIn : Bool) (n : Nat) (ts : Tokens) : Prop :=
  ∀ t ∈ ts.head?, grip allowIn t ≤ n

theorem follows_cons {n : Nat} (h : grip allowIn t ≤ n) : Follows allowIn n (t :: ts) := by
  rintro _ ⟨⟩
  exact h

theorem grip_punct (allowIn : Bool) (p : Punct) :
    grip allowIn (.punct p) = grip true (.punct p) := by
  cases p <;> rfl

theorem follows_punct {n : Nat} {p : Punct} (h : grip true (.punct p) ≤ n) :
    Follows allowIn n (.punct p :: ts) := follows_cons (grip_punct allowIn p ▸ h)

theorem Follows.punct_le {n : Nat} {p : Punct} (h : Follows allowIn n (.punct p :: ts)) :
    grip true (.punct p) ≤ n := grip_punct allowIn p ▸ h _ rfl

theorem Follows.mono (h : Follows allowIn m ts) (hmn : m ≤ n) : Follows allowIn n ts :=
  fun t ht => Nat.le_trans (h t ht) hmn

theorem grip_of_binary {op : BinaryOp} (h : t.binary? allowIn = some op) :
    grip allowIn t = op.precedence + 3 := by
  have hgrip : ∀ t' : Token Float, t' = t → grip allowIn t' = op.precedence + 3 := by
    intro t' ht
    unfold grip
    split <;> subst ht <;> first | cases h | skip
    rw [h]
  exact hgrip t rfl

theorem grip_of_assign {op : AssignOp} (h : t.assign? = some op) : grip allowIn t = 4 := by
  cases t with
  | punct p => cases p <;> first | rfl | cases h
  | _ => cases h

theorem binary_of_assign {op : AssignOp} (h : t.assign? = some op) : t.binary? allowIn = none := by
  cases t with
  | punct p => cases p <;> first | rfl | cases h
  | _ => cases h

theorem grip_of_trailing (h : t.trailing? = some op) : grip allowIn t = 15 := by
  cases t with
  | punct p => cases p <;> first | rfl | cases h
  | _ => cases h

/-! ## Chains -/

theorem links_stop (h : Follows allowIn 15 ts) : links calls e ts = some (e, ts) := by
  rw [links.eq_def]
  split
  · exact absurd h.punct_le (by decide)
  · exact absurd h.punct_le (by decide)
  · exact absurd h.punct_le (by decide)
  · rfl

theorem links_member {name : String} :
    links calls e (.punct .dot :: .word name :: r) = links calls (.member e name) r := by
  rw [links]

theorem links_index (h : expression true r = some (e', .punct .rightBracket :: r'))
    (hr : (punct .rightBracket :: r').length < r.length) :
    links calls e (.punct .leftBracket :: r) = links calls (.index e e') r' := by
  rw [links, h, used_some hr]
  rfl

theorem links_call (h : arguments r = some (es, r')) (hr : r'.length < r.length) :
    links true e (.punct .leftParen :: r) = links true (.call e es) r' := by
  rw [links, if_pos rfl, h, used_some hr]
  rfl

theorem links_paren :
    links false e (.punct .leftParen :: r) = some (e, .punct .leftParen :: r) := by
  rw [links, if_neg (by decide)]

theorem chain_of_primary (h : primary ts = some (e, r)) (hr : r.length < ts.length) :
    chain calls ts = links calls e r := by
  rw [chain, h, used_some hr]
  rfl

theorem primary_word (hs : s ≠ "new") (h : Expr.ofWord? s = some e) :
    primary (.word s :: r) = some (e, r) := by
  rw [primary, if_neg hs, h]
  rfl

theorem primary_new (h : chain false r = some (e, .punct .leftParen :: r'))
    (hr : (punct .leftParen :: r').length < r.length) (hs : arguments r' = some (es, r'')) :
    primary (.word "new" :: r) = some (.new e es, r'') := by
  rw [primary, if_pos rfl, h, used_some hr]
  show (arguments r' >>= fun x => some (Expr.new e x.1, x.2)) = _
  rw [hs]
  rfl

theorem primary_paren (h : expression true r = some (e, .punct .rightParen :: r')) :
    primary (.punct .leftParen :: r) = some (e, r') := by
  rw [primary, h]
  rfl

theorem primary_array (h : elements r = some (es, r')) :
    primary (.punct .leftBracket :: r) = some (.array es, r') := by
  rw [primary, h]
  rfl

theorem primary_object (h : properties r = some (ps, r')) :
    primary (.punct .leftBrace :: r) = some (.object ps, r') := by
  rw [primary, h]
  rfl

/-! ## Unary operators and updates -/

theorem ne_of_ofWord {s s' : String} (h : Expr.ofWord? s = some e)
    (hs' : (Expr.ofWord? s').isNone) : s ≠ s' := by
  rintro rfl
  rw [h] at hs'
  cases hs'

theorem unary_word (h : Expr.ofWord? s = some e) : (word s : Token Float).unary? = none := by
  have hdelete : s ≠ "delete" := ne_of_ofWord h (by decide)
  have htypeof : s ≠ "typeof" := ne_of_ofWord h (by decide)
  have hvoid : s ≠ "void" := ne_of_ofWord h (by decide)
  simp only [unary?, if_neg hdelete, if_neg htypeof, if_neg hvoid]

theorem update_of_chain (h : chain true ts = some (e, r)) (hr : Follows allowIn 14 r) :
    update ts = some (e, r) := by
  rw [update, h]
  cases r with
  | nil => rfl
  | cons t r =>
    have hgrip := hr t rfl
    have htrailing : t.trailing? = none := by
      cases hop : t.trailing? with
      | none => rfl
      | some op =>
        rw [grip_of_trailing hop] at hgrip
        omega
    simp only [bind_eq_bind, bind_some, htrailing]

theorem update_trailing (ht : t.trailing? = some op) (h : chain true ts = some (e, t :: r)) :
    update ts = some (.unary op e, r) := by
  rw [update, h]
  simp only [bind_eq_bind, bind_some, ht]

theorem unary_of_update (ht : t.unary? = none) (h : update (t :: ts) = some (e, r)) :
    unary (t :: ts) = some (e, r) := by
  rw [unary, ht, h]

theorem unary_leading (ht : t.unary? = some op) (h : unary ts = some (e, r)) :
    unary (t :: ts) = some (.unary op e, r) := by
  rw [unary, ht]
  show (unary ts >>= fun x => some (Expr.unary op x.1, x.2)) = _
  rw [h]
  rfl

/-! ## Binary operators -/

theorem binary_of_unary (h : unary ts = some (e, r)) (hr : r.length < ts.length) :
    binary allowIn least ts = operations allowIn least e r := by
  rw [binary, h, used_some hr]
  rfl

theorem operations_none (h : t.binary? allowIn = none) :
    operations allowIn least e (t :: ts) = some (e, t :: ts) := by
  rw [operations, h]

theorem operations_stop (h : Follows allowIn (least + 2) ts) :
    operations allowIn least e ts = some (e, ts) := by
  cases ts with
  | nil => rw [operations]
  | cons t ts =>
    cases hop : t.binary? allowIn with
    | none => exact operations_none hop
    | some op =>
      have hgrip := h t rfl
      rw [grip_of_binary hop] at hgrip
      rw [operations, hop]
      exact if_neg (by omega)

theorem operations_step {op : BinaryOp} (ht : t.binary? allowIn = some op)
    (hop : least ≤ op.precedence) (h : binary allowIn (op.precedence + 1) ts = some (e', r))
    (hr : r.length < ts.length) :
    operations allowIn least e (t :: ts) = operations allowIn least (.binary op e e') r := by
  rw [operations, ht]
  show (if least ≤ op.precedence then _ else _) = _
  rw [if_pos hop, h, used_some hr]
  rfl

/-! ## Conditionals and assignments -/

theorem assignment_of_binary (h : binary allowIn 1 ts = some (e, r)) (hr : r.length < ts.length)
    (hfollows : Follows allowIn 3 r) : assignment allowIn ts = some (e, r) := by
  rw [assignment, h, used_some hr]
  cases r with
  | nil => rfl
  | cons t r =>
    have hgrip := hfollows t rfl
    have hassign : t.assign? = none := by
      cases hop : t.assign? with
      | none => rfl
      | some op =>
        rw [grip_of_assign hop] at hgrip
        omega
    have hquestion : t ≠ .punct .question := by
      rintro rfl
      exact absurd hfollows.punct_le (by decide)
    simp only [bind_eq_bind, bind_some, hassign]

theorem assignment_conditional (h : binary allowIn 1 ts = some (e, .punct .question :: r))
    (hr : (punct .question :: r).length < ts.length)
    (h' : assignment true r = some (e', .punct .colon :: r'))
    (hr' : (punct .colon :: r').length < r.length) (h'' : assignment allowIn r' = some (e'', r'')) :
    assignment allowIn ts = some (.conditional e e' e'', r'') := by
  rw [assignment, h, used_some hr]
  show (used r (assignment true r) >>= _) = _
  rw [h', used_some hr']
  show (assignment allowIn r' >>= fun x => some (Expr.conditional e e' x.1, x.2)) = _
  rw [h'']
  rfl

theorem assignment_assign {op : AssignOp} (ht : t.assign? = some op)
    (h : binary allowIn 1 ts = some (e, t :: r)) (hr : (t :: r).length < ts.length)
    (he : e.isTarget) (h' : assignment allowIn r = some (e', r')) :
    assignment allowIn ts = some (.assign op e e', r') := by
  have hquestion : t ≠ .punct .question := by
    rintro rfl
    cases ht
  rw [assignment, h, used_some hr]
  simp only [bind_eq_bind, bind_some, ht, he, if_true, h']

/-! ## Lists -/

theorem list_last (h : assignment allowIn ts = some (e, r)) (hr : r.length < ts.length)
    (hfollows : Follows allowIn 1 r) : list allowIn ts = some ([e], r) := by
  rw [list, h, used_some hr]
  simp only [bind_eq_bind, bind_some]
  split
  · exact absurd hfollows.punct_le (by decide)
  · rfl

theorem list_cons (h : assignment allowIn ts = some (e, .punct .comma :: r))
    (hr : (punct .comma :: r).length < ts.length) (h' : list allowIn r = some (es, r')) :
    list allowIn ts = some (e :: es, r') := by
  rw [list, h, used_some hr]
  show (list allowIn r >>= fun x => some (e :: x.1, x.2)) = _
  rw [h']
  rfl

theorem expression_single (h : list allowIn ts = some ([e], r)) :
    expression allowIn ts = some (e, r) := by
  rw [expression, h]
  rfl

theorem expression_sequence (h : list allowIn ts = some (es, r)) (hes : 2 ≤ es.length) :
    expression allowIn ts = some (.sequence es, r) := by
  rw [expression, h]
  match es, hes with
  | _ :: _ :: _, _ => rfl

theorem arguments_nil : arguments (.punct .rightParen :: r) = some ([], r) := by
  rw [arguments]

theorem arguments_cons (ht : t ≠ .punct .rightParen)
    (h : list true (t :: ts) = some (es, .punct .rightParen :: r)) :
    arguments (t :: ts) = some (es, r) := by
  rw [arguments]
  · rw [h]
    rfl
  · intro r' heq
    injection heq with heq
    exact ht heq

/-! ## Elements and properties -/

theorem elements_nil : elements (.punct .rightBracket :: r) = some ([], r) := by
  rw [elements]

theorem elements_undefined (h : elements r = some (es, r')) :
    elements (.punct .comma :: r) = some (.undefined :: es, r') := by
  rw [elements, h]
  rfl

theorem elements_last (ht : t ≠ .punct .rightBracket) (ht' : t ≠ .punct .comma)
    (h : assignment true (t :: ts) = some (e, .punct .rightBracket :: r))
    (hr : (punct .rightBracket :: r).length < (t :: ts).length) :
    elements (t :: ts) = some ([e], r) := by
  rw [elements, h, used_some hr]
  · rfl
  · rintro r' ⟨⟩
    exact ht rfl
  · rintro r' ⟨⟩
    exact ht' rfl

theorem elements_cons (ht : t ≠ .punct .rightBracket) (ht' : t ≠ .punct .comma)
    (h : assignment true (t :: ts) = some (e, .punct .comma :: r))
    (hr : (punct .comma :: r).length < (t :: ts).length) (h' : elements r = some (es, r')) :
    elements (t :: ts) = some (e :: es, r') := by
  rw [elements, h, used_some hr]
  · show (elements r >>= fun x => some (e :: x.1, x.2)) = _
    rw [h']
    rfl
  · rintro r' ⟨⟩
    exact ht rfl
  · rintro r' ⟨⟩
    exact ht' rfl

theorem properties_nil : properties (.punct .rightBrace :: r) = some ([], r) := by
  rw [properties]

variable {us : List Nat} {ps : List (List Nat × Expr)}

theorem properties_last (ht : t.key? = some us)
    (h : assignment true ts = some (e, .punct .rightBrace :: r))
    (hr : (punct .rightBrace :: r).length < ts.length) :
    properties (t :: .punct .colon :: ts) = some ([(us, e)], r) := by
  rw [properties, ht, h]
  · show (used ts (some (e, .punct .rightBrace :: r)) >>= _) = _
    rw [used_some hr]
    rfl
  · rintro rfl
    cases ht

theorem properties_cons (ht : t.key? = some us)
    (h : assignment true ts = some (e, .punct .comma :: r))
    (hr : (punct .comma :: r).length < ts.length) (h' : properties r = some (ps, r')) :
    properties (t :: .punct .colon :: ts) = some ((us, e) :: ps, r') := by
  rw [properties, ht, h]
  · show (used ts (some (e, .punct .comma :: r)) >>= _) = _
    rw [used_some hr]
    show (properties r >>= fun x => some ((us, e) :: x.1, x.2)) = _
    rw [h']
    rfl
  · rintro rfl
    cases ht

/-! ## All levels -/

def begins : Token Float → Bool
  | .punct p =>
    p ∈ [.leftParen, .leftBracket, .leftBrace, .plus, .minus, .bang, .tilde, .increment, .decrement]
  | .word s => (Expr.ofWord? s).isSome || s ∈ ["new", "delete", "typeof", "void"]
  | _ => true

def Begins (n : Nat) (ts : Tokens) : Prop :=
  ∃ t r, ts = t :: r ∧ begins t ∧ (15 ≤ n → t.unary? = none)

structure Parsed (allowIn : Bool) (n : Nat) (e : Expr) (ts : Tokens) : Prop where
  begins : Begins n ts
  expression : ∀ r, Follows allowIn 1 r → expression allowIn (ts ++ r) = some (e, r)
  assignment : 1 ≤ n → ∀ r, Follows allowIn 3 r → assignment allowIn (ts ++ r) = some (e, r)
  binary : 3 ≤ n → n ≤ 13 → ∀ least r, least + 2 ≤ n → Follows allowIn (n + 1) r →
    binary allowIn least (ts ++ r) = operations allowIn least e r
  unary : 13 ≤ n → ∀ r, Follows allowIn 14 r → unary (ts ++ r) = some (e, r)
  callee : 15 ≤ n → e.hasCall = false → ∀ r, chain false (ts ++ r) = links false e r
  chain : 15 ≤ n → ∀ r, chain true (ts ++ r) = links true e r

variable {m n : Nat}

theorem Begins.mono (h : Begins n ts) (hmn : m ≤ n) : Begins m ts := by
  obtain ⟨t, r, hts, ht, hunary⟩ := h
  exact ⟨t, r, hts, ht, fun hm => hunary (Nat.le_trans hm hmn)⟩

theorem begins_cons (ht : begins t) (hunary : t.unary? = none) : Begins n (t :: ts) :=
  ⟨t, ts, rfl, ht, fun _ => hunary⟩

theorem ne_of_begins {t' : Token Float} (ht : begins t) (ht' : begins t' = false) : t ≠ t' := by
  rintro rfl
  rw [ht] at ht'
  cases ht'

theorem Begins.append (h : Begins n ts) (r : Tokens) : Begins n (ts ++ r) := by
  obtain ⟨t, ts', rfl, ht⟩ := h
  exact ⟨t, ts' ++ r, rfl, ht⟩

theorem Begins.length_lt (h : Begins n ts) (r : Tokens) : r.length < (ts ++ r).length := by
  obtain ⟨t, ts', rfl, _⟩ := h
  rw [length_append, length_cons]
  omega

theorem expression_append (hb : Begins n ts)
    (h : ∀ r, Follows allowIn 3 r → assignment allowIn (ts ++ r) = some (e, r)) :
    ∀ r, Follows allowIn 1 r → expression allowIn (ts ++ r) = some (e, r) := by
  intro r hr
  exact expression_single (list_last (h r (hr.mono (by decide))) (hb.length_lt r) hr)

theorem assignment_append (hb : Begins n ts)
    (h : ∀ r, Follows allowIn 3 r → binary allowIn 1 (ts ++ r) = operations allowIn 1 e r) :
    ∀ r, Follows allowIn 3 r → assignment allowIn (ts ++ r) = some (e, r) := by
  intro r hr
  have hbinary : binary allowIn 1 (ts ++ r) = some (e, r) := by
    rw [h r hr, operations_stop hr]
  exact assignment_of_binary hbinary (hb.length_lt r) hr

theorem binary_append (hb : Begins n ts)
    (h : ∀ r, Follows allowIn 14 r → unary (ts ++ r) = some (e, r)) :
    ∀ least r, Follows allowIn 14 r →
      binary allowIn least (ts ++ r) = operations allowIn least e r := by
  intro least r hr
  exact binary_of_unary (h r hr) (hb.length_lt r)

theorem unary_append (allowIn : Bool) (hb : Begins 15 ts)
    (h : ∀ r, chain true (ts ++ r) = links true e r) :
    ∀ r, Follows allowIn 14 r → unary (ts ++ r) = some (e, r) := by
  intro r hr
  have hchain : chain true (ts ++ r) = some (e, r) := by
    rw [h r, links_stop (hr.mono (by decide))]
  obtain ⟨t, ts', rfl, _, ht⟩ := hb
  exact unary_of_update (ht (by decide)) (update_of_chain hchain hr)

namespace Parsed

theorem of_expression (hb : Begins 0 ts)
    (h : ∀ r, Follows allowIn 1 r → Grammar.expression allowIn (ts ++ r) = some (e, r)) :
    Parsed allowIn 0 e ts where
  begins := hb
  expression := h
  assignment hn := by omega
  binary hn := by omega
  unary hn := by omega
  callee hn := by omega
  chain hn := by omega

theorem of_assignment (hn : n < 3) (hb : Begins n ts)
    (h : ∀ r, Follows allowIn 3 r → Grammar.assignment allowIn (ts ++ r) = some (e, r)) :
    Parsed allowIn n e ts where
  begins := hb
  expression := expression_append hb h
  assignment _ := h
  binary hn' := by omega
  unary hn' := by omega
  callee hn' := by omega
  chain hn' := by omega

theorem of_binary {p : Nat} (hp : 1 ≤ p) (hp' : p ≤ 10) (hn : n < p + 3) (hb : Begins n ts)
    (h : ∀ least r, least ≤ p → Follows allowIn (p + 3) r →
      Grammar.binary allowIn least (ts ++ r) = operations allowIn least e r) :
    Parsed allowIn n e ts := by
  have hassignment := assignment_append hb fun r hr => h 1 r hp (hr.mono (by omega))
  exact {
    begins := hb
    expression := expression_append hb hassignment
    assignment := fun _ => hassignment
    binary := fun _ _ least r hl hr => h least r (by omega) (hr.mono (by omega))
    unary := fun hn' => by omega
    callee := fun hn' => by omega
    chain := fun hn' => by omega }

theorem of_unary (hn : n < 15) (hb : Begins n ts)
    (h : ∀ r, Follows allowIn 14 r → Grammar.unary (ts ++ r) = some (e, r)) :
    Parsed allowIn n e ts := by
  have hbinary := binary_append hb h
  have hassignment := assignment_append hb fun r hr => hbinary 1 r (hr.mono (by decide))
  exact {
    begins := hb
    expression := expression_append hb hassignment
    assignment := fun _ => hassignment
    binary := fun _ hn' least r _ hr => hbinary least r (hr.mono (by omega))
    unary := fun _ => h
    callee := fun hn' => by omega
    chain := fun hn' => by omega }

theorem of_chain (hb : Begins 15 ts)
    (h : ∀ r, Grammar.chain true (ts ++ r) = links true e r)
    (h' : e.hasCall = false → ∀ r, Grammar.chain false (ts ++ r) = links false e r) :
    Parsed allowIn n e ts := by
  have hunary := unary_append allowIn hb h
  have hbinary := binary_append hb hunary
  have hassignment := assignment_append hb fun r hr => hbinary 1 r (hr.mono (by decide))
  exact {
    begins := by
      obtain ⟨t, r, hts, ht, hnone⟩ := hb
      exact ⟨t, r, hts, ht, fun _ => hnone (by decide)⟩
    expression := expression_append hb hassignment
    assignment := fun _ => hassignment
    binary := fun _ hn' least r _ hr => hbinary least r (hr.mono (by omega))
    unary := fun _ => hunary
    callee := fun _ => h'
    chain := fun _ => h }

theorem of_primary (hb : Begins 15 ts) (h : ∀ r, primary (ts ++ r) = some (e, r)) :
    Parsed allowIn n e ts := by
  have hchain : ∀ calls r, Grammar.chain calls (ts ++ r) = links calls e r :=
    fun _ r => chain_of_primary (h r) (hb.length_lt r)
  exact of_chain hb (hchain true) fun _ => hchain false

/-! ## Forms of expressions -/

theorem primary_wrapped (h : Parsed true 0 e ts) (r : Tokens) :
    primary (.punct .leftParen :: ts ++ [.punct .rightParen] ++ r) = some (e, r) := by
  have hexpression := h.expression (.punct .rightParen :: r) (follows_punct (by decide))
  rw [append_assoc]
  exact primary_paren hexpression

theorem wrapped (h : Parsed true 0 e ts) :
    Parsed allowIn n e (.punct .leftParen :: ts ++ [.punct .rightParen]) :=
  of_primary (begins_cons rfl rfl) h.primary_wrapped

theorem word (h : Expr.ofWord? s = some e) : Parsed allowIn n e [.word s] := by
  refine of_primary (begins_cons (by simp [Grammar.begins, h]) (unary_word h)) fun r => ?_
  exact primary_word (ne_of_ofWord h (by decide)) h

theorem number (x : Float) : Parsed allowIn n (.number x) [.number x] :=
  of_primary (begins_cons rfl rfl) fun _ => by rw [cons_append, primary, nil_append]

theorem string (us : List Nat) : Parsed allowIn n (.string us) [.string us] :=
  of_primary (begins_cons rfl rfl) fun _ => by rw [cons_append, primary, nil_append]

theorem array (h : ∀ r, elements (ts ++ .punct .rightBracket :: r) = some (es, r)) :
    Parsed allowIn n (.array es) (.punct .leftBracket :: ts ++ [.punct .rightBracket]) := by
  refine of_primary (begins_cons rfl rfl) fun r => ?_
  rw [append_assoc]
  exact primary_array (h r)

theorem object (h : ∀ r, properties (ts ++ .punct .rightBrace :: r) = some (ps, r)) :
    Parsed allowIn n (.object ps) (.punct .leftBrace :: ts ++ [.punct .rightBrace]) := by
  refine of_primary (begins_cons rfl rfl) fun r => ?_
  rw [append_assoc]
  exact primary_object (h r)

theorem member (h : Parsed allowIn 17 e ts) :
    Parsed allowIn n (.member e s) (ts ++ [.punct .dot, .word s]) := by
  refine of_chain ((h.begins.mono (by decide)).append _) (fun r => ?_) fun hcall r => ?_
  · rw [append_assoc, h.chain (by decide)]
    exact links_member
  · rw [append_assoc, h.callee (by decide) hcall]
    exact links_member

theorem index (h : Parsed allowIn 17 e ts) (h' : Parsed true 0 e' ts') :
    Parsed allowIn n (.index e e') (ts ++ .punct .leftBracket :: ts' ++
      [.punct .rightBracket]) := by
  have hlinks : ∀ calls r, links calls e
      (.punct .leftBracket :: (ts' ++ .punct .rightBracket :: r)) = links calls (.index e e') r :=
    fun _ r => links_index (h'.expression _ (follows_punct (by decide))) (h'.begins.length_lt _)
  refine of_chain (((h.begins.mono (by decide)).append _).append _) (fun r => ?_)
    fun hcall r => ?_
  · rw [append_assoc, append_assoc, h.chain (by decide)]
    exact hlinks true r
  · rw [append_assoc, append_assoc, h.callee (by decide) hcall]
    exact hlinks false r

theorem call (h : Parsed allowIn 15 e ts)
    (h' : ∀ r, arguments (ts' ++ .punct .rightParen :: r) = some (es, r)) :
    Parsed allowIn n (.call e es) (ts ++ .punct .leftParen :: ts' ++ [.punct .rightParen]) := by
  refine of_chain ((h.begins.append _).append _) (fun r => ?_) nofun
  have hlength : r.length < (ts' ++ .punct .rightParen :: r).length := by
    rw [length_append, length_cons]
    omega
  rw [append_assoc, append_assoc, h.chain (by decide)]
  exact links_call (h' r) hlength

theorem new (hb : Begins m ts) (h : ∀ r, Grammar.chain false (ts ++ r) = links false e r)
    (h' : ∀ r, arguments (ts' ++ .punct .rightParen :: r) = some (es, r)) :
    Parsed allowIn n (.new e es)
      (.word "new" :: ts ++ .punct .leftParen :: ts' ++ [.punct .rightParen]) := by
  refine of_primary (begins_cons rfl (by decide)) fun r => ?_
  have hcallee : Grammar.chain false (ts ++ .punct .leftParen :: (ts' ++ .punct .rightParen :: r)) =
      some (e, .punct .leftParen :: (ts' ++ .punct .rightParen :: r)) := by
    rw [h, links_paren]
  rw [append_assoc, append_assoc]
  exact primary_new hcallee (hb.length_lt _) (h' r)

theorem leading (hop : t.unary? = some op) (ht : Grammar.begins t) (hn : n < 14)
    (h : Parsed allowIn 13 e ts) : Parsed allowIn n (.unary op e) (t :: ts) := by
  have hb : Begins n (t :: ts) := ⟨t, ts, rfl, ht, by omega⟩
  refine of_unary (by omega) hb fun r hr => ?_
  exact unary_leading hop (h.unary (by decide) r hr)

theorem trailing (hop : t.trailing? = some op) (hn : n < 15) (h : Parsed allowIn 17 e ts) :
    Parsed allowIn n (.unary op e) (ts ++ [t]) := by
  refine of_unary hn ((h.begins.mono (by omega)).append _) fun r hr => ?_
  have hfollows : Follows allowIn 15 (t :: r) :=
    follows_cons (Nat.le_of_eq (grip_of_trailing hop))
  have hchain : Grammar.chain true (ts ++ t :: r) = some (e, t :: r) := by
    rw [h.chain (by decide), links_stop hfollows]
  have hupdate : Grammar.update (ts ++ t :: r) = some (.unary op e, r) :=
    update_trailing hop hchain
  rw [append_assoc]
  obtain ⟨t', ts', rfl, _, ht'⟩ := h.begins
  exact unary_of_update (ht' (by decide)) hupdate

theorem operation {op : BinaryOp} (hop : t.binary? allowIn = some op) (hn : n < op.precedence + 3)
    (h : Parsed allowIn (op.precedence + 2) e ts) (h' : Parsed allowIn (op.precedence + 3) e' ts') :
    Parsed allowIn n (.binary op e e') (ts ++ t :: ts') := by
  have hlow : 1 ≤ op.precedence := by cases op <;> decide
  have hhigh : op.precedence ≤ 10 := by cases op <;> decide
  refine of_binary hlow hhigh hn ((h.begins.mono (by omega)).append _) fun least r hl hr => ?_
  have hright : Grammar.binary allowIn (op.precedence + 1) (ts' ++ r) = some (e', r) := by
    rw [h'.binary (by omega) (by omega) _ r (by omega) (hr.mono (by omega)), operations_stop hr]
  have hfollows : Follows allowIn (op.precedence + 3) (t :: ts' ++ r) :=
    follows_cons (Nat.le_of_eq (grip_of_binary hop))
  rw [append_assoc, h.binary (by omega) (by omega) least _ (by omega) hfollows]
  exact operations_step hop hl hright (h'.begins.length_lt r)

theorem conditional (hn : n < 3) (h : Parsed allowIn 3 e ts) (h' : Parsed true 2 e' ts')
    (h'' : Parsed allowIn 2 e'' ts'') : Parsed allowIn n (.conditional e e' e'')
      (ts ++ .punct .question :: (ts' ++ .punct .colon :: ts'')) := by
  refine of_assignment hn ((h.begins.mono (by omega)).append _) fun r hr => ?_
  have happend : ts ++ .punct .question :: (ts' ++ .punct .colon :: ts'') ++ r =
      ts ++ .punct .question :: (ts' ++ .punct .colon :: (ts'' ++ r)) := by
    rw [append_assoc, cons_append, append_assoc, cons_append]
  have htest : Grammar.binary allowIn 1
      (ts ++ .punct .question :: (ts' ++ .punct .colon :: (ts'' ++ r))) =
      some (e, .punct .question :: (ts' ++ .punct .colon :: (ts'' ++ r))) := by
    rw [h.binary (by decide) (by decide) 1 _ (by decide) (follows_punct (by decide))]
    exact operations_none rfl
  rw [happend]
  exact assignment_conditional htest (h.begins.length_lt _)
    (h'.assignment (by decide) _ (follows_punct (by decide))) (h'.begins.length_lt _)
    (h''.assignment (by decide) r hr)

theorem assign {op : AssignOp} (hop : t.assign? = some op) (htarget : e.isTarget)
    (hn : n < 2) (h : Parsed allowIn 17 e ts) (h' : Parsed allowIn 1 e' ts') :
    Parsed allowIn n (.assign op e e') (ts ++ t :: ts') := by
  refine of_assignment (by omega) ((h.begins.mono (by omega)).append _) fun r hr => ?_
  have hfollows : Follows allowIn 14 (t :: ts' ++ r) :=
    follows_cons (by rw [grip_of_assign hop]; decide)
  have hleft : Grammar.binary allowIn 1 (ts ++ (t :: ts' ++ r)) = some (e, t :: ts' ++ r) := by
    rw [binary_of_unary (h.unary (by decide) _ hfollows) (h.begins.length_lt _)]
    exact operations_none (binary_of_assign hop)
  rw [append_assoc]
  exact assignment_assign hop hleft (h.begins.length_lt _) htarget
    (h'.assignment (by decide) r hr)

/-! ## In lists -/

theorem list_last (h : Parsed allowIn 1 e ts) (hr : Follows allowIn 1 r) :
    list allowIn (ts ++ r) = some ([e], r) :=
  Grammar.list_last (h.assignment (by decide) r (hr.mono (by decide))) (h.begins.length_lt r) hr

theorem list_cons (h : Parsed allowIn 1 e ts) (h' : list allowIn r = some (es, r')) :
    list allowIn (ts ++ .punct .comma :: r) = some (e :: es, r') :=
  Grammar.list_cons (h.assignment (by decide) _ (follows_punct (by decide)))
    (h.begins.length_lt _) h'

theorem elements_last (h : Parsed true 1 e ts) :
    elements (ts ++ .punct .rightBracket :: r) = some ([e], r) := by
  have hassignment := h.assignment (by decide) (.punct .rightBracket :: r)
    (follows_punct (by decide))
  have hlength := h.begins.length_lt (.punct .rightBracket :: r)
  obtain ⟨t, ts', rfl, ht, _⟩ := h.begins
  exact Grammar.elements_last (ne_of_begins ht rfl) (ne_of_begins ht rfl) hassignment hlength

theorem elements_cons (h : Parsed true 1 e ts) (h' : elements r = some (es, r')) :
    elements (ts ++ .punct .comma :: r) = some (e :: es, r') := by
  have hassignment := h.assignment (by decide) (.punct .comma :: r) (follows_punct (by decide))
  have hlength := h.begins.length_lt (.punct .comma :: r)
  obtain ⟨t, ts', rfl, ht, _⟩ := h.begins
  exact Grammar.elements_cons (ne_of_begins ht rfl) (ne_of_begins ht rfl) hassignment hlength h'

theorem properties_last (ht : t.key? = some us) (h : Parsed true 1 e ts) :
    properties (t :: .punct .colon :: (ts ++ .punct .rightBrace :: r)) = some ([(us, e)], r) :=
  Grammar.properties_last ht (h.assignment (by decide) _ (follows_punct (by decide)))
    (h.begins.length_lt _)

theorem properties_cons (ht : t.key? = some us)
    (h : Parsed true 1 e ts) (h' : properties r = some (ps, r')) :
    properties (t :: .punct .colon :: (ts ++ .punct .comma :: r)) = some ((us, e) :: ps, r') :=
  Grammar.properties_cons ht (h.assignment (by decide) _ (follows_punct (by decide)))
    (h.begins.length_lt _) h'

theorem sequence (hb : Begins 0 ts) (hes : 2 ≤ es.length)
    (h : ∀ r, Follows allowIn 1 r → list allowIn (ts ++ r) = some (es, r)) :
    Parsed allowIn 0 (.sequence es) ts :=
  of_expression hb fun r hr => expression_sequence (h r hr) hes

end Parsed

end ScriptPress.Grammar

import ScriptPress.Proofs.Grammar.Productions
import ScriptPress.Proofs.Print.Parsing
import ScriptPress.Proofs.Print.Text

/-! # Printed statements are read back -/

namespace ScriptPress

open List Tree Fragment

open Grammar
open Fragment (ofPieces keyword waitsAll tokensAll)

variable {value : List Char → Float} {mode : Mode} {w w' opens : Bool} {p : Piece}
variable {ps : List Piece} {fs gs : List Fragment} {ts us r r' : Tokens}
variable {s s' : Stmt} {depth : Nat}

/-! ## Putting statements together -/

def Rest (w : Bool) (r r' : Tokens) : Prop := if w then semicolon r = some r' else r' = r

def terminal (mode : Mode) : Tokens := if mode = .normal then [.punct .semicolon] else []

def due (w : Bool) : Tokens := if w then [.punct .semicolon] else []

theorem semicolon_cases (h : semicolon r = some r') :
    r = .punct .semicolon :: r' ∨ r' = r ∧ ∃ r'', r = .punct .rightBrace :: r'' := by
  rw [semicolon.eq_def] at h
  split at h
  · cases h
    exact .inl rfl
  · cases h
    exact .inr ⟨rfl, _, rfl⟩
  · cases h

theorem Rest.length_le (h : Rest w r r') : r'.length ≤ r.length := by
  cases w with
  | true =>
    rcases semicolon_cases h with rfl | ⟨rfl, -⟩
    · rw [length_cons]
      omega
    · exact Nat.le_refl _
  | false => exact Nat.le_of_eq (congrArg List.length h)

theorem rest_due : Rest w (due w ++ r) r := by
  cases w <;> rfl

theorem rest_brace : Rest w (.punct .rightBrace :: r) (.punct .rightBrace :: r) := by
  cases w <;> rfl

theorem semicolon_terminal (h : Rest (mode == .minified) r r') :
    semicolon (terminal mode ++ r) = some r' := by
  cases mode with
  | normal => exact congrArg some (Eq.symm h)
  | minified => exact h

def Apart (opens : Bool) (r : Tokens) : Prop :=
  r.head? ≠ some (.word "finally") ∧ (opens = true → r.head? ≠ some (.word "else"))

theorem apart_of_statements {x : List Stmt × Tokens} (h : statements r = some x) : Apart opens r :=
  ⟨head_ne_of_statements (.inr rfl) h, fun _ => head_ne_of_statements (.inl rfl) h⟩

structure Says (value : List Char → Float) (mode : Mode) (fs : List Fragment) (ts : Tokens)
    (w : Bool) : Prop where
  tokens : tokensAll value mode false fs = ts
  waits : waitsAll mode false fs = w

namespace Says

theorem self (fs : List Fragment) :
    Says value mode fs (tokensAll value mode false fs) (waitsAll mode false fs) := ⟨rfl, rfl⟩

theorem plain (h : Plain ps) : Says value mode (ofPieces ps) (Token.ofPieces value ps) false :=
  ⟨tokensAll_ofPieces h, waitsAll_ofPieces h⟩

theorem append (h : Says value mode fs ts false) (h' : Says value mode gs us w) :
    Says value mode (fs ++ gs) (ts ++ us) w := by
  constructor
  · rw [tokensAll_append, h.tokens, h.waits, h'.tokens]
  · rw [waitsAll_append, h.waits, h'.waits]

theorem pending (h : Says value mode fs ts w) (h' : Says value mode gs us w') :
    Says value mode (fs ++ .piece .pending :: gs) (ts ++ (due w ++ us)) w' := by
  constructor
  · rw [tokensAll_append, h.tokens, h.waits, ← h'.tokens]
    rfl
  · rw [waitsAll_append, ← h'.waits]
    rfl

theorem terminator : Says value mode [.piece .terminator] (terminal mode) (mode == .minified) := by
  cases mode <;> exact ⟨rfl, rfl⟩

theorem newline : Says value mode [.piece .newline] [] false :=
  ⟨congrArg (· ++ []) Token.ofPiece_newline, rfl⟩

theorem dropPending (h : Says value mode fs ts w) :
    Says value mode (fs ++ [.piece .dropPending]) ts false := by
  have hdrop : tokensAll value mode w [.piece .dropPending] = [] :=
    congrArg (· ++ []) (Token.ofPiece_of_own rfl)
  constructor
  · rw [tokensAll_append, h.tokens, h.waits, hdrop, append_nil]
  · rw [waitsAll_append]
    rfl

theorem braced (h : Says value mode fs ts w) : Says value mode (braced depth fs)
    (.punct .leftBrace :: ts ++ [.punct .rightBrace]) w := by
  constructor
  · rw [Fragment.braced, append_assoc, Fragment.tokensAll_append, Fragment.tokensAll_append,
      tokensAll_ofPieces (by simp), tokensAll_ofPieces (by simp),
      waitsAll_ofPieces (by simp), h.tokens]
    simp
  · rw [Fragment.braced, Fragment.waitsAll_append, Fragment.waitsAll_append,
      waitsAll_ofPieces (by simp), waitsAll_ofPieces (by simp), h.waits]

theorem block (fs : List Fragment) : Says value mode (block depth fs)
    (.punct .leftBrace :: tokensAll value mode false fs ++ [.punct .rightBrace]) false :=
  (self fs).braced.dropPending

end Says

structure Recited (value : List Char → Float) (mode : Mode) (opens : Bool) (fs : List Fragment)
    (s : Stmt) : Prop where
  filled : tokensAll value mode false fs ≠ []
  statement : ∀ r r', Rest (waitsAll mode false fs) r r' → Apart opens r' →
    statement (tokensAll value mode false fs ++ r) = some (s, r')

namespace Recited

theorem length_lt (h : Recited value mode opens fs s) (hr : Rest (waitsAll mode false fs) r r') :
    r'.length < (tokensAll value mode false fs ++ r).length := by
  have hle := hr.length_le
  have hpos := length_pos_iff.mpr h.filled
  rw [length_append]
  omega

theorem of_said (hsaid : Says value mode fs ts w) (hfilled : ts ≠ [])
    (h : ∀ r r', Rest w r r' → Apart opens r' → Grammar.statement (ts ++ r) = some (s, r')) :
    Recited value mode opens fs s := by
  obtain ⟨rfl, rfl⟩ := hsaid
  exact ⟨hfilled, h⟩

theorem opened (h : Recited value mode opens fs s) : Recited value mode true fs s :=
  ⟨h.filled, fun r r' hr hapart => h.statement r r' hr ⟨hapart.1, fun _ => hapart.2 rfl⟩⟩

theorem blank (hp : p.isPlain) (htokens : Token.ofPiece value p = [])
    (h : Recited value mode opens fs s) : Recited value mode opens (.piece p :: fs) s := by
  have hhead : Says value mode [.piece p] (Token.ofPieces value [p]) false :=
    .plain (plain_cons.mpr ⟨hp, plain_nil⟩)
  rw [Token.ofPieces_cons, htokens] at hhead
  exact .of_said (hhead.append (.self fs)) h.filled h.statement

theorem spacing (hp : p.isSpacing) (h : Recited value mode opens fs s) :
    Recited value mode opens (.piece p :: fs) s := by
  have hplain : p.isPlain := by rw [Piece.isPlain, hp, Bool.or_true]
  refine h.blank hplain ?_
  cases p <;> first | exact Token.ofPiece_of_own rfl | cases hp

theorem terminated (hsaid : Says value mode fs ts false) (hfilled : ts ≠ [])
    (h : ∀ r r', semicolon r = some r' → Grammar.statement (ts ++ r) = some (s, r')) :
    Recited value mode opens (fs ++ [.piece .terminator]) s := by
  refine .of_said (hsaid.append .terminator) (append_ne_nil_of_left_ne_nil hfilled _)
    fun r r' hr _ => ?_
  rw [append_assoc]
  exact h _ r' (semicolon_terminal hr)

theorem headed (hsaid : Says value mode fs ts false) (hbody : Recited value mode opens gs s')
    (h : ∀ r r', Grammar.statement r = some (s', r') → r'.length < r.length → Apart opens r' →
      Grammar.statement (ts ++ r) = some (s, r')) : Recited value mode opens (fs ++ gs) s := by
  refine .of_said (hsaid.append (.self gs)) (append_ne_nil_of_right_ne_nil _ hbody.filled)
    fun r r' hr hapart => ?_
  rw [append_assoc]
  exact h _ r' (hbody.statement r r' hr hapart) (hbody.length_lt hr) hapart

theorem closed (hsaid : Says value mode fs ts false) (hfilled : ts ≠ [])
    (h : ∀ r, r.head? ≠ some (.word "finally") → Grammar.statement (ts ++ r) = some (s, r)) :
    Recited value mode opens fs s := by
  refine .of_said hsaid hfilled fun r r' hr hapart => ?_
  obtain rfl : r' = r := hr
  exact h r' hapart.1

end Recited

namespace Tree

variable {α : Type} {st : Style} {t : Tree α} {cs vs : List (Tree α)} {position : Position}
  (k : Keyword)
variable {allowIn inSetup : Bool} {m m' : α}

attribute [local simp] Piece.separatorUnless ofPieces

def Recites (st : Style) (value : List Char → Float) (t : Tree α) : Prop :=
  ∀ position depth, Recited value st.mode t.endsOpen (t.lines st position depth)
    (t.readingStatement st true)

theorem listLines_cons (c : Tree α) (cs : List (Tree α)) : listLines st depth (c :: cs) =
    .piece .pending :: (c.lines st .line depth ++ listLines st depth cs) := by
  rw [listLines]
  rfl

theorem statements_listLines (h : ∀ c ∈ cs, c.Recites st value)
    (hr : Rest (waitsAll st.mode false (listLines st depth cs)) r r')
    (hr' : statements r' = some ([], r')) :
    statements (tokensAll value st.mode false (listLines st depth cs) ++ r) =
      some (readingStatements st true cs, r') := by
  induction cs with
  | nil =>
    rw [listLines] at hr ⊢
    rw [readingStatements, ← show r' = r from hr]
    exact hr'
  | cons c cs ih =>
    have hc := h c (.head _) .line depth
    rw [readingStatements]
    cases cs with
    | nil =>
      have hsame : listLines st depth [c] = .piece .pending :: c.lines st .line depth := by
        rw [listLines, listLines, append_nil]
      rw [hsame] at hr ⊢
      refine statements_cons (hc.statement r r' hr (apart_of_statements hr')) (hc.length_lt hr) ?_
      rw [readingStatements]
      exact hr'
    | cons d ds =>
      have hsaid :
          Says value st.mode (c.lines st .line depth ++ listLines st depth (d :: ds)) _ _ :=
        listLines_cons d ds ▸ (Says.self _).pending (.self _)
      have hrest := ih fun x hx => h x (.tail _ hx)
      rw [listLines_cons] at hrest hsaid
      rw [listLines_cons, listLines_cons] at hr ⊢
      change Rest (waitsAll st.mode false (_ ++ _)) r r' at hr
      rw [hsaid.waits] at hr
      show statements (tokensAll value st.mode false (_ ++ _) ++ r) = _
      rw [hsaid.tokens, append_assoc, append_assoc]
      exact statements_cons (hc.statement _ _ rest_due (apart_of_statements (hrest hr)))
        (hc.length_lt rest_due) (hrest hr)

theorem block_listLines (h : ∀ c ∈ cs, c.Recites st value) :
    block (tokensAll value st.mode false (listLines st depth cs) ++ .punct .rightBrace :: r) =
      some (readingStatements st true cs, r) := by
  refine block_eq (statements_listLines h rest_brace ?_)
  rw [statements]

/-! ## Parts of statements -/

theorem name_of_isName {s : String} (h : Expr.isName s) : name? s = some s := by
  rw [Expr.isName, Bool.and_eq_true, decide_eq_true_eq] at h
  exact if_neg h.2

theorem ofPiece_name {s : String} (h : Expr.isName s) (hp : p.own = s.toList) :
    Token.ofPiece value p = [.word s] :=
  (atom_word (Expr.isIdentifier_of_isName h)).ofPiece hp

theorem ofPiece_variable {s : SymbolId} (h : (node m (.variable s) cs).Readable st value) :
    Token.ofPiece value (.word (st.name s)) = [.word (st.name s)] :=
  ofPiece_name h.spelled rfl

theorem filled_declarationSpelling (inSetup : Bool) (h : t.IsVariable) (hs : t.Readable st value) :
    Token.ofPieces value (t.declarationSpelling st inSetup) ≠ [] := by
  obtain ⟨m, s, v, rfl, -⟩ := h
  rw [declarationSpelling]
  split <;> simp [ofPiece_variable hs]

theorem not_head_of_follows {n : Nat} {q : Punct} (hr : Follows allowIn n r)
    (hq : n < grip true (.punct q)) : r.head? ≠ some (.punct q) := by
  intro hhead
  obtain ⟨r', rfl⟩ := List.head?_eq_some_iff.mp hhead
  exact absurd hr.punct_le (Nat.not_le.mpr hq)

theorem declaration_declarationSpelling (h : t.IsVariable) (hs : t.Readable st value)
    (hin : allowIn = false → inSetup = true) (hr : Follows allowIn 3 r) :
    declaration allowIn (Token.ofPieces value (t.declarationSpelling st inSetup) ++ r) =
      some (t.readingDeclaration st, r) := by
  obtain ⟨m, s, v, rfl, hexpression⟩ := h
  have hname := name_of_isName hs.spelled
  rw [declarationSpelling, readingDeclaration]
  split
  · rw [Token.ofPieces_cons, ofPiece_variable hs]
    exact declaration_nil hname (not_head_of_follows hr (by decide))
  · have hparsed := parses hexpression (hs.children v (.head _)) .comma inSetup allowIn hin
    simpa [ofPiece_variable hs] using
      declaration_value hname (hparsed.assignment (by decide) r hr)

theorem declarations_declarationsSpelling (allowIn inSetup : Bool) (hne : vs ≠ [])
    (h : ∀ v ∈ vs, v.IsVariable) (hs : ∀ v ∈ vs, v.Readable st value)
    (hin : allowIn = false → inSetup = true) (hr : Follows allowIn 1 r) :
    declarations allowIn (Token.ofPieces value (declarationsSpelling st inSetup true vs) ++ r) =
      some (vs.map (readingDeclaration st), r) := by
  induction vs with
  | nil => exact absurd rfl hne
  | cons v vs ih =>
    have hlength : ∀ r : Tokens, r.length <
        (Token.ofPieces value (v.declarationSpelling st inSetup) ++ r).length := by
      intro r
      have hpos := length_pos_iff.mpr
        (filled_declarationSpelling inSetup (h v (.head _)) (hs v (.head _)))
      rw [length_append]
      omega
    have hfirst := fun r => declaration_declarationSpelling (r := r) (h v (.head _))
      (hs v (.head _)) hin
    have htokens : Token.ofPieces value (declarationsSpelling st inSetup true (v :: vs)) =
        Token.ofPieces value (v.declarationSpelling st inSetup) ++
          Token.ofPieces value (declarationsSpelling st inSetup false vs) := by
      simp [declarationsSpelling]
    rw [htokens, append_assoc, map_cons]
    cases vs with
    | nil =>
      exact declarations_last (hfirst r (hr.mono (by decide))) (hlength r)
        (not_head_of_follows hr (by decide))
    | cons w ws =>
      have hcomma : Token.ofPieces value (declarationsSpelling st inSetup false (w :: ws)) =
          .punct .comma ::
            Token.ofPieces value (declarationsSpelling st inSetup true (w :: ws)) := by
        simp [declarationsSpelling, Piece.separator]
      rw [hcomma]
      exact declarations_cons (hfirst _ (follows_punct (by decide))) (hlength _)
        (ih (cons_ne_nil w ws) (fun x hx => h x (.tail _ hx))
          fun x hx => hs x (.tail _ hx))

theorem clause_clauseSpelling {q : Punct} (h : t.IsClause) (hs : t.Readable st value)
    (hq : grip true (.punct q) ≤ 1) (hbegins : begins (.punct q) = false) :
    Grammar.clause q (Token.ofPieces value (t.clauseSpelling st) ++ .punct q :: r) =
      some (t.readingClause st, r) := by
  rcases h with h | ⟨m, rfl⟩
  · have htokens : Token.ofPieces value (t.clauseSpelling st) =
        Token.ofPieces value (t.spelling st .lowest) := by
      simp [clauseSpelling, h.not_isEmpty]
    rw [htokens, readingClause, h.not_isEmpty]
    exact (parses h hs .lowest false true (by simp)).clause hq hbegins
  · exact clause_nil

theorem parameters_parameterSpelling (h : ∀ v ∈ vs, v.IsVariable)
    (hs : ∀ v ∈ vs, v.Readable st value) :
    parameters (Token.ofPieces value (parameterSpelling st true vs) ++ .punct .rightParen :: r) =
      some (vs.map (fun v => (v.readingDeclaration st).1), r) := by
  induction vs with
  | nil =>
    rw [parameterSpelling]
    · show parameters (.punct .rightParen :: r) = _
      rw [parameters]
      rfl
    · simp
  | cons v vs ih =>
    have hvs := ih (fun x hx => h x (.tail _ hx))
      fun x hx => hs x (.tail _ hx)
    have hv := hs v (.head _)
    obtain ⟨m, s, e, rfl, -⟩ := h v (.head _)
    have htokens : Token.ofPieces value (parameterSpelling st true
        (node m (.variable s) [e] :: vs)) =
        .word (st.name s) :: Token.ofPieces value (parameterSpelling st false vs) := by
      simp [parameterSpelling, ofPiece_variable hv]
    rw [htokens, map_cons, readingDeclaration]
    cases vs with
    | nil =>
      have hnil : parameterSpelling st false ([] : List (Tree α)) = [] := by
        rw [parameterSpelling]
        simp
      rw [hnil]
      exact parameters_last (name_of_isName hv.spelled)
    | cons w ws =>
      obtain ⟨m', s', e', rfl, -⟩ := h w (by simp)
      have hcomma : Token.ofPieces value (parameterSpelling st false
          (node m' (.variable s') [e'] :: ws)) = .punct .comma ::
            Token.ofPieces value (parameterSpelling st true
              (node m' (.variable s') [e'] :: ws)) := by
        simp [parameterSpelling, Piece.separator]
      rw [hcomma]
      exact parameters_cons (name_of_isName hv.spelled) hvs

/-! ## Headers -/

theorem ofPiece_varBlank (hp : p.own = "var ".toList) : Token.ofPiece value p = [.word "var"] :=
  ofPiece_wordBlank (s := "var") (by decide) hp

theorem header_forLoop {s t u : Tree α} (hs : s.IsSetup) (ht : t.IsClause) (hu : u.IsClause)
    (hsr : s.Readable st value) (htr : t.Readable st value) (hur : u.Readable st value) :
    header (Token.ofPieces value (s.setupSpelling st) ++ .punct .semicolon ::
        (Token.ofPieces value (t.clauseSpelling st) ++ .punct .semicolon ::
          (Token.ofPieces value (u.clauseSpelling st) ++ .punct .rightParen :: r))) =
      some (.loop (s.readingSetup st) (t.readingClause st) (u.readingClause st), r) := by
  have hclauses : ∀ setup, clauses setup (Token.ofPieces value (t.clauseSpelling st) ++
      .punct .semicolon :: (Token.ofPieces value (u.clauseSpelling st) ++
        .punct .rightParen :: r)) =
        some (.loop setup (t.readingClause st) (u.readingClause st), r) := fun setup =>
    clauses_eq (clause_clauseSpelling ht htr (by decide) rfl)
      (clause_clauseSpelling hu hur (by decide) rfl)
  rcases hs with (h | ⟨m, rfl⟩) | ⟨m, vs, rfl, hvs⟩
  · have hsetup : s.setupSpelling st = s.spelling st ⟨.lowest, true⟩ ∧
        s.readingSetup st = .expression (s.reading st) := by
      cases h <;> exact ⟨rfl, rfl⟩
    have hparsed := parses h hsr .lowest true false fun _ => rfl
    rw [hsetup.1, hsetup.2, header_expression (hparsed.begins.append _)
      (hparsed.expression _ (follows_punct (by decide)))]
    exact hclauses _
  · show header (.punct .semicolon :: _) = _
    rw [header_none]
    exact hclauses _
  · have hne : vs ≠ [] := by
      rintro rfl
      cases hsr.spelled
    have hdeclarations := fun r hr => declarations_declarationsSpelling (r := r) false true hne hvs
      hsr.children (fun _ => rfl) hr
    have htokens : Token.ofPieces value ((node m .varStatement vs).setupSpelling st) =
        .word "var" :: Token.ofPieces value (declarationsSpelling st true true vs) := by
      show Token.ofPiece value (.text "var ") ++ _ = _
      rw [ofPiece_varBlank rfl]
      rfl
    rw [htokens, cons_append, header_var (hdeclarations _ (follows_punct (by decide)))]
    exact hclauses _

theorem header_forIn {h v : Tree α} (hh : h.IsHead) (hv : v.IsExpression)
    (hhead : h.kind.isTarget || (h.kind.isVariable && h.children.all isUndefined))
    (hhr : h.Readable st value) (hvr : v.Readable st value) :
    header (Token.ofPieces value (h.headSpelling st) ++ .word "in" ::
        (Token.ofPieces value (v.spelling st .lowest) ++ .punct .rightParen :: r)) =
      some (.each (h.readingHead st) (v.reading st), r) := by
  have hclosed : closed .rightParen
      (Token.ofPieces value (v.spelling st .lowest) ++ .punct .rightParen :: r) =
        some (v.reading st, r) :=
    (parses hv hvr .lowest false true (by simp)).closed (by decide)
  have hin : ∀ n (r : Tokens), Follows false n (.word "in" :: r) :=
    fun n r => follows_cons (Nat.zero_le n)
  rcases hh with hh | hh
  · have hkind : h.kind.isVariable = false := by cases hh <;> rfl
    have htarget : h.kind.isTarget := by
      rw [hkind, Bool.false_and, Bool.or_false] at hhead
      exact hhead
    have hparsed := parses hh hhr .update true false fun _ => rfl
    rw [headSpelling, readingHead, hkind]
    show header (Token.ofPieces value (h.spelling st ⟨.update, true⟩) ++ _) = _
    rw [header_target ((hparsed.begins.mono (Nat.zero_le _)).append _)
      (hparsed.expression _ (hin 1 _)) (isTarget_reading hh htarget)]
    exact each_eq hclosed
  · obtain ⟨m, s, e, rfl, -⟩ := hh
    have hundefined : e.isUndefined := by simpa [Kind.isTarget, Kind.isVariable] using hhead
    have hvar : Token.ofPiece value (.text "var") = [.word "var"] :=
      (atom_word (by decide)).ofPiece rfl
    have htokens : Token.ofPieces value ((node m (.variable s) [e]).headSpelling st) =
        [.word "var", .word (st.name s)] := by
      simp [headSpelling, Kind.isVariable, declarationSpelling, hundefined, hvar,
        ofPiece_variable hhr]
    have hreading : (node m (.variable s) [e]).readingHead st = .var (st.name s) := rfl
    rw [htokens, hreading, cons_append, cons_append, nil_append,
      header_varIn (declarations_last (declaration_nil (name_of_isName hhr.spelled) (by simp))
        (by simp) (by simp))]
    exact each_eq hclosed

/-! ## Statements -/

theorem recited_placed {k : Kind} {opens : Bool} (hk : k.isPlaced)
    (h : ∀ depth, Recited value st.mode opens ((node m k cs).lines st .line depth) s) :
    ∀ position depth, Recited value st.mode opens ((node m k cs).lines st position depth) s := by
  intro position depth
  rw [lines_placed hk]
  split
  · exact h depth
  · exact (h (depth + 1)).spacing rfl

theorem statement_of_following {k : Keyword} {x : Option (Stmt × Tokens)} (h : following k r = x) :
    statement (.word k.text :: r) = x := by
  rw [statement_keyword (k := k) (by cases k <;> rfl), h]

theorem recited_expression {e : Tree α} (he : e.IsExpression) (hs : e.Readable st value) :
    Recited value st.mode opens ((node m .expression [e]).lines st .line depth)
      (.expression (e.reading st)) := by
  have hparsed := parses he hs .lowest false true (by simp)
  have hsaid : Says value st.mode [.opening (e.spelling st .lowest)]
      (guarded (Token.ofPieces value (e.spelling st .lowest))) false :=
    ⟨append_nil _, foldl_waits (plain_spelling he _)⟩
  obtain ⟨t, ts, hts, ht, -⟩ := hparsed.begins
  rw [lines]
  refine ((Recited.terminated hsaid ?_ fun r r' hr => ?_).spacing rfl : Recited value st.mode opens
    (.piece (.indent depth) :: ([.opening (e.spelling st .lowest)] ++ [.piece .terminator])) _)
  · exact guarded_ne_nil (hts ▸ cons_ne_nil t ts)
  · have hended := hparsed.ended hr
    have hbare := hparsed.expression r (follows_of_semicolon hr 1)
    have hwrapped := (hparsed.wrapped : Parsed true 0 _ _).ended hr
    show statement (guarded (Token.ofPieces value (e.spelling st ⟨.lowest, false⟩)) ++ r) = _
    rw [hts] at hended hbare hwrapped ⊢
    by_cases hbrace : t = .punct .leftBrace
    · subst hbrace
      exact statement_expression rfl (by simp) (by simp) hwrapped
    · rw [guarded_of_ne hbrace]
      refine statement_expression ht hbrace ?_ hended
      -- The second token is no colon: the expression goes on to the end of the statement.
      rintro s rfl hcolon
      obtain ⟨r₁, hr₁⟩ := List.head?_eq_some_iff.mp hcolon
      change ts ++ r = _ at hr₁
      rw [cons_append, hr₁] at hbare
      obtain rfl := expression_colon hbare
      cases hr

theorem recited_block (h : ∀ c ∈ cs, c.Recites st value) : Recited value st.mode opens
      (block depth (listLines st (depth + 1) cs) ++ [.piece .newline])
      (.block (readingStatements st true cs)) := by
  refine .closed ((Says.block _).append .newline) (by simp) fun r _ => ?_
  simpa using statement_block (block_listLines h)

theorem ofPiece_identifier {s : String} (h : Text.isIdentifier s) (hp : p.own = s.toList) :
    Token.ofPiece value p = [.word s] := (atom_word h).ofPiece hp

theorem ofPiece_keyword : Token.ofPiece value (.word k.text) = [.word k.text] :=
  ofPiece_identifier (by cases k <;> decide) rfl

theorem says_keyword {k : Keyword} {word : String}
    (h : Token.ofPiece value (.word word) = [.word k.text]) :
    Says value mode (keyword depth word) [.word k.text] false := by
  have hplain : Says value mode (ofPieces [.indent depth, .word word]) _ false := .plain (by simp)
  simpa [h, keyword] using hplain

theorem recited_keyword {word : String} (hword : Token.ofPiece value (.word word) = [.word k.text])
    (hsaid : Says value st.mode fs ts false)
    (h : ∀ r r', semicolon r = some r' → following k (ts ++ r) = some (s, r')) :
    Recited value st.mode opens (keyword depth word ++ fs ++ [.piece .terminator]) s :=
  .terminated ((says_keyword hword).append hsaid) (cons_ne_nil _ _) fun r r' hr =>
    statement_of_following (h r r' hr)

theorem recited_headed (hsaid : Says value st.mode fs ts false)
    (hbody : Recited value st.mode opens gs s')
    (h : ∀ r r', statement r = some (s', r') → following k (ts ++ r) = some (s, r')) :
    Recited value st.mode opens (keyword depth k.text ++ fs ++ gs) s :=
  .headed ((says_keyword (ofPiece_keyword k)).append hsaid) hbody fun r r' hr _ _ =>
    statement_of_following (h r r' hr)

theorem recited_jump {label : Option SymbolId} (hlabel : ∀ l ∈ label, Expr.isName (st.name l))
    (hfollowing : ∀ r r', Grammar.jump r = some (label.map st.name, r') →
      following k r = some (s, r')) :
    Recited value st.mode opens (jump st depth k.text label) s := by
  cases label with
  | none =>
    exact recited_keyword k (ofPiece_keyword k) (.plain plain_nil) fun r r' hr =>
      hfollowing r r' (jump_nil hr)
  | some l =>
    have hname := hlabel l rfl
    have hword : Token.ofPiece value (.text (st.name l)) = [.word (st.name l)] :=
      ofPiece_name hname rfl
    refine recited_keyword k (ofPiece_keyword k) (Says.plain (by simp) :
      Says value st.mode (ofPieces [.text " ", .text (st.name l)]) _ false) fun r r' hr => ?_
    simpa [hword] using hfollowing _ r' (jump_word (name_of_isName hname) hr)

theorem ofPieces_testSpelling (t : Tree α) : Token.ofPieces value (t.testSpelling st) ++ r =
    .punct .leftParen :: (Token.ofPieces value (t.spelling st .lowest) ++
      .punct .rightParen :: r) := by
  simp [testSpelling]

theorem parenthesized_testSpelling (h : t.IsExpression) (hs : t.Readable st value) :
    parenthesized (Token.ofPieces value (t.testSpelling st) ++ r) = some (t.reading st, r) := by
  rw [ofPieces_testSpelling]
  exact (parses h hs .lowest false true nofun).parenthesized

theorem length_testSpelling (t : Tree α) :
    r.length < (Token.ofPieces value (t.testSpelling st) ++ r).length := by
  rw [ofPieces_testSpelling, length_cons, length_append, length_cons]
  omega

theorem recited_doWhile (hbody : Recited value st.mode opens gs s) (ht : t.IsExpression)
    (hs : t.Readable st value) : Recited value st.mode false
      (keyword depth Keyword.do.text ++ (gs ++ .piece .pending ::
        (ofPieces (.indent depth :: .text "while" :: t.testSpelling st) ++ [.piece .terminator])))
      (.doWhile s (t.reading st)) := by
  have hwhile : Token.ofPiece value (.text "while") = [.word "while"] :=
    ofPiece_identifier (by decide) rfl
  have htest : Says value st.mode
      (ofPieces (.indent depth :: .text "while" :: t.testSpelling st)) _ false :=
    .plain (by simp [plain_testSpelling ht])
  refine .of_said ((says_keyword (ofPiece_keyword .do)).append
    ((Says.self gs).pending (htest.append .terminator))) (by simp) fun r r' hr _ => ?_
  simpa [hwhile] using statement_of_following (following_do
    (hbody.statement _ _ rest_due ⟨by simp, by simp⟩) (parenthesized_testSpelling ht hs)
    (semicolon_terminal hr))

theorem recited_braced (h : Recited value st.mode opens gs s) :
    Recited value st.mode false (.piece .space :: (braced depth
      (gs ++ [.piece .dropPending]) ++ [.piece .newline])) (.block [s]) := by
  refine .spacing rfl (.closed ((Says.self gs).dropPending.braced.append .newline) (by simp)
    fun r _ => ?_)
  have hend : statements (.punct .rightBrace :: r) = some ([], .punct .rightBrace :: r) := by
    rw [statements]
  simpa using statement_block (block_eq (statements_cons
    (h.statement _ _ rest_brace (apart_of_statements hend)) (h.length_lt rest_brace) hend))

theorem recited_ifElse (ht : t.IsExpression) (hs : t.Readable st value)
    (hthen : Recited value st.mode false fs s) (helse : Recited value st.mode opens gs s') :
    Recited value st.mode opens
      (ofPieces (.word Keyword.if.text :: t.testSpelling st) ++ (fs ++ .piece .pending ::
        (ofPieces [.indent depth, .text "else"] ++ gs)))
      (.ifElse (t.reading st) s s') := by
  have hword : Token.ofPiece value (.text "else") = [.word "else"] :=
    ofPiece_identifier (by decide) rfl
  have hhead : Says value st.mode (ofPieces (.word Keyword.if.text :: t.testSpelling st)) _ false :=
    .plain (by simp [plain_testSpelling ht])
  have htail : Says value st.mode (ofPieces [.indent depth, .text "else"] ++ gs) _ _ :=
    (Says.plain (by simp)).append (.self gs)
  refine .of_said (hhead.append ((Says.self fs).pending htail)) (by simp [ofPiece_keyword])
    fun r r' hr hapart => ?_
  simpa [hword, ofPiece_keyword] using statement_of_following (following_ifElse
    (parenthesized_testSpelling ht hs) (length_testSpelling t)
    (hthen.statement _ _ rest_due ⟨by simp, nofun⟩) (hthen.length_lt rest_due)
    (helse.statement r r' hr hapart))

theorem recited_ifLines {a b : Tree α} (ht : t.IsExpression) (hs : t.Readable st value)
    (ha : a.Recites st value) (hb : b.Recites st value) :
    Recited value st.mode (node m .ifElse [t, a, b]).endsOpen (ifLines st depth [t, a, b])
      ((node m .ifElse [t, a, b]).readingStatement st true) := by
  have hopens : (node m .ifElse [t, a, b]).endsOpen = (b.isEmpty || b.endsOpen) := by rw [endsOpen]
  rw [hopens, readingStatement]
  cases hempty : b.isEmpty with
  | true =>
    have hhead :
        Says value st.mode (ofPieces (.word Keyword.if.text :: t.testSpelling st)) _ false :=
      .plain (by simp [plain_testSpelling ht])
    have hif := Recited.headed hhead (ha .body depth).opened
      (s := .ifThen (t.reading st) (a.readingStatement st true)) fun r r' hr hlt hapart => by
        simpa [ofPiece_keyword] using statement_of_following (following_if
          (parenthesized_testSpelling ht hs) (length_testSpelling t) hr hlt (hapart.2 rfl))
    simpa [ifLines, hempty, Keyword.text] using hif
  | false =>
    have hthen : Recited value st.mode false
        (if a.endsOpen then .piece .space :: (braced depth
            (a.lines st .line (depth + 1) ++ [.piece .dropPending]) ++ [.piece .newline])
          else a.lines st .body depth)
        (.bracedIf a.endsOpen (a.readingStatement st true)) := by
      have hbody := ha .body depth
      cases hopen : a.endsOpen with
      | true => exact recited_braced (ha .line (depth + 1))
      | false =>
        rw [hopen] at hbody
        exact hbody
    simpa [ifLines, hempty, Keyword.text] using recited_ifElse ht hs hthen (hb .orElse depth)

/-! ## Functions and handlers -/

theorem braced_listLines (depth : Nat) (h : ∀ c ∈ cs, c.Recites st value) :
    Grammar.braced (.punct .leftBrace :: (tokensAll value st.mode false (listLines st depth cs) ++
      .punct .rightBrace :: r)) = some (readingStatements st true cs, r) := by
  rw [Grammar.braced]
  exact block_listLines h

theorem recited_function {f : SymbolId} (hname : Expr.isName (st.name f))
    (hvs : ∀ v ∈ vs, v.IsVariable) (hs : ∀ v ∈ vs, v.Readable st value)
    (h : ∀ c ∈ cs, c.Recites st value) : Recited value st.mode opens
      ((node m (.function f) (node m' .block cs :: vs)).lines st .line depth)
      (.function (st.name f) (vs.map fun v => (v.readingDeclaration st).1)
        (readingStatements st true cs)) := by
  have hfunction : Token.ofPiece value (.word "function ") = [.word Keyword.function.text] :=
    ofPiece_wordBlank (s := "function") (by decide) rfl
  have hword : Token.ofPiece value (.text (st.name f)) = [.word (st.name f)] :=
    ofPiece_name hname rfl
  have hhead : Says value st.mode (ofPieces (.text (st.name f) :: .text "(" ::
      parameterSpelling st true vs ++ [.text ")", .space])) _ false :=
    .plain (by simp [plain_parameterSpelling hvs])
  rw [lines]
  refine .closed ((((says_keyword hfunction).append hhead).append (.block _)).append .newline)
    (cons_ne_nil _ _) fun r _ => ?_
  simpa [hword] using statement_of_following (following_function (name_of_isName hname)
    (parameters_parameterSpelling hvs hs) (by simp; omega) (braced_listLines (depth + 1) h))

theorem says_handler {s : SymbolId} : Says value mode
    ((handler m (some (s, m', cs))).handlerLines st depth)
    (Token.ofPieces value [.space, .text "catch", .space, .text "(", .text (st.name s), .text ")",
      .space] ++ (.punct .leftBrace :: tokensAll value mode false (listLines st (depth + 1) cs) ++
        [.punct .rightBrace])) false := by
  rw [handler, handlerLines]
  exact (Says.plain (by simp)).append (.block _)

theorem says_finalizer : Says value mode ((finalizer m (some cs)).finalizerLines st depth)
    (Token.ofPieces value [.space, .text "finally", .space] ++ (.punct .leftBrace ::
      tokensAll value mode false (listLines st (depth + 1) cs) ++ [.punct .rightBrace])) false := by
  rw [finalizer, finalizerLines]
  exact (Says.plain (by simp)).append (.block _)

theorem handlerLines_none : (handler m none).handlerLines st depth = [] := by
  rw [handler, handlerLines]
  simp

theorem finalizerLines_none : (finalizer m none).finalizerLines st depth = [] := by
  rw [finalizer, finalizerLines]
  simp

theorem handler_handlerLines (depth : Nat) (m : α) (o : Option (SymbolId × α × List (Tree α)))
    (hname : ∀ p ∈ o, Expr.isName (st.name p.1))
    (h : ∀ p ∈ o, ∀ c ∈ p.2.2, c.Recites st value)
    (hr : o = none → r.head? ≠ some (.word "catch")) :
    ∃ ts, Says value st.mode ((handler m o).handlerLines st depth) ts false ∧
      Grammar.handler (ts ++ r) = some ((handler m o).readingHandler st true, r) := by
  rw [readingHandler_handler]
  rcases o with _ | ⟨s, m', cs⟩
  · exact ⟨[], handlerLines_none ▸ .self [], handler_nil (hr rfl)⟩
  · have hcatch : Token.ofPiece value (.text "catch") = [.word "catch"] :=
      ofPiece_identifier (by decide) rfl
    have hword : Token.ofPiece value (.text (st.name s)) = [.word (st.name s)] :=
      ofPiece_name (hname _ rfl) rfl
    refine ⟨_, says_handler, ?_⟩
    simpa [hcatch, hword] using
      handler_catch (name_of_isName (hname _ rfl)) (braced_listLines (depth + 1) (h _ rfl))

theorem finalizer_finalizerLines (depth : Nat) (m : α) (o : Option (List (Tree α)))
    (h : ∀ ds ∈ o, ∀ c ∈ ds, c.Recites st value) (hr : r.head? ≠ some (.word "finally")) :
    ∃ ts, Says value st.mode ((finalizer m o).finalizerLines st depth) ts false ∧
      Grammar.finalizer (ts ++ r) = some ((finalizer m o).readingFinalizer st true, r) ∧
      (o ≠ none → (ts ++ r).head? ≠ some (.word "catch")) := by
  rw [readingFinalizer_finalizer]
  rcases o with _ | cs
  · exact ⟨[], finalizerLines_none ▸ .self [], finalizer_nil hr, absurd rfl⟩
  · have hfinally : Token.ofPiece value (.text "finally") = [.word "finally"] :=
      ofPiece_identifier (by decide) rfl
    refine ⟨_, says_finalizer, ?_, by simp [hfinally]⟩
    simpa [hfinally] using finalizer_finally (braced_listLines (depth + 1) (h _ rfl))

theorem recited_try {mh mf : α} {o : Option (SymbolId × α × List (Tree α))}
    {d : Option (List (Tree α))} (h : ∀ c ∈ cs, c.Recites st value)
    (hname : ∀ p ∈ o, Expr.isName (st.name p.1))
    (hh : ∀ p ∈ o, ∀ c ∈ p.2.2, c.Recites st value) (hf : ∀ ds ∈ d, ∀ c ∈ ds, c.Recites st value)
    (hcaught : o = none → d ≠ none)
    (hs : Stmt.tried? (readingStatements st true cs) ((handler mh o).readingHandler st true)
      ((finalizer mf d).readingFinalizer st true) = some s) :
    Recited value st.mode opens
      ((node m .try [node m' .block cs, .handler mh o, .finalizer mf d]).lines st .line depth)
      s := by
  have hspace : Says value st.mode (ofPieces [.space]) _ false := .plain (by simp)
  have hhead : Says value st.mode (keyword depth "try" ++ .piece .space ::
      block depth (listLines st (depth + 1) cs)) _ false :=
    (says_keyword (ofPiece_keyword .try)).append (hspace.append (.block _))
  -- The rest decides how much of it the two clauses take, so their tokens are found for it.
  have hclauses : ∀ r : Tokens, r.head? ≠ some (.word "finally") → ∃ ts us,
      Says value st.mode ((handler mh o).handlerLines st depth) ts false ∧
      Says value st.mode ((finalizer mf d).finalizerLines st depth) us false ∧
      Grammar.handler (ts ++ (us ++ r)) = some ((handler mh o).readingHandler st true, us ++ r) ∧
      Grammar.finalizer (us ++ r) = some ((finalizer mf d).readingFinalizer st true, r) := by
    intro r hr
    obtain ⟨us, hus, hfinalizer, hcatch⟩ := finalizer_finalizerLines depth mf d hf hr
    obtain ⟨ts, hts, hhandler⟩ := handler_handlerLines depth mh o hname hh fun ho =>
      hcatch (hcaught ho)
    exact ⟨ts, us, hts, hus, hhandler, hfinalizer⟩
  obtain ⟨ts, us, hts, hus, -⟩ := hclauses [] (by simp)
  rw [lines]
  refine .closed (((hhead.append hts).append hus).append .newline) (cons_ne_nil _ _)
    fun r hr => ?_
  obtain ⟨ts', us', hts', hus', hhandler, hfinalizer⟩ := hclauses r hr
  obtain rfl : ts' = ts := hts'.tokens.symm.trans hts.tokens
  obtain rfl : us' = us := hus'.tokens.symm.trans hus.tokens
  simpa using statement_of_following (following_try (braced_listLines (depth + 1) h)
    (by simp; omega) hhandler (by simp; omega) hfinalizer hs)

/-! ## Every statement -/

theorem recites (h : t.IsStatement) (hs : t.Readable st value) : t.Recites st value := by
  induction h with
  | @block m cs _ ih =>
    intro position depth
    rw [lines, readingStatement]
    cases position <;> exact (recited_block fun c hc => ih c hc (hs.children c hc)).spacing rfl
  | @«break» m label =>
    refine recited_placed rfl fun depth => ?_
    rw [lines, readingStatement]
    refine recited_jump .break ?_ fun r r' hr => ?_
    · rintro l rfl
      exact hs.spelled
    · rw [following, hr]
      rfl
  | @«continue» m label =>
    refine recited_placed rfl fun depth => ?_
    rw [lines, readingStatement]
    refine recited_jump .continue ?_ fun r r' hr => ?_
    · rintro l rfl
      exact hs.spelled
    · rw [following, hr]
      rfl
  | debugger =>
    refine recited_placed rfl fun depth => ?_
    rw [lines, readingStatement]
    refine recited_keyword .debugger (ofPiece_keyword .debugger) (.self []) fun r r' hr => ?_
    rw [following, show tokensAll value st.mode false [] ++ r = r from rfl, hr]
    rfl
  | directive => cases hs.spelled
  | @doWhile m b t _ ht ih =>
    obtain ⟨hb, hst⟩ : b.Readable st value ∧ t.Readable st value := by simpa using hs.children
    refine recited_placed rfl fun depth => ?_
    rw [readingStatement]
    simpa [lines, endsOpen, Keyword.text] using recited_doWhile (ih hb .body depth) ht hst
  | empty =>
    refine recited_placed rfl fun depth => ?_
    rw [lines, readingStatement]
    refine .closed (.plain (by simp)) (by simp) fun r _ => ?_
    simpa using statement_empty
  | @expression m e he =>
    refine recited_placed rfl fun depth => ?_
    rw [readingStatement]
    exact recited_expression he (hs.children e (.head _))
  | @forLoop m s t u b hsetup ht hu _ ih =>
    obtain ⟨hss, hst, hsu, hb⟩ : s.Readable st value ∧ t.Readable st value ∧
        u.Readable st value ∧ b.Readable st value := by
      simpa using hs.children
    refine recited_placed rfl fun depth => ?_
    rw [lines, readingStatement]
    refine recited_headed .for (.plain ?_) (ih hb .body depth) fun r r' hr => ?_
    · simp [plain_setupSpelling hsetup, plain_clauseSpelling ht, plain_clauseSpelling hu]
    · have hheader := header_forLoop (r := r) hsetup ht hu hss hst hsu
      simpa [Header.statement] using following_for hheader (by simp; omega) hr
  | @forIn m h v b hh hexpression _ ih =>
    obtain ⟨hsh, hsv, hb⟩ : h.Readable st value ∧ v.Readable st value ∧ b.Readable st value := by
      simpa using hs.children
    refine recited_placed rfl fun depth => ?_
    have hin : Token.ofPiece value (.word "in") = [.word "in"] :=
      ofPiece_identifier (by decide) rfl
    rw [lines, readingStatement]
    refine recited_headed .for (.plain ?_) (ih hb .body depth) fun r r' hr => ?_
    · simp [plain_headSpelling hh, plain_spelling hexpression]
    · have hheader := header_forIn (r := r) hh hexpression hs.spelled hsh hsv
      simpa [hin, Header.statement] using following_for hheader (by simp; omega) hr
  | @function m m' f cs vs _ hvs ih =>
    refine recited_placed rfl fun depth => ?_
    rw [readingStatement]
    exact recited_function (Bool.and_eq_true_iff.mp hs.spelled).1 hvs
      (fun v hv => hs.children v (.tail _ hv))
      fun c hc => ih c hc ((hs.children _ (.head _)).children c hc)
  | @ifElse m t a b ht _ _ iha ihb =>
    obtain ⟨hst, hsa, hsb⟩ : t.Readable st value ∧ a.Readable st value ∧ b.Readable st value := by
      simpa using hs.children
    have hif : ∀ depth, Recited value st.mode _ (ifLines st depth [t, a, b]) _ := fun _ =>
      recited_ifLines (m := m) ht hst (iha hsa) (ihb hsb)
    intro position depth
    rw [lines]
    cases position with
    | line => exact (hif depth).spacing rfl
    | body => exact ((hif (depth + 1)).spacing rfl).spacing rfl
    | orElse => exact (hif depth).blank rfl ofPiece_blank
  | @label m s b _ ih =>
    have hname : Expr.isName (st.name s) := hs.spelled
    refine recited_placed rfl fun depth => ?_
    have hword : Token.ofPiece value (.word (st.name s)) = [.word (st.name s)] :=
      ofPiece_name hname rfl
    have hkeyword : Keyword.of? (st.name s) = none := keyword_of_begins (by
      rw [begins, Expr.ofWord_of_isName hname]
      rfl)
    have hsaid : Says value st.mode
        (ofPieces [.indent (depth - 1), .word (st.name s), .text ":", .newline]) _ false :=
      .plain (by simp)
    have hlabel := Recited.headed hsaid (ih (hs.children b (.head _)) .line depth)
      fun r r' hr _ _ => by simpa [hword] using statement_label hkeyword (name_of_isName hname) hr
    rw [readingStatement]
    simpa [lines, endsOpen] using hlabel
  | @«return» m e he =>
    have hparsed := parses he (hs.children e mem_cons_self) .lowest false true (by simp)
    have hsaid : Says value st.mode (ofPieces (.space :: e.spelling st .lowest)) _ false :=
      .plain (by simp [plain_spelling he])
    refine recited_placed rfl fun depth => ?_
    cases hundefined : e.isUndefined with
    | true =>
      simpa [lines, readingStatement, hundefined, Keyword.text] using
        recited_keyword .return (ofPiece_keyword .return) (.self []) fun r r' hr => by
          rw [following, show tokensAll value st.mode false [] ++ r = r from rfl, returned_nil hr]
          rfl
    | false =>
      simpa [lines, readingStatement, hundefined, Keyword.text] using
        recited_keyword .return (ofPiece_keyword .return) hsaid fun r r' hr => by
          rw [Token.ofPieces_cons, Token.ofPiece_space, nil_append, following]
          exact congrArg (· >>= _) (hparsed.returned hr)
  | @throw m e he =>
    have hparsed := parses he (hs.children e mem_cons_self) .lowest false true (by simp)
    have hsaid : Says value st.mode (ofPieces (.space :: e.spelling st .lowest)) _ false :=
      .plain (by simp [plain_spelling he])
    refine recited_placed rfl fun depth => ?_
    simpa [lines, readingStatement, Keyword.text] using
      recited_keyword .throw (ofPiece_keyword .throw) hsaid fun r r' hr => by
        rw [Token.ofPieces_cons, Token.ofPiece_space, nil_append, following]
        exact congrArg (· >>= _) (hparsed.ended hr)
  | @«try» m m' mh mf cs o d _ _ _ ih ihh ihf =>
    obtain ⟨hb, hh, hf⟩ : (node m' .block cs).Readable st value ∧
        (handler mh o).Readable st value ∧ (finalizer mf d).Readable st value := by
      simpa using hs.children
    have hcaught : o = none → d ≠ none := by
      rintro rfl rfl
      cases hs.spelled
    refine recited_placed rfl fun depth => ?_
    rw [readingStatement]
    refine recited_try (fun c hc => ih c hc (hb.children c hc)) ?_ ?_ ?_ hcaught ?_
    · rintro p rfl
      exact hh.spelled
    · rintro p rfl c hc
      exact ihh p rfl c hc ((hh.children _ (.head _)).children c hc)
    · rintro ds rfl c hc
      exact ihf ds rfl c hc (hf.children c hc)
    · rw [readingHandler_handler, readingFinalizer_finalizer]
      rcases o with _ | p
      · obtain ⟨ds, rfl⟩ := Option.ne_none_iff_exists'.mp (hcaught rfl)
        rfl
      · rcases d with _ | ds <;> rfl
  | @varStatement m vs hvs =>
    have hne : vs ≠ [] := by
      rintro rfl
      cases hs.spelled
    refine recited_placed rfl fun depth => ?_
    rw [lines, readingStatement]
    refine recited_keyword .var (ofPiece_varBlank rfl)
      (.plain (by simp [plain_declarationsSpelling hvs])) fun r r' hr => ?_
    have hdeclarations := declarations_declarationsSpelling true false hne hvs hs.children (by simp)
      (follows_of_semicolon hr 1)
    rw [following, hdeclarations]
    show (semicolon r >>= fun r => some (Stmt.var _, r)) = _
    rw [hr]
    rfl
  | @whileLoop m t b ht _ ih =>
    obtain ⟨hst, hb⟩ : t.Readable st value ∧ b.Readable st value := by simpa using hs.children
    refine recited_placed rfl fun depth => ?_
    rw [lines, readingStatement]
    exact recited_headed .while (.plain (plain_testSpelling ht)) (ih hb .body depth) fun r r' hr =>
      following_while (parenthesized_testSpelling ht hst) (length_testSpelling t) hr

end Tree

end ScriptPress

import ScriptPress.Proofs.Grammar.Parse
import ScriptPress.Proofs.Grammar.Statement

/-! # What the statement grammar reads -/

namespace ScriptPress.Grammar

open Grammar

variable {e e' : Expr} {t : Token Float} {ts ts' r r' r'' : Tokens} {s : String} {p : Punct}
variable {body body' : Stmt} {ss : List Stmt} {allowIn : Bool}

theorem closed_eq (h : expression true ts = some (e, .punct p :: r)) :
    closed p ts = some (e, r) := by
  rw [closed, h]
  exact if_pos rfl

theorem Parsed.closed (h : Parsed true 0 e ts) (hp : grip true (.punct p) ≤ 1) :
    closed p (ts ++ .punct p :: r) = some (e, r) :=
  closed_eq (h.expression _ (follows_punct hp))

theorem Parsed.parenthesized (h : Parsed true 0 e ts) :
    parenthesized (.punct .leftParen :: (ts ++ .punct .rightParen :: r)) = some (e, r) :=
  h.closed (by decide)

theorem clause_nil : clause p (.punct p :: r) = some (none, r) := if_pos rfl

theorem Parsed.clause (h : Parsed true 0 e ts) (hp : grip true (.punct p) ≤ 1)
    (hbegins : Grammar.begins (.punct p) = false) :
    clause p (ts ++ .punct p :: r) = some (some e, r) := by
  have hclosed := h.closed (r := r) hp
  obtain ⟨t, ts', rfl, ht, -⟩ := h.begins
  have hhead : (t :: ts' ++ .punct p :: r).head? ≠ some (.punct p) := by
    intro heq
    exact ne_of_begins ht hbegins (Option.some.inj heq)
  rw [clause, if_neg hhead, hclosed]
  rfl

theorem ended_eq (h : expression true ts = some (e, r)) (hr : semicolon r = some r') :
    ended ts = some (e, r') := by
  rw [ended, h]
  show (semicolon r >>= fun r => some (e, r)) = _
  rw [hr]
  rfl

theorem follows_of_semicolon (h : semicolon r = some r') (n : Nat) : Follows true n r := by
  rw [semicolon.eq_def] at h
  split at h
  · exact follows_punct (Nat.zero_le n)
  · exact follows_punct (Nat.zero_le n)
  · cases h

theorem Parsed.ended (h : Parsed true 0 e ts) (hr : semicolon r = some r') :
    ended (ts ++ r) = some (e, r') :=
  ended_eq (h.expression r (follows_of_semicolon hr 1)) hr

theorem returned_nil (h : semicolon r = some r') : returned r = some (none, r') := by
  rw [returned, h]

theorem Parsed.returned (h : Parsed true 0 e ts) (hr : semicolon r = some r') :
    returned (ts ++ r) = some (some e, r') := by
  have hended := h.ended hr
  obtain ⟨t, ts', rfl, ht, -⟩ := h.begins
  have hnone : semicolon (t :: ts' ++ r) = none := by
    rw [semicolon.eq_def]
    split
    · rename_i heq
      exact absurd (List.cons.inj heq).1 (ne_of_begins ht rfl)
    · rename_i heq
      exact absurd (List.cons.inj heq).1 (ne_of_begins ht rfl)
    · rfl
  rw [returned, hnone]
  show (Grammar.ended (t :: ts' ++ r) >>= fun x => some (some x.1, x.2)) = _
  rw [hended]
  rfl

theorem jump_nil (h : semicolon r = some r') : jump r = some (none, r') := by
  have hword : ∀ s r', r ≠ .word s :: r' := by
    rintro s r' rfl
    cases h
  rw [jump, h]
  · rfl
  · exact hword

theorem jump_word (hs : name? s = some s) (h : semicolon r = some r') :
    jump (.word s :: r) = some (some s, r') := by
  rw [jump, hs, h]
  rfl

theorem declaration_nil (hs : name? s = some s) (hr : r.head? ≠ some (.punct .assign)) :
    declaration allowIn (.word s :: r) = some ((s, none), r) := by
  rw [declaration, hs]
  · rfl
  · rintro r' rfl
    exact hr rfl

theorem declaration_value (hs : name? s = some s) (h : assignment allowIn r = some (e, r')) :
    declaration allowIn (.word s :: .punct .assign :: r) = some ((s, some e), r') := by
  rw [declaration, h, hs]
  rfl

variable {d : Declaration} {ds : List Declaration}

theorem declarations_last (h : declaration allowIn ts = some (d, r)) (hr : r.length < ts.length)
    (hcomma : r.head? ≠ some (.punct .comma)) : declarations allowIn ts = some ([d], r) := by
  rw [declarations, h, used_some hr]
  simp only [Option.bind_eq_bind, Option.bind_some]
  split
  · exact absurd rfl hcomma
  · rfl

theorem declarations_cons (h : declaration allowIn ts = some (d, .punct .comma :: r))
    (hr : (Token.punct .comma :: r : Tokens).length < ts.length)
    (h' : declarations allowIn r = some (ds, r')) :
    declarations allowIn ts = some (d :: ds, r') := by
  rw [declarations, h, used_some hr]
  show (declarations allowIn r >>= fun x => some (d :: x.1, x.2)) = _
  rw [h']
  rfl

theorem parameters_last (hs : name? s = some s) :
    parameters (.word s :: .punct .rightParen :: r) = some ([s], r) := by
  rw [parameters, hs]
  rfl

theorem parameters_cons {ps : List String} (hs : name? s = some s)
    (h : parameters r = some (ps, r')) :
    parameters (.word s :: .punct .comma :: r) = some (s :: ps, r') := by
  rw [parameters, h, hs]
  rfl

variable {h : Head}

theorem each_eq (he : closed .rightParen ts = some (e, r)) : each h ts = some (.each h e, r) := by
  rw [each, he]
  rfl

theorem clauses_eq {setup : Setup} {test update : Option Expr}
    (htest : clause .semicolon ts = some (test, r))
    (hupdate : clause .rightParen r = some (update, r')) :
    clauses setup ts = some (.loop setup test update, r') := by
  rw [clauses, htest]
  show (clause .rightParen r >>= fun x => some (Header.loop setup test x.1, x.2)) = _
  rw [hupdate]
  rfl

theorem header_none : header (.punct .semicolon :: r) = clauses .none r := by
  rw [header]

theorem header_var (h : declarations false ts = some (ds, .punct .semicolon :: r)) :
    header (.word "var" :: ts) = clauses (.var ds) r := by
  rw [header, h]
  rfl

theorem header_varIn (h : declarations false ts = some ([(s, none)], .word "in" :: r)) :
    header (.word "var" :: ts) = each (.var s) r := by
  rw [header, h]
  rfl

theorem header_expression (hb : Begins 0 ts)
    (h : expression false ts = some (e, .punct .semicolon :: r)) :
    header ts = clauses (.expression e) r := by
  obtain ⟨t, ts, rfl, ht, -⟩ := hb
  rw [header, h]
  · rfl
  · rintro r' ⟨⟩
    cases ht
  · rintro r' ⟨⟩
    exact absurd ht (by decide)

theorem header_target (hb : Begins 0 ts) (h : expression false ts = some (e, .word "in" :: r))
    (he : e.isTarget) : header ts = each (.target e) r := by
  obtain ⟨t, ts, rfl, ht, -⟩ := hb
  rw [header, h]
  · exact if_pos he
  · rintro r' ⟨⟩
    cases ht
  · rintro r' ⟨⟩
    exact absurd ht (by decide)

theorem unary_none (h : primary ts = none) (ht : ∀ t ∈ ts.head?, t.unary? = none) :
    unary ts = none := by
  cases ts with
  | nil => rw [unary]
  | cons t ts =>
    rw [unary, ht t rfl]
    show update (t :: ts) = none
    rw [update, chain, h]
    rfl

theorem expression_none (h : unary ts = none) : expression allowIn ts = none := by
  rw [expression, list, assignment, binary, h]
  rfl

theorem expression_colon (h : expression true (.word s :: .punct .colon :: r) = some (e, r')) :
    r' = .punct .colon :: r := by
  cases hword : Expr.ofWord? s with
  | some e' =>
    have hparsed : Parsed true 0 e' [.word s] := Parsed.word hword
    rw [show (.word s :: .punct .colon :: r : Tokens) = [.word s] ++ .punct .colon :: r from rfl,
      hparsed.expression _ (follows_punct (by decide))] at h
    cases h
    rfl
  | none =>
    have hcolon : primary (.punct .colon :: r) = none := by rw [primary] <;> simp
    have hunary : unary (.word s :: .punct .colon :: r) = none := by
      cases hop : (Token.word s : Token Float).unary? with
      | some op =>
        rw [unary, hop]
        show (unary (.punct .colon :: r) >>= fun x => some (Expr.unary op x.1, x.2)) = none
        rw [unary_none hcolon (by rintro t ⟨⟩; rfl)]
        rfl
      | none =>
        refine unary_none ?_ (by rintro t ⟨⟩; exact hop)
        rw [primary, chain, hcolon, hword]
        split <;> rfl
    rw [expression_none hunary] at h
    cases h

theorem statement_block (h : block r = some (ss, r')) :
    statement (.punct .leftBrace :: r) = some (.block ss, r') := by
  rw [statement, h]
  rfl

theorem statement_empty : statement (.punct .semicolon :: r) = some (.empty, r) := by
  rw [statement]

theorem statement_keyword {k : Keyword} (hk : Keyword.of? s = some k) :
    statement (.word s :: r) = following k r := by
  rw [statement, hk]

theorem statement_label (hk : Keyword.of? s = none) (hs : name? s = some s)
    (h : statement r = some (body, r')) :
    statement (.word s :: .punct .colon :: r) = some (.label s body, r') := by
  rw [statement, hk]
  show labelled s (.punct .colon :: r) = _
  rw [labelled, hs, h]
  rfl

theorem keyword_of_begins (h : begins (.word s)) : Keyword.of? s = none := by
  cases hk : Keyword.of? s with
  | none => rfl
  | some k =>
    have htext : k.text = s := by simpa using List.find?_some hk
    subst htext
    cases k <;> exact absurd h (by decide)

theorem statement_expression (ht : begins t) (hbrace : t ≠ .punct .leftBrace)
    (hlabel : ∀ s, t = .word s → ts.head? ≠ some (.punct .colon))
    (h : ended (t :: ts) = some (e, r)) : statement (t :: ts) = some (.expression e, r) := by
  cases t with
  | word s =>
    rw [statement, keyword_of_begins ht]
    show labelled s ts = _
    rw [labelled, h]
    · rfl
    · rintro r' rfl
      exact hlabel s rfl rfl
  | punct p =>
    rw [statement, h]
    · rfl
    · rintro r' ⟨⟩
      exact hbrace rfl
    · rintro r' ⟨⟩
      cases ht
    · simp
  | _ =>
    rw [statement, h]
    · rfl
    all_goals simp

theorem following_do (h : statement ts = some (body, .word "while" :: r))
    (he : parenthesized r = some (e, r')) (hr : semicolon r' = some r'') :
    following .do ts = some (.doWhile body e, r'') := by
  rw [following, h]
  show (parenthesized r >>= fun x => semicolon x.2 >>= fun r => some (Stmt.doWhile body x.1, r)) = _
  rw [he]
  show (semicolon r' >>= fun r => some (Stmt.doWhile body e, r)) = _
  rw [hr]
  rfl

theorem following_for {x : Header} (h : header r = some (x, r')) (hr : r'.length < r.length)
    (h' : statement r' = some (body, r'')) :
    following .for (.punct .leftParen :: r) = some (x.statement body, r'') := by
  rw [following, h, used_some hr]
  show (statement r' >>= fun y => some (x.statement y.1, y.2)) = _
  rw [h']
  rfl

theorem following_function {ps : List String} (hs : name? s = some s)
    (h : parameters r = some (ps, r')) (hr : r'.length < r.length)
    (h' : braced r' = some (ss, r'')) :
    following .function (.word s :: .punct .leftParen :: r) = some (.function s ps ss, r'') := by
  rw [following, hs, h]
  show (used r (some (ps, r')) >>= _) = _
  rw [used_some hr]
  show (braced r' >>= fun x => some (Stmt.function s ps x.1, x.2)) = _
  rw [h']
  rfl

theorem following_if (he : parenthesized ts = some (e, r)) (hr : r.length < ts.length)
    (h : statement r = some (body, r')) (hr' : r'.length < r.length)
    (helse : r'.head? ≠ some (.word "else")) : following .if ts = some (.ifThen e body, r') := by
  rw [following, he, used_some hr]
  show (used r (statement r) >>= _) = _
  rw [h, used_some hr']
  simp only [Option.bind_eq_bind, Option.bind_some]
  split
  · exact absurd rfl helse
  · rfl

theorem following_ifElse (he : parenthesized ts = some (e, r)) (hr : r.length < ts.length)
    (h : statement r = some (body, .word "else" :: r'))
    (hr' : (Token.word "else" :: r' : Tokens).length < r.length)
    (h' : statement r' = some (body', r'')) :
    following .if ts = some (.ifElse e body body', r'') := by
  rw [following, he, used_some hr]
  show (used r (statement r) >>= _) = _
  rw [h, used_some hr']
  show (statement r' >>= fun x => some (Stmt.ifElse e body x.1, x.2)) = _
  rw [h']
  rfl

theorem following_while (he : parenthesized ts = some (e, r)) (hr : r.length < ts.length)
    (h : statement r = some (body, r')) : following .while ts = some (.whileLoop e body, r') := by
  rw [following, he, used_some hr]
  show (statement r >>= fun x => some (Stmt.whileLoop e x.1, x.2)) = _
  rw [h]
  rfl

theorem following_try {handled : Option (String × List Stmt)} {finalized : Option (List Stmt)}
    (h : braced ts = some (ss, r)) (hr : r.length < ts.length)
    (hhandler : handler r = some (handled, r')) (hr' : r'.length < ts.length)
    (hfinalizer : finalizer r' = some (finalized, r''))
    (htry : Stmt.tried? ss handled finalized = some body) :
    following .try ts = some (body, r'') := by
  rw [following, h, used_some hr]
  show (used ts (handler r) >>= _) = _
  rw [hhandler, used_some hr']
  show (finalizer r' >>= fun x => Stmt.tried? ss handled x.1 >>= fun s => some (s, x.2)) = _
  rw [hfinalizer]
  show (Stmt.tried? ss handled finalized >>= fun s => some (s, r'')) = _
  rw [htry]
  rfl

theorem handler_nil (h : r.head? ≠ some (.word "catch")) : handler r = some (none, r) := by
  rw [handler]
  rintro s r' rfl
  exact h rfl

theorem handler_catch (hs : name? s = some s) (h : braced r = some (ss, r')) :
    handler (.word "catch" :: .punct .leftParen :: .word s :: .punct .rightParen :: r) =
      some (some (s, ss), r') := by
  rw [handler, hs, h]
  rfl

theorem finalizer_nil (h : r.head? ≠ some (.word "finally")) : finalizer r = some (none, r) := by
  rw [finalizer]
  rintro r' rfl
  exact h rfl

theorem finalizer_finally (h : braced r = some (ss, r')) :
    finalizer (.word "finally" :: r) = some (some ss, r') := by
  rw [finalizer, h]
  rfl

theorem statements_cons (h : statement ts = some (body, r)) (hr : r.length < ts.length)
    (h' : statements r = some (ss, r')) : statements ts = some (body :: ss, r') := by
  have hnil : statement [] = none := by
    have hprimary : primary [] = none := by rw [primary] <;> simp
    have hhead : ∀ t ∈ ([] : Tokens).head?, t.unary? = none := by
      rintro t ⟨⟩
    rw [statement, ended, expression_none (unary_none hprimary hhead)]
    · rfl
    all_goals simp
  have hbrace : ∀ r, statement (.punct .rightBrace :: r) = none := by
    intro r
    have hprimary : primary (.punct .rightBrace :: r) = none := by rw [primary] <;> simp
    have hhead : ∀ t ∈ (.punct .rightBrace :: r : Tokens).head?, t.unary? = none := by
      rintro t ⟨⟩
      rfl
    rw [statement, ended, expression_none (unary_none hprimary hhead)]
    · rfl
    all_goals simp
  rw [statements, h, used_some hr]
  · show (statements r >>= fun x => some (body :: x.1, x.2)) = _
    rw [h']
    rfl
  · rintro rfl
    rw [hnil] at h
    cases h
  · rintro r' rfl
    rw [hbrace] at h
    cases h

theorem head_ne_of_statements {x : List Stmt × Tokens} (hs : s = "else" ∨ s = "finally")
    (h : statements ts = some x) : ts.head? ≠ some (.word s) := by
  intro hhead
  obtain ⟨r, rfl⟩ := List.head?_eq_some_iff.mp hhead
  have hexpression : ended (.word s :: r) = none := by
    have hprimary : primary (.word s :: r) = none := by
      rw [primary]
      rcases hs with rfl | rfl <;> rfl
    have hword : ∀ t ∈ (.word s :: r : Tokens).head?, t.unary? = none := by
      rintro t ⟨⟩
      rcases hs with rfl | rfl <;> rfl
    rw [ended, expression_none (unary_none hprimary hword)]
    rfl
  have hlabelled : labelled s r = none := by
    rw [labelled.eq_def]
    split
    · rcases hs with rfl | rfl <;> rfl
    · rw [hexpression]
      rfl
  have hstatement : statement (.word s :: r) = none := by
    have hkeyword : Keyword.of? s = none := by rcases hs with rfl | rfl <;> rfl
    rw [statement, hkeyword]
    exact hlabelled
  rw [statements, hstatement] at h
  · cases h
  · simp
  · simp

theorem block_eq (h : statements ts = some (ss, .punct .rightBrace :: r)) :
    block ts = some (ss, r) := by
  rw [block, h]
  rfl

end ScriptPress.Grammar

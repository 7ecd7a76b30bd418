import ScriptPress.Proofs.Grammar.Parse
import ScriptPress.Proofs.Print.Expression
import ScriptPress.Proofs.Print.Reading

/-! # Printed expressions are read back -/

namespace ScriptPress

open List Token Piece Style Level

open Grammar

variable {value : List Char → Float} {l : Level} {e : Expr} {ps qs : List Piece} {op : UnaryOp}
variable {allowIn inSetup : Bool} {r : Tokens}

/-! ## The tokens of operators and brackets -/

theorem Level.rank_ofBinary (op : BinaryOp) : (ofBinary op).rank = op.precedence + 3 := by
  cases op <;> rfl

section Pieces

variable {ν : Type} {value : List Char → ν}

@[simp] theorem ofPiece_leftParen : ofPiece value (.text "(") = [.punct .leftParen] :=
  ofPiece_punct rfl

@[simp] theorem ofPiece_rightParen : ofPiece value (.text ")") = [.punct .rightParen] :=
  ofPiece_punct rfl

@[simp] theorem ofPiece_leftBracket : ofPiece value (.text "[") = [.punct .leftBracket] :=
  ofPiece_punct rfl

@[simp] theorem ofPiece_rightBracket : ofPiece value (.text "]") = [.punct .rightBracket] :=
  ofPiece_punct rfl

@[simp] theorem ofPiece_leftBrace : ofPiece value (.text "\x7b") = [.punct .leftBrace] :=
  ofPiece_punct rfl

@[simp] theorem ofPiece_rightBrace : ofPiece value (.text "\x7d") = [.punct .rightBrace] :=
  ofPiece_punct rfl

@[simp] theorem ofPiece_comma : ofPiece value (.text ",") = [.punct .comma] :=
  ofPiece_punct rfl

@[simp] theorem ofPiece_dot : ofPiece value (.text ".") = [.punct .dot] :=
  ofPiece_punct rfl

@[simp] theorem ofPiece_colon : ofPiece value (.text ":") = [.punct .colon] :=
  ofPiece_punct rfl

@[simp] theorem ofPiece_semicolon : ofPiece value (.text ";") = [.punct .semicolon] :=
  ofPiece_punct rfl

@[simp] theorem ofPiece_assign : ofPiece value (.text "=") = [.punct .assign] :=
  ofPiece_punct rfl

@[simp] theorem ofPiece_blank : ofPiece value (.text " ") = [] :=
  ofPiece_of_lexes (lexes_blanks (by decide))

@[simp] theorem ofPiece_question : ofPiece value (.text "?") = [.punct .question] :=
  ofPiece_punct rfl

@[simp] theorem ofPiece_binaryOperator (op : BinaryOp) :
    ofPiece value (binaryOperator op) = [op.token] := by
  cases op <;> first
    | exact ofPiece_punct rfl
    | exact (atom_word (by decide)).ofPiece rfl

@[simp] theorem ofPiece_assignOperator (op : AssignOp) :
    ofPiece value (.between op.text none) = [.punct op.punct] := by
  cases op <;> exact ofPiece_punct rfl

@[simp] theorem ofPieces_unaryOperator (op : UnaryOp) :
    ofPieces value (unaryOperator op) = [op.token] := by
  rw [unaryOperator]
  split <;> rename_i hkeyword
  · have hword : ofPiece value (.word op.text) = [op.token] := by
      cases op <;> first
        | exact (atom_word (by decide)).ofPiece rfl
        | cases hkeyword
    simp [hword]
  · have hsign : ofPiece value (.sign op op.text) = [op.token] := by
      cases op <;> first
        | exact ofPiece_punct rfl
        | exact absurd rfl hkeyword
    simp [hsign]

theorem ofPiece_trailing (h : op.isTrailing) : ofPiece value (.text op.text) = [op.token] := by
  cases op <;> first
    | exact ofPiece_punct rfl
    | cases h

end Pieces

theorem BinaryOp.binary_token {op : BinaryOp} (h : allowIn = false → op ≠ .in) :
    (op.token : Token Float).binary? allowIn = some op := by
  cases op <;> first
    | rfl
    | cases allowIn with
      | true => rfl
      | false => exact absurd rfl (h rfl)

theorem AssignOp.assign_token (op : AssignOp) :
    (Token.punct op.punct : Token Float).assign? = some op := by
  cases op <;> rfl

theorem UnaryOp.unary_token (h : op.isTrailing = false) :
    (op.token : Token Float).unary? = some op := by
  cases op <;> first | rfl | cases h

theorem UnaryOp.trailing_token (h : op.isTrailing) :
    (op.token : Token Float).trailing? = some op := by
  cases op <;> first | rfl | cases h

theorem UnaryOp.begins_token (op : UnaryOp) : begins op.token := by
  cases op <;> decide

namespace Tree

variable {α : Type} {st : Style} {t : Tree α} {cs : List (Tree α)} {p : Place} {m : α}

attribute [local simp] separatorUnless Place.operand spelling

def Parses (st : Style) (value : List Char → Float) (t : Tree α) : Prop :=
  ∀ l inSetup allowIn, (allowIn = false → inSetup = true) →
    Parsed allowIn l.rank (t.reading st) (ofPieces value (t.spelling st ⟨l, inSetup⟩))

/-! ## Lists -/

theorem ofPieces_listSpelling_cons (c : Tree α) (cs : List (Tree α)) :
    ofPieces value (listSpelling st p false (c :: cs)) =
      .punct .comma :: ofPieces value (listSpelling st p true (c :: cs)) := by
  simp [listSpelling, separator]

theorem begins_listSpelling (hcs : cs ≠ [])
    (h : ∀ c ∈ cs, Parsed allowIn 1 (c.reading st) (ofPieces value (c.spelling st p))) :
    Begins 1 (ofPieces value (listSpelling st p true cs)) := by
  obtain ⟨c, cs, rfl⟩ := exists_cons_of_ne_nil hcs
  have hc := (h c (.head _)).begins
  simpa [listSpelling] using hc.append _

theorem list_listSpelling (hcs : cs ≠ [])
    (h : ∀ c ∈ cs, Parsed allowIn 1 (c.reading st) (ofPieces value (c.spelling st p)))
    (hr : Follows allowIn 1 r) :
    list allowIn (ofPieces value (listSpelling st p true cs) ++ r) =
      some (readingAll st cs, r) := by
  induction cs with
  | nil => exact absurd rfl hcs
  | cons c cs ih =>
    have hc := h c (.head _)
    have htokens : ofPieces value (listSpelling st p true (c :: cs)) =
        ofPieces value (c.spelling st p) ++
          ofPieces value (listSpelling st p false cs) := by
      simp [listSpelling]
    rw [htokens, append_assoc, readingAll]
    cases cs with
    | nil =>
      rw [listSpelling, readingAll]
      exact hc.list_last hr
    | cons d ds =>
      rw [ofPieces_listSpelling_cons]
      exact hc.list_cons (ih (cons_ne_nil d ds) fun x hx => h x (.tail _ hx))

theorem arguments_listSpelling
    (h : ∀ c ∈ cs, Parsed true 1 (c.reading st) (ofPieces value (c.spelling st p))) :
    arguments (ofPieces value (listSpelling st p true cs) ++ .punct .rightParen :: r) =
      some (readingAll st cs, r) := by
  by_cases hcs : cs = []
  · subst hcs
    rw [listSpelling, readingAll]
    exact arguments_nil
  · have hlist := list_listSpelling (r := .punct .rightParen :: r) hcs h (follows_punct (by decide))
    obtain ⟨t, ts, hts, ht, -⟩ := begins_listSpelling hcs h
    rw [hts] at hlist ⊢
    exact arguments_cons (ne_of_begins ht rfl) hlist

theorem ofPieces_elementSpelling_cons (c : Tree α) (cs : List (Tree α)) :
    ofPieces value (elementSpelling st p false (c :: cs)) =
      .punct .comma :: ofPieces value (elementSpelling st p true (c :: cs)) := by
  rw [elementSpelling, elementSpelling]
  split <;> simp [separator]

theorem elements_elementSpelling
    (h : ∀ c ∈ cs, Parsed true 1 (c.reading st)
      (ofPieces value (c.spelling st (p.operand .comma)))) :
    elements (ofPieces value (elementSpelling st p true cs) ++ .punct .rightBracket :: r) =
      some (readingElements st cs, r) := by
  induction cs with
  | nil =>
    rw [elementSpelling, readingElements]
    exact elements_nil
  | cons c cs ih =>
    have hcs := ih fun d hd => h d (.tail _ hd)
    rw [readingElements]
    by_cases hc : c.isUndefined
    · have htokens : ofPieces value (elementSpelling st p true (c :: cs)) =
          .punct .comma :: ofPieces value (elementSpelling st p true cs) := by
        rw [elementSpelling, if_pos hc]
        cases cs with
        | nil => simp [elementSpelling]
        | cons d ds => simp [ofPieces_elementSpelling_cons]
      rw [htokens, if_pos hc]
      exact elements_undefined hcs
    · have hc' := h c (.head _)
      have htokens : ofPieces value (elementSpelling st p true (c :: cs)) =
          ofPieces value (c.spelling st (p.operand .comma)) ++
            ofPieces value (elementSpelling st p false cs) := by
        rw [elementSpelling, if_neg hc]
        simp
      rw [htokens, if_neg hc, append_assoc]
      cases cs with
      | nil =>
        rw [elementSpelling, readingElements]
        exact hc'.elements_last
      | cons d ds =>
        rw [ofPieces_elementSpelling_cons]
        exact hc'.elements_cons hcs

theorem exists_key (value : List Char → Float) (name : String) :
    ∃ k : Token Float, ofPiece value (key name) = [k] ∧ k.key? = some (Text.units name) := by
  rw [key]
  by_cases hname : Text.isIdentifier name
  · rw [if_pos hname]
    exact ⟨.word name, (atom_word hname).ofPiece rfl, rfl⟩
  · rw [if_neg hname]
    exact ⟨.string (Text.units name), ofPiece_quoted name, rfl⟩

theorem properties_propertySpelling {qs : List (α × SymbolId × Tree α)}
    (h : ∀ q ∈ qs, Parsed true 1 (q.2.2.reading st)
      (ofPieces value (q.2.2.spelling st (p.operand .comma)))) :
    properties (ofPieces value (propertySpelling st p true
        (qs.map fun q => node q.1 (.property q.2.1) [q.2.2])) ++ .punct .rightBrace :: r) =
      some (readingProperties st (qs.map fun q => node q.1 (.property q.2.1) [q.2.2]), r) := by
  induction qs with
  | nil =>
    rw [map_nil, propertySpelling, readingProperties]
    exact properties_nil
  | cons q qs ih =>
    have hq := h q (.head _)
    have hqs := ih fun d hd => h d (.tail _ hd)
    obtain ⟨k, hk, hkey⟩ := exists_key value (st.name q.2.1)
    have htokens : ofPieces value (propertySpelling st p true
        ((q :: qs).map fun q => node q.1 (.property q.2.1) [q.2.2])) =
        k :: .punct .colon :: (ofPieces value (q.2.2.spelling st (p.operand .comma)) ++
          ofPieces value (propertySpelling st p false
            (qs.map fun q => node q.1 (.property q.2.1) [q.2.2]))) := by
      rw [map_cons, propertySpelling]
      simp [hk]
    rw [htokens, map_cons, readingProperties, readingProperty, cons_append,
      cons_append, append_assoc]
    cases qs with
    | nil =>
      rw [map_nil, propertySpelling, readingProperties]
      exact hq.properties_last hkey
    | cons q' qs' =>
      have hcomma : ofPieces value (propertySpelling st p false
          ((q' :: qs').map fun q => node q.1 (.property q.2.1) [q.2.2])) =
          .punct .comma :: ofPieces value (propertySpelling st p true
            ((q' :: qs').map fun q => node q.1 (.property q.2.1) [q.2.2])) := by
        rw [map_cons, propertySpelling, propertySpelling]
        simp [separator]
      rw [hcomma]
      exact hq.properties_cons hkey hqs

/-! ## Expressions -/

theorem parsed_wrapped {wrap : Bool} {n : Nat} (hbare : Parsed true 0 e (ofPieces value ps))
    (h : wrap = false → Parsed allowIn n e (ofPieces value ps)) :
    Parsed allowIn n e (ofPieces value (wrapped wrap ps)) := by
  cases wrap with
  | true => simpa [wrapped] using hbare.wrapped
  | false => exact h rfl

theorem parsed_placed {own : Level}
    (h : ∀ allowIn n, n < own.rank → (allowIn = false → inSetup = true) →
      Parsed allowIn n e (ofPieces value ps))
    (hown : 0 < own.rank) (hin : allowIn = false → inSetup = true) :
    Parsed allowIn l.rank e (ofPieces value (wrapped (l.wraps own) ps)) :=
  parsed_wrapped (h true 0 hown nofun) fun hl => h allowIn l.rank (wraps_eq_false.mp hl) hin

theorem spelling_target (h : t.IsExpression) (ht : t.kind.isTarget) (l l' : Level) :
    t.spelling st ⟨l, inSetup⟩ = t.spelling st ⟨l', inSetup⟩ := by
  cases h with
  | identifier | index | member =>
    rw [spelling, spelling]
    try rfl
  | _ => cases ht

theorem parses_number {x : Float} (h : (node m (.number x) []).Readable st value) :
    (node m (.number x) []).Parses st value := by
  intro l inSetup allowIn hin
  have hx : x.isFinite := h.spelled
  have hvalue : value (st.numberText (Number.unsigned x)).toList = Number.unsigned x :=
    h.numerals _ (.head _)
  rw [Number.unsigned] at hvalue
  rw [reading, spelling, ofPieces_number]
  by_cases hminus : Number.hasMinus x
  · have hleading : ∀ allowIn n, n < 14 →
        Parsed allowIn n (.unary .negative (.number x.abs)) [.punct .minus, .number x.abs] :=
      fun _ _ hn => Parsed.leading rfl rfl hn (Parsed.number _)
    rw [if_pos hminus] at hvalue
    rw [if_pos hminus, if_pos hminus, numberToken, Number.isFinite_abs, hx, if_pos rfl, hvalue]
    split
    · exact (hleading true 0 (by decide)).wrapped
    · rename_i hl
      exact hleading _ _ (wraps_eq_false.mp (Bool.not_eq_true _ ▸ hl))
  · rw [if_neg hminus] at hvalue
    rw [if_neg hminus, if_neg hminus, numberToken, hx, if_pos rfl, hvalue]
    exact Parsed.number x

theorem parses_boolean {b : Bool} (h : (node m (.boolean b) []).Readable st value) :
    (node m (.boolean b) []).Parses st value := by
  intro l inSetup allowIn hin
  rw [reading, spelling, boolean]
  cases hmode : st.mode with
  | normal =>
    have hword : ofPieces value [.word (if b then "true" else "false")] =
        [.word (if b then "true" else "false")] := by
      rw [ofPieces_cons, (atom_word (by cases b <;> decide)).ofPiece rfl]
      rfl
    show Parsed allowIn l.rank (.boolean b) (ofPieces value [.word _])
    rw [hword]
    cases b <;> exact Parsed.word rfl
  | minified =>
    have htruth : ofPiece value (.text (if b then "!0" else "!1")) =
        [.punct .bang, .number (if b then 0 else 1)] := by
      cases b with
      | true =>
        have hzero : value ['0'] = 0 := h.numerals (['0'], 0) (by simp [Kind.numerals, hmode])
        have hatom : Atom value "0" (.number 0) := hzero ▸ atom_zero
        exact ofPiece_truth hatom rfl
      | false =>
        have hone : value ['1'] = 1 := h.numerals (['1'], 1) (by simp [Kind.numerals, hmode])
        have hatom : Atom value "1" (.number 1) := hone ▸ atom_one
        exact ofPiece_truth hatom rfl
    refine parsed_placed (fun allowIn n hn _ => ?_) (by decide) hin
    rw [ofPieces_cons, htruth]
    exact Parsed.leading rfl rfl hn (Parsed.number _)

theorem parses_undefined (h : (node m .undefined []).Readable st value) :
    (node m .undefined []).Parses st value := by
  intro l inSetup allowIn hin
  have hzero : value ['0'] = 0 := h.numerals _ (.head _)
  have hleading : ∀ allowIn n, n < 14 →
      Parsed allowIn n (.unary .void (.number 0)) [.word "void", .number 0] :=
    fun _ _ hn => Parsed.leading rfl rfl hn (Parsed.number _)
  have hatom : Atom value "0" (.number 0) := hzero ▸ atom_zero
  rw [reading, spelling, undefined]
  split
  · rw [ofPieces_cons, ofPiece_voidParenthesized hatom]
    exact (hleading true 0 (by decide)).wrapped
  · rename_i hl
    rw [ofPieces_cons, ofPiece_void hatom]
    exact hleading _ _ (wraps_eq_false.mp (Bool.not_eq_true _ ▸ hl))

theorem parses_word {k : Kind} {s : String} (hs : Text.isIdentifier s)
    (hreading : (node m k []).reading st = e) (he : Expr.ofWord? s = some e)
    (hspelling : ∀ p, (node m k []).spelling st p = [.word s]) : (node m k []).Parses st value := by
  intro l inSetup allowIn hin
  rw [hreading, hspelling, ofPieces_cons, (atom_word hs).ofPiece rfl]
  exact Parsed.word he

theorem parses (h : t.IsExpression) (hs : t.Readable st value) : t.Parses st value := by
  induction h with
  | @array m cs hcs ih =>
    intro l inSetup allowIn hin
    have hcs := fun c hc => ih c hc (hs.children c hc)
    have hparsed : Parsed allowIn l.rank _ _ := .array fun r => elements_elementSpelling
      (p := ⟨l, inSetup⟩) fun c hc => hcs c hc .comma inSetup true (by simp)
    simpa [reading] using hparsed
  | boolean => exact parses_boolean hs
  | @call m c cs hc hcs ih ihs =>
    intro l inSetup allowIn hin
    obtain ⟨hsc, hss⟩ := forall_mem_cons.mp hs.children
    have hparsed : Parsed allowIn l.rank _ _ := (ih hsc .update inSetup allowIn hin).call fun r =>
      arguments_listSpelling fun d hd => ihs d hd (hss d hd) .comma inSetup true (by simp)
    simpa [reading] using hparsed
  | @conditional m a b c ha hb hc iha ihb ihc =>
    intro l inSetup allowIn hin
    obtain ⟨hsa, hsb, hsc⟩ : a.Readable st value ∧ b.Readable st value ∧ c.Readable st value := by
      simpa using hs.children
    rw [reading, spelling]
    refine parsed_placed (fun allowIn n hn hin => ?_) (by decide) hin
    simpa [operation] using (iha hsa .conditional inSetup allowIn hin).conditional hn
        (ihb hsb conditional.looser inSetup true (by simp))
        (ihc hsc conditional.looser inSetup allowIn hin)
  | @identifier m s =>
    have hname : Expr.isName (st.name s) := hs.spelled
    exact parses_word (Expr.isIdentifier_of_isName hname) (by rw [reading])
      (Expr.ofWord_of_isName hname) fun p => by rw [spelling]
  | @index m a b ha hb iha ihb =>
    intro l inSetup allowIn hin
    obtain ⟨hsa, hsb⟩ : a.Readable st value ∧ b.Readable st value := by simpa using hs.children
    have hparsed : Parsed allowIn l.rank _ _ :=
      (iha hsa .member inSetup allowIn hin).index (ihb hsb .lowest inSetup true (by simp))
    simpa [reading] using hparsed
  | @member m s a ha ih =>
    intro l inSetup allowIn hin
    have hword : ofPiece value (.text (st.name s)) = [.word (st.name s)] :=
      (atom_word hs.spelled).ofPiece rfl
    have hparsed : Parsed allowIn l.rank (.member _ (st.name s)) _ :=
      (ih (hs.children a (.head _)) .member inSetup allowIn hin).member
    simpa [reading, hword] using hparsed
  | @new m c cs hc hcs ih ihs =>
    intro l inSetup allowIn hin
    obtain ⟨hsc, hss⟩ := forall_mem_cons.mp hs.children
    have hnew : ofPiece value (.word "new") = [.word "new"] :=
      (atom_word (by decide)).ofPiece rfl
    have harguments : ∀ r, arguments
        (ofPieces value (listSpelling st ⟨.comma, inSetup⟩ true cs) ++
          .punct .rightParen :: r) = some (readingAll st cs, r) := fun r =>
      arguments_listSpelling fun d hd => ihs d hd (hss d hd) .comma inSetup true (by simp)
    rw [reading]
    by_cases hcall : c.hasCall
    · -- The parentheses hide the calls in the callee.
      have hcallee := ih hsc .lowest inSetup true (by simp)
      have hbegins : Begins 17 (.punct .leftParen ::
          ofPieces value (c.spelling st ⟨.lowest, inSetup⟩) ++ [.punct .rightParen]) :=
        begins_cons rfl rfl
      have hparsed : Parsed allowIn l.rank _ _ := .new hbegins
        (fun r => chain_of_primary (hcallee.primary_wrapped r) (hbegins.length_lt r)) harguments
      simpa [hcall, wrapped, hnew] using hparsed
    · have hcallee := ih hsc .member inSetup true (by simp)
      have hcall' : (c.reading st).hasCall = false := by
        rw [hasCall_reading hc]
        exact Bool.not_eq_true _ ▸ hcall
      have hparsed : Parsed allowIn l.rank _ _ :=
        .new hcallee.begins (hcallee.callee (by decide) hcall') harguments
      simpa [hcall, hnew] using hparsed
  | null =>
    exact parses_word (s := "null") (by decide) (by rw [reading]) rfl fun p => by rw [spelling]
  | number => exact parses_number hs
  | @object m qs hqs ih =>
    intro l inSetup allowIn hin
    have hvalue : ∀ q ∈ qs, q.2.2.Readable st value := fun q hq =>
      (hs.children _ (mem_map_of_mem hq)).children _ (.head _)
    have hparsed : Parsed allowIn l.rank _ _ := .object fun r => properties_propertySpelling
      (p := ⟨l, inSetup⟩) fun q hq => ih q hq (hvalue q hq) .comma inSetup true (by simp)
    simpa [reading] using hparsed
  | regExp => cases hs.spelled
  | @sequence m cs hcs ih =>
    intro l inSetup allowIn hin
    have htwo : 2 ≤ cs.length := of_decide_eq_true hs.spelled
    have hne : cs ≠ [] := by
      rintro rfl
      cases htwo
    rw [reading, spelling]
    refine parsed_placed (fun allowIn n hn hin => ?_) (by decide) hin
    obtain rfl : n = 0 := Nat.lt_one_iff.mp hn
    have hcs := fun c hc => ih c hc (hs.children c hc) .comma inSetup allowIn hin
    exact Parsed.sequence ((begins_listSpelling hne hcs).mono (by decide))
      (by rwa [length_readingAll]) fun r hr => list_listSpelling hne hcs hr
  | @string m s =>
    intro l inSetup allowIn hin
    rw [reading, spelling, ofPieces_cons, ofPiece_quoted]
    exact Parsed.string _
  | this =>
    exact parses_word (s := "this") (by decide) (by rw [reading]) rfl fun p => by rw [spelling]
  | undefined => exact parses_undefined hs
  | @unary m op a ha ih =>
    intro l inSetup allowIn hin
    have htarget := hs.spelled
    have hparses := ih (hs.children a (.head _))
    rw [reading, spelling]
    by_cases hop : op.isTrailing
    · have hkind : a.kind.isTarget := by
        cases op <;> first | exact htarget | cases hop
      rw [if_pos hop]
      refine parsed_placed (fun allowIn n hn hin => ?_) (by decide) hin
      show Parsed allowIn n _ (ofPieces value
        (a.spelling st ⟨update.looser, inSetup⟩ ++ [.text op.text]))
      rw [ofPieces_append, ofPieces_cons, ofPiece_trailing hop,
        spelling_target ha hkind update.looser .member]
      exact (hparses .member inSetup allowIn hin).trailing (UnaryOp.trailing_token hop) hn
    · rw [if_neg hop]
      refine parsed_placed (fun allowIn n hn hin => ?_) (by decide) hin
      rw [ofPieces_append, ofPieces_unaryOperator]
      exact (hparses unary.looser inSetup allowIn hin).leading
        (UnaryOp.unary_token (Bool.not_eq_true _ ▸ hop)) op.begins_token hn
  | @binary m op a b ha hb iha ihb =>
    intro l inSetup allowIn hin
    obtain ⟨hsa, hsb⟩ : a.Readable st value ∧ b.Readable st value := by simpa using hs.children
    have hoperation : ∀ allowIn n, n < (ofBinary op).rank →
        (allowIn = false → inSetup = true) → (allowIn = false → op ≠ .in) →
        Parsed allowIn n (.binary op (a.reading st) (b.reading st))
          (ofPieces value (a.spelling st ⟨(ofBinary op).looser, inSetup⟩) ++
            op.token :: ofPieces value (b.spelling st ⟨ofBinary op, inSetup⟩)) := by
      intro allowIn n hn hin hop
      have hleft := iha hsa (ofBinary op).looser inSetup allowIn hin
      have hright := ihb hsb (ofBinary op) inSetup allowIn hin
      rw [rank_looser, rank_ofBinary] at hleft
      rw [rank_ofBinary] at hn hright
      exact hleft.operation (BinaryOp.binary_token hop) hn hright
    have htokens : ∀ ps qs, ofPieces value (operation ps (binaryOperator op) qs) =
        ofPieces value ps ++ op.token :: ofPieces value qs := by
      intro ps qs
      simp [operation]
    have hown : 0 < (ofBinary op).rank := by cases op <;> decide
    rw [reading, spelling]
    refine parsed_wrapped ?_ fun hwrap => ?_
    · rw [htokens]
      exact hoperation true 0 hown (by simp) (by simp)
    · obtain ⟨hl, hsetup⟩ := Bool.or_eq_false_iff.mp hwrap
      rw [htokens]
      refine hoperation allowIn l.rank (wraps_eq_false.mp hl) hin ?_
      rintro hallow rfl
      rw [hin hallow] at hsetup
      cases hsetup
  | @assign m op a b ha hb iha ihb =>
    intro l inSetup allowIn hin
    have htarget := hs.spelled
    obtain ⟨hsa, hsb⟩ : a.Readable st value ∧ b.Readable st value := by simpa using hs.children
    rw [reading, spelling]
    refine parsed_placed (fun allowIn n hn hin => ?_) (by decide) hin
    simpa [operation, spelling_target ha htarget .assign .member] using
      (iha hsa .member inSetup allowIn hin).assign op.assign_token (isTarget_reading ha htarget) hn
        (ihb hsb assign.looser inSetup allowIn hin)

end Tree

end ScriptPress

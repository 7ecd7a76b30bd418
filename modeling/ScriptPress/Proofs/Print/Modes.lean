import ScriptPress.Compile
import ScriptPress.Proofs.Print.Text
import ScriptPress.Proofs.Store.Reading

/-! # Both modes write the same tokens -/

namespace ScriptPress

open List Fragment Token Numeral Style

open Fragment (ofPieces keyword braced block waitsAll renderAll tokensAll)

/-! ## Condensed tokens -/

/-- The second list has the tokens of the first, except that truth values may be respelled, with or
without parentheses, and that a semicolon directly before a closing brace may be dropped. -/
inductive Condensed : List (Token ℚ) → List (Token ℚ) → Prop
  | nil : Condensed [] []
  | same {ts us : List (Token ℚ)} (t : Token ℚ) (h : Condensed ts us) :
    Condensed (t :: ts) (t :: us)
  | truth {ts us : List (Token ℚ)} (b : Bool) (h : Condensed ts us) :
    Condensed (.word (if b then "true" else "false") :: ts)
      (.punct .bang :: .number (if b then 0 else 1) :: us)
  | truthInParens {ts us : List (Token ℚ)} (b : Bool) (h : Condensed ts us) :
    Condensed (.word (if b then "true" else "false") :: ts)
      (.punct .leftParen :: .punct .bang :: .number (if b then 0 else 1) ::
        .punct .rightParen :: us)
  | dropped {ts us : List (Token ℚ)} (h : Condensed (.punct .rightBrace :: ts) us) :
    Condensed (.punct .semicolon :: .punct .rightBrace :: ts) us

namespace Condensed

theorem refl (ts : List (Token ℚ)) : Condensed ts ts := by
  induction ts with
  | nil => exact .nil
  | cons t ts ih => exact .same t ih

theorem append {ts ts' us us' : List (Token ℚ)} (h : Condensed ts us) (h' : Condensed ts' us') :
    Condensed (ts ++ ts') (us ++ us') := by
  induction h with
  | nil => exact h'
  | same t _ ih => exact .same t ih
  | truth b _ ih => exact .truth b ih
  | truthInParens b _ ih => exact .truthInParens b ih
  | dropped _ ih => exact .dropped ih

theorem brace {ts us : List (Token ℚ)} (h : Condensed ts us) :
    (∃ ts' us', ts = .punct .leftBrace :: ts' ∧ us = .punct .leftBrace :: us' ∧ Condensed ts' us') ∨
    guarded ts = ts ∧ guarded us = us := by
  cases h with
  | nil => exact .inr ⟨rfl, rfl⟩
  | @same ts us t h =>
    by_cases ht : t = .punct .leftBrace
    · subst ht
      exact .inl ⟨ts, us, rfl, rfl, h⟩
    · exact .inr ⟨guarded_of_ne ht, guarded_of_ne ht⟩
  | truth b h => exact .inr ⟨guarded_of_ne nofun, guarded_of_ne nofun⟩
  | truthInParens b h => exact .inr ⟨guarded_of_ne nofun, guarded_of_ne nofun⟩
  | dropped h =>
    cases h
    exact .inr ⟨guarded_of_ne nofun, guarded_of_ne nofun⟩

theorem guarded {ts us : List (Token ℚ)} (h : Condensed ts us) :
    Condensed (guarded ts) (guarded us) := by
  rcases h.brace with ⟨ts', us', rfl, rfl, h'⟩ | ⟨hts, hus⟩
  · exact .same _ (.same _ (h'.append (.refl [.punct .rightParen])))
  · rwa [hts, hus]

end Condensed

/-! ## Expressions -/

def Condenses (ps qs : List Piece) : Prop :=
  Condensed (ofPieces valueOf ps) (ofPieces valueOf qs)

namespace Condenses

variable {ps ps' qs qs' : List Piece} {p : Piece}

theorem refl (ps : List Piece) : Condenses ps ps := Condensed.refl _

theorem append (h : Condenses ps qs) (h' : Condenses ps' qs') :
    Condenses (ps ++ ps') (qs ++ qs') := by
  rw [Condenses, ofPieces_append, ofPieces_append]
  exact Condensed.append h h'

end Condenses

variable {name : SymbolId → String}

theorem Style.numberToken_valueOf {st : Style} {x : Float} (h : Number.hasMinus x = false) :
    st.numberToken valueOf x = if x.isFinite then .number (Number.decimalValue x)
      else .word (if x.isNaN then "NaN" else "Infinity") := by
  rw [numberToken]
  cases hx : x.isFinite with
  | true =>
    obtain ⟨n, hn, hvalue⟩ := st.spells_numberText hx h
    exact congrArg Token.number (hn.valueOf_eq.trans hvalue)
  | false => exact congrArg word (numberText_word hx h)

theorem condenses_number (l : Level) (x : Float) :
    Condenses (number ⟨.normal, name⟩ l x) (number ⟨.minified, name⟩ l x) := by
  have htokens : ofPieces valueOf (number ⟨.normal, name⟩ l x) =
      ofPieces valueOf (number ⟨.minified, name⟩ l x) := by
    rw [ofPieces_number, ofPieces_number]
    by_cases hminus : Number.hasMinus x
    · rw [if_pos hminus, if_pos hminus, numberToken_valueOf (Number.hasMinus_abs x),
        numberToken_valueOf (Number.hasMinus_abs x)]
    · have hplain := Bool.not_eq_true _ ▸ hminus
      rw [if_neg hminus, if_neg hminus, numberToken_valueOf hplain,
        numberToken_valueOf hplain]
  rw [Condenses, htokens]
  exact .refl _

theorem valueOf_zero : valueOf ['0'] = 0 := by
  show ((0 : Nat) : ℚ) * 10 ^ (0 : Int) = 0
  simp

theorem valueOf_one : valueOf ['1'] = 1 := by
  show ((1 : Nat) : ℚ) * 10 ^ (0 : Int) = 1
  simp

theorem ofPiece_truthText (b : Bool) :
    ofPiece valueOf (.text (if b then "!0" else "!1")) =
      [.punct .bang, .number (if b then 0 else 1)] := by
  cases b with
  | true => exact valueOf_zero ▸ ofPiece_truth atom_zero rfl
  | false => exact valueOf_one ▸ ofPiece_truth atom_one rfl

theorem condenses_boolean (l : Level) (b : Bool) :
    Condenses (boolean ⟨.normal, name⟩ l b) (boolean ⟨.minified, name⟩ l b) := by
  have hword : ofPiece valueOf (.word (if b then "true" else "false")) =
      [.word (if b then "true" else "false")] :=
    (atom_word (by cases b <;> decide)).ofPiece rfl
  have hopen : ofPiece valueOf (.text "(") = [.punct .leftParen] :=
    Piece.ofPiece_punct rfl
  have hclose : ofPiece valueOf (.text ")") = [.punct .rightParen] :=
    Piece.ofPiece_punct rfl
  show Condensed (ofPiece _ _ ++ []) (ofPieces _ (Piece.wrapped (l.wraps .unary) _))
  rw [hword]
  cases l.wraps .unary with
  | true =>
    show Condensed _ (ofPiece _ _ ++ (ofPiece _ _ ++ (ofPiece _ _ ++ [])))
    rw [hopen, ofPiece_truthText, hclose]
    exact .truthInParens b .nil
  | false =>
    show Condensed _ (ofPiece _ _ ++ [])
    rw [ofPiece_truthText]
    exact .truth b .nil

theorem Written.condenses {F : Mode → List Piece} {rs : List String} (h : Written name F rs) :
    Condenses (F .normal) (F .minified) := by
  induction h with
  | nil => exact .refl []
  | number => exact condenses_number _ _
  | boolean => exact condenses_boolean _ _
  | regExp s => exact .refl [.regExp s]
  | @cons p _ _ _ _ ih => exact (Condenses.refl [p]).append ih
  | space _ ih => exact ih.append (.refl _)
  | @divided p _ _ _ _ _ _ _ ih ih' => exact ih.append ((Condenses.refl [p]).append ih')

/-! ## Statements -/

def owed (w : Bool) : List (Token ℚ) := if w then [.punct .semicolon] else []

structure Matches (w w' : Bool) (fs gs : List Fragment) : Prop where
  waits : waitsAll .minified w gs = w'
  tokens : ∃ ts, owed w ++ tokensAll valueOf .normal false fs = ts ++ owed w' ∧
    Condensed ts (tokensAll valueOf .minified w gs)

namespace Matches

variable {w w' w'' : Bool} {fs fs' gs gs' : List Fragment} {ps qs : List Piece} {p : Piece}
variable {depth : Nat}

theorem append (h : Matches w w' fs gs) (h' : Matches w' w'' fs' gs') :
    Matches w w'' (fs ++ fs') (gs ++ gs') := by
  obtain ⟨ts, hts, hcondensed⟩ := h.tokens
  obtain ⟨us, hus, hcondensed'⟩ := h'.tokens
  refine ⟨?_, ts ++ us, ?_, ?_⟩
  · rw [waitsAll_append, h.waits, h'.waits]
  · rw [tokensAll_append, waitsAll_normal, ← append_assoc, hts, append_assoc, hus,
      append_assoc]
  · rw [tokensAll_append, h.waits]
    exact hcondensed.append hcondensed'

theorem nil : Matches w w [] [] := ⟨rfl, [], by rw [tokensAll_nil]; exact append_nil _, .nil⟩

theorem pieces (hps : Plain ps) (hqs : Plain qs) (h : Condenses ps qs) :
    Matches false false (ofPieces ps) (ofPieces qs) := by
  refine ⟨waitsAll_ofPieces hqs, ofPieces valueOf ps, ?_, ?_⟩
  · rw [tokensAll_ofPieces hps]
    exact (append_nil _).symm
  · rw [tokensAll_ofPieces hqs]
    exact h

theorem same (hp : p.isFixed) : Matches false false [.piece p] [.piece p] := by
  have hplain : Plain [p] := plain_cons.mpr ⟨Piece.isPlain_of_isFixed hp, plain_nil⟩
  exact pieces hplain hplain (.refl [p])

theorem opening (hqs : Plain qs) (h : Condenses ps qs) :
    Matches false false [.opening ps] [.opening qs] := by
  refine ⟨foldl_waits hqs, guarded (ofPieces valueOf ps), ?_, ?_⟩
  · rfl
  · rw [tokensAll_cons, tokensAll_nil, append_nil]
    exact Condensed.guarded h

theorem terminator : Matches false true [.piece .terminator] [.piece .terminator] :=
  ⟨rfl, [], rfl, .nil⟩

theorem pending : Matches w false [.piece .pending] [.piece .pending] := by
  refine ⟨rfl, owed w, rfl, ?_⟩
  cases w <;> exact .refl _

theorem closing (hclosing : fs = ofPieces [.indent depth, .text "\x7d"] ++ [.piece .dropPending] ∨
    fs = .piece .dropPending :: ofPieces [.indent depth, .text "\x7d"]) :
    Matches w false fs fs := by
  have hbrace : ofPiece valueOf (.text "\x7d") = [.punct .rightBrace] :=
    Piece.ofPiece_punct rfl
  have hindent : ofPiece valueOf (.indent depth) = [] := ofPiece_of_own rfl
  have hdrop : ofPiece valueOf .dropPending = [] := ofPiece_of_own rfl
  have htokens : ∀ mode w, tokensAll valueOf mode w fs = [.punct .rightBrace] := by
    intro mode w
    rcases hclosing with rfl | rfl
    · show ofPiece _ _ ++ (ofPiece _ _ ++ (ofPiece _ _ ++ [])) = _
      rw [hbrace, hindent, hdrop]
      rfl
    · show ofPiece _ _ ++ (ofPiece _ _ ++ (ofPiece _ _ ++ [])) = _
      rw [hbrace, hindent, hdrop]
      rfl
  refine ⟨?_, owed w ++ [.punct .rightBrace], ?_, ?_⟩
  · rcases hclosing with rfl | rfl <;> rfl
  · rw [htokens]
    exact (append_nil _).symm
  · rw [htokens]
    cases w with
    | true => exact .dropped (.refl _)
    | false => exact .refl _

end Matches

theorem Seam.matches {seam : List Fragment} (h : Seam seam) (w : Bool) :
    Matches w false seam seam := by
  cases h with
  | pending => exact .pending
  | closed depth => exact .closing (.inl rfl)
  | dropped depth => exact .closing (.inr rfl)

theorem Laid.exists_matches {α : Type} {L : Mode → List Fragment} {rs : List String}
    {ts : List (Tree α)} (h : Laid name L rs ts) :
    ∃ w, Matches false w (L .normal) (L .minified) := by
  induction h with
  | nil => exact ⟨false, .nil⟩
  | terminated h =>
    exact ⟨true, (Matches.pieces (h.plain _) (h.plain _) h.condenses).append .terminator⟩
  | opening h => exact ⟨true, (Matches.opening (h.plain _) h.condenses).append .terminator⟩
  | @cons p _ _ _ hp _ ih =>
    obtain ⟨w, ih⟩ := ih
    exact ⟨w, (Matches.same hp).append ih⟩
  | headed h p hp _ ih =>
    obtain ⟨w, ih⟩ := ih
    exact ⟨w, (Matches.pieces (h.plain _) (h.plain _) h.condenses).append
      ((Matches.same (Piece.isFixed_of_divides hp)).append ih)⟩
  | append hseam _ _ ih ih' =>
    obtain ⟨w, ih⟩ := ih
    obtain ⟨w', ih'⟩ := ih'
    exact ⟨w', (ih.append (hseam.matches w)).append ih'⟩
  | function _ _ _ _ _ ih => exact ih

/-! ## Modules -/

namespace Tree

variable {α : Type} {t : Tree α} {cs : List (Tree α)} {depth : Nat}

section Filled

variable {ν : Type} {value : List Char → ν} {st : Style} {w : Bool} {p : Piece} {fs : List Fragment}

def IsVoid (t : Tree α) : Prop := ∃ m m', t = node m .expression [node m' .sequence []]

theorem tokens_ne_nil_of_piece {k : Token ν} (hp : ofPiece value p = [k])
    (hplain : p.isPlain) :
    tokensAll value st.mode w (.piece (.indent depth) :: .piece p :: fs) ≠ [] := by
  have hindent : tokens value st.mode w (.piece (.indent depth)) = [] :=
    ofPiece_of_own rfl
  rw [tokensAll_cons, hindent, tokensAll_cons, tokens_of_isPlain hplain,
    hp]
  exact cons_ne_nil k _

theorem tokens_ne_nil_of_word {s : String} (hs : Text.isIdentifier s) :
    tokensAll value st.mode w (.piece (.indent depth) :: .piece (.word s) :: fs) ≠ [] :=
  tokens_ne_nil_of_piece ((atom_word hs).ofPiece rfl) rfl

theorem wrapped_ne_nil {wrap : Bool} {ps : List Piece} (h : ps ≠ []) :
    Piece.wrapped wrap ps ≠ [] := by
  cases wrap with
  | true => exact cons_ne_nil _ _
  | false => exact h

theorem spelling_ne_nil (h : t.IsExpression) (ht : t.Legible st)
    (hvoid : ∀ m, t ≠ node m .sequence []) (p : Place) : t.spelling st p ≠ [] := by
  cases h with
  | @sequence m cs hcs =>
    rw [spelling]
    refine wrapped_ne_nil ?_
    cases cs with
    | nil => exact absurd rfl (hvoid m)
    | cons c cs =>
      have hc : Lexed (fun _ => ()) st.mode .comma (c.spelling st (p.operand .comma)) :=
        lexed (hcs c (.head _)) ((legible_node.mp ht).2 c (.head _)) .comma _
      rw [listSpelling]
      exact append_ne_nil_of_left_ne_nil
        (append_ne_nil_of_right_ne_nil _ (hc.filled (by simp))) _
  | @number m x =>
    rw [spelling]
    cases hx : Number.hasMinus x with
    | true =>
      rw [number_minus hx]
      split <;> exact cons_ne_nil _ _
    | false =>
      rcases number_plain hx with hpieces | ⟨hpieces, -⟩ <;>
        exact hpieces ▸ cons_ne_nil _ _
  | boolean =>
    rw [spelling, boolean]
    cases st.mode with
    | normal => exact cons_ne_nil _ _
    | minified => exact wrapped_ne_nil (cons_ne_nil _ _)
  | undefined =>
    rw [spelling, undefined]
    split <;> exact cons_ne_nil _ _
  | unary =>
    rw [spelling, unaryOperator]
    split
    · exact wrapped_ne_nil (by simp)
    · split <;> exact wrapped_ne_nil (by simp)
  | conditional | binary | assign =>
    rw [spelling]
    exact wrapped_ne_nil (by simp [Piece.operation])
  | _ => simp [spelling]

theorem tokens_ne_nil (h : t.IsStatement) (ht : t.Legible st) (hvoid : ¬ t.IsVoid) :
    tokensAll value st.mode false (t.lines st .line depth) ≠ [] := by
  cases h with
  | block =>
    rw [lines]
    exact tokens_ne_nil_of_piece (k := .punct .leftBrace) (Piece.ofPiece_punct rfl) rfl
  | empty =>
    rw [lines]
    exact tokens_ne_nil_of_piece (k := .punct .semicolon) (Piece.ofPiece_punct rfl) rfl
  | @expression m e he =>
    have hlegible := (legible_node.mp ht).2 e (.head _)
    have hne : e.spelling st .lowest ≠ [] := by
      refine spelling_ne_nil he hlegible ?_ _
      rintro m' rfl
      exact hvoid ⟨m, m', rfl⟩
    have hlexed : Lexed value st.mode .lowest (e.spelling st .lowest) :=
      lexed he hlegible .lowest false
    obtain ⟨k, ts, hts, -⟩ := (hlexed.front hne).brace
    have hguarded := guarded_ne_nil (hts ▸ cons_ne_nil k ts)
    have hindent : tokens value st.mode false (.piece (.indent depth)) = [] :=
      ofPiece_of_own rfl
    have hlines : (node m .expression [e]).lines st .line depth = [.piece (.indent depth),
        .opening (e.spelling st .lowest), .piece .terminator] := by simp [lines]
    rw [hlines, tokensAll_cons, hindent]
    exact append_ne_nil_of_left_ne_nil hguarded _
  | function =>
    rw [lines]
    exact tokens_ne_nil_of_piece (ofPiece_wordBlank (s := "function") (by decide) rfl) rfl
  | varStatement =>
    rw [lines]
    exact tokens_ne_nil_of_piece (ofPiece_wordBlank (s := "var") (by decide) rfl) rfl
  | label =>
    rw [lines]
    exact tokens_ne_nil_of_word (legible_node.mp ht).1
  | directive => cases (legible_node.mp ht).1
  | @«return» m e he =>
    rw [lines]
    show tokensAll value st.mode false (if e.isUndefined then _ else _) ≠ []
    split <;> exact tokens_ne_nil_of_word (s := "return") (by decide)
  | @ifElse m t a b =>
    have hif : ∃ fs, ifLines st depth [t, a, b] = .piece (.word "if") :: fs := by
      rw [ifLines]
      simp only
      split <;> exact ⟨_, rfl⟩
    have hlines : (node m .ifElse [t, a, b]).lines st .line depth =
        .piece (.indent depth) :: ifLines st depth [t, a, b] := by simp [lines]
    obtain ⟨fs, hfs⟩ := hif
    rw [hlines, hfs]
    exact tokens_ne_nil_of_word (by decide)
  | «break» | «continue» | debugger | doWhile | forLoop | forIn | throw | «try» | whileLoop =>
    rw [lines]
    exact tokens_ne_nil_of_word (by decide)

theorem isVoid_of_tokens_eq_nil (h : ∀ c ∈ cs, c.IsStatement)
    (ht : ∀ c ∈ cs, c.Legible ⟨.minified, name⟩)
    (htokens : tokensAll value .minified false (listLines ⟨.minified, name⟩ depth cs) = [])
    (hwaits : waitsAll .minified false (listLines ⟨.minified, name⟩ depth cs)) :
    ∃ c, cs = [c] ∧ c.IsVoid := by
  cases cs with
  | nil =>
    rw [listLines] at hwaits
    cases hwaits
  | cons c cs =>
    have hlines : listLines ⟨.minified, name⟩ depth (c :: cs) = .piece .pending ::
        (c.lines ⟨.minified, name⟩ .line depth ++ listLines ⟨.minified, name⟩ depth cs) := by
      rw [listLines]
      rfl
    rw [hlines, tokensAll_cons, tokensAll_append] at htokens
    obtain ⟨hc, hcs⟩ := append_eq_nil_iff.mp (append_eq_nil_iff.mp htokens).2
    have hvoid : c.IsVoid := by
      by_contra hnot
      exact tokens_ne_nil (h c (.head _)) (ht c (.head _)) hnot hc
    refine ⟨c, ?_, hvoid⟩
    obtain ⟨m, m', rfl⟩ := hvoid
    cases cs with
    | nil => rfl
    | cons d ds =>
      -- The semicolon that waits would be printed in front of the next statement.
      have hwaits' : waitsAll .minified false
          ((node m .expression [node m' .sequence []]).lines ⟨.minified, name⟩ .line depth) =
            true := by
        have hlines' : (node m .expression [node m' .sequence []]).lines ⟨.minified, name⟩ .line
            depth = [.piece (.indent depth), .opening [], .piece .terminator] := by
          have hlevel : Level.lowest.wraps .comma = false := by decide
          simp [lines, spelling, listSpelling, Piece.wrapped, Place.lowest, hlevel]
        rw [hlines']
        rfl
      have hpending : waits .minified false (.piece .pending) = false := rfl
      rw [listLines, cons_append, tokensAll_cons, hpending, hwaits'] at hcs
      cases hcs

end Filled

theorem condensed_textTokens (h : ∀ c ∈ t.children, c.IsStatement)
    (ht : ∀ c ∈ t.children, c.Legible ⟨.minified, name⟩)
    (hvoid : ¬ ∃ c, t.children = [c] ∧ c.IsVoid) :
    Condensed (t.textTokens valueOf ⟨.normal, name⟩)
      (t.textTokens valueOf ⟨.minified, name⟩) := by
  obtain ⟨w, hmatches⟩ := (laid_statements 0 h).exists_matches
  obtain ⟨ts, hts, hcondensed⟩ := hmatches.tokens
  have hnormal : t.textTokens valueOf ⟨.normal, name⟩ = ts ++ owed w := by
    rw [textTokens, waitsAll_normal, Bool.and_false]
    exact (append_nil _).trans hts
  have hlex := lex_text valueOf h ht
  rw [hnormal]
  cases htext : (t.text ⟨.minified, name⟩).isEmpty with
  | false =>
    rw [textTokens, hmatches.waits, htext]
    exact hcondensed.append (.refl _)
  | true =>
    -- An empty text has no tokens, and then none waits to be written.
    rw [isEmpty_iff.mp htext, lex_nil] at hlex
    have hnil := (Option.some.inj hlex).symm
    have htokens := (append_eq_nil_iff.mp hnil).1
    have hw : w = false := by
      rw [← hmatches.waits]
      by_contra hwaits
      exact hvoid (isVoid_of_tokens_eq_nil h ht htokens (Bool.not_eq_false _ ▸ hwaits))
    subst hw
    rw [htokens] at hcondensed
    rw [hnil]
    exact hcondensed.append .nil

end Tree

namespace Store

variable {s : Store} {n : NodeId}

/-- The two texts of a verified module are cut into the same tokens, where in the minified text
truth values are respelled and semicolons before closing braces are dropped. -/
theorem print_condenses (hv : s.verify n = .ok ()) (hmodule : (s.tree n).kind = .module)
    (hlegible : (s.tree n).Legible ⟨.normal, s.symbolName⟩)
    (hvoid : ¬ ∃ c, (s.tree n).children = [c] ∧ c.IsVoid) : ∃ normal minified ts us,
      s.print .normal n = .ok normal ∧ s.print .minified n = .ok minified ∧
      lex valueOf normal.toList = some ts ∧
      lex valueOf minified.toList = some us ∧ Condensed ts us := by
  have hshape := wellShaped_of_verify hv
  have hchildren : ∀ c ∈ (s.tree n).children,
      c.IsStatement ∧ c.Legible ⟨.normal, s.symbolName⟩ := by
    generalize s.tree n = t at hshape hmodule hlegible
    obtain ⟨m, k, cs⟩ := t
    cases hmodule
    exact fun c hc => ⟨Tree.isStatement_of_module hshape c hc,
      (Tree.legible_node.mp hlegible).2 c hc⟩
  have hlex : ∀ mode, lex valueOf
      (String.ofList ((s.tree n).text ⟨mode, s.symbolName⟩)).toList =
        some ((s.tree n).textTokens valueOf ⟨mode, s.symbolName⟩) := by
    intro mode
    rw [String.toList_ofList]
    exact Tree.lex_text _ (fun c hc => (hchildren c hc).1) fun c hc => (hchildren c hc).2
  exact ⟨_, _, _, _, Tree.print_eq hshape hmodule, Tree.print_eq hshape hmodule, hlex .normal,
    hlex .minified, Tree.condensed_textTokens (fun c hc => (hchildren c hc).1)
      (fun c hc => (hchildren c hc).2) hvoid⟩

def flaggedLoop : Store :=
  { (Store.empty.grow (.node () .module
      [.node () .whileLoop
        [.node () (.identifier ⟨0⟩) [], .node () .block
            [.node () .expression
              [.node () .call [.node () (.identifier ⟨1⟩) [], .node () (.boolean true) [],
                .node () (.number 1000) []]]]]])).2 with
    symbols := #[⟨"x", false⟩, ⟨"f", true⟩] }

theorem print_condenses_flaggedLoop : flaggedLoop.verify ⟨0⟩ = .ok () ∧
      (flaggedLoop.tree ⟨0⟩).Legible ⟨.normal, flaggedLoop.symbolName⟩ ∧
      flaggedLoop.print .normal ⟨0⟩ = .ok "while (x) \x7b\n  f(true, 1000);\n\x7d\n" ∧
      flaggedLoop.print .minified ⟨0⟩ = .ok "while(x)\x7bf(!0,1e3)\x7d\n" ∧ ∃ ts us,
        lex valueOf "while (x) \x7b\n  f(true, 1000);\n\x7d\n".toList = some ts ∧
        lex valueOf "while(x)\x7bf(!0,1e3)\x7d\n".toList = some us ∧
        Condensed ts us := by
  have hv : flaggedLoop.verify ⟨0⟩ = .ok () := rfl
  have hlegible : (flaggedLoop.tree ⟨0⟩).Legible ⟨.normal, flaggedLoop.symbolName⟩ := by decide
  have hvoid : ¬ ∃ c, (flaggedLoop.tree ⟨0⟩).children = [c] ∧ c.IsVoid := by
    rintro ⟨c, hc, m, m', rfl⟩
    cases hc
  have hnormal : flaggedLoop.print .normal ⟨0⟩ =
      .ok "while (x) \x7b\n  f(true, 1000);\n\x7d\n" := by decide
  have hminified : flaggedLoop.print .minified ⟨0⟩ = .ok "while(x)\x7bf(!0,1e3)\x7d\n" := by decide
  obtain ⟨normal, minified, ts, us, hn, hm, hts, hus, hcondensed⟩ :=
    print_condenses hv rfl hlegible hvoid
  rw [hnormal] at hn
  rw [hminified] at hm
  cases hn
  cases hm
  exact ⟨hv, hlegible, hnormal, hminified, ts, us, hts, hus, hcondensed⟩

def lonelySequence : Store :=
  (Store.empty.grow (.node () .module [.node () .expression [.node () .sequence []]])).2

theorem print_not_condenses_lonelySequence : lonelySequence.verify ⟨0⟩ = .ok () ∧
      lonelySequence.print .normal ⟨0⟩ = .ok ";\n" ∧ lonelySequence.print .minified ⟨0⟩ = .ok "" ∧
      lex valueOf ";\n".toList = some [.punct .semicolon] ∧
      lex valueOf "".toList = some [] ∧ ¬ Condensed [.punct .semicolon] [] := by
  have hblank : Lexes valueOf ['\n'] [] [] := lexes_blanks (by decide)
  refine ⟨rfl, rfl, rfl, ?_, lex_nil, nofun⟩
  exact (Lexes.append Fragment.lexes_semicolon hblank).lex_eq

end Store

end ScriptPress

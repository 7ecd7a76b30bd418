import ScriptPress.Compile
import ScriptPress.Proofs.Print.StatementParsing
import ScriptPress.Proofs.Store.Reading

/-! # Round trips -/

namespace ScriptPress

open List Tree

open Grammar
open Fragment (waitsAll tokensAll)

variable {name : SymbolId → String}

theorem Kind.isLegible_of_isSpellable {k : Kind} (h : k.isSpellable name cs) :
    k.isLegible name := by
  cases k with
  | identifier s | «variable» s | «catch» s | label s => exact Expr.isIdentifier_of_isName h
  | «break» o | «continue» o =>
    cases o with
    | none => rfl
    | some s => exact Expr.isIdentifier_of_isName h
  | function s => exact Expr.isIdentifier_of_isName (Bool.and_eq_true _ _ ▸ h).1
  | member s => exact h
  | regExp | directive => exact h
  | _ => rfl

namespace Tree

variable {α : Type} {st : Style} {value : List Char → Float} {t : Tree α} {cs : List (Tree α)}

theorem legible_of_spellable (h : t.Spellable st) : t.Legible st := by
  induction t with
  | node m k cs ih =>
    obtain ⟨hk, hcs⟩ := spellable_node.mp h
    exact legible_node.mpr ⟨Kind.isLegible_of_isSpellable hk, fun c hc => ih c hc (hcs c hc)⟩

/-- The text of a verified expression is read as that expression. -/
theorem parse_render_pieces (h : t.WellShaped) (hk : t.kind.isExpression = true)
    (hs : t.Spellable st) (hv : t.ReadsBack st value) : ∃ ps, t.pieces st .lowest = .ok ps ∧
      parse value (render st.mode .start ps).1 = some (t.reading st) := by
  have hexpression := IsExpression.of_fit ⟨hk, h⟩
  have hlexed : Lexed value st.mode .lowest (t.spelling st .lowest) :=
    lexed hexpression (legible_of_spellable hs) .lowest false
  have hlex : Token.lex value (render st.mode .start (t.spelling st .lowest)).1 =
      some (Token.ofPieces value (t.spelling st .lowest)) :=
    Token.Lexes.lex_eq (hlexed.reads .start [] clear_nil)
  have hparsed := (parses hexpression ⟨hs, hv⟩ .lowest false true nofun).expression [] nofun
  refine ⟨t.spelling st .lowest, pieces_eq hexpression .lowest, ?_⟩
  rw [append_nil] at hparsed
  rw [parse, hlex]
  show (expression true (Token.ofPieces value (t.spelling st ⟨.lowest, false⟩)) >>= _) = _
  rw [hparsed]
  rfl

def assignAndConstruct : Tree Unit :=
  node () .sequence
    [node () (.assign .assign)
      [node () (.identifier ⟨0⟩) [],
        node () (.binary .subtract) [node () (.number 1) [], node () (.number (-1)) []]],
      node () .new
        [node () .call [node () (.identifier ⟨1⟩) [], node () (.boolean true) []],
          node () .undefined []]]

theorem parse_render_pieces_assignAndConstruct :
    let st : Style := ⟨.minified, fun s => if s.index = 0 then "x" else "f"⟩
    let value : List Char → Float := fun cs => if cs = ['1'] then 1 else 0
    assignAndConstruct.WellShaped ∧ assignAndConstruct.Spellable st ∧
      assignAndConstruct.ReadsBack st value ∧ ∃ ps, assignAndConstruct.pieces st .lowest = .ok ps ∧
        (render .minified .start ps).1 = "x=1- -1,new(f(!0))(void 0)".toList ∧
        parse value "x=1- -1,new(f(!0))(void 0)".toList = some (.sequence
            [.assign .assign (.identifier "x")
              (.binary .subtract (.number 1) (.unary .negative (.number 1))),
              .new (.call (.identifier "f") [.unary .not (.number 0)])
                [.unary .void (.number 0)]]) := by
  intro st value
  have h : assignAndConstruct.WellShaped := rfl
  have hs : assignAndConstruct.Spellable st := by decide
  have hv : assignAndConstruct.ReadsBack st value := by decide
  obtain ⟨ps, hps, hparse⟩ := parse_render_pieces h rfl hs hv
  have htext :
      (assignAndConstruct.pieces st .lowest).map (fun ps => (render .minified .start ps).1) =
      .ok "x=1- -1,new(f(!0))(void 0)".toList := by decide
  rw [hps] at htext
  injection htext with htext
  refine ⟨h, hs, hv, ps, hps, htext, ?_⟩
  have hreading : assignAndConstruct.reading st = .sequence
      [.assign .assign (.identifier "x")
        (.binary .subtract (.number 1) (.unary .negative (.number 1))),
        .new (.call (.identifier "f") [.unary .not (.number 0)]) [.unary .void (.number 0)]] := by
    rfl
  rw [← htext, ← hreading]
  exact hparse

theorem filled_listLines {depth : Nat} (hcs : cs ≠ []) (h : ∀ c ∈ cs, c.Recites st value) :
    tokensAll value st.mode false (listLines st depth cs) ≠ [] := by
  obtain ⟨c, cs, rfl⟩ := exists_cons_of_ne_nil hcs
  rw [listLines_cons]
  show tokensAll value st.mode false (_ ++ _) ≠ []
  rw [Fragment.tokensAll_append]
  exact append_ne_nil_of_left_ne_nil (h c (.head _) .line depth).filled _

theorem statements_textTokens (h : ∀ c ∈ t.children, c.IsStatement)
    (hs : ∀ c ∈ t.children, c.Spellable st) (hv : ∀ c ∈ t.children, c.ReadsBack st value) :
    statements (t.textTokens value st) = some (readingStatements st true t.children, []) := by
  have hrecites : ∀ c ∈ t.children, c.Recites st value := fun c hc =>
    recites (h c hc) ⟨hs c hc, hv c hc⟩
  have hlex := lex_text value h fun c hc => legible_of_spellable (hs c hc)
  have hend : statements [] = some ([], []) := by rw [statements]
  refine statements_listLines hrecites ?_ hend
  cases hwaits : waitsAll st.mode false (listLines st 0 t.children) with
  | false => simp [Rest]
  | true =>
    -- A semicolon waits behind a statement, so the text is not empty.
    have hne : t.children ≠ [] := by
      intro hnil
      rw [hnil, listLines] at hwaits
      cases hwaits
    have htext : (t.text st).isEmpty = false := by
      by_contra hempty
      rw [Bool.not_eq_false, List.isEmpty_iff] at hempty
      rw [hempty, Token.lex_nil] at hlex
      have hnil := (List.append_eq_nil_iff.mp (Option.some.inj hlex).symm).1
      exact filled_listLines hne hrecites hnil
    rw [htext]
    rfl

end Tree

namespace Store

variable {s : Store} {n : NodeId} {mode : Mode} {value : List Char → Float}

/-- The text of a verified module is read as the statements of the module. -/
theorem program_print (hv : s.verify n = .ok ()) (hmodule : (s.tree n).kind = .module)
    (hs : (s.tree n).Spellable ⟨mode, s.symbolName⟩)
    (hvalue : (s.tree n).ReadsBack ⟨mode, s.symbolName⟩ value) :
    ∃ text ss, s.print mode n = .ok text ∧ program value text.toList = some ss ∧
      Stmt.unbracedAll ss = Stmt.unbracedAll
        (readingStatements ⟨mode, s.symbolName⟩ false (s.tree n).children) := by
  have hshape := wellShaped_of_verify hv
  have hchildren : ∀ c ∈ (s.tree n).children, c.IsStatement ∧
      c.Spellable ⟨mode, s.symbolName⟩ ∧ c.ReadsBack ⟨mode, s.symbolName⟩ value := by
    generalize s.tree n = t at hshape hmodule hs hvalue
    obtain ⟨m, k, cs⟩ := t
    cases hmodule
    exact fun c hc => ⟨isStatement_of_module hshape c hc, (spellable_node.mp hs).2 c hc,
      (readsBack_node.mp hvalue).2 c hc⟩
  have hlex := lex_text value (fun c hc => (hchildren c hc).1)
    fun c hc => legible_of_spellable (hchildren c hc).2.1
  have hstatements := statements_textTokens (fun c hc => (hchildren c hc).1)
    (fun c hc => (hchildren c hc).2.1) fun c hc => (hchildren c hc).2.2
  refine ⟨_, readingStatements ⟨mode, s.symbolName⟩ true (s.tree n).children,
    print_eq hshape hmodule, ?_, ?_⟩
  · rw [String.toList_ofList, program, hlex]
    show (statements _ >>= _) = _
    rw [hstatements]
    rfl
  · exact unbracedAll_readingStatements fun c hc =>
      unbraced_readingStatement (hchildren c hc).1

def nestedChoice : Store :=
  { (Store.empty.grow (.node () .module
      [.node () .forLoop
        [.node () .varStatement
          [.node () (.variable ⟨0⟩)
            [.node () (.binary .in) [.node () (.string "a") [], .node () (.identifier ⟨1⟩) []]]],
          .node () .empty [], .node () .empty [], .node () .ifElse
            [.node () (.identifier ⟨2⟩) [], .node () .ifElse
                [.node () (.identifier ⟨3⟩) [],
                  .node () .expression [.node () .call [.node () (.identifier ⟨4⟩) []]],
                  .node () .empty []],
              .node () .expression [.node () .call [.node () (.identifier ⟨5⟩) []]]]],
        .node () .expression [.node () (.member ⟨6⟩) [.node () .object []]]])).2 with
    symbols := #[⟨"i", false⟩, ⟨"o", true⟩, ⟨"x", true⟩, ⟨"y", true⟩, ⟨"f", true⟩, ⟨"g", true⟩,
      ⟨"p", true⟩] }

set_option maxRecDepth 4096 in
theorem program_print_nestedChoice : let st : Style := ⟨.minified, nestedChoice.symbolName⟩
    nestedChoice.verify ⟨0⟩ = .ok () ∧ (nestedChoice.tree ⟨0⟩).Spellable st ∧
      (nestedChoice.tree ⟨0⟩).ReadsBack st (fun _ => 0) ∧ nestedChoice.print .minified ⟨0⟩ =
        .ok "for(var i=(\"a\"in o);;)if(x)\x7bif(y)f()\x7delse g();(\x7b\x7d.p);\n" ∧
      ∃ ss, program (fun _ => 0)
          "for(var i=(\"a\"in o);;)if(x)\x7bif(y)f()\x7delse g();(\x7b\x7d.p);\n".toList = some ss ∧
        Stmt.unbracedAll ss =
          [.forLoop (.var [("i", some (.binary .in (.string (Text.units "a")) (.identifier "o")))])
            none none (.ifElse (.identifier "x")
              (.ifThen (.identifier "y") (.expression (.call (.identifier "f") [])))
              (.expression (.call (.identifier "g") []))),
            .expression (.member (.object []) "p")] := by
  intro st
  have hv : nestedChoice.verify ⟨0⟩ = .ok () := by decide +kernel
  have hs : (nestedChoice.tree ⟨0⟩).Spellable st := by decide +kernel
  have hvalue : (nestedChoice.tree ⟨0⟩).ReadsBack st (fun _ => 0) := by decide +kernel
  have htext : nestedChoice.print .minified ⟨0⟩ =
      .ok "for(var i=(\"a\"in o);;)if(x)\x7bif(y)f()\x7delse g();(\x7b\x7d.p);\n" := by
    decide +kernel
  obtain ⟨text, ss, hprint, hprogram, hss⟩ := program_print hv rfl hs hvalue
  rw [htext] at hprint
  cases hprint
  exact ⟨hv, hs, hvalue, htext, ss, hprogram, hss⟩

def bareTry : Store :=
  (Store.empty.grow (.node () .module
    [.node () .try [.node () .block [], .node () .empty [], .node () .empty []]])).2

theorem not_program_print_bareTry :
    bareTry.verify ⟨0⟩ = .ok () ∧ bareTry.print .normal ⟨0⟩ = .ok "try \x7b\n\x7d\n" ∧
      program (fun _ => 0) "try \x7b\n\x7d\n".toList = none := by
  have htokens :
      (bareTry.tree ⟨0⟩).textTokens (fun _ => (0 : Float)) ⟨.normal, bareTry.symbolName⟩ =
      [.word "try", .punct .leftBrace, .punct .rightBrace] := by
    have hspace : Says (fun _ => (0 : Float)) .normal (Fragment.ofPieces [.space]) _ false :=
      .plain (by simp)
    have hsaid : Says (fun _ => (0 : Float)) .normal ([] ++ .piece .pending ::
        (Fragment.keyword 0 Keyword.try.text ++ (Fragment.ofPieces [.space] ++
          (Fragment.block 0 [] ++ [.piece .newline])))) _ false :=
      (Says.self []).pending ((says_keyword (ofPiece_keyword .try)).append
        (hspace.append ((Says.block []).append .newline)))
    have hlines : Says (fun _ => (0 : Float)) .normal
        (listLines ⟨.normal, bareTry.symbolName⟩ 0 (bareTry.tree ⟨0⟩).children) _ _ := hsaid
    rw [textTokens, hlines.tokens, hlines.waits, Bool.and_false]
    simp [Keyword.text, due, Fragment.waitsAll, Fragment.tokensAll]
  have hlex : Token.lex (fun _ => (0 : Float)) "try \x7b\n\x7d\n".toList =
      some [.word "try", .punct .leftBrace, .punct .rightBrace] := by
    have hshape : (node (⟨0⟩ : NodeId) .module (bareTry.tree ⟨0⟩).children).WellShaped := rfl
    have hstatement := isStatement_of_module hshape
    rw [← htokens, ← lex_text _ hstatement (by decide)]
    rfl
  have hempty : statements [.punct .rightBrace] = some ([], [.punct .rightBrace]) := by
    rw [statements]
  have hbraced : braced [.punct .leftBrace, .punct .rightBrace] = some ([], []) := by
    rw [braced]
    exact block_eq hempty
  have hfollowing : following .try [.punct .leftBrace, .punct .rightBrace] = none := by
    rw [following, hbraced, used_some (by simp)]
    show (used _ (handler []) >>= _) = none
    rw [handler_nil (by simp), used_some (by simp)]
    show (finalizer [] >>= _) = none
    rw [finalizer_nil (by simp)]
    rfl
  have hstatements : statements [.word "try", .punct .leftBrace, .punct .rightBrace] = none := by
    have hstatement : statement [.word "try", .punct .leftBrace, .punct .rightBrace] = none :=
      statement_of_following (k := .try) hfollowing
    rw [statements, hstatement]
    · rfl
    all_goals simp
  refine ⟨rfl, by decide +kernel, ?_⟩
  rw [program, hlex]
  show (statements _ >>= _) = none
  rw [hstatements]
  rfl

end Store

end ScriptPress

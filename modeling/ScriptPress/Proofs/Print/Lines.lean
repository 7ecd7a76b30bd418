import ScriptPress.Proofs.Print.Spelling

/-! # Printing statements without faults -/

namespace ScriptPress

open List

open Fragment (ofPieces keyword braced block)

def Kind.isPlaced : Kind → Bool
  | ifElse | block => false
  | _ => true

namespace Tree

variable {α : Type} {m : α}

def declarationSpelling (st : Style) (inSetup : Bool) : Tree α → List Piece
  | node _ (.variable s) [v] =>
    if v.isUndefined then [.word (st.name s)]
    else [.word (st.name s), .space, .text "=", .space] ++ v.spelling st ⟨.comma, inSetup⟩
  | _ => []

def declarationsSpelling (st : Style) (inSetup first : Bool) : List (Tree α) → List Piece
  | [] => []
  | v :: vs =>
    Piece.separatorUnless first ++ v.declarationSpelling st inSetup ++
      declarationsSpelling st inSetup false vs

def setupSpelling (st : Style) (t : Tree α) : List Piece :=
  match t.kind with
  | .varStatement => .text "var " :: declarationsSpelling st true true t.children
  | .empty => []
  | _ => t.spelling st ⟨.lowest, true⟩

def clauseSpelling (st : Style) (t : Tree α) : List Piece :=
  if t.isEmpty then [] else .space :: t.spelling st .lowest

def headSpelling (st : Style) (t : Tree α) : List Piece :=
  if t.kind.isVariable then .text "var" :: t.declarationSpelling st true
  else t.spelling st ⟨.update, true⟩

def parameterSpelling (st : Style) (first : Bool) : List (Tree α) → List Piece
  | node _ (.variable s) _ :: ps =>
    Piece.separatorUnless first ++ .word (st.name s) :: parameterSpelling st false ps
  | _ => []

def testSpelling (st : Style) (t : Tree α) : List Piece :=
  [.space, .text "("] ++ t.spelling st .lowest ++ [.text ")"]

def endsOpen : Tree α → Bool
  | node _ kind cs =>
    match kind, cs with
    | .ifElse, [_, _, b] => b.isEmpty || b.endsOpen
    | .forLoop, [_, _, _, b] | .forIn, [_, _, b] | .whileLoop, [_, b] | .label _, [b] => b.endsOpen
    | _, _ => false

mutual

def lines (st : Style) (position : Position) (depth : Nat) : Tree α → List Fragment
  | node _ kind cs =>
    if position = .orElse && kind = .ifElse then .piece (.text " ") :: ifLines st depth cs
    else if position ≠ .line && kind = .block then
      .piece .space :: block depth (listLines st (depth + 1) cs) ++ [.piece .newline]
    else
      let depth := if position = .line then depth else depth + 1
      (if position = .line then [] else [.piece .newline]) ++ match kind, cs with
      | .block, cs =>
        .piece (.indent depth) :: block depth (listLines st (depth + 1) cs) ++ [.piece .newline]
      | .break label, _ => jump st depth "break" label
      | .continue label, _ => jump st depth "continue" label
      | .debugger, _ => keyword depth "debugger" ++ [.piece .terminator]
      | .directive text, _ =>
        ofPieces [.indent depth, .text (quoteOf text), .text text, .text (quoteOf text),
          .terminator]
      | .doWhile, [b, t] =>
        keyword depth "do" ++ lines st .body depth b ++
          ofPieces [.pending, .indent depth, .text "while"] ++ ofPieces (t.testSpelling st) ++
          [.piece .terminator]
      | .empty, _ => ofPieces [.indent depth, .text ";", .newline]
      | .expression, [e] =>
        [.piece (.indent depth), .opening (e.spelling st .lowest), .piece .terminator]
      | .forLoop, [s, t, u, b] =>
        keyword depth "for" ++ ofPieces ([.space, .text "("] ++ s.setupSpelling st ++ .text ";" ::
          t.clauseSpelling st ++ .text ";" :: u.clauseSpelling st ++ [.text ")"]) ++
          lines st .body depth b
      | .forIn, [h, v, b] =>
        keyword depth "for" ++ ofPieces ([.space, .text "("] ++ h.headSpelling st ++
          [.word "in", .space] ++ v.spelling st .lowest ++ [.text ")"]) ++ lines st .body depth b
      | .function s, node _ _ cs :: ps =>
        keyword depth "function " ++ ofPieces (.text (st.name s) :: .text "(" ::
          parameterSpelling st true ps ++ [.text ")", .space]) ++
          block depth (listLines st (depth + 1) cs) ++ [.piece .newline]
      | .ifElse, cs => .piece (.indent depth) :: ifLines st depth cs
      | .label s, [b] =>
        ofPieces [.indent (depth - 1), .word (st.name s), .text ":", .newline] ++
          lines st .line depth b
      | .return, [e] =>
        if e.isUndefined then keyword depth "return" ++ [.piece .terminator]
        else keyword depth "return" ++ .piece .space :: ofPieces (e.spelling st .lowest) ++
          [.piece .terminator]
      | .throw, [e] =>
        keyword depth "throw" ++ .piece .space :: ofPieces (e.spelling st .lowest) ++
          [.piece .terminator]
      | .try, [node _ _ cs, h, f] =>
        keyword depth "try" ++ .piece .space :: block depth (listLines st (depth + 1) cs) ++
          handlerLines st depth h ++ finalizerLines st depth f ++ [.piece .newline]
      | .varStatement, vs =>
        keyword depth "var " ++ ofPieces (declarationsSpelling st false true vs) ++
          [.piece .terminator]
      | .whileLoop, [t, b] =>
        keyword depth "while" ++ ofPieces (t.testSpelling st) ++ lines st .body depth b
      | _, _ => []

def listLines (st : Style) (depth : Nat) : List (Tree α) → List Fragment
  | [] => []
  | c :: cs => .piece .pending :: lines st .line depth c ++ listLines st depth cs

def ifLines (st : Style) (depth : Nat) : List (Tree α) → List Fragment
  | [t, a, b] =>
    let head := .piece (.word "if") :: ofPieces (t.testSpelling st)
    if b.isEmpty then head ++ lines st .body depth a
    else
      let branch :=
        if a.endsOpen then
          .piece .space :: braced depth (lines st .line (depth + 1) a ++ [.piece .dropPending]) ++
            [.piece .newline]
        else lines st .body depth a
      head ++ branch ++ ofPieces [.pending, .indent depth, .text "else"] ++ lines st .orElse depth b
  | _ => []

def handlerLines (st : Style) (depth : Nat) : Tree α → List Fragment
  | node _ (.catch s) [node _ _ cs] =>
    ofPieces [.space, .text "catch", .space, .text "(", .text (st.name s), .text ")", .space] ++
      block depth (listLines st (depth + 1) cs)
  | _ => []

def finalizerLines (st : Style) (depth : Nat) : Tree α → List Fragment
  | node _ .block cs =>
    ofPieces [.space, .text "finally", .space] ++ block depth (listLines st (depth + 1) cs)
  | _ => []

end

def text (st : Style) (t : Tree α) : List Char :=
  let (cs, margin) := Fragment.renderAll st.mode .start (listLines st 0 t.children)
  cs ++ match st.mode with
    | .normal => []
    | .minified => if cs.isEmpty then [] else (if margin.semicolon then [';'] else []) ++ ['\n']

theorem lines_placed {k : Kind} (hk : k.isPlaced) (position : Position) (depth : Nat) :
    (node m k cs).lines st position depth =
      if position = .line then (node m k cs).lines st .line depth
      else .piece .newline :: (node m k cs).lines st .line (depth + 1) := by
  have hif : k ≠ .ifElse := by
    rintro rfl
    cases hk
  have hblock : k ≠ .block := by
    rintro rfl
    cases hk
  cases position with
  | line => rfl
  | body | orElse => simp [lines, hif, hblock]

theorem ok_bind {ε β γ : Type} (b : β) (f : β → Except ε γ) : (Except.ok b >>= f) = f b := rfl

variable {st : Style} {inSetup first : Bool} {t : Tree α} {cs : List (Tree α)} {depth : Nat}

theorem IsExpression.not_isEmpty (h : t.IsExpression) : t.isEmpty = false := by
  cases h <;> rfl

theorem endsInOpenIf_eq (h : t.IsStatement) : t.endsInOpenIf = .ok t.endsOpen := by
  induction h with
  | forLoop _ _ _ _ ih | forIn _ _ _ ih | label _ ih | whileLoop _ _ ih =>
    rw [endsInOpenIf, endsOpen]
    simp only [openIfAt]
    exact ih
  | @ifElse m t a b _ _ _ _ ih =>
    rw [endsInOpenIf, endsOpen]
    simp only [openIfAt, Bool.true_and]
    cases b.isEmpty with
    | true => rfl
    | false => exact ih
  | _ => rw [endsInOpenIf, endsOpen] <;> nofun

theorem declarationPieces_eq (h : t.IsVariable) :
    t.declarationPieces st inSetup = .ok (t.declarationSpelling st inSetup) := by
  obtain ⟨m, s, v, rfl, hv⟩ := h
  have hvalue : v.pieces st ⟨.comma, inSetup⟩ = _ := pieces_eq hv ⟨.comma, inSetup⟩
  rw [declarationPieces, declarationSpelling]
  show (if v.isUndefined then _ else v.pieces st ⟨.comma, inSetup⟩ >>= _) = _
  rw [hvalue]
  split <;> rfl

theorem declarationsPieces_eq (h : ∀ v ∈ cs, v.IsVariable) :
    declarationsPieces st inSetup first cs = .ok (declarationsSpelling st inSetup first cs) := by
  induction cs generalizing first with
  | nil => rw [declarationsPieces, declarationsSpelling]
  | cons v vs ih =>
    rw [declarationsPieces, declarationsSpelling, declarationPieces_eq (h v mem_cons_self),
      ih fun w hw => h w (.tail _ hw)]
    rfl

theorem setupPieces_eq (h : t.IsSetup) : t.setupPieces st = .ok (t.setupSpelling st) := by
  rcases h with (h | ⟨m, rfl⟩) | ⟨m, vs, rfl, hvs⟩
  · have hk := h.isExpression
    rw [setupPieces, setupSpelling, pieces_eq h]
    cases hkind : t.kind <;> first | rfl | rw [hkind] at hk; cases hk
  · rfl
  · rw [setupPieces, setupSpelling]
    simp only [kind_node, children_node, declarationsPieces_eq hvs]
    rfl

theorem clausePieces_eq (h : t.IsClause) : t.clausePieces st = .ok (t.clauseSpelling st) := by
  rcases h with h | ⟨m, rfl⟩
  · rw [clausePieces, clauseSpelling, h.not_isEmpty, pieces_eq h]
    rfl
  · rfl

theorem headPieces_eq (h : t.IsHead) : t.headPieces st = .ok (t.headSpelling st) := by
  rcases h with h | h
  · have hk : t.kind.isVariable = false := by cases h <;> rfl
    rw [headPieces, headSpelling, hk, pieces_eq h]
    rfl
  · rw [headPieces, headSpelling, declarationPieces_eq h]
    obtain ⟨m, s, v, rfl, -⟩ := h
    rfl

theorem parameterPieces_eq (h : ∀ v ∈ cs, v.IsVariable) :
    parameterPieces st first cs = .ok (parameterSpelling st first cs) := by
  induction cs generalizing first with
  | nil => rw [parameterPieces, parameterSpelling]; nofun
  | cons v vs ih =>
    have hvs : parameterPieces st false vs = _ := ih fun w hw => h w (.tail _ hw)
    obtain ⟨m, s, v, rfl, -⟩ := h v (.head _)
    rw [parameterPieces, parameterSpelling, hvs]
    rfl

theorem testPieces_eq (h : t.IsExpression) : t.testPieces st = .ok (t.testSpelling st) := by
  rw [testPieces, testSpelling, pieces_eq h]
  rfl

theorem listFragments_eq
    (h : ∀ c ∈ cs, ∀ depth, c.fragments st .line depth = .ok (c.lines st .line depth)) :
    listFragments st depth cs = .ok (listLines st depth cs) := by
  induction cs with
  | nil => rw [listFragments, listLines]
  | cons c cs ih =>
    rw [listFragments, listLines, h c mem_cons_self, ih fun d hd => h d (mem_cons_of_mem c hd)]
    rfl

theorem handlerFragments_eq {o : Option (SymbolId × α × List (Tree α))}
    (h : ∀ p ∈ o, ∀ c ∈ p.2.2, ∀ depth, c.fragments st .line depth = .ok (c.lines st .line depth)) :
    (handler m o).handlerFragments st depth = .ok ((handler m o).handlerLines st depth) := by
  rcases o with _ | ⟨s, m', cs⟩
  · rw [handler, handlerFragments, handlerLines]
    · rfl
    · nofun
  · rw [handler, handlerFragments, handlerLines, blockAt, blockFragments,
      listFragments_eq (h _ rfl)]
    rfl

theorem finalizerAt_eq {o : Option (List (Tree α))} {missing : Fault} {a b : Tree α}
    (h : ∀ ds ∈ o, ∀ c ∈ ds, ∀ depth, c.fragments st .line depth = .ok (c.lines st .line depth)) :
    finalizerAt st depth missing 2 [a, b, finalizer m o] =
      .ok ((finalizer m o).finalizerLines st depth) := by
  rw [finalizerAt, finalizerAt]
  rcases o with _ | cs
  · rw [finalizer, finalizerAt, finalizerLines]
    · rfl
    · nofun
  · rw [finalizer, finalizerAt, finalizerLines, blockFragments, listFragments_eq (h _ rfl)]
    rfl

theorem ifFragments_eq {a b : Tree α} (ht : t.IsExpression) (ha : a.IsStatement)
    (iha : ∀ position depth, a.fragments st position depth = .ok (a.lines st position depth))
    (ihb : ∀ position depth, b.fragments st position depth = .ok (b.lines st position depth)) :
    ifFragments st depth [t, a, b] = .ok (ifLines st depth [t, a, b]) := by
  rw [ifFragments, ifLines, testPieces_eq ht, endsInOpenIf_eq ha]
  simp only [iha, ihb]
  cases b.isEmpty with
  | true => rfl
  | false => cases a.endsOpen <;> rfl

theorem fragments_eq (h : t.IsStatement) :
    ∀ position depth, t.fragments st position depth = .ok (t.lines st position depth) := by
  induction h with
  | block _ ih =>
    intro position depth
    rw [fragments, lines]
    simp only [listFragments_eq fun c hc => ih c hc .line]
    cases position <;> rfl
  | @doWhile m b t _ ht ih =>
    intro position depth
    have htest : Part.doWhileTest.get .doWhile [b, t] = .ok t := rfl
    rw [fragments, lines]
    simp only [fragmentsAt, ih, htest, ok_bind, testPieces_eq ht]
    cases position <;> rfl
  | @expression m e he =>
    intro position depth
    have hvalue : Part.expressionValue.get .expression [e] = .ok e := rfl
    rw [fragments, lines]
    simp only [hvalue, ok_bind, pieces_eq he]
    cases position <;> rfl
  | @forLoop m s t u b hs ht hu _ ih =>
    intro position depth
    have hsetup : Part.forSetup.get .forLoop [s, t, u, b] = .ok s := rfl
    have htest : Part.forTest.get .forLoop [s, t, u, b] = .ok t := rfl
    have hupdate : Part.forUpdate.get .forLoop [s, t, u, b] = .ok u := rfl
    rw [fragments, lines]
    simp only [fragmentsAt, ih, hsetup, htest, hupdate, ok_bind, setupPieces_eq hs,
      clausePieces_eq ht, clausePieces_eq hu]
    cases position <;> rfl
  | @forIn m h v b hh hv _ ih =>
    intro position depth
    have hhead : Part.forInSetup.get .forIn [h, v, b] = .ok h := rfl
    have hvalue : Part.forInValue.get .forIn [h, v, b] = .ok v := rfl
    rw [fragments, lines]
    simp only [fragmentsAt, ih, hhead, hvalue, ok_bind, headPieces_eq hh, pieces_eq hv]
    cases position <;> rfl
  | function _ hps ih =>
    intro position depth
    rw [fragments, lines]
    simp only [drop_succ_cons, drop_zero, parameterPieces_eq hps, blockAt,
      blockFragments, listFragments_eq fun c hc => ih c hc .line, ok_bind]
    cases position <;> rfl
  | label _ ih =>
    intro position depth
    rw [fragments, lines]
    simp only [fragmentsAt, ih, ok_bind]
    cases position <;> rfl
  | @«return» m e he =>
    intro position depth
    have hvalue : Part.returnValue.get .return [e] = .ok e := rfl
    rw [fragments, lines]
    simp only [hvalue, ok_bind, pieces_eq he]
    cases e.isUndefined <;> cases position <;> rfl
  | @throw m e he =>
    intro position depth
    have hvalue : Part.throwValue.get .throw [e] = .ok e := rfl
    rw [fragments, lines]
    simp only [hvalue, ok_bind, pieces_eq he]
    cases position <;> rfl
  | «try» _ _ _ ih ihh ihf =>
    intro position depth
    rw [fragments, lines]
    simp only [blockAt, blockFragments, listFragments_eq fun c hc => ih c hc .line, handlerAt,
      handlerFragments_eq fun p hp c hc => ihh p hp c hc .line,
      finalizerAt_eq fun ds hds c hc => ihf ds hds c hc .line, ok_bind]
    cases position <;> rfl
  | varStatement hvs =>
    intro position depth
    rw [fragments, lines]
    simp only [declarationsPieces_eq hvs, ok_bind]
    cases position <;> rfl
  | @whileLoop m t b ht _ ih =>
    intro position depth
    have htest : Part.whileTest.get .whileLoop [t, b] = .ok t := rfl
    rw [fragments, lines]
    simp only [fragmentsAt, ih, htest, ok_bind, testPieces_eq ht]
    cases position <;> rfl
  | ifElse ht ha _ iha ihb =>
    intro position depth
    rw [fragments, lines]
    simp only [ifFragments_eq ht ha iha ihb]
    cases position <;> rfl
  | «break» | «continue» | debugger | directive | empty =>
    intro position depth
    rw [fragments, lines]
    cases position <;> rfl

theorem print_eq (h : t.WellShaped) (hmodule : t.kind = .module) :
    t.print st = .ok (String.ofList (t.text st)) := by
  obtain ⟨m, k, cs⟩ := t
  cases hmodule
  have hcs := isStatement_of_module h
  have hpending : ∀ mode (m : Margin), (Fragment.renderAll mode m [.piece .pending]).1 =
      if m.semicolon then [';'] else [] := by
    intro mode m
    simp [Fragment.renderAll, render, Piece.chars]
  rw [print, text]
  simp only [kind_node, children_node, listFragments_eq fun c hc => fragments_eq (hcs c hc) .line,
    ok_bind, hpending]
  cases st.mode <;> rfl

end Tree

end ScriptPress

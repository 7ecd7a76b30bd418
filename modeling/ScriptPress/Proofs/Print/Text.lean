import ScriptPress.Proofs.Print.Statement

/-! # The tokens of a module -/

namespace ScriptPress

open List Fragment Piece Scans

open Token (Lexes isBoundary continuesWord)
open Fragment (ofPieces keyword braced block waitsAll renderAll tokensAll)

variable {ν : Type} {value : List Char → ν} {mode : Mode} {m : Margin} {r : List Char}
variable {ps : List Piece} {depth : Nat}

/-! ## Expression statements -/

theorem Lexed.head_ne_brace {l : Level} {t : Token ν} {ts : List (Token ν)}
    (h : Lexed value mode l ps) (htokens : Token.ofPieces value ps = t :: ts)
    (ht : t ≠ .punct .leftBrace) : (render mode m ps).1.head? ≠ some '\x7b' := by
  intro hhead
  obtain ⟨cs, hcs⟩ := List.head?_eq_some_iff.mp hhead
  have hlex := Lexes.lex_eq (h.reads m [] clear_nil)
  have hbrace : Lexes value ['\x7b'] [.punct .leftBrace] cs :=
    Token.lexes_punct (Punct.endsBefore .leftBrace rfl (by decide) cs)
  rw [Lexes] at hbrace
  rw [hcs, htokens] at hlex
  change Token.lex value ('\x7b' :: cs) = _ at hbrace
  rw [hlex] at hbrace
  cases hrest : Token.lex value cs with
  | none =>
    rw [hrest] at hbrace
    cases hbrace
  | some us =>
    rw [hrest, Option.map_some] at hbrace
    exact ht (List.cons.inj (Option.some.inj hbrace)).1

theorem Lexed.scans_opening (h : Lexed value mode .lowest ps) (hr : ∀ l m', Clear l m' r) :
    Fragment.Scans value mode m [.opening ps] r := by
  have hreads := h.reads m r (hr _ _)
  rw [Fragment.Scans, renderAll_opening, tokensAll_cons, tokensAll_nil,
    append_nil]
  simp only [renderOpening, tokens]
  by_cases hne : ps = []
  · subst hne
    exact hreads
  obtain ⟨t, ts, htokens, hbrace⟩ := (h.front hne).brace
  by_cases ht : t = .punct .leftBrace
  · subst ht
    have hinner := h.reads m (')' :: r) (clear_cons (by decide) (by decide))
    rw [if_pos (hbrace rfl m)]
    rw [Scans, htokens] at hinner
    rw [htokens, guarded]
    have hopen : ∀ r, Lexes value ['('] [.punct .leftParen] r := fun r =>
      Token.lexes_punct (Punct.endsBefore .leftParen rfl (by decide) r)
    have hclose : Lexes value [')'] [.punct .rightParen] r :=
      Token.lexes_punct (Punct.endsBefore .rightParen rfl (by decide) r)
    have hwhole := Lexes.append (hopen _) (Lexes.append hinner hclose)
    exact hwhole
  · rw [if_neg (h.head_ne_brace htokens ht), htokens, guarded_of_ne ht, ← htokens]
    exact hreads

theorem Lexed.isBoundary_opening (h : Lexed value mode .lowest ps)
    (hlast : m.last.any Text.isIdentifierPart) (hr : isBoundary r) :
    isBoundary ((renderAll mode m [.opening ps]).1 ++ r) := by
  rw [renderAll_opening]
  simp only [renderOpening]
  split
  · exact isBoundary_cons (by decide)
  · by_cases hne : ps = []
    · subst hne
      exact hr
    · exact ((h.front hne).opens m r).word hlast

theorem Lexed.sound_opening (h : Lexed value mode .lowest ps) (hplain : Plain ps) :
    Sound value mode [.opening ps, .piece .terminator] := by
  have hwaits : ∀ w, waitsAll mode w [.opening ps] = w := fun w => foldl_waits hplain
  have hclear : ∀ m r, Ends (waitsAll mode false [.opening ps, .piece .terminator]) r →
      ∀ l m', Clear l m' ((renderAll mode m [.piece .terminator]).1 ++ r) := by
    intro m r hr l m'
    rw [renderAll_piece]
    cases mode with
    | normal => exact clear_cons (by decide) (by decide)
    | minified => exact Ends.clear hr
  refine ⟨fun m r hm hr hlast => ?_, fun m r hm hr => ?_⟩
  · rw [renderAll_cons, append_assoc]
    refine h.isBoundary_opening hlast ?_
    exact (hclear _ r hr .lowest m).word hlast
  · exact Fragment.Scans.cons (h.scans_opening (hclear _ r hr)) scans_terminator

namespace Tree

variable {α : Type} {st : Style} {first inSetup : Bool} {t : Tree α} {cs vs : List (Tree α)} {a : α}
  {label : Option SymbolId}
variable {position : Position}

/-! ## Plain parts -/

theorem plain_declarationsSpelling (h : ∀ v ∈ vs, v.IsVariable) :
    Plain (declarationsSpelling st inSetup true vs) :=
  (written_declarationsSpelling inSetup true h .nil).plain st.mode

theorem plain_setupSpelling (h : t.IsSetup) : Plain (t.setupSpelling st) :=
  (written_setupSpelling h).plain st.mode

theorem plain_clauseSpelling (h : t.IsClause) : Plain (t.clauseSpelling st) :=
  (written_clauseSpelling h).plain st.mode

theorem plain_headSpelling (h : t.IsHead) : Plain (t.headSpelling st) :=
  (written_headSpelling h).plain st.mode

theorem plain_parameterSpelling (h : ∀ v ∈ vs, v.IsVariable) :
    Plain (parameterSpelling st true vs) :=
  (written_parameterSpelling true h .nil).plain st.mode

theorem plain_testSpelling (h : t.IsExpression) : Plain (t.testSpelling st) := by
  simp [testSpelling, plain_spelling h]

/-! ## Lists of statements -/

theorem scans_listLines
    (h : ∀ c ∈ cs, ∀ depth, Sound value st.mode (c.lines st .line depth)) :
    ∀ m r, Ends (waitsAll st.mode m.semicolon (listLines st depth cs)) r →
      Fragment.Scans value st.mode m (listLines st depth cs) r := by
  induction cs with
  | nil => exact fun m r _ => Fragment.scans_nil
  | cons c cs ih =>
    intro m r hr
    have hc := h c (.head _) depth
    have hwaits : ∀ m : Margin, m.semicolon = false →
        (renderAll st.mode m (c.lines st .line depth)).2.semicolon =
          waitsAll st.mode false (c.lines st .line depth) := by
      intro m hm
      rw [semicolon_renderAll, hm]
    have hpending : (renderAll st.mode m [.piece .pending]).2.semicolon = false := by
      rw [semicolon_renderAll]
      rfl
    rw [listLines, cons_append] at hr ⊢
    rw [waitsAll_cons, waitsAll_append] at hr
    refine Fragment.Scans.cons scans_pending (Fragment.Scans.append
      (hc.reads _ _ hpending fun hw => ?_)
      (ih (fun d hd => h d (.tail _ hd)) _ r ?_))
    · cases cs with
      | nil => exact hr hw
      | cons d ds =>
        refine ⟨';', by decide, ?_⟩
        rw [listLines, cons_append, renderAll_cons, renderAll_piece,
          chars, hwaits _ hpending, if_pos hw]
        rfl
    · rw [hwaits _ hpending]
      exact hr

theorem inner_listLines (h : ∀ c ∈ cs, ∀ depth, Sound value st.mode (c.lines st .line depth)) :
    Inner value st.mode (listLines st depth cs) := by
  intro m r hm hr
  refine scans_listLines h m r ?_
  rw [hm]
  exact ends_brace hr

/-! ## Statements -/

theorem sound_placed {k : Kind} (hk : k.isPlaced)
    (h : ∀ depth, Sound value st.mode ((node a k cs).lines st .line depth)) :
    ∀ position depth, Sound value st.mode ((node a k cs).lines st position depth) := by
  intro position depth
  rw [lines_placed hk]
  split
  · exact h depth
  · exact (h (depth + 1)).spacing rfl

theorem legible_jump {k : Kind} (hk : k = .break label ∨ k = .continue label)
    (h : (node a k cs).Legible st) : ∀ s ∈ label, Text.isIdentifier (st.name s) := by
  rintro s rfl
  rcases hk with rfl | rfl
  · exact (legible_node.mp h).1
  · exact (legible_node.mp h).1

theorem sound_jump {word : String} (hword : Text.isIdentifier word)
    (hlabel : ∀ s ∈ label, Text.isIdentifier (st.name s)) :
    Sound value mode (jump st depth word label) := by
  cases label with
  | none =>
    exact (Sound.terminated (show Plain [.word word] by simp) (atom_word hword).front
      (within_word hword)).spacing rfl
  | some s =>
    have hs := hlabel s rfl
    have hblank : ∀ r, Lexes value " ".toList [] r := fun r => Token.lexes_blanks (by decide)
    refine (Sound.terminated (show Plain [.word word, .text " ", .text (st.name s)] by simp)
      (atom_word hword).front fun m r hr => ?_).spacing rfl
    refine cons (p := .word word) ?_ (cons
      (scans_of_own rfl (hblank []) (hblank _)) (within_text hs _ r hr))
    exact (atom_word hword).reads rfl rfl (isBoundary_cons (by decide)) nofun

theorem sound_ifLines {t a b : Tree α} (ht : t.IsExpression) (hlegible : t.Legible st)
    (ha : ∀ position depth, Sound value st.mode (a.lines st position depth))
    (hb : ∀ position depth, Sound value st.mode (b.lines st position depth)) :
    Sound value st.mode (ifLines st depth [t, a, b]) := by
  have hplain : Plain (.word "if" :: t.testSpelling st) := by simp [plain_testSpelling ht]
  have hword : Text.isIdentifier "if" = true := by decide
  have hfront : Front value st.mode (.word "if" :: t.testSpelling st) := (atom_word hword).front
  have hhead : ∀ m r, Scans value st.mode m (.word "if" :: t.testSpelling st) r := fun m r =>
    scans_parenthesized hword rfl rfl (lexed ht hlegible .lowest false).within
  have helse : ∀ m r, m.semicolon = false →
      Ends (waitsAll st.mode false (ofPieces [.indent depth, .text "else"] ++
        b.lines st .orElse depth)) r → Fragment.Scans value st.mode m
          (ofPieces [.indent depth, .text "else"] ++ b.lines st .orElse depth) r := by
    refine scans_behind (by simp) (fun m r hm hr => ?_) (hb .orElse depth).reads
    refine cons (scans_of_isSpacing rfl) (scans_singleton ?_)
    refine (hb .orElse depth).scans_word (s := "else") (by decide) (.inr rfl) ?_ hr
    exact (semicolon_margin _ _ m).trans hm
  rw [ifLines]
  simp only
  split
  · exact .headed hplain hfront hhead (ha .body depth)
  · rw [append_assoc, append_assoc]
    refine .headed hplain hfront hhead (.pending ?_ helse)
    split
    · exact (ha .line (depth + 1)).braced.spacing rfl
    · exact ha .body depth

theorem closed_handlerLines {o : Option (SymbolId × α × List (Tree α))}
    (ho : (handler a o).Legible st) (h : ∀ p ∈ o, ∀ c ∈ p.2.2, c.Legible st →
      ∀ position depth, Sound value st.mode (c.lines st position depth)) :
    Closed value st.mode ((handler a o).handlerLines st depth) := by
  rcases o with _ | ⟨s, a', cs⟩
  · exact .nil
  · obtain ⟨hs, hbody⟩ := legible_node.mp ho
    have hcs := (legible_node.mp (hbody _ (.head _))).2
    have hinner : Inner value st.mode (listLines st (depth + 1) cs) :=
      inner_listLines fun c hc => h _ rfl c hc (hcs c hc) .line
    have hpieces :
        [.space, .text "catch", .space, .text "(", .text (st.name s), .text ")", .space] =
        .space :: ((.text "catch" :: .space :: (.text "(" :: [.text (st.name s)] ++ [.text ")"])) ++
          [space]) := rfl
    rw [handler, handlerLines, hpieces]
    refine (Closed.ofPieces (by simp) fun m r => ?_).append hinner.closed_block
    exact cons scans_space (append (scans_parenthesized (s := "catch") (by decide)
      rfl rfl (within_text hs)) (scans_singleton scans_space))

theorem closed_finalizerLines {o : Option (List (Tree α))} (ho : (finalizer a o).Legible st)
    (h : ∀ ds ∈ o, ∀ c ∈ ds, c.Legible st →
      ∀ position depth, Sound value st.mode (c.lines st position depth)) :
    Closed value st.mode ((finalizer a o).finalizerLines st depth) := by
  rcases o with _ | cs
  · exact .nil
  · have hcs := (legible_node.mp ho).2
    have hinner : Inner value st.mode (listLines st (depth + 1) cs) :=
      inner_listLines fun c hc => h _ rfl c hc (hcs c hc) .line
    have hblock : Sound value st.mode (block depth (listLines st (depth + 1) cs)) :=
      append_nil (block depth (listLines st (depth + 1) cs)) ▸ hinner.sound_block .nil
    rw [finalizer, finalizerLines]
    exact ((hinner.closed_block.spacing rfl).word (by decide) (hblock.spacing rfl)).spacing rfl

theorem sound (h : t.IsStatement) (ht : t.Legible st) :
    ∀ position depth, Sound value st.mode (t.lines st position depth) := by
  induction h with
  | @block _ cs _ ih =>
    intro position depth
    have hinner : ∀ depth, Inner value st.mode (listLines st depth cs) := fun depth =>
      inner_listLines fun c hc => ih c hc ((legible_node.mp ht).2 c hc) .line
    rw [lines]
    cases position <;> exact ((hinner (depth + 1)).sound_block .newline).spacing rfl
  | @«break» _ label =>
    refine sound_placed rfl fun depth => ?_
    rw [lines]
    exact sound_jump (by decide) (legible_jump (.inl rfl) ht)
  | @«continue» _ label =>
    refine sound_placed rfl fun depth => ?_
    rw [lines]
    exact sound_jump (by decide) (legible_jump (.inr rfl) ht)
  | debugger =>
    refine sound_placed rfl fun depth => ?_
    rw [lines]
    exact (Sound.terminated (show Plain [.word "debugger"] by simp) (atom_word (by decide)).front
      (within_word (by decide))).spacing rfl
  | directive => cases (legible_node.mp ht).1
  | @doWhile a b t _ htest ih =>
    obtain ⟨hb, hlegible⟩ : b.Legible st ∧ t.Legible st := by
      simpa using (legible_node.mp ht).2
    have hplain : ∀ depth, Plain (.indent depth :: .text "while" :: t.testSpelling st) := by
      simp [plain_testSpelling htest]
    have hwithin : ∀ depth,
        Within value st.mode (.indent depth :: .text "while" :: t.testSpelling st) :=
      fun depth m r _ => cons (scans_of_isSpacing rfl) (scans_parenthesized
        (s := "while") (by decide) rfl rfl (lexed htest hlegible .lowest false).within)
    refine sound_placed rfl fun depth => ?_
    have hfragments : (node a .doWhile [b, t]).lines st .line depth =
        .piece (.indent depth) :: .piece (.word "do") :: (b.lines st .body depth ++
          .piece .pending :: (ofPieces (.indent depth :: .text "while" :: t.testSpelling st) ++
            [.piece .terminator])) := by
      simp [lines, keyword, ofPieces]
    rw [hfragments]
    exact (((ih hb .body depth).pending
      (scans_terminated (hplain depth) (hwithin depth))).keyword (by decide)).spacing rfl
  | empty =>
    refine sound_placed rfl fun depth => ?_
    rw [lines]
    refine (Closed.sound (Closed.ofPieces (show Plain [.text ";", .newline] by simp) fun m r => ?_)
      fun m r => ?_).spacing rfl
    · exact cons (scans_closed (q := .semicolon) rfl rfl rfl (by decide))
        (scans_singleton (scans_of_isSpacing rfl))
    · rw [renderAll_ofPieces]
      exact isBoundary_cons (by decide)
  | @expression _ e he =>
    have hlegible := (legible_node.mp ht).2 e (.head _)
    refine sound_placed rfl fun depth => ?_
    rw [lines]
    exact ((lexed he hlegible .lowest false).sound_opening (plain_spelling he _)).spacing rfl
  | @forLoop a s t u b hs htest hu _ ih =>
    obtain ⟨hlegible, hlegible', hlegible'', hb⟩ :
        s.Legible st ∧ t.Legible st ∧ u.Legible st ∧ b.Legible st := by
      simpa using (legible_node.mp ht).2
    have hclauses : Within value st.mode (s.setupSpelling st ++ .text ";" ::
        (t.clauseSpelling st ++ .text ";" :: u.clauseSpelling st)) :=
      (within_setupSpelling hs hlegible).divided (q := .semicolon) rfl (by decide)
        ((within_clauseSpelling htest hlegible').divided (q := .semicolon) rfl (by decide)
          (within_clauseSpelling hu hlegible''))
    refine sound_placed rfl fun depth => ?_
    have hfragments : (node a .forLoop [s, t, u, b]).lines st .line depth =
        .piece (.indent depth) :: (ofPieces (.word "for" :: .space :: (.text "(" ::
          (s.setupSpelling st ++ .text ";" ::
            (t.clauseSpelling st ++ .text ";" :: u.clauseSpelling st)) ++ [.text ")"])) ++
          b.lines st .body depth) := by
      simp [lines, keyword, ofPieces]
    rw [hfragments]
    refine (Sound.headed ?_ (atom_word (by decide)).front
      (fun m r => scans_parenthesized (by decide) rfl rfl hclauses) (ih hb .body depth)).spacing rfl
    simp [plain_setupSpelling hs, plain_clauseSpelling htest, plain_clauseSpelling hu]
  | @forIn a h v b hh hv _ ih =>
    obtain ⟨hlegible, hlegible', hb⟩ : h.Legible st ∧ v.Legible st ∧ b.Legible st := by
      simpa using (legible_node.mp ht).2
    have hclauses : Within value st.mode (h.headSpelling st ++ .word "in" :: .space ::
        v.spelling st .lowest) := by
      intro m r hr
      refine append (scans_headSpelling hh hlegible ?_)
        (within_keyword (by decide) (lexed hv hlegible' .lowest false) _ r hr)
      rw [render_cons, append_assoc]
      exact (divides_word (s := "in") (by decide) : Divides value _ _).clear _ _ _
    refine sound_placed rfl fun depth => ?_
    have hfragments : (node a .forIn [h, v, b]).lines st .line depth =
        .piece (.indent depth) :: (ofPieces (.word "for" :: .space :: (.text "(" ::
          (h.headSpelling st ++ .word "in" :: .space :: v.spelling st .lowest) ++
            [.text ")"])) ++ b.lines st .body depth) := by
      simp [lines, keyword, ofPieces]
    rw [hfragments]
    refine (Sound.headed ?_ (atom_word (by decide)).front
      (fun m r => scans_parenthesized (by decide) rfl rfl hclauses) (ih hb .body depth)).spacing rfl
    simp [plain_headSpelling hh, plain_spelling hv]
  | @function a a' s cs ps _ hps ih =>
    obtain ⟨hs, hall⟩ := legible_node.mp ht
    obtain ⟨hbody, hparameters⟩ := forall_mem_cons.mp hall
    have hinner : ∀ depth, Inner value st.mode (listLines st depth cs) := fun depth =>
      inner_listLines fun c hc => ih c hc ((legible_node.mp hbody).2 c hc) .line
    refine sound_placed rfl fun depth => ?_
    have hfragments : (node a (.function s) (node a' .block cs :: ps)).lines st .line depth =
        .piece (.indent depth) :: (ofPieces (.word "function " :: ([.text (st.name s)] ++
          ((.text "(" :: parameterSpelling st true ps ++ [.text ")"]) ++ [.space]))) ++
            (block depth (listLines st (depth + 1) cs) ++ [.piece .newline])) := by
      simp [lines, keyword, ofPieces]
    rw [hfragments]
    refine (Sound.headed ?_ (front_wordBlank (s := "function") (by decide) rfl) (fun m r => ?_)
      ((hinner _).sound_block .newline)).spacing rfl
    · simp [plain_parameterSpelling hps]
    · refine cons (scans_wordBlank (s := "function") (by decide) rfl rfl)
        (append (within_text hs _ _ fun l m' => ?_)
          (append (scans_enclosed (o := .leftParen) (c := .rightParen) rfl rfl (by decide)
            (by decide) (within_parameterSpelling hps hparameters))
            (scans_singleton scans_space)))
      exact clear_cons (by decide) (by decide)
  | @ifElse _ t a b htest _ _ iha ihb =>
    obtain ⟨hlegible, ha, hb⟩ : t.Legible st ∧ a.Legible st ∧ b.Legible st := by
      simpa using (legible_node.mp ht).2
    have hsound : ∀ depth, Sound value st.mode (ifLines st depth [t, a, b]) :=
      fun depth => sound_ifLines htest hlegible (iha ha) (ihb hb)
    intro position depth
    rw [lines]
    cases position with
    | line => exact (hsound depth).spacing rfl
    | body => exact ((hsound (depth + 1)).spacing rfl).spacing rfl
    | orElse => exact (hsound depth).blank
  | @label _ s b _ ih =>
    obtain ⟨hs, hb⟩ := legible_node.mp ht
    refine sound_placed rfl fun depth => ?_
    rw [lines]
    refine (Sound.headed (show Plain [.word (st.name s), .text ":", .newline] by simp)
      (atom_word hs).front (fun m r => ?_) (ih (hb b (.head _)) .line depth)).spacing rfl
    refine append
      (within_word hs _ _ fun l m' => clear_cons (by decide) (by decide))
      (cons (scans_closed (q := .colon) rfl rfl rfl (by decide))
        (scans_singleton (scans_of_isSpacing rfl)))
  | @«return» _ e he =>
    have hlegible := (legible_node.mp ht).2 e (.head _)
    have hword : Text.isIdentifier "return" := by decide
    refine sound_placed rfl fun depth => ?_
    rw [lines]
    show Sound value st.mode (if e.isUndefined then _ else _)
    split
    · exact (Sound.terminated (show Plain [.word "return"] by simp) (atom_word hword).front
        (within_word hword)).spacing rfl
    · refine (Sound.terminated (?_ : Plain (.word "return" :: .space :: e.spelling st .lowest))
        (atom_word hword).front
        (within_keyword hword (lexed he hlegible .lowest false))).spacing rfl
      simp [plain_spelling he]
  | @throw _ e he =>
    have hlegible := (legible_node.mp ht).2 e (.head _)
    have hword : Text.isIdentifier "throw" := by decide
    refine sound_placed rfl fun depth => ?_
    rw [lines]
    refine (Sound.terminated (?_ : Plain (.word "throw" :: .space :: e.spelling st .lowest))
      (atom_word hword).front (within_keyword hword (lexed he hlegible .lowest false))).spacing rfl
    simp [plain_spelling he]
  | @«try» a a' mh mf cs h f _ _ _ ih ihh ihf =>
    obtain ⟨hbody, hhandler, hfinalizer⟩ : (node a' .block cs).Legible st ∧
        (handler mh h).Legible st ∧ (finalizer mf f).Legible st := by
      simpa using (legible_node.mp ht).2
    have hinner : ∀ depth, Inner value st.mode (listLines st depth cs) := fun depth =>
      inner_listLines fun c hc => ih c hc ((legible_node.mp hbody).2 c hc) .line
    refine sound_placed rfl fun depth => ?_
    have hfragments : (node a .try [node a' .block cs, handler mh h, finalizer mf f]).lines st
        .line depth = .piece (.indent depth) :: .piece (.word "try") :: .piece .space ::
          (block depth (listLines st (depth + 1) cs) ++ ((handler mh h).handlerLines st depth ++
            ((finalizer mf f).finalizerLines st depth ++ [.piece .newline]))) := by
      simp [lines, keyword]
    rw [hfragments]
    exact ((((hinner _).sound_block ((closed_handlerLines hhandler ihh).append
      ((closed_finalizerLines hfinalizer ihf).append .newline))).spacing rfl).keyword
        (by decide)).spacing rfl
  | @varStatement _ vs hvs =>
    have hall := (legible_node.mp ht).2
    refine sound_placed rfl fun depth => ?_
    rw [lines]
    refine (Sound.terminated (?_ : Plain (.word "var " :: declarationsSpelling st false true vs))
      (front_wordBlank (s := "var") (by decide) rfl) fun m r hr => ?_).spacing rfl
    · simp [plain_declarationsSpelling hvs]
    · exact cons (scans_wordBlank (s := "var") (by decide) rfl rfl)
        (within_declarationsSpelling hvs hall _ r hr)
  | @whileLoop _ t b htest _ ih =>
    obtain ⟨hlegible, hb⟩ : t.Legible st ∧ b.Legible st := by
      simpa using (legible_node.mp ht).2
    refine sound_placed rfl fun depth => ?_
    rw [lines]
    refine (Sound.headed (?_ : Plain (.word "while" :: t.testSpelling st))
      (atom_word (by decide)).front (fun m r => ?_) (ih hb .body depth)).spacing rfl
    · simp [plain_testSpelling htest]
    · exact scans_parenthesized (by decide) rfl rfl (lexed htest hlegible .lowest false).within

/-! ## Modules -/

def textTokens (value : List Char → ν) (st : Style) (t : Tree α) : List (Token ν) :=
  tokensAll value st.mode false (listLines st 0 t.children) ++
    if !(t.text st).isEmpty && waitsAll st.mode false (listLines st 0 t.children) then
      [.punct .semicolon]
    else []

theorem text_eq (st : Style) (t : Tree α) : t.text st =
    if (renderAll st.mode .start (listLines st 0 t.children)).1 = [] then []
    else (renderAll st.mode .start (listLines st 0 t.children)).1 ++ match st.mode with
      | .normal => []
      | .minified =>
        (if waitsAll st.mode false (listLines st 0 t.children) then [';'] else []) ++ ['\n'] := by
  have hwaits : (renderAll st.mode .start (listLines st 0 t.children)).2.semicolon =
      waitsAll st.mode false (listLines st 0 t.children) := semicolon_renderAll _
  rw [text, ← hwaits]
  generalize renderAll st.mode .start (listLines st 0 t.children) = rendered
  obtain ⟨cs, margin⟩ := rendered
  cases st.mode <;> cases cs <;> rfl

theorem lex_text (value : List Char → ν) (h : ∀ c ∈ t.children, c.IsStatement)
    (ht : ∀ c ∈ t.children, c.Legible st) :
    Token.lex value (t.text st) = some (t.textTokens value st) := by
  have hreads : ∀ r, Ends (waitsAll st.mode false (listLines st 0 t.children)) r →
      Lexes value (renderAll st.mode .start (listLines st 0 t.children)).1
        (tokensAll value st.mode false (listLines st 0 t.children)) r :=
    scans_listLines (fun c hc => sound (h c hc) (ht c hc) .line) .start
  have hsemicolon : Lexes value [';'] [.punct .semicolon] ['\n'] := lexes_semicolon
  have hblank : ∀ r, Lexes value ['\n'] [] r := fun r => Token.lexes_blanks (by decide)
  rw [textTokens, text_eq]
  generalize renderAll st.mode .start (listLines st 0 t.children) = rendered at hreads ⊢
  by_cases hempty : rendered.1 = []
  · -- In front of a semicolon nothing is read, so there are no tokens.
    have hlex := hreads [';'] fun _ => ⟨';', by decide, rfl⟩
    have hone : Token.lex value [';'] = some [.punct .semicolon] := lexes_semicolon.lex_eq
    rw [hempty, Lexes, nil_append, hone, Option.map_some] at hlex
    have htokens := append_left_eq_self.mp (Option.some.inj hlex).symm
    rw [if_pos hempty, htokens, Token.lex_nil]
    rfl
  · rw [if_neg hempty]
    cases hmode : st.mode with
    | normal =>
      rw [hmode] at hreads
      rw [waitsAll_normal] at hreads ⊢
      rw [append_nil, (hreads [] ends_false).lex_eq, Bool.and_false]
      exact congrArg some (append_nil _).symm
    | minified =>
      have hfilled : ∀ cs, (rendered.1 ++ cs).isEmpty = false := by
        intro cs
        obtain ⟨c, cs', hcs⟩ := exists_cons_of_ne_nil hempty
        rw [hcs]
        rfl
      rw [hmode] at hreads
      simp only [hfilled, Bool.not_false, Bool.true_and]
      cases hwaits : waitsAll .minified false (listLines st 0 t.children) with
      | true =>
        exact (Lexes.append (hreads _ fun _ => ⟨';', by decide, rfl⟩)
          (Lexes.append hsemicolon (hblank []))).lex_eq
      | false =>
        rw [hwaits] at hreads
        exact (Lexes.append (hreads _ ends_false) (hblank [])).lex_eq

end Tree

end ScriptPress

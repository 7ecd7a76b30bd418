import ScriptPress.Proofs.Print.Tokens

/-! # Expressions are cut into their tokens -/

namespace ScriptPress

open List Piece Scans

open Token (Lexes isBoundary continuesWord)

variable {ν : Type} {value : List Char → ν} {mode : Mode} {m : Margin} {l l' l'' k : Level}
variable {p : Piece} {ps qs ps' : List Piece} {t : Token ν} {r : List Char} {s s' : String}
variable {q o c : Punct} {op : UnaryOp}

structure Lexed (value : List Char → ν) (mode : Mode) (l : Level) (ps : List Piece) : Prop where
  filled : l ≠ .lowest → ps ≠ []
  front : ps ≠ [] → Front value mode ps
  reads : ∀ m r, Clear l (render mode m ps).2 r → Scans value mode m ps r

theorem Lexed.of_front (hfront : Front value mode ps)
    (hreads : ∀ m r, Clear l (render mode m ps).2 r → Scans value mode m ps r) :
    Lexed value mode l ps :=
  ⟨fun _ => hfront.ne_nil, fun _ => hfront, hreads⟩

theorem Lexed.front_of_ne (h : Lexed value mode l ps) (hl : l ≠ .lowest) : Front value mode ps :=
  h.front (h.filled hl)

structure Divides (value : List Char → ν) (mode : Mode) (p : Piece) : Prop where
  clear : ∀ l m r, Clear l m (p.chars mode m ++ r)
  reads : ∀ m r, Opens (p.margin mode m) r → p.Scans value mode m r

theorem divides_text (hs : s.toList = q.chars) (hgrowth : q.growth = []) (hq : q ≠ .dot) :
    Divides value mode (.text s) where
  clear l m r := by
    rw [chars, hs]
    exact clear_punct hq
  reads m r _ := scans_closed rfl hs hgrowth hq

theorem divides_between {f : Option Fusable} (hs : s.toList = q.chars) (hq : q ≠ .dot)
    (hgrowth : ∀ c ∈ q.growth, c ∈ ['=', '&', '|', '<', '>', '/', '*'] ∨
      (c = '+' ∧ f = some .plus) ∨ (c = '-' ∧ f = some .minus)) :
    Divides value mode (.between s f) where
  clear l m r := by
    obtain ⟨g, hg, hchars⟩ := chars_eq (p := .between s f) rfl mode m
    rw [hchars, own, hs]
    rcases hg with rfl | rfl
    · exact clear_cons (by decide) (by decide)
    · exact clear_punct hq
  reads m r hr := by
    refine scans_punct rfl hs (hr.endsBefore hq ?_ hgrowth)
    rintro rfl
    have hlast : s.toList.getLast? = some '<' := by
      rw [hs]
      rfl
    exact Margin.last_after hlast

theorem divides_word (hs : Text.isIdentifier s) : Divides value mode (.word s) where
  clear l m r := by
    obtain ⟨⟨c, cs, hcs, hc⟩, -⟩ := Token.isIdentifier_chars hs
    rw [chars]
    rcases m.gapBeforeWord_cases with hgap | ⟨hgap, hlast⟩
    · rw [hgap]
      exact clear_cons (by decide) (by decide)
    · rw [hgap, hcs]
      refine ⟨fun h => absurd h hlast, fun h => ?_⟩
      cases h
      cases hc
  reads m r hr :=
    (atom_word hs).reads rfl rfl ((atom_word hs : Atom value _ _).isBoundary_of_opens hr)
      fun _ => exists_not_isDigit hs

theorem divides_binaryOperator (op : BinaryOp) : Divides value mode (Style.binaryOperator op) := by
  cases hop : op.punct? with
  | none => cases op <;> cases hop <;> exact divides_word (by decide)
  | some q =>
    have hchars : op.text.toList = q.chars := by cases op <;> cases hop <;> rfl
    cases op <;> cases hop <;> exact divides_between hchars (by decide) (by decide)

theorem divides_assignOperator (op : AssignOp) : Divides value mode (.between op.text none) := by
  have hchars : op.text.toList = op.punct.chars := by cases op <;> rfl
  cases op <;> exact divides_between hchars (by decide) (by decide)

theorem Lexed.operation (h : Lexed value mode l' ps) (hl' : l' ≠ .lowest)
    (hp : Divides value mode p) (h' : Lexed value mode l'' ps') (hl'' : l'' ≠ .lowest)
    (hl : l.wraps k = false) : Lexed value mode l (operation ps p ps') := by
  have hpieces : Piece.operation ps p ps' = ps ++ .space :: p :: .space :: ps' := by
    rw [Piece.operation, append_assoc]
    rfl
  rw [hpieces]
  refine .of_front ((h.front_of_ne hl').append _) fun m r hr => ?_
  rw [render_append] at hr
  refine append (h.reads m _ (clear_space ?_)) ?_
  · rw [render_cons, append_assoc]
    exact hp.clear _ _ _
  · refine cons scans_space (cons ?_ (cons scans_space ?_))
    · exact hp.reads _ _ ((h'.front_of_ne hl'').opens_space _ _)
    · exact h'.reads _ r (hr.operand hl)

theorem Lexed.followed (h : Lexed value mode l' ps) (hl' : l' ≠ .lowest)
    (hclear : ∀ m r, Clear l' m ((render mode m qs).1 ++ r))
    (hreads : ∀ m r, Clear l (render mode m qs).2 r → Scans value mode m qs r) :
    Lexed value mode l (ps ++ qs) := by
  refine .of_front ((h.front_of_ne hl').append qs) fun m r hr => ?_
  rw [render_append] at hr
  exact append (h.reads m _ (hclear _ _)) (hreads _ r hr)

theorem Lexed.keyword (hs : Text.isIdentifier s) (h : Lexed value mode l' ps)
    (hl' : l' ≠ .lowest) (hl : ∀ m r, Clear l m r → Clear l' m r) :
    Lexed value mode l (.word s :: .space :: ps) := by
  refine .of_front (atom_word hs).front fun m r hr => ?_
  refine cons ((divides_word hs).reads _ _ ?_)
    (cons scans_space (h.reads _ r (hl _ r hr)))
  exact (h.front_of_ne hl').opens_space _ _

theorem UnaryOp.punct_cases (hop : op.punct? = some q) (c : Option Char) :
    op.text.toList = q.chars ∧ q ≠ .dot ∧ q ≠ .less ∧ q ≠ .leftBrace ∧
      ∀ d ∈ q.growth, d ∈ ['=', '&', '|', '<', '>', '/', '*'] ∨
        (d = '+' ∧ Margin.fusableOf op c = some .plus) ∨
        (d = '-' ∧ Margin.fusableOf op c = some .minus) := by
  cases op <;> cases hop <;>
    exact ⟨rfl, by decide, by decide, by decide, by simp [Punct.growth, Margin.fusableOf]⟩

theorem opens_sign (htrailing : op.isTrailing = false) (hop : op.punct? = some q)
    (hnot : op = .not → m.last = some '<' → ¬ ['-', '-'] <+: r)
    (hnegative : op = .negative → r.head? ≠ some '-') :
    Opens m (m.gapBeforeSign op ++ op.text.toList ++ r) := by
  obtain ⟨last, semicolon, operator⟩ := m
  cases op <;> try cases htrailing
  all_goals try cases hop
  case not =>
      have hchars : Margin.gapBeforeSign ⟨last, semicolon, operator⟩ .not ++
          UnaryOp.not.text.toList ++ r = '!' :: r := by
        rcases operator with _ | _ | _ | _ <;> rfl
      rw [hchars]
      refine ⟨?_, nofun, nofun, fun _ => rfl, fun hlast hcomment => ?_, nofun⟩
      · rintro c ⟨⟩
        decide
      · exact hnot rfl hlast (cons_prefix_cons.mp hcomment).2
  case negative =>
      have hdash : ¬ ['-'] <+: r := by
        rintro ⟨u, rfl⟩
        exact hnegative rfl rfl
      rcases operator with _ | _ | _ | _ <;> constructor <;>
        simp +decide [Margin.gapBeforeSign, UnaryOp.text, isBoundary, continuesWord, hdash]
  all_goals rcases operator with _ | _ | _ | _
  all_goals
    constructor <;>
      simp +decide [Margin.gapBeforeSign, UnaryOp.text, isBoundary, continuesWord]

theorem Lexed.sign (htrailing : op.isTrailing = false) (hop : op.punct? = some q)
    (h : Lexed value mode l' ps) (hl' : l' ≠ .lowest) (hl : l.wraps k = false) :
    Lexed value mode l (.sign op op.text :: ps) := by
  have hfront := h.front_of_ne hl'
  refine .of_front ⟨fun m r => ?_, ?_⟩ fun m r hr => ?_
  · rw [render_cons, chars, append_assoc]
    refine opens_sign htrailing hop ?_ ?_
    · rintro rfl hlast
      refine (hfront.opens _ r).decrement ?_
      show Margin.fusableOf .not m.last = _
      rw [hlast]
      rfl
    · rintro rfl
      exact (hfront.opens _ r).minus rfl
  · obtain ⟨hq, -, -, hbrace, -⟩ := UnaryOp.punct_cases hop none
    refine ⟨.punct q, Token.ofPieces value ps, ?_, fun h => absurd (Token.punct.inj h) hbrace⟩
    rw [Token.ofPieces_cons, ofPiece_punct (p := .sign op op.text) hq]
    rfl
  · obtain ⟨hq, hdot, hless, -, hgrowth⟩ := UnaryOp.punct_cases hop m.last
    refine cons (scans_punct rfl hq ?_) (h.reads _ r (hr.operand hl))
    exact (hfront.opens _ r).endsBefore hdot (fun h => absurd h hless) hgrowth

theorem Lexed.unaryOperator (htrailing : op.isTrailing = false) (h : Lexed value mode l' ps)
    (hl' : l' ≠ .lowest) (hl : l.wraps k = false) :
    Lexed value mode l (Style.unaryOperator op ++ ps) := by
  rw [Style.unaryOperator]
  cases hop : op.punct? with
  | none =>
    have hword : Text.isIdentifier op.text := by
      cases op <;> first | decide | cases hop
    rw [if_pos (UnaryOp.isKeyword_iff.mpr hop)]
    exact h.keyword hword hl' fun m r hr => hr.operand hl
  | some q =>
    have hkeyword : ¬ op.isKeyword := by
      rw [UnaryOp.isKeyword_iff, hop]
      nofun
    rw [if_neg hkeyword]
    exact h.sign htrailing hop hl' hl

theorem Lexed.trailing (hop : op.isTrailing) (h : Lexed value mode l' ps)
    (hl' : l' ≠ .lowest) : Lexed value mode l (ps ++ [.text op.text]) := by
  have htoken : ∃ q : Punct, op.punct? = some q ∧ op.text.toList = q.chars ∧ q.growth = [] ∧
      q ≠ .dot := by
    cases op <;> first | exact ⟨_, rfl, rfl, rfl, by decide⟩ | cases hop
  obtain ⟨q, -, hchars, hgrowth, hq⟩ := htoken
  refine h.followed hl' (fun m r => ?_) fun m r _ =>
    scans_singleton (scans_closed rfl hchars hgrowth hq)
  rw [render_singleton, chars, hchars]
  exact clear_punct hq

def Within (value : List Char → ν) (mode : Mode) (ps : List Piece) : Prop :=
  ∀ m r, (∀ l m', Clear l m' r) → Scans value mode m ps r

theorem Lexed.within (h : Lexed value mode l ps) : Within value mode ps :=
  fun m r hr => h.reads m r (hr _ _)

theorem Within.divided (h : Within value mode ps) (hs : s.toList = q.chars)
    (hq : q.growth = [] ∧ q ≠ .dot) (h' : Within value mode qs) :
    Within value mode (ps ++ .text s :: qs) := by
  intro m r hr
  refine append (h m _ fun l m' => ?_)
    (cons (scans_closed rfl hs hq.1 hq.2) (h' _ r hr))
  rw [render_cons, chars, hs, append_assoc]
  exact clear_punct hq.2

theorem within_nil : Within value mode [] := fun _ _ _ => scans_nil

theorem Within.space (h : Within value mode ps) : Within value mode (.space :: ps) :=
  fun _ r hr => cons scans_space (h _ r hr)

theorem scans_enclosed (hs : s.toList = o.chars) (hs' : s'.toList = c.chars)
    (ho : o.growth = [] ∧ o ≠ .dot) (hc : c.growth = [] ∧ c ≠ .dot) (h : Within value mode ps) :
    Scans value mode m (.text s :: ps ++ [.text s']) r := by
  rw [cons_append]
  refine cons (scans_closed rfl hs ho.1 ho.2) (append (h _ _ ?_) ?_)
  · intro l m'
    rw [render_singleton, chars, hs']
    exact clear_punct hc.2
  · exact scans_singleton (scans_closed rfl hs' hc.1 hc.2)

theorem Lexed.enclosed (h : Lexed value mode l' ps) (hl' : l' ≠ .lowest) (hs : s.toList = o.chars)
    (hs' : s'.toList = c.chars) (ho : o.growth = [] ∧ o ≠ .dot) (hc : c.growth = [] ∧ c ≠ .dot)
    (h' : Within value mode ps') : Lexed value mode l (ps ++ .text s :: ps' ++ [.text s']) := by
  rw [append_assoc]
  refine h.followed hl' (fun m r => ?_) fun m r _ => scans_enclosed hs hs' ho hc h'
  have hopen : ((text s).chars mode m) = o.chars := hs
  rw [cons_append, render_cons, hopen, append_assoc]
  exact clear_punct ho.2

theorem lexed_enclosed (hs : s.toList = o.chars) (hs' : s'.toList = c.chars)
    (ho : o ∈ [.leftParen, .leftBracket, .leftBrace]) (hc : c.growth = [] ∧ c ≠ .dot)
    (h : Within value mode ps) : Lexed value mode l (.text s :: ps ++ [.text s']) := by
  have hopen : o.growth = [] ∧ o ≠ .dot ∧ ∃ d, o.chars = [d] ∧ d ∈ ['"', '(', '[', '\x7b'] ∧
      (o = .leftBrace → d = '\x7b') := by
    rcases mem_cons.mp ho with rfl | ho
    · exact ⟨rfl, by decide, _, rfl, by decide, nofun⟩
    rcases mem_cons.mp ho with rfl | ho
    · exact ⟨rfl, by decide, _, rfl, by decide, nofun⟩
    obtain rfl := mem_singleton.mp ho
    exact ⟨rfl, by decide, _, rfl, by decide, fun _ => rfl⟩
  obtain ⟨hgrowth, hdot, d, hd, hmem, hbrace⟩ := hopen
  have htokens : Token.ofPieces value (.text s :: ps ++ [.text s']) =
      .punct o :: Token.ofPieces value (ps ++ [.text s']) := by
    rw [cons_append, Token.ofPieces_cons, Piece.ofPiece_punct (p := .text s) hs]
    rfl
  refine .of_front ?_ fun m r _ => scans_enclosed hs hs' ⟨hgrowth, hdot⟩ hc h
  exact front_text (hs.trans hd) hmem htokens fun h => hbrace (Token.punct.inj h)

theorem Lexed.parenthesized (h : Lexed value mode l' ps) :
    Lexed value mode l (.text "(" :: ps ++ [.text ")"]) :=
  lexed_enclosed (o := .leftParen) (c := .rightParen) rfl rfl (by decide) (by decide) h.within

theorem lexed_wrapped {wrap : Bool} (hk : Level.lowest.wraps k = false)
    (h : ∀ l, l.wraps k = false → Lexed value mode l ps)
    (hwrap : wrap = false → l.wraps k = false) :
    Lexed value mode l (Piece.wrapped wrap ps) := by
  rw [Piece.wrapped]
  cases wrap with
  | true => exact (h .lowest hk).parenthesized
  | false => exact h l (hwrap rfl)

theorem Lexed.member (hs : Text.isIdentifier s) (h : Lexed value mode .member ps) :
    Lexed value mode l (ps ++ [.text ".", .text s]) := by
  obtain ⟨⟨c, cs, hcs, hc⟩, -⟩ := Token.isIdentifier_chars hs
  refine h.followed (by decide) (fun m r => ⟨fun _ => isBoundary_cons (by decide), fun _ => rfl⟩)
    fun m r hr => ?_
  have hend : isBoundary r := (atom_word hs : Atom value _ _).isBoundary (g := []) hr
  refine Scans.cons (Piece.scans_punct (q := .dot) rfl rfl ?_)
    (scans_singleton ((atom_word hs).reads rfl rfl hend fun _ => exists_not_isDigit hs))
  rw [render_singleton, Piece.chars, hcs]
  refine ⟨fun _ _ => not_mem_nil, fun _ => ?_, (by simp)⟩
  rintro _ ⟨⟩
  by_contra hdigit
  rw [Bool.not_eq_false] at hdigit
  rw [Token.not_isIdentifierStart_of_isDigit hdigit] at hc
  cases hc

theorem Atom.lexed (h : Atom value s t)
    (hl : l.wraps .member → ∃ c ∈ s.toList, c.isDigit = false) :
    Lexed value mode l [.word s] := by
  refine .of_front h.front fun m r hr => ?_
  rw [render_singleton] at hr
  exact scans_singleton (h.reads rfl rfl (h.isBoundary hr) fun hdot => hl (hr.point hdot))

theorem lexed_word (hs : Text.isIdentifier s) : Lexed value mode l [.word s] :=
  (atom_word hs).lexed fun _ => exists_not_isDigit hs

theorem Atom.lexed_apart (h : Atom value s t) : Lexed value mode l [.word s, .text " "] := by
  have hblank : ∀ r, Lexes value " ".toList [] r := fun r => Token.lexes_blanks (by decide)
  refine .of_front h.front fun m r hr => ?_
  refine Scans.cons (h.reads rfl rfl (isBoundary_cons (by decide)) nofun) (scans_singleton ?_)
  exact Piece.scans_of_own rfl (hblank []) (hblank r)

@[simp] theorem ofPiece_quoted (s : String) :
    Token.ofPiece value (.text (Text.quoted s)) = [.string (Text.units s)] :=
  Token.ofPiece_of_lexes (Token.lexes_string s)

theorem lexed_string (s : String) : Lexed value mode l [.text (Text.quoted s)] := by
  have hquoted : (Text.quoted s).toList = '"' :: (s.toList.flatMap Text.escaped ++ ['"']) := by
    rw [Text.quoted, String.toList_ofList]
    rfl
  have htokens : Token.ofPieces value [.text (Text.quoted s)] = [.string (Text.units s)] := by
    rw [Token.ofPieces_cons, ofPiece_quoted, Token.ofPieces_nil, append_nil]
  exact .of_front (front_text hquoted (by decide) htokens (by simp)) fun m r _ =>
    scans_singleton (Piece.scans_of_own rfl (Token.lexes_string s) (Token.lexes_string s))

namespace Atom

theorem lexes_negative (h : Atom value s t) (hr : Token.isBoundary r)
    (hdot : r.head? ≠ some '.') :
    Lexes value (Piece.negative (String.ofList ('-' :: s.toList))).own [.punct .minus, t] r := by
  rw [Piece.own, String.toList_ofList]
  exact h.lexes_behind (q := .minus) (by decide) (by decide) (by decide) hr hdot

theorem ofPiece_negative (h : Atom value s t) :
    Token.ofPiece value (.negative (String.ofList ('-' :: s.toList))) = [.punct .minus, t] :=
  Token.ofPiece_of_lexes (h.lexes_negative rfl nofun)

theorem lexed_negative (h : Atom value s t) (hl : l.wraps .unary = false) :
    Lexed value mode l [.negative (String.ofList ('-' :: s.toList))] := by
  refine .of_front ⟨fun m r => ?_, .punct .minus, [t], ?_, (by simp)⟩ fun m r hr => ?_
  · have hdash : (s.toList ++ r).head? ≠ some '-' := by
      obtain ⟨c, cs, hcs, hc⟩ := h.head
      rw [hcs]
      rintro ⟨⟩
      rcases hc with hc | hc <;> cases hc
    have hsign : Opens m (m.gapBeforeSign .negative ++ ['-'] ++ (s.toList ++ r)) :=
      opens_sign rfl rfl (by simp) fun _ => hdash
    rw [render_singleton, Piece.chars, String.toList_ofList]
    rwa [append_assoc] at hsign ⊢
  · rw [Token.ofPieces_cons, h.ofPiece_negative, Token.ofPieces_nil, append_nil]
  · have hr' : Clear l (m.after (m.gapBeforeSign .negative ++ ['-'] ++ s.toList)) r := by
      rw [render_singleton, Piece.margin_negative, String.toList_ofList] at hr
      rw [append_assoc]
      exact hr
    exact scans_singleton (Piece.scans_of_own rfl (h.lexes_negative rfl (by simp))
      (h.lexes_negative (h.isBoundary hr') (hr'.no_point hl)))

end Atom

theorem lexes_parenMinus (hr : Punct.minus.EndsBefore r) :
    Lexes value "(-".toList [.punct .leftParen, .punct .minus] r :=
  Lexes.append (Token.lexes_punct (Punct.endsBefore .leftParen rfl (by decide) _))
    (Token.lexes_punct hr)

@[simp] theorem ofPiece_parenMinus :
    Token.ofPiece value (.text "(-") = [.punct .leftParen, .punct .minus] :=
  Token.ofPiece_of_lexes (lexes_parenMinus (Punct.endsBefore_nil _))

theorem Atom.lexed_negativeParenthesized (h : Atom value s t) :
    Lexed value mode l [.text "(-", .text s, .text ")"] := by
  have htokens : Token.ofPieces value [.text "(-", .text s, .text ")"] =
      .punct .leftParen :: .punct .minus :: Token.ofPieces value [.text s, .text ")"] := by
    rw [Token.ofPieces_cons, ofPiece_parenMinus]
    rfl
  refine .of_front (front_text (c := '(') rfl (by decide) htokens nofun) fun m r _ => ?_
  refine Scans.cons (Piece.scans_of_own rfl (lexes_parenMinus (Punct.endsBefore_nil _))
    (lexes_parenMinus ?_)) (Scans.cons ?_
      (scans_singleton (Piece.scans_closed (q := .rightParen) rfl rfl rfl (by decide))))
  · rw [render_cons, append_assoc]
    exact h.endsBefore (by decide) (by decide) (by decide)
  · exact h.reads rfl rfl (isBoundary_cons (by decide)) nofun

theorem lexes_truth (h : Atom value s t) (hs : s'.toList = '!' :: s.toList)
    (hr : isBoundary r) (hdot : r.head? ≠ some '.') :
    Lexes value (Piece.text s').own [.punct .bang, t] r := by
  rw [Piece.own, hs]
  exact h.lexes_behind (q := .bang) (by decide) (by decide) (by decide) hr hdot

theorem ofPiece_truth (h : Atom value s t) (hs : s'.toList = '!' :: s.toList) :
    Token.ofPiece value (.text s') = [.punct .bang, t] :=
  Token.ofPiece_of_lexes (lexes_truth h hs rfl nofun)

theorem lexed_truth (h : Atom value s t) (hs : s'.toList = '!' :: s.toList)
    (hl : l.wraps .unary = false) : Lexed value mode l [.text s'] := by
  refine .of_front ⟨fun m r => ?_, .punct .bang, [t], ?_, (by simp)⟩ fun m r hr => ?_
  · have hdash : ¬ ['-', '-'] <+: s.toList ++ r := by
      obtain ⟨c, cs, hcs, hc⟩ := h.head
      rw [hcs]
      intro hdash
      obtain rfl := (cons_prefix_cons.mp hdash).1
      rcases hc with hc | hc <;> cases hc
    have hgap : m.gapBeforeSign .not = [] := by
      rw [Margin.gapBeforeSign]
      all_goals simp
    have hsign : Opens m (m.gapBeforeSign .not ++ ['!'] ++ (s.toList ++ r)) :=
      opens_sign rfl rfl (fun _ _ => hdash) (by simp)
    rw [hgap] at hsign
    rw [render_singleton, Piece.chars, hs]
    exact hsign
  · rw [Token.ofPieces_cons, ofPiece_truth h hs, Token.ofPieces_nil, append_nil]
  · have hr' : Clear l (m.after (['!'] ++ s.toList)) r := by
      rw [render_singleton, Piece.margin_text, hs] at hr
      exact hr
    exact scans_singleton (Piece.scans_of_own rfl (lexes_truth h hs rfl (by simp))
      (lexes_truth h hs (h.isBoundary hr') (hr'.no_point hl)))

theorem lexes_void (h : Atom value "0" t) (hr : isBoundary r) (hdot : r.head? ≠ some '.') :
    Lexes value "void 0".toList [.word "void", t] r := by
  have hblank : isBoundary ([' '] ++ "0".toList ++ r) := isBoundary_cons (by decide)
  have hword : Lexes value "void".toList [.word "void"] ([' '] ++ "0".toList ++ r) :=
    Token.lexes_word (by decide) hblank
  have hnumber : Lexes value ([' '] ++ "0".toList) ([] ++ [t]) r :=
    Lexes.append (Token.lexes_blanks (by decide)) (h.lexes r hr fun h => absurd h hdot)
  exact Lexes.append hword hnumber

theorem ofPiece_void (h : Atom value "0" t) :
    Token.ofPiece value (.word "void 0") = [.word "void", t] :=
  Token.ofPiece_of_lexes (lexes_void h rfl nofun)

theorem lexed_void (h : Atom value "0" t) (hl : l.wraps .unary = false) :
    Lexed value mode l [.word "void 0"] := by
  have htokens : Token.ofPieces value [.word "void 0"] = [.word "void", t] := by
    rw [Token.ofPieces_cons, ofPiece_void h, Token.ofPieces_nil, append_nil]
  refine .of_front (front_word (c := 'v') rfl (.inl (by decide)) htokens nofun) fun m r hr => ?_
  have hr' : Clear l (m.after (m.gapBeforeWord ++ "void ".toList ++ "0".toList)) r := by
    rw [append_assoc]
    rw [render_singleton] at hr
    exact hr
  exact scans_singleton (Piece.scans_of_own rfl (lexes_void h rfl nofun)
    (lexes_void h (h.isBoundary hr') (hr'.no_point hl)))

theorem lexes_voidParenthesized (h : Atom value "0" t) : Lexes value "(void 0)".toList
    [.punct .leftParen, .word "void", t, .punct .rightParen] r :=
  Lexes.append (Token.lexes_punct (Punct.endsBefore .leftParen rfl (by decide) _))
    (Lexes.append (lexes_void h (r := ')' :: r) (isBoundary_cons (by decide)) nofun)
      (Token.lexes_punct (Punct.endsBefore .rightParen rfl (by decide) r)))

theorem ofPiece_voidParenthesized (h : Atom value "0" t) : Token.ofPiece value (.text "(void 0)") =
      [.punct .leftParen, .word "void", t, .punct .rightParen] :=
  Token.ofPiece_of_lexes (lexes_voidParenthesized h)

theorem lexed_voidParenthesized (h : Atom value "0" t) : Lexed value mode l [.text "(void 0)"] := by
  have htokens : Token.ofPieces value [.text "(void 0)"] =
      [.punct .leftParen, .word "void", t, .punct .rightParen] := by
    rw [Token.ofPieces_cons, ofPiece_voidParenthesized h, Token.ofPieces_nil, append_nil]
  exact .of_front (front_text (c := '(') rfl (by decide) htokens nofun) fun m r _ =>
    scans_singleton (scans_of_own rfl (lexes_voidParenthesized h) (lexes_voidParenthesized h))

end ScriptPress

import ScriptPress.Print.Expression
import ScriptPress.Proofs.Grammar.Scan

/-! # The tokens of pieces -/

namespace ScriptPress

open List Token Option Text

open Token (Lexes isBoundary continuesWord)

variable {ν : Type} {value : List Char → ν} {mode : Mode} {m m' : Margin} {l l' k : Level}
  {g : List Char}
variable {p : Piece} {ps qs : List Piece} {t : Token ν} {ts ts' : List (Token ν)}
variable {c : Char} {cs r : List Char} {s : String} {q : Punct}

/-! ## Levels -/

namespace Level

theorem wraps_eq_false : l.wraps k = false ↔ l.rank < k.rank := by
  rw [wraps, decide_eq_false_iff_not, Nat.not_le]

theorem rank_looser (l : Level) : l.looser.rank = l.rank - 1 := by
  cases l <;> rfl

theorem wraps_member_eq_false (h : l.wraps k = false) : l.wraps .member = false := by
  rw [wraps_eq_false] at h ⊢
  have hk : k.rank ≤ Level.member.rank := by cases k <;> decide
  omega

end Level

/-! ## Rendering -/

theorem render_cons : render mode m (p :: ps) =
    (p.chars mode m ++ (render mode (p.margin mode m) ps).1,
      (render mode (p.margin mode m) ps).2) := rfl

@[simp] theorem render_singleton : render mode m [p] = (p.chars mode m, p.margin mode m) := by
  rw [render_cons, render, append_nil]

theorem render_append : render mode m (ps ++ qs) =
    ((render mode m ps).1 ++ (render mode (render mode m ps).2 qs).1,
      (render mode (render mode m ps).2 qs).2) := by
  induction ps generalizing m with
  | nil => rfl
  | cons p ps ih => rw [cons_append, render_cons, ih, render_cons, append_assoc]

namespace Piece

def own : Piece → List Char
  | text s | word s | sign _ s | negative s | between s _ | regExp s => s.toList
  | _ => []

def isWritten : Piece → Bool
  | text _ | word _ | sign _ _ | negative _ | between _ _ | regExp _ => true
  | _ => false

theorem margin_text : (text s).margin mode m = m.after s.toList := rfl

theorem margin_negative :
    (negative s).margin mode m = m.after (m.gapBeforeSign .negative ++ s.toList) := rfl

def isSpacing : Piece → Bool
  | space | newline | indent _ => true
  | _ => false

end Piece

namespace Margin

theorem gapBeforeWord_cases (m : Margin) : m.gapBeforeWord = [' '] ∨
      m.gapBeforeWord = [] ∧ ¬ m.last.any isIdentifierPart := by
  rw [gapBeforeWord]
  by_cases hgap : m.last.any fun c => isIdentifierPart c || 0x80 ≤ c.toNat
  · exact .inl (if_pos hgap)
  · refine .inr ⟨if_neg hgap, fun hlast => ?_⟩
    cases hd : m.last with
    | none =>
      rw [hd] at hlast
      cases hlast
    | some d =>
      rw [hd, any_some] at hlast hgap
      rw [hlast, Bool.true_or] at hgap
      exact hgap rfl

theorem gapBeforeSign_cases (m : Margin) (op : UnaryOp) :
    m.gapBeforeSign op = [' '] ∨ m.gapBeforeSign op = [] := by
  unfold gapBeforeSign
  split <;> first | exact .inl rfl | exact .inr rfl

theorem gapBeforeSlash_cases (m : Margin) : m.gapBeforeSlash = [' '] ∨ m.gapBeforeSlash = [] := by
  rw [gapBeforeSlash]
  split
  · exact .inl rfl
  · exact .inr rfl

theorem last_after (h : cs.getLast? = some c) : (m.after (g ++ cs)).last = some c := by
  have hlast : (g ++ cs).getLast? = some c := by
    rw [getLast?_append, h, some_or]
  rw [after, hlast]

end Margin

theorem Piece.chars_eq (h : p.isWritten) (mode : Mode) (m : Margin) :
    ∃ g, (g = [' '] ∨ g = []) ∧ p.chars mode m = g ++ p.own := by
  cases p <;> try cases h
  case text s => exact ⟨[], .inr rfl, rfl⟩
  case word s => exact ⟨_, m.gapBeforeWord_cases.imp_right And.left, rfl⟩
  case sign op s => exact ⟨_, m.gapBeforeSign_cases op, rfl⟩
  case negative s => exact ⟨_, m.gapBeforeSign_cases .negative, rfl⟩
  case between s f =>
    refine ⟨_, ?_, rfl⟩
    split
    · exact m.gapBeforeSlash_cases
    · exact .inr rfl
  case regExp s => exact ⟨_, m.gapBeforeSlash_cases, rfl⟩

theorem Piece.mem_chars_of_isSpacing (h : p.isSpacing) :
    ∀ c ∈ p.chars mode m, c ∈ [' ', '\n'] := by
  cases p with
  | space | newline => cases mode <;> simp [chars]
  | indent depth =>
    cases mode with
    | normal =>
      intro c hc
      rw [eq_of_mem_replicate hc]
      decide
    | minified => exact nofun
  | _ => cases h

/-! ## Tokens -/

def Token.ofPiece (value : List Char → ν) (p : Piece) : List (Token ν) :=
  (lex value p.own).getD []

def Token.ofPieces (value : List Char → ν) (ps : List Piece) : List (Token ν) :=
  ps.flatMap (ofPiece value)

namespace Token

@[simp] theorem ofPieces_nil : ofPieces value [] = [] := rfl

@[simp] theorem ofPieces_cons :
    ofPieces value (p :: ps) = ofPiece value p ++ ofPieces value ps := rfl

@[simp] theorem ofPieces_append :
    ofPieces value (ps ++ qs) = ofPieces value ps ++ ofPieces value qs := flatMap_append

theorem ofPiece_of_lexes (h : Lexes value p.own ts []) : ofPiece value p = ts := by
  rw [ofPiece, h.lex_eq, getD_some]

theorem ofPiece_of_own (h : p.own = []) : ofPiece value p = [] := by
  rw [ofPiece, h, lex_nil, getD_some]

@[simp] theorem ofPiece_space : ofPiece value .space = [] := ofPiece_of_own rfl

@[simp] theorem ofPiece_newline : ofPiece value .newline = [] := ofPiece_of_own rfl

@[simp] theorem ofPiece_indent (depth : Nat) : ofPiece value (.indent depth) = [] :=
  ofPiece_of_own rfl

end Token

def Piece.Scans (value : List Char → ν) (mode : Mode) (m : Margin) (p : Piece) (r : List Char) :
    Prop :=
  Lexes value (p.chars mode m) (ofPiece value p) r

def Scans (value : List Char → ν) (mode : Mode) (m : Margin) (ps : List Piece) (r : List Char) :
    Prop :=
  Lexes value (render mode m ps).1 (ofPieces value ps) r

theorem scans_nil : Scans value mode m [] r := lexes_nil

theorem Scans.append (h : Scans value mode m ps ((render mode (render mode m ps).2 qs).1 ++ r))
    (h' : Scans value mode (render mode m ps).2 qs r) : Scans value mode m (ps ++ qs) r := by
  rw [Scans, render_append, ofPieces_append]
  exact Lexes.append h h'

theorem Scans.cons (h : p.Scans value mode m ((render mode (p.margin mode m) qs).1 ++ r))
    (h' : Scans value mode (p.margin mode m) qs r) : Scans value mode m (p :: qs) r :=
  Lexes.append h h'

theorem scans_singleton (h : p.Scans value mode m r) : Scans value mode m [p] r := by
  rw [Scans, render_singleton, ofPieces_cons, ofPieces_nil, append_nil]
  exact h

namespace Piece

theorem scans_of_isSpacing (h : p.isSpacing) : p.Scans value mode m r := by
  have hown : p.own = [] := by
    cases p <;> first | rfl | cases h
  have hblank : ∀ c ∈ [' ', '\n'], isBlank c := by decide
  rw [Scans, ofPiece_of_own hown]
  exact lexes_blanks fun c hc => hblank c (mem_chars_of_isSpacing h c hc)

theorem scans_space : Piece.space.Scans value mode m r := scans_of_isSpacing rfl

theorem scans_of_own (hp : p.isWritten) (hend : Lexes value p.own ts [])
    (h : Lexes value p.own ts r) : p.Scans value mode m r := by
  obtain ⟨g, hg, hchars⟩ := chars_eq hp mode m
  have hgap : Lexes value g [] (p.own ++ r) :=
    lexes_blanks (by rcases hg with rfl | rfl <;> decide)
  rw [Scans, hchars, ofPiece_of_lexes hend]
  exact Lexes.append hgap h

end Piece

/-! ## Punctuators -/

theorem Punct.endsBefore_nil (p : Punct) : p.EndsBefore [] := ⟨nofun, nofun, fun _ => by decide⟩

namespace Piece

variable {q : Punct}

theorem lexes_own_punct (hs : p.own = q.chars) (h : q.EndsBefore r) :
    Lexes value p.own [.punct q] r := hs ▸ lexes_punct h

theorem ofPiece_punct (hs : p.own = q.chars) : ofPiece value p = [.punct q] :=
  ofPiece_of_lexes (lexes_own_punct hs q.endsBefore_nil)

theorem scans_punct (hp : p.isWritten) (hs : p.own = q.chars) (h : q.EndsBefore r) :
    p.Scans value mode m r :=
  scans_of_own hp (lexes_own_punct hs q.endsBefore_nil) (lexes_own_punct hs h)

theorem scans_closed (hp : p.isWritten) (hs : p.own = q.chars) (hgrowth : q.growth = [])
    (hdot : q ≠ .dot) : p.Scans value mode m r :=
  scans_punct hp hs (q.endsBefore hgrowth hdot r)

end Piece

/-! ## Tokens of operators -/

def BinaryOp.punct? : BinaryOp → Option Punct
  | add => some .plus
  | bitwiseAnd => some .and
  | bitwiseOr => some .or
  | bitwiseXor => some .xor
  | divide => some .slash
  | equal => some .equal
  | equalStrict => some .equalStrict
  | greaterThan => some .greater
  | greaterThanEqual => some .greaterEqual
  | .in | instanceOf => none
  | lessThan => some .less
  | lessThanEqual => some .lessEqual
  | logicalAnd => some .andAnd
  | logicalOr => some .orOr
  | multiply => some .star
  | notEqual => some .notEqual
  | notEqualStrict => some .notEqualStrict
  | remainder => some .percent
  | shiftLeft => some .shiftLeft
  | shiftRight => some .shiftRight
  | shiftRightUnsigned => some .shiftRightUnsigned
  | subtract => some .minus

def AssignOp.punct : AssignOp → Punct
  | assign => .assign
  | add => .plusAssign
  | bitwiseAnd => .andAssign
  | bitwiseOr => .orAssign
  | bitwiseXor => .xorAssign
  | divide => .slashAssign
  | multiply => .starAssign
  | remainder => .percentAssign
  | shiftLeft => .shiftLeftAssign
  | shiftRight => .shiftRightAssign
  | shiftRightUnsigned => .shiftRightUnsignedAssign
  | subtract => .minusAssign

def UnaryOp.punct? : UnaryOp → Option Punct
  | complement => some .tilde
  | delete | typeOf | void => none
  | negative => some .minus
  | not => some .bang
  | positive => some .plus
  | decrementAfter | decrementBefore => some .decrement
  | incrementAfter | incrementBefore => some .increment

def BinaryOp.token (op : BinaryOp) : Token ν := (op.punct?.map .punct).getD (.word op.text)

def UnaryOp.token (op : UnaryOp) : Token ν := (op.punct?.map .punct).getD (.word op.text)

theorem UnaryOp.isKeyword_iff {op : UnaryOp} : op.isKeyword ↔ op.punct? = none := by
  cases op <;> decide

/-! ## What may follow an expression -/

structure Clear (l : Level) (m : Margin) (r : List Char) : Prop where
  word : m.last.any isIdentifierPart → isBoundary r
  point : r.head? = some '.' → l.wraps .member

theorem isBoundary_cons (hc : continuesWord c = false) : isBoundary (c :: r) := by
  rw [isBoundary, head?_cons, any_some, hc]
  rfl

theorem clear_nil : Clear l m [] := ⟨fun _ => rfl, nofun⟩

theorem clear_cons (hc : continuesWord c = false) (hdot : c ≠ '.') : Clear l m (c :: r) where
  word _ := isBoundary_cons hc
  point h := absurd (some.inj h) hdot

theorem Punct.chars_cons (p : Punct) :
    ∃ c cs, p.chars = c :: cs ∧ continuesWord c = false ∧ (c = '.' → p = .dot) := by
  cases p <;> exact ⟨_, _, rfl, by decide, by decide⟩

theorem clear_punct (hq : q ≠ .dot) : Clear l m (q.chars ++ r) := by
  obtain ⟨c, cs, hcs, hc, hdot⟩ := q.chars_cons
  rw [hcs, cons_append]
  exact clear_cons hc fun h => hq (hdot h)

theorem clear_space (h : Clear l m ((render mode m' ps).1 ++ r)) :
    Clear l m ((render mode m' (.space :: ps)).1 ++ r) := by
  cases mode with
  | normal => exact clear_cons (by decide) (by decide)
  | minified => exact h

theorem Clear.no_point (h : Clear l m r) (hl : l.wraps k = false) : r.head? ≠ some '.' := by
  intro hdot
  have hmember := h.point hdot
  rw [Level.wraps_member_eq_false hl] at hmember
  cases hmember

theorem Clear.operand (h : Clear l m r) (hl : l.wraps k = false) : Clear l' m r where
  word := h.word
  point hdot := absurd hdot (h.no_point hl)

theorem Clear.isBoundary (h : Clear l m r) (hlast : m.last = some c)
    (hc : isIdentifierPart c) : isBoundary r :=
  h.word (by rw [hlast]; exact hc)

/-! ## How expressions begin -/

structure Opens (m : Margin) (cs : List Char) : Prop where
  operator : ∀ c ∈ cs.head?, c ∉ ['=', '&', '|', '<', '>', '/', '*']
  plus : m.operator = some .plus → cs.head? ≠ some '+'
  minus : m.operator = some .minus → cs.head? ≠ some '-'
  word : m.last.any isIdentifierPart → isBoundary cs
  comment : m.last = some '<' → ¬ ['!', '-', '-'] <+: cs
  decrement : m.operator = some .lessNot → ¬ ['-', '-'] <+: cs

theorem opens_cons (h : c ∉ ['=', '&', '|', '<', '>', '/', '*', '+', '-', '!'])
    (hword : m.last.any isIdentifierPart → continuesWord c = false) :
    Opens m (c :: cs) := by
  have hne : ∀ d ∈ ['=', '&', '|', '<', '>', '/', '*', '+', '-', '!'], c ≠ d := by
    rintro d hd rfl
    exact h hd
  refine ⟨?_, fun _ e => ?_, fun _ e => ?_, fun h => isBoundary_cons (hword h), fun _ e => ?_,
    fun _ e => ?_⟩
  · rintro d ⟨⟩ hd
    exact h (mem_append_left ['+', '-', '!'] hd)
  · exact hne '+' (by decide) (some.inj e)
  · exact hne '-' (by decide) (some.inj e)
  · exact hne '!' (by decide) (cons_prefix_cons.mp e).1.symm
  · exact hne '-' (by decide) (cons_prefix_cons.mp e).1.symm

theorem opens_blank : Opens m (' ' :: cs) := opens_cons (by decide) fun _ => rfl

theorem Opens.endsBefore (h : Opens m r) (hq : q ≠ .dot) (hless : q = .less → m.last = some '<')
    (hgrowth : ∀ c ∈ q.growth, c ∈ ['=', '&', '|', '<', '>', '/', '*'] ∨
      (c = '+' ∧ m.operator = some .plus) ∨ (c = '-' ∧ m.operator = some .minus)) :
    q.EndsBefore r where
  growth := by
    intro c hc hmem
    rcases hgrowth c hmem with h' | ⟨rfl, hf⟩ | ⟨rfl, hf⟩
    · exact h.operator c hc h'
    · exact h.plus hf hc
    · exact h.minus hf hc
  digit h' := absurd h' hq
  comment h' := h.comment (hless h')

structure Front (value : List Char → ν) (mode : Mode) (ps : List Piece) : Prop where
  opens : ∀ m r, Opens m ((render mode m ps).1 ++ r)
  brace : ∃ t ts, ofPieces value ps = t :: ts ∧
    (t = .punct .leftBrace → ∀ m, (render mode m ps).1.head? = some '\x7b')

theorem Front.ne_nil (h : Front value mode ps) : ps ≠ [] := by
  rintro rfl
  obtain ⟨t, ts, hts, -⟩ := h.brace
  cases hts

theorem Front.append (h : Front value mode ps) (qs : List Piece) : Front value mode (ps ++ qs) where
  opens m r := by
    rw [render_append, append_assoc]
    exact h.opens m _
  brace := by
    obtain ⟨t, ts, hts, hbrace⟩ := h.brace
    refine ⟨t, ts ++ ofPieces value qs, ?_, fun ht m => ?_⟩
    · rw [ofPieces_append, hts, cons_append]
    · rw [render_append, head?_append, hbrace ht m, some_or]

theorem Front.opens_space (h : Front value mode ps) (m : Margin) (r : List Char) :
    Opens m ((render mode m (.space :: ps)).1 ++ r) := by
  cases mode with
  | normal => exact opens_blank
  | minified => exact h.opens m r

theorem front_text (hs : s.toList = c :: cs) (hc : c ∈ ['"', '(', '[', '\x7b'])
    (ht : Token.ofPieces value (.text s :: ps) = t :: ts)
    (hbrace : t = .punct .leftBrace → c = '\x7b') : Front value mode (.text s :: ps) where
  opens m r := by
    have hopens : ∀ c ∈ ['"', '(', '[', '\x7b'],
        c ∉ ['=', '&', '|', '<', '>', '/', '*', '+', '-', '!'] ∧ continuesWord c = false := by
      decide
    obtain ⟨hne, hword⟩ := hopens c hc
    rw [render_cons, Piece.chars, hs]
    exact opens_cons hne fun _ => hword
  brace := by
    refine ⟨t, ts, ht, fun h m => ?_⟩
    rw [render_cons, Piece.chars, hs, cons_append, head?_cons, hbrace h]

theorem front_word (hs : s.toList = c :: cs) (hc : isIdentifierPart c ∨ c = '.')
    (ht : ofPieces value (.word s :: ps) = t :: ts) (hbrace : t ≠ .punct .leftBrace) :
    Front value mode (.word s :: ps) where
  opens m r := by
    have hopens : ∀ c ∈ ['=', '&', '|', '<', '>', '/', '*', '+', '-', '!'],
        isIdentifierPart c = false ∧ c ≠ '.' := by
      decide
    have hne : c ∉ ['=', '&', '|', '<', '>', '/', '*', '+', '-', '!'] := by
      intro hmem
      obtain ⟨hpart, hpoint⟩ := hopens c hmem
      rw [hpart] at hc
      exact hc.elim nofun hpoint
    rw [render_cons, Piece.chars]
    rcases m.gapBeforeWord_cases with hgap | ⟨hgap, hlast⟩
    · rw [hgap]
      exact opens_blank
    · rw [hgap, hs]
      exact opens_cons hne fun h => absurd h hlast
  brace := ⟨t, ts, ht, fun h => absurd h hbrace⟩

/-! ## Words and numbers -/

structure Atom (value : List Char → ν) (s : String) (t : Token ν) : Prop where
  head : ∃ c cs, s.toList = c :: cs ∧ (isIdentifierPart c ∨ c = '.')
  last : ∃ c, s.toList.getLast? = some c ∧ isIdentifierPart c
  lexes : ∀ r, isBoundary r → (r.head? = some '.' → ∃ c ∈ s.toList, c.isDigit = false) →
    Lexes value s.toList [t] r
  ne_brace : t ≠ .punct .leftBrace

theorem atom_word (h : isIdentifier s) : Atom value s (.word s) := by
  obtain ⟨⟨c, cs, hcs, hc⟩, hlast⟩ := isIdentifier_chars h
  exact ⟨⟨c, cs, hcs, .inl (isIdentifierPart_of_isIdentifierStart hc)⟩, hlast,
    fun r hr _ => lexes_word h hr, nofun⟩

theorem exists_not_isDigit (h : isIdentifier s) : ∃ c ∈ s.toList, c.isDigit = false := by
  obtain ⟨⟨c, cs, hcs, hc⟩, -⟩ := isIdentifier_chars h
  refine ⟨c, hcs ▸ mem_cons_self, ?_⟩
  by_contra hdigit
  rw [Bool.not_eq_false] at hdigit
  rw [not_isIdentifierStart_of_isDigit hdigit] at hc
  cases hc

theorem atom_number (h : IsNumeral s.toList)
    (hlast : ∃ c, s.toList.getLast? = some c ∧ c.isDigit) :
    Atom value s (.number (value s.toList)) := by
  obtain ⟨c, cs, hcs, hc⟩ := h.head
  obtain ⟨d, hd, hdigit⟩ := hlast
  exact ⟨⟨c, cs, hcs, hc.imp_left isIdentifierPart_of_isDigit⟩,
    ⟨d, hd, isIdentifierPart_of_isDigit hdigit⟩, fun r hr hdot => lexes_number h hr hdot,
    nofun⟩

namespace Atom

theorem lexes_nil (h : Atom value s t) : Lexes value s.toList [t] [] := h.lexes [] rfl nofun

theorem ofPiece (h : Atom value s t) (hp : p.own = s.toList) : ofPiece value p = [t] :=
  ofPiece_of_lexes (hp ▸ h.lexes_nil)

theorem reads (h : Atom value s t) (hw : p.isWritten) (hp : p.own = s.toList)
    (hr : isBoundary r) (hdot : r.head? = some '.' → ∃ c ∈ s.toList, c.isDigit = false) :
    p.Scans value mode m r :=
  Piece.scans_of_own hw (hp ▸ h.lexes_nil) (hp ▸ h.lexes r hr hdot)

theorem front (h : Atom value s t) : Front value mode (.word s :: ps) := by
  obtain ⟨c, cs, hcs, hc⟩ := h.head
  have htokens : ofPieces value (.word s :: ps) = t :: ofPieces value ps := by
    rw [ofPieces_cons, h.ofPiece rfl, singleton_append]
  exact front_word hcs hc htokens h.ne_brace

theorem isBoundary (h : Atom value s t) (hr : Clear l (m.after (g ++ s.toList)) r) :
    isBoundary r := by
  obtain ⟨c, hc, hpart⟩ := h.last
  exact hr.isBoundary (Margin.last_after hc) hpart

theorem isBoundary_of_opens (h : Atom value s t) (hr : Opens (m.after (g ++ s.toList)) r) :
    Token.isBoundary r := by
  obtain ⟨c, hc, hpart⟩ := h.last
  refine hr.word ?_
  rw [Margin.last_after hc]
  exact hpart

theorem endsBefore (h : Atom value s t) (hq : q ≠ .dot) (hless : q ≠ .less)
    (hgrowth : ∀ c ∈ q.growth, isIdentifierPart c = false ∧ c ≠ '.') :
    q.EndsBefore (s.toList ++ r) := by
  obtain ⟨c, cs, hcs, hc⟩ := h.head
  refine ⟨?_, fun h => absurd h hq, fun h => absurd h hless⟩
  rw [hcs]
  rintro _ ⟨⟩ hmem
  obtain ⟨hpart, hpoint⟩ := hgrowth c hmem
  rw [hpart] at hc
  exact hc.elim nofun hpoint

theorem lexes_behind (h : Atom value s t) (hq : q ≠ .dot) (hless : q ≠ .less)
    (hgrowth : ∀ c ∈ q.growth, isIdentifierPart c = false ∧ c ≠ '.')
    (hr : Token.isBoundary r) (hdot : r.head? ≠ some '.') :
    Lexes value (q.chars ++ s.toList) [.punct q, t] r :=
  Lexes.append (lexes_punct (h.endsBefore hq hless hgrowth))
    (h.lexes r hr fun h => absurd h hdot)

end Atom

end ScriptPress

import ScriptPress.Proofs.Print.Text

/-! # Directive prologues -/

namespace ScriptPress

open List Fragment

open Fragment (ofPieces keyword braced block renderAll renderOpening waitsAll)

/-! ## Reading a prologue -/

namespace Prologue

def isQuote (c : Char) : Bool := c = '"' || c = '\''

/-- Where a reader stands between two quotes. -/
inductive Inside where
  | plain
  | escape
  | fold
deriving DecidableEq

/-- Goes over a character between two quotes, unless it is the closing quote or a line end. -/
def Inside.next? (quote : Char) : Inside → Char → Option Inside
  | escape, c => some (if c = '\r' then fold else plain)
  | i, c =>
    if i = fold && c = '\n' then some plain
    else if c = quote || c = '\n' || c = '\r' then none
    else some (if c = '\\' then escape else plain)

def fits (quote : Char) : Inside → List Char → Bool
  | i, [] => i ≠ .escape
  | i, c :: cs => (i.next? quote c).any (fits quote · cs)

/-- Where the reader of a prologue stands. -/
inductive Stage where
  | ready
  | inside (quote : Char) (i : Inside) (raw : List Char)
  | behind (raw : List Char)

def Stage.isOutside : Stage → Bool
  | inside _ _ _ => false
  | _ => true

/-- The strings of a prologue, as they stand between their quotes. A statement ends at a semicolon,
before a closing brace or with the text. -/
def read : Stage → List Char → List (List Char)
  | .ready, [] => []
  | .ready, c :: cs =>
    if Text.isBlank c then read .ready cs
    else if isQuote c then read (.inside c .plain []) cs
    else []
  | .inside _ _ _, [] => []
  | .inside quote i raw, c :: cs =>
    match i.next? quote c with
    | some j => read (.inside quote j (raw ++ [c])) cs
    | none => if c = quote then read (.behind raw) cs else []
  | .behind raw, [] => [raw]
  | .behind raw, c :: cs =>
    if Text.isBlank c then read (.behind raw) cs
    else if c = ';' then raw :: read .ready cs
    else if c = '\x7d' then [raw]
    else []

structure Ends (r : List Char) : Prop where
  ready : read .ready r = []
  behind : ∀ raw, read (.behind raw) r = [raw]

def Reads (waits : Bool) (text : List Char) (rest : List (List Char)) : Prop :=
  (waits = false → read .ready text = rest) ∧
    (waits = true → read .ready text = [] ∧ ∀ raw, read (.behind raw) text = raw :: rest)

def isSolid (c : Char) : Bool := !Text.isBlank c && !isQuote c && c ≠ ';' && c ≠ '\x7d'

variable {quote c : Char} {i : Inside} {raw cs r : List Char}

theorem read_blanks (hp : p.isOutside) (h : ∀ c ∈ cs, Text.isBlank c) :
    read p (cs ++ r) = read p r := by
  induction cs with
  | nil => rfl
  | cons c cs ih =>
    obtain ⟨hc, hcs⟩ := forall_mem_cons.mp h
    cases p with
    | inside => cases hp
    | ready | behind => simp [read, hc, ih hcs]

theorem read_solid (hp : p.isOutside) (h : isSolid c) : read p (c :: cs) = [] := by
  simp only [isSolid, Bool.and_eq_true, Bool.not_eq_true', decide_eq_true_eq] at h
  obtain ⟨⟨⟨hblank, hquote⟩, hsemicolon⟩, hbrace⟩ := h
  cases p with
  | inside => cases hp
  | ready | behind => simp [read, hblank, hquote, hsemicolon, hbrace]

theorem next_quote (hquote : isQuote quote) (hi : i ≠ .escape) : i.next? quote quote = none := by
  have hne : quote ≠ '\n' := by
    rintro rfl
    cases hquote
  cases i with
  | escape => exact absurd rfl hi
  | plain | fold => simp [Inside.next?, hne]

theorem read_fits (hquote : isQuote quote) (h : fits quote i cs) :
    read (.inside quote i raw) (cs ++ quote :: r) = read (.behind (raw ++ cs)) r := by
  induction cs generalizing i raw with
  | nil =>
    have hi : i ≠ .escape := of_decide_eq_true h
    simp [read, next_quote hquote hi]
  | cons c cs ih =>
    rw [fits, Option.any_eq_true] at h
    obtain ⟨j, hj, hfits⟩ := h
    rw [cons_append, read, hj]
    simp only [ih hfits, append_assoc, singleton_append]

theorem read_string (hquote : isQuote quote) (h : fits quote .plain cs) :
    read .ready (quote :: (cs ++ quote :: r)) = read (.behind cs) r := by
  have hblank : Text.isBlank quote = false := by
    rw [isQuote, Bool.or_eq_true, decide_eq_true_eq, decide_eq_true_eq] at hquote
    rcases hquote with rfl | rfl <;> decide
  rw [read, hblank, hquote, if_neg Bool.false_ne_true, if_pos rfl, read_fits hquote h]
  rfl

/-! ## Strings -/

theorem fits_plain (hc : c ≠ quote) (hspecial : c ∉ ['\n', '\r', '\\']) :
    fits quote .plain (c :: cs) = fits quote .plain cs := by
  simp only [mem_cons, not_mem_nil, or_false, not_or] at hspecial
  obtain ⟨hfeed, hreturn, hslash⟩ := hspecial
  simp [fits, Inside.next?, hc, hfeed, hreturn, hslash]

theorem fits_escape (hc : c ≠ '\r') (hquote : quote ≠ '\\') :
    fits quote .plain ('\\' :: c :: cs) = fits quote .plain cs := by
  simp [fits, Inside.next?, hc, Ne.symm hquote]

theorem fits_hex4 (n : Nat) : fits '"' .plain (Text.hex4 n ++ cs) = fits '"' .plain cs := by
  have hdigit : ∀ k < 16, Nat.digitChar k ≠ '"' ∧ Nat.digitChar k ∉ ['\n', '\r', '\\'] := by decide
  have hcons : ∀ (k : Nat) (cs : List Char),
      fits '"' .plain (Nat.digitChar (k % 16) :: cs) = fits '"' .plain cs := fun k cs =>
    fits_plain (hdigit _ (Nat.mod_lt k (by decide))).1 (hdigit _ (Nat.mod_lt k (by decide))).2
  simp [Text.hex4, hcons]

theorem fits_escaped (c : Char) (cs : List Char) :
    fits '"' .plain (Text.escaped c ++ cs) = fits '"' .plain cs := by
  unfold Text.escaped
  split
  · rename_i e he
    have hne : e ≠ '\r' := by
      rintro rfl
      unfold Text.shortEscape? at he
      split at he <;> cases he
    exact fits_escape hne (by decide)
  · rename_i hnone
    split
    · rw [cons_append, cons_append, fits_escape (by decide) (by decide), fits_hex4]
    · refine fits_plain ?_ ?_
      · rintro rfl
        cases hnone
      · simp only [mem_cons, not_mem_nil, or_false, not_or]
        refine ⟨?_, ?_, ?_⟩ <;>
        · rintro rfl
          cases hnone

theorem fits_quoted (s : String) : fits '"' .plain (s.toList.flatMap Text.escaped) := by
  induction s.toList with
  | nil => rfl
  | cons c cs ih => rw [flatMap_cons, fits_escaped, ih]

/-- The text of a directive: it can stand between quotes of one kind or the other. -/
def IsRaw (s : String) : Prop :=
  fits '"' .plain s.toList = true ∨ fits '\'' .plain s.toList

instance (s : String) : Decidable (IsRaw s) := inferInstanceAs (Decidable (_ ∨ _))

theorem fits_of_not_mem {other : Char} (h : fits quote i cs) (hother : other ∉ cs) :
    fits other i cs := by
  induction cs generalizing i with
  | nil => exact h
  | cons c cs ih =>
    rw [fits, Option.any_eq_true] at h ⊢
    obtain ⟨j, hj, hfits⟩ := h
    refine ⟨j, ?_, ih hfits fun hmem => hother (.tail _ hmem)⟩
    have hc : c ≠ other := by
      rintro rfl
      exact hother (.head _)
    cases i with
    | escape => exact hj
    | plain | fold =>
      simp only [Inside.next?, hc, decide_false, Bool.false_or] at hj ⊢
      grind

end Prologue

open Prologue (isSolid isQuote fits read)

namespace Tree

def quote (directive : String) : Char := if '"' ∈ directive.toList then '\'' else '"'

theorem toList_quoteOf (directive : String) : (quoteOf directive).toList = [quote directive] := by
  simp only [quoteOf, quote, contains_iff_mem]
  split <;> rfl

theorem isQuote_quote (directive : String) : isQuote (quote directive) := by
  rw [quote]
  split <;> rfl

theorem fits_quote {directive : String} (h : Prologue.IsRaw directive)
    (hsingle : '"' ∈ directive.toList → fits '\'' .plain directive.toList) :
    fits (quote directive) .plain directive.toList := by
  rw [quote]
  split
  · rename_i hmem
    exact hsingle hmem
  · rename_i hmem
    exact h.elim id fun h => Prologue.fits_of_not_mem h hmem

end Tree

/-! ## Pieces that no prologue goes on with -/

variable {mode : Mode} {m : Margin} {p : Piece} {ps qs : List Piece}
  {raw r : List Char} {s : String}

namespace Piece

def isSolid (p : Piece) : Bool := p.own.head?.any Prologue.isSolid

theorem isWritten_of_isSolid (h : p.isSolid) : p.isWritten := by
  cases p <;> first | rfl | cases h

theorem read_isSolid {q : Prologue.Stage} (hq : q.isOutside) (h : p.isSolid) :
    read q (p.chars mode m ++ r) = [] := by
  obtain ⟨g, hg, hchars⟩ := chars_eq (isWritten_of_isSolid h) mode m
  have hblank : ∀ c ∈ g, Text.isBlank c := by
    rcases hg with rfl | rfl <;> decide
  rw [isSolid, Option.any_eq_true] at h
  obtain ⟨c, hc, hsolid⟩ := h
  obtain ⟨cs, hown⟩ := List.head?_eq_some_iff.mp hc
  rw [hchars, append_assoc, Prologue.read_blanks hq hblank, hown]
  exact Prologue.read_solid hq hsolid

theorem read_isSpacing {q : Prologue.Stage} (hq : q.isOutside) (h : p.isSpacing) :
    read q (p.chars mode m ++ r) = read q r := by
  have hblank : ∀ c ∈ [' ', '\n'], Text.isBlank c := by decide
  exact Prologue.read_blanks hq fun c hc => hblank c (mem_chars_of_isSpacing h c hc)

end Piece

def Foreign (mode : Mode) (ps : List Piece) : Prop :=
  ∀ m r, read .ready ((render mode m ps).1 ++ r) = []

def Leads (mode : Mode) (ps : List Piece) : Prop :=
  Foreign mode ps ∨ ∃ s, ps = [.text (Text.quoted s)]

theorem foreign_cons (h : p.isSolid) : Foreign mode (p :: ps) := by
  intro m r
  rw [render_cons, append_assoc]
  exact Piece.read_isSolid rfl h

theorem Foreign.append (h : Foreign mode ps) : Foreign mode (ps ++ qs) := by
  intro m r
  rw [render_append, append_assoc]
  exact h m _

theorem Foreign.spacing (h : Foreign mode ps) (hp : p.isSpacing) : Foreign mode (p :: ps) := by
  intro m r
  rw [render_cons, append_assoc, Piece.read_isSpacing rfl hp]
  exact h _ r

theorem toList_quoted (s : String) :
    (Text.quoted s).toList = '"' :: (s.toList.flatMap Text.escaped ++ ['"']) := by
  rw [Text.quoted, String.toList_ofList, cons_append]

theorem read_quoted (s : String) (r : List Char) :
    read .ready ((Text.quoted s).toList ++ r) =
      read (.behind (s.toList.flatMap Text.escaped)) r := by
  rw [toList_quoted, cons_append, append_assoc, singleton_append]
  exact Prologue.read_string rfl (Prologue.fits_quoted s)

namespace Leads

theorem followed (h : Leads mode ps) (hp : p.isSolid) : Foreign mode (ps ++ p :: qs) := by
  rcases h with h | ⟨s, rfl⟩
  · exact h.append
  · intro m r
    rw [singleton_append, render_cons, render_cons, append_assoc, append_assoc]
    exact (read_quoted s _).trans (Piece.read_isSolid rfl hp)

theorem operation (h : Leads mode ps) (hp : p.isSolid) :
    Foreign mode (Piece.operation ps p qs) := by
  rw [Piece.operation, append_assoc]
  rcases h with h | ⟨s, rfl⟩
  · exact h.append
  · intro m r
    show read .ready
      ((render mode m (.text (Text.quoted s) :: .space :: p :: .space :: qs)).1 ++ r) = []
    rw [render_cons, render_cons, render_cons, append_assoc, append_assoc, append_assoc]
    refine (read_quoted s _).trans ?_
    rw [Piece.read_isSpacing rfl rfl]
    exact Piece.read_isSolid rfl hp

end Leads

theorem Foreign.wrapped (h : Foreign mode ps) (wrap : Bool) :
    Foreign mode (Piece.wrapped wrap ps) := by
  cases wrap with
  | false => exact h
  | true => exact foreign_cons (by decide)

theorem Prologue.isSolid_of_isIdentifierPart {c : Char} (h : Text.isIdentifierPart c) :
    isSolid c := by
  have hsolid : ∀ c ∈ Text.restChars, isSolid c := all_eq_true.mp (by decide +kernel)
  exact hsolid c (Text.mem_restChars_iff.mpr h)

/-! ## Expressions -/

theorem Style.foreign_number (st : Style) (l : Level) (x : Float) :
    Foreign mode (st.number l x) := by
  cases h : Number.hasMinus x with
  | true =>
    rw [number_minus h]
    split
    · exact foreign_cons (by decide)
    · exact foreign_cons (by rw [Piece.isSolid, Piece.own, String.toList_ofList]; rfl)
  | false =>
    obtain ⟨c, cs, hcs, hc⟩ := (st.atom_numberText (fun _ => ()) h).head
    have hsolid : (Piece.word (st.numberText x)).isSolid := by
      rw [Piece.isSolid, Piece.own, hcs]
      rcases hc with hc | rfl
      · exact Prologue.isSolid_of_isIdentifierPart hc
      · rfl
    rcases st.number_plain (l := l) h with hpieces | ⟨hpieces, -⟩ <;> rw [hpieces] <;>
      exact foreign_cons hsolid

theorem Style.foreign_boolean (st : Style) (l : Level) (b : Bool) :
    Foreign mode (st.boolean l b) := by
  rw [boolean]
  split
  · cases b <;> exact foreign_cons (by decide)
  · cases b <;> exact Foreign.wrapped (foreign_cons (by decide)) _

theorem Style.foreign_undefined (l : Level) : Foreign mode (undefined l) := by
  rw [undefined]
  split <;> exact foreign_cons (by decide)

theorem Style.foreign_unaryOperator (op : UnaryOp) : Foreign mode (unaryOperator op ++ ps) := by
  cases op <;> exact foreign_cons (by decide)

theorem Style.isSolid_binaryOperator (op : BinaryOp) : (binaryOperator op).isSolid := by
  cases op <;> decide

theorem isSolid_assign (op : AssignOp) : (Piece.between op.text none).isSolid := by
  cases op <;> decide

def Kind.isClean (st : Style) : Kind → Bool
  | .identifier s | .label s => (st.name s).toList.head?.any isSolid
  | .regExp source => source.toList.head?.any isSolid
  | .directive text => fits (Tree.quote text) .plain text.toList
  | _ => true

namespace Tree

variable {α : Type} {st : Style} {t : Tree α} {cs : List (Tree α)}

def Clean (st : Style) (t : Tree α) : Prop := t.every (fun k _ => k.isClean st) = true

theorem clean_node {m : α} {k : Kind} :
    (node m k cs).Clean st ↔ k.isClean st ∧ ∀ c ∈ cs, c.Clean st := every_node

theorem IsExpression.string_cases (h : t.IsExpression) (st : Style) :
    (∃ s, ∀ place, t.spelling st place = [.text (Text.quoted s)]) ∨ ∀ s, t.kind ≠ .string s := by
  cases h with
  | @string m s => exact .inl ⟨s, fun place => by rw [spelling]⟩
  | _ =>
    refine .inr fun s => ?_
    rintro ⟨⟩

theorem foreign_spelling (h : t.IsExpression) : t.Clean st → (∀ s, t.kind ≠ .string s) →
    ∀ place : Place, (t.kind = .sequence → place.level.wraps .comma) →
      Foreign mode (t.spelling st place) := by
  -- The first operand is at a place that puts a sequence in parentheses.
  have hoperand : ∀ {m : α} {k : Kind} {c : Tree α} {cs : List (Tree α)} {place : Place},
      c.IsExpression → (c.Clean st → (∀ s, c.kind ≠ .string s) → ∀ place : Place,
        (c.kind = .sequence → place.level.wraps .comma) → Foreign mode (c.spelling st place)) →
      (node m k (c :: cs)).Clean st → place.level.wraps .comma →
        Leads mode (c.spelling st place) := by
    intro m k c cs place hc ih hclean hplace
    rcases hc.string_cases st with ⟨s, hs⟩ | hne
    · exact .inr ⟨s, hs place⟩
    · exact .inl (ih ((clean_node.mp hclean).2 c (.head _)) hne place fun _ => hplace)
  induction h with
  | array | object | this | null =>
    intro _ _ place _
    rw [spelling]
    exact foreign_cons (by decide)
  | boolean =>
    intro _ _ place _
    rw [spelling]
    exact st.foreign_boolean _ _
  | number =>
    intro _ _ place _
    rw [spelling]
    exact st.foreign_number _ _
  | undefined =>
    intro _ _ place _
    rw [spelling]
    exact Style.foreign_undefined _
  | identifier | regExp =>
    intro hclean _ place _
    rw [spelling]
    exact foreign_cons (clean_node.mp hclean).1
  | string => exact fun _ hne => absurd rfl (hne _)
  | call hc _ ih =>
    intro hclean _ place _
    rw [spelling, append_assoc]
    exact (hoperand hc ih hclean rfl).followed (by decide)
  | new =>
    intro _ _ place _
    rw [spelling]
    exact foreign_cons (by decide)
  | index ha _ ih =>
    intro hclean _ place _
    rw [spelling, append_assoc]
    exact (hoperand ha ih hclean rfl).followed (by decide)
  | member ha ih =>
    intro hclean _ place _
    rw [spelling]
    exact (hoperand ha ih hclean rfl).followed (by decide)
  | conditional ha _ _ ih =>
    intro hclean _ place _
    rw [spelling]
    exact ((hoperand ha ih hclean rfl).operation (by decide)).wrapped _
  | @binary _ op _ _ ha _ ih =>
    intro hclean _ place _
    have hlevel : (Level.ofBinary op).looser.wraps .comma := by cases op <;> decide
    rw [spelling]
    exact ((hoperand ha ih hclean hlevel).operation
      (Style.isSolid_binaryOperator op)).wrapped _
  | @assign _ op _ _ ha _ ih =>
    intro hclean _ place _
    rw [spelling]
    exact ((hoperand ha ih hclean rfl).operation (isSolid_assign op)).wrapped _
  | @unary _ op _ ha ih =>
    intro hclean _ place _
    rw [spelling]
    split
    · refine Foreign.wrapped ?_ _
      refine (hoperand ha ih hclean rfl).followed ?_
      cases op <;> decide
    · exact (Style.foreign_unaryOperator op).wrapped _
  | sequence _ _ =>
    intro _ _ place hplace
    rw [spelling, hplace rfl]
    exact foreign_cons (by decide)

theorem leads_spelling {place : Place} (h : t.IsExpression) (hclean : t.Clean st)
    (hplace : place.level.wraps .comma) : Leads mode (t.spelling st place) := by
  rcases h.string_cases st with ⟨s, hs⟩ | hne
  · exact .inr ⟨s, hs place⟩
  · exact .inl (foreign_spelling h hclean hne place fun _ => hplace)

/-- The string that an expression statement is written as, if it is nothing but a string. -/
def literal? : Tree α → Option String
  | node _ (.string s) _ => some s
  | node _ .sequence [node _ (.string s) _] => some s
  | _ => none

theorem spelling_of_literal (h : t.literal? = some s) :
    t.spelling st .lowest = [.text (Text.quoted s)] := by
  unfold literal? at h
  split at h
  · cases h
    rw [spelling]
  · cases h
    simp [spelling, listSpelling, Piece.separatorUnless, Place.lowest, Level.wraps, Level.rank,
      Piece.wrapped]
  · cases h

theorem foreign_of_literal (h : t.IsExpression) (hclean : t.Clean st) (hnone : t.literal? = none) :
    Foreign mode (t.spelling st .lowest) ∨ t.spelling st .lowest = [] := by
  by_cases hk : t.kind = .sequence
  · cases h with
    | @sequence m cs hcs =>
      have hpieces : (node m .sequence cs).spelling st .lowest =
          listSpelling st (Place.lowest.operand .comma) true cs := by
        rw [spelling]
        rfl
      rw [hpieces]
      rcases cs with _ | ⟨c, _ | ⟨d, ds⟩⟩
      · exact .inr (by rw [listSpelling])
      · have hc := hcs c (.head _)
        have hne : ∀ s, c.kind ≠ .string s := by
          rintro s hs
          obtain ⟨m', k, ds⟩ := c
          obtain rfl : k = .string s := hs
          cases hnone
        have hcclean := (clean_node.mp hclean).2 c (.head _)
        rw [listSpelling, listSpelling, append_nil]
        exact .inl (foreign_spelling hc hcclean hne _ fun _ => rfl)
      · have hcclean := (clean_node.mp hclean).2 c (.head _)
        rw [listSpelling, listSpelling]
        exact .inl ((leads_spelling (hcs c (.head _)) hcclean rfl).followed
          (p := .text ",") (by decide))
    | _ => cases hk
  · refine .inl (foreign_spelling h hclean ?_ _ fun h => absurd h hk)
    rintro s hs
    obtain ⟨m, k, cs⟩ := t
    obtain rfl : k = .string s := hs
    cases hnone

end Tree

/-! ## Statements -/

def Fragment.Foreign (mode : Mode) (fs : List Fragment) : Prop :=
  ∀ m r, read .ready ((renderAll mode m fs).1 ++ r) = []

namespace Fragment

variable {fs : List Fragment} {depth : Nat}

theorem foreign_indented (h : p.isSolid) :
    Foreign mode (.piece (.indent depth) :: .piece p :: fs) := by
  intro m r
  rw [renderAll_cons, renderAll_piece, renderAll_cons, renderAll_piece, append_assoc,
    append_assoc, Piece.read_isSpacing rfl rfl]
  exact Piece.read_isSolid rfl h

theorem foreign_opening (h : ScriptPress.Foreign mode ps) :
    Foreign mode (.piece (.indent depth) :: .opening ps :: fs) := by
  intro m r
  rw [renderAll_cons, renderAll_piece, renderAll_cons, renderAll_opening, append_assoc,
    append_assoc, Piece.read_isSpacing rfl rfl]
  simp only [renderOpening]
  split
  · rw [cons_append, cons_append]
    exact Prologue.read_solid rfl (by decide)
  · exact h _ _

end Fragment

namespace Tree

variable {α : Type} {st : Style} {t : Tree α} {cs : List (Tree α)} {depth : Nat}

/-- The text between the quotes of a statement that is written as a string and nothing else. -/
def raw? : Tree α → Option (List Char)
  | node _ (.directive text) _ => some text.toList
  | node _ .expression [e] => e.literal?.map fun s => s.toList.flatMap Text.escaped
  | _ => none

/-- The statements at the beginning of a body that are written as a string and nothing else. -/
def written : List (Tree α) → List (List Char)
  | [] => []
  | c :: cs =>
    match c.raw? with
    | some raw => raw :: written cs
    | none => []

def leading : List (Tree α) → List (List Char)
  | node _ (.directive text) _ :: cs => text.toList :: leading cs
  | _ => []

/-- The statements behind those directives that are written like more of them. -/
def strays : List (Tree α) → List (List Char)
  | node _ (.directive _) _ :: cs => strays cs
  | cs => written cs

theorem written_eq (cs : List (Tree α)) : written cs = leading cs ++ strays cs := by
  fun_induction leading cs with
  | case1 a text ds cs ih => rw [written, raw?, strays, ih, cons_append]
  | case2 cs hcs => rw [strays, nil_append]; exact hcs

theorem foreign_lines (h : t.IsStatement) (hclean : t.Clean st) (hraw : t.raw? = none) :
    Fragment.Foreign mode (t.lines st .line depth) ∨
      ∃ m e, t = node m .expression [e] ∧ e.spelling st .lowest = [] := by
  cases h with
  | directive => cases hraw
  | @expression m e he =>
    have hnone : e.literal? = none := by simpa [raw?] using hraw
    have hclean := (clean_node.mp hclean).2 e (.head _)
    have hfront : Foreign mode (e.spelling st .lowest) ∨ e.spelling st .lowest = [] :=
      foreign_of_literal he hclean hnone
    exact hfront.imp Fragment.foreign_opening fun h => ⟨m, e, rfl, h⟩
  | empty =>
    refine .inl fun m r => ?_
    show read .ready
      ((renderAll mode m (.piece (.indent depth) :: .piece (.text ";") :: _)).1 ++ r) = []
    rw [Fragment.renderAll_cons, Fragment.renderAll_piece, Fragment.renderAll_cons,
      Fragment.renderAll_piece, append_assoc, append_assoc, Piece.read_isSpacing rfl rfl]
    rfl
  | label => exact .inl (Fragment.foreign_indented (clean_node.mp hclean).1)
  | @«return» m e he =>
    refine .inl ?_
    have hlines : ∃ fs, (node m .return [e]).lines st .line depth =
        .piece (.indent depth) :: .piece (.word "return") :: fs := by
      by_cases hundefined : e.isUndefined = true <;> simp [lines, hundefined, keyword]
    obtain ⟨fs, hfs⟩ := hlines
    rw [hfs]
    exact Fragment.foreign_indented (by decide)
  | @ifElse m test a b =>
    refine .inl ?_
    have hlines : ∃ fs, (node m .ifElse [test, a, b]).lines st .line depth =
        .piece (.indent depth) :: .piece (.word "if") :: fs := by
      by_cases hempty : b.isEmpty = true <;> simp [lines, ifLines, hempty]
    obtain ⟨fs, hfs⟩ := hlines
    rw [hfs]
    exact Fragment.foreign_indented (by decide)
  | _ =>
    refine .inl (Fragment.foreign_indented ?_)
    decide

theorem lines_of_raw (hclean : t.Clean st) (hraw : t.raw? = some raw) (depth : Nat) :
    ∃ fs q, t.lines st .line depth = .piece (.indent depth) :: fs ++ [.piece .terminator] ∧
      isQuote q ∧ fits q .plain raw ∧
      ∀ mode m, (renderAll mode m fs).1 = q :: (raw ++ [q]) ∧
        waitsAll mode m.semicolon fs = m.semicolon := by
  unfold raw? at hraw
  split at hraw
  · rename_i m text cs
    cases hraw
    refine ⟨ofPieces [.text (quoteOf text), .text text, .text (quoteOf text)], quote text,
      by simp [lines, ofPieces], isQuote_quote text, (clean_node.mp hclean).1,
        fun mode m => ⟨?_, rfl⟩⟩
    rw [Fragment.renderAll_ofPieces]
    simp [Piece.chars, toList_quoteOf, render]
  · rename_i m e
    obtain ⟨s, hs, rfl⟩ := Option.map_eq_some_iff.mp hraw
    refine ⟨[.opening [.text (Text.quoted s)]], '"', by simp [lines, spelling_of_literal hs], rfl,
      Prologue.fits_quoted s, fun mode m => ⟨?_, rfl⟩⟩
    rw [renderAll_opening]
    simp [renderOpening, Piece.chars, toList_quoted]
  · cases hraw

theorem read_lines_of_raw (hclean : t.Clean st) (hraw : t.raw? = some raw) (m : Margin) :
    read .ready ((renderAll mode m (t.lines st .line depth)).1 ++ r) =
        read (.behind raw) ((if mode = .normal then [';', '\n'] else []) ++ r) ∧
      waitsAll mode m.semicolon (t.lines st .line depth) = (mode == .minified || m.semicolon) := by
  obtain ⟨fs, q, hlines, hq, hfits, hfs⟩ := lines_of_raw hclean hraw depth
  rw [hlines, cons_append]
  constructor
  · rw [renderAll_cons, renderAll_piece, append_assoc,
      Piece.read_isSpacing rfl rfl, renderAll_append, (hfs mode _).1,
      renderAll_piece]
    simp only [cons_append, append_assoc]
    exact Prologue.read_string hq hfits
  · rw [waitsAll_cons, waitsAll_append]
    show waitsAll mode (waitsAll mode m.semicolon fs) [.piece .terminator] = _
    rw [(hfs mode m).2]
    rfl

theorem read_lines (h : t.IsStatement) (hclean : t.Clean st) (hm : m.semicolon = false)
    {rest : List (List Char)}
    (hr : Prologue.Reads (renderAll st.mode m (t.lines st .line depth)).2.semicolon r rest) :
    read .ready ((renderAll st.mode m (t.lines st .line depth)).1 ++ r) = match t.raw? with
      | some raw => raw :: rest
      | none => [] := by
  rw [semicolon_renderAll] at hr
  cases hraw : t.raw? with
  | some raw =>
    obtain ⟨hread, hwaits⟩ := read_lines_of_raw hclean hraw m
    rw [hread]
    rw [hwaits, hm] at hr
    cases hmode : st.mode with
    | normal =>
      rw [hmode] at hr
      exact congrArg (raw :: ·) (hr.1 rfl)
    | minified =>
      rw [hmode] at hr
      exact (hr.2 rfl).2 raw
  | none =>
    rcases foreign_lines h hclean hraw with hforeign | ⟨a, e, rfl, hempty⟩
    · exact hforeign m r
    · have hlines : (node a .expression [e]).lines st .line depth =
          [.piece (.indent depth), .opening [], .piece .terminator] := by
        simp [lines, hempty]
      rw [hlines] at hr ⊢
      rw [renderAll_cons, renderAll_piece, append_assoc,
        Piece.read_isSpacing rfl rfl]
      cases hmode : st.mode with
      | normal => rfl
      | minified =>
        rw [hmode] at hr
        exact (hr.2 rfl).1

theorem reads_listLines (hcs : ∀ c ∈ cs, c.IsStatement) (hclean : ∀ c ∈ cs, c.Clean st)
    (hr : Prologue.Ends r) (m : Margin) : Prologue.Reads m.semicolon
      ((renderAll st.mode m (listLines st depth cs)).1 ++ r) (written cs) := by
  induction cs generalizing m with
  | nil =>
    rw [listLines]
    exact ⟨fun _ => hr.ready, fun _ => ⟨hr.ready, hr.behind⟩⟩
  | cons c cs ih =>
    obtain ⟨hc, hcs⟩ := forall_mem_cons.mp hcs
    obtain ⟨hcclean, hclean⟩ := forall_mem_cons.mp hclean
    let before := Piece.pending.margin st.mode m
    have hstatement : read .ready ((renderAll st.mode before (c.lines st .line depth)).1 ++
        ((renderAll st.mode (renderAll st.mode before (c.lines st .line depth)).2
          (listLines st depth cs)).1 ++ r)) = written (c :: cs) :=
      read_lines hc hcclean rfl (ih hcs hclean _)
    rw [listLines, cons_append, renderAll_cons, renderAll_piece,
      renderAll_append, append_assoc, append_assoc]
    constructor
    · intro hm
      rw [Piece.chars, hm]
      exact hstatement
    · intro hm
      rw [Piece.chars, hm]
      refine ⟨rfl, fun raw => ?_⟩
      exact congrArg (raw :: ·) hstatement

end Tree

end ScriptPress

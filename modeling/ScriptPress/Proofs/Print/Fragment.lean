import ScriptPress.Proofs.Print.Expression
import ScriptPress.Proofs.Print.Outline

/-! # The tokens of statements -/

namespace ScriptPress

open List Token Piece

open Token (Lexes isBoundary)

variable {ν : Type} {value : List Char → ν} {mode : Mode} {w : Bool} {m : Margin} {r : List Char}
variable {p : Piece} {ps qs : List Piece} {s : String} {l : Level} {depth : Nat}

def Piece.waits (mode : Mode) (w : Bool) : Piece → Bool
  | terminator => mode == .minified || w
  | pending | dropPending => false
  | _ => w

def Piece.isPlain (p : Piece) : Bool := p.isWritten || p.isSpacing

section Plain

@[simp] theorem isPlain_text : (text s).isPlain = true := rfl

@[simp] theorem isPlain_word : (Piece.word s).isPlain = true := rfl

@[simp] theorem isPlain_sign {op : UnaryOp} : (sign op s).isPlain = true := rfl

@[simp] theorem isPlain_negative : (negative s).isPlain = true := rfl

@[simp] theorem isPlain_between {f : Option Fusable} : (between s f).isPlain = true := rfl

@[simp] theorem isPlain_regExp : (regExp s).isPlain = true := rfl

@[simp] theorem isPlain_space : space.isPlain = true := rfl

@[simp] theorem isPlain_newline : newline.isPlain = true := rfl

@[simp] theorem isPlain_indent : (indent depth).isPlain = true := rfl

def Plain (ps : List Piece) : Prop := ∀ p ∈ ps, p.isPlain

@[simp] theorem plain_nil : Plain [] := nofun

@[simp] theorem plain_cons : Plain (p :: ps) ↔ p.isPlain = true ∧ Plain ps := forall_mem_cons

@[simp] theorem plain_append : Plain (ps ++ qs) ↔ Plain ps ∧ Plain qs := forall_mem_append

variable {α : Type} {st : Style} {t : Tree α}

theorem Piece.isPlain_of_isFixed (h : p.isFixed) : p.isPlain := by
  cases p <;> first | rfl | cases h

theorem Written.plain {name : SymbolId → String} {F : Mode → List Piece} {rs : List String}
    (h : Written name F rs) (mode : Mode) : Plain (F mode) := by
  induction h with
  | cons hp _ ih => exact plain_cons.mpr ⟨isPlain_of_isFixed hp, ih⟩
  | divided _ hp _ ih ih' =>
    exact plain_append.mpr
      ⟨ih, plain_cons.mpr ⟨isPlain_of_isFixed (isFixed_of_divides hp), ih'⟩⟩
  | space _ ih => simpa using ih
  | number | boolean => exact fun p hp => isPlain_of_isFixed (by
      first | exact Style.isFixed_number p hp | exact Style.isFixed_boolean p hp)
  | _ => simp

theorem plain_spelling (h : t.IsExpression) (place : Place) : Plain (t.spelling st place) :=
  (Tree.written_spelling h place).plain st.mode

end Plain

theorem Piece.waits_of_isPlain (h : p.isPlain) : p.waits mode w = w := by
  cases p <;> first | rfl | cases h

theorem Margin.semicolon_after (m : Margin) (s : List Char) :
    (m.after s).semicolon = m.semicolon := by
  rw [after]
  cases s.getLast? <;> rfl

theorem Piece.semicolon_margin (p : Piece) (mode : Mode) (m : Margin) :
    (p.margin mode m).semicolon = p.waits mode m.semicolon := by
  have hafter := m.semicolon_after (p.chars mode m)
  cases p with
  | terminator =>
    cases mode with
    | normal => exact hafter
    | minified => rfl
  | pending | dropPending => rfl
  | _ => exact hafter

theorem semicolon_render (ps : List Piece) :
    (render mode m ps).2.semicolon = ps.foldl (waits mode) m.semicolon := by
  induction ps generalizing m with
  | nil => rfl
  | cons p ps ih =>
    rw [render_cons, foldl_cons, ← p.semicolon_margin]
    exact ih

theorem foldl_waits (h : Plain ps) : ps.foldl (waits mode) w = w := by
  induction ps with
  | nil => rfl
  | cons p ps ih =>
    rw [foldl_cons, waits_of_isPlain (h p mem_cons_self)]
    exact ih fun q hq => h q (.tail _ hq)

namespace Fragment

def waits (mode : Mode) (w : Bool) : Fragment → Bool
  | piece p => p.waits mode w
  | opening ps => ps.foldl (Piece.waits mode) w

def waitsAll (mode : Mode) (w : Bool) (fs : List Fragment) : Bool := fs.foldl (waits mode) w

variable {f : Fragment} {fs gs : List Fragment}

@[simp] theorem waitsAll_nil : waitsAll mode w [] = w := rfl

@[simp] theorem waitsAll_cons : waitsAll mode w (f :: fs) = waitsAll mode (f.waits mode w) fs := rfl

@[simp] theorem waitsAll_append :
    waitsAll mode w (fs ++ gs) = waitsAll mode (waitsAll mode w fs) gs := foldl_append

theorem waitsAll_ofPieces (h : Plain ps) : waitsAll mode w (ofPieces ps) = w := by
  rw [waitsAll, ofPieces, foldl_map]
  exact foldl_waits h

theorem renderAll_cons (f : Fragment) (fs : List Fragment) : renderAll mode m (f :: fs) =
    ((renderAll mode m [f]).1 ++ (renderAll mode (renderAll mode m [f]).2 fs).1,
      (renderAll mode (renderAll mode m [f]).2 fs).2) := by
  simp [renderAll]

theorem renderAll_append : renderAll mode m (fs ++ gs) =
    ((renderAll mode m fs).1 ++ (renderAll mode (renderAll mode m fs).2 gs).1,
      (renderAll mode (renderAll mode m fs).2 gs).2) := by
  induction fs generalizing m with
  | nil => rfl
  | cons f fs ih =>
    rw [cons_append, renderAll_cons f (fs ++ gs), ih, renderAll_cons f fs, append_assoc]

theorem renderAll_piece (p : Piece) :
    renderAll mode m [piece p] = (p.chars mode m, p.margin mode m) := by
  simp [renderAll]

theorem renderAll_opening (ps : List Piece) :
    renderAll mode m [opening ps] = renderOpening mode m ps := by
  simp [renderAll]

theorem renderAll_ofPieces (ps : List Piece) :
    renderAll mode m (ofPieces ps) = render mode m ps := by
  induction ps generalizing m with
  | nil => rfl
  | cons p ps ih =>
    show renderAll mode m (piece p :: ofPieces ps) = _
    rw [renderAll_cons (piece p), renderAll_piece, ih, render_cons]

theorem semicolon_renderAll (fs : List Fragment) :
    (renderAll mode m fs).2.semicolon = waitsAll mode m.semicolon fs := by
  have hfragment : ∀ (f : Fragment) (m : Margin),
      (renderAll mode m [f]).2.semicolon = f.waits mode m.semicolon := by
    intro f m
    cases f with
    | piece p =>
      rw [renderAll_piece]
      exact p.semicolon_margin mode m
    | opening ps =>
      rw [renderAll_opening, waits, ← semicolon_render]
      simp only [renderOpening]
      split
      · exact Margin.semicolon_after _ _
      · rfl
  induction fs generalizing m with
  | nil => rfl
  | cons f fs ih => rw [renderAll_cons f fs, ih, hfragment, waitsAll_cons]

def guarded : List (Token ν) → List (Token ν)
  | .punct .leftBrace :: ts => .punct .leftParen :: .punct .leftBrace :: ts ++ [.punct .rightParen]
  | ts => ts

theorem guarded_of_ne {t : Token ν} {ts : List (Token ν)} (h : t ≠ .punct .leftBrace) :
    guarded (t :: ts) = t :: ts := by
  rw [guarded]
  rintro us ⟨⟩
  exact h rfl

theorem guarded_ne_nil {ts : List (Token ν)} (h : ts ≠ []) : guarded ts ≠ [] := by
  rw [guarded.eq_def]
  split
  · exact cons_ne_nil _ _
  · exact h

def tokens (value : List Char → ν) (mode : Mode) (w : Bool) : Fragment → List (Token ν)
  | piece .terminator => if mode = .normal then [.punct .semicolon] else []
  | piece .pending => if w then [.punct .semicolon] else []
  | piece p => ofPiece value p
  | opening ps => guarded (Token.ofPieces value ps)

def tokensAll (value : List Char → ν) (mode : Mode) (w : Bool) : List Fragment → List (Token ν)
  | [] => []
  | f :: fs => f.tokens value mode w ++ tokensAll value mode (f.waits mode w) fs

@[simp] theorem tokensAll_nil : tokensAll value mode w [] = [] := rfl

@[simp] theorem tokensAll_cons : tokensAll value mode w (f :: fs) =
    f.tokens value mode w ++ tokensAll value mode (f.waits mode w) fs := rfl

@[simp] theorem tokensAll_append : tokensAll value mode w (fs ++ gs) =
    tokensAll value mode w fs ++ tokensAll value mode (waitsAll mode w fs) gs := by
  induction fs generalizing w with
  | nil => rfl
  | cons f fs ih =>
    rw [cons_append, tokensAll_cons, ih, tokensAll_cons, waitsAll_cons, append_assoc]

theorem tokens_of_isPlain (h : p.isPlain) :
    (piece p).tokens value mode w = ofPiece value p := by
  cases p <;> first | rfl | cases h

theorem tokensAll_ofPieces (h : Plain ps) :
    tokensAll value mode w (ofPieces ps) = Token.ofPieces value ps := by
  induction ps with
  | nil => rfl
  | cons p ps ih =>
    have hp := h p (.head _)
    show (piece p).tokens value mode w ++ tokensAll value mode (p.waits mode w) (ofPieces ps) = _
    rw [tokens_of_isPlain hp, Piece.waits_of_isPlain hp, ofPieces_cons,
      ih fun q hq => h q (.tail _ hq)]

def Scans (value : List Char → ν) (mode : Mode) (m : Margin) (fs : List Fragment) (r : List Char) :
    Prop :=
  Lexes value (renderAll mode m fs).1 (tokensAll value mode m.semicolon fs) r

theorem Scans.append
    (h : Scans value mode m fs ((renderAll mode (renderAll mode m fs).2 gs).1 ++ r))
    (h' : Scans value mode (renderAll mode m fs).2 gs r) : Scans value mode m (fs ++ gs) r := by
  rw [Scans, renderAll_append, tokensAll_append, ← semicolon_renderAll]
  exact Lexes.append h h'

theorem Scans.cons
    (h : Scans value mode m [f] ((renderAll mode (renderAll mode m [f]).2 fs).1 ++ r))
    (h' : Scans value mode (renderAll mode m [f]).2 fs r) : Scans value mode m (f :: fs) r :=
  Scans.append h h'

theorem scans_nil : Scans value mode m [] r := lexes_nil

theorem scans_ofPieces (hplain : Plain ps)
    (h : ScriptPress.Scans value mode m ps r) : Scans value mode m (ofPieces ps) r := by
  rw [Scans, renderAll_ofPieces, tokensAll_ofPieces hplain]
  exact h

theorem scans_spacing (hp : p.isSpacing) : Scans value mode m [piece p] r := by
  have hplain : p.isPlain := by rw [isPlain, hp, Bool.or_true]
  exact scans_ofPieces (show Plain [p] by simpa using hplain)
    (scans_singleton (scans_of_isSpacing hp))

theorem lexes_semicolon : Lexes value [';'] [.punct .semicolon] r :=
  lexes_punct (Punct.endsBefore .semicolon rfl (by decide) r)

theorem scans_terminator : Scans value mode m [piece .terminator] r := by
  rw [Scans, renderAll_piece]
  cases mode with
  | normal => exact Lexes.append lexes_semicolon (lexes_blanks (show ∀ c ∈ ['\n'], _ by decide))
  | minified => exact lexes_nil

theorem scans_pending : Scans value mode m [piece .pending] r := by
  rw [Scans, renderAll_piece, chars, tokensAll_cons, tokens, tokensAll_nil, append_nil]
  split
  · exact lexes_semicolon
  · exact lexes_nil

theorem scans_dropPending : Scans value mode m [piece .dropPending] r := by
  rw [Scans, renderAll_piece, tokensAll_cons, tokens, ofPiece_of_own rfl]
  · exact lexes_nil
  · nofun
  · nofun

end Fragment

end ScriptPress

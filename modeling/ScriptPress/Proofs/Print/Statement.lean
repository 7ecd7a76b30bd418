import ScriptPress.Proofs.Print.Fragment

/-! # Statements are cut into their tokens -/

namespace ScriptPress

open List Fragment Token Piece Text Scans

open Token (Lexes isBoundary continuesWord)
open Fragment (ofPieces keyword braced block waitsAll renderAll tokensAll)

variable {ν : Type} {value : List Char → ν} {mode : Mode} {m : Margin} {l : Level} {r : List Char}
variable {p : Piece} {ps qs : List Piece} {fs gs : List Fragment} {depth : Nat} {s s' : String}

def Ends (w : Bool) (r : List Char) : Prop := w = true → ∃ c ∈ [';', '\x7d'], r.head? = some c

/-- The fragments of a statement keep apart from a word before them, and are read as their
tokens. -/
structure Sound (value : List Char → ν) (mode : Mode) (fs : List Fragment) : Prop where
  boundary : ∀ m r, m.semicolon = false → Ends (waitsAll mode false fs) r →
    m.last.any isIdentifierPart → isBoundary ((renderAll mode m fs).1 ++ r)
  reads : ∀ m r, m.semicolon = false → Ends (waitsAll mode false fs) r →
    Fragment.Scans value mode m fs r

theorem ends_false : Ends false r := nofun

theorem Ends.clear (h : Ends true r) : Clear l m r := by
  obtain ⟨c, hc, hhead⟩ := h rfl
  obtain ⟨t, rfl⟩ := List.head?_eq_some_iff.mp hhead
  have hall : ∀ c ∈ [';', '\x7d'], continuesWord c = false ∧ c ≠ '.' := by decide
  exact clear_cons (hall c hc).1 (hall c hc).2

theorem waitsAll_normal (fs : List Fragment) : waitsAll .normal false fs = false := by
  have hpiece : ∀ p : Piece, p.waits .normal false = false := by
    intro p
    cases p <;> rfl
  have hpieces : ∀ ps : List Piece, ps.foldl (Piece.waits .normal) false = false := by
    intro ps
    induction ps with
    | nil => rfl
    | cons p ps ih => rw [foldl_cons, hpiece, ih]
  induction fs with
  | nil => rfl
  | cons f fs ih =>
    have hf : f.waits .normal false = false := by
      cases f with
      | piece p => exact hpiece p
      | opening ps => exact hpieces ps
    rw [waitsAll_cons, hf, ih]

theorem ends_brace (h : mode = .minified → r.head? = some '\x7d') :
    Ends (waitsAll mode false fs) r := by
  intro hwaits
  cases mode with
  | normal =>
    rw [waitsAll_normal] at hwaits
    cases hwaits
  | minified => exact ⟨_, by decide, h rfl⟩

theorem semicolon_render_plain (h : Plain ps) (hm : m.semicolon = false) :
    (render mode m ps).2.semicolon = false := by
  rw [semicolon_render, foldl_waits h, hm]

namespace Sound

theorem spacing (hp : p.isSpacing) (h : Sound value mode fs) :
    Sound value mode (.piece p :: fs) := by
  have hplain : p.isPlain := by rw [isPlain, hp, Bool.or_true]
  have hwaits : waitsAll mode false (.piece p :: fs) = waitsAll mode false fs := by
    rw [waitsAll_cons]
    exact congrArg (waitsAll mode · fs) (waits_of_isPlain hplain)
  refine ⟨fun m r hm hr hlast => ?_, fun m r hm hr => ?_⟩
  · have hmargin : p.margin mode m = m.after (p.chars mode m) := by
      cases p <;> first | rfl | cases hp
    rw [renderAll_cons, renderAll_piece, hmargin]
    cases hchars : p.chars mode m with
    | nil => exact h.boundary m r hm (hwaits ▸ hr) hlast
    | cons c cs =>
      have hblank := mem_chars_of_isSpacing hp c (hchars ▸ mem_cons_self)
      have hall : ∀ c ∈ [' ', '\n'], continuesWord c = false := by decide
      exact isBoundary_cons (hall c hblank)
  · refine Fragment.Scans.cons (scans_spacing hp) (h.reads _ r ?_ (hwaits ▸ hr))
    rw [renderAll_piece]
    exact (semicolon_margin p mode m).trans ((waits_of_isPlain hplain).trans hm)

theorem blank (h : Sound value mode fs) : Sound value mode (.piece (.text " ") :: fs) where
  boundary _ _ _ _ _ := by
    rw [renderAll_cons, renderAll_piece]
    exact isBoundary_cons (by decide)
  reads m r hm hr := by
    have hblank : ∀ r, Lexes value " ".toList [] r := fun r => lexes_blanks (by decide)
    refine Fragment.Scans.cons (scans_ofPieces (show Plain [.text " "] by simp)
      (scans_singleton (scans_of_own rfl (hblank []) (hblank _)))) (h.reads _ r ?_ hr)
    rw [renderAll_piece]
    exact (semicolon_margin _ mode m).trans hm

end Sound

theorem scans_behind (hplain : Plain ps)
    (hps : ∀ m r, m.semicolon = false → Ends (waitsAll mode false fs) r →
      Scans value mode m ps ((renderAll mode (render mode m ps).2 fs).1 ++ r))
    (h : ∀ m r, m.semicolon = false → Ends (waitsAll mode false fs) r →
      Fragment.Scans value mode m fs r) :
    ∀ m r, m.semicolon = false → Ends (waitsAll mode false (ofPieces ps ++ fs)) r →
      Fragment.Scans value mode m (ofPieces ps ++ fs) r := by
  intro m r hm hr
  rw [waitsAll_append, waitsAll_ofPieces hplain] at hr
  refine Fragment.Scans.append (scans_ofPieces hplain ?_) ?_
  · rw [renderAll_ofPieces]
    exact hps m r hm hr
  · rw [renderAll_ofPieces]
    exact h _ r (semicolon_render_plain hplain hm) hr

theorem scans_terminated (hplain : Plain ps) (hps : Within value mode ps) :
    ∀ m r, m.semicolon = false →
      Ends (waitsAll mode false (ofPieces ps ++ [.piece .terminator])) r →
      Fragment.Scans value mode m (ofPieces ps ++ [.piece .terminator]) r := by
  refine scans_behind hplain (fun m r _ hr => hps m _ fun l m' => ?_) fun m r _ _ =>
    scans_terminator
  rw [renderAll_piece]
  cases mode with
  | normal => exact clear_cons (by decide) (by decide)
  | minified => exact Ends.clear hr

namespace Sound

theorem behind (hfront : Front value mode ps)
    (h : ∀ m r, m.semicolon = false → Ends (waitsAll mode false (ofPieces ps ++ fs)) r →
      Fragment.Scans value mode m (ofPieces ps ++ fs) r) :
    Sound value mode (ofPieces ps ++ fs) where
  boundary m r _ _ hlast := by
    rw [renderAll_append, renderAll_ofPieces, append_assoc]
    exact (hfront.opens m _).word hlast
  reads := h

theorem headed (hplain : Plain ps) (hfront : Front value mode ps)
    (hps : ∀ m r, Scans value mode m ps r) (h : Sound value mode fs) :
    Sound value mode (ofPieces ps ++ fs) :=
  behind hfront (scans_behind hplain (fun m _ _ _ => hps m _) h.reads)

theorem terminated (hplain : Plain ps) (hfront : Front value mode ps) (hps : Within value mode ps) :
    Sound value mode (ofPieces ps ++ [.piece .terminator]) :=
  behind hfront (scans_terminated hplain hps)

theorem scans_word (hs : isIdentifier s) (hp : p = .word s ∨ p = .text s)
    (h : Sound value mode fs) (hm : m.semicolon = false) (hr : Ends (waitsAll mode false fs) r) :
    p.Scans value mode m ((renderAll mode (p.margin mode m) fs).1 ++ r) := by
  have hatom : Atom value s (.word s) := atom_word hs
  have hown : p.isWritten ∧ p.own = s.toList ∧
      ∃ g, p.margin mode m = m.after (g ++ s.toList) := by
    rcases hp with rfl | rfl
    · exact ⟨rfl, rfl, _, rfl⟩
    · exact ⟨rfl, rfl, [], rfl⟩
  obtain ⟨hwritten, hchars, g, hmargin⟩ := hown
  obtain ⟨c, hc, hpart⟩ := hatom.last
  refine hatom.reads hwritten hchars (h.boundary _ r ?_ hr ?_) fun _ => exists_not_isDigit hs
  · rw [hmargin, Margin.semicolon_after]
    exact hm
  · rw [hmargin, Margin.last_after hc]
    exact hpart

theorem keyword (hs : isIdentifier s) (h : Sound value mode fs) :
    Sound value mode (.piece (.word s) :: fs) :=
  behind (atom_word hs).front (scans_behind (show Plain [.word s] by simp)
    (fun _ _ hm hr => scans_singleton (h.scans_word hs (.inl rfl) hm hr)) h.reads)

theorem pending (h : Sound value mode fs)
    (hgs : ∀ m r, m.semicolon = false → Ends (waitsAll mode false gs) r →
      Fragment.Scans value mode m gs r) : Sound value mode (fs ++ .piece .pending :: gs) := by
  have hends : ∀ m r, m.semicolon = false → Ends (waitsAll mode false fs)
      ((renderAll mode (renderAll mode m fs).2 (.piece .pending :: gs)).1 ++ r) := by
    intro m r hm hw
    have hwaits : (renderAll mode m fs).2.semicolon = waitsAll mode m.semicolon fs :=
      semicolon_renderAll fs
    rw [hm, hw] at hwaits
    refine ⟨';', by decide, ?_⟩
    rw [renderAll_cons, renderAll_piece, chars, if_pos hwaits]
    rfl
  refine ⟨fun m r hm _ hlast => ?_, fun m r hm hr => ?_⟩
  · rw [renderAll_append, append_assoc]
    exact h.boundary m _ hm (hends m r hm) hlast
  · rw [waitsAll_append] at hr
    refine Fragment.Scans.append (h.reads m _ hm (hends m r hm))
      (Fragment.Scans.cons scans_pending (hgs _ r ?_ hr))
    rw [renderAll_piece]
    exact semicolon_margin _ mode _

end Sound

structure Closed (value : List Char → ν) (mode : Mode) (fs : List Fragment) : Prop where
  reads : ∀ m r, m.semicolon = false → Fragment.Scans value mode m fs r
  waits : waitsAll mode false fs = false

namespace Closed

theorem append (h : Closed value mode fs) (h' : Closed value mode gs) :
    Closed value mode (fs ++ gs) where
  reads m r hm := by
    refine Fragment.Scans.append (h.reads m _ hm) (h'.reads _ r ?_)
    rw [semicolon_renderAll, hm, h.waits]
  waits := by rw [waitsAll_append, h.waits, h'.waits]

theorem ofPieces (hplain : Plain ps) (h : ∀ m r, Scans value mode m ps r) :
    Closed value mode (ofPieces ps) where
  reads m r _ := scans_ofPieces hplain (h m r)
  waits := waitsAll_ofPieces hplain

theorem nil : Closed value mode [] := ⟨fun _ _ _ => Fragment.scans_nil, rfl⟩

theorem newline : Closed value mode [.piece .newline] :=
  ofPieces (show Plain [.newline] by simp) fun _ _ => scans_singleton (scans_of_isSpacing rfl)

theorem spacing (hp : p.isSpacing) (h : Closed value mode fs) :
    Closed value mode (.piece p :: fs) := by
  have hplain : Plain [p] := by
    rw [plain_cons, isPlain, hp, Bool.or_true]
    exact ⟨rfl, plain_nil⟩
  exact (ofPieces hplain fun _ _ => scans_singleton (scans_of_isSpacing hp)).append h

theorem word (hs : isIdentifier s) (h : Closed value mode fs)
    (hsound : Sound value mode fs) : Closed value mode (.piece (.text s) :: fs) where
  reads m r hm := by
    have hends : Ends (waitsAll mode false fs) r := by
      rw [h.waits]
      exact nofun
    refine Fragment.Scans.cons (scans_ofPieces (show Plain [.text s] by simp)
      (scans_singleton ?_)) (h.reads _ r ?_)
    · rw [renderAll_piece]
      exact hsound.scans_word hs (.inr rfl) hm hends
    · rw [renderAll_piece]
      exact (semicolon_margin _ mode m).trans hm
  waits := h.waits

theorem sound (h : Closed value mode fs)
    (hboundary : ∀ m r, isBoundary ((renderAll mode m fs).1 ++ r)) : Sound value mode fs :=
  ⟨fun m r _ _ _ => hboundary m r, fun m r hm _ => h.reads m r hm⟩

end Closed

def Inner (value : List Char → ν) (mode : Mode) (fs : List Fragment) : Prop :=
  ∀ m r, m.semicolon = false → (mode = .minified → r.head? = some '\x7d') →
    Fragment.Scans value mode m fs r

theorem Inner.scans_braced (h : Inner value mode fs) (hm : m.semicolon = false) :
    Fragment.Scans value mode m (braced depth fs) r := by
  have hopen : Plain [.text "\x7b", .newline] := by simp
  have hclose : Plain [.indent depth, .text "\x7d"] := by simp
  rw [braced, append_assoc]
  refine Fragment.Scans.append (scans_ofPieces hopen (cons
      (scans_closed (q := .leftBrace) rfl rfl rfl (by decide))
        (scans_singleton (scans_of_isSpacing rfl))))
    (Fragment.Scans.append (h _ _ ?_ fun hmode => ?_)
      (scans_ofPieces hclose (cons (scans_of_isSpacing rfl)
        (scans_singleton (scans_closed (q := .rightBrace) rfl rfl rfl (by decide))))))
  · rw [renderAll_ofPieces]
    exact semicolon_render_plain hopen hm
  · subst hmode
    rw [renderAll_ofPieces]
    rfl

theorem Inner.closed_block (h : Inner value mode fs) : Closed value mode (block depth fs) where
  reads m r hm := Fragment.Scans.append (h.scans_braced hm) scans_dropPending
  waits := by
    rw [block, waitsAll_append]
    rfl

theorem isBoundary_braced : isBoundary ((renderAll mode m (braced depth fs ++ gs)).1 ++ r) := by
  rw [braced, append_assoc, append_assoc, renderAll_append, renderAll_ofPieces]
  exact isBoundary_cons (by decide)

theorem Inner.sound_block (h : Inner value mode fs) (hgs : Closed value mode gs) :
    Sound value mode (block depth fs ++ gs) := by
  refine (h.closed_block.append hgs).sound fun m r => ?_
  rw [block, append_assoc]
  exact isBoundary_braced

theorem Sound.braced (h : Sound value mode fs) :
    Sound value mode (braced depth (fs ++ [.piece .dropPending]) ++ [.piece .newline]) := by
  have hinner : Inner value mode (fs ++ [.piece .dropPending]) := by
    intro m r hm hr
    exact Fragment.Scans.append (h.reads m _ hm (ends_brace hr)) scans_dropPending
  have hclosed : Closed value mode (Fragment.braced depth (fs ++ [.piece .dropPending])) := by
    refine ⟨fun m r hm => hinner.scans_braced hm, ?_⟩
    rw [Fragment.braced, append_assoc, waitsAll_append, waitsAll_append,
      waitsAll_append]
    exact waitsAll_ofPieces (by simp)
  exact (hclosed.append .newline).sound fun m r => isBoundary_braced

theorem lexes_wordBlank (hs : isIdentifier s) (hp : p.own = s.toList ++ [' ']) :
    Lexes value p.own [.word s] r := by
  rw [hp]
  exact Lexes.append (lexes_word hs (isBoundary_cons (by decide)))
    (lexes_blanks (by decide))

theorem scans_wordBlank (hs : isIdentifier s) (hw : p.isWritten)
    (hp : p.own = s.toList ++ [' ']) : p.Scans value mode m r :=
  scans_of_own hw (lexes_wordBlank hs hp) (lexes_wordBlank hs hp)

theorem ofPiece_wordBlank (hs : isIdentifier s) (hp : p.own = s.toList ++ [' ']) :
    ofPiece value p = [.word s] := ofPiece_of_lexes (lexes_wordBlank hs hp)

theorem front_wordBlank (hs : isIdentifier s) (hp : s'.toList = s.toList ++ [' ']) :
    Front value mode (.word s' :: ps) := by
  obtain ⟨⟨c, cs, hcs, hc⟩, -⟩ := isIdentifier_chars hs
  have htokens : ofPieces value (.word s' :: ps) = .word s :: ofPieces value ps := by
    rw [ofPieces_cons, ofPiece_wordBlank (p := .word s') hs hp, singleton_append]
  rw [hcs] at hp
  exact front_word hp (.inl (isIdentifierPart_of_isIdentifierStart hc)) htokens nofun

theorem within_word (hs : isIdentifier s) : Within value mode [.word s] :=
  (lexed_word (l := .lowest) hs).within

theorem within_text (hs : isIdentifier s) : Within value mode [.text s] := by
  intro m r hr
  have hatom : Atom value s (.word s) := atom_word hs
  obtain ⟨c, hc, hpart⟩ := hatom.last
  have hboundary : isBoundary r :=
    (hr .lowest ⟨some c, false, none⟩).isBoundary rfl hpart
  exact scans_singleton (hatom.reads rfl rfl hboundary fun _ => exists_not_isDigit hs)

theorem scans_parenthesized (hs : isIdentifier s) (hw : p.isWritten)
    (hp : p.own = s.toList) (h : Within value mode ps) :
    Scans value mode m (p :: .space :: (.text "(" :: ps ++ [.text ")"])) r := by
  refine cons ((atom_word hs).reads hw hp ?_ fun _ => exists_not_isDigit hs)
    (cons scans_space (scans_enclosed (o := .leftParen) (c := .rightParen) rfl rfl
      (by decide) (by decide) h))
  cases mode <;> exact isBoundary_cons (by decide)

theorem within_keyword (hs : isIdentifier s) (h : Lexed value mode .lowest ps) :
    Within value mode (.word s :: .space :: ps) := by
  intro m r hr
  have hatom : Atom value s (.word s) := atom_word hs
  refine cons (hatom.reads rfl rfl ?_ fun _ => exists_not_isDigit hs)
    (cons scans_space (h.within _ r hr))
  by_cases hne : ps = []
  · subst hne
    cases mode with
    | normal => exact isBoundary_cons (by decide)
    | minified => exact hatom.isBoundary (g := []) (hr .lowest (m.after ([] ++ s.toList)))
  · exact hatom.isBoundary_of_opens ((h.front hne).opens_space _ r)

namespace Tree

variable {α : Type} {st : Style} {first inSetup : Bool} {t : Tree α} {cs vs : List (Tree α)}

theorem lexed_declarationSpelling (h : t.IsVariable) (ht : t.Legible st) :
    Lexed value st.mode .comma (t.declarationSpelling st inSetup) := by
  obtain ⟨a, s, v, rfl, hv⟩ := h
  obtain ⟨hs, hlegible⟩ := legible_node.mp ht
  have hvalue : Lexed value st.mode .comma (v.spelling st ⟨.comma, inSetup⟩) :=
    lexed hv (hlegible v (.head _)) .comma inSetup
  rw [declarationSpelling]
  split
  · exact lexed_word hs
  · refine (lexed_word (l := .comma) hs).followed (by decide) (fun m r => ?_) fun m r hr => ?_
    · exact clear_space (clear_cons (c := '=') (by decide) (by decide))
    · refine cons scans_space (cons (scans_punct (q := .assign) rfl rfl ?_)
        (cons scans_space (hvalue.reads _ r hr)))
      exact ((hvalue.front_of_ne (by decide)).opens_space _ r).endsBefore (by decide) (by simp)
        (by simp [Punct.growth])

theorem within_declarationsSpelling (h : ∀ v ∈ vs, v.IsVariable) (hvs : ∀ v ∈ vs, v.Legible st) :
    Within value st.mode (declarationsSpelling st inSetup first vs) := by
  induction vs generalizing first with
  | nil => exact within_nil
  | cons v vs ih =>
    intro m r hr
    rw [declarationsSpelling, append_assoc]
    refine append (scans_separatorUnless first) (append
      ((lexed_declarationSpelling (h v (.head _)) (hvs v (.head _))).within _ _ ?_)
      (ih (fun w hw => h w (.tail _ hw))
        (fun w hw => hvs w (.tail _ hw)) _ r hr))
    cases vs with
    | nil => exact hr
    | cons w ws => exact fun l m' => clear_comma

theorem within_setupSpelling (h : t.IsSetup) (ht : t.Legible st) :
    Within value st.mode (t.setupSpelling st) := by
  rw [setupSpelling]
  rcases h with (h | ⟨a, rfl⟩) | ⟨a, vs, rfl, hvs⟩
  · have hk := h.isExpression
    cases hkind : t.kind with
    | varStatement | empty =>
      rw [hkind] at hk
      cases hk
    | _ => exact (lexed h ht .lowest true).within
  · exact within_nil
  · intro m r hr
    exact cons (scans_wordBlank (s := "var") (by decide) rfl rfl)
      (within_declarationsSpelling hvs (legible_node.mp ht).2 _ r hr)

theorem within_clauseSpelling (h : t.IsClause) (ht : t.Legible st) :
    Within value st.mode (t.clauseSpelling st) := by
  rw [clauseSpelling]
  rcases h with h | ⟨a, rfl⟩
  · split
    · exact within_nil
    · exact (lexed h ht .lowest false).within.space
  · exact within_nil

theorem scans_headSpelling (h : t.IsHead) (ht : t.Legible st)
    (hr : Clear .update (render st.mode m (t.headSpelling st)).2 r) :
    Scans value st.mode m (t.headSpelling st) r := by
  rw [headSpelling] at hr ⊢
  rcases h with h | h
  · have hk : t.kind.isVariable = false := by cases h <;> rfl
    rw [hk] at hr ⊢
    exact (lexed h ht .update true).reads m r hr
  · have hk : t.kind.isVariable := by
      obtain ⟨a, s, v, rfl, -⟩ := h
      rfl
    have hdeclaration : Lexed value st.mode .comma (t.declarationSpelling st true) :=
      lexed_declarationSpelling h ht
    have hvar : Atom value "var" (.word "var") := atom_word (by decide)
    rw [hk] at hr ⊢
    refine cons (p := .text "var")
      (hvar.reads rfl rfl ?_ fun _ => exists_not_isDigit (by decide))
      (hdeclaration.reads _ r (hr.operand (k := .member) rfl))
    exact hvar.isBoundary_of_opens (g := []) ((hdeclaration.front_of_ne (by decide)).opens _ r)

theorem within_parameterSpelling (h : ∀ v ∈ vs, v.IsVariable) (hvs : ∀ v ∈ vs, v.Legible st) :
    Within value st.mode (parameterSpelling st first vs) := by
  induction vs generalizing first with
  | nil => exact within_nil
  | cons v vs ih =>
    intro m r hr
    obtain ⟨a, s, e, rfl, -⟩ := h v (.head _)
    have hs := (legible_node.mp (hvs _ (.head _))).1
    rw [parameterSpelling]
    refine append (scans_separatorUnless first) (append
      (within_word hs _ _ ?_) (ih (fun w hw => h w (.tail _ hw))
        (fun w hw => hvs w (.tail _ hw)) _ r hr))
    cases vs with
    | nil => exact hr
    | cons w ws =>
      obtain ⟨b, s', e', rfl, -⟩ := h w (by simp)
      exact fun l m' => clear_comma

end Tree

end ScriptPress

import ScriptPress.Compile
import ScriptPress.Proofs.Print.Edge
import ScriptPress.Proofs.Print.Text
import ScriptPress.Proofs.Store.Reading

/-! # Regular expressions in the text of a module -/

namespace ScriptPress

variable {front' : List Char}

open List Piece Text

open Fragment (flat renderAll renderOpening)

/-! ## Reading a regular expression -/

namespace RegExp

def staysInClass (escaped inClass : Bool) (c : Char) : Bool :=
  if escaped then inClass else c = '[' || inClass && c ≠ ']'

/-- The pattern up to the slash that closes it, and what follows. A slash in a class or behind a
backslash belongs to the pattern, a line end never does. -/
def body (escaped inClass : Bool) : List Char → Option (List Char × List Char)
  | [] => none
  | c :: cs =>
    if Token.isLineEnd c then none
    else if c = '/' && !escaped && !inClass then some ([], cs)
    else
      (body (c = '\\' && !escaped) (staysInClass escaped inClass c) cs).map fun (pattern, r) =>
        (c :: pattern, r)

/-- The pattern and the flags of the regular expression that a text begins with, and the rest. Two
slashes and a slash with a star begin a comment. -/
def read : List Char → Option (List Char × List Char × List Char)
  | '/' :: cs =>
    match body false false cs with
    | some (c :: pattern, r) =>
      if c = '*' then none
      else some (c :: pattern, r.takeWhile isWordChar, r.dropWhile isWordChar)
    | _ => none
  | _ => none

variable {escaped inClass : Bool} {cs pattern flags r x : List Char}

theorem body_eq_some (h : body escaped inClass cs = some (pattern, r)) : cs = pattern ++ '/' :: r ∧
      ∀ x, body escaped inClass (cs ++ x) = some (pattern, r ++ x) := by
  induction cs generalizing escaped inClass pattern with
  | nil => cases h
  | cons c cs ih =>
    rw [body] at h
    split at h
    · cases h
    rename_i hc
    split at h
    · rename_i hslash
      cases h
      simp only [Bool.and_eq_true, decide_eq_true_eq] at hslash
      refine ⟨by rw [hslash.1.1, nil_append], fun x => ?_⟩
      rw [cons_append, body, if_neg hc, if_pos (by simpa using hslash)]
    · rename_i hslash
      obtain ⟨⟨rest, r'⟩, hbody, heq⟩ := Option.map_eq_some_iff.mp h
      cases heq
      obtain ⟨hcs, hmore⟩ := ih hbody
      refine ⟨by rw [hcs, cons_append], fun x => ?_⟩
      rw [cons_append, body, if_neg hc, if_neg hslash, hmore]
      rfl

theorem read_eq_some (h : read cs = some (pattern, flags, [])) :
    cs = '/' :: (pattern ++ '/' :: flags) ∧ (∀ c ∈ flags, isWordChar c) ∧
      ∀ x, read (cs ++ x) =
        some (pattern, flags ++ x.takeWhile isWordChar, x.dropWhile isWordChar) := by
  rw [read.eq_def] at h
  split at h
  · split at h
    · rename_i c rest r hbody
      split at h
      · cases h
      rename_i hstar
      simp only [Option.some.injEq, Prod.mk.injEq] at h
      obtain ⟨rfl, rfl, hrest⟩ := h
      obtain ⟨rfl, hmore⟩ := body_eq_some hbody
      have hword : ∀ c ∈ r, isWordChar c := dropWhile_eq_nil_iff.mp hrest
      have hflags : r.takeWhile isWordChar = r := takeWhile_eq_self_iff.mpr hword
      refine ⟨by rw [hflags], fun c hc => hword c (hflags ▸ hc), fun x => ?_⟩
      rw [cons_append, read, hmore, hflags]
      simp only [hstar, if_false]
      rw [takeWhile_append_of_pos hword, dropWhile_append_of_pos hword]
    · cases h
  · cases h

theorem getLast_of_read (h : read cs = some (pattern, flags, [])) :
    cs.getLast?.any isWordChar = !flags.isEmpty := by
  obtain ⟨rfl, hflags, -⟩ := read_eq_some h
  rw [getLast?_cons, getLast?_append]
  cases hlast : flags.getLast? with
  | none =>
    obtain rfl := getLast?_eq_none_iff.mp hlast
    rfl
  | some c =>
    have hc := mem_of_getLast? hlast
    have hne : flags.isEmpty = false := by
      cases flags with
      | nil => cases hlast
      | cons => rfl
    simp [getLast?_cons, hlast, hflags c hc, hne]

theorem getLast_append_of_read (h : read cs = some (pattern, flags, [])) (front : List Char) :
    (front ++ cs).getLast?.any isWordChar = !flags.isEmpty := by
  obtain ⟨rfl, -, -⟩ := read_eq_some h
  rw [← getLast_of_read h, getLast?_append, getLast?_cons, Option.some_or]

theorem read_append_iff (h : read cs = some (pattern, flags, [])) :
    read (cs ++ x) = some (pattern, flags, x) ↔ x.head?.any isWordChar = false := by
  rw [(read_eq_some h).2.2 x]
  cases x with
  | nil => simp
  | cons c x => cases hc : isWordChar c <;> simp [hc]

end RegExp

/-! ## Spans -/

inductive Span where
  | text (cs : List Char)
  | regExp (source : String)
deriving DecidableEq

namespace Span

@[simp] def chars : Span → List Char
  | text cs => cs
  | regExp source => source.toList

def source? : Span → Option String
  | text _ => none
  | regExp source => some source

def textAll (spans : List Span) : List Char := spans.flatMap chars

variable {P : List Char → String → List Char → Prop} {front r : List Char} {xs ys : List Span}

@[simp] theorem textAll_nil : textAll [] = [] := rfl

@[simp] theorem textAll_cons {x : Span} : textAll (x :: xs) = x.chars ++ textAll xs := rfl

@[simp] theorem textAll_append : textAll (xs ++ ys) = textAll xs ++ textAll ys :=
  flatMap_append

def Each (P : List Char → String → List Char → Prop) (front : List Char) (r : List Char) :
    List Span → Prop
  | [] => True
  | text cs :: spans => Each P (front ++ cs) r spans
  | regExp source :: spans =>
    P front source (textAll spans ++ r) ∧ Each P (front ++ source.toList) r spans

theorem each_append : Each P front r (xs ++ ys) ↔
    Each P front (textAll ys ++ r) xs ∧ Each P (front ++ textAll xs) r ys := by
  induction xs generalizing front with
  | nil => simp [Each]
  | cons x xs ih =>
    cases x with
    | text cs => simp [Each, ih]
    | regExp source => simp [Each, ih, and_assoc]

theorem Each.of_split {source : String} (h : Each P front r (xs ++ .regExp source :: ys)) :
    P (front ++ textAll xs) source (textAll ys ++ r) := (each_append.mp h).2.1

end Span

variable {mode : Mode} {m : Margin} {p : Piece} {ps : List Piece} {r : List Char} {e e' : Edge}

def Piece.spans (mode : Mode) (m : Margin) : Piece → List Span
  | regExp source => [.text m.gapBeforeSlash, .regExp source]
  | p => [.text (p.chars mode m)]

@[simp] theorem Piece.textAll_spans : Span.textAll (p.spans mode m) = p.chars mode m := by
  cases p <;> simp [spans, chars]

def spansOf (mode : Mode) (m : Margin) : List Piece → List Span
  | [] => []
  | p :: ps => p.spans mode m ++ spansOf mode (p.margin mode m) ps

@[simp] theorem textAll_spansOf : Span.textAll (spansOf mode m ps) = (render mode m ps).1 := by
  induction ps generalizing m with
  | nil => rfl
  | cons p ps ih => rw [spansOf, Span.textAll_append, textAll_spans, ih, render_cons]

namespace Fragment

def spans (mode : Mode) (m : Margin) : Fragment → List Span
  | piece p => p.spans mode m
  | opening ps =>
    if (render mode m ps).1.head? = some '\x7b' then
      .text ['('] :: spansOf mode m ps ++ [.text [')']]
    else spansOf mode m ps

@[simp] theorem textAll_spans (f : Fragment) :
    Span.textAll (f.spans mode m) = (renderAll mode m [f]).1 := by
  cases f with
  | piece p => rw [spans, Piece.textAll_spans, renderAll_piece]
  | opening ps =>
    rw [spans, renderAll_opening]
    simp only [renderOpening]
    split <;> simp

def spansAll (mode : Mode) (m : Margin) : List Fragment → List Span
  | [] => []
  | f :: fs => f.spans mode m ++ spansAll mode (renderAll mode m [f]).2 fs

@[simp] theorem textAll_spansAll (fs : List Fragment) :
    Span.textAll (spansAll mode m fs) = (renderAll mode m fs).1 := by
  induction fs generalizing m with
  | nil => rfl
  | cons f fs ih => rw [spansAll, Span.textAll_append, textAll_spans, ih, renderAll_cons f fs]

end Fragment

/-! ## What follows at an edge -/

def Delimits (r : List Char) : Prop := r.head?.any isWordChar = false

def Edge.Admits (m : Margin) (r : List Char) : Edge → Prop
  | clear => True
  | literal => Delimits r ∨ m.last.any isWordChar = false ∧ ['i', 'n'] <+: r
  | ended w => (w = true → m.semicolon) → Delimits r

theorem Edge.admits_of_delimits (h : Delimits r) : e.Admits m r := by
  cases e with
  | clear => trivial
  | literal => exact .inl h
  | ended w => exact fun _ => h

theorem Piece.delimits_chars (hp : p.delimits) : Delimits (p.chars mode m ++ r) := by
  have hwritten : p.isWritten := by cases p <;> first | rfl | cases hp
  obtain ⟨c, hc, hword⟩ : ∃ c, p.own.head? = some c ∧ isWordChar c = false := by
    have hown : (p.own.head?.any fun c => !Text.isWordChar c) := by
      cases p <;> first | exact hp | cases hp
    cases hhead : p.own.head? with
    | none =>
      rw [hhead] at hown
      cases hown
    | some c =>
      rw [hhead] at hown
      exact ⟨c, rfl, by simpa using hown⟩
  obtain ⟨g, rfl | rfl, hchars⟩ := chars_eq hwritten mode m
  · rw [hchars]
    rfl
  · rw [hchars, Delimits, nil_append, head?_append, hc]
    exact hword

theorem Piece.admits_word {s : String} (hs : ['i', 'n'] <+: s.toList) :
    Edge.literal.Admits m ((word s).chars mode m ++ r) := by
  rw [chars, Margin.gapBeforeWord]
  split
  · exact .inl rfl
  · rename_i hlast
    exact .inr ⟨Bool.eq_false_of_not_eq_true hlast, hs.trans (prefix_append _ _)⟩

theorem Piece.admits_of_divides (hp : p.divides) :
    Edge.literal.Admits m (p.chars mode m ++ r) := by
  simp only [divides, Bool.or_eq_true, decide_eq_true_eq] at hp
  rcases hp with (hp | rfl) | rfl
  · exact .inl (delimits_chars hp)
  · exact admits_word (by decide)
  · exact admits_word (by decide)

theorem Piece.admits_spacing (hp : p.isSpacing) (h : e.Admits (p.margin mode m) r) :
    e.Admits m (p.chars mode m ++ r) := by
  have hmargin : p.margin mode m = m.after (p.chars mode m) := by
    cases p <;> first | rfl | cases hp
  rw [hmargin] at h
  cases hchars : p.chars mode m with
  | nil =>
    rw [hchars] at h
    exact h
  | cons c cs =>
    have hc : c ∈ [' ', '\n'] := mem_chars_of_isSpacing hp c (hchars ▸ mem_cons_self)
    refine Edge.admits_of_delimits ?_
    simp only [mem_cons, not_mem_nil, or_false] at hc
    rcases hc with rfl | rfl <;> rfl

theorem Piece.admits_chars (h : p.edge? mode e = some e') (h' : e'.Admits (p.margin mode m) r) :
    e.Admits m (p.chars mode m ++ r) := by
  cases e with
  | clear => trivial
  | literal =>
    by_cases hp : p.divides
    · exact admits_of_divides hp
    cases p with
    | space =>
      cases mode with
      | normal => exact .inl rfl
      | minified =>
        cases h
        exact admits_spacing rfl h'
    | terminator =>
      cases mode with
      | normal => exact .inl rfl
      | minified =>
        cases h
        exact .inl (h' fun _ => rfl)
    | _ => simp [edge?, hp] at h
  | ended w =>
    by_cases hp : p.delimits
    · exact fun _ => delimits_chars hp
    cases p with
    | newline | indent =>
      cases w <;>
      · cases h
        exact admits_spacing rfl h'
    | pending =>
      cases w with
      | true =>
        intro hsemicolon
        rw [chars, if_pos (hsemicolon rfl)]
        rfl
      | false => cases h
    | dropPending =>
      intro _
      cases w <;>
      · cases h
        exact h' fun hfalse => absurd hfalse (by decide)
    | _ => cases w <;> simp [edge?, hp] at h

theorem admits_render (h : edgeBehind mode e ps = some e') (h' : e'.Admits (render mode m ps).2 r) :
    e.Admits m ((render mode m ps).1 ++ r) := by
  induction ps generalizing m e with
  | nil =>
    cases h
    exact h'
  | cons p ps ih =>
    obtain ⟨e₁, hp, hps⟩ := Option.bind_eq_some_iff.mp h
    rw [render_cons] at h' ⊢
    rw [append_assoc]
    exact admits_chars hp (ih hps h')

/-! ## What stands around a regular expression -/

def Separated (front : List Char) (source : String) (r : List Char) : Prop :=
  front.getLast? ≠ some '/' ∧ (Delimits r ∨
    (front ++ source.toList).getLast?.any isWordChar = false ∧ ['i', 'n'] <+: r)

def Fronts (front front' : List Char) : Prop :=
  front'.getLast? = front.getLast? ∨ front'.getLast? = some '('

theorem Fronts.append (h : Fronts front front') (cs : List Char) :
    Fronts (front ++ cs) (front' ++ cs) := by
  rw [Fronts, getLast?_append, getLast?_append]
  cases cs.getLast? with
  | none => exact h
  | some c => exact .inl rfl

theorem Separated.of_fronts {source : String} (h : Separated front source r)
    (hfront : Fronts front front') : Separated front' source r := by
  obtain ⟨hslash, hbehind⟩ := h
  constructor
  · rcases hfront with heq | heq <;> rw [heq]
    · exact hslash
    · decide
  · refine hbehind.imp_right fun hin => ⟨?_, hin.2⟩
    rcases hfront.append source.toList with heq | heq <;> rw [heq]
    · exact hin.1
    · rfl

theorem each_of_fronts {xs : List Span} (h : Span.Each Separated front r xs)
    (hfront : Fronts front front') : Span.Each Separated front' r xs := by
  induction xs generalizing front front' with
  | nil => trivial
  | cons x xs ih =>
    cases x with
    | text cs => exact ih h (hfront.append cs)
    | regExp source => exact ⟨h.1.of_fronts hfront, ih h.2 (hfront.append source.toList)⟩

theorem Margin.last_after_eq (cs : List Char) : (m.after cs).last = cs.getLast?.or m.last := by
  rw [after]
  cases cs.getLast? <;> rfl

theorem Piece.last_margin : (p.margin mode m).last = (p.chars mode m).getLast?.or m.last := by
  rw [← Margin.last_after_eq]
  cases p <;> first | rfl | (cases mode <;> rfl)

variable {front : List Char}

theorem Piece.last_margin_append (hlast : m.last = front.getLast?) :
    (p.margin mode m).last = (front ++ p.chars mode m).getLast? := by
  rw [last_margin, hlast, getLast?_append]

theorem last_render (hlast : m.last = front.getLast?) :
    (render mode m ps).2.last = (front ++ (render mode m ps).1).getLast? := by
  induction ps generalizing m front with
  | nil => rwa [render, append_nil]
  | cons p ps ih =>
    rw [render_cons, ← append_assoc]
    exact ih (last_margin_append hlast)

theorem Margin.getLast_gapBeforeSlash (hlast : m.last = front.getLast?) :
    (front ++ m.gapBeforeSlash).getLast? ≠ some '/' := by
  rw [gapBeforeSlash, hlast]
  split
  · simp [getLast?_append]
  · rwa [append_nil]

theorem Piece.each_spans (hlast : m.last = front.getLast?) (h : p.edge? mode e = some e')
    (h' : e'.Admits (p.margin mode m) r) : Span.Each Separated front r (p.spans mode m) := by
  cases p with
  | regExp source =>
    refine ⟨⟨Margin.getLast_gapBeforeSlash hlast, ?_⟩, trivial⟩
    have hedge : e' = .literal := by
      cases e with
      | clear => exact (Option.some.inj h).symm
      | literal => cases h
      | ended w => cases w <;> cases h
    subst hedge
    rwa [Edge.Admits, last_margin_append hlast, chars, ← append_assoc] at h'
  | _ => trivial

theorem each_spansOf (hlast : m.last = front.getLast?) (h : edgeBehind mode e ps = some e')
    (h' : e'.Admits (render mode m ps).2 r) : Span.Each Separated front r (spansOf mode m ps) := by
  induction ps generalizing m e front with
  | nil => trivial
  | cons p ps ih =>
    obtain ⟨e₁, hp, hps⟩ := Option.bind_eq_some_iff.mp h
    rw [render_cons] at h'
    rw [spansOf, Span.each_append, textAll_spansOf, textAll_spans]
    exact ⟨each_spans hlast hp (admits_render hps h'),
      ih (last_margin_append hlast) hps h'⟩

namespace Fragment

variable {f : Fragment} {fs : List Fragment}

theorem last_renderFragment (hlast : m.last = front.getLast?) :
    (renderAll mode m [f]).2.last = (front ++ (renderAll mode m [f]).1).getLast? := by
  cases f with
  | piece p =>
    rw [renderAll_piece]
    exact last_margin_append hlast
  | opening ps =>
    rw [renderAll_opening]
    simp only [renderOpening]
    split
    · rw [Margin.last_after_eq, getLast?_append, getLast?_append]
      rfl
    · exact last_render hlast

theorem each_spans (hlast : m.last = front.getLast?) (h : edgeBehind mode e f.pieces = some e')
    (h' : e'.Admits (renderAll mode m [f]).2 r) :
    Span.Each Separated front r (f.spans mode m) ∧ e.Admits m ((renderAll mode m [f]).1 ++ r) := by
  cases f with
  | piece p =>
    have hp : p.edge? mode e = some e' := by simpa [edgeBehind] using h
    rw [renderAll_piece] at h' ⊢
    exact ⟨each_spans hlast hp h', admits_chars hp h'⟩
  | opening ps =>
    rw [renderAll_opening] at h' ⊢
    simp only [renderOpening] at h' ⊢
    rw [spans]
    split
    · have hinner : Span.Each Separated front (')' :: r) (spansOf mode m ps) :=
        each_spansOf hlast h (Edge.admits_of_delimits rfl)
      rw [cons_append, Span.Each, Span.each_append]
      refine ⟨⟨each_of_fronts hinner (.inr ?_), trivial⟩, Edge.admits_of_delimits rfl⟩
      simp [getLast?_append]
    · rename_i hbrace
      rw [if_neg hbrace] at h'
      exact ⟨each_spansOf hlast h h', admits_render h h'⟩

theorem each_spansAll (hlast : m.last = front.getLast?) (h : edgeBehind mode e (flat fs) = some e')
    (h' : e'.Admits (renderAll mode m fs).2 r) :
    Span.Each Separated front r (spansAll mode m fs) ∧
      e.Admits m ((renderAll mode m fs).1 ++ r) := by
  induction fs generalizing m e front with
  | nil =>
    cases h
    exact ⟨trivial, h'⟩
  | cons f fs ih =>
    rw [flat_cons, edgeBehind_append] at h
    obtain ⟨e₁, hf, hfs⟩ := Option.bind_eq_some_iff.mp h
    rw [renderAll_cons f fs] at h' ⊢
    have hlast' : (renderAll mode m [f]).2.last = (front ++ (renderAll mode m [f]).1).getLast? :=
      last_renderFragment hlast
    obtain ⟨heach, hadmits⟩ := ih hlast' hfs h'
    obtain ⟨hfirst, hbefore⟩ := each_spans hlast hf hadmits
    rw [spansAll, Span.each_append, textAll_spansAll, textAll_spans, append_assoc]
    exact ⟨⟨hfirst, heach⟩, hbefore⟩

end Fragment

/-! ## Modules -/

theorem Piece.sources_spans : (p.spans mode m).filterMap Span.source? = sources [p] := by
  cases p <;> rfl

theorem sources_spansOf : (spansOf mode m ps).filterMap Span.source? = sources ps := by
  induction ps generalizing m with
  | nil => rfl
  | cons p ps ih =>
    rw [spansOf, filterMap_append, sources_spans, ih, ← sources_append]
    rfl

theorem Fragment.sources_spansAll (fs : List Fragment) :
    (spansAll mode m fs).filterMap Span.source? = sources (flat fs) := by
  induction fs generalizing m with
  | nil => rfl
  | cons f fs ih =>
    rw [spansAll, filterMap_append, ih, flat_cons, sources_append]
    congr 1
    cases f with
    | piece p => exact sources_spans
    | opening ps =>
      rw [spans]
      split
      · rw [cons_append, filterMap_cons_none rfl, filterMap_append, sources_spansOf]
        exact append_nil _
      · exact sources_spansOf

namespace Tree

variable {α : Type} {st : Style} {t : Tree α}

def ending (st : Style) (t : Tree α) : List Char :=
  let (cs, margin) := renderAll st.mode .start (listLines st 0 t.children)
  match st.mode with
  | .normal => []
  | .minified => if cs.isEmpty then [] else (if margin.semicolon then [';'] else []) ++ ['\n']

def spans (st : Style) (t : Tree α) : List Span :=
  Fragment.spansAll st.mode .start (listLines st 0 t.children) ++ [.text (t.ending st)]

theorem textAll_spans : Span.textAll (t.spans st) = t.text st := by
  rw [spans, Span.textAll_append, Fragment.textAll_spansAll, Span.textAll_cons, Span.textAll_nil,
    append_nil]
  rfl

theorem delimits_ending : Delimits (t.ending st) := by
  simp only [ending]
  split
  · rfl
  · split
    · rfl
    · split <;> rfl

theorem sources_spans (h : ∀ c ∈ t.children, c.IsStatement) :
    (t.spans st).filterMap Span.source? = regExpsAll t.children := by
  rw [spans, filterMap_append, Fragment.sources_spansAll, (laid_statements 0 h).sources_eq st.mode]
  exact append_nil _

theorem each_spans (h : ∀ c ∈ t.children, c.IsStatement) :
    Span.Each Separated [] [] (t.spans st) := by
  have hcloses : Closes st.mode (flat (listLines st 0 t.children)) :=
    (laid_statements 0 h).closes st.mode
  obtain ⟨e, hedge⟩ : ∃ e, edgeBehind st.mode .clear (flat (listLines st 0 t.children)) = some e :=
    hcloses.elim (fun h => ⟨_, h⟩) fun h => ⟨_, h⟩
  rw [spans, Span.each_append]
  refine ⟨(Fragment.each_spansAll rfl hedge (Edge.admits_of_delimits ?_)).1, trivial⟩
  simpa using delimits_ending

end Tree

namespace Store

variable {s : Store} {n : NodeId}

/-- The text of a module is made of the sources of its regular expressions and the text between
them. No regular expression stands behind a slash. What follows one goes on with its flags only if
it has none and `in` follows directly; everywhere else it is read back with its own pattern and
flags. -/
theorem print_separates_regExps (mode : Mode) (hv : s.verify n = .ok ())
    (hmodule : (s.tree n).kind = .module) : let spans := (s.tree n).spans ⟨mode, s.symbolName⟩
    s.print mode n = .ok (String.ofList (Span.textAll spans)) ∧
    spans.filterMap Span.source? = (s.tree n).regExps ∧
    ∀ before source behind, spans = before ++ .regExp source :: behind →
      (Span.textAll before).getLast? ≠ some '/' ∧
      ∀ pattern flags, RegExp.read source.toList = some (pattern, flags, []) →
        ((Span.textAll behind).head?.any isWordChar = true ↔
          flags = [] ∧ ['i', 'n'] <+: Span.textAll behind) ∧
        (RegExp.read (source.toList ++ Span.textAll behind) =
            some (pattern, flags, Span.textAll behind) ↔
          ¬(flags = [] ∧ ['i', 'n'] <+: Span.textAll behind)) := by
  have hshape := wellShaped_of_verify hv
  have hstatements : ∀ c ∈ (s.tree n).children, c.IsStatement := by
    generalize s.tree n = t at hshape hmodule
    obtain ⟨a, k, cs⟩ := t
    cases hmodule
    exact Tree.isStatement_of_module hshape
  have hregExps : (s.tree n).regExps = Tree.regExpsAll (s.tree n).children := by
    generalize s.tree n = t at hmodule
    obtain ⟨a, k, cs⟩ := t
    cases hmodule
    simp [Tree.regExps]
  intro spans
  refine ⟨?_, ?_, fun before source behind hspans => ?_⟩
  · rw [Tree.textAll_spans]
    exact Tree.print_eq hshape hmodule
  · rw [hregExps]
    exact Tree.sources_spans hstatements
  have heach : Span.Each Separated [] [] spans := Tree.each_spans hstatements
  rw [hspans] at heach
  obtain ⟨hslash, hbehind⟩ := heach.of_split
  rw [append_nil] at hbehind
  refine ⟨hslash, fun pattern flags hread => ?_⟩
  have hword : (Span.textAll behind).head?.any isWordChar = true ↔
      flags = [] ∧ ['i', 'n'] <+: Span.textAll behind := by
    constructor
    · intro hhead
      obtain ⟨hlast, hin⟩ := hbehind.resolve_left fun h => by rw [Delimits, hhead] at h; cases h
      rw [RegExp.getLast_append_of_read hread, Bool.not_eq_false'] at hlast
      exact ⟨isEmpty_iff.mp hlast, hin⟩
    · rintro ⟨-, rest, hrest⟩
      rw [← hrest]
      rfl
  refine ⟨hword, ?_⟩
  rw [RegExp.read_append_iff hread, ← hword, Bool.not_eq_true]

def searched (source : String) : Store :=
  { (Store.empty.grow (.node () .module
      [.node () .expression
        [.node () .sequence
          [.node () (.binary .in) [.node () (.regExp source) [], .node () (.identifier ⟨0⟩) []],
            .node () (.binary .divide)
              [.node () (.regExp "/c/") [], .node () (.identifier ⟨0⟩) []]]]])).2 with
    symbols := #[⟨"b", true⟩] }

theorem print_separates_regExps_flagged :
    let behind := [.text [], .text " in".toList, .text [], .text " b".toList, .text [','],
      .text [], .text [], .regExp "/c/", .text [], .text [' ', '/'], .text [], .text ['b'],
      .text [], .text [';', '\n']]
    (searched "/a[/]/g").verify ⟨0⟩ = .ok () ∧
      ((searched "/a[/]/g").tree ⟨0⟩).spans ⟨.minified, (searched "/a[/]/g").symbolName⟩ =
        [.text [], .text [], .text []] ++ .regExp "/a[/]/g" :: behind ∧
      RegExp.read ("/a[/]/g".toList ++ Span.textAll behind) =
        some ("a[/]".toList, ['g'], " in b,/c/ /b;\n".toList) := by
  intro behind
  have hv : (searched "/a[/]/g").verify ⟨0⟩ = .ok () := rfl
  have hspans : ((searched "/a[/]/g").tree ⟨0⟩).spans
      ⟨.minified, (searched "/a[/]/g").symbolName⟩ =
        [.text [], .text [], .text []] ++ .regExp "/a[/]/g" :: behind := by decide
  obtain ⟨-, -, hseparated⟩ := print_separates_regExps .minified hv rfl
  obtain ⟨-, hread⟩ := hseparated _ _ _ hspans
  refine ⟨hv, hspans, (hread "a[/]".toList ['g'] (by decide)).2.mpr ?_⟩
  simp

theorem print_joins_regExp_in : (searched "/a/").verify ⟨0⟩ = .ok () ∧
      (searched "/a/").print .minified ⟨0⟩ = .ok "/a/in b,/c/ /b;\n" ∧
      RegExp.read "/a/in b,/c/ /b;\n".toList = some (['a'], ['i', 'n'], " b,/c/ /b;\n".toList) := by
  exact ⟨rfl, by decide, by decide⟩

end Store

end ScriptPress

import ScriptPress.Proofs.Print.Number
import ScriptPress.Proofs.Print.Spelling

/-! # The tokens of expressions -/

namespace ScriptPress

open List Scans Level

/-- The names that a node is printed with are identifiers. Regular expressions and directives,
which are printed as they are, are left out. -/
def Kind.isLegible (name : SymbolId → String) : Kind → Bool
  | .identifier s | .member s | .variable s | .catch s | .function s | .label s
  | .break (some s) | .continue (some s) => Text.isIdentifier (name s)
  | .regExp _ | .directive _ => false
  | _ => true

variable {ν : Type} {value : List Char → ν} {m m' : Margin} {l : Level} {r : List Char}
variable {mode : Mode} {ps : List Piece}

theorem scans_comma : Scans value mode m [.text ","] r :=
  scans_singleton (Piece.scans_closed (q := .comma) rfl rfl rfl (by decide))

theorem clear_comma : Clear l m ((render mode m' (.text "," :: ps)).1 ++ r) :=
  clear_cons (by decide) (by decide)

theorem scans_separatorUnless (first : Bool) :
    Scans value mode m (Piece.separatorUnless first) r := by
  cases first with
  | true => exact scans_nil
  | false => exact append scans_comma (scans_singleton Piece.scans_space)

namespace Tree

variable {α : Type} {st : Style} {p : Place} {first : Bool} {t : Tree α} {cs : List (Tree α)}

def Legible (st : Style) (t : Tree α) : Prop := t.every (fun k _ => k.isLegible st.name) = true

instance : Decidable (t.Legible st) := inferInstanceAs (Decidable (_ = true))

theorem legible_node {a : α} {k : Kind} :
    (node a k cs).Legible st ↔ k.isLegible st.name ∧ ∀ c ∈ cs, c.Legible st := every_node

theorem clear_listSpelling (h : cs = [] → Clear l m r) :
    Clear l m ((render mode m' (listSpelling st p false cs)).1 ++ r) := by
  cases cs with
  | nil => exact h rfl
  | cons c cs => exact clear_comma

theorem scans_listSpelling (h : ∀ c ∈ cs, Lexed value st.mode .comma (c.spelling st p))
    (hr : Clear .comma (render st.mode m (listSpelling st p first cs)).2 r) :
    Scans value st.mode m (listSpelling st p first cs) r := by
  induction cs generalizing first m with
  | nil => exact scans_nil
  | cons c cs ih =>
    have hc := h c (.head _)
    rw [listSpelling, append_assoc] at hr ⊢
    rw [render_append, render_append] at hr
    refine append (scans_separatorUnless first) (append (hc.reads _ _ ?_) ?_)
    · refine clear_listSpelling ?_
      rintro rfl
      exact hr
    · exact ih (fun d hd => h d (.tail _ hd)) hr

theorem clear_elementSpelling (h : Clear l m r) :
    Clear l m ((render mode m' (elementSpelling st p false cs)).1 ++ r) := by
  cases cs with
  | nil => exact h
  | cons c cs =>
    rw [elementSpelling]
    by_cases hc : c.isUndefined
    · rw [if_pos hc]
      exact clear_comma
    · rw [if_neg hc]
      exact clear_comma

theorem within_elementSpelling
    (h : ∀ c ∈ cs, Lexed value st.mode .comma (c.spelling st (p.operand .comma))) :
    Within value st.mode (elementSpelling st p first cs) := by
  induction cs generalizing first with
  | nil => exact within_nil
  | cons c cs ih =>
    intro m r hr
    have hcs := fun m => @ih false (fun d hd => h d (.tail _ hd)) m r hr
    rw [elementSpelling]
    by_cases hc : c.isUndefined
    · rw [if_pos hc]
      refine append (append ?_ ?_) (hcs _)
      · cases first with
        | true => exact scans_nil
        | false => exact scans_comma
      · cases cs with
        | nil => exact scans_comma
        | cons d ds => exact scans_nil
    · rw [if_neg hc, append_assoc]
      refine append (scans_separatorUnless first)
        (append ((h c (.head _)).reads _ _ ?_) (hcs _))
      exact clear_elementSpelling (hr _ _)

theorem scans_key (name : String) (hr : Token.isBoundary r) :
    (Style.key name).Scans value mode m r := by
  rw [Style.key]
  by_cases hname : Text.isIdentifier name
  · rw [if_pos hname]
    exact (atom_word hname).reads rfl rfl hr fun _ => exists_not_isDigit hname
  · rw [if_neg hname]
    exact Piece.scans_of_own rfl (Token.lexes_string name) (Token.lexes_string name)

variable {qs : List (α × SymbolId × Tree α)}

theorem clear_propertySpelling (h : Clear l m r) :
    Clear l m ((render mode m' (propertySpelling st p false
      (qs.map fun q => node q.1 (.property q.2.1) [q.2.2]))).1 ++ r) := by
  cases qs with
  | nil => exact h
  | cons q qs => exact clear_comma

theorem within_propertySpelling
    (h : ∀ q ∈ qs, Lexed value st.mode .comma (q.2.2.spelling st (p.operand .comma))) :
    Within value st.mode (propertySpelling st p first
      (qs.map fun q => node q.1 (.property q.2.1) [q.2.2])) := by
  induction qs generalizing first with
  | nil => exact within_nil
  | cons q qs ih =>
    intro m r hr
    have hqs := fun m => @ih false (fun d hd => h d (.tail _ hd)) m r hr
    rw [map_cons, propertySpelling, append_assoc]
    refine append (scans_separatorUnless first) (append ?_ (hqs _))
    refine cons (scans_key _ (isBoundary_cons (by decide))) (cons ?_
      (cons Piece.scans_space ((h q (.head _)).reads _ _ ?_)))
    · exact Piece.scans_closed (q := .colon) rfl rfl rfl (by decide)
    · exact clear_propertySpelling (hr _ _)

theorem lexed (h : t.IsExpression) (hlegible : t.Legible st) :
    ∀ l inSetup, Lexed value st.mode l (t.spelling st ⟨l, inSetup⟩) := by
  induction h with
  | array _ ih =>
    intro l inSetup
    have hall := (legible_node.mp hlegible).2
    rw [spelling]
    exact lexed_enclosed (o := .leftBracket) (c := .rightBracket) rfl rfl (by decide) (by decide)
      (within_elementSpelling fun c hc => ih c hc (hall c hc) .comma inSetup)
  | boolean =>
    intro l inSetup
    rw [spelling]
    exact Style.lexed_boolean
  | call _ _ ih ihs =>
    intro l inSetup
    obtain ⟨hc, hcs⟩ := forall_mem_cons.mp (legible_node.mp hlegible).2
    rw [spelling]
    exact (ih hc .update inSetup).enclosed (o := .leftParen) (c := .rightParen) (by decide) rfl
      rfl (by decide) (by decide) fun m r hr =>
        scans_listSpelling (fun a ha => ihs a ha (hcs a ha) .comma inSetup) (hr _ _)
  | @conditional _ a b c _ _ _ iha ihb ihc =>
    intro l inSetup
    obtain ⟨ha, hb, hc⟩ : a.Legible st ∧ b.Legible st ∧ c.Legible st := by
      simpa using (legible_node.mp hlegible).2
    have hquestion : Divides value st.mode (.text "?") :=
      divides_text (q := .question) rfl rfl (by decide)
    have hcolon : Divides value st.mode (.text ":") :=
      divides_text (q := .colon) rfl rfl (by decide)
    have hbranches := (ihb hb conditional.looser inSetup).operation (by decide) hcolon
      (ihc hc conditional.looser inSetup) (by decide) (l := .assign) (k := .conditional) rfl
    rw [spelling]
    refine lexed_wrapped rfl (fun l hl => ?_) id
    exact (iha ha .conditional inSetup).operation (by decide) hquestion hbranches (by decide) hl
  | identifier =>
    intro l inSetup
    rw [spelling]
    exact lexed_word (legible_node.mp hlegible).1
  | @index _ a b _ _ iha ihb =>
    intro l inSetup
    obtain ⟨ha, hb⟩ : a.Legible st ∧ b.Legible st := by
      simpa using (legible_node.mp hlegible).2
    rw [spelling]
    exact (iha ha .member inSetup).enclosed (o := .leftBracket) (c := .rightBracket) (by decide)
      rfl rfl (by decide) (by decide) (ihb hb .lowest inSetup).within
  | @member _ s a _ ih =>
    intro l inSetup
    obtain ⟨hs, ha⟩ := legible_node.mp hlegible
    rw [spelling]
    exact (ih (ha a (.head _)) .member inSetup).member hs
  | @new _ c cs _ _ ih ihs =>
    intro l inSetup
    obtain ⟨hc, hcs⟩ := forall_mem_cons.mp (legible_node.mp hlegible).2
    have hcallee : Lexed value st.mode .member (if c.hasCall then
        Piece.wrapped true (c.spelling st ⟨.lowest, inSetup⟩)
        else c.spelling st ⟨.member, inSetup⟩) := by
      split
      · exact (ih hc .lowest inSetup).parenthesized
      · exact ih hc .member inSetup
    have hcalled : Lexed value st.mode .member ((if c.hasCall then
        Piece.wrapped true (c.spelling st ⟨.lowest, inSetup⟩)
        else c.spelling st ⟨.member, inSetup⟩) ++
          .text "(" :: listSpelling st ⟨.comma, inSetup⟩ true cs ++ [.text ")"]) :=
      hcallee.enclosed (o := .leftParen) (c := .rightParen) (by decide) rfl rfl (by decide)
        (by decide) fun m r hr =>
          scans_listSpelling (fun a ha => ihs a ha (hcs a ha) .comma inSetup) (hr _ _)
    rw [spelling]
    exact hcalled.keyword (by decide) (by decide) fun m r hr => ⟨hr.word, fun _ => rfl⟩
  | null | this =>
    intro l inSetup
    rw [spelling]
    exact lexed_word (by decide)
  | number =>
    intro l inSetup
    rw [spelling]
    exact Style.lexed_number
  | @object _ qs _ ih =>
    intro l inSetup
    have hall := (legible_node.mp hlegible).2
    have hvalue : ∀ q ∈ qs, q.2.2.Legible st := fun q hq =>
      (legible_node.mp (hall _ (mem_map_of_mem hq))).2 _ (.head _)
    rw [spelling]
    exact lexed_enclosed (o := .leftBrace) (c := .rightBrace) rfl rfl (by decide) (by decide)
      (within_propertySpelling fun q hq => ih q hq (hvalue q hq) .comma inSetup)
  | regExp => cases (legible_node.mp hlegible).1
  | @sequence _ cs _ ih =>
    intro l inSetup
    have hcs : ∀ c ∈ cs, Lexed value st.mode .comma (c.spelling st ⟨.comma, inSetup⟩) :=
      fun c hc => ih c hc ((legible_node.mp hlegible).2 c hc) .comma inSetup
    rw [spelling]
    refine lexed_wrapped rfl (fun l hl => ?_) id
    refine ⟨fun hne => ?_, fun hne => ?_, fun m r hr => scans_listSpelling hcs (hr.operand hl)⟩
    · cases l <;> first | exact absurd rfl hne | cases hl
    · cases cs with
      | nil => exact absurd (listSpelling.eq_1 ..) hne
      | cons c cs =>
        rw [listSpelling]
        exact ((hcs c (.head _)).front_of_ne (by decide)).append _
  | string =>
    intro l inSetup
    rw [spelling]
    exact lexed_string _
  | undefined =>
    intro l inSetup
    rw [spelling]
    exact Style.lexed_undefined
  | @unary _ op a _ ih =>
    intro l inSetup
    have ha := (legible_node.mp hlegible).2 a (.head _)
    rw [spelling]
    by_cases htrailing : op.isTrailing
    · rw [if_pos htrailing]
      refine lexed_wrapped rfl (fun l hl => ?_) id
      exact (ih ha update.looser inSetup).trailing htrailing (by decide)
    · rw [if_neg htrailing]
      refine lexed_wrapped rfl (fun l hl => ?_) id
      exact (ih ha unary.looser inSetup).unaryOperator (Bool.not_eq_true _ ▸ htrailing)
        (by decide) hl
  | @binary _ op a b _ _ iha ihb =>
    intro l inSetup
    obtain ⟨ha, hb⟩ : a.Legible st ∧ b.Legible st := by
      simpa using (legible_node.mp hlegible).2
    have hlevels : lowest.wraps (ofBinary op) = false ∧
        (ofBinary op).looser ≠ .lowest ∧ ofBinary op ≠ .lowest := by
      cases op <;> decide
    rw [spelling]
    refine lexed_wrapped hlevels.1 (fun l hl => ?_) fun h => (Bool.or_eq_false_iff.mp h).1
    exact (iha ha (ofBinary op).looser inSetup).operation hlevels.2.1
      (divides_binaryOperator op) (ihb hb (ofBinary op) inSetup) hlevels.2.2 hl
  | @assign _ op a b _ _ iha ihb =>
    intro l inSetup
    obtain ⟨ha, hb⟩ : a.Legible st ∧ b.Legible st := by
      simpa using (legible_node.mp hlegible).2
    rw [spelling]
    refine lexed_wrapped rfl (fun l hl => ?_) id
    exact (iha ha .assign inSetup).operation (by decide) (divides_assignOperator op)
      (ihb hb assign.looser inSetup) (by decide) hl

end Tree

end ScriptPress

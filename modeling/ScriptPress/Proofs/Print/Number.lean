import ScriptPress.Proofs.Number.Spelling
import ScriptPress.Proofs.Print.Lexing

/-! # Printed numbers -/

namespace ScriptPress

open Token Bool Number

variable {ν : Type} {st : Style} {value : List Char → ν} {x : Float} {l : Level}

namespace Number

def hasMinus (x : Float) : Bool := x < 0 || (isZero x && isNegative x)

theorem hasMinus_cases (h : hasMinus x) : x < 0 ∨ (isZero x && isNegative x) := by
  rwa [hasMinus, or_eq_true, decide_eq_true_eq] at h

theorem hasMinus_eq_false : hasMinus x = false ↔ ¬ x < 0 ∧ ¬ (isZero x && isNegative x) := by
  rw [hasMinus, or_eq_false_iff, decide_eq_false_iff_not, not_eq_true]

theorem hasMinus_abs (x : Float) : hasMinus x.abs = false := by
  rw [hasMinus_eq_false]
  refine ⟨not_abs_lt_zero x, fun h => ?_⟩
  obtain ⟨hzero, hnegative⟩ := and_eq_true_iff.mp h
  rw [isZero_abs] at hzero
  rw [isNegative_abs_of_isZero hzero] at hnegative
  cases hnegative

def unsigned (x : Float) : Float := if hasMinus x then x.abs else x

end Number

namespace Style

theorem numberText_eq (h : hasMinus x = false) : st.numberText x = match st.mode with
    | .normal => spelled x
    | .minified => briefest x := if_neg (hasMinus_eq_false.mp h).2

theorem numberText_zero (hzero : isZero x) (h : hasMinus x = false) :
    st.numberText x = "0" := by
  rw [numberText_eq h]
  cases st.mode with
  | normal =>
    show spelled x = "0"
    rw [spelled, spelledWith_zero hzero]
  | minified =>
    have hfinite : x.isFinite := isFinite_of_isZero hzero
    show briefest x = "0"
    rw [briefest, spelled, spelledExponential, if_pos hfinite,
      spelledWith_zero hzero, spelledWith_zero hzero]
    rfl

theorem numberText_minus (st : Style) (h : hasMinus x) :
    (st.numberText x).toList = '-' :: (st.numberText x.abs).toList := by
  rcases hasMinus_cases h with hlt | hzero
  · have hneg : ¬ (isZero x && isNegative x) := by
      rw [isZero_of_lt_zero hlt]
      nofun
    rw [numberText, if_neg hneg, numberText_eq (hasMinus_abs x)]
    cases st.mode with
    | normal => exact spelled_minus hlt
    | minified => exact briefest_minus hlt
  · have hzero' : isZero x.abs := by
      rw [isZero_abs]
      exact (and_eq_true_iff.mp hzero).1
    rw [numberText_zero hzero' (hasMinus_abs x), numberText, if_pos hzero]
    rfl

def numberToken (st : Style) (value : List Char → ν) (x : Float) : Token ν :=
  if x.isFinite then .number (value (st.numberText x).toList) else .word (st.numberText x)

theorem spells_numberText (st : Style) (hx : x.isFinite) (h : hasMinus x = false) :
    ∃ n : Numeral, n.Spells (st.numberText x).toList ∧ n.value = decimalValue x := by
  have hlt := (hasMinus_eq_false.mp h).1
  rw [numberText_eq h]
  cases st.mode with
  | normal => exact spells_spelled hx hlt
  | minified => exact spells_briefest hx hlt

theorem numberText_word (hx : x.isFinite = false) (h : hasMinus x = false) :
    st.numberText x = if x.isNaN then "NaN" else "Infinity" := by
  have hlt := (hasMinus_eq_false.mp h).1
  rw [numberText_eq h]
  cases st.mode with
  | normal => exact spelled_word hx hlt
  | minified => exact (briefest_word hx hlt).trans (spelled_word hx hlt)

theorem atom_numberText (st : Style) (value : List Char → ν) (h : hasMinus x = false) :
    Atom value (st.numberText x) (st.numberToken value x) := by
  rw [numberToken]
  cases hx : x.isFinite with
  | true =>
    obtain ⟨n, hn, -⟩ := st.spells_numberText hx h
    exact atom_number hn.isNumeral hn.getLast
  | false =>
    refine atom_word ?_
    rw [numberText_word hx h]
    split <;> decide

theorem atom_zero : Atom value "0" (.number (value ['0'])) :=
  atom_number rfl ⟨'0', rfl, rfl⟩

theorem atom_one : Atom value "1" (.number (value ['1'])) :=
  atom_number rfl ⟨'1', rfl, rfl⟩

theorem number_minus (h : hasMinus x) : st.number l x =
      if l.wraps .unary then [.text "(-", .text (st.numberText x.abs), .text ")"]
      else [.negative (String.ofList ('-' :: (st.numberText x.abs).toList))] := by
  have hlist := st.numberText_minus h
  have htext : String.ofList ('-' :: (st.numberText x.abs).toList) = st.numberText x := by
    rw [← hlist, String.ofList_toList]
  rw [htext]
  simp only [number, hlist]
  by_cases hl : l.wraps .unary
  · rw [if_pos hl, if_pos hl, String.ofList_toList]
  · rw [if_neg hl, if_neg hl, Level.wraps_member_eq_false (not_eq_true _ ▸ hl)]
    rfl

theorem number_plain (h : hasMinus x = false) :
    st.number l x = [.word (st.numberText x), .text " "] ∨
      st.number l x = [.word (st.numberText x)] ∧
        (l.wraps .member → ∃ c ∈ (st.numberText x).toList, c.isDigit = false) := by
  obtain ⟨c, cs, hcs, hc⟩ := (st.atom_numberText (fun _ => ()) h).head
  have hminus : c ≠ '-' := by
    rintro rfl
    rcases hc with hc | hc <;> cases hc
  simp only [number]
  split
  · rename_i hlist
    rw [hcs] at hlist
    exact absurd (List.cons.inj hlist).1 hminus
  · split
    · exact .inl rfl
    · rename_i hgap
      refine .inr ⟨rfl, fun hl => ?_⟩
      rw [hl, Bool.true_and, Bool.not_eq_true, Bool.not_eq_false', List.any_eq_true] at hgap
      obtain ⟨d, hd, hpoint⟩ := hgap
      refine ⟨d, hd, ?_⟩
      simp only [or_eq_true, decide_eq_true_eq] at hpoint
      rcases hpoint with (rfl | rfl) | rfl <;> rfl

theorem lexed_number : Lexed value st.mode l (st.number l x) := by
  by_cases hminus : hasMinus x
  · have hatom := st.atom_numberText value (hasMinus_abs x)
    rw [number_minus hminus]
    by_cases hl : l.wraps .unary
    · rw [if_pos hl]
      exact hatom.lexed_negativeParenthesized
    · rw [if_neg hl]
      exact hatom.lexed_negative (not_eq_true _ ▸ hl)
  · rw [not_eq_true] at hminus
    have hatom := st.atom_numberText value hminus
    rcases number_plain (l := l) hminus with hpieces | ⟨hpieces, hl⟩
    · rw [hpieces]
      exact hatom.lexed_apart
    · rw [hpieces]
      exact hatom.lexed hl

theorem ofPieces_number : ofPieces value (st.number l x) = if hasMinus x then
      if l.wraps .unary then
        [.punct .leftParen, .punct .minus, st.numberToken value x.abs, .punct .rightParen]
      else [.punct .minus, st.numberToken value x.abs]
    else [st.numberToken value x] := by
  have hclose : ofPiece value (.text ")") = [.punct .rightParen] :=
    Piece.ofPiece_punct rfl
  have hblank : ofPiece value (.text " ") = [] :=
    ofPiece_of_lexes (lexes_blanks (by decide))
  by_cases hminus : hasMinus x
  · have hatom := st.atom_numberText value (hasMinus_abs x)
    rw [number_minus hminus, if_pos hminus]
    by_cases hl : l.wraps .unary
    · rw [if_pos hl, if_pos hl]
      simp only [ofPieces_cons, ofPieces_nil, ofPiece_parenMinus, hclose,
        hatom.ofPiece (p := .text _) rfl]
      rfl
    · rw [if_neg hl, if_neg hl, ofPieces_cons, hatom.ofPiece_negative]
      rfl
  · rw [if_neg hminus]
    rw [not_eq_true] at hminus
    have hatom := st.atom_numberText value hminus
    rcases number_plain (l := l) hminus with hpieces | ⟨hpieces, -⟩
    · rw [hpieces, ofPieces_cons, ofPieces_cons, hblank,
        hatom.ofPiece (p := .word _) rfl]
      rfl
    · rw [hpieces, ofPieces_cons, hatom.ofPiece (p := .word _) rfl]
      rfl

theorem lexed_undefined {mode : Mode} : Lexed value mode l (Style.undefined l) := by
  rw [Style.undefined]
  by_cases hl : l.wraps .unary
  · rw [if_pos hl]
    exact lexed_voidParenthesized atom_zero
  · rw [if_neg hl]
    exact lexed_void atom_zero (not_eq_true _ ▸ hl)

theorem lexed_boolean {b : Bool} : Lexed value st.mode l (st.boolean l b) := by
  rw [Style.boolean]
  cases st.mode with
  | normal =>
    refine lexed_word ?_
    cases b <;> decide
  | minified =>
    refine lexed_wrapped rfl (fun l hl => ?_) id
    cases b with
    | true => exact lexed_truth atom_zero rfl hl
    | false => exact lexed_truth atom_one rfl hl

end Style

end ScriptPress

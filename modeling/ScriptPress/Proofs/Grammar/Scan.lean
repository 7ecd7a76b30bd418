import Mathlib.Data.List.Pairwise
import Mathlib.Data.List.TakeWhile
import ScriptPress.Proofs.Grammar.Token
import ScriptPress.Proofs.Text.Identifier
import ScriptPress.Text.Quoted

/-! # How a text begins with a token -/

namespace ScriptPress

open List Text

variable {p : Punct}

theorem used_some {l r : List γ} (h : r.length < l.length) :
    used l (some (b, r)) = some (b, ⟨r, h⟩) := by
  rw [used, dif_pos h]

/-! ## Punctuators -/

namespace Punct

def growth : Punct → List Char
  | plus => ['+', '=']
  | minus => ['-', '=']
  | star | percent | xor | bang | assign | equal | notEqual | shiftLeft | shiftRightUnsigned =>
    ['=']
  | slash => ['=', '/', '*']
  | and => ['&', '=']
  | or => ['|', '=']
  | less => ['<', '=']
  | greater | shiftRight => ['>', '=']
  | _ => []

structure EndsBefore (p : Punct) (r : List Char) : Prop where
  growth : ∀ c ∈ r.head?, c ∉ p.growth
  digit : p = dot → ∀ c ∈ r.head?, c.isDigit = false
  comment : p = less → ¬ ['!', '-', '-'] <+: r

theorem endsBefore (p : Punct) (hgrowth : p.growth = []) (hdot : p ≠ dot) (r : List Char) :
    p.EndsBefore r where
  growth c _ := hgrowth ▸ not_mem_nil
  digit h := absurd h hdot
  comment h := by
    subst h
    cases hgrowth

theorem mem_all (p : Punct) : p ∈ all := by
  cases p <;> decide

theorem nodup_all : all.Nodup := by decide

theorem sorted_all : all.Pairwise fun p q => q.chars.length ≤ p.chars.length := by decide

theorem growth_of_longer : ∀ p ∈ all, ∀ q ∈ all, p.chars <+: q.chars → p ≠ q →
    ∃ c ∈ p.growth, (q.chars.drop p.chars.length).head? = some c := by
  decide +kernel

theorem longest_append {r : List Char} (h : p.EndsBefore r) : longest? (p.chars ++ r) = some p := by
  obtain ⟨before, after, hall⟩ := append_of_mem p.mem_all
  have hsorted := sorted_all
  have hnodup := nodup_all
  rw [hall, pairwise_append] at hsorted
  rw [hall, nodup_append] at hnodup
  rw [longest?, List.find?_eq_some_iff_append]
  refine ⟨decide_eq_true (prefix_append _ _), before, after, hall, ?_⟩
  intro q hq
  rw [Bool.not_eq_true', decide_eq_false_iff_not]
  intro hfits
  -- A punctuator before `p` in the list is at least as long, so it continues `p` with a character
  -- of its growth.
  have hle := hsorted.2.2 q hq p (.head _)
  have hbegins := prefix_of_prefix_length_le (prefix_append _ _) hfits hle
  have hmem : q ∈ all := hall ▸ mem_append_left _ hq
  have hne : p ≠ q := fun heq => hnodup.2.2 q hq p (.head _) heq.symm
  obtain ⟨c, hc, hhead⟩ := growth_of_longer p p.mem_all q hmem hbegins hne
  obtain ⟨t, ht⟩ := hbegins
  obtain ⟨u, hu⟩ := hfits
  rw [← ht, drop_left] at hhead
  rw [← ht, append_assoc, append_cancel_left_eq] at hu
  refine h.growth c ?_ hc
  rw [← hu, List.head?_append, hhead, Option.some_or, Option.mem_def]

theorem head_chars (p : Punct) : ∃ c, p.chars.head? = some c ∧
    isIdentifierStart c = false ∧ c ≠ '"' ∧ c ≠ '\x27' ∧ c.isDigit = false ∧
      Text.isBlank c = false ∧ (c = '.' → p = dot) := by
  cases p <;> exact ⟨_, rfl, by decide⟩

theorem not_isComment {r : List Char} (h : p.EndsBefore r) :
    Token.isComment (p.chars ++ r) = false := by
  cases p with
  | slash =>
    have hslash : ¬ ['/'] <+: r := by
      rintro ⟨t, rfl⟩
      exact h.growth _ rfl (by decide)
    have hstar : ¬ ['*'] <+: r := by
      rintro ⟨t, rfl⟩
      exact h.growth _ rfl (by decide)
    simp [Token.isComment, chars, hslash, hstar]
  | less => simp [Token.isComment, chars, h.comment rfl]
  | _ => rfl

end Punct

namespace Token

variable {ν : Type} {value : List Char → ν} {c : Char} {cs r : List Char} {s : String}

/-! ## Boundaries -/

theorem not_isIdentifierPart_of_isBoundary (h : isBoundary r) :
    ∀ c ∈ r.head?, Text.isIdentifierPart c = false := by
  intro c hc
  rw [Option.mem_def] at hc
  rw [isBoundary, hc] at h
  by_contra hpart
  simp [continuesWord, Bool.not_eq_false _ ▸ hpart] at h

theorem isIdentifierPart_of_isDigit (h : c.isDigit) : Text.isIdentifierPart c := by
  simp [Text.isIdentifierPart, Char.isAlphanum, h]

theorem not_isDigit_of_not_isIdentifierPart (h : ∀ c ∈ r.head?, Text.isIdentifierPart c = false) :
    ∀ c ∈ r.head?, c.isDigit = false := by
  intro c hc
  by_contra hdigit
  rw [Bool.not_eq_false] at hdigit
  exact absurd (isIdentifierPart_of_isDigit hdigit) (by rw [h c hc]; decide)

theorem not_isIdentifierStart_of_isDigit (h : c.isDigit) :
    Text.isIdentifierStart c = false := by
  have hdigits : ∀ c ∈ restChars, !(c.isDigit && Text.isIdentifierStart c) :=
    all_eq_true.mp (by decide +kernel)
  simpa [h] using hdigits c (mem_restChars_iff.mpr (isIdentifierPart_of_isDigit h))

theorem span_append {p : Char → Bool} (hr : ∀ c ∈ r.head?, p c = false) (cs : List Char) :
    (cs ++ r).takeWhile p = cs.takeWhile p ∧ (cs ++ r).dropWhile p = cs.dropWhile p ++ r := by
  induction cs with
  | nil =>
    cases r with
    | nil => simp
    | cons c r =>
      have hc := hr c rfl
      simp [hc]
  | cons c cs ih =>
    by_cases hc : p c
    · simp [hc, ih]
    · simp [hc]

/-! ## Numbers -/

def IsNumeral (cs : List Char) : Prop := scanNumber cs = some (cs, [])

theorem scanInteger_eq (h : cs.head? ≠ some '0') :
    scanInteger cs = (cs.takeWhile Char.isDigit, cs.dropWhile Char.isDigit) := by
  unfold scanInteger
  split
  · simp at h
  · rfl

theorem scanInteger_append (hr : ∀ c ∈ r.head?, c.isDigit = false) (cs : List Char) :
    scanInteger (cs ++ r) = ((scanInteger cs).1, (scanInteger cs).2 ++ r) := by
  by_cases hzero : cs.head? = some '0'
  · obtain ⟨t, rfl⟩ := List.head?_eq_some_iff.mp hzero
    rfl
  · have hzero' : (cs ++ r).head? ≠ some '0' := by
      cases cs with
      | nil =>
        intro h
        exact absurd (hr '0' h) (by decide)
      | cons c cs => exact hzero
    rw [scanInteger_eq hzero, scanInteger_eq hzero', (span_append hr cs).1, (span_append hr cs).2]

theorem scanInteger_parts (cs : List Char) : (scanInteger cs).1 ++ (scanInteger cs).2 = cs ∧
      ∀ c ∈ (scanInteger cs).1, c.isDigit := by
  by_cases hzero : cs.head? = some '0'
  · obtain ⟨t, rfl⟩ := List.head?_eq_some_iff.mp hzero
    exact ⟨rfl, by simp [scanInteger]⟩
  · rw [scanInteger_eq hzero]
    exact ⟨takeWhile_append_dropWhile, fun c hc => mem_takeWhile_imp hc⟩

theorem scanFraction_append (hr : ∀ c ∈ r.head?, c.isDigit = false)
    (hdot : cs = [] → r.head? ≠ some '.') :
    scanFraction (cs ++ r) = ((scanFraction cs).1, (scanFraction cs).2 ++ r) := by
  have hother : ∀ cs : List Char, cs.head? ≠ some '.' → scanFraction cs = ([], cs) := by
    intro cs h
    unfold scanFraction
    split
    · simp at h
    · rfl
  by_cases hc : cs.head? = some '.'
  · obtain ⟨t, rfl⟩ := List.head?_eq_some_iff.mp hc
    show ('.' :: (t ++ r).takeWhile Char.isDigit, (t ++ r).dropWhile Char.isDigit) = _
    rw [(span_append hr t).1, (span_append hr t).2]
    rfl
  · have hc' : (cs ++ r).head? ≠ some '.' := by
      cases cs with
      | nil => exact hdot rfl
      | cons c cs => exact hc
    rw [hother cs hc, hother _ hc']

theorem scanSign_append (hcs : cs ≠ []) :
    scanSign (cs ++ r) = ((scanSign cs).1, (scanSign cs).2 ++ r) := by
  obtain ⟨c, t, rfl⟩ := exists_cons_of_ne_nil hcs
  by_cases hplus : c = '+'
  · subst hplus
    rfl
  · by_cases hminus : c = '-'
    · subst hminus
      rfl
    · simp [scanSign, hplus, hminus]

theorem scanSign_parts (cs : List Char) : (scanSign cs).1 ++ (scanSign cs).2 = cs := by
  unfold scanSign
  split <;> rfl

theorem scanExponent_parts (cs : List Char) : (scanExponent cs).1 ++ (scanExponent cs).2 = cs := by
  cases cs with
  | nil => rfl
  | cons c t =>
    rw [scanExponent]
    split
    · simp only [cons_append, append_assoc, takeWhile_append_dropWhile, scanSign_parts]
    · rfl

theorem scanExponent_append (hr : ∀ c ∈ r.head?, Text.isIdentifierPart c = false)
    (hcs : scanExponent cs = (cs, [])) : scanExponent (cs ++ r) = (cs, r) := by
  have hdigit := not_isDigit_of_not_isIdentifierPart hr
  cases cs with
  | nil =>
    cases r with
    | nil => rfl
    | cons c r =>
      have hc := hr c rfl
      have he : c ≠ 'e' := by
        rintro rfl
        exact absurd hc (by decide)
      have hE : c ≠ 'E' := by
        rintro rfl
        exact absurd hc (by decide)
      simp [scanExponent, he, hE]
  | cons c t =>
    rw [scanExponent] at hcs
    by_cases hcond : ((c = 'e' || c = 'E') && (scanSign t).2.head?.any Char.isDigit)
    · rw [if_pos hcond, Prod.mk.injEq] at hcs
      obtain ⟨d, hd, hhead⟩ : ∃ d, (scanSign t).2.head? = some d ∧ d.isDigit := by
        rw [Bool.and_eq_true] at hcond
        simpa [Option.any_eq_true] using hcond.2
      have ht : t ≠ [] := by
        rintro rfl
        simp [scanSign] at hd
      have hsign := scanSign_append (r := r) ht
      obtain ⟨ds, hds⟩ := List.head?_eq_some_iff.mp hd
      have hcond' : ((c = 'e' || c = 'E') &&
          ((scanSign t).2 ++ r).head?.any Char.isDigit) = true := by
        rw [hds] at hcond ⊢
        exact hcond
      rw [cons_append, scanExponent, hsign]
      simp only [hcond', if_true]
      rw [(span_append hdigit _).1, (span_append hdigit _).2, hcs.1, hcs.2]
      rfl
    · rw [if_neg hcond] at hcs
      simp at hcs

theorem scanNumber_append (h : IsNumeral cs)
    (hr : ∀ c ∈ r.head?, Text.isIdentifierPart c = false)
    (hdot : r.head? = some '.' → ∃ c ∈ cs, c.isDigit = false) :
    scanNumber (cs ++ r) = some (cs, r) := by
  have hdigit := not_isDigit_of_not_isIdentifierPart hr
  obtain ⟨hparts, hwhole⟩ := scanInteger_parts cs
  have hfraction : (scanInteger cs).2 = [] → r.head? ≠ some '.' := by
    intro hnil hhead
    obtain ⟨c, hc, hnot⟩ := hdot hhead
    rw [hnil, append_nil] at hparts
    rw [← hparts] at hc
    rw [hwhole c hc] at hnot
    cases hnot
  rw [IsNumeral, scanNumber] at h
  rw [scanNumber, scanInteger_append hdigit]
  simp only [scanFraction_append hdigit hfraction] at h ⊢
  split at h
  · cases h
  · rename_i hsome
    rw [if_neg hsome]
    simp only [Option.some.injEq, Prod.mk.injEq] at h ⊢
    have hexponent : scanExponent (scanFraction (scanInteger cs).2).2 =
        ((scanFraction (scanInteger cs).2).2, []) := by
      have hall := scanExponent_parts (scanFraction (scanInteger cs).2).2
      rw [h.2, append_nil] at hall
      exact Prod.ext hall h.2
    rw [scanExponent_append hr hexponent]
    rw [hexponent] at h
    exact ⟨h.1, rfl⟩

theorem IsNumeral.head (h : IsNumeral cs) : ∃ c t, cs = c :: t ∧ (c.isDigit ∨ c = '.') := by
  cases cs with
  | nil => cases h
  | cons c t =>
    refine ⟨c, t, rfl, ?_⟩
    by_contra hc
    rw [not_or, Bool.not_eq_true] at hc
    have hzero : (c :: t).head? ≠ some '0' := by
      intro heq
      cases heq
      exact absurd hc.1 (by decide)
    have hfraction : scanFraction (c :: t) = ([], c :: t) := by
      unfold scanFraction
      split
      · rename_i heq
        cases heq
        exact absurd rfl hc.2
      · rfl
    rw [IsNumeral, scanNumber, scanInteger_eq hzero] at h
    simp [hc.1, hfraction] at h

theorem next_number (h : IsNumeral cs) (hr : isBoundary r)
    (hdot : r.head? = some '.' → ∃ c ∈ cs, c.isDigit = false) :
    next value (cs ++ r) = some (.number (value cs), r) := by
  obtain ⟨c, t, rfl, hc⟩ := h.head
  have hscan := scanNumber_append h (not_isIdentifierPart_of_isBoundary hr) hdot
  have hstart : Text.isIdentifierStart c = false ∧ c ≠ '"' ∧ c ≠ '\x27' := by
    rcases hc with hc | rfl
    · refine ⟨not_isIdentifierStart_of_isDigit hc, ?_, ?_⟩
      · rintro rfl
        exact absurd hc (by decide)
      · rintro rfl
        exact absurd hc (by decide)
    · decide
  rw [cons_append] at hscan ⊢
  rw [next, if_neg (by simp [hstart.1]), if_neg (by simp [hstart.2])]
  simp only [hscan, hr, if_true]

/-! ## Words -/

theorem isIdentifier_chars (h : isIdentifier s) :
    (∃ c cs, s.toList = c :: cs ∧ isIdentifierStart c) ∧
      ∃ c, s.toList.getLast? = some c ∧ isIdentifierPart c := by
  rw [isIdentifier] at h
  cases hs : s.toList with
  | nil =>
    rw [hs] at h
    cases h
  | cons c cs =>
    rw [hs] at h
    obtain ⟨hc, hcs⟩ := Bool.and_eq_true_iff.mp h
    refine ⟨⟨c, cs, rfl, hc⟩, _, List.getLast?_eq_some_getLast (cons_ne_nil c cs), ?_⟩
    rcases mem_cons.mp (getLast_mem (cons_ne_nil c cs)) with h | h
    · rw [h]
      exact isIdentifierPart_of_isIdentifierStart hc
    · exact all_eq_true.mp hcs _ h

theorem next_word (h : isIdentifier s) (hr : isBoundary r) :
    next value (s.toList ++ r) = some (.word s, r) := by
  rw [isIdentifier] at h
  cases hs : s.toList with
  | nil => simp [hs] at h
  | cons c cs =>
    simp only [hs, Bool.and_eq_true, all_eq_true] at h
    have hspan := span_append (not_isIdentifierPart_of_isBoundary hr) cs
    rw [takeWhile_eq_self_iff.mpr h.2, dropWhile_eq_nil_iff.mpr h.2, nil_append] at hspan
    rw [cons_append, next, if_pos h.1]
    simp only [hspan.1, hspan.2, hr, if_true]
    rw [← hs, String.ofList_toList]

/-! ## Strings -/

theorem hexDigit_digitChar : ∀ n < 16, hexDigit? (Nat.digitChar n) = some n := by decide

theorem scanEscape_hex4 {n : Nat} (hn : n < 0x10000) (r : List Char) :
    scanEscape ('u' :: hex4 n ++ r) = some ([n], r) := by
  have hdigit : ∀ k, hexDigit? (Nat.digitChar (k % 16)) = some (k % 16) := fun k =>
    hexDigit_digitChar _ (Nat.mod_lt k (by decide))
  have hsum : 16 * (16 * (16 * (n / 4096 % 16) + n / 256 % 16) + n / 16 % 16) + n % 16 = n := by
    omega
  simp [scanEscape, hex4, hdigit, hsum]

theorem scanString_cons {us : List Nat} {r' : List Char} (hquote : c ≠ '"')
    (hend : isLineEnd c = false)
    (h : (if c = '\\' then scanEscape r else some (Text.unitsOfChar c, r)) = some (us, r'))
    (hlength : r'.length ≤ r.length) :
    scanString '"' (c :: r) = (scanString '"' r').map fun p => (us ++ p.1, p.2) := by
  have hused : r'.length < (c :: r).length := Nat.lt_succ_of_le hlength
  rw [scanString, if_neg hquote, if_neg (by simp [hend]), h, used_some hused]
  show (scanString '"' r' >>= fun p => some (us ++ p.1, p.2)) = _
  cases scanString '"' r' <;> rfl

theorem scanString_escaped (c : Char) (r : List Char) : scanString '"' (escaped c ++ r) =
      (scanString '"' r).map fun p => (Text.unitsOfChar c ++ p.1, p.2) := by
  unfold Text.escaped
  cases hshort : Text.shortEscape? c with
  | some e =>
    show scanString '"' ('\\' :: e :: r) = _
    refine scanString_cons (by decide) (by decide) ?_ (Nat.le_succ _)
    unfold shortEscape? at hshort
    split at hshort <;> cases hshort <;> rfl
  | none =>
    have hplain : c ≠ '"' ∧ c ≠ '\\' ∧ c ≠ '\n' ∧ c ≠ '\r' := by
      refine ⟨?_, ?_, ?_, ?_⟩ <;> rintro rfl <;> cases hshort
    simp only
    by_cases hcontrol : (c < ' ' || c = '\u2028' || c = '\u2029')
    · rw [if_pos hcontrol]
      have hsmall : c.toNat < 0x10000 := by
        simp only [Bool.or_eq_true, decide_eq_true_eq] at hcontrol
        rcases hcontrol with (hlt | rfl) | rfl
        · exact Nat.lt_of_lt_of_le hlt (by decide)
        · decide
        · decide
      have hunits : Text.unitsOfChar c = [c.toNat] := if_pos hsmall
      have hescape := scanEscape_hex4 hsmall r
      rw [hunits]
      exact scanString_cons (by decide) (by decide) hescape (by simp [Text.hex4]; omega)
    · rw [if_neg hcontrol]
      simp only [Bool.or_eq_true, decide_eq_true_eq, not_or] at hcontrol
      refine scanString_cons hplain.1 ?_ (if_neg hplain.2.1) (Nat.le_refl _)
      simp [isLineEnd, hplain.2.2, hcontrol]

theorem next_string (s : String) (r : List Char) :
    next value ((Text.quoted s).toList ++ r) = some (.string (Text.units s), r) := by
  have hscan : ∀ cs : List Char, scanString '"' (cs.flatMap escaped ++ '"' :: r) =
      some (cs.flatMap Text.unitsOfChar, r) := by
    intro cs
    induction cs with
    | nil => rw [flatMap_nil, nil_append, scanString, if_pos rfl, flatMap_nil]
    | cons c cs ih =>
      rw [flatMap_cons, append_assoc, scanString_escaped, ih, Option.map_some, flatMap_cons]
  rw [Text.quoted, String.toList_ofList, cons_append, cons_append, append_assoc,
    singleton_append, next, if_neg (by decide), if_pos (by decide), hscan]
  rfl

/-! ## Punctuators -/

theorem scanNumber_eq_none (hc : c.isDigit = false)
    (hdot : c = '.' → ∀ d ∈ r.head?, d.isDigit = false) : scanNumber (c :: r) = none := by
  have hzero : (c :: r).head? ≠ some '0' := by
    intro heq
    cases heq
    exact absurd hc (by decide)
  rw [scanNumber, scanInteger_eq hzero]
  simp only [takeWhile_cons, dropWhile_cons, hc, Bool.false_eq_true, if_false]
  by_cases hpoint : c = '.'
  · subst hpoint
    have hspan := (span_append (hdot rfl) []).1
    rw [nil_append, takeWhile_nil] at hspan
    simp [scanFraction, hspan]
  · have hfraction : scanFraction (c :: r) = ([], c :: r) := by
      unfold scanFraction
      split
      · rename_i heq
        cases heq
        exact absurd rfl hpoint
      · rfl
    simp [hfraction]

theorem next_punct (h : p.EndsBefore r) : next value (p.chars ++ r) = some (.punct p, r) := by
  obtain ⟨c, hhead, hstart, hquote, hquote', hdigit, -, hdot⟩ := p.head_chars
  have hlongest := Punct.longest_append h
  have hcomment := Punct.not_isComment h
  obtain ⟨t, ht⟩ := List.head?_eq_some_iff.mp hhead
  have hnumber : scanNumber (c :: (t ++ r)) = none := by
    refine scanNumber_eq_none hdigit fun hpoint d hd => ?_
    obtain rfl := hdot hpoint
    cases ht
    exact h.digit rfl d hd
  have hdrop : (c :: (t ++ r)).drop p.chars.length = r := by
    rw [← cons_append, ← ht, drop_left]
  rw [ht, cons_append] at hlongest hcomment
  rw [ht, cons_append, next, if_neg (by simp [hstart]), if_neg (by simp [hquote, hquote']), hnumber]
  simp only [hcomment, Bool.false_eq_true, if_false, hlongest]
  show some (Token.punct p, (c :: (t ++ r)).drop p.chars.length) = _
  rw [hdrop]

/-! ## Texts -/

def Lexes (value : List Char → ν) (cs : List Char) (ts : List (Token ν)) (r : List Char) : Prop :=
  lex value (cs ++ r) = (lex value r).map (ts ++ ·)

theorem lex_nil : lex value [] = some [] := by rw [lex]

theorem lexes_nil : Lexes value [] [] r := by
  show lex value r = (lex value r).map fun ts => ts
  rw [Option.map_id']

theorem Lexes.append {cs' : List Char} {ts ts' : List (Token ν)}
    (h : Lexes value cs ts (cs' ++ r)) (h' : Lexes value cs' ts' r) :
    Lexes value (cs ++ cs') (ts ++ ts') r := by
  have hassoc : (fun l : List (Token ν) => ts ++ ts' ++ l) = (ts ++ ·) ∘ (ts' ++ ·) :=
    funext fun l => append_assoc ts ts' l
  rw [Lexes, append_assoc, h, h', hassoc, Option.map_map]

theorem Lexes.lex_eq {ts : List (Token ν)} (h : Lexes value cs ts []) : lex value cs = some ts := by
  rw [Lexes, append_nil, lex_nil, Option.map_some, append_nil] at h
  exact h

theorem lexes_blanks (h : ∀ c ∈ cs, Text.isBlank c) : Lexes value cs [] r := by
  induction cs with
  | nil => exact lexes_nil
  | cons c cs ih =>
    have hcs := ih fun d hd => h d (.tail _ hd)
    rw [Lexes, cons_append, lex, if_pos (h c mem_cons_self)]
    exact hcs

theorem lexes_of_next {t : Token ν} (hc : Text.isBlank c = false)
    (h : next value (c :: cs ++ r) = some (t, r)) : Lexes value (c :: cs) [t] r := by
  have hlength : r.length < (c :: (cs ++ r)).length := by
    rw [length_cons, length_append]
    omega
  rw [cons_append] at h
  rw [Lexes, cons_append, lex, if_neg (by simp [hc]), h, used_some hlength]
  show (lex value r >>= fun ts => some (t :: ts)) = _
  cases lex value r <;> rfl

theorem lexes_punct (h : p.EndsBefore r) : Lexes value p.chars [.punct p] r := by
  obtain ⟨c, hc, -, -, -, -, hblank, -⟩ := p.head_chars
  have hnext : next value (p.chars ++ r) = some (.punct p, r) := next_punct h
  obtain ⟨t, ht⟩ := List.head?_eq_some_iff.mp hc
  rw [ht] at hnext ⊢
  exact lexes_of_next hblank hnext

theorem not_isBlank_of_isIdentifierPart (h : Text.isIdentifierPart c) :
    Text.isBlank c = false := by
  have hblanks : ∀ c ∈ restChars, ¬ Text.isBlank c := any_eq_false.mp (by decide +kernel)
  exact Bool.eq_false_of_not_eq_true (hblanks c (mem_restChars_iff.mpr h))

theorem lexes_number (h : IsNumeral cs) (hr : isBoundary r)
    (hdot : r.head? = some '.' → ∃ c ∈ cs, c.isDigit = false) :
    Lexes value cs [.number (value cs)] r := by
  have hnext : next value (cs ++ r) = some (.number (value cs), r) := next_number h hr hdot
  obtain ⟨c, t, rfl, hc⟩ := h.head
  refine lexes_of_next ?_ hnext
  rcases hc with hc | rfl
  · exact not_isBlank_of_isIdentifierPart (isIdentifierPart_of_isDigit hc)
  · decide

theorem lexes_word (h : Text.isIdentifier s) (hr : isBoundary r) :
    Lexes value s.toList [.word s] r := by
  have hnext : next value (s.toList ++ r) = some (.word s, r) := next_word h hr
  obtain ⟨⟨c, cs, hcs, hc⟩, -⟩ := isIdentifier_chars h
  rw [hcs] at hnext ⊢
  exact lexes_of_next (not_isBlank_of_isIdentifierPart (isIdentifierPart_of_isIdentifierStart hc))
    hnext

theorem lexes_string (s : String) :
    Lexes value (Text.quoted s).toList [.string (Text.units s)] r := by
  have hnext : next value ((Text.quoted s).toList ++ r) = some (.string (Text.units s), r) :=
    next_string s r
  have hquoted : (Text.quoted s).toList = '"' :: (s.toList.flatMap escaped ++ ['"']) := by
    rw [quoted, String.toList_ofList]
    rfl
  rw [hquoted] at hnext ⊢
  exact lexes_of_next (by decide) hnext

end Token

end ScriptPress

import ScriptPress.Proofs.Number.Literal

/-! # Texts of numbers -/

namespace ScriptPress.Number

open Float.Model.UnpackedFloat String

variable {x : Float} {zero : List Char} {magnitude : Decimal → List Char} {cs : List Char}

theorem not_isNaN_isInf_of_isZero (h : isZero x) : x.isNaN = false ∧ x.isInf = false := by
  rw [isZero_iff] at h
  show x.toModel.unpack.isNaN = false ∧ x.toModel.unpack.isInf = false
  generalize x.toModel.unpack = u at h ⊢
  rcases u with s | _ | s | ⟨s, m, e, _⟩
  · cases s <;> cases h
  · cases h
  · exact ⟨rfl, rfl⟩
  · exact ⟨rfl, rfl⟩

theorem isFinite_of_isZero (h : isZero x) : x.isFinite := by
  rw [isZero_iff] at h
  show x.toModel.unpack.isFinite = true
  generalize x.toModel.unpack = u at h ⊢
  rcases u with s | _ | s | ⟨s, m, e, _⟩
  · cases s <;> cases h
  · cases h
  · rfl
  · cases s <;> cases h

theorem not_isNaN_of_lt_zero (h : x < 0) : x.isNaN = false := by
  rw [lt_zero_iff] at h
  show x.toModel.unpack.isNaN = false
  generalize x.toModel.unpack = u at h ⊢
  rcases u with s | _ | s | ⟨s, m, e, _⟩
  · rfl
  · cases h
  · rfl
  · rfl

theorem isNaN_abs (x : Float) : x.abs.isNaN = x.isNaN := by
  show x.abs.toModel.unpack.isNaN = x.toModel.unpack.isNaN
  rw [unpack_abs]
  cases x.toModel.unpack <;> rfl

theorem isInf_abs (x : Float) : x.abs.isInf = x.isInf := by
  show x.abs.toModel.unpack.isInf = x.toModel.unpack.isInf
  rw [unpack_abs]
  cases x.toModel.unpack <;> rfl

theorem isInf_of_not_isFinite (hx : x.isFinite = false) (hnan : x.isNaN = false) :
    x.isInf := by
  change x.toModel.unpack.isFinite = false at hx
  change x.toModel.unpack.isNaN = false at hnan
  show x.toModel.unpack.isInf = true
  generalize x.toModel.unpack = u at hx hnan ⊢
  rcases u with s | _ | s | ⟨s, m, e, _⟩
  · rfl
  · cases hnan
  · cases hx
  · cases hx

theorem spelledWith_zero (h : isZero x) : spelledWith zero magnitude x = zero := by
  rw [spelledWith, (not_isNaN_isInf_of_isZero h).1, if_neg Bool.false_ne_true, if_pos h]

theorem spelledWith_magnitude (hx : x.isFinite) (h : isZero x = false) (hlt : ¬ x < 0) :
    spelledWith zero magnitude x = magnitude (.shortest x.abs) := by
  obtain ⟨hnan, hinf⟩ := not_isNaN_isInf_of_isFinite hx
  rw [spelledWith, hnan, h, hinf]
  exact if_neg hlt

theorem spelledWith_minus (hlt : x < 0) :
    spelledWith zero magnitude x = '-' :: spelledWith zero magnitude x.abs := by
  have hnan := not_isNaN_of_lt_zero hlt
  have hzero := isZero_of_lt_zero hlt
  rw [spelledWith, spelledWith, isNaN_abs, isZero_abs, isInf_abs, abs_abs, hnan, hzero]
  exact (if_pos hlt).trans (congrArg ('-' :: ·) (if_neg (not_abs_lt_zero x)).symm)

theorem spelledWith_word (hx : x.isFinite = false) (hlt : ¬ x < 0) :
    spelledWith zero magnitude x = if x.isNaN then "NaN".toList else "Infinity".toList := by
  rw [spelledWith]
  by_cases hnan : x.isNaN
  · rw [if_pos hnan, if_pos hnan]
  · rw [if_neg hnan, if_neg hnan]
    rw [Bool.not_eq_true] at hnan
    have hinf := isInf_of_not_isFinite hx hnan
    have hzero : ¬ isZero x := fun h => by
      rw [(not_isNaN_isInf_of_isZero h).2] at hinf
      cases hinf
    rw [if_neg hzero, if_pos hinf]
    exact if_neg hlt

def decimalValue (x : Float) : ℚ := if isZero x then 0 else (Decimal.shortest x.abs).value

theorem spells_spelledWith (hx : x.isFinite) (hlt : ¬ x < 0)
    (hzero : ∃ n : Numeral, n.Spells zero ∧ n.value = 0)
    (hmagnitude : ∀ d : Decimal, d.Proper →
      ∃ n : Numeral, n.Spells (magnitude d) ∧ n.value = d.value) :
    ∃ n : Numeral, n.Spells (spelledWith zero magnitude x) ∧ n.value = decimalValue x := by
  by_cases h : isZero x
  · rw [spelledWith_zero h, decimalValue, if_pos h]
    exact hzero
  · rw [decimalValue, if_neg h]
    rw [Bool.not_eq_true] at h
    rw [spelledWith_magnitude hx h hlt]
    exact hmagnitude _ (Decimal.proper_shortest (isZero_abs x ▸ h))

theorem spells_zero {e : List Char} (he : Numeral.SpellsExponent 0 e) :
    ∃ n : Numeral, n.Spells ('0' :: e) ∧ n.value = 0 := by
  refine ⟨⟨['0'], [], 0⟩, ⟨by decide, by decide, fun _ => rfl, nofun, e, he, rfl⟩, ?_⟩
  show ((Numeral.digitsValue ['0'] : ℕ) : ℚ) * _ = 0
  rw [show Numeral.digitsValue ['0'] = 0 from rfl, Nat.cast_zero, zero_mul]

theorem spells_spelled (hx : x.isFinite) (hlt : ¬ x < 0) :
    ∃ n : Numeral, n.Spells (spelled x).toList ∧ n.value = decimalValue x := by
  rw [spelled, toList_ofList]
  exact spells_spelledWith hx hlt (spells_zero .none) fun d hd => hd.positional

theorem spells_spelledExponential (hx : x.isFinite) (hlt : ¬ x < 0) :
    ∃ n : Numeral, n.Spells (spelledExponential x).toList ∧ n.value = decimalValue x := by
  have hexponent : Numeral.SpellsExponent 0 ['e', '+', '0'] :=
    .plus (show ['0'] ≠ [] by decide) (by decide)
  rw [spelledExponential, if_pos hx, toList_ofList]
  exact spells_spelledWith hx hlt (spells_zero hexponent) fun d hd => hd.exponential

theorem abridged_of_unsigned (h : cs.head? ≠ some '-') : abridged cs = abridgedMagnitude cs := by
  rw [abridged]
  rintro rest rfl
  exact h rfl

theorem head_of_isNumeral (h : Token.IsNumeral cs) : cs.head? ≠ some '-' := by
  obtain ⟨c, t, rfl, hc⟩ := h.head
  rintro ⟨⟩
  rcases hc with hc | hc <;> cases hc

theorem spells_abridged {n : Numeral} (h : n.Spells cs) :
    ∃ n' : Numeral, n'.Spells (abridged cs) ∧ n'.value = n.value := by
  rw [abridged_of_unsigned (head_of_isNumeral h.isNumeral)]
  exact h.abridged

theorem spells_briefest (hx : x.isFinite) (hlt : ¬ x < 0) :
    ∃ n : Numeral, n.Spells (briefest x).toList ∧ n.value = decimalValue x := by
  obtain ⟨n, hn, hvalue⟩ := spells_spelled hx hlt
  obtain ⟨n', hn', hvalue'⟩ := spells_spelledExponential hx hlt
  obtain ⟨k, hk, hkvalue⟩ := spells_abridged hn
  obtain ⟨k', hk', hkvalue'⟩ := spells_abridged hn'
  rw [briefest, toList_ofList]
  split
  · exact ⟨k', hk', hkvalue'.trans hvalue'⟩
  · exact ⟨k, hk, hkvalue.trans hvalue⟩

theorem spelled_word (hx : x.isFinite = false) (hlt : ¬ x < 0) :
    spelled x = if x.isNaN then "NaN" else "Infinity" := by
  rw [spelled, spelledWith_word hx hlt]
  split <;> exact ofList_toList

theorem spelledExponential_word (hx : x.isFinite = false) : spelledExponential x = spelled x := by
  rw [spelledExponential, hx]
  rfl

theorem briefest_word (hx : x.isFinite = false) (hlt : ¬ x < 0) : briefest x = spelled x := by
  rw [briefest, spelledExponential_word hx, spelled_word hx hlt]
  cases x.isNaN <;> rfl

theorem spelled_minus (hlt : x < 0) : (spelled x).toList = '-' :: (spelled x.abs).toList := by
  rw [spelled, spelled, toList_ofList, toList_ofList, spelledWith_minus hlt]

theorem spelledExponential_minus (hlt : x < 0) :
    (spelledExponential x).toList = '-' :: (spelledExponential x.abs).toList := by
  rw [spelledExponential, spelledExponential, isFinite_abs]
  split
  · simp only [spelledWith_minus hlt, toList_ofList]
  · exact spelled_minus hlt

theorem head_abs (x : Float) :
    (spelled x.abs).toList.head? ≠ some '-' ∧ (spelledExponential x.abs).toList.head? ≠
      some '-' := by
  have hlt := not_abs_lt_zero x
  by_cases hx : x.abs.isFinite
  · obtain ⟨n, hn, -⟩ := spells_spelled hx hlt
    obtain ⟨n', hn', -⟩ := spells_spelledExponential hx hlt
    exact ⟨head_of_isNumeral hn.isNumeral, head_of_isNumeral hn'.isNumeral⟩
  · rw [Bool.not_eq_true] at hx
    rw [spelledExponential_word hx, spelled_word hx hlt]
    split <;> exact ⟨by decide, by decide⟩

theorem briefest_minus (hlt : x < 0) : (briefest x).toList = '-' :: (briefest x.abs).toList := by
  have hminus : ∀ t : List Char, t.head? ≠ some '-' → abridged ('-' :: t) = '-' :: abridged t := by
    intro t ht
    rw [abridged_of_unsigned ht]
    rfl
  obtain ⟨hplain, hexponential⟩ := head_abs x
  rw [briefest, briefest, toList_ofList, toList_ofList, spelled_minus hlt,
    spelledExponential_minus hlt, hminus _ hplain, hminus _ hexponential]
  simp only [List.length_cons, Nat.add_lt_add_iff_right]
  split <;> rfl

end ScriptPress.Number

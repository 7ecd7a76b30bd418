import ScriptPress.Proofs.Print.Number

/-! # What the text of a number denotes -/

namespace ScriptPress

open Number

/-- The text is a decimal literal, is accepted as one, and has the exact value. -/
def Numeral.Denotes (cs : List Char) (q : ℚ) : Prop :=
  ∃ n : Numeral, n.Spells cs ∧ Numeral.parse? cs = some n ∧ n.value = q

open Numeral (Denotes)

theorem Numeral.denotes_iff {cs : List Char} {q : ℚ} :
    Denotes cs q ↔ ∃ n : Numeral, n.Spells cs ∧ n.value = q :=
  exists_congr fun _ => ⟨fun h => ⟨h.1, h.2.2⟩, fun h => ⟨h.1, h.1.parse, h.2⟩⟩

namespace Number

theorem length_abridgedMagnitude_le (cs : List Char) :
    (abridgedMagnitude cs).length ≤ cs.length := by
  unfold abridgedMagnitude
  dsimp only
  split
  · exact Nat.le_succ_of_le (List.length_filter_le _ _)
  · exact List.length_filter_le _ _

theorem length_abridged_le (cs : List Char) : (abridged cs).length ≤ cs.length := by
  unfold abridged
  split
  · exact Nat.succ_le_succ (length_abridgedMagnitude_le _)
  · exact length_abridgedMagnitude_le _

theorem length_briefest_le (x : Float) :
    (briefest x).toList.length ≤ (spelled x).toList.length := by
  have hle := length_abridged_le (spelled x).toList
  rw [briefest, String.toList_ofList]
  split <;> omega

end Number

/-- The text denotes the value, and still does when it is abridged, with a minus or without. -/
structure Numeral.DenotesBriefly (text : List Char) (q : ℚ) : Prop where
  whole : Denotes text q
  brief : Denotes (abridged text) q
  minus : ∃ magnitude, abridged ('-' :: text) = '-' :: magnitude ∧ Denotes magnitude q

theorem Numeral.Spells.denotesBriefly {n : Numeral} {cs : List Char} (h : n.Spells cs) :
    DenotesBriefly cs n.value where
  whole := denotes_iff.mpr ⟨n, h, rfl⟩
  brief := denotes_iff.mpr (spells_abridged h)
  minus := ⟨_, rfl, denotes_iff.mpr h.abridged⟩

/-- The text is the magnitude, behind a minus for a number below zero. -/
def Style.Prints (st : Style) (x : Float) (magnitude : List Char) : Prop :=
  (st.numberText x).toList = if x < 0 then '-' :: magnitude else magnitude

theorem Style.exists_prints (st : Style) {x : Float} (hx : x.isFinite)
    (hzero : isZero x = false) :
    ∃ magnitude, st.Prints x magnitude ∧ Denotes magnitude (Decimal.shortest x.abs).value := by
  have hvalue : decimalValue x.abs = (Decimal.shortest x.abs).value := by
    rw [decimalValue, isZero_abs, hzero, abs_abs]
    rfl
  rw [← hvalue]
  by_cases hlt : x < 0
  · have hminus : hasMinus x := by simp [hasMinus, hlt]
    have habs : x.abs.isFinite := (isFinite_abs x).trans hx
    refine ⟨(st.numberText x.abs).toList, ?_,
      Numeral.denotes_iff.mpr (st.spells_numberText habs (hasMinus_abs x))⟩
    rw [Style.Prints, if_pos hlt]
    exact st.numberText_minus hminus
  · have hplain : hasMinus x = false := by simp [hasMinus, hlt, hzero]
    have habs : decimalValue x.abs = decimalValue x := by
      rw [decimalValue, decimalValue, isZero_abs, abs_abs]
    refine ⟨(st.numberText x).toList, (if_neg hlt).symm, ?_⟩
    rw [habs]
    exact Numeral.denotes_iff.mpr (st.spells_numberText hx hplain)

/-- Both layouts of a decimal denote it, whole or abridged. In either mode, the printed text of a
finite number other than zero has a magnitude that denotes the shortest decimal of the number; the
minified text is not longer than the other. -/
theorem numberText_denotes : (∀ d : Decimal, d.Proper →
      Numeral.DenotesBriefly d.positional d.value ∧ Numeral.DenotesBriefly d.exponential d.value) ∧
    ∀ x : Float, x.isFinite = true → isZero x = false →
      (Decimal.shortest x.abs).Proper ∧
      (∀ st : Style, ∃ magnitude, st.Prints x magnitude ∧
        Denotes magnitude (Decimal.shortest x.abs).value) ∧
      ∀ name : SymbolId → String, ((Style.mk .minified name).numberText x).toList.length ≤
        ((Style.mk .normal name).numberText x).toList.length := by
  constructor
  · intro d hd
    obtain ⟨n, hn, hvalue⟩ := hd.positional
    obtain ⟨n', hn', hvalue'⟩ := hd.exponential
    exact ⟨hvalue ▸ hn.denotesBriefly, hvalue' ▸ hn'.denotesBriefly⟩
  · intro x hx hzero
    refine ⟨Decimal.proper_shortest (isZero_abs x ▸ hzero), fun st =>
      st.exists_prints hx hzero, fun name => ?_⟩
    have hsigned : ¬ (isZero x && isNegative x) = true := by simp [hzero]
    rw [Style.numberText, Style.numberText, if_neg hsigned, if_neg hsigned]
    exact length_briefest_le x

theorem numberText_denotes_small : Decimal.Proper ⟨['2', '5'], -6⟩ ∧
    Numeral.DenotesBriefly "2.5e-7".toList (Decimal.value ⟨['2', '5'], -6⟩) := by
  have hproper : Decimal.Proper ⟨['2', '5'], -6⟩ := ⟨by decide, '2', ['5'], rfl, by decide⟩
  exact ⟨hproper, (numberText_denotes.1 _ hproper).1⟩

end ScriptPress

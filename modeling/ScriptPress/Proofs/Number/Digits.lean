import Mathlib.Algebra.Order.Ring.Nat
import ScriptPress.Number.Shortest
import ScriptPress.Proofs.Number.Magnitude

/-! # Digits of shortest decimals -/

namespace ScriptPress

open List Nat

namespace Number

open Float.Model

theorem mantissa_pos {x : Float} (h : isZero x = false) : 0 < (magnitude x).mantissa := by
  apply pos_of_ne_zero
  intro hzero
  have hbits : x.toBits.toNat % 9223372036854775808 = 0 := by
    rw [magnitude] at hzero
    by_cases hbiased : magnitudeBits x / Nat.pow 2 52 = 0
    · rw [if_pos hbiased] at hzero
      simp only [magnitudeBits, pow_eq] at hbiased hzero
      omega
    · rw [if_neg hbiased] at hzero
      simp only [pow_eq] at hzero
      omega
  have hlt : x.toBits.toNat < 18446744073709551616 := x.toBits.toNat_lt
  have hcases : x.toBits.toNat = 0 ∨ x.toBits.toNat = 9223372036854775808 := by omega
  rw [← Bool.not_eq_true, isZero_iff] at h
  apply h
  show (UnpackedFloat.unpack Format.binary64 x.toBits.toBitVec).compare _ = _
  rcases hcases with hbits | hbits
  · obtain hbits : x.toBits = 0 := UInt64.toNat_inj.mp hbits
    rw [hbits]
    decide
  · obtain hbits : x.toBits = 0x8000000000000000 := UInt64.toNat_inj.mp hbits
    rw [hbits]
    decide

end Number

namespace Decimal

/-- There is a first digit, and it is not zero. -/
structure Proper (d : Decimal) : Prop where
  isDigit : ∀ c ∈ d.digits, c.isDigit
  head : ∃ c cs, d.digits = c :: cs ∧ c ≠ '0'

theorem toDigits_head {n : Nat} (h : 0 < n) : ∃ c cs, toDigits 10 n = c :: cs ∧ c ≠ '0' := by
  induction n using Nat.strong_induction_on with
  | _ n ih =>
    rw [toDigits_eq_if (by decide)]
    by_cases hn : n < 10
    · rw [if_pos hn]
      refine ⟨_, [], rfl, ?_⟩
      rw [ne_eq, digitChar_eq_zero]
      omega
    · obtain ⟨c, cs, hcs, hc⟩ := ih (n / 10) (by omega) (by omega)
      rw [if_neg hn, hcs]
      exact ⟨c, _, rfl, hc⟩

theorem trimmed_head {n : Nat} (h : 0 < n) : ∃ c cs, trimmed n = c :: cs ∧ c ≠ '0' := by
  obtain ⟨c, cs, hcs, hc⟩ := toDigits_head h
  -- The last digit from behind is the first one, which stays.
  have hdrop : ∀ ds : List Char, ∃ ds', (ds ++ [c]).dropWhile (· == '0') = ds' ++ [c] := by
    intro ds
    induction ds with
    | nil => exact ⟨[], by simp [hc]⟩
    | cons d ds ih =>
      by_cases hd : d = '0'
      · simpa [hd] using ih
      · exact ⟨d :: ds, by simp [hd]⟩
  obtain ⟨ds', hds'⟩ := hdrop cs.reverse
  refine ⟨c, ds'.reverse, ?_, hc⟩
  rw [trimmed, hcs, reverse_cons, hds', reverse_append]
  rfl

theorem isDigit_of_mem_trimmed {n : Nat} {c : Char} (h : c ∈ trimmed n) : c.isDigit := by
  have hmem : c ∈ (toDigits 10 n).reverse :=
    (dropWhile_sublist _).subset (mem_reverse.mp h)
  exact isDigit_of_mem_toDigits (by decide) (by decide) (mem_reverse.mp hmem)

namespace Ratio

variable {r : Ratio} {e : Int}

theorem pow_le_of_length_le (hn : 0 < n) (h : k < (toDigits 10 n).length) : 10 ^ k ≤ n := by
  rcases Nat.eq_zero_or_pos k with rfl | hk
  · rwa [pow_zero]
  · rw [← not_lt, ← length_toDigits_le_iff (by decide) hk]
    omega

theorem lt_pow_length (n : Nat) : n < 10 ^ (toDigits 10 n).length :=
  (length_toDigits_le_iff (by decide) length_toDigits_pos).mp (le_refl _)

theorem floor_shift_pos (hnum : 0 < r.num) (hden : 0 < r.den) (he : e < r.decade) :
    0 < (r.shift e).floor := by
  have hpow : ∀ k : Nat, (k : Int) ≤ -e → r.num * 10 ^ k ≤ r.num * 10 ^ (-e).toNat := by
    intro k hk
    exact Nat.mul_le_mul_left _ (Nat.pow_le_pow_right (by decide) (by omega))
  have hsmall : ∀ k : Nat, (k : Int) ≤ -e → e < 0 → r.den ≤ r.num * 10 ^ k →
      0 < (r.shift e).floor := by
    intro k hk hneg hle
    rw [shift, if_neg (by omega), floor]
    exact div_pos (le_trans hle (hpow k hk)) hden
  rw [decade] at he
  by_cases hone : r.den ≤ r.num
  · rw [if_pos hone] at he
    by_cases hneg : e < 0
    · exact hsmall 0 (by omega) hneg (by simpa using hone)
    · rw [shift, if_pos (by omega), floor]
      have hfloor : 0 < r.floor := div_pos hone hden
      have hle := pow_le_of_length_le (k := e.toNat) hfloor (by omega)
      have hmul := (le_div_iff_mul_le hden).mp hle
      exact Nat.div_pos (by rwa [Nat.mul_comm] at hmul) (Nat.mul_pos hden (Nat.pow_pos (by decide)))
  · rw [if_neg hone] at he
    have hlength : 0 < (toDigits 10 (r.den / r.num)).length := length_toDigits_pos
    simp only at he
    split at he
    · rename_i hpower
      refine hsmall ((toDigits 10 (r.den / r.num)).length - 1) (by omega) ?_
        (le_of_eq hpower)
      by_contra hneg
      have hk : (toDigits 10 (r.den / r.num)).length - 1 = 0 := by omega
      rw [hk] at hpower
      simp only [pow_eq, pow_zero, mul_one] at hpower
      omega
    · have hlt := (div_lt_iff_lt_mul hnum).mp (lt_pow_length (r.den / r.num))
      rw [mul_comm] at hlt
      exact hsmall _ (by omega) (by omega) (le_of_lt hlt)

end Ratio

namespace Basin

variable {b : Basin} {e : Int} {n : Nat}

theorem pos_of_holds (hlower : 0 < b.lower) (h : b.holds n e) : 0 < n := by
  apply pos_of_ne_zero
  rintro rfl
  have hpos : 0 < b.lower * Nat.pow 10 (-e).toNat := Nat.mul_pos hlower (Nat.pow_pos (by decide))
  simp only [holds, zero_mul] at h
  split at h
  · rw [Bool.and_eq_true, decide_eq_true_eq] at h
    omega
  · rw [Bool.and_eq_true, decide_eq_true_eq] at h
    omega

theorem pos_of_candidate (hlower : 0 < b.lower) (h : b.candidate e = some n) : 0 < n := by
  rw [candidate] at h
  split at h
  · rename_i hbelow _
    have hpos := pos_of_holds hlower hbelow
    split at h <;> cases h <;> omega
  · rename_i hbelow _
    cases h
    exact pos_of_holds hlower hbelow
  · cases h
    omega
  · cases h

theorem search_pos (hlower : 0 < b.lower) (hvalue : 0 < b.value) (hden : 0 < b.den) :
    ∀ n e, e < (Ratio.mk b.value b.den).decade → 0 < (b.search n e).1 := by
  intro n
  induction n with
  | zero =>
    intro e he
    exact Ratio.floor_shift_pos hvalue hden he
  | succ n ih =>
    intro e he
    rw [search]
    cases hc : b.candidate e with
    | none => exact ih (e - 1) (by omega)
    | some m => exact pos_of_candidate hlower hc

end Basin

theorem Ratio.ofBinary_pos (e : Int) : 0 < (ofBinary 1 e).num ∧ 0 < (ofBinary 1 e).den := by
  rw [ofBinary]
  split
  · exact ⟨Nat.mul_pos Nat.one_pos (Nat.pow_pos (by decide)), Nat.one_pos⟩
  · exact ⟨Nat.one_pos, Nat.pow_pos (by decide)⟩

theorem proper_shortest {x : Float} (h : Number.isZero x = false) : (shortest x).Proper := by
  have hmantissa := Number.mantissa_pos h
  obtain ⟨hnum, hden⟩ := Ratio.ofBinary_pos ((Number.magnitude x).exponent - 2)
  have hlower : 0 < (Basin.of x).lower := by
    refine mul_pos ?_ hnum
    split <;> omega
  have hvalue : 0 < (Basin.of x).value := mul_pos (by omega) hnum
  have hsearch := Basin.search_pos hlower hvalue hden 17
    ((Ratio.mk (Basin.of x).value (Basin.of x).den).decade - 1) (by omega)
  exact ⟨fun c hc => isDigit_of_mem_trimmed hc, trimmed_head hsearch⟩

end Decimal

end ScriptPress

import Mathlib
import ScriptPress.Number.Dyadic

/-! # Magnitudes of doubles -/

namespace ScriptPress.Number

open Float.Model Format
open Float.Model.UnpackedFloat

theorem unpack_positive (b : BitVec binary64.numBits) : unpack binary64
        (packComponents binary64 .positive (unpackExponent b) (unpackMantissa b)) =
      (UnpackedFloat.unpack binary64 b).abs := by
  have hsign : Sign.ofBitVec Sign.positive.toBitVec = .positive := rfl
  rw [UnpackedFloat.unpack, UnpackedFloat.unpack]
  simp only [unpackMantissa_packComponents, unpackExponent_packComponents,
    unpackSign_packComponents, hsign]
  split
  · split <;> rfl
  · split
    · split <;> rfl
    · rfl

theorem unpack_of_isNaNBits {b : BitVec binary64.numBits} (h : isNaNBits b) :
    UnpackedFloat.unpack binary64 b = notANumber := by
  obtain ⟨htop, hm⟩ := of_decide_eq_true h
  rw [UnpackedFloat.unpack, if_pos htop, if_neg hm]

theorem unpack_pack_abs (b : BitVec binary64.numBits) : unpack binary64
        (pack binary64 (unpack binary64 b).abs) =
      (unpack binary64 b).abs := by
  rw [← unpack_positive, pack_unpack]
  split
  · rename_i hnan
    rw [unpack_packedNaN, unpack_of_isNaNBits hnan]
  · rfl

variable {x : Float}

theorem unpack_abs (x : Float) : x.abs.toModel.unpack = x.toModel.unpack.abs :=
  unpack_pack_abs x.toModel.toBits.toBitVec

theorem lt_zero_iff : x < 0 ↔ x.toModel.unpack.compare (zero .positive) = some .lt := by
  show decide ((x.toModel.unpack.compare (zero .positive) == some .lt) = true) = true ↔ _
  rw [decide_eq_true_iff, beq_iff_eq]

theorem isZero_iff : isZero x ↔ x.toModel.unpack.compare (zero .positive) = some .eq := by
  show (x.toModel.unpack.compare (zero .positive) == some .eq) = true ↔ _
  rw [beq_iff_eq]

theorem isZero_of_lt_zero (h : x < 0) : isZero x = false := by
  rw [← Bool.not_eq_true, isZero_iff, lt_zero_iff.mp h]
  nofun

theorem not_isNaN_isInf_of_isFinite (h : x.isFinite) :
    x.isNaN = false ∧ x.isInf = false := by
  change x.toModel.unpack.isFinite = true at h
  show x.toModel.unpack.isNaN = false ∧ x.toModel.unpack.isInf = false
  cases hu : x.toModel.unpack <;> rw [hu] at h <;> first | exact ⟨rfl, rfl⟩ | cases h

theorem abs_abs (x : Float) : x.abs.abs = x.abs := by
  show (⟨Float.Model.pack x.abs.toModel.unpack.abs⟩ : Float) =
    ⟨Float.Model.pack x.toModel.unpack.abs⟩
  rw [unpack_abs]
  cases x.toModel.unpack <;> rfl

theorem isFinite_abs (x : Float) : x.abs.isFinite = x.isFinite := by
  show x.abs.toModel.unpack.isFinite = x.toModel.unpack.isFinite
  rw [unpack_abs]
  cases x.toModel.unpack <;> rfl

theorem isZero_abs (x : Float) : isZero x.abs = isZero x := by
  rw [Bool.eq_iff_iff, isZero_iff, isZero_iff, unpack_abs]
  rcases x.toModel.unpack with s | _ | s | ⟨s, m, e, h⟩
  · cases s <;> decide
  · rfl
  · rfl
  · cases s <;> exact iff_of_false nofun nofun

theorem not_abs_lt_zero (x : Float) : ¬ x.abs < 0 := by
  rw [lt_zero_iff, unpack_abs]
  cases x.toModel.unpack <;> nofun

theorem isNegative_abs_of_isZero (h : isZero x) : isNegative x.abs = false := by
  have hunpack : x.toModel.unpack.abs = zero .positive := by
    rw [isZero_iff] at h
    generalize x.toModel.unpack = u at h ⊢
    rcases u with s | _ | s | ⟨s, m, e, _⟩
    · cases s <;> cases h
    · cases h
    · rfl
    · cases s <;> cases h
  have habs : x.abs = ⟨Float.Model.pack (zero .positive)⟩ := by
    rw [← hunpack]
    rfl
  rw [habs]
  decide

end ScriptPress.Number

import Mathlib.Data.List.GetD
import Mathlib.Data.List.Nodup
import Mathlib.Data.Set.Function
import ScriptPress.Text.Identifier

/-! # The enumeration of identifiers -/

namespace ScriptPress.Text

open List

variable {i m n : Nat} {c : Char} {cs : List Char} {s : String}

theorem length_firstChars : firstChars.length = 54 := by decide +kernel

theorem length_restChars : restChars.length = 64 := by decide +kernel

theorem nodup_restChars : restChars.Nodup := by decide +kernel

theorem nodup_firstChars : firstChars.Nodup :=
  (nodup_append.mp nodup_restChars).1

theorem mod_lt_firstChars (n : Nat) : n % 54 < firstChars.length := by
  rw [length_firstChars]
  exact Nat.mod_lt _ (by decide)

theorem mod_lt_restChars (n : Nat) : n % 64 < restChars.length := by
  rw [length_restChars]
  exact Nat.mod_lt _ (by decide)

theorem digit_inj (h : cs.Nodup) {j : Nat} (hi : i < cs.length)
    (hj : j < cs.length) (heq : cs.getD i c = cs.getD j c) : i = j := by
  rw [getD_eq_getElem _ _ hi, getD_eq_getElem _ _ hj] at heq
  exact (Nodup.getElem_inj_iff h).mp heq

theorem getD_mem (h : i < cs.length) : cs.getD i c ∈ cs := by
  rw [getD_eq_getElem _ _ h]
  exact getElem_mem h

theorem exists_digit (h : c ∈ cs) (n : Nat) (d : Char) :
    ∃ k, cs.getD (k % cs.length) d = c ∧ k / cs.length = n := by
  obtain ⟨i, hi, rfl⟩ := mem_iff_getElem.mp h
  refine ⟨cs.length * n + i, ?_, ?_⟩
  · rw [Nat.mul_add_mod, Nat.mod_eq_of_lt hi, getD_eq_getElem _ _ hi]
  · rw [Nat.mul_add_div (Nat.zero_lt_of_lt hi), Nat.div_eq_of_lt hi, Nat.add_zero]

theorem isAlpha_eq (c : Char) : c.isAlpha = (decide ('A'.val ≤ c.val ∧ c.val ≤ 'Z'.val) ||
      (decide ('a'.val ≤ c.val) && decide (c.val ≤ 'z'.val))) :=
  rfl

theorem isIdentifierPart_of_isIdentifierStart (h : isIdentifierStart c) :
    isIdentifierPart c := by
  simp only [isIdentifierStart, isIdentifierPart, Char.isAlphanum, Bool.or_eq_true] at h ⊢
  exact h.imp_left (Or.imp_left Or.inl)

theorem toNat_lt_of_isIdentifierPart (h : isIdentifierPart c) : c.toNat < 128 := by
  have hletter : c.isAlpha → c.val ≤ 'z'.val := by grind [isAlpha_eq]
  have hdigit : c.isDigit → c.val ≤ '9'.val := by grind [Char.isDigit]
  simp only [isIdentifierPart, Char.isAlphanum, Bool.or_eq_true, decide_eq_true_eq] at h
  rcases h with ((h | h) | rfl) | rfl
  · exact Nat.lt_of_le_of_lt (hletter h) (by decide)
  · exact Nat.lt_of_le_of_lt (hdigit h) (by decide)
  · decide
  · decide

theorem mem_restChars_iff : c ∈ restChars ↔ isIdentifierPart c := by
  have hmem : ∀ c ∈ restChars, isIdentifierPart c := all_eq_true.mp (by decide +kernel)
  -- no character beyond ASCII passes the test, and those of ASCII can be gone through
  have hascii : ∀ n < 128, isIdentifierPart (.ofNat n) → .ofNat n ∈ restChars := by
    decide +kernel
  refine ⟨hmem c, fun h => ?_⟩
  have hc := hascii c.toNat (toNat_lt_of_isIdentifierPart h)
  rw [Char.ofNat_toNat] at hc
  exact hc h

theorem mem_firstChars_iff : c ∈ firstChars ↔ isIdentifierStart c := by
  have hmem : ∀ c ∈ firstChars, isIdentifierStart c := all_eq_true.mp (by decide +kernel)
  have hdigit : ∀ c ∈ "0123456789".toList, ¬ isIdentifierStart c :=
    any_eq_false.mp (by decide +kernel)
  refine ⟨hmem c, fun h => ?_⟩
  have hrest := mem_restChars_iff.mpr (isIdentifierPart_of_isIdentifierStart h)
  rcases mem_append.mp hrest with hc | hc
  · exact hc
  · exact absurd h (hdigit c hc)

theorem isIdentifier_iff : isIdentifier s ↔
    ∃ c cs, s.toList = c :: cs ∧ c ∈ firstChars ∧ ∀ d ∈ cs, d ∈ restChars := by
  unfold isIdentifier
  cases s.toList with
  | nil => simp
  | cons c cs => simp [mem_firstChars_iff, mem_restChars_iff]

theorem toNat_lt_of_isIdentifier (h : isIdentifier s) : ∀ c ∈ s.toList, c.toNat < 128 := by
  obtain ⟨c, cs, hs, hc, hcs⟩ := isIdentifier_iff.mp h
  rw [hs, forall_mem_cons]
  constructor
  · exact toNat_lt_of_isIdentifierPart (mem_restChars_iff.mp (mem_append_left _ hc))
  · exact fun d hd => toNat_lt_of_isIdentifierPart (mem_restChars_iff.mp (hcs d hd))

theorem nameTail_zero : nameTail 0 = [] := by rw [nameTail, dif_pos rfl]

theorem nameTail_succ (n : Nat) :
    nameTail (n + 1) = restChars.getD (n % 64) '$' :: nameTail (n / 64) := by
  rw [nameTail, dif_neg (Nat.succ_ne_zero n), length_restChars, Nat.add_sub_cancel]

theorem nameTail_injective : Function.Injective nameTail := by
  intro m n h
  induction m using Nat.strongRecOn generalizing n with
  | _ m ih =>
    cases m with
    | zero =>
      cases n with
      | zero => rfl
      | succ n =>
        rw [nameTail_zero, nameTail_succ] at h
        cases h
    | succ m =>
      cases n with
      | zero =>
        rw [nameTail_zero, nameTail_succ] at h
        cases h
      | succ n =>
        rw [nameTail_succ, nameTail_succ, cons.injEq] at h
        have hdigit : m % 64 = n % 64 :=
          digit_inj nodup_restChars (mod_lt_restChars m) (mod_lt_restChars n) h.1
        have hrest : m / 64 = n / 64 :=
          ih _ (Nat.lt_succ_of_le (Nat.div_le_self m 64)) h.2
        omega

theorem length_nameTail_mono (h : m ≤ n) : (nameTail m).length ≤ (nameTail n).length := by
  induction n using Nat.strongRecOn generalizing m with
  | _ n ih =>
    cases m with
    | zero =>
      rw [nameTail_zero]
      exact Nat.zero_le _
    | succ m =>
      obtain ⟨n, rfl⟩ : ∃ k, n = k + 1 := ⟨n - 1, by omega⟩
      rw [nameTail_succ, nameTail_succ, length_cons, length_cons]
      have hdiv : m / 64 ≤ n / 64 := Nat.div_le_div_right (Nat.le_of_succ_le_succ h)
      exact Nat.succ_le_succ (ih _ (Nat.lt_succ_of_le (Nat.div_le_self n 64)) hdiv)

theorem mem_restChars_of_mem_nameTail (h : c ∈ nameTail n) : c ∈ restChars := by
  induction n using Nat.strongRecOn with
  | _ n ih =>
    cases n with
    | zero =>
      rw [nameTail_zero] at h
      cases h
    | succ n =>
      rw [nameTail_succ, mem_cons] at h
      rcases h with rfl | h
      · exact getD_mem (mod_lt_restChars n)
      · exact ih _ (Nat.lt_succ_of_le (Nat.div_le_self n 64)) h

theorem exists_nameTail (h : ∀ c ∈ cs, c ∈ restChars) : ∃ n, nameTail n = cs := by
  induction cs with
  | nil => exact ⟨0, nameTail_zero⟩
  | cons c cs ih =>
    rw [forall_mem_cons] at h
    obtain ⟨n, hn⟩ := ih h.2
    obtain ⟨k, hc, hk⟩ := exists_digit h.1 n '$'
    rw [length_restChars] at hc hk
    -- one more than `k`, since a tail without characters takes the count of zero
    exact ⟨k + 1, by rw [nameTail_succ, hc, hk, hn]⟩

theorem toList_nthName (n : Nat) :
    (nthName n).toList = firstChars.getD (n % 54) 'a' :: nameTail (n / 54) := by
  rw [nthName, String.toList_ofList, length_firstChars]

theorem nthName_injective : Function.Injective nthName := by
  intro m n h
  have hlists := congrArg String.toList h
  rw [toList_nthName, toList_nthName, cons.injEq] at hlists
  have hdigit : m % 54 = n % 54 :=
    digit_inj nodup_firstChars (mod_lt_firstChars m) (mod_lt_firstChars n) hlists.1
  have hrest : m / 54 = n / 54 := nameTail_injective hlists.2
  omega

theorem length_nthName_mono (h : m ≤ n) : (nthName m).length ≤ (nthName n).length := by
  rw [← String.length_toList, ← String.length_toList, toList_nthName, toList_nthName,
    length_cons, length_cons]
  exact Nat.succ_le_succ (length_nameTail_mono (Nat.div_le_div_right h))

theorem isIdentifier_nthName (n : Nat) : isIdentifier (nthName n) :=
  isIdentifier_iff.mpr ⟨_, _, toList_nthName n, getD_mem (mod_lt_firstChars n),
    fun _ => mem_restChars_of_mem_nameTail⟩

theorem exists_nthName (h : isIdentifier s) : ∃ n, nthName n = s := by
  obtain ⟨c, cs, hs, hc, hcs⟩ := isIdentifier_iff.mp h
  obtain ⟨n, hn⟩ := exists_nameTail hcs
  obtain ⟨k, hk, hdiv⟩ := exists_digit hc n 'a'
  rw [length_firstChars] at hk hdiv
  refine ⟨k, String.toList_injective ?_⟩
  rw [toList_nthName, hk, hdiv, hn, hs]

/-- Counting up from zero, the names are the identifiers of one character, then those of two and
so on, without a gap and without a repetition. -/
theorem nthName_enumerates :
    Set.BijOn nthName Set.univ
      {s | s ≠ "" ∧ (∀ c ∈ s.toList, c.toNat < 128) ∧ isIdentifier s = true} ∧
    Monotone fun n => (nthName n).length := by
  refine ⟨⟨?_, nthName_injective.injOn, ?_⟩, fun m n => length_nthName_mono⟩
  · intro n _
    have hname := isIdentifier_nthName n
    refine ⟨?_, toNat_lt_of_isIdentifier hname, hname⟩
    intro hempty
    rw [hempty] at hname
    exact absurd hname (by decide)
  · rintro s ⟨-, -, hs⟩
    obtain ⟨n, hn⟩ := exists_nthName hs
    exact ⟨n, trivial, hn⟩

end ScriptPress.Text

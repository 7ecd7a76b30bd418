import ScriptPress.Proofs.Number.Literal
import ScriptPress.Proofs.Number.Magnitude

/-! # Texts that are numbers -/

namespace ScriptPress

open List Numeral

namespace Numeral

variable {n : Numeral} {cs e ds r w f : List Char} {v : Int} {mark : Char}

/-! ## Zeros beside the point -/

theorem not_mem_point (hds : ∀ c ∈ ds, c.isDigit) : '.' ∉ ds := fun h =>
  absurd (hds '.' h) (by decide)

theorem Exponent.not_mem_point (h : Exponent e v) : '.' ∉ e := by
  cases h with
  | omitted => exact not_mem_nil
  | written _ hmark hsign hne hds =>
    have hsign' : ∀ s ∈ [[], ['+'], ['-']], '.' ∉ s := by decide
    rw [mem_cons, mem_append, not_or, not_or]
    refine ⟨?_, hsign' _ hsign, not_mem_point hds⟩
    rintro rfl
    rcases hmark with h | h <;> cases h

theorem Exponent.getLast (h : Exponent e v) : ∀ c ∈ e.getLast?, c.isDigit := by
  cases h with
  | omitted => rintro c ⟨⟩
  | @written mark ds sign hmark hsign hne hds =>
    intro c hc
    rw [← cons_append, getLast?_append_of_ne_nil _ hne, getLast?_eq_some_getLast hne] at hc
    cases hc
    exact hds _ (getLast_mem hne)

theorem padBefore_append (hds : '.' ∉ ds) : padBefore mark (ds ++ r) = ds ++ padBefore mark r := by
  induction ds with
  | nil => rfl
  | cons d ds ih =>
    rw [mem_cons, not_or] at hds
    rw [cons_append, padBefore, if_neg fun h => hds.1 h.1.symm, ih hds.2, cons_append]

theorem padBefore_of_not_mem (h : '.' ∉ r) : padBefore mark r = r := by
  have happend : padBefore mark (r ++ []) = _ := padBefore_append h
  rwa [append_nil, padBefore, append_nil] at happend

theorem padBefore_point (hr : '.' ∉ r) : padBefore mark ('.' :: r) =
      '.' :: if r.head? = some mark then '0' :: r else r := by
  rw [padBefore, padBefore_of_not_mem hr]
  simp only [true_and]
  split <;> rfl

theorem padBefore_marks (hr : '.' ∉ r) : padBefore 'E' (padBefore 'e' ('.' :: r)) =
      '.' :: if r.head? = some 'e' ∨ r.head? = some 'E' then '0' :: r else r := by
  rw [padBefore_point hr]
  by_cases he : r.head? = some 'e'
  · rw [if_pos he, if_pos (.inl he), padBefore_point (by simp [hr]), if_neg (by simp)]
  · rw [if_neg he, padBefore_point hr]
    simp only [he, false_or]

def padded (ds : List Char) : List Char := if ds = [] then ['0'] else ds

theorem normalized_whole (hw : ∀ c ∈ w, c.isDigit) (he : Exponent e v) :
    normalized (w ++ e) = w ++ e := by
  have hpoint : '.' ∉ w ++ e := by
    rw [mem_append, not_or]
    exact ⟨not_mem_point hw, he.not_mem_point⟩
  have hhead : (w ++ e).head? ≠ some '.' := fun h => hpoint (mem_of_mem_head? h)
  have hlast : (w ++ e).getLast? ≠ some '.' := fun h => hpoint (mem_of_getLast? h)
  simp only [normalized, if_neg hhead, padBefore_of_not_mem hpoint, if_neg hlast]

theorem normalized_pointed (hw : ∀ c ∈ w, c.isDigit) (hf : ∀ c ∈ f, c.isDigit)
    (he : Exponent e v) : normalized (w ++ '.' :: (f ++ e)) =
      padded w ++ '.' :: (padded f ++ e) := by
  have hzero : ∀ c ∈ padded w, c.isDigit := by
    rw [padded]
    split
    · decide
    · exact hw
  have hfront : (if (w ++ '.' :: (f ++ e)).head? = some '.' then '0' :: (w ++ '.' :: (f ++ e))
      else w ++ '.' :: (f ++ e)) = padded w ++ '.' :: (f ++ e) := by
    cases w with
    | nil => rfl
    | cons d ds =>
      have hd : d ≠ '.' := by
        rintro rfl
        exact absurd (hw '.' mem_cons_self) (by decide)
      simp [padded, hd]
  have hback : '.' ∉ f ++ e := by
    rw [mem_append, not_or]
    exact ⟨not_mem_point hf, he.not_mem_point⟩
  have hlast : ∀ r : List Char, r ≠ [] → '.' ∉ r → (padded w ++ '.' :: r).getLast? ≠ some '.' := by
    intro r hne hr hget
    rw [getLast?_append_cons, getLast?_cons_of_ne_nil hne] at hget
    exact hr (mem_of_getLast? hget)
  simp only [normalized, hfront, padBefore_append (not_mem_point hzero),
    padBefore_marks hback]
  cases f with
  | nil =>
    cases he with
    | omitted => simp [padded]
    | @written mark ds sign hmark =>
      have hhead : (mark :: (sign ++ ds)).head? = some 'e' ∨
          (mark :: (sign ++ ds)).head? = some 'E' := by simpa using hmark
      rw [nil_append] at hback ⊢
      rw [if_pos hhead, if_neg (hlast _ (cons_ne_nil _ _) (by simpa using hback))]
      rfl
  | cons d ds =>
    have hd : d ≠ 'e' ∧ d ≠ 'E' := by
      constructor <;> rintro rfl <;> exact absurd (hf _ mem_cons_self) (by decide)
    have hhead : ¬ ((d :: ds ++ e).head? = some 'e' ∨ (d :: ds ++ e).head? = some 'E') := by
      simp [hd]
    rw [if_neg hhead, if_neg (hlast (d :: ds ++ e) (cons_ne_nil _ _) hback)]
    rfl

theorem padded_digits (hds : ∀ c ∈ ds, c.isDigit) :
    padded ds ≠ [] ∧ ∀ c ∈ padded ds, c.isDigit := by
  rw [padded]
  split
  · decide
  · rename_i hne
    exact ⟨hne, hds⟩

theorem value_padded (w f : List Char) (v : Int) :
    (mk (padded w) (padded f) v).value = (mk w f v).value := by
  have hw : digitsValue (padded w ++ padded f) = digitsValue (w ++ padded f) := by
    cases w with
    | nil => exact digitsValue_zeros_append 1 _
    | cons => rfl
  rw [value, value, significand, significand, hw, scale, scale]
  cases f with
  | nil =>
    show ((digitsValue (w ++ List.replicate 1 '0') : ℕ) : ℚ) * 10 ^ (v - 1) = _
    rw [digitsValue_append_zeros, append_nil, length_nil, Nat.cast_zero, sub_zero, pow_one,
      Nat.cast_mul, zpow_sub_one₀ (by norm_num)]
    push_cast
    ring
  | cons => rfl

/-- The texts of literals with digits on both sides of their point. -/
inductive Complete : List Char → Numeral → Prop
  | whole {w e : List Char} {v : Int} (hne : w ≠ []) (hw : ∀ c ∈ w, c.isDigit)
    (he : Exponent e v) : Complete (w ++ e) ⟨w, [], v⟩
  | pointed {w f e : List Char} {v : Int} (hne : w ≠ []) (hne' : f ≠ [])
    (hw : ∀ c ∈ w, c.isDigit) (hf : ∀ c ∈ f, c.isDigit) (he : Exponent e v) :
    Complete (w ++ '.' :: (f ++ e)) ⟨w, f, v⟩

theorem Complete.literal (h : Complete cs n) : Literal cs n := by
  cases h with
  | whole hne hw he => exact .whole hne hw he
  | pointed hne hne' hw hf he =>
    exact .pointed (fun hnil => hne (append_eq_nil_iff.mp hnil).1) hw hf he

theorem Literal.normalized (h : Literal cs n) :
    ∃ m, Complete (normalized cs) m ∧ m.value = n.value := by
  cases h with
  | whole hne hw he =>
    rw [normalized_whole hw he]
    exact ⟨_, .whole hne hw he, rfl⟩
  | pointed hne hw hf he =>
    rw [normalized_pointed hw hf he]
    exact ⟨_, .pointed (padded_digits hw).1 (padded_digits hf).1 (padded_digits hw).2
      (padded_digits hf).2 he, value_padded _ _ _⟩

end Numeral

/-! ## Operations that give a number -/

namespace Number

open Float.Model UnpackedFloat

variable {x y : Float} {f : UnpackedFloat} {mark : Char} {p : Nat × String} {cs : List Char}

theorem isNaN_ofModel (h : f.isNaN = false) : (Float.ofModel (.pack f)).isNaN = false := by
  show (unpack Format.binary64 (pack Format.binary64 f)).isNaN = false
  rw [Bool.eq_false_iff, ne_eq, isNaN_unpack_iff_of_valid valid_pack]
  intro hpack
  have hbits := @isNaNBits_packedNaN Format.binary64
  rw [← hpack] at hbits
  obtain ⟨htop, hm⟩ := of_decide_eq_true hbits
  revert htop hm
  fun_cases UnpackedFloat.pack with
  | case1 => cases h
  | case2 s => simp [packedInfinity]
  | case3 s => simp [packedZero]
  | case4 s m e hm biasedExponent h => simp [packedInfinity]
  | case5 s m e hm actualMantissaBits biasedExponent h₁ h₂ =>
    have hsmall : biasedExponent < 2047 := by
      have : 2 ^ Format.binary64.exponentBits = 2048 := rfl
      omega
    intro htop
    rw [unpackExponent_packComponents] at htop
    have hnat := congrArg BitVec.toNat htop
    simp at hnat
    omega
  | case6 s m e hm actualMantissaBits biasedExponent h₁ h₂ =>
    intro htop
    rw [unpackExponent_packComponents] at htop
    cases htop

theorem isNaN_round (spec : Format) (s : Sign) (m : Nat) (e : Int) (a : Accuracy) :
    (roundWithAccuracy spec s m e a).isNaN = false := by
  unfold roundWithAccuracy
  dsimp only
  split <;> rfl

theorem isNaN_neg (x : Float) : (-x).isNaN = x.isNaN := by
  cases hx : x.toModel.unpack with
  | notANumber =>
    show (unpack Format.binary64
      (pack Format.binary64 x.toModel.unpack.neg)).isNaN = x.toModel.unpack.isNaN
    rw [hx]
    exact congrArg UnpackedFloat.isNaN unpack_packedNaN
  | _ =>
    have hnumber : x.toModel.unpack.neg.isNaN = false := by rw [hx]; rfl
    have hself : x.isNaN = false := congrArg UnpackedFloat.isNaN hx
    exact (isNaN_ofModel hnumber).trans hself.symm

theorem exists_finite (hx : x.isFinite) (hzero : isZero x = false) :
    ∃ s m e hm, x.toModel.unpack = .finite s m e hm := by
  have hcompare : x.toModel.unpack.compare (zero .positive) ≠ some .eq := fun h => by
    rw [isZero_iff.mpr h] at hzero
    cases hzero
  change x.toModel.unpack.isFinite = true at hx
  generalize x.toModel.unpack = u at hx hcompare ⊢
  cases u with
  | infinity s => cases hx
  | notANumber => cases hx
  | zero s => exact absurd rfl hcompare
  | finite s m e hm => exact ⟨s, m, e, hm, rfl⟩

theorem isNaN_mul (hx : x.isNaN = false) (hy : y.isFinite) (hzero : isZero y = false) :
    (x * y).isNaN = false := by
  obtain ⟨s, m, e, hm, hu⟩ := exists_finite hy hzero
  refine isNaN_ofModel (f := mul Format.binary64 x.toModel.unpack y.toModel.unpack) ?_
  change x.toModel.unpack.isNaN = false at hx
  rw [hu]
  generalize x.toModel.unpack = u at hx ⊢
  cases u with
  | notANumber => cases hx
  | finite => exact isNaN_round ..
  | _ => rfl

theorem isNaN_div (hx : x.isNaN = false) (hy : y.isFinite) (hzero : isZero y = false) :
    (x / y).isNaN = false := by
  obtain ⟨s, m, e, hm, hu⟩ := exists_finite hy hzero
  refine isNaN_ofModel (f := div Format.binary64 x.toModel.unpack y.toModel.unpack) ?_
  change x.toModel.unpack.isNaN = false at hx
  rw [hu]
  generalize x.toModel.unpack = u at hx ⊢
  cases u with
  | notANumber => cases hx
  | finite => exact isNaN_round ..
  | _ => rfl

theorem isNaN_normalize (spec : Format) (m e : Int) (s : Sign) :
    (normalize spec m e s).isNaN = false := by
  unfold UnpackedFloat.normalize
  split
  · exact isNaN_round ..
  · rfl
  · exact isNaN_round ..

theorem isNaN_add (hx : x.isNaN = false) (hy : y.isFinite) : (x + y).isNaN = false := by
  refine isNaN_ofModel (f := add Format.binary64 x.toModel.unpack y.toModel.unpack) ?_
  change x.toModel.unpack.isNaN = false at hx
  change y.toModel.unpack.isFinite = true at hy
  generalize x.toModel.unpack = u at hx ⊢
  generalize y.toModel.unpack = w at hy ⊢
  cases w with
  | infinity => cases hy
  | notANumber => cases hy
  | zero t =>
    cases u with
    | notANumber => cases hx
    | zero s => cases s <;> cases t <;> rfl
    | _ => rfl
  | finite =>
    cases u with
    | notANumber => cases hx
    | finite => exact isNaN_normalize ..
    | _ => rfl

theorem isNaN_scientific (m : Nat) (e : Int) :
    (ofScientific Format.binary64 m e).isNaN = false := by
  unfold UnpackedFloat.ofScientific
  split
  · rfl
  · split
    · rfl
    · split
      · rfl
      · split <;> exact isNaN_round ..

theorem isNaN_ofScientific (m : Nat) (b : Bool) (e : Nat) :
    (Float.ofScientific m b e).isNaN = false := by
  have hpower : ∀ i : Fin 23, (Float.exactlyRepresentablePowersOfTen[i]).isFinite ∧
      isZero Float.exactlyRepresentablePowersOfTen[i] = false := by decide +kernel
  unfold Float.ofScientific
  split
  · rename_i hfast
    have hm : m.toUInt64.toFloat.isNaN = false := isNaN_ofModel (isNaN_normalize ..)
    obtain ⟨hfinite, hzero⟩ := hpower ⟨e, by omega⟩
    cases b with
    | true => exact isNaN_div hm hfinite hzero
    | false => exact isNaN_mul hm hfinite hzero
  · exact isNaN_ofModel (isNaN_scientific ..)

theorem isNaN_toFloat (n : Numeral) : n.toFloat.isNaN = false := by
  have hzero : (0 : Float).isNaN = false := isNaN_ofScientific ..
  unfold toFloat nearest
  split
  · exact hzero
  · dsimp only
    split
    · decide +kernel
    · split
      · exact hzero
      · split <;> exact isNaN_ofScientific ..

theorem isNaN_nan : nan.isNaN := by decide +kernel

/-! ## Digits of a radix -/

def radixes : List (Nat × String) :=
  [(16, "0123456789abcdefABCDEF"), (8, "01234567"), (2, "01")]

def radix? : Char → Option (Nat × String)
  | 'x' | 'X' => radixes[0]?
  | 'o' | 'O' => radixes[1]?
  | 'b' | 'B' => radixes[2]?
  | _ => none

theorem mem_radixes (h : radix? mark = some p) : p ∈ radixes := by
  unfold radix? at h
  split at h <;> first | exact mem_of_getElem? h | cases h

theorem digit_isSome_iff (h : p ∈ radixes) (c : Char) :
    (digit? p.1 c).isSome ↔ c ∈ p.2.toList := by
  have hsmall : ∀ p ∈ radixes, ∀ n < 128, ((digit? p.1 (Char.ofNat n)).isSome ↔
      Char.ofNat n ∈ p.2.toList) := by decide +kernel
  by_cases hc : c.toNat < 128
  · have hchar := hsmall _ h c.toNat hc
    rwa [Char.ofNat_toNat] at hchar
  · have hdigits : ∀ p ∈ radixes, ∀ c ∈ p.2.toList, c.toNat < 128 := by decide +kernel
    have hlarge : ∀ d : Char, d.toNat < 128 → ¬ c ≤ d := fun d hd hle =>
      hc (Nat.lt_of_le_of_lt hle hd)
    have hnone : digit? p.1 c = none := by
      simp [digit?, hlarge]
    rw [hnone]
    exact iff_of_false Bool.false_ne_true fun hmem => hc (hdigits _ h c hmem)

theorem foldl_pushDigit_none (radix : Nat) (digits : List Char) :
    digits.foldl (pushDigit radix) none = none := by
  induction digits with
  | nil => rfl
  | cons c cs ih => exact ih

theorem foldl_pushDigit (h : p ∈ radixes) (cs : List Char) (hx : x.isNaN = false) :
    ((cs.foldl (pushDigit p.1) (some x)).getD nan).isNaN = false ↔
      ∀ c ∈ cs, c ∈ p.2.toList := by
  have hradix : ∀ p ∈ radixes, p.1 ≤ 16 ∧ (Float.ofNat p.1).isFinite ∧
      isZero (Float.ofNat p.1) = false := by decide +kernel
  have hsmall : ∀ d < 16, (Float.ofNat d).isFinite := by decide +kernel
  obtain ⟨hle, hfinite, hzero⟩ := hradix p h
  induction cs generalizing x with
  | nil => simpa using hx
  | cons c cs ih =>
    have hdigit := digit_isSome_iff h c
    rw [foldl_cons, forall_mem_cons, ← hdigit]
    cases hd : digit? p.1 c with
    | none =>
      have hstep : pushDigit p.1 (some x) c = none := by simp [pushDigit, hd]
      rw [hstep, foldl_pushDigit_none]
      exact iff_of_false (by decide +kernel) fun hall => Bool.false_ne_true hall.1
    | some d =>
      have hlt : d < p.1 := by
        simp only [digit?, Option.ite_none_right_eq_some, Option.some.injEq] at hd
        exact hd.2 ▸ hd.1
      have hstep : pushDigit p.1 (some x) c =
          some (x * Float.ofNat p.1 + Float.ofNat d) := by simp [pushDigit, hd]
      rw [hstep, Option.isSome_some, and_iff_right rfl]
      exact ih (isNaN_add (isNaN_mul hx hfinite hzero) (hsmall d (by omega)))

theorem isNaN_ofRadix (h : p ∈ radixes) (cs : List Char) :
    (ofRadix p.1 cs).isNaN = false ↔ cs ≠ [] ∧ ∀ c ∈ cs, c ∈ p.2.toList := by
  cases cs with
  | nil =>
    have hnan : (ofRadix p.1 []).isNaN := isNaN_nan
    rw [hnan]
    exact iff_of_false Bool.noConfusion fun hne => hne.1 rfl
  | cons c cs =>
    rw [and_iff_right (cons_ne_nil c cs)]
    exact foldl_pushDigit h (c :: cs) (isNaN_ofScientific 0 false 0)

/-! ## Texts of numbers -/

/-- The texts that are numbers, with no blanks around them. -/
inductive NumericText : List Char → Prop
  | empty : NumericText []
  | radix {mark : Char} {p : Nat × String} {cs : List Char} (hmark : radix? mark = some p)
    (hne : cs ≠ []) (hcs : ∀ c ∈ cs, c ∈ p.2.toList) : NumericText ('0' :: mark :: cs)
  | infinity {sign : List Char} (hsign : sign ∈ [[], ['+'], ['-']]) :
    NumericText (sign ++ "Infinity".toList)
  | decimal {sign cs : List Char} {n : Numeral} (hsign : sign ∈ [[], ['+'], ['-']])
    (h : Literal cs n) : NumericText (sign ++ cs)

def Unsigned (cs : List Char) : Prop := cs = "Infinity".toList ∨ ∃ n, Literal cs n

theorem isNaN_ofUnsigned (cs : List Char) : (ofUnsigned cs).isNaN = false ↔ Unsigned cs := by
  rw [ofUnsigned, Unsigned]
  by_cases hinfinity : cs = "Infinity".toList
  · rw [if_pos hinfinity]
    exact iff_of_true (by decide +kernel) (.inl hinfinity)
  · rw [if_neg hinfinity]
    simp only [hinfinity, false_or]
    cases hparse : parse? cs with
    | none =>
      rw [Option.isSome_none, if_neg Bool.false_ne_true, isNaN_nan]
      refine iff_of_false Bool.noConfusion ?_
      rintro ⟨n, hn⟩
      rw [hn.parse] at hparse
      cases hparse
    | some n =>
      have hn := literal_of_parse hparse
      obtain ⟨m, hm, -⟩ := hn.normalized
      rw [Option.isSome_some, if_pos rfl, hm.literal.parse]
      exact iff_of_true (isNaN_toFloat m) ⟨n, hn⟩

theorem Unsigned.head (h : Unsigned cs) : cs.head? ≠ some '+' ∧ cs.head? ≠ some '-' := by
  rcases h with rfl | ⟨n, hn⟩
  · decide
  · have hdigit : ∀ c ∈ cs.head?, c.isDigit ∨ c = '.' := by
      cases hn with
      | @whole w e v hne hw =>
        obtain ⟨d, t, rfl, hd⟩ := head_digits hne hw
        rintro c ⟨⟩
        exact .inl hd
      | @pointed w f e v hne hw =>
        cases w with
        | nil =>
          rintro c ⟨⟩
          exact .inr rfl
        | cons d t =>
          rintro c ⟨⟩
          exact .inl (hw d mem_cons_self)
    constructor <;> intro hc <;> rcases hdigit _ hc with h | h <;> cases h

theorem isNaN_ofSigned (cs : List Char) : (ofSigned cs).isNaN = false ↔
      ∃ sign ∈ [[], ['+'], ['-']], ∃ t, cs = sign ++ t ∧ Unsigned t := by
  constructor
  · intro h
    unfold ofSigned at h
    split at h
    · rw [isNaN_neg, isNaN_ofUnsigned] at h
      exact ⟨['-'], by decide, _, rfl, h⟩
    · exact ⟨['+'], by decide, _, rfl, (isNaN_ofUnsigned _).mp h⟩
    · exact ⟨[], by decide, _, rfl, (isNaN_ofUnsigned _).mp h⟩
  · rintro ⟨sign, hsign, t, rfl, ht⟩
    have hnumber := (isNaN_ofUnsigned t).mpr ht
    simp only [mem_cons, not_mem_nil, or_false] at hsign
    rcases hsign with rfl | rfl | rfl
    · rw [nil_append, ofSigned]
      · exact hnumber
      · rintro r rfl
        exact ht.head.2 rfl
      · rintro r rfl
        exact ht.head.1 rfl
    · exact hnumber
    · exact (isNaN_neg _).trans hnumber

theorem numericText_of_signed (h : ∃ sign ∈ [[], ['+'], ['-']], ∃ t, cs = sign ++ t ∧ Unsigned t) :
    NumericText cs := by
  obtain ⟨sign, hsign, t, rfl, rfl | ⟨n, hn⟩⟩ := h
  · exact .infinity hsign
  · exact .decimal hsign hn

theorem isNaN_ofSigned_iff (hne : cs ≠ [])
    (hradix : ∀ mark t, cs = '0' :: mark :: t → radix? mark = none) :
    (ofSigned cs).isNaN = false ↔ NumericText cs := by
  rw [isNaN_ofSigned]
  refine ⟨numericText_of_signed, fun h => ?_⟩
  cases h with
  | empty => exact absurd rfl hne
  | radix hmark =>
    rw [hradix _ _ rfl] at hmark
    cases hmark
  | infinity hsign => exact ⟨_, hsign, _, rfl, .inl rfl⟩
  | decimal hsign hn => exact ⟨_, hsign, _, rfl, .inr ⟨_, hn⟩⟩

theorem digits_of_numericText (hmark : radix? mark = some p) (h : NumericText ('0' :: mark :: cs)) :
    cs ≠ [] ∧ ∀ c ∈ cs, c ∈ p.2.toList := by
  have hsigned : ∀ sign ∈ [[], ['+'], ['-']], ∀ t, '0' :: mark :: cs = sign ++ t → sign = [] := by
    intro sign hsign t heq
    simp only [mem_cons, not_mem_nil, or_false] at hsign
    rcases hsign with rfl | rfl | rfl
    · rfl
    · cases heq
    · cases heq
  generalize hcs : '0' :: mark :: cs = text at h
  cases h with
  | empty => cases hcs
  | radix hmark' hne hdigits =>
    cases hcs
    cases hmark.symm.trans hmark'
    exact ⟨hne, hdigits⟩
  | infinity hsign =>
    cases hsigned _ hsign _ hcs
    cases hcs
  | decimal hsign hn =>
    cases hsigned _ hsign _ hcs
    rw [nil_append] at hcs
    subst hcs
    have hnone : parse? ('0' :: mark :: cs) = none := by
      unfold radix? at hmark
      split at hmark <;> first | rfl | cases hmark
    rw [hn.parse] at hnone
    cases hnone

theorem isNaN_ofRadix_iff (hmark : radix? mark = some p) (cs : List Char) :
    (ofRadix p.1 cs).isNaN = false ↔ NumericText ('0' :: mark :: cs) :=
  (isNaN_ofRadix (mem_radixes hmark) cs).trans
    ⟨fun h => .radix hmark h.1 h.2, fun h => digits_of_numericText hmark h⟩

theorem isNaN_ofTrimmed (cs : List Char) : (ofTrimmed cs).isNaN = false ↔ NumericText cs := by
  unfold ofTrimmed
  split
  · exact iff_of_true (isNaN_ofScientific 0 false 0) .empty
  · rename_i mark digits
    split
    · rename_i hmark
      rcases hmark with rfl | rfl <;> exact isNaN_ofRadix_iff (p := (16, _)) rfl digits
    · split
      · rename_i hmark
        rcases hmark with rfl | rfl <;> exact isNaN_ofRadix_iff (p := (8, _)) rfl digits
      · split
        · rename_i hmark
          rcases hmark with rfl | rfl <;> exact isNaN_ofRadix_iff (p := (2, _)) rfl digits
        · rename_i hx ho hb
          refine isNaN_ofSigned_iff (cons_ne_nil _ _) fun mark t heq => ?_
          cases heq
          unfold radix?
          split <;> simp at hx ho hb ⊢
  · rename_i hne hzero
    exact isNaN_ofSigned_iff hne fun mark t heq => absurd heq (hzero mark t)

end Number

/-! ## Blanks at the ends -/

/-- The text in the middle has no blank at its ends, the texts around it are blank. -/
structure Text.Trims (cs before middle after : List Char) : Prop where
  text : cs = before ++ middle ++ after
  before : ∀ c ∈ before, isBlank c
  after : ∀ c ∈ after, isBlank c
  head : ∀ c ∈ middle.head?, isBlank c = false
  last : ∀ c ∈ middle.getLast?, isBlank c = false

theorem Text.exists_trims (cs : List Char) : ∃ before after, Trims cs before (trim cs) after := by
  have hblank : ∀ l : List Char, ∀ c ∈ l.takeWhile isBlank, isBlank c := fun l c hc =>
    mem_takeWhile_imp hc
  have hhead : ∀ l : List Char, ∀ c ∈ (l.dropWhile isBlank).head?, isBlank c = false := by
    intro l c hc
    have hnot := head?_dropWhile_not isBlank l
    rw [Option.mem_def.mp hc] at hnot
    simpa using hnot
  -- The middle is what is left of the text without its first blanks, seen from the end.
  generalize hfront : cs.dropWhile isBlank = l
  have hsplit : l = trim cs ++ (l.reverse.takeWhile isBlank).reverse := by
    rw [trim, hfront, ← reverse_append, takeWhile_append_dropWhile, reverse_reverse]
  refine ⟨cs.takeWhile isBlank, (l.reverse.takeWhile isBlank).reverse, ?_, hblank cs, ?_, ?_, ?_⟩
  · rw [append_assoc, ← hsplit, ← hfront, takeWhile_append_dropWhile]
  · intro c hc
    exact hblank _ c (mem_reverse.mp hc)
  · intro c hc
    refine hhead cs c ?_
    rw [hfront, hsplit, List.head?_append, Option.mem_def.mp hc]
    rfl
  · intro c hc
    rw [trim, getLast?_reverse] at hc
    exact hhead _ c hc

/-- A text is read as a number exactly when it is one, blanks at its ends aside. A decimal literal
is rounded only after it has got digits on both sides of its point, which leaves its value. -/
theorem ofText_isNumber (s : String) :
    (∃ before after, Text.Trims s.toList before (Text.trim s.toList) after) ∧
    ((Number.ofText s).isNaN = false ↔ Number.NumericText (Text.trim s.toList)) ∧
    ∀ (cs : List Char) (n : Numeral), Literal cs n → ∃ m : Numeral,
      Complete (normalized cs) m ∧ m.value = n.value ∧
      Number.ofUnsigned cs = m.toFloat := by
  refine ⟨Text.exists_trims _, Number.isNaN_ofTrimmed _, fun cs n hn => ?_⟩
  obtain ⟨m, hm, hvalue⟩ := hn.normalized
  refine ⟨m, hm, hvalue, ?_⟩
  have hinfinity : cs ≠ "Infinity".toList := by
    rintro rfl
    have hparse := hn.parse
    cases hparse
  rw [Number.ofUnsigned, if_neg hinfinity, hn.parse, Option.isSome_some, if_pos rfl,
    hm.literal.parse]

end ScriptPress

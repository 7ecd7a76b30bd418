import Mathlib.Algebra.Order.Field.Rat
import Mathlib.Tactic.Ring
import ScriptPress.Number.Numeral
import ScriptPress.Number.Spelling
import ScriptPress.Proofs.Grammar.Scan
import ScriptPress.Proofs.Number.Digits

/-! # Numeric literals -/

namespace ScriptPress

open List Token Nat Numeral

open Token (IsNumeral)

namespace Numeral

/-! ## Values -/

def value (n : Numeral) : ℚ := n.significand * 10 ^ n.scale

def valueOf (cs : List Char) : ℚ := ((parse? cs).map value).getD 0

theorem digitsValue_eq (ds : List Char) : digitsValue ds = ofDigitChars 10 ds 0 := by
  rw [ofDigitChars_eq_foldl]
  rfl

theorem digitsValue_zeros_append (n : Nat) (ds : List Char) :
    digitsValue (replicate n '0' ++ ds) = digitsValue ds := by
  rw [digitsValue_eq, digitsValue_eq, ofDigitChars_append, ofDigitChars_replicate_zero,
    mul_zero]

theorem digitsValue_append_zeros (ds : List Char) (n : Nat) :
    digitsValue (ds ++ replicate n '0') = 10 ^ n * digitsValue ds := by
  rw [digitsValue_eq, digitsValue_eq, ofDigitChars_append, ofDigitChars_replicate_zero]

/-! ## Spellings -/

def pointed : List Char → List Char
  | [] => []
  | d :: ds => '.' :: d :: ds

/-- The texts of an exponent, which may be left out when it is zero. -/
inductive SpellsExponent : Int → List Char → Prop
  | none : SpellsExponent 0 []
  | plain {ds : List Char} (hne : ds ≠ []) (hds : ∀ c ∈ ds, c.isDigit) :
    SpellsExponent (digitsValue ds) ('e' :: ds)
  | plus {ds : List Char} (hne : ds ≠ []) (hds : ∀ c ∈ ds, c.isDigit) :
    SpellsExponent (digitsValue ds) ('e' :: '+' :: ds)
  | minus {ds : List Char} (hne : ds ≠ []) (hds : ∀ c ∈ ds, c.isDigit) :
    SpellsExponent (-digitsValue ds) ('e' :: '-' :: ds)

/-- The text spells the parts, which have a digit at least and no zero in front of a digit. -/
structure Spells (n : Numeral) (cs : List Char) : Prop where
  whole : ∀ c ∈ n.whole, c.isDigit
  fraction : ∀ c ∈ n.fraction, c.isDigit
  zero : n.whole.head? = some '0' → n.whole = ['0']
  digits : n.whole = [] → n.fraction ≠ []
  text : ∃ e, SpellsExponent n.exponent e ∧ cs = n.whole ++ (pointed n.fraction ++ e)

variable {n : Numeral} {cs e ds r w f : List Char} {v : Int}

theorem SpellsExponent.head (h : SpellsExponent v e) : ∀ c ∈ e.head?, c = 'e' := by
  cases h <;> rintro c ⟨⟩ <;> rfl

theorem span_digits (hds : ∀ c ∈ ds, c.isDigit) (hr : ∀ c ∈ r.head?, c.isDigit = false) :
    (ds ++ r).takeWhile Char.isDigit = ds ∧ (ds ++ r).dropWhile Char.isDigit = r := by
  have hspan := span_append hr ds
  rw [takeWhile_eq_self_iff.mpr hds, dropWhile_eq_nil_iff.mpr hds] at hspan
  exact hspan

theorem head_digits (hne : ds ≠ []) (hds : ∀ c ∈ ds, c.isDigit) :
    ∃ c t, ds = c :: t ∧ c.isDigit := by
  obtain ⟨c, t, rfl⟩ := exists_cons_of_ne_nil hne
  exact ⟨c, t, rfl, hds c (.head _)⟩

theorem head_behind (h : SpellsExponent v e) (f : List Char) :
    ∀ c ∈ (pointed f ++ e).head?, c.isDigit = false := by
  cases f with
  | nil =>
    intro c hc
    rw [h.head c hc]
    rfl
  | cons d ds =>
    rintro c ⟨⟩
    rfl

/-! ## One token -/

theorem SpellsExponent.scan (h : SpellsExponent v e) : scanExponent e = (e, []) := by
  have hspan : ∀ ds : List Char, (∀ c ∈ ds, c.isDigit) →
      ds.takeWhile Char.isDigit = ds ∧ ds.dropWhile Char.isDigit = [] := fun ds hds =>
    ⟨takeWhile_eq_self_iff.mpr hds, dropWhile_eq_nil_iff.mpr hds⟩
  cases h with
  | none => rfl
  | @plain ds hne hds =>
    obtain ⟨c, t, rfl, hc⟩ := head_digits hne hds
    have hsign : scanSign (c :: t) = ([], c :: t) := by
      rw [scanSign]
      · rintro r ⟨⟩
        cases hc
      · rintro r ⟨⟩
        cases hc
    simp [scanExponent, hsign, hc, hspan t fun d hd => hds d (mem_cons_of_mem c hd)]
  | @plus ds hne hds | @minus ds hne hds =>
    obtain ⟨c, t, rfl, hc⟩ := head_digits hne hds
    simp [scanExponent, scanSign, hc, hspan t fun d hd => hds d (.tail _ hd)]

theorem Spells.scanInteger (h : n.Spells cs) (hr : ∀ c ∈ r.head?, c.isDigit = false) :
    scanInteger (n.whole ++ r) = (n.whole, r) := by
  rw [scanInteger_append hr]
  by_cases hzero : n.whole.head? = some '0'
  · rw [h.zero hzero]
    rfl
  · rw [scanInteger_eq hzero, takeWhile_eq_self_iff.mpr h.whole,
      dropWhile_eq_nil_iff.mpr h.whole]
    rfl

theorem scanFraction_pointed {f : List Char} (hf : ∀ c ∈ f, c.isDigit)
    (h : SpellsExponent v e) : scanFraction (pointed f ++ e) = (pointed f, e) := by
  cases f with
  | nil =>
    show scanFraction e = ([], e)
    rw [scanFraction]
    rintro r rfl
    exact absurd (h.head '.' rfl) (by decide)
  | cons d ds =>
    have hspan := span_digits hf (head_behind h [])
    show ('.' :: ((d :: ds) ++ e).takeWhile Char.isDigit, ((d :: ds) ++ e).dropWhile Char.isDigit)
      = _
    rw [show pointed [] ++ e = e from rfl] at hspan
    rw [hspan.1, hspan.2]
    rfl

theorem Spells.isNumeral (h : n.Spells cs) : IsNumeral cs := by
  obtain ⟨e, he, rfl⟩ := h.text
  have hsome : (n.whole.isEmpty && decide ((pointed n.fraction).length ≤ 1)) = false := by
    rw [Bool.and_eq_false_iff]
    cases hwhole : n.whole with
    | cons => exact .inl rfl
    | nil =>
      right
      obtain ⟨d, ds, hd⟩ := exists_cons_of_ne_nil (h.digits hwhole)
      rw [hd]
      simp [pointed]
  rw [IsNumeral, scanNumber, h.scanInteger (head_behind he _),
    scanFraction_pointed h.fraction he, he.scan]
  simp only [hsome, Bool.false_eq_true, if_false, append_assoc]

/-! ## Reading -/

/-- The texts of an exponent and its value. An exponent that is left out is zero. -/
inductive Exponent : List Char → Int → Prop
  | omitted : Exponent [] 0
  | written {mark : Char} {ds : List Char} (sign : List Char) (hmark : mark = 'e' ∨ mark = 'E')
    (hsign : sign ∈ [[], ['+'], ['-']]) (hne : ds ≠ []) (hds : ∀ c ∈ ds, c.isDigit) :
    Exponent (mark :: (sign ++ ds))
      (if sign = ['-'] then -(digitsValue ds : Int) else digitsValue ds)

/-- The texts of decimal literals and what they are read as: digits, with a point among, before or
behind them, and an exponent. -/
inductive Literal : List Char → Numeral → Prop
  | whole {w e : List Char} {v : Int} (hne : w ≠ []) (hw : ∀ c ∈ w, c.isDigit)
    (he : Exponent e v) : Literal (w ++ e) ⟨w, [], v⟩
  | pointed {w f e : List Char} {v : Int} (hne : w ++ f ≠ []) (hw : ∀ c ∈ w, c.isDigit)
    (hf : ∀ c ∈ f, c.isDigit) (he : Exponent e v) :
    Literal (w ++ '.' :: (f ++ e)) ⟨w, f, v⟩

theorem exponent_digits {b : Bool}
    (h : (if ds.isEmpty || !ds.all isDigit then none
      else some (if b then -(digitsValue ds : Int) else digitsValue ds)) = some v) :
    ds ≠ [] ∧ (∀ c ∈ ds, c.isDigit) ∧
      v = if b then -(digitsValue ds : Int) else digitsValue ds := by
  split at h
  · cases h
  · rename_i hds
    rw [Bool.or_eq_true, not_or, List.isEmpty_iff, Bool.not_eq_true', Bool.not_eq_false,
      all_eq_true] at hds
    exact ⟨hds.1, hds.2, (Option.some.inj h).symm⟩

theorem exponent_of_eq_some (h : exponent? e = some v) : Exponent e v := by
  cases e with
  | nil =>
    cases h
    exact .omitted
  | cons mark rest =>
    simp only [exponent?] at h
    split at h
    · rename_i hmark
      split at h <;> obtain ⟨hne, hds, rfl⟩ := exponent_digits h
      · exact .written ['-'] hmark (by decide) hne hds
      · exact .written ['+'] hmark (by decide) hne hds
      · exact .written [] hmark (by decide) hne hds
    · cases h

theorem Exponent.eq_some (h : Exponent e v) : exponent? e = some v := by
  cases h with
  | omitted => rfl
  | @written mark ds sign hmark hsign hne hds =>
    have hall : (ds.isEmpty || !ds.all isDigit) = false := by
      rw [Bool.or_eq_false_iff, Bool.not_eq_false', all_eq_true]
      exact ⟨isEmpty_eq_false_iff.mpr hne, hds⟩
    simp only [exponent?, if_pos hmark]
    simp only [mem_cons, not_mem_nil, or_false] at hsign
    rcases hsign with rfl | rfl | rfl
    · -- Without a sign, the first digit is none.
      obtain ⟨c, t, rfl, hc⟩ := head_digits hne hds
      rw [nil_append]
      split
      · rename_i heq
        cases heq
        cases hc
      · rename_i heq
        cases heq
        cases hc
      · exact if_neg (Bool.eq_false_iff.mp hall)
    · simp [hall]
    · simp [hall]

theorem Exponent.head (h : Exponent e v) : ∀ c ∈ e.head?, c = 'e' ∨ c = 'E' := by
  cases h with
  | omitted => rintro c ⟨⟩
  | written _ hmark =>
    rintro c ⟨⟩
    exact hmark

theorem Exponent.not_digit (h : Exponent e v) : ∀ c ∈ e.head?, c.isDigit = false := by
  intro c hc
  rcases h.head c hc with rfl | rfl <;> rfl

theorem spanDigits_append (hds : ∀ c ∈ ds, c.isDigit)
    (hr : ∀ c ∈ r.head?, c.isDigit = false) : spanDigits (ds ++ r) = (ds, r) :=
  have hspan := span_digits hds hr
  Prod.ext hspan.1 hspan.2

theorem Literal.parse (h : Literal cs n) : parse? cs = some n := by
  cases h with
  | @whole w e v hne hw he =>
    have hspan := spanDigits_append hw he.not_digit
    rw [parse?, hspan]
    dsimp only
    split
    · rcases he.head '.' rfl with h | h <;> cases h
    · simp [hne, he.eq_some]
  | @pointed w f e v hne hw hf he =>
    have hempty : (w.isEmpty && f.isEmpty) = false := by
      rw [Bool.and_eq_false_iff, isEmpty_eq_false_iff, isEmpty_eq_false_iff]
      exact not_and_or.mp fun h => hne (append_eq_nil_iff.mpr h)
    rw [parse?, spanDigits_append hw (by rintro c ⟨⟩; rfl)]
    simp only [spanDigits_append hf he.not_digit, hempty, he.eq_some]
    rfl

theorem literal_of_parse (h : parse? cs = some n) : Literal cs n := by
  have hparts : ∀ l : List Char, (spanDigits l).1 ++ (spanDigits l).2 = l := fun l =>
    takeWhile_append_dropWhile
  have hdigits : ∀ l : List Char, ∀ c ∈ (spanDigits l).1, c.isDigit := fun l c hc =>
    mem_takeWhile_imp (p := isDigit) hc
  rw [parse?] at h
  have hcs := hparts cs
  have hwhole := hdigits cs
  generalize spanDigits cs = p at h hcs hwhole
  obtain ⟨w, r⟩ := p
  dsimp only at h hcs hwhole
  subst hcs
  split at h
  · rename_i t
    rw [← hparts t]
    split at h
    · cases h
    · rename_i hne
      obtain ⟨v, hv, rfl⟩ := Option.map_eq_some_iff.mp h
      refine .pointed ?_ hwhole (hdigits t) (exponent_of_eq_some hv)
      rw [Bool.and_eq_true, List.isEmpty_iff, List.isEmpty_iff] at hne
      rwa [ne_eq, append_eq_nil_iff]
  · split at h
    · cases h
    · rename_i hne
      obtain ⟨v, hv, rfl⟩ := Option.map_eq_some_iff.mp h
      refine .whole ?_ hwhole (exponent_of_eq_some hv)
      simpa using hne

theorem SpellsExponent.exponent (h : SpellsExponent v e) : Exponent e v := by
  cases h with
  | none => exact .omitted
  | plain hne hds => exact .written [] (.inl rfl) (by decide) hne hds
  | plus hne hds => exact .written ['+'] (.inl rfl) (by decide) hne hds
  | minus hne hds => exact .written ['-'] (.inl rfl) (by decide) hne hds

theorem Spells.literal (h : n.Spells cs) : Literal cs n := by
  obtain ⟨w, f, v⟩ := n
  obtain ⟨e, he, rfl⟩ := h.text
  cases f with
  | nil => exact .whole (fun hnil => h.digits hnil rfl) h.whole he.exponent
  | cons d ds => exact .pointed (by simp) h.whole h.fraction he.exponent

theorem Spells.parse (h : n.Spells cs) : parse? cs = some n := h.literal.parse

theorem Spells.valueOf_eq (h : n.Spells cs) : valueOf cs = n.value := by
  rw [valueOf, h.parse]
  rfl

/-! ## The last character -/

theorem Spells.getLast (h : n.Spells cs) : ∃ c, cs.getLast? = some c ∧ c.isDigit := by
  have hlast : ∀ ds : List Char, ds ≠ [] → (∀ c ∈ ds, c.isDigit) →
      ∀ front : List Char, ∃ c, (front ++ ds).getLast? = some c ∧ c.isDigit := by
    intro ds hne hds front
    refine ⟨ds.getLast hne, ?_, hds _ (getLast_mem hne)⟩
    rw [getLast?_append, getLast?_eq_some_getLast hne, Option.some_or]
  obtain ⟨w, f, v⟩ := n
  obtain ⟨e, he, rfl⟩ := h.text
  cases he with
  | none =>
    cases f with
    | nil =>
      have hne : w ≠ [] := fun hnil => h.digits hnil rfl
      simpa [pointed] using hlast w hne h.whole []
    | cons d ds =>
      simpa [pointed] using hlast (d :: ds) (cons_ne_nil d ds) h.fraction (w ++ ['.'])
  | @plain ds hne hds => simpa using hlast ds hne hds (w ++ pointed f ++ ['e'])
  | @plus ds hne hds => simpa using hlast ds hne hds (w ++ pointed f ++ ['e', '+'])
  | @minus ds hne hds => simpa using hlast ds hne hds (w ++ pointed f ++ ['e', '-'])

/-! ## Brief spellings -/

theorem filter_digits (hds : ∀ c ∈ ds, c.isDigit) : ds.filter (· != '+') = ds := by
  rw [filter_eq_self]
  intro c hc
  rw [bne_iff_ne]
  rintro rfl
  exact absurd (hds '+' hc) (by decide)

theorem filter_pointed (hds : ∀ c ∈ ds, c.isDigit) :
    (pointed ds).filter (· != '+') = pointed ds := by
  cases ds with
  | nil => rfl
  | cons d ds =>
    show ('.' :: (d :: ds)).filter (· != '+') = _
    rw [filter_cons_of_pos (by decide), filter_digits hds]
    rfl

theorem SpellsExponent.filter (h : SpellsExponent v e) :
    SpellsExponent v (e.filter (· != '+')) := by
  cases h with
  | none => exact .none
  | @plain ds hne hds =>
    rw [filter_cons_of_pos (by decide), filter_digits hds]
    exact .plain hne hds
  | @plus ds hne hds =>
    rw [filter_cons_of_pos (by decide), filter_cons_of_neg (by decide), filter_digits hds]
    exact .plain hne hds
  | @minus ds hne hds =>
    rw [filter_cons_of_pos (by decide), filter_cons_of_pos (by decide), filter_digits hds]
    exact .minus hne hds

theorem Spells.withoutPlus (h : n.Spells cs) : n.Spells (cs.filter (· != '+')) := by
  obtain ⟨e, he, rfl⟩ := h.text
  refine ⟨h.whole, h.fraction, h.zero, h.digits, e.filter (· != '+'), he.filter, ?_⟩
  rw [filter_append, filter_append, filter_digits h.whole, filter_pointed h.fraction]

theorem Spells.withoutZero (h : n.Spells ('0' :: '.' :: ds)) :
    ∃ n' : Numeral, n'.Spells ('.' :: ds) ∧ n'.value = n.value := by
  obtain ⟨e, he, htext⟩ := h.text
  have hwhole : n.whole = ['0'] := by
    cases hw : n.whole with
    | nil =>
      rw [hw] at htext
      obtain ⟨d, f, hf⟩ := exists_cons_of_ne_nil (h.digits hw)
      rw [hf] at htext
      cases htext
    | cons c t =>
      rw [hw] at htext
      have hhead : n.whole.head? = some '0' := by
        rw [hw, (cons.inj htext).1]
        rfl
      exact hw ▸ h.zero hhead
  rw [hwhole] at htext
  have htail : '.' :: ds = pointed n.fraction ++ e := (cons.inj htext).2
  have hne : n.fraction ≠ [] := by
    intro hnil
    rw [hnil] at htail
    have hhead := he.head '.' (by rw [← nil_append e]; exact htail ▸ rfl)
    cases hhead
  refine ⟨⟨[], n.fraction, n.exponent⟩, ⟨nofun, h.fraction, nofun, fun _ => hne, e, he, htail⟩, ?_⟩
  have hsignificand : significand ⟨[], n.fraction, n.exponent⟩ = n.significand := by
    rw [significand, significand, hwhole]
    exact (digitsValue_zeros_append 1 n.fraction).symm
  rw [value, value, hsignificand]
  rfl

theorem Spells.abridged (h : n.Spells cs) :
    ∃ n' : Numeral, n'.Spells (Number.abridgedMagnitude cs) ∧ n'.value = n.value := by
  unfold Number.abridgedMagnitude
  dsimp only
  split
  · obtain ⟨n', hn', hvalue⟩ := h.withoutZero
    exact ⟨n', hn'.withoutPlus, hvalue⟩
  · exact ⟨n, h.withoutPlus, rfl⟩

end Numeral

/-! ## Decimals -/

namespace Decimal

variable {d : Decimal}

def value (d : Decimal) : ℚ := digitsValue d.digits * 10 ^ (d.point - d.digits.length)

theorem spellsExponent_toDigits (v : Int) : SpellsExponent v
      (['e', if v < 0 then '-' else '+'] ++ toDigits 10 v.natAbs) := by
  have hne : toDigits 10 v.natAbs ≠ [] := toDigits_ne_nil
  have hds : ∀ c ∈ toDigits 10 v.natAbs, c.isDigit :=
    fun c hc => isDigit_of_mem_toDigits (by decide) (by decide) hc
  have hvalue : digitsValue (toDigits 10 v.natAbs) = v.natAbs := by
    rw [digitsValue_eq, ofDigitChars_ten_toDigits]
  by_cases hv : v < 0
  · have hminus := SpellsExponent.minus hne hds
    rw [hvalue, show -(v.natAbs : Int) = v by omega] at hminus
    rw [if_pos hv]
    exact hminus
  · have hplus := SpellsExponent.plus hne hds
    rw [hvalue, show (v.natAbs : Int) = v by omega] at hplus
    rw [if_neg hv]
    exact hplus

theorem Proper.digits_ne_nil (h : d.Proper) : d.digits ≠ [] := by
  obtain ⟨c, cs, hcs, -⟩ := h.head
  rw [hcs]
  exact cons_ne_nil c cs

theorem Proper.head_ne_zero (h : d.Proper) : d.digits.head? ≠ some '0' := by
  obtain ⟨c, cs, hcs, hc⟩ := h.head
  rw [hcs]
  exact fun hzero => hc (Option.some.inj hzero)

theorem Proper.exponential (h : d.Proper) :
    ∃ n : Numeral, n.Spells d.exponential ∧ n.value = d.value := by
  obtain ⟨c, cs, hcs, hc⟩ := h.head
  refine ⟨⟨[c], cs, d.point - 1⟩, ⟨?_, ?_, ?_, nofun, _, spellsExponent_toDigits _, ?_⟩, ?_⟩
  · intro x hx
    exact h.isDigit x (by rw [hcs, mem_singleton.mp hx]; exact mem_cons_self)
  · intro x hx
    exact h.isDigit x (by rw [hcs]; exact mem_cons_of_mem c hx)
  · exact fun hzero => absurd (Option.some.inj hzero) hc
  · rw [Decimal.exponential, hcs]
    cases cs <;> simp [pointed]
  · rw [Numeral.value, value, significand, scale, hcs]
    congr 2
    rw [length_cons]
    push_cast
    omega

theorem value_whole {k : Nat} (hk : d.digits.length + k = d.point) :
    (Numeral.mk (d.digits ++ replicate k '0') [] 0).value = d.value := by
  have hscale : (d.point - d.digits.length : Int) = k := by omega
  rw [Numeral.value, value, hscale, significand, scale, append_nil,
    digitsValue_append_zeros]
  push_cast
  rw [length_nil, cast_zero, sub_zero, zpow_zero, zpow_natCast]
  ring

theorem Proper.positional (h : d.Proper) :
    ∃ n : Numeral, n.Spells d.positional ∧ n.value = d.value := by
  rw [Decimal.positional]
  by_cases hwhole : (d.digits.length ≤ d.point && d.point ≤ 21)
  · rw [if_pos hwhole]
    simp only [Bool.and_eq_true, decide_eq_true_eq] at hwhole
    refine ⟨⟨d.digits ++ replicate (d.point - d.digits.length).toNat '0', [], 0⟩,
      ⟨?_, (by simp), ?_, ?_, [], .none, ?_⟩, value_whole (by omega)⟩
    · intro c hc
      rcases mem_append.mp hc with hc | hc
      · exact h.isDigit c hc
      · rw [eq_of_mem_replicate hc]
        rfl
    · intro hzero
      obtain ⟨c, cs, hcs, hc⟩ := h.head
      rw [hcs] at hzero
      exact absurd (Option.some.inj hzero) hc
    · intro hnil
      exact absurd (append_eq_nil_iff.mp hnil).1 h.digits_ne_nil
    · simp [pointed]
  · rw [if_neg hwhole]
    simp only [Bool.and_eq_true, decide_eq_true_eq] at hwhole
    by_cases hpoint : (0 < d.point && d.point ≤ 21)
    · rw [if_pos hpoint]
      simp only [Bool.and_eq_true, decide_eq_true_eq] at hpoint
      refine ⟨⟨d.digits.take d.point.toNat, d.digits.drop d.point.toNat, 0⟩,
        ⟨fun c hc => h.isDigit c (mem_of_mem_take hc),
          fun c hc => h.isDigit c (mem_of_mem_drop hc), ?_, ?_, [], .none, ?_⟩, ?_⟩
      · intro hzero
        rw [head?_take, if_neg (by omega)] at hzero
        exact absurd hzero h.head_ne_zero
      · intro hnil
        rw [take_eq_nil_iff] at hnil
        rcases hnil with hnil | hnil
        · omega
        · exact absurd hnil h.digits_ne_nil
      · have hdrop : d.digits.drop d.point.toNat ≠ [] := by
          rw [ne_eq, drop_eq_nil_iff]
          omega
        obtain ⟨c, cs, hcs⟩ := exists_cons_of_ne_nil hdrop
        rw [hcs, append_nil]
        rfl
      · rw [Numeral.value, value, significand, scale, take_append_drop, length_drop]
        congr 2
        show (0 : Int) - _ = _
        omega
    · rw [if_neg hpoint]
      by_cases hsmall : (-6 < d.point && d.point ≤ 0)
      · rw [if_pos hsmall]
        simp only [Bool.and_eq_true, decide_eq_true_eq] at hsmall
        have hfraction : replicate (-d.point).toNat '0' ++ d.digits ≠ [] := fun hnil =>
          h.digits_ne_nil (append_eq_nil_iff.mp hnil).2
        refine ⟨⟨['0'], replicate (-d.point).toNat '0' ++ d.digits, 0⟩,
          ⟨?_, ?_, fun _ => rfl, (by simp), [], .none, ?_⟩, ?_⟩
        · intro c hc
          rw [mem_singleton.mp hc]
          rfl
        · intro c hc
          rcases mem_append.mp hc with hc | hc
          · rw [eq_of_mem_replicate hc]
            rfl
          · exact h.isDigit c hc
        · obtain ⟨c, cs, hcs⟩ := exists_cons_of_ne_nil hfraction
          rw [hcs, append_nil]
          rw [cons_append, cons_append, hcs]
          rfl
        · have hvalue : digitsValue (['0'] ++ (replicate (-d.point).toNat '0' ++
              d.digits)) = digitsValue d.digits := by
            rw [← digitsValue_zeros_append (-d.point).toNat d.digits]
            exact digitsValue_zeros_append 1 _
          rw [Numeral.value, value, significand, scale, hvalue, length_append,
            length_replicate]
          congr 2
          show (0 : Int) - _ = _
          omega
      · rw [if_neg hsmall]
        exact h.exponential

end Decimal

end ScriptPress

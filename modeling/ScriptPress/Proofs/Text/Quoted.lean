import ScriptPress.Proofs.Grammar.Scan
import ScriptPress.Proofs.Meaning.Value

/-! # String literals -/

namespace ScriptPress.Text

open Token (isLineEnd)

def isPrintable (c : Char) : Bool := ' ' ≤ c && !isLineEnd c

theorem isPrintable_hex4 (n : Nat) : ∀ c ∈ hex4 n, isPrintable c := by
  have hdigit : ∀ k < 16, isPrintable (Nat.digitChar k) := by decide
  intro c hc
  obtain ⟨shift, -, rfl⟩ := List.mem_map.mp hc
  exact hdigit _ (Nat.mod_lt _ (by decide))

theorem isPrintable_escaped (c : Char) : ∀ d ∈ escaped c, isPrintable d := by
  unfold escaped
  cases hshort : shortEscape? c with
  | some e =>
    unfold shortEscape? at hshort
    split at hshort <;> cases hshort <;> decide
  | none =>
    simp only
    split
    · simp only [List.forall_mem_cons]
      exact ⟨by decide, by decide, isPrintable_hex4 _⟩
    · rename_i hplain
      have hends : c ≠ '\n' ∧ c ≠ '\r' := by
        constructor <;> rintro rfl <;> cases hshort
      simp only [Bool.or_eq_true, decide_eq_true_eq, not_or, Char.not_lt] at hplain
      simp [isPrintable, isLineEnd, hends, hplain]

theorem isPrintable_quoted (s : String) : ∀ c ∈ (quoted s).toList, isPrintable c := by
  rw [quoted, String.toList_ofList]
  simp only [List.cons_append, List.forall_mem_cons, List.forall_mem_append, List.mem_flatMap]
  refine ⟨by decide, ?_, by decide⟩
  rintro d ⟨c, -, hd⟩
  exact isPrintable_escaped c d hd

/-- Whatever the output was and whatever follows, the literal is read from its first quote to its
last one, and its code units are those of the string. -/
theorem quoted_reads_back {ν : Type} (value : List Char → ν) (output rest : List Char)
    (s : String) : ∃ literal : List Char, (quoted s).toList = '"' :: literal ∧
      (∀ c ∈ '"' :: literal, isPrintable c = true) ∧
      ∃ us, Token.next value ((output ++ '"' :: literal ++ rest).drop output.length) =
          some (.string us, rest) ∧ ofUnits? us = some s.toList := by
  have hquoted : (quoted s).toList = '"' :: (s.toList.flatMap escaped ++ ['"']) := by
    rw [quoted, String.toList_ofList]
    rfl
  have hprintable := isPrintable_quoted s
  have hnext : Token.next value ((quoted s).toList ++ rest) = some (.string (units s), rest) :=
    Token.next_string s rest
  rw [hquoted] at hprintable hnext
  refine ⟨_, hquoted, hprintable, units s, ?_, ofUnits_flatMap s.toList⟩
  rw [List.append_assoc, List.drop_left]
  exact hnext

end ScriptPress.Text

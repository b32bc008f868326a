/-
# Ome.Theory.Numerals — one decimal numeral for each number

`Nat.toDigits 10` writes a number and `Nat.ofDigitChars 10` reads digits.  Reading
what was written is a library fact; `toDigits_ofDigitChars` is the other way: a
nonempty word of digits with no leading zero is the numeral of the number it reads as.
-/
import Mathlib.Data.List.Induction
import Mathlib.Tactic.IntervalCases

namespace Ome.Theory

set_option autoImplicit false

theorem digitChar_of_isDigit {c : Char} (digit : c.isDigit = true) :
    c.toNat - '0'.toNat < 10 ∧ Nat.digitChar (c.toNat - '0'.toNat) = c := by
  have bounds : 48 ≤ c.toNat ∧ c.toNat ≤ 57 := by
    simpa [Char.isDigit, UInt32.le_iff_toNat_le] using digit
  have zero : '0'.toNat = 48 := rfl
  obtain ⟨low, high⟩ := bounds
  have same : c = Char.ofNat c.toNat := (Char.ofNat_toNat c).symm
  rw [zero]
  refine ⟨by omega, ?_⟩
  conv_rhs => rw [same]
  generalize c.toNat = n at low high
  interval_cases n <;> rfl

/-- **The numeral of the number that a word of digits reads as** is the word. -/
theorem toDigits_ofDigitChars (word : List Char) (nonempty : word ≠ [])
    (digits : ∀ c ∈ word, c.isDigit = true) (lead : word.length = 1 ∨ word.head? ≠ some '0') :
    Nat.toDigits 10 (Nat.ofDigitChars 10 word 0) = word := by
  induction word using List.reverseRecOn with
  | nil => exact absurd rfl nonempty
  | append_singleton front c ih =>
    obtain ⟨small, back⟩ := digitChar_of_isDigit (digits c (by simp))
    have read : Nat.ofDigitChars 10 (front ++ [c]) 0 =
        10 * Nat.ofDigitChars 10 front 0 + (c.toNat - '0'.toNat) := by
      simp [Nat.ofDigitChars_append, Nat.ofDigitChars_cons]
    rw [read]
    by_cases empty : front = []
    · subst empty
      rw [Nat.ofDigitChars_nil, Nat.mul_zero, Nat.zero_add, Nat.toDigits_of_lt_base small, back]
      rfl
    · have first : front.head? ≠ some '0' := by
        obtain ⟨d, rest, rfl⟩ := List.exists_cons_of_ne_nil empty
        rcases lead with single | first
        · simp at single
        · simpa using first
      have written := ih empty (fun d member => digits d (by simp [member])) (Or.inr first)
      have positive : 0 < Nat.ofDigitChars 10 front 0 := by
        apply Nat.pos_of_ne_zero
        intro zero
        rw [zero, Nat.toDigits_zero] at written
        exact first (by simp [← written])
      rw [← Nat.toDigits_append_toDigits (by decide) positive small, written,
        Nat.toDigits_of_lt_base small, back]

theorem head_toDigits_ne_zero {n : Nat} (positive : 0 < n) :
    (Nat.toDigits 10 n).head? ≠ some '0' := by
  induction n using Nat.strongRecOn with
  | ind n ih =>
    by_cases small : n < 10
    · rw [Nat.toDigits_of_lt_base small]
      interval_cases n <;> decide
    · rw [Nat.toDigits_of_base_le (by decide) (by omega)]
      obtain ⟨d, rest, shape⟩ := List.exists_cons_of_ne_nil (l := Nat.toDigits 10 (n / 10))
        Nat.toDigits_ne_nil
      have front := ih (n / 10) (by omega) (by omega)
      rw [shape] at front ⊢
      simpa using front

end Ome.Theory

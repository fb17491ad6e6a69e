import Mathlib.Data.Nat.Digits.Lemmas
/-!
# Canonical numerals in a base

`Nat.digits b 0` is the empty list, while a program that prints a number prints `0` as one digit.
`digitsLE` is the digit string such a program produces (least significant digit first) and
`numeral` the string it shows (most significant digit first). Main facts: the one-digit-at-a-time
recursion (`digitsLE_step`), digits below the base, no leading zero, and injectivity.
-/

namespace Numeral

/-- Digits of `n`, least significant first; `0` has one digit. -/
def digitsLE (b n : ℕ) : List ℕ := if n = 0 then [0] else Nat.digits b n

/-- The numeral of `n`: most significant digit first. -/
def numeral (b n : ℕ) : List ℕ := (digitsLE b n).reverse

variable {b : ℕ}

theorem digitsLE_of_lt {n : ℕ} (h : n < b) : digitsLE b n = [n] := by
  unfold digitsLE
  split
  · rename_i h0; rw [h0]
  · rename_i h0; exact Nat.digits_of_lt b n h0 h

/-- A division step peels one digit and stops at the quotient `0`. -/
theorem digitsLE_step (hb : 1 < b) (n : ℕ) :
    digitsLE b n = n % b :: if n / b = 0 then [] else digitsLE b (n / b) := by
  by_cases h : n / b = 0
  · have hlt : n < b := by
      rcases Nat.div_eq_zero_iff.1 h with h0 | h0
      · omega
      · exact h0
    rw [digitsLE_of_lt hlt, if_pos h, Nat.mod_eq_of_lt hlt]
  · have h0 : n ≠ 0 := by rintro rfl; simp at h
    rw [if_neg h]
    unfold digitsLE
    rw [if_neg h0, if_neg h, Nat.digits_eq_cons_digits_div hb h0]

theorem digitsLE_lt_base (hb : 1 < b) {n d : ℕ} (h : d ∈ digitsLE b n) : d < b := by
  unfold digitsLE at h
  split at h
  · simp only [List.mem_singleton] at h; omega
  · exact Nat.digits_lt_base hb h

theorem ofDigits_digitsLE (b n : ℕ) : Nat.ofDigits b (digitsLE b n) = n := by
  unfold digitsLE
  split
  · rename_i h; simp [h]
  · exact Nat.ofDigits_digits b n

theorem digitsLE_injective (b : ℕ) : Function.Injective (digitsLE b) :=
  Function.LeftInverse.injective (ofDigits_digitsLE b)

/-! ## The shown numeral -/

theorem numeral_injective (b : ℕ) : Function.Injective (numeral b) :=
  List.reverse_injective.comp (digitsLE_injective b)

theorem numeral_lt_base (hb : 1 < b) {n d : ℕ} (h : d ∈ numeral b n) : d < b :=
  digitsLE_lt_base hb (List.mem_reverse.1 h)

@[simp] theorem length_numeral (b n : ℕ) : (numeral b n).length = (digitsLE b n).length := by
  simp [numeral]

@[simp] theorem numeral_zero (b : ℕ) : numeral b 0 = [0] := by simp [numeral, digitsLE]

/-- No leading zero, except for the number `0` itself. -/
theorem numeral_head_ne_zero {n : ℕ} (h : n ≠ 0) : (numeral b n).head? ≠ some 0 := by
  have hne : Nat.digits b n ≠ [] := Nat.digits_ne_nil_iff_ne_zero.2 h
  simp only [numeral, digitsLE, if_neg h, List.head?_reverse, List.getLast?_eq_some_getLast hne, ne_eq,
    Option.some.injEq]
  exact Nat.getLast_digit_ne_zero b h

end Numeral

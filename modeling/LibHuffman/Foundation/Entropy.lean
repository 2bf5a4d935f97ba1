/-
# Information

Values that occur with certain weights hold an amount of information: of each value its weight
times the logarithm of the whole over its weight. No depths that satisfy Kraft's inequality cost
less, so no prefix-free code does, and there are depths that cost less than one bit more for each
occurrence.
-/

import LibHuffman.Foundation.PrefixCode
import Mathlib.Analysis.SpecialFunctions.Log.Base

namespace LibHuffman.Foundation

variable {α : Type}

section

variable {weight : α → ℕ} {values : Finset α}

/-- Kraft's inequality over the reals. -/
theorem Kraft.sum_le {depth : α → ℕ} (h : Kraft (values.val.map depth)) :
    ∑ a ∈ values, (1 / 2 : ℝ) ^ depth a ≤ 1 := by
  rw [Kraft, Multiset.map_map] at h
  have hcast : ((∑ a ∈ values, (1 / 2 : ℚ) ^ depth a : ℚ) : ℝ) ≤ ((1 : ℚ) : ℝ) :=
    Rat.cast_le.mpr h
  simpa using hcast

theorem kraft_of_sum_le {depth : α → ℕ} (h : ∑ a ∈ values, (1 / 2 : ℝ) ^ depth a ≤ 1) :
    Kraft (values.val.map depth) := by
  rw [Kraft, Multiset.map_map]
  show ∑ a ∈ values, (1 / 2 : ℚ) ^ depth a ≤ 1
  have hcast : ((∑ a ∈ values, (1 / 2 : ℚ) ^ depth a : ℚ) : ℝ) ≤ ((1 : ℚ) : ℝ) := by
    simpa using h
  exact Rat.cast_le.mp hcast

/-- So do equal depths that are long enough to number the values. -/
theorem kraft_clog (values : Finset α) :
    Kraft (values.val.map fun _ => Nat.clog 2 values.card) := by
  apply kraft_of_sum_le
  rw [Finset.sum_const, nsmul_eq_mul, one_div, inv_pow, ← div_eq_mul_inv]
  apply div_le_one_of_le₀ _ (by positivity)
  exact_mod_cast Nat.le_pow_clog (by decide) values.card

/-! ## Codes -/

end

end LibHuffman.Foundation

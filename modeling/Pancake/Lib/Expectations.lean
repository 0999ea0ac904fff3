import Pancake.Lib.Sampler

/-!
# Expectations

The expectation under the law of a sampler is linear, and a weighted draw of
an item meets a given one with its share of the weights.
-/

namespace Sampler

variable {α : Type}

theorem expect_add (f g : α → ℚ) (s : Sampler α) :
    s.expect (fun a => f a + g a) = s.expect f + s.expect g := by
  induction s with
  | done a => rfl
  | coin p next ih =>
      simp only [expect, ih]
      ring
  | uniform n next ih =>
      simp only [expect, ih, Finset.sum_add_distrib, add_div]
  | weighted ws next ih =>
      simp only [expect, ih, mul_add, Finset.sum_add_distrib, add_div]

theorem expect_const_mul (c : ℚ) (f : α → ℚ) (s : Sampler α) :
    s.expect (fun a => c * f a) = c * s.expect f := by
  induction s with
  | done a => rfl
  | coin p next ih =>
      simp only [expect, ih]
      ring
  | uniform n next ih =>
      simp only [expect, ih, ← Finset.mul_sum, mul_div_assoc]
  | weighted ws next ih =>
      simp only [expect, ih, mul_left_comm _ c, ← Finset.mul_sum, mul_div_assoc]

theorem expect_mul_const (c : ℚ) (f : α → ℚ) (s : Sampler α) :
    s.expect (fun a => f a * c) = s.expect f * c := by
  simp only [mul_comm _ c, expect_const_mul]

theorem expect_zero {f : α → ℚ} (h : ∀ a, f a = 0) (s : Sampler α) : s.expect f = 0 := by
  have hmul := expect_const_mul 0 (fun _ : α => (0 : ℚ)) s
  simp only [zero_mul] at hmul
  rw [← hmul]
  congr 1
  exact funext h

theorem sum_getD (ws : List ℚ) : ∑ i ∈ Finset.range ws.length, ws.getD i 0 = ws.sum := by
  induction ws with
  | nil => rfl
  | cons w ws ih =>
      rw [List.length_cons, Finset.sum_range_succ', List.sum_cons, ← ih, add_comm]
      rfl

/-- An index drawn with weights: only one of them counts. -/
theorem expect_weighted_single {ws : List ℚ} {next : Nat → Sampler α} {f : α → ℚ} {j : Nat}
    (hj : j < ws.length) (hothers : ∀ i < ws.length, i ≠ j → (next i).expect f = 0) :
    (weighted ws next).expect f = ws.getD j 0 * (next j).expect f / ws.sum := by
  rw [expect, Finset.sum_eq_single_of_mem j (Finset.mem_range.mpr hj)]
  intro i hi hne
  rw [hothers i (Finset.mem_range.mp hi) hne, mul_zero]

/-- None of them counts. -/
theorem expect_weighted_none {ws : List ℚ} {next : Nat → Sampler α} {f : α → ℚ}
    (hnone : ∀ i < ws.length, (next i).expect f = 0) : (weighted ws next).expect f = 0 := by
  rw [expect, Finset.sum_eq_zero, zero_div]
  intro i hi
  rw [hnone i (Finset.mem_range.mp hi), mul_zero]

end Sampler

import Mathlib.Analysis.SpecialFunctions.Log.Basic
import Mathlib.Algebra.Order.BigOperators.Ring.Finset
import Mathlib.Tactic

set_option autoImplicit false

/-!
# Maximisers of the terms of a variational bound

The logarithm of a sum of exponentials bounds every mean with an entropy term
and is reached by the softmax; the normalised counts are the best prior; a
concave quadratic and a logarithm minus a line are bounded by their vertices.
-/
namespace PyannoteCpp.VariationalBounds
open Real

variable {κ : Type*} [Fintype κ]

theorem nonempty_of_sum_one {w : κ → ℝ} (h : ∑ k, w k = 1) : Nonempty κ := by
  by_contra hne
  rw [not_nonempty_iff] at hne
  rw [Finset.univ_eq_empty, Finset.sum_empty] at h
  exact zero_ne_one h

theorem sum_exp_pos [Nonempty κ] (u : κ → ℝ) : 0 < ∑ k, exp (u k) :=
  Finset.sum_pos (fun k _ => exp_pos (u k)) Finset.univ_nonempty

/-- A mean of scores with its entropy stays below the logarithm of the sum of exponentials. -/
theorem entropy_le (p u : κ → ℝ) (hp : ∀ k, 0 < p k) (hsum : ∑ k, p k = 1) :
    ∑ k, p k * (u k - log (p k)) ≤ log (∑ k, exp (u k)) := by
  have hne : Nonempty κ := nonempty_of_sum_one hsum
  have hZ := sum_exp_pos u
  have term : ∀ k, p k * (u k - log (p k)) ≤
      p k * log (∑ k, exp (u k)) + (exp (u k) / (∑ k, exp (u k)) - p k) := by
    intro k
    have hratio : 0 < exp (u k) / ((∑ k, exp (u k)) * p k) :=
      div_pos (exp_pos _) (mul_pos hZ (hp k))
    have hlog := mul_le_mul_of_nonneg_left (log_le_sub_one_of_pos hratio) (hp k).le
    rw [log_div (exp_pos _).ne' (mul_pos hZ (hp k)).ne', log_exp, log_mul hZ.ne' (hp k).ne'] at hlog
    have hcancel : p k * (exp (u k) / ((∑ k, exp (u k)) * p k) - 1) =
        exp (u k) / (∑ k, exp (u k)) - p k := by
      have hpk := (hp k).ne'
      field_simp
    rw [hcancel] at hlog
    linarith
  calc
    _ ≤ ∑ k, (p k * log (∑ k, exp (u k)) + (exp (u k) / (∑ k, exp (u k)) - p k)) :=
      Finset.sum_le_sum (fun k _ => term k)
    _ = log (∑ k, exp (u k)) := by
      rw [Finset.sum_add_distrib, Finset.sum_sub_distrib, ← Finset.sum_mul, ← Finset.sum_div, hsum,
        div_self hZ.ne', one_mul, sub_self, add_zero]

theorem sum_softmax [Nonempty κ] (u : κ → ℝ) : ∑ k, exp (u k) / (∑ k, exp (u k)) = 1 := by
  rw [← Finset.sum_div, div_self (sum_exp_pos u).ne']

theorem entropy_softmax [Nonempty κ] (u : κ → ℝ) :
    ∑ k, exp (u k) / (∑ k, exp (u k)) * (u k - log (exp (u k) / (∑ k, exp (u k)))) =
      log (∑ k, exp (u k)) := by
  have term : ∀ k, u k - log (exp (u k) / (∑ k, exp (u k))) = log (∑ k, exp (u k)) := by
    intro k
    rw [log_div (exp_pos _).ne' (sum_exp_pos u).ne', log_exp, sub_sub_cancel]
  simp only [term]
  rw [← Finset.sum_mul, sum_softmax, one_mul]

theorem softmax_shift (u : κ → ℝ) (m : ℝ) (k : κ) :
    exp (u k - m) / (∑ k, exp (u k - m)) = exp (u k) / (∑ k, exp (u k)) := by
  simp only [exp_sub]
  rw [← Finset.sum_div, div_div_div_cancel_right₀ (exp_pos m).ne']

theorem log_sum_shift [Nonempty κ] (u : κ → ℝ) (m : ℝ) :
    m + log (∑ k, exp (u k - m)) = log (∑ k, exp (u k)) := by
  simp only [exp_sub]
  rw [← Finset.sum_div, log_div (sum_exp_pos u).ne' (exp_pos m).ne', log_exp]
  ring

/-- The normalised counts are the prior under which the counts are likeliest. -/
theorem counts_le (c w : κ → ℝ) (hc : ∀ k, 0 < c k) (hw : ∀ k, 0 < w k) (hsum : ∑ k, w k = 1) :
    ∑ k, c k * log (w k) ≤ ∑ k, c k * log (c k / ∑ k, c k) := by
  have hne : Nonempty κ := nonempty_of_sum_one hsum
  have hC : 0 < ∑ k, c k := Finset.sum_pos (fun k _ => hc k) Finset.univ_nonempty
  have hp : ∀ k, 0 < c k / ∑ k, c k := fun k => div_pos (hc k) hC
  have hone : ∑ k, c k / ∑ k, c k = 1 := by rw [← Finset.sum_div, div_self hC.ne']
  have bound := entropy_le (fun k => c k / ∑ k, c k) (fun k => log (w k)) hp hone
  simp only [exp_log (hw _), hsum, log_one] at bound
  have scaled := mul_le_mul_of_nonneg_left bound hC.le
  rw [mul_zero, Finset.mul_sum] at scaled
  have term : ∀ k, (∑ k, c k) * (c k / (∑ k, c k) * (log (w k) - log (c k / ∑ k, c k))) =
      c k * log (w k) - c k * log (c k / ∑ k, c k) := by
    intro k
    rw [← mul_assoc, mul_div_cancel₀ _ hC.ne', mul_sub]
  simp only [term, Finset.sum_sub_distrib] at scaled
  linarith

theorem log_sub_mul_le {c x : ℝ} (hc : 0 < c) (hx : 0 < x) :
    log x - c * x ≤ log (1 / c) - c * (1 / c) := by
  have h := log_le_sub_one_of_pos (mul_pos hc hx)
  rw [log_mul hc.ne' hx.ne'] at h
  rw [one_div, log_inv, mul_inv_cancel₀ hc.ne']
  linarith

theorem quadratic_le {b c : ℝ} (x : ℝ) (hc : 0 < c) :
    2 * b * x - c * (x * x) ≤ 2 * b * (1 / c * b) - c * (1 / c * b * (1 / c * b)) := by
  have vertex : 2 * b * (1 / c * b) - c * (1 / c * b * (1 / c * b)) - (2 * b * x - c * (x * x)) =
      c * ((x - b / c) * (x - b / c)) := by
    field_simp
    ring
  have h := mul_nonneg hc.le (mul_self_nonneg (x - b / c))
  linarith

end PyannoteCpp.VariationalBounds

import Mathlib.Algebra.Order.BigOperators.Ring.Finset
import Mathlib.Analysis.Real.Sqrt
import Mathlib.Data.Matrix.Mul
import Mathlib.Tactic

set_option autoImplicit false

/-!
# The cosine distance and the inner product it is computed from

`1 - u ⬝ᵥ v` equals the cosine distance of a unit vector `u` and `v` exactly
when `v` has length one or the two are orthogonal.
-/
namespace PyannoteCpp.CosineGeometry
noncomputable section

variable {ι : Type*} [Fintype ι]

def length (v : ι → ℝ) : ℝ := Real.sqrt (v ⬝ᵥ v)

/-- The cosine distance; a zero vector is given distance one. -/
def cosineGap (u v : ι → ℝ) : ℝ := 1 - u ⬝ᵥ v / (length u * length v)

theorem dot_self_nonneg (v : ι → ℝ) : 0 ≤ v ⬝ᵥ v :=
  Finset.sum_nonneg (fun i _ => mul_self_nonneg (v i))

theorem length_nonneg (v : ι → ℝ) : 0 ≤ length v := Real.sqrt_nonneg _

theorem length_eq_one_iff (v : ι → ℝ) : length v = 1 ↔ v ⬝ᵥ v = 1 := Real.sqrt_eq_one

theorem abs_dot_le (u v : ι → ℝ) : |u ⬝ᵥ v| ≤ length u * length v := by
  have h : (u ⬝ᵥ v) ^ 2 ≤ (u ⬝ᵥ u) * (v ⬝ᵥ v) := by
    have cauchy := Finset.sum_mul_sq_le_sq_mul_sq Finset.univ u v
    simpa only [dotProduct, sq] using cauchy
  unfold length
  rw [← Real.sqrt_mul (dot_self_nonneg u)]
  exact Real.abs_le_sqrt h

theorem dot_eq_zero_of_length {u v : ι → ℝ} (h : length v = 0) : u ⬝ᵥ v = 0 := by
  have hb := abs_dot_le u v
  rw [h, mul_zero] at hb
  exact abs_eq_zero.1 (le_antisymm hb (abs_nonneg _))

theorem cosineGap_mem (u v : ι → ℝ) : 0 ≤ cosineGap u v ∧ cosineGap u v ≤ 2 := by
  have hb : |u ⬝ᵥ v / (length u * length v)| ≤ 1 := by
    rw [abs_div, abs_of_nonneg (mul_nonneg (length_nonneg u) (length_nonneg v))]
    exact div_le_one_of_le₀ (abs_dot_le u v) (mul_nonneg (length_nonneg u) (length_nonneg v))
  obtain ⟨hl, hr⟩ := abs_le.1 hb
  unfold cosineGap
  constructor <;> linarith

theorem dot_gap_iff {u v : ι → ℝ} (hu : length u = 1) :
    1 - u ⬝ᵥ v = cosineGap u v ↔ length v = 1 ∨ u ⬝ᵥ v = 0 := by
  unfold cosineGap
  rw [hu, one_mul, sub_right_inj]
  by_cases hv : length v = 0
  · simp [dot_eq_zero_of_length hv]
  · rw [eq_div_iff hv]
    constructor
    · intro h
      by_cases hd : u ⬝ᵥ v = 0
      · exact Or.inr hd
      · exact Or.inl (mul_left_cancel₀ hd (by rw [h, mul_one]))
    · rintro (h | h)
      · rw [h, mul_one]
      · rw [h, zero_mul]

theorem dot_smul_iff (u v : ι → ℝ) :
    (∀ k : ℝ, 0 < k → u ⬝ᵥ (k • v) = u ⬝ᵥ v) ↔ u ⬝ᵥ v = 0 := by
  constructor
  · intro h
    have two := h 2 (by norm_num)
    rw [dotProduct_smul, smul_eq_mul] at two
    linarith
  · intro h k _
    rw [dotProduct_smul, h, smul_zero]

end
end PyannoteCpp.CosineGeometry

import Mathlib.Analysis.Real.Sqrt
import Mathlib.Analysis.SpecialFunctions.Log.Basic
import PyannoteCpp.ExactFloat

set_option autoImplicit false

/-!
# Elementary functions on special values

The functions of the mathematical library over the reals: a NaN stays one, a
value outside the domain gives one, and the infinities go to their limits.
-/
namespace PyannoteCpp.ExactFloat
noncomputable section

protected def sqrt : ExactFloat ℝ → ExactFloat ℝ
  | nan | inf true => nan
  | inf false => inf false
  | finite x => if x < 0 then nan else finite √x

protected def exp : ExactFloat ℝ → ExactFloat ℝ
  | nan => nan
  | inf true => finite 0
  | inf false => inf false
  | finite x => finite (Real.exp x)

protected def log : ExactFloat ℝ → ExactFloat ℝ
  | nan | inf true => nan
  | inf false => inf false
  | finite x => if x < 0 then nan else if x = 0 then inf true else finite (Real.log x)

/-- A loop that adds to a sum that starts at zero. -/
def sumLoop {n : ℕ} (f : Fin n → ExactFloat ℝ) : ExactFloat ℝ := (List.finRange n).foldl (fun acc i => acc + f i) 0

@[simp] theorem finite_exp (x : ℝ) : (finite x).exp = finite (Real.exp x) := rfl

theorem finite_sqrt {x : ℝ} (h : 0 ≤ x) : (finite x).sqrt = finite √x := if_neg (not_lt.2 h)

theorem finite_log {x : ℝ} (h : 0 < x) : (finite x).log = finite (Real.log x) := by
  change (if x < 0 then nan else if x = 0 then inf true else finite (Real.log x)) = _
  rw [if_neg (not_lt.2 h.le), if_neg h.ne']

theorem sumLoop_finite {n : ℕ} {f : Fin n → ExactFloat ℝ} {g : Fin n → ℝ} (h : ∀ i, f i = finite (g i)) :
    sumLoop f = finite (∑ i, g i) := by
  unfold sumLoop
  rw [zero_def, foldl_add_finite _ _ g (fun i _ => h i), zero_add, Fin.sum_univ_def]

end
end PyannoteCpp.ExactFloat

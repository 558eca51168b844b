import PyannoteCpp.VariationalBounds
import PyannoteCpp.VariationalLoop

set_option autoImplicit false

/-!
# The loop climbs one functional

With the guards read as zero, the printed value is a free energy taken at the
speaker tables and the prior of the iteration and at its new responsibilities.
Each of the three updates is the maximiser of the same functional in its own
argument, so the values never decrease.
-/
namespace PyannoteCpp.VariationalLoop
open Real VariationalBounds
noncomputable section

variable {N D K : ℕ} (P : Problem N D)

namespace Problem

/-- The functional all updates climb. -/
def freeEnergy (invL alpha : Fin K → Fin D → ℝ) (gamma : Fin N → Fin K → ℝ) (pi : Fin K → ℝ) : ℝ :=
  ∑ i, ∑ k, gamma i k * (P.score invL alpha i k + log (pi k) - log (gamma i k)) +
    P.Fb * 0.5 * elboReg 0 invL alpha

structure Positive : Prop where
  Fa : 0 < P.Fa
  Fb : 0 < P.Fb
  pldaPsi : ∀ d, 0 < P.pldaPsi d

end Problem

/-- A prior and responsibilities the next iteration may start from. -/
structure Proper (s : VbState N K) : Prop where
  gamma : ∀ i k, 0 ≤ s.gamma i k
  pi : ∀ k, 0 < s.pi k
  total : ∑ k, s.pi k = 1

variable {P}

section Responsibilities

variable (s : VbState N K)

theorem nextGamma_eq (i : Fin N) (k : Fin K) : P.nextGamma 0 s i k =
    exp (P.logProbs 0 s i k) / ∑ k, exp (P.logProbs 0 s i k) := by
  rw [Problem.nextGamma, add_zero]
  exact softmax_shift _ _ k

theorem logProbs_eq (i : Fin N) (k : Fin K) :
    P.logProbs 0 s i k = P.score (P.invL s.gamma) (P.alpha s.gamma) i k + log (s.pi k) := by
  rw [Problem.logProbs, add_zero]
  rfl

variable [Nonempty (Fin K)]

theorem nextGamma_pos (i : Fin N) (k : Fin K) : 0 < P.nextGamma 0 s i k := by
  rw [nextGamma_eq]
  exact div_pos (exp_pos _) (sum_exp_pos _)

theorem nextGamma_sum (i : Fin N) : ∑ k, P.nextGamma 0 s i k = 1 := by
  simp only [nextGamma_eq]
  exact sum_softmax _

theorem logPX_eq : P.logPX 0 s = ∑ i, log (∑ k, exp (P.logProbs 0 s i k)) := by
  refine Finset.sum_congr rfl (fun i _ => ?_)
  rw [add_zero]
  exact log_sum_shift _ _

theorem elbo_eq : P.elbo 0 s =
    P.freeEnergy (P.invL s.gamma) (P.alpha s.gamma) (P.nextGamma 0 s) s.pi := by
  have row : ∀ i, log (∑ k, exp (P.logProbs 0 s i k)) = ∑ k, P.nextGamma 0 s i k *
      (P.score (P.invL s.gamma) (P.alpha s.gamma) i k + log (s.pi k) - log (P.nextGamma 0 s i k)) := by
    intro i
    rw [← entropy_softmax]
    refine Finset.sum_congr rfl (fun k _ => ?_)
    rw [nextGamma_eq, logProbs_eq]
  rw [Problem.elbo, logPX_eq, Problem.freeEnergy, Finset.sum_congr rfl (fun i _ => row i)]

/-- No other responsibilities do better at the same tables and prior. -/
theorem freeEnergy_le_elbo {gamma : Fin N → Fin K → ℝ} (hpos : ∀ i k, 0 < gamma i k)
    (hsum : ∀ i, ∑ k, gamma i k = 1) :
    P.freeEnergy (P.invL s.gamma) (P.alpha s.gamma) gamma s.pi ≤ P.elbo 0 s := by
  rw [Problem.elbo, logPX_eq, Problem.freeEnergy]
  refine add_le_add_left (Finset.sum_le_sum (fun i _ => ?_)) _
  have bound := entropy_le (gamma i) (P.logProbs 0 s i) (hpos i) (hsum i)
  simpa only [logProbs_eq] using bound

end Responsibilities

section Prior

theorem freeEnergy_prior (invL alpha : Fin K → Fin D → ℝ) (gamma : Fin N → Fin K → ℝ)
    (pi : Fin K → ℝ) : P.freeEnergy invL alpha gamma pi =
      ∑ k, (∑ i, gamma i k) * log (pi k) +
        (∑ i, ∑ k, gamma i k * (P.score invL alpha i k - log (gamma i k)) +
          P.Fb * 0.5 * Problem.elboReg 0 invL alpha) := by
  have split : ∑ i, ∑ k, gamma i k * (P.score invL alpha i k + log (pi k) - log (gamma i k)) =
      ∑ i, ∑ k, gamma i k * log (pi k) +
        ∑ i, ∑ k, gamma i k * (P.score invL alpha i k - log (gamma i k)) := by
    rw [← Finset.sum_add_distrib]
    refine Finset.sum_congr rfl (fun i _ => ?_)
    rw [← Finset.sum_add_distrib]
    exact Finset.sum_congr rfl (fun k _ => by ring)
  have swap : ∑ i, ∑ k, gamma i k * log (pi k) = ∑ k, (∑ i, gamma i k) * log (pi k) := by
    rw [Finset.sum_comm]
    exact Finset.sum_congr rfl (fun k _ => (Finset.sum_mul _ _ _).symm)
  rw [Problem.freeEnergy, split, swap, add_assoc]

/-- The normalised column sums are the best prior. -/
theorem freeEnergy_prior_le (invL alpha : Fin K → Fin D → ℝ) {gamma : Fin N → Fin K → ℝ}
    {pi : Fin K → ℝ} (hcol : ∀ k, 0 < ∑ i, gamma i k) (hpi : ∀ k, 0 < pi k) (hsum : ∑ k, pi k = 1) :
    P.freeEnergy invL alpha gamma pi ≤
      P.freeEnergy invL alpha gamma (fun k => (∑ i, gamma i k) / ∑ k, ∑ i, gamma i k) := by
  rw [freeEnergy_prior, freeEnergy_prior]
  exact add_le_add_left (counts_le _ pi hcol hpi hsum) _

end Prior

section Tables

/-- One entry of the two tables, with everything of the functional it appears in. -/
def entry (Fa Fb psi total moment invL alpha : ℝ) : ℝ :=
  Fa * (moment * alpha - 0.5 * (total * (invL + alpha * alpha) * psi)) +
    Fb * 0.5 * (log invL - invL - alpha * alpha + 1)

/-- The updated entry is the vertex in both variables. -/
theorem entry_le {Fa Fb psi total moment invL alpha : ℝ} (hFb : 0 < Fb) (hL : 0 < invL)
    (hc : 0 < 1 + Fa / Fb * total * psi) : entry Fa Fb psi total moment invL alpha ≤
      entry Fa Fb psi total moment (1 / (1 + Fa / Fb * total * psi))
        (Fa / Fb * (1 / (1 + Fa / Fb * total * psi)) * moment) := by
  have shape : ∀ L a : ℝ, entry Fa Fb psi total moment L a =
      Fb * 0.5 * ((log L - (1 + Fa / Fb * total * psi) * L) +
        (2 * (Fa / Fb * moment) * a - (1 + Fa / Fb * total * psi) * (a * a)) + 1) := by
    intro L a
    unfold entry
    field_simp
    ring
  have hlog := log_sub_mul_le hc hL
  have hquad := quadratic_le (b := Fa / Fb * moment) alpha hc
  have hmean : Fa / Fb * (1 / (1 + Fa / Fb * total * psi)) * moment =
      1 / (1 + Fa / Fb * total * psi) * (Fa / Fb * moment) := by ring
  rw [shape, shape, hmean]
  refine mul_le_mul_of_nonneg_left ?_ (mul_nonneg hFb.le (by norm_num))
  linarith

theorem sum_score (invL alpha : Fin K → Fin D → ℝ) (gamma : Fin N → Fin K → ℝ) (k : Fin K) :
    ∑ i, gamma i k * P.score invL alpha i k =
      ∑ d, P.Fa * ((∑ i, gamma i k * P.rho i d) * alpha k d -
        0.5 * ((∑ i, gamma i k) * (invL k d + alpha k d * alpha k d) * P.pldaPsi d)) +
      ∑ i, gamma i k * (P.Fa * P.G i) := by
  have swap : ∑ d, (∑ i, gamma i k * P.rho i d) * alpha k d =
      ∑ i, gamma i k * ∑ d, P.rho i d * alpha k d := by
    simp only [Finset.sum_mul, Finset.mul_sum]
    rw [Finset.sum_comm]
    exact Finset.sum_congr rfl (fun i _ => Finset.sum_congr rfl (fun d _ => by ring))
  have weigh : ∑ d, 0.5 * ((∑ i, gamma i k) * (invL k d + alpha k d * alpha k d) * P.pldaPsi d) =
      ∑ i, gamma i k * (0.5 * ∑ d, (invL k d + alpha k d * alpha k d) * P.pldaPsi d) := by
    rw [← Finset.sum_mul, Finset.mul_sum, Finset.mul_sum]
    exact Finset.sum_congr rfl (fun d _ => by ring)
  rw [← Finset.mul_sum, Finset.sum_sub_distrib, swap, weigh, ← Finset.sum_sub_distrib,
    Finset.mul_sum, ← Finset.sum_add_distrib]
  refine Finset.sum_congr rfl (fun i _ => ?_)
  unfold Problem.score
  ring

theorem sum_weighted (gamma X : Fin N → Fin K → ℝ) (pi : Fin K → ℝ) :
    ∑ i, ∑ k, gamma i k * (X i k + log (pi k) - log (gamma i k)) =
      ∑ k, ∑ i, gamma i k * X i k + ∑ i, ∑ k, gamma i k * (log (pi k) - log (gamma i k)) := by
  rw [Finset.sum_comm (f := fun k i => gamma i k * X i k), ← Finset.sum_add_distrib]
  refine Finset.sum_congr rfl (fun i _ => ?_)
  rw [← Finset.sum_add_distrib]
  exact Finset.sum_congr rfl (fun k _ => by ring)

theorem freeEnergy_tables (invL alpha : Fin K → Fin D → ℝ) (gamma : Fin N → Fin K → ℝ)
    (pi : Fin K → ℝ) : P.freeEnergy invL alpha gamma pi =
      ∑ k, ∑ d, entry P.Fa P.Fb (P.pldaPsi d) (∑ i, gamma i k) (∑ i, gamma i k * P.rho i d)
        (invL k d) (alpha k d) +
      ∑ i, ∑ k, gamma i k * (P.Fa * P.G i + log (pi k) - log (gamma i k)) := by
  have regular : P.Fb * 0.5 * Problem.elboReg 0 invL alpha =
      ∑ k, ∑ d, P.Fb * 0.5 * (log (invL k d) - invL k d - alpha k d * alpha k d + 1) := by
    simp only [Problem.elboReg, add_zero, Finset.mul_sum]
  have rows := sum_weighted gamma (P.score invL alpha) pi
  have constant := sum_weighted gamma (fun i _ => P.Fa * P.G i) pi
  rw [Problem.freeEnergy, rows, constant, regular,
    Finset.sum_congr rfl (fun k _ => sum_score invL alpha gamma k)]
  unfold entry
  simp only [Finset.sum_add_distrib]
  ring

theorem divisor_pos (hP : P.Positive) {gamma : Fin N → Fin K → ℝ} (hgamma : ∀ i k, 0 ≤ gamma i k)
    (k : Fin K) (d : Fin D) :
    0 < 1 + P.Fa / P.Fb * Problem.gammaSum gamma k * P.pldaPsi d := by
  have hsum : 0 ≤ Problem.gammaSum gamma k := Finset.sum_nonneg (fun i _ => hgamma i k)
  have hprod : 0 ≤ P.Fa / P.Fb * Problem.gammaSum gamma k * P.pldaPsi d :=
    mul_nonneg (mul_nonneg (div_pos hP.Fa hP.Fb).le hsum) (hP.pldaPsi d).le
  linarith

theorem invL_pos (hP : P.Positive) {gamma : Fin N → Fin K → ℝ} (hgamma : ∀ i k, 0 ≤ gamma i k)
    (k : Fin K) (d : Fin D) : 0 < P.invL gamma k d :=
  one_div_pos.2 (divisor_pos hP hgamma k d)

/-- The updated tables are the best ones for given responsibilities. -/
theorem freeEnergy_tables_le (hP : P.Positive) {invL : Fin K → Fin D → ℝ} (alpha : Fin K → Fin D → ℝ)
    (hL : ∀ k d, 0 < invL k d) {gamma : Fin N → Fin K → ℝ} (hgamma : ∀ i k, 0 ≤ gamma i k)
    (pi : Fin K → ℝ) : P.freeEnergy invL alpha gamma pi ≤
      P.freeEnergy (P.invL gamma) (P.alpha gamma) gamma pi := by
  rw [freeEnergy_tables, freeEnergy_tables]
  refine add_le_add_left (Finset.sum_le_sum (fun k _ => Finset.sum_le_sum (fun d _ => ?_))) _
  exact entry_le hP.Fb (hL k d) (divisor_pos hP hgamma k d)

end Tables

section Runs

theorem next_proper [Nonempty (Fin N)] [Nonempty (Fin K)] (s : VbState N K) :
    Proper (P.next 0 s) := by
  have hcol : ∀ k, 0 < ∑ i, P.nextGamma 0 s i k :=
    fun k => Finset.sum_pos (fun i _ => nextGamma_pos s i k) Finset.univ_nonempty
  have htotal : 0 < ∑ k, ∑ i, P.nextGamma 0 s i k :=
    Finset.sum_pos (fun k _ => hcol k) Finset.univ_nonempty
  refine ⟨fun i k => (nextGamma_pos s i k).le, fun k => ?_, ?_⟩
  · change 0 < P.nextPi 0 s k
    rw [Problem.nextPi, add_zero]
    exact div_pos (hcol k) htotal
  · change ∑ k, P.nextPi 0 s k = 1
    simp only [Problem.nextPi, add_zero]
    rw [← Finset.sum_div, div_self htotal.ne']

/-- One iteration to the next: prior, tables and responsibilities each climb. -/
theorem elbo_le_next [Nonempty (Fin N)] [Nonempty (Fin K)] (hP : P.Positive) {s : VbState N K}
    (hs : Proper s) : P.elbo 0 s ≤ P.elbo 0 (P.next 0 s) := by
  have hcol : ∀ k, 0 < ∑ i, P.nextGamma 0 s i k :=
    fun k => Finset.sum_pos (fun i _ => nextGamma_pos s i k) Finset.univ_nonempty
  have hnext : (P.next 0 s).pi =
      fun k => (∑ i, P.nextGamma 0 s i k) / ∑ k, ∑ i, P.nextGamma 0 s i k := by
    funext k
    change P.nextPi 0 s k = _
    rw [Problem.nextPi, add_zero]
  calc
    P.elbo 0 s = P.freeEnergy (P.invL s.gamma) (P.alpha s.gamma) (P.nextGamma 0 s) s.pi := elbo_eq s
    _ ≤ P.freeEnergy (P.invL s.gamma) (P.alpha s.gamma) (P.nextGamma 0 s) (P.next 0 s).pi := by
      rw [hnext]
      exact freeEnergy_prior_le _ _ hcol hs.pi hs.total
    _ ≤ P.freeEnergy (P.invL (P.next 0 s).gamma) (P.alpha (P.next 0 s).gamma) (P.nextGamma 0 s)
        (P.next 0 s).pi :=
      freeEnergy_tables_le hP _ (invL_pos hP hs.gamma) (fun i k => (nextGamma_pos s i k).le) _
    _ ≤ P.elbo 0 (P.next 0 s) :=
      freeEnergy_le_elbo (P.next 0 s) (nextGamma_pos s) (nextGamma_sum s)

theorem vbLoop_monotone [Nonempty (Fin N)] [Nonempty (Fin K)] (hP : P.Positive) (left : ℕ) (iter : ℕ)
    {s : VbState N K} (hs : Proper s) (prevElbo : ℝ) (hprev : 0 < iter → prevElbo ≤ P.elbo 0 s) :
    (vbLoop P 0 left iter s prevElbo).elbos.Pairwise (· ≤ ·) ∧
      (∀ v ∈ (vbLoop P 0 left iter s prevElbo).elbos, P.elbo 0 s ≤ v) ∧
      (vbLoop P 0 left iter s prevElbo).stop ≠ some .decreased := by
  induction left generalizing iter s prevElbo with
  | zero => exact ⟨List.Pairwise.nil, by simp [vbLoop], by simp [vbLoop]⟩
  | succ left ih =>
    unfold vbLoop
    dsimp only
    split_ifs with hstop hdec
    · exact absurd (hprev hstop.1) (by linarith)
    · exact ⟨List.pairwise_singleton _ _, by simp, by simp⟩
    · obtain ⟨hmono, hlow, hend⟩ := ih (iter + 1) (next_proper s) _
        (fun _ => elbo_le_next hP hs)
      have rise : ∀ v ∈ (vbLoop P 0 left (iter + 1) (P.next 0 s) (P.elbo 0 s)).elbos,
          P.elbo 0 s ≤ v := fun v hv => (elbo_le_next hP hs).trans (hlow v hv)
      refine ⟨List.pairwise_cons.2 ⟨rise, hmono⟩, ?_, hend⟩
      rintro v (_ | ⟨_, hv⟩)
      · exact le_rfl
      · exact rise v hv

theorem uniform_proper (hK : 0 < K) {gamma : Fin N → Fin K → ℝ} (hgamma : ∀ i k, 0 ≤ gamma i k) :
    Proper (⟨gamma, fun _ => 1 / K⟩ : VbState N K) := by
  have hK' : (0 : ℝ) < K := Nat.cast_pos.2 hK
  refine ⟨hgamma, fun _ => one_div_pos.2 hK', ?_⟩
  simp [hK'.ne']

/-- With the guards read as zero the value never decreases, whether or not the loop goes on. -/
theorem clusterVbxLoop_monotone (hP : P.Positive) (hN : 0 < N) (hK : 0 < K)
    {gamma : Fin N → Fin K → ℝ} (hgamma : ∀ i k, 0 ≤ gamma i k) (maxIters : ℕ) :
    (clusterVbxLoop P 0 maxIters gamma).elbos.Pairwise (· ≤ ·) ∧
      (clusterVbxLoop P 0 maxIters gamma).stop ≠ some .decreased ∧
      ∀ t, P.elbo 0 ((P.next 0)^[t] ⟨gamma, fun _ => 1 / K⟩) ≤
        P.elbo 0 ((P.next 0)^[t + 1] ⟨gamma, fun _ => 1 / K⟩) := by
  have hn : Nonempty (Fin N) := ⟨⟨0, hN⟩⟩
  have hk : Nonempty (Fin K) := ⟨⟨0, hK⟩⟩
  have start := uniform_proper hK hgamma
  have proper : ∀ t, Proper ((P.next 0)^[t] ⟨gamma, fun _ => 1 / K⟩) := by
    intro t
    cases t with
    | zero => exact start
    | succ t =>
      rw [Function.iterate_succ_apply']
      exact next_proper _
  have run := vbLoop_monotone hP maxIters 0 start (-1e20) (fun h => absurd h (lt_irrefl 0))
  refine ⟨run.1, run.2.2, fun t => ?_⟩
  rw [Function.iterate_succ_apply']
  exact elbo_le_next hP (proper t)

theorem clusterVbxLoop_monotone_two :
    let P : Problem 2 1 := ⟨0.07, 0.8, fun _ => 1, ![![1], ![-1]]⟩
    let gamma : Fin 2 → Fin 2 → ℝ := ![![1, 0], ![0, 1]]
    (clusterVbxLoop P 0 5 gamma).elbos.Pairwise (· ≤ ·) ∧
      (clusterVbxLoop P 0 5 gamma).stop ≠ some .decreased ∧
      ∀ t, P.elbo 0 ((P.next 0)^[t] ⟨gamma, fun _ => 1 / (2 : ℕ)⟩) ≤
        P.elbo 0 ((P.next 0)^[t + 1] ⟨gamma, fun _ => 1 / (2 : ℕ)⟩) := by
  refine clusterVbxLoop_monotone ⟨by norm_num, by norm_num, fun _ => zero_lt_one⟩
    Nat.zero_lt_two Nat.zero_lt_two (fun i k => ?_) 5
  fin_cases i <;> fin_cases k <;> simp

end Runs
end
end PyannoteCpp.VariationalLoop

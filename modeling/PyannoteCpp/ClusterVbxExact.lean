import PyannoteCpp.ClusterVbxLabels
import PyannoteCpp.VariationalLoop

set_option autoImplicit false

/-!
# The iterations without special values

Where no variance is negative and no weight divides by zero, nothing leaves the
numbers, and the loop with special values is the loop over the reals.
-/
namespace PyannoteCpp.ClusterVbx
open ExactFloat

variable {N D K : ℕ}

noncomputable section

def ofReal (P : VariationalLoop.Problem N D) : Problem N D :=
  ⟨fun d => finite (P.pldaPsi d), fun i d => finite (P.embeddings i d)⟩

def ofRealState (s : VariationalLoop.VbState N K) : VbState N K :=
  ⟨fun i k => finite (s.gamma i k), fun k => finite (s.pi k)⟩

end

/-- The inputs under which no division is by zero and no root is of a negative number. -/
structure WellPosed (P : VariationalLoop.Problem N D) (params : VbxParams) : Prop where
  Fa : params.Fa = finite P.Fa
  Fb : params.Fb = finite P.Fb
  divisor : P.Fb ≠ 0
  ratio : 0 ≤ P.Fa / P.Fb
  psi : ∀ d, 0 ≤ P.pldaPsi d

structure NonNegative (s : VariationalLoop.VbState N K) : Prop where
  gamma : ∀ i k, 0 ≤ s.gamma i k
  pi : ∀ k, 0 ≤ s.pi k

variable {P : VariationalLoop.Problem N D} {params : VbxParams} {s : VariationalLoop.VbState N K}

theorem G_exact (i : Fin N) : (ofReal P).G i = finite (P.G i) := by
  have hsquares : sumLoop (fun d => (ofReal P).vbxEmbeddings i d * (ofReal P).vbxEmbeddings i d) =
      finite (∑ d, P.embeddings i d * P.embeddings i d) := sumLoop_finite (fun _ => rfl)
  rw [Problem.G, hsquares, finite_add, finite_mul, VariationalLoop.Problem.G]

theorem rho_exact (h : WellPosed P params) (i : Fin N) (d : Fin D) : (ofReal P).rho i d = finite (P.rho i d) := by
  change finite (P.embeddings i d) * (finite (P.pldaPsi d)).sqrt = _
  rw [finite_sqrt (h.psi d), finite_mul]
  rfl

theorem ratio_exact (h : WellPosed P params) : params.Fa / params.Fb = finite (P.Fa / P.Fb) := by
  rw [h.Fa, h.Fb, finite_div _ h.divisor]

theorem gammaSum_exact (k : Fin K) :
    gammaSum (ofRealState s) k = finite (VariationalLoop.Problem.gammaSum s.gamma k) :=
  sumLoop_finite (fun _ => rfl)

theorem denominator_pos (h : WellPosed P params) (hs : NonNegative s) (k : Fin K) (d : Fin D) :
    0 < 1 + P.Fa / P.Fb * VariationalLoop.Problem.gammaSum s.gamma k * P.pldaPsi d := by
  have hsum : 0 ≤ VariationalLoop.Problem.gammaSum s.gamma k := Finset.sum_nonneg (fun i _ => hs.gamma i k)
  have hprod := mul_nonneg (mul_nonneg h.ratio hsum) (h.psi d)
  linarith

theorem invL_exact (h : WellPosed P params) (hs : NonNegative s) (k : Fin K) (d : Fin D) :
    invL (ofReal P) params (ofRealState s) k d = finite (P.invL s.gamma k d) := by
  have hpos := denominator_pos h hs k d
  change finite 1 / (finite 1 + params.Fa / params.Fb * gammaSum (ofRealState s) k * finite (P.pldaPsi d)) = _
  rw [ratio_exact h, gammaSum_exact, finite_mul, finite_mul, finite_add, finite_div _ hpos.ne']
  rfl

theorem alpha_exact (h : WellPosed P params) (hs : NonNegative s) (k : Fin K) (d : Fin D) :
    alpha (ofReal P) params (ofRealState s) k d = finite (P.alpha s.gamma k d) := by
  have hsum : sumLoop (fun i => (ofRealState s).gamma i k * (ofReal P).rho i d) =
      finite (∑ i, s.gamma i k * P.rho i d) := by
    refine sumLoop_finite (fun i => ?_)
    rw [rho_exact h]
    rfl
  rw [alpha, ratio_exact h, invL_exact h hs, hsum, finite_mul, finite_mul]
  rfl

theorem logP_exact (h : WellPosed P params) (hs : NonNegative s) (i : Fin N) (k : Fin K) :
    logP (ofReal P) params (ofRealState s) i k = finite (P.logP s.gamma i k) := by
  have hterm2 : sumLoop (fun d => (invL (ofReal P) params (ofRealState s) k d +
      alpha (ofReal P) params (ofRealState s) k d * alpha (ofReal P) params (ofRealState s) k d) *
        (ofReal P).pldaPsi d) =
      finite (∑ d, (P.invL s.gamma k d + P.alpha s.gamma k d * P.alpha s.gamma k d) * P.pldaPsi d) := by
    refine sumLoop_finite (fun d => ?_)
    rw [invL_exact h hs, alpha_exact h hs]
    rfl
  have hterm1 : sumLoop (fun d => (ofReal P).rho i d * alpha (ofReal P) params (ofRealState s) k d) =
      finite (∑ d, P.rho i d * P.alpha s.gamma k d) := by
    refine sumLoop_finite (fun d => ?_)
    rw [rho_exact h, alpha_exact h hs]
    rfl
  unfold logP
  dsimp only
  rw [hterm2, hterm1, G_exact, h.Fa, finite_mul, finite_sub, finite_add, finite_mul]
  unfold VariationalLoop.Problem.logP VariationalLoop.Problem.score
  rw [mul_comm (∑ d, _) (0.5 : ℝ)]

theorem logProbs_exact (h : WellPosed P params) (hs : NonNegative s) (i : Fin N) (k : Fin K) :
    logProbs (ofReal P) params (ofRealState s) i k = finite (P.logProbs 1e-8 s i k) := by
  have hpos : (0 : ℝ) < s.pi k + 1e-8 := by linarith [hs.pi k]
  change logP (ofReal P) params (ofRealState s) i k + (finite (s.pi k) + eps).log = _
  rw [logP_exact h hs, eps, finite_add, finite_log hpos, finite_add]
  rfl

theorem maxLoop_finite {f : Fin K → Value} {g : Fin K → ℝ} (h : ∀ k, f k = finite (g k)) :
    maxLoop f = finite ((List.finRange K).foldl (fun m k => if g k > m then g k else m) (-1e20)) := by
  have hfold : ∀ (l : List (Fin K)) (m : ℝ),
      l.foldl (raise f) (finite m) = finite (l.foldl (fun m k => if g k > m then g k else m) m) := by
    intro l
    induction l with
    | nil => exact fun m => rfl
    | cons a l ih =>
      intro m
      rw [List.foldl_cons, List.foldl_cons, ← ih]
      congr 1
      rw [raise, h a, finite_lt]
      split_ifs with hlt hgt <;> simp_all
  exact hfold _ _

theorem maxLp_exact (h : WellPosed P params) (hs : NonNegative s) (i : Fin N) :
    maxLp (ofReal P) params (ofRealState s) i = finite (P.maxLp 1e-8 s i) :=
  maxLoop_finite (fun k => logProbs_exact h hs i k)

theorem weight_exact (h : WellPosed P params) (hs : NonNegative s) (i : Fin N) (k : Fin K) :
    weight (ofReal P) params (ofRealState s) i k = finite (P.weight 1e-8 s i k) := by
  rw [weight, logProbs_exact h hs, maxLp_exact h hs, finite_sub, finite_exp]
  rfl

theorem sumProb_exact (h : WellPosed P params) (hs : NonNegative s) (i : Fin N) :
    sumProb (ofReal P) params (ofRealState s) i = finite (P.sumProb 1e-8 s i) :=
  sumLoop_finite (fun k => weight_exact h hs i k)

theorem sumProb_nonneg (i : Fin N) : 0 ≤ P.sumProb 1e-8 s i :=
  Finset.sum_nonneg (fun _ _ => (Real.exp_pos _).le)

theorem nextGamma_exact (h : WellPosed P params) (hs : NonNegative s) (i : Fin N) (k : Fin K) :
    nextGamma (ofReal P) params (ofRealState s) i k = finite (P.nextGamma 1e-8 s i k) := by
  have hpos : (0 : ℝ) < P.sumProb 1e-8 s i + 1e-8 := by linarith [sumProb_nonneg (P := P) (s := s) i]
  rw [nextGamma, weight_exact h hs, sumProb_exact h hs, eps, finite_add, finite_div _ hpos.ne']
  rfl

theorem next_nonNegative (s : VariationalLoop.VbState N K) : NonNegative (P.next 1e-8 s) := by
  have hgamma : ∀ i k, 0 ≤ P.nextGamma 1e-8 s i k := fun i k =>
    div_nonneg (Real.exp_pos _).le (by linarith [sumProb_nonneg (P := P) (s := s) i])
  have hsum : ∀ k, 0 ≤ ∑ i, P.nextGamma 1e-8 s i k := fun k => Finset.sum_nonneg (fun i _ => hgamma i k)
  refine ⟨hgamma, fun k => div_nonneg (hsum k) ?_⟩
  have htotal := Finset.sum_nonneg (fun k (_ : k ∈ Finset.univ) => hsum k)
  linarith

theorem next_exact (h : WellPosed P params) (hs : NonNegative s) :
    next (ofReal P) params (ofRealState s) = ofRealState (P.next 1e-8 s) := by
  have hcolumn : ∀ k, sumLoop (fun i => nextGamma (ofReal P) params (ofRealState s) i k) =
      finite (∑ i, P.nextGamma 1e-8 s i k) := fun k => sumLoop_finite (fun i => nextGamma_exact h hs i k)
  have hgamma : nextGamma (ofReal P) params (ofRealState s) = fun i k => finite (P.nextGamma 1e-8 s i k) := by
    funext i k
    exact nextGamma_exact h hs i k
  have hpi : nextPi (ofReal P) params (ofRealState s) = fun k => finite (P.nextPi 1e-8 s k) := by
    funext k
    have hnonneg : 0 ≤ ∑ k, ∑ i, P.nextGamma 1e-8 s i k := Finset.sum_nonneg
      (fun k _ => Finset.sum_nonneg (fun i _ => (next_nonNegative (P := P) s).gamma i k))
    have hpos : (0 : ℝ) < ∑ k, ∑ i, P.nextGamma 1e-8 s i k + 1e-8 := by linarith
    unfold nextPi
    dsimp only
    rw [hcolumn, sumLoop_finite hcolumn, eps, finite_add, finite_div _ hpos.ne']
    rfl
  rw [next, hgamma, hpi]
  rfl

theorem elboReg_exact (h : WellPosed P params) (hs : NonNegative s) :
    elboReg (ofReal P) params (ofRealState s) =
      finite (VariationalLoop.Problem.elboReg 1e-8 (P.invL s.gamma) (P.alpha s.gamma)) := by
  have hterm : ∀ k d, (invL (ofReal P) params (ofRealState s) k d + eps).log -
      invL (ofReal P) params (ofRealState s) k d -
      alpha (ofReal P) params (ofRealState s) k d * alpha (ofReal P) params (ofRealState s) k d + finite 1 =
      finite (Real.log (P.invL s.gamma k d + 1e-8) - P.invL s.gamma k d -
        P.alpha s.gamma k d * P.alpha s.gamma k d + 1) := by
    intro k d
    have hinv : 0 < P.invL s.gamma k d := one_div_pos.2 (denominator_pos h hs k d)
    rw [invL_exact h hs, alpha_exact h hs, eps, finite_add, finite_log (by linarith), finite_sub, finite_mul,
      finite_sub, finite_add]
  have hinner : ∀ (k : Fin K) (x : ℝ), (List.finRange D).foldl (fun acc d => acc +
      ((invL (ofReal P) params (ofRealState s) k d + eps).log - invL (ofReal P) params (ofRealState s) k d -
        alpha (ofReal P) params (ofRealState s) k d * alpha (ofReal P) params (ofRealState s) k d + finite 1))
        (finite x) = finite (x + ∑ d, (Real.log (P.invL s.gamma k d + 1e-8) - P.invL s.gamma k d -
          P.alpha s.gamma k d * P.alpha s.gamma k d + 1)) := by
    intro k x
    rw [foldl_add_finite _ _ _ (fun d _ => hterm k d), Fin.sum_univ_def]
  have houter : ∀ (l : List (Fin K)) (x : ℝ), l.foldl (fun acc k => (List.finRange D).foldl (fun acc d => acc +
      ((invL (ofReal P) params (ofRealState s) k d + eps).log - invL (ofReal P) params (ofRealState s) k d -
        alpha (ofReal P) params (ofRealState s) k d * alpha (ofReal P) params (ofRealState s) k d + finite 1)) acc)
        (finite x) = finite (x + (l.map (fun k => ∑ d, (Real.log (P.invL s.gamma k d + 1e-8) -
          P.invL s.gamma k d - P.alpha s.gamma k d * P.alpha s.gamma k d + 1))).sum) := by
    intro l
    induction l with
    | nil => exact fun x => by simp
    | cons k l ih =>
      intro x
      rw [List.foldl_cons, hinner, ih, List.map_cons, List.sum_cons, add_assoc]
  unfold elboReg
  rw [houter, zero_add, ← Fin.sum_univ_def]
  rfl

theorem elbo_exact (h : WellPosed P params) (hs : NonNegative s) :
    elbo (ofReal P) params (ofRealState s) = finite (P.elbo 1e-8 s) := by
  have hlog : logPX (ofReal P) params (ofRealState s) = finite (P.logPX 1e-8 s) := by
    refine sumLoop_finite (fun i => ?_)
    have hpos : (0 : ℝ) < P.sumProb 1e-8 s i + 1e-8 := by linarith [sumProb_nonneg (P := P) (s := s) i]
    rw [maxLp_exact h hs, sumProb_exact h hs, eps, finite_add, finite_log hpos, finite_add]
  rw [elbo, hlog, elboReg_exact h hs, h.Fb, finite_mul, finite_mul, finite_add]
  rfl

theorem startState_exact {c : ℝ} (hc : params.initSmoothing = finite c) (hK : 0 < K) (labels : Fin N → ℤ) :
    ∃ s : VariationalLoop.VbState N K, NonNegative s ∧ startState params labels = ofRealState s ∧
      ∀ k, s.pi k = 1 / K := by
  have hpos : (0 : ℝ) < K := by exact_mod_cast hK
  have hrow : ∀ i, ∃ r : Fin K → ℝ, (∀ k, 0 ≤ r k) ∧ startGamma params labels i = fun k => finite (r k) := by
    intro i
    have hinit : ∀ k, initGamma (K := K) labels i k = finite (if labels i = k then 1 else 0) := by
      intro k
      unfold initGamma
      split_ifs <;> rfl
    unfold startGamma
    split
    · set g : Fin K → ℝ := fun k => if labels i = k then 1 else 0 with hg
      have hscaled : ∀ k, initGamma (K := K) labels i k * params.initSmoothing = finite (g k * c) := by
        intro k
        rw [hinit, hc, finite_mul]
      obtain ⟨m, hm⟩ : ∃ m, maxLoop (fun k => initGamma (K := K) labels i k * params.initSmoothing) = finite m :=
        ⟨_, maxLoop_finite hscaled⟩
      have hexp : ∀ k, (initGamma (K := K) labels i k * params.initSmoothing -
          maxLoop (fun k => initGamma (K := K) labels i k * params.initSmoothing)).exp =
          finite (Real.exp (g k * c - m)) := by
        intro k
        rw [hm, hscaled, finite_sub, finite_exp]
      have hsum : (0 : ℝ) < ∑ k, Real.exp (g k * c - m) + 1e-8 := by
        have := Finset.sum_nonneg (fun k (_ : k ∈ Finset.univ) => (Real.exp_pos (g k * c - m)).le)
        linarith
      refine ⟨fun k => Real.exp (g k * c - m) * (1 / (∑ k, Real.exp (g k * c - m) + 1e-8)),
        fun k => mul_nonneg (Real.exp_pos _).le (one_div_pos.2 hsum).le, ?_⟩
      funext k
      unfold smoothRow
      dsimp only
      rw [hexp, sumLoop_finite hexp, finite_add, finite_div _ hsum.ne', finite_mul]
    · exact ⟨fun k => if labels i = k then 1 else 0, fun k => ite_nonneg zero_le_one le_rfl, funext hinit⟩
  choose r hr hgamma using hrow
  refine ⟨⟨r, fun _ => 1 / K⟩, ⟨hr, fun k => one_div_nonneg.2 hpos.le⟩, ?_, fun k => rfl⟩
  unfold startState
  rw [finite_div _ hpos.ne', show startGamma params labels = fun i k => finite (r i k) from funext hgamma]
  rfl

/-- The state the loop is left in is that of the loop over the reals. -/
theorem vbFinal_exact (h : WellPosed P params) (hs : NonNegative s) :
    vbFinal (ofReal P) params (ofRealState s) =
      ofRealState (VariationalLoop.vbLoop P 1e-8 params.maxIters.toNat 0 s (-1e20)).final := by
  have hloop : ∀ (left iter : ℕ) (s : VariationalLoop.VbState N K) (prevElbo : ℝ), NonNegative s →
      (iterations (ofReal P) params left iter (ofRealState s) (finite prevElbo)).getLastD (ofRealState s) =
        ofRealState (VariationalLoop.vbLoop P 1e-8 left iter s prevElbo).final := by
    intro left
    induction left with
    | zero => exact fun _ _ _ _ => rfl
    | succ left ih =>
      intro iter s prevElbo hs
      rw [iterations, VariationalLoop.vbLoop]
      dsimp only
      rw [elbo_exact h hs, next_exact h hs, finite_sub, finite_lt]
      simp only [decide_eq_true_eq]
      by_cases hstop : iter > 0 ∧ P.elbo 1e-8 s - prevElbo < 1e-4
      · rw [if_pos hstop, if_pos hstop]
        rfl
      · rw [if_neg hstop, if_neg hstop, List.getLastD_cons]
        exact ih (iter + 1) (P.next 1e-8 s) (P.elbo 1e-8 s) (next_nonNegative s)
  exact hloop _ _ _ _ hs

end PyannoteCpp.ClusterVbx

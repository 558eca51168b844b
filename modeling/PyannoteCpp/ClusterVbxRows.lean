import PyannoteCpp.ClusterVbxExact

set_option autoImplicit false

/-!
# Rows and priors after an iteration

The running maximum starts at the finite value `-1e20`. When it moves, one
weight of the row is one, so the guarded division leaves a sum next to one; the
priors are averages of the rows, and one of them is large enough to be kept.
-/
namespace PyannoteCpp.ClusterVbx
open ExactFloat SimpleAhc

variable {N D K dim : ℕ}

def Normalised (row : Fin K → Value) : Prop :=
  ∃ r : Fin K → ℝ, (∀ k, row k = finite (r k)) ∧ (∀ k, 0 ≤ r k) ∧ 1 - 1e-7 ≤ ∑ k, r k ∧ ∑ k, r k ≤ 1

/-- What is to hold after an iteration. -/
structure Proper (s : VbState N K) : Prop where
  rows : ∀ i, Normalised (s.gamma i)
  prior : Normalised s.pi
  kept : probable s.pi ≠ []

/-- The log-probabilities of a row are numbers or `-inf`, and one of them moves the running maximum. -/
structure PassesSentinel (logProbs : Fin K → Value) : Prop where
  numbers : ∀ k, logProbs k = .inf true ∨ ∃ x, logProbs k = finite x
  above : ∃ k, (finite (-1e20)).lt (logProbs k) = true

theorem guarded_quotient {x : ℝ} (h : 0.1 ≤ x) : 1 - 1e-7 ≤ x / (x + 1e-8) ∧ x / (x + 1e-8) ≤ 1 := by
  have hpos : (0 : ℝ) < x + 1e-8 := by linarith
  rw [le_div_iff₀ hpos, div_le_one hpos]
  constructor <;> linarith

theorem normalised_quotient {g : Fin K → ℝ} (hg : ∀ k, 0 ≤ g k) (hsum : 0.1 ≤ ∑ k, g k) :
    Normalised (fun k => finite (g k) / (finite (∑ k, g k) + eps)) := by
  have hpos : (0 : ℝ) < ∑ k, g k + 1e-8 := by linarith
  refine ⟨fun k => g k / (∑ k, g k + 1e-8), fun k => ?_, fun k => div_nonneg (hg k) hpos.le, ?_⟩
  · dsimp only
    rw [eps, finite_add, finite_div _ hpos.ne']
  · rw [← Finset.sum_div]
    exact guarded_quotient hsum

section Step

variable {P : Problem N D} {params : VbxParams} {s : VbState N K}

theorem weights_of_passes {i : Fin N} (h : PassesSentinel (logProbs P params s i)) : ∃ g : Fin K → ℝ,
    (∀ k, 0 ≤ g k) ∧ (∀ k, weight P params s i k = finite (g k)) ∧
      sumProb P params s i = finite (∑ k, g k) ∧ 1 ≤ ∑ k, g k := by
  obtain ⟨hwhere, hall⟩ := maxLoop_spec (logProbs P params s i)
  -- the maximum is one of the row, since one value lies above where it starts
  have hmax : ∃ j x, logProbs P params s i j = finite x ∧ maxLp P params s i = finite x := by
    rcases hwhere with hstart | ⟨j, hj, hup⟩
    · obtain ⟨k, hk⟩ := h.above
      have hover := hall k
      rw [hstart, hk] at hover
      cases hover
    · rcases h.numbers j with hneg | ⟨x, hx⟩
      · rw [hneg] at hup
        cases hup
      · exact ⟨j, x, hx, hj.trans hx⟩
  obtain ⟨j, x, hj, hx⟩ := hmax
  rcases sumLoop_weightlike (fun k => exp_sub_max (logProbs P params s i) k) with hnan | ⟨g, hg, hf, hsum⟩
  · exfalso
    have hnumber : ∀ k, ∃ y, weight P params s i k = finite y := by
      intro k
      rw [weight, hx]
      rcases h.numbers k with hneg | ⟨y, hy⟩
      · rw [hneg]
        exact ⟨0, rfl⟩
      · rw [hy, finite_sub, finite_exp]
        exact ⟨_, rfl⟩
    choose y hy using hnumber
    have hsum := sumLoop_finite hy
    rw [show sumLoop (weight P params s i) = .nan from hnan] at hsum
    cases hsum
  · refine ⟨g, hg, hf, hsum, ?_⟩
    have hone : weight P params s i j = finite 1 := by
      rw [weight, hx, hj, finite_sub, sub_self, finite_exp, Real.exp_zero]
    have hgj : g j = 1 := ExactFloat.finite.inj ((hf j).symm.trans hone)
    calc (1 : ℝ) = g j := hgj.symm
      _ ≤ ∑ k, g k := Finset.single_le_sum (fun k _ => hg k) (Finset.mem_univ j)

theorem nextGamma_normalised {i : Fin N} (h : PassesSentinel (logProbs P params s i)) :
    Normalised (nextGamma P params s i) := by
  obtain ⟨g, hg, hf, hsum, hone⟩ := weights_of_passes h
  have hrow : nextGamma P params s i = fun k => finite (g k) / (finite (∑ k, g k) + eps) := by
    funext k
    rw [nextGamma, hf, hsum]
  rw [hrow]
  exact normalised_quotient hg (by linarith)

theorem nextPi_normalised (hN : 0 < N) (h : ∀ i, Normalised (nextGamma P params s i)) :
    Normalised (nextPi P params s) := by
  choose r hr hnonneg hlow _ using h
  have hcolumn : ∀ k, sumLoop (fun i => nextGamma P params s i k) = finite (∑ i, r i k) :=
    fun k => sumLoop_finite (fun i => hr i k)
  have hprior : nextPi P params s =
      fun k => finite (∑ i, r i k) / (finite (∑ k, ∑ i, r i k) + eps) := by
    funext k
    unfold nextPi
    dsimp only
    rw [hcolumn, sumLoop_finite hcolumn]
  rw [hprior]
  refine normalised_quotient (fun k => Finset.sum_nonneg (fun i _ => hnonneg i k)) ?_
  rw [Finset.sum_comm]
  calc (0.1 : ℝ) ≤ 1 - 1e-7 := by norm_num
    _ ≤ ∑ k, r ⟨0, hN⟩ k := hlow _
    _ ≤ ∑ i, ∑ k, r i k :=
      Finset.single_le_sum (f := fun i => ∑ k, r i k)
        (fun i _ => Finset.sum_nonneg (fun k _ => hnonneg i k)) (Finset.mem_univ _)

theorem probable_ne_nil {pi : Fin K → Value} (hK : K ≤ 100000) (h : Normalised pi) : probable pi ≠ [] := by
  obtain ⟨r, hr, hnonneg, hlow, -⟩ := h
  intro hnil
  have hsmall : ∀ k ∈ Finset.univ, r k ≤ 1e-7 := by
    intro k _
    by_contra hlarge
    have hmem : k ∈ probable pi := by
      refine List.mem_filter.2 ⟨List.mem_finRange k, ?_⟩
      rw [hr k, finite_lt, decide_eq_true_eq]
      exact not_le.1 hlarge
    rw [hnil] at hmem
    cases hmem
  have hsum := Finset.sum_le_card_nsmul Finset.univ r 1e-7 hsmall
  rw [Finset.card_univ, Fintype.card_fin, nsmul_eq_mul] at hsum
  have hcast : (K : ℝ) ≤ 100000 := by exact_mod_cast hK
  linarith

/-- One iteration from a state whose rows all move the running maximum. -/
theorem next_proper (hN : 0 < N) (hK : K ≤ 100000) (h : ∀ i, PassesSentinel (logProbs P params s i)) :
    Proper (next P params s) := by
  have hprior := nextPi_normalised hN (fun i => nextGamma_normalised (h i))
  exact ⟨fun i => nextGamma_normalised (h i), hprior, probable_ne_nil hK hprior⟩

end Step

section Runs

variable (P : Problem N D) (params : VbxParams)

noncomputable def vbSteps (start : VbState N K) : List (VbState N K × VbState N K) :=
  (start :: vbStates P params start).zip (vbStates P params start)

variable {P params}

theorem iterations_steps {left iter : ℕ} {start t u : VbState N K} {prevElbo : Value}
    (h : (t, u) ∈ (start :: iterations P params left iter start prevElbo).zip
      (iterations P params left iter start prevElbo)) : u = next P params t := by
  induction left generalizing iter start prevElbo with
  | zero => cases h
  | succ left ih =>
    rw [iterations] at h
    split at h
    · cases List.mem_singleton.1 h
      rfl
    · rw [List.zip_cons_cons] at h
      rcases List.mem_cons.1 h with h | h
      · cases h
        rfl
      · exact ih h

theorem exists_step {start u : VbState N K} (h : u ∈ vbStates P params start) :
    ∃ t, (t, u) ∈ vbSteps P params start := by
  obtain ⟨m, hm, rfl⟩ := List.getElem_of_mem h
  have hlength : m < ((start :: vbStates P params start).zip (vbStates P params start)).length := by
    rw [List.length_zip, List.length_cons]
    omega
  have hget := List.getElem_zip (h := hlength)
  exact ⟨_, hget ▸ List.getElem_mem hlength⟩

theorem uniform_probable (hK : K ≤ 100000) (hpos : 0 < K) (labels : Fin N → ℤ) :
    probable (startState (K := K) params labels).pi ≠ [] := by
  have hcast : (K : ℝ) ≤ 100000 := by exact_mod_cast hK
  have hposR : (0 : ℝ) < K := by exact_mod_cast hpos
  have hmem : (⟨0, hpos⟩ : Fin K) ∈ probable (startState (K := K) params labels).pi := by
    refine List.mem_filter.2 ⟨List.mem_finRange _, ?_⟩
    change (finite 1e-7).lt (finite 1 / finite (K : ℝ)) = true
    rw [finite_div _ hposR.ne', finite_lt, decide_eq_true_eq, lt_div_iff₀ hposR]
    linarith
  exact List.ne_nil_of_mem hmem

theorem run_proper (hN : 0 < N) (hK : K ≤ 100000) (hpos : 0 < K) (labels : Fin N → ℤ)
    (hpass : ∀ step ∈ vbSteps P params (startState (K := K) params labels),
      ∀ i, PassesSentinel (logProbs P params step.1 i)) :
    (∀ u ∈ vbStates P params (startState (K := K) params labels), Proper u) ∧
      probable (vbFinal P params (startState (K := K) params labels)).pi ≠ [] := by
  have hproper : ∀ u ∈ vbStates P params (startState (K := K) params labels), Proper u := by
    intro u hu
    obtain ⟨t, ht⟩ := exists_step hu
    have hnext : u = next P params t := iterations_steps ht
    rw [hnext]
    exact next_proper hN hK (hpass (t, u) ht)
  refine ⟨hproper, ?_⟩
  rcases vbFinal_cases P params (startState (K := K) params labels) with hstart | hmem
  · rw [hstart]
    exact uniform_probable hK hpos labels
  · exact (hproper _ hmem).kept

theorem pos_of_kInit {labels : Fin N → ℤ} (h : 1 < kInit labels) : 0 < N := by
  rcases Nat.eq_zero_or_pos N with rfl | hN
  · change (1 : ℤ) < 0 at h
    omega
  · exact hN

/-- In a run whose iterations all start from states in which each row moves the running maximum, every state
    after an iteration has rows and priors with sums next to one, and some speaker is kept. -/
theorem vbStates_proper (P : Problem N D) (params : VbxParams) (rawEmbeddings : Fin N → Fin dim → Value)
    (hmany : 1 < kInit (simpleAhcFloat rawEmbeddings params.threshold))
    (hK : kInit (simpleAhcFloat rawEmbeddings params.threshold) ≤ 100000)
    (hpass : ∀ step ∈ vbSteps P params (clusterStart params (simpleAhcFloat rawEmbeddings params.threshold)),
      ∀ i, PassesSentinel (logProbs P params step.1 i)) :
    (∀ u ∈ vbStates P params (clusterStart params (simpleAhcFloat rawEmbeddings params.threshold)), Proper u) ∧
    probable (vbFinal P params (clusterStart params (simpleAhcFloat rawEmbeddings params.threshold))).pi ≠ [] :=
  run_proper (pos_of_kInit hmany) (Int.toNat_le.2 hK) (Int.lt_toNat.2 (lt_trans zero_lt_one hmany)) _ hpass

end Runs

section Fixed

def opposite : Fin 2 → Fin 1 → Value := fun i _ => finite (if i = 0 then 1 else -1)

theorem normalizedFloat_single (x : ℝ) :
    normalizedFloat (fun _ : Fin 1 => finite x) = fun _ => finite (x / √(x * x + 1e-12)) := by
  have hpos : (0 : ℝ) < x * x + 1e-12 := by nlinarith [mul_self_nonneg x]
  have hsum : sumLoop (fun _ : Fin 1 => (finite x : Value) * finite x) = finite (x * x) :=
    (sumLoop_finite (fun _ => finite_mul x x)).trans (by rw [Fin.sum_univ_one])
  funext k
  unfold normalizedFloat
  dsimp only
  rw [hsum, finite_add, finite_sqrt hpos.le, finite_div _ (Real.sqrt_pos.2 hpos).ne']

theorem initialDistanceFloat_single {a b : ℝ} (h : a * b ≤ 0) :
    initialDistanceFloat (fun _ : Fin 1 => finite a) (fun _ => finite b) = finite √(2 * (1 - a * b)) := by
  have hdot : sumLoop (fun _ : Fin 1 => (finite a : Value) * finite b) = finite (a * b) :=
    (sumLoop_finite (fun _ => finite_mul a b)).trans (by rw [Fin.sum_univ_one])
  have hclamp : ¬((1 : ℝ) < a * b) := by linarith
  have hsq : ¬(2 * (1 - a * b) < 0) := by linarith
  have htwo : (2.0 : ℝ) = 2 := by norm_num
  unfold initialDistanceFloat
  dsimp only
  rw [hdot, htwo]
  simp only [finite_lt, decide_eq_true_eq, if_neg hclamp, finite_sub, finite_mul, if_neg hsq]
  exact finite_sqrt (not_lt.1 hsq)

theorem kInit_opposite : kInit (simpleAhcFloat opposite (finite 0.6)) = 2 := by
  set normed := fun i => normalizedFloat (opposite i) with hnormed
  set D : Fin 2 → Fin 2 → Value :=
    fun i j => if i = j then finite 1e20 else initialDistanceFloat (normed i) (normed j) with hD
  have hfar : (finite 0.6 : Value).lt (D 0 1) = true := by
    have hroot : (0 : ℝ) < √(1 * 1 + 1e-12) := Real.sqrt_pos.2 (by norm_num)
    have hroot' : (0 : ℝ) < √(-1 * -1 + 1e-12) := Real.sqrt_pos.2 (by norm_num)
    have hneg : (1 : ℝ) / √(1 * 1 + 1e-12) * (-1 / √(-1 * -1 + 1e-12)) ≤ 0 :=
      mul_nonpos_of_nonneg_of_nonpos (by positivity) (div_nonpos_of_nonpos_of_nonneg (by norm_num) hroot'.le)
    have hdist : D 0 1 = finite √(2 * (1 - 1 / √(1 * 1 + 1e-12) * (-1 / √(-1 * -1 + 1e-12)))) := by
      change initialDistanceFloat (normalizedFloat (fun _ => finite 1)) (normalizedFloat (fun _ => finite (-1))) = _
      rw [normalizedFloat_single, normalizedFloat_single, initialDistanceFloat_single hneg]
    rw [hdist, finite_lt, decide_eq_true_eq, Real.lt_sqrt (by norm_num)]
    linarith
  have hstop : floatMergeStep euclideanFloat (finite 0.6) (.initial normed D) = none := by
    unfold floatMergeStep
    split_ifs with hn
    · rfl
    · split
      · rfl
      · next p hp =>
          obtain ⟨hlt, -, -⟩ := nearestPair_mem hp
          obtain ⟨a, b⟩ := p
          obtain rfl : a = 0 := by
            dsimp only at hlt
            omega
          obtain rfl : b = 1 := by
            dsimp only at hlt
            omega
          exact if_pos hfar
  have hlabels : simpleAhcFloat opposite (finite 0.6) = buildLabels (ParentForest.discrete 2) := by
    unfold simpleAhcFloat
    rw [if_neg (by omega), if_neg (by omega)]
    dsimp only
    exact congrArg (fun r => buildLabels r.2.parent)
      ((floatMergeLoop euclideanFloat (finite 0.6)).run_none (s := .initial normed D) hstop)
  have htop : ∀ x, (fun _ : Fin 2 => true) x = true ↔ (ParentForest.discrete 2).parent x = x :=
    fun _ => iff_of_true rfl rfl
  rw [hlabels, kInit_eq (buildLabels_wellNumbered (ParentForest.discrete 2) htop)]
  rfl

noncomputable def flatProblem (x : ℝ) : VariationalLoop.Problem 2 1 where
  Fa := 0.07
  Fb := 0.8
  pldaPsi := fun _ => 0
  embeddings := fun _ _ => x

noncomputable def flatParams (maxIters : ℤ) : VbxParams :=
  { Fa := finite 0.07, Fb := finite 0.8, maxIters := maxIters }

theorem flat_wellPosed (x : ℝ) (maxIters : ℤ) : WellPosed (flatProblem x) (flatParams maxIters) := by
  refine ⟨rfl, rfl, ?_, ?_, fun _ => le_rfl⟩
  · change (0.8 : ℝ) ≠ 0
    norm_num
  · change (0 : ℝ) ≤ 0.07 / 0.8
    norm_num

theorem flat_logProbs (x : ℝ) (s : VariationalLoop.VbState 2 K) (i : Fin 2) (k : Fin K) :
    (flatProblem x).logProbs 1e-8 s i k =
      -0.035 * (x * x + Real.log (2 * Real.pi)) + Real.log (s.pi k + 1e-8) := by
  have hrho : ∀ i d, (flatProblem x).rho i d = 0 := by
    intro i d
    change x * √0 = 0
    rw [Real.sqrt_zero, mul_zero]
  have hpsi : ∀ d, (flatProblem x).pldaPsi d = 0 := fun _ => rfl
  have hFa : (flatProblem x).Fa = 0.07 := rfl
  have hemb : ∀ i d, (flatProblem x).embeddings i d = x := fun _ _ => rfl
  unfold VariationalLoop.Problem.logProbs VariationalLoop.Problem.logP VariationalLoop.Problem.score
    VariationalLoop.Problem.G
  have htwo : (2.0 : ℝ) = 2 := by norm_num
  simp only [hrho, hpsi, hFa, hemb, Fin.sum_univ_one, Nat.cast_one, htwo, zero_mul, mul_zero, sub_zero, zero_add,
    one_mul]
  rw [← mul_assoc]
  norm_num

/-- The witness of the run theorem: one iteration on embeddings at the origin. -/
theorem vbStates_proper_flat :
    (∀ u ∈ vbStates (ofReal (flatProblem 0)) (flatParams 1)
      (clusterStart (flatParams 1) (simpleAhcFloat opposite (flatParams 1).threshold)), Proper u) ∧
    probable (vbFinal (ofReal (flatProblem 0)) (flatParams 1)
      (clusterStart (flatParams 1) (simpleAhcFloat opposite (flatParams 1).threshold))).pi ≠ [] := by
  have hcount : kInit (simpleAhcFloat opposite (flatParams 1).threshold) = 2 := kInit_opposite
  have hpos : 0 < (kInit (simpleAhcFloat opposite (flatParams 1).threshold)).toNat := by
    rw [hcount]
    decide
  refine vbStates_proper _ _ _ (by omega) (by omega) (fun step hstep i => ?_)
  have hsmoothing : (flatParams 1).initSmoothing = finite 7 := rfl
  obtain ⟨s, hs, hstart, hpi⟩ := startState_exact hsmoothing hpos (simpleAhcFloat opposite (flatParams 1).threshold)
  -- the single iteration starts from the start
  have hfirst : step.1 = ofRealState s := by
    have hmem : step ∈ [(startState (flatParams 1) (simpleAhcFloat opposite (flatParams 1).threshold),
        next (ofReal (flatProblem 0)) (flatParams 1)
          (startState (flatParams 1) (simpleAhcFloat opposite (flatParams 1).threshold)))] := hstep
    rw [List.mem_singleton.1 hmem]
    exact hstart
  have hlog : ∀ k, logProbs (ofReal (flatProblem 0)) (flatParams 1) step.1 i k =
      finite (-0.035 * (0 * 0 + Real.log (2 * Real.pi)) + Real.log (s.pi k + 1e-8)) := by
    intro k
    rw [hfirst, logProbs_exact (flat_wellPosed 0 1) hs, flat_logProbs]
  refine ⟨fun k => .inr ⟨_, hlog k⟩, ⟨0, hpos⟩, ?_⟩
  rw [hlog, finite_lt, decide_eq_true_eq, hpi, hcount]
  have hpi3 : Real.log (2 * Real.pi) ≤ 2 * Real.pi := (Real.log_le_self (by positivity))
  have hpi4 := Real.pi_le_four
  have hhalf : Real.log 1e-8 ≤ Real.log (1 / ((2 : ℤ).toNat : ℝ) + 1e-8) :=
    Real.log_le_log (by norm_num) (by norm_num)
  have hsmall : 1 - (1e-8 : ℝ)⁻¹ ≤ Real.log 1e-8 := Real.one_sub_inv_le_log_of_pos (by norm_num)
  norm_num at hhalf hsmall ⊢
  linarith

theorem exp_neg_le {x : ℝ} (h : 1e20 ≤ x) : Real.exp (-x) ≤ 1e-39 := by
  have hgrow := Real.quadratic_le_exp_of_nonneg (show (0 : ℝ) ≤ x by linarith)
  have hlarge : (1e39 : ℝ) ≤ Real.exp x := by nlinarith
  rw [Real.exp_neg, inv_le_comm₀ (Real.exp_pos x) (by norm_num)]
  norm_num at hlarge ⊢
  linarith

theorem le_maxLp (P : VariationalLoop.Problem N D) (s : VariationalLoop.VbState N K) (i : Fin N) :
    -1e20 ≤ P.maxLp 1e-8 s i := by
  have hfold : ∀ (l : List (Fin K)) (m : ℝ),
      m ≤ l.foldl (fun m k => if P.logProbs 1e-8 s i k > m then P.logProbs 1e-8 s i k else m) m := by
    intro l
    induction l with
    | nil => exact fun m => le_rfl
    | cons a l ih =>
      intro m
      rw [List.foldl_cons]
      refine le_trans ?_ (ih _)
      split_ifs with h
      · exact h.le
      · exact le_rfl
  exact hfold _ _

theorem le_sum_of_normalised {r : Fin K → ℝ} (h : Normalised (fun k => finite (r k))) : 1 - 1e-7 ≤ ∑ k, r k := by
  obtain ⟨r', hr, -, hlow, -⟩ := h
  have hsame : r = r' := funext (fun k => ExactFloat.finite.inj (hr k))
  rw [hsame]
  exact hlow

/-- The responsibilities and priors after an iteration in which no log-probability comes near the sentinel. -/
theorem next_tiny {P : VariationalLoop.Problem 2 D} {s : VariationalLoop.VbState 2 2}
    (hlow : ∀ i k, P.logProbs 1e-8 s i k ≤ -2e20) :
    (∀ i k, (P.next 1e-8 s).gamma i k ≤ 1e-31) ∧ ∀ k, (P.next 1e-8 s).pi k ≤ 1e-22 := by
  have hgamma : ∀ i k, P.nextGamma 1e-8 s i k ≤ 1e-31 := by
    intro i k
    have hdiff : P.logProbs 1e-8 s i k - P.maxLp 1e-8 s i ≤ -1e20 := by linarith [hlow i k, le_maxLp P s i]
    have hweight : P.weight 1e-8 s i k ≤ 1e-39 := (Real.exp_le_exp.2 hdiff).trans (exp_neg_le le_rfl)
    have hsum := sumProb_nonneg (P := P) (s := s) i
    rw [VariationalLoop.Problem.nextGamma, div_le_iff₀ (by linarith)]
    nlinarith
  have hcolumn : ∀ k, ∑ i, P.nextGamma 1e-8 s i k ≤ 2e-31 := by
    intro k
    rw [Fin.sum_univ_two]
    linarith [hgamma 0 k, hgamma 1 k]
  refine ⟨hgamma, fun k => ?_⟩
  have hnonneg : ∀ k, 0 ≤ ∑ i, P.nextGamma 1e-8 s i k := fun k =>
    Finset.sum_nonneg (fun i _ => (next_nonNegative (P := P) s).gamma i k)
  have htotal : 0 ≤ ∑ k, ∑ i, P.nextGamma 1e-8 s i k := Finset.sum_nonneg (fun k _ => hnonneg k)
  change (∑ i, P.nextGamma 1e-8 s i k) / (∑ k, ∑ i, P.nextGamma 1e-8 s i k + 1e-8) ≤ 1e-22
  rw [div_le_iff₀ (by linarith)]
  nlinarith [hcolumn k]

/-- Far from the origin every log-probability stays below the sentinel: the rows and the priors vanish. -/
theorem sentinel_empties : kInit (simpleAhcFloat opposite (flatParams 20).threshold) = 2 ∧
    ∃ u ∈ vbStates (ofReal (flatProblem 1e12)) (flatParams 20)
      (startState (K := 2) (flatParams 20) (simpleAhcFloat opposite (flatParams 20).threshold)),
      (∀ i, ¬Normalised (u.gamma i)) ∧ ¬Normalised u.pi ∧ probable u.pi = [] := by
  refine ⟨kInit_opposite, ?_⟩
  have hsmoothing : (flatParams 20).initSmoothing = finite 7 := rfl
  obtain ⟨s, hs, hstart, hpi⟩ := startState_exact hsmoothing (K := 2) zero_lt_two
    (simpleAhcFloat opposite (flatParams 20).threshold)
  refine ⟨next (ofReal (flatProblem 1e12)) (flatParams 20) (startState (flatParams 20)
    (simpleAhcFloat opposite (flatParams 20).threshold)), List.mem_cons_self, ?_⟩
  have hlow : ∀ i k, (flatProblem 1e12).logProbs 1e-8 s i k ≤ -2e20 := by
    intro i k
    have hpi0 : 0 ≤ Real.log (2 * Real.pi) := Real.log_nonneg (by linarith [Real.pi_gt_three])
    have hprior : Real.log (s.pi k + 1e-8) ≤ 0 := by
      rw [hpi]
      exact Real.log_nonpos (by norm_num) (by norm_num)
    rw [flat_logProbs]
    nlinarith
  obtain ⟨hgamma, hprior⟩ := next_tiny hlow
  rw [hstart, next_exact (flat_wellPosed _ _) hs]
  refine ⟨fun i h => ?_, fun h => ?_, List.filter_eq_nil_iff.2 (fun k _ => ?_)⟩
  · have hsum := le_sum_of_normalised h
    rw [Fin.sum_univ_two] at hsum
    linarith [hgamma i 0, hgamma i 1]
  · have hsum := le_sum_of_normalised h
    rw [Fin.sum_univ_two] at hsum
    linarith [hprior 0, hprior 1]
  · change ¬(finite 1e-7).lt (finite ((flatProblem 1e12).next 1e-8 s |>.pi k)) = true
    rw [finite_lt, decide_eq_true_eq, not_lt]
    linarith [hprior k]

end Fixed

end PyannoteCpp.ClusterVbx

import PyannoteCpp.VbxTransform

set_option autoImplicit false

/-!
# When the batched transform agrees with the single one

Both normalise twice, but the guard is added to the sum of squares in one and,
a million times larger, to their mean in the other. The factors of one vector
always differ, so the two paths agree on every embedding only where the whole
transform is constant.
-/
namespace PyannoteCpp.VbxTransform
open Matrix
noncomputable section

variable {dEmb dLda : ℕ} (model : VbxModel dEmb dLda)

/-- What is left of the difference of the two paths once the shared steps are removed. -/
def VbxModel.Balanced (e : Fin dEmb → ℝ) : Prop :=
  let y := e - model.mean1
  (model.second l2Factor y * l2Factor dEmb (y ⬝ᵥ y) -
      model.second rmsFactor y * rmsFactor dEmb (y ⬝ᵥ y)) • (model.plda *ᵥ (model.ldaT *ᵥ y)) =
    (model.second l2Factor y - model.second rmsFactor y) • (model.plda *ᵥ model.mean2)

/-- The PLDA step sends everything it can be given to one point. -/
def VbxModel.Constant : Prop := model.plda *ᵥ model.mean2 = 0 ∧ model.plda * model.ldaT = 0

theorem scaled_eq (first second : ℝ) (y : Fin dEmb → ℝ) : model.scaled first second y =
    (second * first) • (model.plda *ᵥ (model.ldaT *ᵥ y)) - second • (model.plda *ᵥ model.mean2) -
      model.plda *ᵥ model.pldaMu := by
  rw [VbxModel.scaled, mulVec_sub, mulVec_smul, mulVec_sub, mulVec_smul, smul_sub, smul_smul]

theorem transform_agrees_iff (e : Fin dEmb → ℝ) :
    model.scaled (rmsFactor dEmb ((e - model.mean1) ⬝ᵥ (e - model.mean1)))
        (model.second rmsFactor (e - model.mean1)) (e - model.mean1) =
      vbxTransformEmbedding model e ↔ model.Balanced e := by
  rw [eq_comm, transform_eq, scaled_eq, scaled_eq, sub_left_inj, sub_eq_sub_iff_sub_eq_sub,
    ← sub_smul, ← sub_smul]
  rfl

theorem batch_agrees_iff (embeddings : List (Fin dEmb → ℝ)) :
    vbxTransformEmbeddingsBatch model embeddings = embeddings.map (vbxTransformEmbedding model) ↔
      ∀ e ∈ embeddings, model.Balanced e := by
  rw [batch_eq, List.map_inj_left]
  exact forall₂_congr (fun e _ => transform_agrees_iff model e)

section Factors

variable {n : ℕ} {S : ℝ}

theorem l2Factor_sq (hS : 0 ≤ S) : l2Factor n S ^ 2 * (S + 1e-12) = n := by
  have hpos : 0 < S + 1e-12 := add_pos_of_nonneg_of_pos hS (by norm_num)
  rw [l2Factor, div_pow, Real.sq_sqrt (Nat.cast_nonneg n), Real.sq_sqrt hpos.le,
    div_mul_cancel₀ _ hpos.ne']

theorem rmsFactor_sq (hn : 0 < n) (hS : 0 ≤ S) : rmsFactor n S ^ 2 * (S + n * 1e-6) = n := by
  have hn' : (0 : ℝ) < n := Nat.cast_pos.2 hn
  have hpos : 0 < S / n + 1e-6 := add_pos_of_nonneg_of_pos (div_nonneg hS hn'.le) (by norm_num)
  rw [rmsFactor, div_pow, Real.sq_sqrt hpos.le, one_pow]
  have split : S + n * 1e-6 = n * (S / n + 1e-6) := by
    rw [mul_add, mul_div_cancel₀ _ hn'.ne']
  rw [split, one_div, mul_comm, mul_assoc, mul_inv_cancel₀ hpos.ne', mul_one]

/-- The guard on the mean always weighs more. -/
theorem rmsFactor_sq_lt (hn : 0 < n) (hS : 0 ≤ S) :
    0 < rmsFactor n S ^ 2 ∧ rmsFactor n S ^ 2 < l2Factor n S ^ 2 := by
  have hn' : (1 : ℝ) ≤ n := by exact_mod_cast hn
  have hl := l2Factor_sq (n := n) hS
  have hr := rmsFactor_sq hn hS
  have hsmall : 0 < S + 1e-12 := add_pos_of_nonneg_of_pos hS (by norm_num)
  have hlarge : S + 1e-12 < S + n * 1e-6 := by
    norm_num1
    linarith
  have hpos : 0 < rmsFactor n S ^ 2 := by
    by_contra h
    have hzero := le_antisymm (not_lt.1 h) (sq_nonneg _)
    rw [hzero, zero_mul] at hr
    linarith
  refine ⟨hpos, lt_of_mul_lt_mul_right ?_ hsmall.le⟩
  calc
    _ < rmsFactor n S ^ 2 * (S + n * 1e-6) := mul_lt_mul_of_pos_left hlarge hpos
    _ = _ := by rw [hr, hl]

theorem rmsFactor_ne (hn : 0 < n) (hS : 0 ≤ S) : l2Factor n S - rmsFactor n S ≠ 0 := by
  intro h
  have hlt := (rmsFactor_sq_lt hn hS).2
  rw [sub_eq_zero.1 h] at hlt
  exact lt_irrefl _ hlt

end Factors

theorem dot_nonneg {n : ℕ} (v : Fin n → ℝ) : 0 ≤ v ⬝ᵥ v :=
  Finset.sum_nonneg (fun i _ => mul_self_nonneg (v i))

theorem centred_dot (first : ℝ) (y : Fin dEmb → ℝ) :
    model.centred first y ⬝ᵥ model.centred first y =
      first ^ 2 * (model.ldaT *ᵥ y ⬝ᵥ model.ldaT *ᵥ y) -
        2 * first * (model.ldaT *ᵥ y ⬝ᵥ model.mean2) + model.mean2 ⬝ᵥ model.mean2 := by
  unfold VbxModel.centred
  rw [dotProduct_sub, sub_dotProduct, sub_dotProduct, dotProduct_smul, smul_dotProduct, smul_dotProduct,
    dotProduct_smul, dotProduct_comm model.mean2]
  simp only [smul_eq_mul]
  ring

theorem cross_multiply {s t a b A B n : ℝ} (hn : n ≠ 0) (hs : s * A = n) (ht : t * B = n)
    (h : s * a = t * b) : a * B = b * A := by
  refine mul_left_cancel₀ hn ?_
  linear_combination (A * B) * h - (a * B) * hs + (b * A) * ht

theorem factors_cross {y : Fin dEmb → ℝ} (hL : 0 < dLda)
    (h : model.second l2Factor y * l2Factor dEmb (y ⬝ᵥ y) =
      model.second rmsFactor y * rmsFactor dEmb (y ⬝ᵥ y)) :
    l2Factor dEmb (y ⬝ᵥ y) ^ 2 * (model.centred (rmsFactor dEmb (y ⬝ᵥ y)) y ⬝ᵥ
        model.centred (rmsFactor dEmb (y ⬝ᵥ y)) y + dLda * 1e-6) =
      rmsFactor dEmb (y ⬝ᵥ y) ^ 2 * (model.centred (l2Factor dEmb (y ⬝ᵥ y)) y ⬝ᵥ
        model.centred (l2Factor dEmb (y ⬝ᵥ y)) y + 1e-12) := by
  have hl := l2Factor_sq (n := dLda) (dot_nonneg (model.centred (l2Factor dEmb (y ⬝ᵥ y)) y))
  have hr := rmsFactor_sq hL (dot_nonneg (model.centred (rmsFactor dEmb (y ⬝ᵥ y)) y))
  have hsq := congrArg (· ^ 2) h
  simp only [mul_pow, VbxModel.second] at hsq
  exact cross_multiply (Nat.cast_ne_zero.2 hL.ne') hl hr hsq

/-- A vector and its opposite cannot both be scaled alike by the two paths. -/
theorem factors_differ {y : Fin dEmb → ℝ} (hD : 0 < dEmb) (hL : 0 < dLda)
    (h : model.second l2Factor y * l2Factor dEmb (y ⬝ᵥ y) =
      model.second rmsFactor y * rmsFactor dEmb (y ⬝ᵥ y))
    (hneg : model.second l2Factor (-y) * l2Factor dEmb (-y ⬝ᵥ -y) =
      model.second rmsFactor (-y) * rmsFactor dEmb (-y ⬝ᵥ -y)) : False := by
  have hplus := factors_cross model hL h
  have hminus := factors_cross model hL hneg
  rw [centred_dot, centred_dot] at hplus hminus
  rw [neg_dotProduct_neg, mulVec_neg, neg_dotProduct_neg, neg_dotProduct] at hminus
  obtain ⟨hpos, hlt⟩ := rmsFactor_sq_lt hD (dot_nonneg y)
  have hM := dot_nonneg model.mean2
  have hL' : (1 : ℝ) ≤ dLda := by exact_mod_cast hL
  have sum : l2Factor dEmb (y ⬝ᵥ y) ^ 2 * (model.mean2 ⬝ᵥ model.mean2 + dLda * 1e-6) =
      rmsFactor dEmb (y ⬝ᵥ y) ^ 2 * (model.mean2 ⬝ᵥ model.mean2 + 1e-12) := by linarith
  have hguard : model.mean2 ⬝ᵥ model.mean2 + 1e-12 < model.mean2 ⬝ᵥ model.mean2 + dLda * 1e-6 := by
    norm_num1
    linarith
  have hsmall : 0 < model.mean2 ⬝ᵥ model.mean2 + 1e-12 := add_pos_of_nonneg_of_pos hM (by norm_num)
  have strict := mul_lt_mul hlt hguard.le hsmall (hpos.trans hlt).le
  rw [sum] at strict
  exact lt_irrefl _ strict

theorem mean2_of_balanced (hL : 0 < dLda) (h : model.Balanced model.mean1) :
    model.plda *ᵥ model.mean2 = 0 := by
  unfold VbxModel.Balanced VbxModel.second VbxModel.centred at h
  simp only [sub_self, mulVec_zero, smul_zero, zero_sub, neg_dotProduct_neg] at h
  exact (smul_eq_zero.1 h.symm).resolve_left (rmsFactor_ne hL (dot_nonneg _))

theorem image_of_balanced (hL : 0 < dLda) (hq : model.plda *ᵥ model.mean2 = 0)
    (h : ∀ e, model.Balanced e) (y : Fin dEmb → ℝ) : model.plda *ᵥ (model.ldaT *ᵥ y) = 0 := by
  rcases Nat.eq_zero_or_pos dEmb with rfl | hD
  · rw [Subsingleton.elim y 0, mulVec_zero, mulVec_zero]
  · by_contra hp
    have plus := h (model.mean1 + y)
    have minus := h (model.mean1 + -y)
    unfold VbxModel.Balanced at plus minus
    simp only [add_sub_cancel_left, hq, smul_zero] at plus minus
    have hp' : model.plda *ᵥ (model.ldaT *ᵥ -y) ≠ 0 := by
      rw [mulVec_neg, mulVec_neg]
      exact neg_ne_zero.2 hp
    exact factors_differ model hD hL (sub_eq_zero.1 ((smul_eq_zero.1 plus).resolve_right hp))
      (sub_eq_zero.1 ((smul_eq_zero.1 minus).resolve_right hp'))

theorem balanced_of_constant (h : model.Constant) (e : Fin dEmb → ℝ) : model.Balanced e := by
  unfold VbxModel.Balanced
  dsimp only
  rw [mulVec_mulVec, h.2, zero_mulVec, h.1, smul_zero, smul_zero]

theorem constant_of_balanced (h : ∀ e, model.Balanced e) : model.Constant := by
  rcases Nat.eq_zero_or_pos dLda with rfl | hL
  · exact ⟨Subsingleton.elim _ _, Subsingleton.elim _ _⟩
  · have hq := mean2_of_balanced model hL (h model.mean1)
    refine ⟨hq, ext_of_mulVec_single (fun i => ?_)⟩
    rw [← mulVec_mulVec, image_of_balanced model hL hq h, zero_mulVec]

/-- On one list the paths agree exactly when every embedding of it is balanced, and on all
lists exactly when the transform is constant. -/
theorem batch_eq_map_iff : (∀ embeddings, vbxTransformEmbeddingsBatch model embeddings =
      embeddings.map (vbxTransformEmbedding model) ↔ ∀ e ∈ embeddings, model.Balanced e) ∧
    ((∀ embeddings, vbxTransformEmbeddingsBatch model embeddings =
      embeddings.map (vbxTransformEmbedding model)) ↔
        model.plda *ᵥ model.mean2 = 0 ∧ model.plda * model.ldaT = 0) := by
  refine ⟨batch_agrees_iff model, fun h => ?_, fun h embeddings => ?_⟩
  · exact constant_of_balanced model (fun e =>
      (batch_agrees_iff model [e]).1 (h [e]) e List.mem_cons_self)
  · exact (batch_agrees_iff model embeddings).2 (fun e _ => balanced_of_constant model h e)

/-- One dimension, identity matrices and only the second mean different from zero. -/
def offsetModel : VbxModel 1 1 := ⟨fun _ => 0, fun _ => 1, fun _ => 1, fun _ => 0, fun _ => 1⟩

theorem batch_ne_map : vbxTransformEmbeddingsBatch offsetModel [fun _ => 0] ≠
    [fun _ => 0].map (vbxTransformEmbedding offsetModel) := by
  intro h
  have hq := mean2_of_balanced offsetModel Nat.one_pos
    ((batch_agrees_iff offsetModel _).1 h _ List.mem_cons_self)
  have entry := congrFun hq 0
  simp [mulVec, dotProduct, VbxModel.plda, offsetModel] at entry

end
end PyannoteCpp.VbxTransform

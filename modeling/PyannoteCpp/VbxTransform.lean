import Mathlib.Analysis.Real.Sqrt
import Mathlib.Data.Matrix.Mul
import PyannoteCpp.FlatTensor

set_option autoImplicit false

/-!
# The two ways to bring embeddings into the PLDA space

Exact real arithmetic. Matrices are the flat row-major arrays of the model
file; the batched path copies one of them into a tensor by hand.
-/
namespace PyannoteCpp.VbxTransform
open FlatTensor Matrix
noncomputable section

structure VbxModel (dEmb dLda : ℕ) where
  mean1 : Fin dEmb → ℝ
  mean2 : Fin dLda → ℝ
  lda : ℕ → ℝ
  pldaMu : Fin dLda → ℝ
  pldaTr : ℕ → ℝ

variable {dEmb dLda : ℕ}

def matVecMul (M : ℕ → ℝ) (rows cols : ℕ) (v : Fin cols → ℝ) : Fin rows → ℝ :=
  fun i => ∑ j : Fin cols, M (i * cols + j) * v j

def matVecMulTrans (M : ℕ → ℝ) (rows cols : ℕ) (v : Fin rows → ℝ) : Fin cols → ℝ :=
  fun j => ∑ i : Fin rows, M (i * cols + j) * v i

def normalize {n : ℕ} (v : Fin n → ℝ) : Fin n → ℝ :=
  let norm := √(∑ i, v i * v i + 1e-12)
  fun i => v i / norm

def vbxTransformEmbedding (model : VbxModel dEmb dLda) (embIn : Fin dEmb → ℝ) : Fin dLda → ℝ :=
  let x : Fin dEmb → ℝ := fun i => embIn i - model.mean1 i
  let x := normalize x
  let scale1 := √(dEmb : ℝ)
  let x : Fin dEmb → ℝ := fun i => x i * scale1
  let xLda := matVecMulTrans model.lda dEmb dLda x
  let xLda : Fin dLda → ℝ := fun j => xLda j - model.mean2 j
  let xLda := normalize xLda
  let scale2 := √(dLda : ℝ)
  let xLda : Fin dLda → ℝ := fun j => xLda j * scale2
  let xLda : Fin dLda → ℝ := fun j => xLda j - model.pldaMu j
  matVecMul model.pldaTr dLda dLda xLda

def column {n : ℕ} (v : Fin n → ℝ) : Tensor ℝ n 1 := fun i _ => v i

def sub {n m : ℕ} (a : Tensor ℝ n m) (b : Tensor ℝ n 1) : Tensor ℝ n m :=
  fun i j => a i j - b i ⟨0, Nat.one_pos⟩

/-- `ggml_rms_norm`: every column times the inverse root of its mean square. -/
def rmsNorm {n m : ℕ} (x : Tensor ℝ n m) (eps : ℝ) : Tensor ℝ n m :=
  fun i j => x i j * (1 / √((∑ l, x l j * x l j) / n + eps))

/-- `lda_t_data[j*D_emb + i] = lda[i*D_lda + j]`. -/
def ldaTData (model : VbxModel dEmb dLda) : ℕ → ℝ :=
  fun n => model.lda (n % dEmb * dLda + n / dEmb)

def batchGraph (model : VbxModel dEmb dLda) {N : ℕ} (x : Tensor ℝ dEmb N) : Tensor ℝ dLda N :=
  let cur := sub x (column model.mean1)
  let cur := rmsNorm cur 1e-6
  let cur := mulMat (ofData dEmb dLda (ldaTData model)) cur
  let cur := sub cur (column model.mean2)
  let cur := rmsNorm cur 1e-6
  let cur := sub cur (column model.pldaMu)
  mulMat (ofData dLda dLda model.pldaTr) cur

def vbxTransformEmbeddingsBatch (model : VbxModel dEmb dLda) (embeddings : List (Fin dEmb → ℝ)) :
    List (Fin dLda → ℝ) :=
  if embeddings.isEmpty then []
  else
    let x : Tensor ℝ dEmb embeddings.length := fun i n => embeddings.get n i
    let resFlat := toData (batchGraph model x)
    List.ofFn (fun n : Fin embeddings.length => fun d : Fin dLda => resFlat (d + n * dLda))

def VbxModel.ldaT (model : VbxModel dEmb dLda) : Matrix (Fin dLda) (Fin dEmb) ℝ :=
  fun j i => model.lda (i * dLda + j)

def VbxModel.plda (model : VbxModel dEmb dLda) : Matrix (Fin dLda) (Fin dLda) ℝ :=
  fun j i => model.pldaTr (j * dLda + i)

/-- The steps both paths share, for given factors of the two normalisations. -/
def VbxModel.scaled (model : VbxModel dEmb dLda) (first second : ℝ) (y : Fin dEmb → ℝ) :
    Fin dLda → ℝ :=
  model.plda *ᵥ (second • (first • (model.ldaT *ᵥ y) - model.mean2) - model.pldaMu)

/-- The factor of `normalize` followed by the root of the dimension. -/
def l2Factor (n : ℕ) (S : ℝ) : ℝ := √(n : ℝ) / √(S + 1e-12)

/-- The factor of `ggml_rms_norm` with the epsilon of the graph. -/
def rmsFactor (n : ℕ) (S : ℝ) : ℝ := 1 / √(S / n + 1e-6)

variable (model : VbxModel dEmb dLda)

def VbxModel.centred (first : ℝ) (y : Fin dEmb → ℝ) : Fin dLda → ℝ :=
  first • (model.ldaT *ᵥ y) - model.mean2

/-- The factor of the second normalisation, when both are made by `factor`. -/
def VbxModel.second (factor : ℕ → ℝ → ℝ) (y : Fin dEmb → ℝ) : ℝ :=
  factor dLda (model.centred (factor dEmb (y ⬝ᵥ y)) y ⬝ᵥ model.centred (factor dEmb (y ⬝ᵥ y)) y)

theorem normalize_scale {n : ℕ} (v : Fin n → ℝ) :
    (fun k => normalize v k * √(n : ℝ)) = l2Factor n (v ⬝ᵥ v) • v := by
  funext k
  change v k / √(∑ i, v i * v i + 1e-12) * √(n : ℝ) = √(n : ℝ) / √(v ⬝ᵥ v + 1e-12) * v k
  unfold dotProduct
  ring

theorem matVecMulTrans_lda (v : Fin dEmb → ℝ) :
    matVecMulTrans model.lda dEmb dLda v = model.ldaT *ᵥ v := rfl

theorem matVecMul_pldaTr (v : Fin dLda → ℝ) :
    matVecMul model.pldaTr dLda dLda v = model.plda *ᵥ v := rfl

theorem transform_eq (e : Fin dEmb → ℝ) : vbxTransformEmbedding model e =
    model.scaled (l2Factor dEmb ((e - model.mean1) ⬝ᵥ (e - model.mean1)))
      (model.second l2Factor (e - model.mean1)) (e - model.mean1) := by
  have first : matVecMulTrans model.lda dEmb dLda
      (fun i => normalize (e - model.mean1) i * √(dEmb : ℝ)) =
      l2Factor dEmb ((e - model.mean1) ⬝ᵥ (e - model.mean1)) • (model.ldaT *ᵥ (e - model.mean1)) := by
    rw [normalize_scale, matVecMulTrans_lda, mulVec_smul]
  change matVecMul model.pldaTr dLda dLda ((fun j => normalize
    (matVecMulTrans model.lda dEmb dLda (fun i => normalize (e - model.mean1) i * √(dEmb : ℝ)) -
      model.mean2) j * √(dLda : ℝ)) - model.pldaMu) = _
  rw [first, normalize_scale, matVecMul_pldaTr]
  rfl

abbrev col {n m : ℕ} (x : Tensor ℝ n m) (j : Fin m) : Fin n → ℝ := fun i => x i j

theorem rmsNorm_col {n m : ℕ} (x : Tensor ℝ n m) (j : Fin m) :
    col (rmsNorm x 1e-6) j = rmsFactor n (col x j ⬝ᵥ col x j) • col x j := by
  funext i
  exact mul_comm _ _

theorem ldaTData_at (i : Fin dEmb) (j : Fin dLda) :
    ofData dEmb dLda (ldaTData model) i j = model.ldaT j i := by
  have hpos : 0 < dEmb := Nat.zero_lt_of_lt i.isLt
  unfold ofData ldaTData VbxModel.ldaT
  rw [Nat.add_mul_mod_self_right, Nat.mod_eq_of_lt i.isLt, Nat.add_mul_div_right _ _ hpos,
    Nat.div_eq_of_lt i.isLt, Nat.zero_add]

theorem mulMat_lda {N : ℕ} (x : Tensor ℝ dEmb N) (n : Fin N) :
    col (mulMat (ofData dEmb dLda (ldaTData model)) x) n = model.ldaT *ᵥ col x n := by
  funext j
  refine Finset.sum_congr rfl (fun i _ => ?_)
  rw [ldaTData_at]

theorem mulMat_plda {N : ℕ} (x : Tensor ℝ dLda N) (n : Fin N) :
    col (mulMat (ofData dLda dLda model.pldaTr) x) n = model.plda *ᵥ col x n := by
  funext j
  refine Finset.sum_congr rfl (fun i _ => congrArg (· * x i n) ?_)
  exact congrArg model.pldaTr (Nat.add_comm _ _)

theorem batchGraph_col {N : ℕ} (x : Tensor ℝ dEmb N) (n : Fin N) : col (batchGraph model x) n =
    model.scaled (rmsFactor dEmb ((col x n - model.mean1) ⬝ᵥ (col x n - model.mean1)))
      (model.second rmsFactor (col x n - model.mean1)) (col x n - model.mean1) := by
  have first : col (mulMat (ofData dEmb dLda (ldaTData model))
      (rmsNorm (sub x (column model.mean1)) 1e-6)) n =
      rmsFactor dEmb ((col x n - model.mean1) ⬝ᵥ (col x n - model.mean1)) •
        (model.ldaT *ᵥ (col x n - model.mean1)) := by
    rw [mulMat_lda, rmsNorm_col, mulVec_smul]
    rfl
  have centred : col (sub (mulMat (ofData dEmb dLda (ldaTData model))
      (rmsNorm (sub x (column model.mean1)) 1e-6)) (column model.mean2)) n =
      model.centred (rmsFactor dEmb ((col x n - model.mean1) ⬝ᵥ (col x n - model.mean1)))
        (col x n - model.mean1) := congrArg (· - model.mean2) first
  unfold batchGraph
  dsimp only
  rw [mulMat_plda]
  change model.plda *ᵥ (col (rmsNorm _ 1e-6) n - model.pldaMu) = _
  rw [rmsNorm_col, centred]
  rfl

theorem batch_eq (embeddings : List (Fin dEmb → ℝ)) : vbxTransformEmbeddingsBatch model embeddings =
    embeddings.map (fun e => model.scaled (rmsFactor dEmb ((e - model.mean1) ⬝ᵥ (e - model.mean1)))
      (model.second rmsFactor (e - model.mean1)) (e - model.mean1)) := by
  unfold vbxTransformEmbeddingsBatch
  split_ifs with hempty
  · rw [List.isEmpty_iff.1 hempty, List.map_nil]
  · conv_rhs => rw [← List.ofFn_get embeddings, List.map_ofFn]
    refine congrArg List.ofFn (funext (fun n => ?_))
    refine Eq.trans ?_ (batchGraph_col model (fun i n => embeddings.get n i) n)
    funext d
    exact toData_apply _ d n

end
end PyannoteCpp.VbxTransform

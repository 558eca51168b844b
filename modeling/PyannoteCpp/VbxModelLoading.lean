import PyannoteCpp.ByteStream
import PyannoteCpp.GgmlTensor
import PyannoteCpp.MachineInt

set_option autoImplicit false

/-!
# Loading the model of the transformed space

Six tensors are copied from a context into vectors of floats. The numbers of
elements are not compared with the two dimensions, and the copies take four
bytes for an element of any type. A float is its bit pattern here.
-/
namespace PyannoteCpp.VbxModelLoading
open MachineInt

/-- A tensor without gaps; the data pointer leads to the bytes of its elements. -/
structure NamedTensor where
  name : String
  type : GgmlType
  ne : Dims
  data : List UInt8
  whole : data.length = exactBytes type ne

def NamedTensor.nelements (t : NamedTensor) : ℕ := t.ne.n0 * t.ne.n1 * t.ne.n2 * t.ne.n3

def ggmlGetTensor (ctx : List NamedTensor) (name : String) : Option NamedTensor :=
  ctx.find? (fun t => t.name = name)

structure VbxModel where
  dEmb : ℤ
  dLda : ℤ
  mean1 : List ℕ
  mean2 : List ℕ
  lda : List ℕ
  pldaMu : List ℕ
  pldaTr : List ℕ
  pldaPsi : List ℕ

/-- Why there is no model: `return false`, or the exception of `resize`. -/
inductive Failure where
  | notFound
  | lengthError
  deriving DecidableEq

/-- `memory` is what follows the bytes of a tensor. -/
abbrev Memory := NamedTensor → ℕ → UInt8

def byteAt (memory : Memory) (t : NamedTensor) (k : ℕ) : UInt8 := t.data.getD k (memory t k)

def floatAt (memory : Memory) (t : NamedTensor) (i : ℕ) : ℕ :=
  leValue ((List.range 4).map (fun b => byteAt memory t (4 * i + b)))

def intSize (t : NamedTensor) : ℤ := toInt t.nelements

/-- The vector and whether another size than the expected one was reported, which changes nothing else. -/
structure Copied where
  out : List ℕ
  mismatch : Bool

def copyTensorData (memory : Memory) (ctx : List NamedTensor) (name : String) (expectedSize : ℤ) :
    Except Failure Copied :=
  match ggmlGetTensor ctx name with
  | none => .error .notFound
  | some t =>
    let size := intSize t
    if size < 0 then .error .lengthError
    else .ok ⟨(List.range size.toNat).map (floatAt memory t), expectedSize ≠ -1 ∧ size ≠ expectedSize⟩

def initVbxModelFromGguf (memory : Memory) (ctx : List NamedTensor) : Except Failure VbxModel :=
  match ggmlGetTensor ctx "vbx.mean1", ggmlGetTensor ctx "vbx.lda" with
  | some tMean1, some tLda => do
    let dEmb := toInt tMean1.ne.n0
    let dLda := toInt tLda.ne.n0
    let mean1 ← copyTensorData memory ctx "vbx.mean1" (-1)
    let mean2 ← copyTensorData memory ctx "vbx.mean2" (-1)
    let lda ← copyTensorData memory ctx "vbx.lda" (-1)
    let pldaMu ← copyTensorData memory ctx "vbx.plda_mu" (-1)
    let pldaTr ← copyTensorData memory ctx "vbx.plda_tr" (-1)
    let pldaPsi ← copyTensorData memory ctx "vbx.plda_psi" (-1)
    pure ⟨dEmb, dLda, mean1.out, mean2.out, lda.out, pldaMu.out, pldaTr.out, pldaPsi.out⟩
  | _, _ => .error .notFound

section Accesses

structure Access where
  index : ℤ
  size : ℤ
  deriving DecidableEq

def Access.InBounds (a : Access) : Prop := 0 ≤ a.index ∧ a.index < a.size

/-- What a loop from zero to `n` accesses. -/
def loop (n : ℤ) (body : ℤ → List Access) : List Access := (List.range n.toNat).flatMap (fun i : ℕ => body (i : ℤ))

def length (v : List ℕ) : ℤ := v.length

/-- `mat_vec_mul` on a matrix and a vector of these sizes. -/
def matVecMul (M v rows cols : ℤ) : List Access :=
  loop rows (fun i => ⟨i, rows⟩ :: loop cols (fun j => [⟨i * cols + j, M⟩, ⟨j, v⟩]))

def matVecMulTrans (M v rows cols : ℤ) : List Access :=
  loop rows (fun i => ⟨i, v⟩ :: loop cols (fun j => [⟨j, cols⟩, ⟨i * cols + j, M⟩]))

/-- `vbx_transform_embedding` on an embedding of a size. -/
def transformAccesses (model : VbxModel) (embIn : ℤ) : List Access :=
  let D := model.dEmb
  let L := model.dLda
  loop D (fun i => [⟨i, D⟩, ⟨i, embIn⟩, ⟨i, length model.mean1⟩]) ++
  loop D (fun i => [⟨i, D⟩]) ++
  matVecMulTrans (length model.lda) D D L ++
  loop L (fun i => [⟨i, L⟩, ⟨i, length model.mean2⟩]) ++
  loop L (fun i => [⟨i, L⟩]) ++
  loop L (fun i => [⟨i, L⟩, ⟨i, length model.pldaMu⟩]) ++
  matVecMul (length model.pldaTr) L L L

/-- `vbx_transform_embeddings_batch`: the vectors that tensors are set from, the transposed copy and the results. The
products with the number of embeddings are `int`s. -/
def batchAccesses (model : VbxModel) (embeddings : List ℤ) : List Access :=
  let N := (embeddings.length : ℤ)
  let D := model.dEmb
  let L := model.dLda
  embeddings.flatMap (fun size => loop D (fun i => [⟨i, size⟩])) ++
  loop N (fun n => loop D (fun i => [⟨toInt (n * D) + i, N * D⟩])) ++
  loop D (fun i => [⟨i, length model.mean1⟩]) ++
  loop L (fun j => loop D (fun i => [⟨j * D + i, D * L⟩, ⟨i * L + j, length model.lda⟩])) ++
  loop L (fun i => [⟨i, length model.mean2⟩]) ++
  loop (L * L) (fun i => [⟨i, length model.pldaTr⟩]) ++
  loop L (fun i => [⟨i, length model.pldaMu⟩]) ++
  loop N (fun n => loop L (fun d => [⟨n, N⟩, ⟨d, L⟩, ⟨toInt (n * L + d), toInt (N * L)⟩]))

/-- The embeddings of a batch have few enough floats to be counted, before the transformation and after it. -/
def BatchFits (model : VbxModel) (embeddings : List ℤ) : Prop :=
  InRange (embeddings.length * model.dEmb) ∧ InRange (embeddings.length * model.dLda)

/-- `cluster_vbx` from the responsibilities on, for initial labels; the tables are `N`, `K` and `D` long. -/
def clusterAccesses (model : VbxModel) (embeddings : List ℤ) (initLabels : List ℤ) : List Access :=
  let N := (embeddings.length : ℤ)
  let D := model.dLda
  let K := initLabels.foldl (fun K l => max K (l + 1)) 0
  initLabels.zipIdx.flatMap (fun l => [⟨l.2, N⟩, ⟨l.1, K⟩]) ++
  loop D (fun i => [⟨i, D⟩, ⟨i, length model.pldaPsi⟩]) ++
  embeddings.zipIdx.flatMap (fun e => loop D (fun j => [⟨e.2, N⟩, ⟨j, D⟩, ⟨j, e.1⟩])) ++
  loop K (fun k => loop D (fun d => [⟨k, K⟩, ⟨d, D⟩, ⟨d, length model.pldaPsi⟩])) ++
  loop N (fun i => loop K (fun k => [⟨i, N⟩, ⟨k, K⟩]))

end Accesses

/-- The tensors that are loaded. -/
inductive VbxTensor where
  | mean1 | mean2 | lda | pldaMu | pldaTr | pldaPsi
  deriving DecidableEq

namespace VbxTensor

def name : VbxTensor → String
  | mean1 => "vbx.mean1" | mean2 => "vbx.mean2" | lda => "vbx.lda"
  | pldaMu => "vbx.plda_mu" | pldaTr => "vbx.plda_tr" | pldaPsi => "vbx.plda_psi"

def entries (dEmb dLda : ℤ) : VbxTensor → ℤ
  | mean1 => dEmb | lda => dEmb * dLda | pldaTr => dLda * dLda
  | mean2 | pldaMu | pldaPsi => dLda

def vector (model : VbxModel) : VbxTensor → List ℕ
  | mean1 => model.mean1 | mean2 => model.mean2 | lda => model.lda
  | pldaMu => model.pldaMu | pldaTr => model.pldaTr | pldaPsi => model.pldaPsi

end VbxTensor

/-- A vector with the values of a tensor: as many floats as the tensor has elements, and its own. -/
structure HoldsValues (t : NamedTensor) (v : List ℕ) : Prop where
  floats : t.type = .f32
  values : ∀ memory, v = (List.range t.nelements).map (floatAt memory t)

/-- The bytes that a copy reads are bytes of the tensor. -/
def ReadsWithin (t : NamedTensor) : Prop := 4 * intSize t ≤ t.data.length

/-- What the loaded model is to satisfy. -/
structure Sound (ctx : List NamedTensor) (model : VbxModel) : Prop where
  sizes : ∀ v : VbxTensor, length (v.vector model) = v.entries model.dEmb model.dLda
  values : ∀ v : VbxTensor, ∀ t, ggmlGetTensor ctx v.name = some t → HoldsValues t (v.vector model) ∧ ReadsWithin t
  transform : ∀ a ∈ transformAccesses model model.dEmb, a.InBounds
  batch : ∀ embeddings, (∀ size ∈ embeddings, size = model.dEmb) → BatchFits model embeddings →
    ∀ a ∈ batchAccesses model embeddings, a.InBounds
  cluster : ∀ embeddings initLabels, (∀ size ∈ embeddings, size = model.dLda) →
    initLabels.length = embeddings.length → (∀ l ∈ initLabels, 0 ≤ l) →
    ∀ a ∈ clusterAccesses model embeddings initLabels, a.InBounds

/-- All six tensors are there, and none has a number of elements that becomes a negative `int`. -/
def Loads (ctx : List NamedTensor) : Prop :=
  ∀ v : VbxTensor, ∃ t, ggmlGetTensor ctx v.name = some t ∧ 0 ≤ intSize t

/-- The layout that the transformations rely on. -/
def Layout (ctx : List NamedTensor) : Prop :=
  ∀ tMean1 tLda, ggmlGetTensor ctx "vbx.mean1" = some tMean1 → ggmlGetTensor ctx "vbx.lda" = some tLda →
    ∀ (v : VbxTensor) t, ggmlGetTensor ctx v.name = some t →
      t.type = .f32 ∧ t.nelements < 2 ^ 31 ∧
        (t.nelements : ℤ) = v.entries (toInt tMean1.ne.n0) (toInt tLda.ne.n0)

end PyannoteCpp.VbxModelLoading

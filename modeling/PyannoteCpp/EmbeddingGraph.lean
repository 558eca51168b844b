import Mathlib.Analysis.Real.Sqrt
import PyannoteCpp.ExactFloat
import PyannoteCpp.TensorGraph

set_option autoImplicit false

/-!
# The graph of the speaker embedding network

Both programs build this graph; they differ in the leaves they write before it
is computed. Weights and features are finite numbers, and computed values are
exact except for the special ones. What a fresh allocation holds is arbitrary.
-/
namespace PyannoteCpp.EmbeddingGraph
open TensorGraph ExactFloat
noncomputable section

def embeddingDim : ℕ := 256
def maxEmbeddingFrames : ℕ := 100

def sqrtf : ExactFloat ℝ → ExactFloat ℝ
  | .nan => .nan
  | .inf negative => if negative then .nan else .inf false
  | .finite x => if x < 0 then .nan else .finite √x

def opRelu (x : ExactFloat ℝ) : ExactFloat ℝ := if (0 : ExactFloat ℝ).lt x then x else 0
def opSqr (x : ExactFloat ℝ) : ExactFloat ℝ := x * x

instance : NatCast (ExactFloat ℝ) := ⟨fun n => .finite n⟩

/-- The tensors of the graph that no operation produces and no model file holds. -/
inductive Leaf where
  | input
  | eps
  deriving DecidableEq

abbrev Memory := Buffer Leaf (ExactFloat ℝ)
abbrev Tensor := Node Leaf (ExactFloat ℝ)

structure Weight where
  ne : Shape
  data : ℕ → ℝ

def Weight.tensor (w : Weight) : Tensor := constant w.ne (fun n => .finite (w.data n))

structure ResnetBlock where
  conv1W : Weight
  conv1B : Weight
  conv2W : Weight
  conv2B : Weight
  /-- `ds_w` and `ds_b`, both null or both loaded. -/
  ds : Option (Weight × Weight)

structure PyannoteEmbeddingModel where
  conv1W : Weight
  conv1B : Weight
  layer1 : List ResnetBlock
  layer2 : List ResnetBlock
  layer3 : List ResnetBlock
  layer4 : List ResnetBlock
  seg1W : Weight
  seg1B : Weight

def ggmlAdd (a b : Tensor) : Option Tensor := zip (fun x y => x + y) a b
def ggmlSub (a b : Tensor) : Option Tensor := zip (fun x y => x - y) a b

def convBias (w b : Weight) (n : ℕ) (x : Tensor) (s p : ℕ) : Option Tensor := do
  let x ← conv2d w.tensor x s s p p 1 1
  let b ← reshape b.tensor ⟨1, 1, n, 1⟩
  ggmlAdd x b

def shortcut (block : ResnetBlock) (s : ℕ) (x : Tensor) : Option Tensor :=
  match block.ds with
  | some (w, b) => convBias w b block.conv1W.ne.ne3 x s 0
  | none => some x

def makeBlock (block : ResnetBlock) (s : ℕ) (x : Tensor) : Option Tensor := do
  let oc := block.conv1W.ne.ne3
  let y ← convBias block.conv1W block.conv1B oc x s 1
  let y ← convBias block.conv2W block.conv2B oc (map opRelu y) 1 1
  let residual ← shortcut block s x
  let y ← ggmlAdd y residual
  some (map opRelu y)

/-- The blocks of a layer in order; only the first one has the layer's stride. -/
def makeLayer : List ResnetBlock → ℕ → Tensor → Option Tensor
  | [], _, x => some x
  | block :: layer, stride, x => do
    let x ← makeBlock block stride x
    makeLayer layer 1 x

def convolutions (model : PyannoteEmbeddingModel) (input : Tensor) : Option Tensor := do
  let x ← convBias model.conv1W model.conv1B model.conv1B.ne.ne0 input 1 1
  let x ← makeLayer model.layer1 1 (map opRelu x)
  let x ← makeLayer model.layer2 2 x
  let x ← makeLayer model.layer3 2 x
  makeLayer model.layer4 2 x

/-- `mean_sq_pool - mean_pow2`, before `eps` is added. -/
def variance (x : Tensor) (tOut : ℕ) : Option Tensor :=
  let meanSqPool := poolAvg (map opSqr x) 1 tOut 1 tOut
  let meanPow2 := map opSqr (poolAvg x 1 tOut 1 tOut)
  ggmlSub meanSqPool meanPow2

def embeddingGraph (model : PyannoteEmbeddingModel) (T nMels : ℕ) : Option Tensor := do
  let x ← convolutions model (leaf .input ⟨T, nMels, 1, 1⟩)
  let tOut := x.ne.ne0
  let fOut := x.ne.ne1
  let cOut := x.ne.ne2
  let x := cont (permute (fun s => ⟨s.ne1, s.ne2, s.ne0, s.ne3⟩) x)
  let flatDim := fOut * cOut
  let x ← reshape x ⟨flatDim, tOut, 1, 1⟩
  let meanPool := poolAvg x 1 tOut 1 tOut
  let var ← variance x tOut
  let var ← ggmlAdd var (leaf .eps ⟨1, 1, 1, 1⟩)
  let stdPool := map sqrtf var
  let stats ← concat0 meanPool stdPool
  let stats ← reshape stats ⟨2 * flatDim, 1, 1, 1⟩
  let emb ← mulMat model.seg1W.tensor stats
  ggmlAdd emb model.seg1B.tensor

/-- The features transposed, `in_data[t + f * T]`. -/
def inData (fbank : ℕ → ℝ) (T nMels : ℕ) : ℕ → ExactFloat ℝ :=
  fun n => .finite (fbank (n % T * nMels + n / T))

def sumSquares (v : List (ExactFloat ℝ)) : ExactFloat ℝ := v.foldl (fun norm x => norm + x * x) 0

namespace Offline

/-- The normalisation at the end, for a vector that is long enough. -/
def normalizeEmbedding (embedding : List (ExactFloat ℝ)) : List (ExactFloat ℝ) :=
  let norm := sqrtf (sumSquares embedding + .finite 1e-7)
  if (ExactFloat.finite (1e-8 : ℝ)).lt norm then embedding.map (fun x => x / norm) else embedding

/-- One graph of `main.cpp`; `fresh` is what its newly allocated buffer holds. -/
def embed (model : PyannoteEmbeddingModel) (fbank : ℕ → ℝ) (T nMels : ℕ) (normalize : Bool)
    (fresh : Memory) : Option (List (ExactFloat ℝ)) := do
  let emb ← embeddingGraph model T nMels
  let buf := tensorSet fresh .input (inData fbank T nMels) (T * nMels)
  let embedding ← tensorGet emb buf embeddingDim
  some (if normalize then normalizeEmbedding embedding else embedding)

/-- The sum over the chunks of at least fifty frames, and their number. -/
def addChunk (model : PyannoteEmbeddingModel) (fbank : ℕ → ℝ) (T nMels : ℕ) (fresh : ℕ → Memory)
    (acc : List (ExactFloat ℝ) × ℕ) (k : ℕ) : Option (List (ExactFloat ℝ) × ℕ) :=
  let start := k * maxEmbeddingFrames
  let chunkLen := min maxEmbeddingFrames (T - start)
  if chunkLen < 50 then some acc
  else do
    let chunkEmb ← embed model (fun n => fbank (start * nMels + n)) chunkLen nMels false (fresh k)
    some (List.zipWith (fun a c => a + c) acc.1 chunkEmb, acc.2 + 1)

/-- `fresh k` is what the buffer allocated for the `k`-th chunk holds. -/
def getEmbedding (model : PyannoteEmbeddingModel) (fbank : ℕ → ℝ) (T nMels : ℕ) (normalize : Bool)
    (fresh : ℕ → Memory) : Option (List (ExactFloat ℝ)) :=
  if maxEmbeddingFrames < T then do
    let chunks := List.range ((T + maxEmbeddingFrames - 1) / maxEmbeddingFrames)
    let (avg, numChunks) ← chunks.foldlM (addChunk model fbank T nMels fresh)
      (List.replicate embeddingDim 0, 0)
    let avg := if 0 < numChunks then avg.map (fun x => x / (numChunks : ExactFloat ℝ)) else avg
    if normalize then
      let norm := sqrtf (sumSquares avg + .finite 1e-7)
      some (avg.map (fun x => x / norm))
    else some avg
  else embed model fbank T nMels normalize (fresh 0)

end Offline

namespace Streaming

/-- `main_streaming.cpp` writes `eps` as well. -/
def getEmbedding (model : PyannoteEmbeddingModel) (fbank : ℕ → ℝ) (T nMels : ℕ) (fresh : Memory) :
    Option (List (ExactFloat ℝ)) := do
  let emb ← embeddingGraph model T nMels
  let buf := tensorSet fresh .input (inData fbank T nMels) (T * nMels)
  let buf := tensorSet buf .eps (fun _ => .finite 1e-7) 1
  let embedding ← tensorGet emb buf embeddingDim
  let norm := sqrtf (sumSquares embedding + .finite 1e-7)
  some (embedding.map (fun x => x / norm))

end Streaming

end
end PyannoteCpp.EmbeddingGraph

import PyannoteCpp.SimpleAhcFloat

set_option autoImplicit false

/-!
# The clustering of transformed embeddings, with special values

The whole of `cluster_vbx`: the initial clustering, the smoothed
responsibilities, the iterations with their early exit, and the assignment to
the speakers that are kept. Sums and maxima are the loops of the source, so a
NaN goes where it goes there.
-/
namespace PyannoteCpp.ClusterVbx
open ExactFloat SimpleAhc
noncomputable section

abbrev Value := ExactFloat ℝ

/-- `vbx_params` with its defaults. -/
structure VbxParams where
  Fa : Value := finite 0.3
  Fb : Value := finite 6
  threshold : Value := finite 0.6
  maxIters : ℤ := 20
  initSmoothing : Value := finite 7

structure Problem (N D : ℕ) where
  pldaPsi : Fin D → Value
  vbxEmbeddings : Fin N → Fin D → Value

structure VbState (N K : ℕ) where
  gamma : Fin N → Fin K → Value
  pi : Fin K → Value

variable {N D K dim : ℕ}

/-- `if (v > m) m = v`. -/
def raise (f : Fin K → Value) (m : Value) (k : Fin K) : Value := if m.lt (f k) then f k else m

/-- A running maximum that starts at `-1e20`. -/
def maxLoop (f : Fin K → Value) : Value := (List.finRange K).foldl (raise f) (finite (-1e20))

section Start

def coverLabel (labels : Fin N → ℤ) (K : ℤ) (i : Fin N) : ℤ := max K (labels i + 1)

def kInit (labels : Fin N → ℤ) : ℤ := (List.finRange N).foldl (coverLabel labels) 0

def initGamma (labels : Fin N → ℤ) : Fin N → Fin K → Value := fun i k => if labels i = k then finite 1 else finite 0

def smoothRow (initSmoothing : Value) (row : Fin K → Value) : Fin K → Value :=
  let maxV := maxLoop (fun k => row k * initSmoothing)
  let gamma := fun k => (row k * initSmoothing - maxV).exp
  let inv := finite 1 / (sumLoop gamma + finite 1e-8)
  fun k => gamma k * inv

def startGamma (params : VbxParams) (labels : Fin N → ℤ) : Fin N → Fin K → Value :=
  if (finite 0).le params.initSmoothing then fun i => smoothRow params.initSmoothing (initGamma labels i)
  else initGamma labels

def startState (params : VbxParams) (labels : Fin N → ℤ) : VbState N K :=
  ⟨startGamma params labels, fun _ => finite 1 / finite (K : ℝ)⟩

end Start

section Iteration

variable (P : Problem N D) (params : VbxParams) (s : VbState N K)

def Problem.G (i : Fin N) : Value :=
  finite (-0.5) * (sumLoop (fun d => P.vbxEmbeddings i d * P.vbxEmbeddings i d) +
    finite (D * Real.log (2.0 * Real.pi)))

def Problem.V (d : Fin D) : Value := (P.pldaPsi d).sqrt

def Problem.rho (i : Fin N) (d : Fin D) : Value := P.vbxEmbeddings i d * P.V d

def gammaSum (k : Fin K) : Value := sumLoop (fun i => s.gamma i k)

def invL (k : Fin K) (d : Fin D) : Value :=
  finite 1 / (finite 1 + params.Fa / params.Fb * gammaSum s k * P.pldaPsi d)

def alpha (k : Fin K) (d : Fin D) : Value :=
  params.Fa / params.Fb * invL P params s k d * sumLoop (fun i => s.gamma i k * P.rho i d)

def logP (i : Fin N) (k : Fin K) : Value :=
  let term2 := sumLoop (fun d =>
    (invL P params s k d + alpha P params s k d * alpha P params s k d) * P.pldaPsi d) * finite 0.5
  let term1 := sumLoop (fun d => P.rho i d * alpha P params s k d)
  params.Fa * (term1 - term2 + P.G i)

def eps : Value := finite 1e-8

def logProbs (i : Fin N) (k : Fin K) : Value := logP P params s i k + (s.pi k + eps).log

def maxLp (i : Fin N) : Value := maxLoop (logProbs P params s i)

/-- The responsibilities before they are divided by their sum. -/
def weight (i : Fin N) (k : Fin K) : Value := (logProbs P params s i k - maxLp P params s i).exp

def sumProb (i : Fin N) : Value := sumLoop (weight P params s i)

def nextGamma (i : Fin N) (k : Fin K) : Value := weight P params s i k / (sumProb P params s i + eps)

def logPX : Value := sumLoop (fun i => maxLp P params s i + (sumProb P params s i + eps).log)

def nextPi (k : Fin K) : Value :=
  let pi := fun k => sumLoop (fun i => nextGamma P params s i k)
  pi k / (sumLoop pi + eps)

/-- The two nested loops add to one sum. -/
def elboReg : Value :=
  (List.finRange K).foldl (fun acc k => (List.finRange D).foldl (fun acc d =>
    acc + ((invL P params s k d + eps).log - invL P params s k d -
      alpha P params s k d * alpha P params s k d + finite 1)) acc) (finite 0)

def elbo : Value := logPX P params s + params.Fb * finite 0.5 * elboReg P params s

def next : VbState N K := ⟨nextGamma P params s, nextPi P params s⟩

def iterations : ℕ → ℕ → VbState N K → Value → List (VbState N K)
  | 0, _, _, _ => []
  | left + 1, iter, s, prevElbo =>
    let elbo := elbo P params s
    if iter > 0 ∧ (elbo - prevElbo).lt (finite 1e-4) then [next P params s]
    else next P params s :: iterations left (iter + 1) (next P params s) elbo

def vbStates (start : VbState N K) : List (VbState N K) :=
  iterations P params params.maxIters.toNat 0 start (finite (-1e20))

def vbFinal (start : VbState N K) : VbState N K := (vbStates P params start).getLastD start

end Iteration

section Assignment

structure Keep (K : ℕ) where
  speakers : List (Fin K)
  nonempty : speakers ≠ []

/-- The loop that drops speakers with tiny priors. -/
def probable (pi : Fin K → Value) : List (Fin K) := (List.finRange K).filter (fun k => (finite 1e-7).lt (pi k))

def keepList (pi : Fin K → Value) : List (Fin K) :=
  if (probable pi).isEmpty then List.finRange K else probable pi

theorem keepList_ne_nil (pi : Fin K → Value) (h : 0 < K) : keepList pi ≠ [] := by
  unfold keepList
  split
  · exact fun hnil => h.ne' (List.finRange_eq_nil_iff.1 hnil)
  · next hempty => exact fun hnil => hempty (List.isEmpty_iff.2 hnil)

def keep (pi : Fin K → Value) (h : 0 < K) : Keep K := ⟨keepList pi, keepList_ne_nil pi h⟩

def better (gamma : Fin K → Value) (best k : Fin K) : Fin K := if (gamma best).lt (gamma k) then k else best

def Keep.best (kept : Keep K) (gamma : Fin K → Value) : Fin K :=
  kept.speakers.tail.foldl (better gamma) (kept.speakers.head kept.nonempty)

/-- The map from speakers to new labels, and the labels, which are replaced where they stand. -/
structure Remap (N : ℕ) where
  remap : ℤ → Option ℤ
  nextId : ℤ
  labels : Fin N → ℤ

def Remap.step (B : Remap N) (i : Fin N) : Remap N :=
  let lbl := B.labels i
  match B.remap lbl with
  | none =>
    ⟨Function.update B.remap lbl (some B.nextId), B.nextId + 1, Function.update B.labels i B.nextId⟩
  | some v => { B with labels := Function.update B.labels i v }

def consecutive (labels : Fin N → ℤ) : Fin N → ℤ :=
  ((List.finRange N).foldl Remap.step ⟨fun _ => none, 0, labels⟩).labels

def finalLabels (s : VbState N K) (h : 0 < K) : Fin N → ℤ :=
  consecutive (fun i => ((keep s.pi h).best (s.gamma i) : ℤ))

end Assignment

/-- The state the iterations start from, with as many speakers as initial clusters. -/
def clusterStart (params : VbxParams) (initLabels : Fin N → ℤ) : VbState N (kInit initLabels).toNat :=
  startState params initLabels

/-- `cluster_vbx`; without embeddings there is nothing to label. -/
def clusterVbx (P : Problem N D) (rawEmbeddings : Fin N → Fin dim → Value) (params : VbxParams) : Fin N → ℤ :=
  if N = 0 then fun _ => 0
  else
    let initLabels := simpleAhcFloat rawEmbeddings params.threshold
    if h : kInit initLabels ≤ 1 then initLabels
    else finalLabels (vbFinal P params (clusterStart params initLabels)) (by omega)

end
end PyannoteCpp.ClusterVbx

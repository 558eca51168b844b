import Mathlib.Algebra.BigOperators.Ring.Finset
import PyannoteCpp.FlatTensor

set_option autoImplicit false

/-!
# The two recurrent networks of the segmentation model

Arrays are flat, as in the source, and both programs dequantise the same
weights. Sigmoid and tangent are arguments. The offline program multiplies the
inputs of all timesteps by one product and reads the gates from the copied
result; the streaming program forms each gate from its own rows.
-/
namespace PyannoteCpp.SegmentationLstm
open FlatTensor

variable {K : Type*} [CommSemiring K]

structure LstmWeights (K : Type*) where
  wIh : ℕ → K
  wHh : ℕ → K
  bIh : ℕ → K
  bHh : ℕ → K

/-- What the loop over time carries, with the output array it fills. -/
@[ext]
structure LoopState (K : Type*) (hiddenDim : ℕ) where
  h : Fin hiddenDim → K
  c : Fin hiddenDim → K
  output : ℕ → K

def LoopState.zero (K : Type*) [Zero K] (hiddenDim : ℕ) : LoopState K hiddenDim :=
  ⟨fun _ => 0, fun _ => 0, fun _ => 0⟩

def writeRow {hiddenDim : ℕ} (output : ℕ → K) (t : ℕ) (h : Fin hiddenDim → K) : ℕ → K := fun n =>
  if hn : t * hiddenDim ≤ n ∧ n - t * hiddenDim < hiddenDim then h ⟨n - t * hiddenDim, hn.2⟩
  else output n

def memcpy (dst src : ℕ → K) (d s len : ℕ) : ℕ → K := fun n =>
  if d ≤ n ∧ n < d + len then src (s + (n - d)) else dst n

/-- The two copies made for every timestep; both programs have this loop. -/
def concatenate (outputFwd outputRev : ℕ → K) (hiddenDim seqLen : ℕ) : ℕ → K :=
  (List.range seqLen).foldl (fun nextInput t =>
    memcpy (memcpy nextInput outputFwd (t * 2 * hiddenDim) (t * hiddenDim) hiddenDim)
      outputRev (t * 2 * hiddenDim + hiddenDim) (t * hiddenDim) hiddenDim) (fun _ => 0)

section Batched

def gatesAll (w : LstmWeights K) (inputDim hiddenDim seqLen : ℕ) (hState : ℕ → K) : ℕ → K :=
  toData (mulMat (ofData inputDim (4 * hiddenDim) w.wIh) (ofData inputDim seqLen hState))

def batchedGates (w : LstmWeights K) (gatesAll : ℕ → K) {hiddenDim : ℕ} (t : ℕ)
    (h : Fin hiddenDim → K) : ℕ → K := fun g =>
  gatesAll (g + t * (4 * hiddenDim)) + w.bIh g + w.bHh g + ∑ j : Fin hiddenDim, w.wHh (g * hiddenDim + j) * h j

def batchedStep (sigmoid tanh : K → K) (w : LstmWeights K) (gatesAll : ℕ → K) {hiddenDim : ℕ}
    (s : LoopState K hiddenDim) (t : ℕ) : LoopState K hiddenDim :=
  let gates := batchedGates w gatesAll t s.h
  let c := fun i : Fin hiddenDim =>
    sigmoid (gates (hiddenDim + i)) * s.c i + sigmoid (gates i) * tanh (gates (2 * hiddenDim + i))
  let h := fun i : Fin hiddenDim => sigmoid (gates (3 * hiddenDim + i)) * tanh (c i)
  ⟨h, c, writeRow s.output t h⟩

def batchedRun (sigmoid tanh : K → K) (w : LstmWeights K) (inputDim hiddenDim seqLen : ℕ)
    (hState : ℕ → K) (times : List ℕ) : LoopState K hiddenDim :=
  times.foldl (batchedStep sigmoid tanh w (gatesAll w inputDim hiddenDim seqLen hState))
    (.zero K hiddenDim)

def batchedLayer (sigmoid tanh : K → K) (fwd rev : LstmWeights K) (inputDim hiddenDim seqLen : ℕ)
    (hState : ℕ → K) : ℕ → K :=
  concatenate (batchedRun sigmoid tanh fwd inputDim hiddenDim seqLen hState (List.range seqLen)).output
    (batchedRun sigmoid tanh rev inputDim hiddenDim seqLen hState (List.range seqLen).reverse).output
    hiddenDim seqLen

/-- `h_state` after the first `l` layers of `main.cpp`. -/
def batchedHState (sigmoid tanh : K → K) (fwd rev : ℕ → LstmWeights K) (seqLen : ℕ) (sincOut : ℕ → K)
    (l : ℕ) : ℕ → K :=
  (List.range l).foldl (fun hState l =>
    batchedLayer sigmoid tanh (fwd l) (rev l) (if l = 0 then 60 else 256) 128 seqLen hState) sincOut

end Batched

section Stepwise

def stepwiseGates (w : LstmWeights K) (inputDim : ℕ) {hiddenDim : ℕ} (hState : ℕ → K) (t : ℕ)
    (h : Fin hiddenDim → K) : ℕ → K := fun i =>
  (∑ j : Fin inputDim, w.wIh (i * inputDim + j) * hState (t * inputDim + j)) + w.bIh i +
    ∑ j : Fin hiddenDim, w.wHh (i * hiddenDim + j) * h j + w.bHh i

def stepwiseStep (sigmoid tanh : K → K) (w : LstmWeights K) (inputDim : ℕ) (hState : ℕ → K)
    {hiddenDim : ℕ} (s : LoopState K hiddenDim) (t : ℕ) : LoopState K hiddenDim :=
  let gates := stepwiseGates w inputDim hState t s.h
  let c := fun i : Fin hiddenDim =>
    sigmoid (gates (1 * hiddenDim + i)) * s.c i +
      sigmoid (gates (0 * hiddenDim + i)) * tanh (gates (2 * hiddenDim + i))
  let h := fun i : Fin hiddenDim => sigmoid (gates (3 * hiddenDim + i)) * tanh (c i)
  ⟨h, c, writeRow s.output t h⟩

def stepwiseRun (sigmoid tanh : K → K) (w : LstmWeights K) (inputDim hiddenDim : ℕ)
    (hState : ℕ → K) (times : List ℕ) : LoopState K hiddenDim :=
  times.foldl (stepwiseStep sigmoid tanh w inputDim hState) (.zero K hiddenDim)

def stepwiseLayer (sigmoid tanh : K → K) (fwd rev : LstmWeights K) (inputDim hiddenDim seqLen : ℕ)
    (hState : ℕ → K) : ℕ → K :=
  concatenate (stepwiseRun sigmoid tanh fwd inputDim hiddenDim hState (List.range seqLen)).output
    (stepwiseRun sigmoid tanh rev inputDim hiddenDim hState (List.range seqLen).reverse).output
    hiddenDim seqLen

/-- `h_state` after the first `l` layers of `run_segmentation`. -/
def stepwiseHState (sigmoid tanh : K → K) (fwd rev : ℕ → LstmWeights K) (seqLen : ℕ) (sincOut : ℕ → K)
    (l : ℕ) : ℕ → K :=
  (List.range l).foldl (fun hState l =>
    stepwiseLayer sigmoid tanh (fwd l) (rev l) (if l = 0 then 60 else 256) 128 seqLen hState) sincOut

end Stepwise

variable (sigmoid tanh : K → K) {inputDim hiddenDim seqLen : ℕ}

theorem gatesAll_apply (w : LstmWeights K) (hState : ℕ → K) {g t : ℕ} (hg : g < 4 * hiddenDim)
    (ht : t < seqLen) : gatesAll w inputDim hiddenDim seqLen hState (g + t * (4 * hiddenDim)) =
      ∑ j : Fin inputDim, w.wIh (g * inputDim + j) * hState (t * inputDim + j) := by
  have cell := toData_apply
    (mulMat (ofData inputDim (4 * hiddenDim) w.wIh) (ofData inputDim seqLen hState)) ⟨g, hg⟩ ⟨t, ht⟩
  refine cell.trans (Finset.sum_congr rfl (fun j _ => ?_))
  rw [ofData, ofData, Nat.add_comm (j : ℕ), Nat.add_comm (j : ℕ)]

theorem gates_eq (w : LstmWeights K) (hState : ℕ → K) (h : Fin hiddenDim → K) {g t : ℕ}
    (hg : g < 4 * hiddenDim) (ht : t < seqLen) :
    batchedGates w (gatesAll w inputDim hiddenDim seqLen hState) t h g =
      stepwiseGates w inputDim hState t h g := by
  rw [batchedGates, stepwiseGates, gatesAll_apply w hState hg ht, add_right_comm]

theorem step_eq (w : LstmWeights K) (hState : ℕ → K) (s : LoopState K hiddenDim) {t : ℕ}
    (ht : t < seqLen) :
    batchedStep sigmoid tanh w (gatesAll w inputDim hiddenDim seqLen hState) s t =
      stepwiseStep sigmoid tanh w inputDim hState s t := by
  have gates : ∀ g, g < 4 * hiddenDim →
      batchedGates w (gatesAll w inputDim hiddenDim seqLen hState) t s.h g =
        stepwiseGates w inputDim hState t s.h g := fun g hg => gates_eq w hState s.h hg ht
  have hc : (batchedStep sigmoid tanh w (gatesAll w inputDim hiddenDim seqLen hState) s t).c =
      (stepwiseStep sigmoid tanh w inputDim hState s t).c := by
    funext i
    have hi := i.isLt
    dsimp only [batchedStep, stepwiseStep]
    rw [gates _ (by omega), gates _ (by omega), gates _ (by omega), Nat.one_mul, Nat.zero_mul,
      Nat.zero_add]
  have hh : (batchedStep sigmoid tanh w (gatesAll w inputDim hiddenDim seqLen hState) s t).h =
      (stepwiseStep sigmoid tanh w inputDim hState s t).h := by
    funext i
    have hi := i.isLt
    change sigmoid (batchedGates _ _ _ _ _) * tanh
      ((batchedStep sigmoid tanh w (gatesAll w inputDim hiddenDim seqLen hState) s t).c i) = _
    rw [gates _ (by omega), hc]
    rfl
  have ho : (batchedStep sigmoid tanh w (gatesAll w inputDim hiddenDim seqLen hState) s t).output =
      (stepwiseStep sigmoid tanh w inputDim hState s t).output := by
    change writeRow s.output t
      (batchedStep sigmoid tanh w (gatesAll w inputDim hiddenDim seqLen hState) s t).h = _
    rw [hh]
    rfl
  exact LoopState.ext hh hc ho

/-- In either direction, after any number of timesteps. -/
theorem run_eq (w : LstmWeights K) (hState : ℕ → K) {times : List ℕ} (h : ∀ t ∈ times, t < seqLen) :
    batchedRun sigmoid tanh w inputDim hiddenDim seqLen hState times =
      stepwiseRun sigmoid tanh w inputDim hiddenDim hState times :=
  List.foldl_ext _ _ _ (fun s t ht => step_eq sigmoid tanh w hState s (h t ht))

theorem layer_eq (fwd rev : LstmWeights K) (hState : ℕ → K) :
    batchedLayer sigmoid tanh fwd rev inputDim hiddenDim seqLen hState =
      stepwiseLayer sigmoid tanh fwd rev inputDim hiddenDim seqLen hState := by
  rw [batchedLayer, stepwiseLayer, run_eq sigmoid tanh fwd hState (fun t ht => List.mem_range.1 ht),
    run_eq sigmoid tanh rev hState (fun t ht => List.mem_range.1 (List.mem_reverse.1 ht))]

theorem hState_eq (fwd rev : ℕ → LstmWeights K) (seqLen : ℕ) (sincOut : ℕ → K) (l : ℕ) :
    batchedHState sigmoid tanh fwd rev seqLen sincOut l =
      stepwiseHState sigmoid tanh fwd rev seqLen sincOut l :=
  List.foldl_ext _ _ _ (fun hState l _ => layer_eq sigmoid tanh (fwd l) (rev l) hState)

/-- Both programs hold the same `h_state` after every layer, and inside every layer the same
recurrent state and output after every timestep of either direction. -/
theorem batched_eq_stepwise (fwd rev : ℕ → LstmWeights K) (seqLen : ℕ) (sincOut : ℕ → K) (l : ℕ) :
    batchedHState sigmoid tanh fwd rev seqLen sincOut l =
        stepwiseHState sigmoid tanh fwd rev seqLen sincOut l ∧
      ∀ k, batchedRun sigmoid tanh (fwd l) (if l = 0 then 60 else 256) 128 seqLen
            (batchedHState sigmoid tanh fwd rev seqLen sincOut l) ((List.range seqLen).take k) =
          stepwiseRun sigmoid tanh (fwd l) (if l = 0 then 60 else 256) 128
            (stepwiseHState sigmoid tanh fwd rev seqLen sincOut l) ((List.range seqLen).take k) ∧
        batchedRun sigmoid tanh (rev l) (if l = 0 then 60 else 256) 128 seqLen
            (batchedHState sigmoid tanh fwd rev seqLen sincOut l) ((List.range seqLen).reverse.take k) =
          stepwiseRun sigmoid tanh (rev l) (if l = 0 then 60 else 256) 128
            (stepwiseHState sigmoid tanh fwd rev seqLen sincOut l) ((List.range seqLen).reverse.take k) := by
  have same := hState_eq sigmoid tanh fwd rev seqLen sincOut l
  refine ⟨same, fun k => ?_⟩
  rw [same]
  exact ⟨run_eq sigmoid tanh (fwd l) _ (fun t ht => List.mem_range.1 (List.mem_of_mem_take ht)),
    run_eq sigmoid tanh (rev l) _
      (fun t ht => List.mem_range.1 (List.mem_reverse.1 (List.mem_of_mem_take ht)))⟩

end PyannoteCpp.SegmentationLstm

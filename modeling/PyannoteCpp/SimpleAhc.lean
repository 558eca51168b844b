import Mathlib.Algebra.BigOperators.Group.Finset.Basic
import Mathlib.Data.List.FinRange
import PyannoteCpp.DescendingLoop
import PyannoteCpp.ExactFloat
import PyannoteCpp.FirstMinimum
import PyannoteCpp.ParentForest

set_option autoImplicit false

/-!
# The centroid-linkage clustering that initialises the variational loop

The merge loop is written over any kind of centroid, any way to blend two of
them and any distance between them; `simpleAhc` uses weighted averages and the
Euclidean distance. The square root is an argument, so that the definitions
compute. The product with the transpose is exact.
-/
namespace PyannoteCpp.SimpleAhc
open FirstMinimum

structure Linkage (C K : Type*) where
  blend : C → ℕ → C → ℕ → C
  distance : C → C → K

structure AhcState (C K : Type*) (n : ℕ) where
  active : Fin n → Bool
  centroids : Fin n → C
  clusterSize : Fin n → ℕ
  parent : ParentForest n
  distMatrix : Fin n → Fin n → K
  numActive : ℕ

structure Merge (K : Type*) (n : ℕ) where
  dist : K
  i : Fin n
  j : Fin n

variable {C K : Type*} {n : ℕ}

def AhcState.initial (centroids : Fin n → C) (distMatrix : Fin n → Fin n → K) : AhcState C K n where
  active := fun _ => true
  centroids := centroids
  clusterSize := fun _ => 1
  parent := .discrete n
  distMatrix := distMatrix
  numActive := n

def scanOrder (active : Fin n → Bool) : List (Fin n × Fin n) :=
  ((List.finRange n).filter (fun i => active i)).flatMap
    (fun i => ((List.finRange n).filter (fun j => i < j && active j)).map (fun j => (i, j)))

def setBoth (D : Fin n → Fin n → K) (i k : Fin n) (d : K) : Fin n → Fin n → K :=
  fun a b => if (a = i ∧ b = k) ∨ (a = k ∧ b = i) then d else D a b

def refresh (L : Linkage C K) (centroids : Fin n → C) (active : Fin n → Bool) (i : Fin n)
    (D : Fin n → Fin n → K) : Fin n → Fin n → K :=
  (List.finRange n).foldl (fun D k =>
    if !active k || k = i then D else setBoth D i k (L.distance (centroids i) (centroids k))) D

def AhcState.merge (L : Linkage C K) (S : AhcState C K n) (i j : Fin n) (h : i ≤ j) : AhcState C K n :=
  let centroids := Function.update S.centroids i
    (L.blend (S.centroids i) (S.clusterSize i) (S.centroids j) (S.clusterSize j))
  let active := Function.update S.active j false
  { active := active
    centroids := centroids
    clusterSize := Function.update S.clusterSize i (S.clusterSize i + S.clusterSize j)
    parent := S.parent.point j i h
    distMatrix := refresh L centroids active i S.distMatrix
    numActive := S.numActive - 1 }

theorem mem_scanOrder {active : Fin n → Bool} {p : Fin n × Fin n} :
    p ∈ scanOrder active ↔ p.1 < p.2 ∧ active p.1 = true ∧ active p.2 = true := by
  simp only [scanOrder, List.mem_flatMap, List.mem_filter, List.mem_finRange, true_and, List.mem_map,
    Bool.and_eq_true, decide_eq_true_eq]
  constructor
  · rintro ⟨i, hi, j, ⟨hij, hj⟩, rfl⟩
    exact ⟨hij, hi, hj⟩
  · rintro ⟨hij, hi, hj⟩
    exact ⟨p.1, hi, p.2, ⟨hij, hj⟩, rfl⟩

variable [Field K] [LinearOrder K]

/-- `best_i` and `best_j`, scanned for from `best_dist = 1e20`. -/
def bestPair (S : AhcState C K n) : Option (Fin n × Fin n) :=
  scan (fun d => decide (d < 1e20)) (fun p => S.distMatrix p.1 p.2) (scanOrder S.active)

theorem bestPair_lt {S : AhcState C K n} {p : Fin n × Fin n} (h : bestPair S = some p) : p.1 < p.2 :=
  (mem_scanOrder.1 (scan_mem h)).1

/-- One turn of `while (num_active > 1)`, `none` when the loop is left. -/
def mergeStep (L : Linkage C K) (threshold : ExactFloat K) (S : AhcState C K n) :
    Option (Merge K n × AhcState C K n) :=
  if S.numActive ≤ 1 then none
  else match h : bestPair S with
    | none => none
    | some p =>
      if threshold.lt (.finite (S.distMatrix p.1 p.2)) then none
      else some (⟨S.distMatrix p.1 p.2, p.1, p.2⟩, S.merge L p.1 p.2 (bestPair_lt h).le)

theorem mergeStep_some {L : Linkage C K} {threshold : ExactFloat K} {S U : AhcState C K n}
    {e : Merge K n} (h : mergeStep L threshold S = some (e, U)) :
    ∃ (i j : Fin n) (hij : i < j), 1 < S.numActive ∧ S.active i = true ∧ S.active j = true ∧
      bestPair S = some (i, j) ∧ e = ⟨S.distMatrix i j, i, j⟩ ∧
      threshold.lt (.finite (S.distMatrix i j)) = false ∧ U = S.merge L i j hij.le := by
  unfold mergeStep at h
  split_ifs at h with hn
  split at h
  · cases h
  · next p hp =>
      split_ifs at h with ht
      obtain ⟨hlt, hi, hj⟩ := mem_scanOrder.1 (scan_mem hp)
      cases h
      exact ⟨p.1, p.2, hlt, by omega, hi, hj, hp, rfl, by simpa using ht, rfl⟩

def mergeLoop (L : Linkage C K) (threshold : ExactFloat K) :
    DescendingLoop (AhcState C K n) (Merge K n) where
  step := mergeStep L threshold
  measure := AhcState.numActive
  lower := by
    intro S e U h
    obtain ⟨i, j, hij, hn, -, -, -, -, -, rfl⟩ := mergeStep_some h
    change S.numActive - 1 < S.numActive
    omega

/-- The label pass: the forest it compresses and the three tables it fills. -/
structure Labelling (n : ℕ) where
  parent : ParentForest n
  rootToLabel : Fin n → ℤ
  nextLabel : ℤ
  labels : Fin n → ℤ

def Labelling.step (B : Labelling n) (i : Fin n) : Labelling n :=
  let root := B.parent.root i
  let parent := B.parent.compress root i rfl
  if B.rootToLabel root = -1 then
    let rootToLabel := Function.update B.rootToLabel root B.nextLabel
    ⟨parent, rootToLabel, B.nextLabel + 1, Function.update B.labels i (rootToLabel root)⟩
  else ⟨parent, B.rootToLabel, B.nextLabel, Function.update B.labels i (B.rootToLabel root)⟩

def buildLabels (parent : ParentForest n) : Fin n → ℤ :=
  ((List.finRange n).foldl Labelling.step ⟨parent, fun _ => -1, 0, fun _ => 0⟩).labels

section Euclidean

variable {dim : ℕ} (sqrt : K → K)

/-- Unit-normalised up to the guard. -/
def normalized (v : Fin dim → K) : Fin dim → K := fun k => v k / sqrt (∑ i, v i * v i + 1e-12)

/-- From the Gram matrix; both clamps are the source's. -/
def initialDistance (a b : Fin dim → K) : K :=
  let dot := ∑ k, a k * b k
  let dot := if dot > 1 then 1 else dot
  let dsq := 2.0 * (1 - dot)
  sqrt (if dsq < 0 then 0 else dsq)

def euclidean : Linkage (Fin dim → K) K where
  blend a sizeA b sizeB := fun k => (a k * sizeA + b k * sizeB) / (sizeA + sizeB : ℕ)
  distance a b := sqrt (∑ k, (a k - b k) * (a k - b k))

/-- The diagonal keeps its fill value and is never read. -/
def distanceMatrix (X : Fin n → Fin dim → K) : Fin n → Fin n → K := fun i j =>
  if i = j then 1e20 else initialDistance sqrt (X i) (X j)

def simpleAhcStart (embeddings : Fin n → Fin dim → K) : AhcState (Fin dim → K) K n :=
  .initial (fun i => normalized sqrt (embeddings i))
    (distanceMatrix sqrt (fun i => normalized sqrt (embeddings i)))

/-- The two early returns answer `{}` and `{0}`. -/
def simpleAhc (embeddings : Fin n → Fin dim → K) (threshold : ExactFloat K) : Fin n → ℤ :=
  if n = 0 then fun _ => 0
  else if n = 1 then fun _ => 0
  else buildLabels
    (((mergeLoop (euclidean sqrt) threshold).run (simpleAhcStart sqrt embeddings)).2.parent)

end Euclidean

end PyannoteCpp.SimpleAhc

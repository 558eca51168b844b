import PyannoteCpp.ExactFloatReal
import PyannoteCpp.SimpleAhcLabels

set_option autoImplicit false

/-!
# The initial clustering on any numbers

The merge loop over any numbers that a comparison orders in any way. With the
special values among the numbers this is what the clustering does on every
embedding; over an ordered field it is the loop of exact arithmetic.
-/
namespace PyannoteCpp.SimpleAhc
open ReachableStates

variable {C F : Type*} {n : ℕ}

/-- What the loop does with numbers: its comparison and the value `best_dist` starts from. -/
structure FloatLinkage (C F : Type*) extends Linkage C F where
  lt : F → F → Bool
  sentinel : F

variable (L : FloatLinkage C F) (threshold : F)

/-- One comparison of the scan. -/
def keepNearer (S : AhcState C F n) (best : Option (Fin n × Fin n)) (p : Fin n × Fin n) : Option (Fin n × Fin n) :=
  let bestDist := match best with
    | none => L.sentinel
    | some b => S.distMatrix b.1 b.2
  if L.lt (S.distMatrix p.1 p.2) bestDist then some p else best

def nearestPair (S : AhcState C F n) : Option (Fin n × Fin n) := (scanOrder S.active).foldl (keepNearer L S) none

theorem foldl_keepNearer_mem {S : AhcState C F n} (l : List (Fin n × Fin n)) {best : Option (Fin n × Fin n)}
    {p : Fin n × Fin n} (h : l.foldl (keepNearer L S) best = some p) : p ∈ l ∨ best = some p := by
  induction l generalizing best with
  | nil => exact .inr h
  | cons a l ih =>
    rw [List.foldl_cons] at h
    have hkept : keepNearer L S best a = some a ∨ keepNearer L S best a = best := ite_eq_or_eq _ _ _
    rcases ih h with hmem | hbest
    · exact .inl (List.mem_cons_of_mem _ hmem)
    · rcases hkept with ha | hold
      · rw [ha] at hbest
        cases hbest
        exact .inl List.mem_cons_self
      · exact .inr (hold.symm.trans hbest)

variable {L} in
theorem nearestPair_mem {S : AhcState C F n} {p : Fin n × Fin n} (h : nearestPair L S = some p) :
    p.1 < p.2 ∧ S.active p.1 = true ∧ S.active p.2 = true := by
  rcases foldl_keepNearer_mem L _ h with hmem | hnone
  · exact mem_scanOrder.1 hmem
  · cases hnone

def floatMergeStep (S : AhcState C F n) : Option (Merge F n × AhcState C F n) :=
  if S.numActive ≤ 1 then none
  else match h : nearestPair L S with
    | none => none
    | some p =>
      if L.lt threshold (S.distMatrix p.1 p.2) then none
      else some (⟨S.distMatrix p.1 p.2, p.1, p.2⟩, S.merge L.toLinkage p.1 p.2 (nearestPair_mem h).1.le)

theorem floatMergeStep_some {L : FloatLinkage C F} {threshold : F} {S U : AhcState C F n} {e : Merge F n}
    (h : floatMergeStep L threshold S = some (e, U)) : ∃ (i j : Fin n) (hij : i < j), 1 < S.numActive ∧
      S.active i = true ∧ S.active j = true ∧ nearestPair L S = some (i, j) ∧ e = ⟨S.distMatrix i j, i, j⟩ ∧
      L.lt threshold (S.distMatrix i j) = false ∧ U = S.merge L.toLinkage i j hij.le := by
  unfold floatMergeStep at h
  split_ifs at h with hn
  split at h
  · cases h
  · next p hp =>
      split_ifs at h with ht
      obtain ⟨hlt, hi, hj⟩ := nearestPair_mem hp
      cases h
      exact ⟨p.1, p.2, hlt, by omega, hi, hj, hp, rfl, by simpa using ht, rfl⟩

theorem floatMergeStep_lower (S : AhcState C F n) (e : Merge F n) (U : AhcState C F n)
    (h : floatMergeStep L threshold S = some (e, U)) : U.numActive < S.numActive := by
  obtain ⟨i, j, hij, hn, -, -, -, -, -, rfl⟩ := floatMergeStep_some h
  change S.numActive - 1 < S.numActive
  omega

def floatMergeLoop : DescendingLoop (AhcState C F n) (Merge F n) where
  step := floatMergeStep L threshold
  measure := AhcState.numActive
  lower := floatMergeStep_lower L threshold

def FloatVisited (start : AhcState C F n) : AhcState C F n → Prop :=
  Reachable (fun S => S = start) (fun S e U => floatMergeStep L threshold S = some (e, U))

theorem floatVisited_tracks {centroids : Fin n → C} {D : Fin n → Fin n → F} {S : AhcState C F n}
    (h : FloatVisited L threshold (.initial centroids D) S) : Tracks S.active S.parent := by
  apply tracks_of_top
  refine h.invariant (fun S => ∀ x, S.active x = true ↔ S.parent.parent x = x) ?_ ?_
  · rintro S rfl x
    exact iff_of_true rfl rfl
  · intro S e U hS hs
    obtain ⟨i, j, hij, -, -, -, -, -, -, rfl⟩ := floatMergeStep_some hs
    exact merge_top hS hij

theorem float_recorded (centroids : Fin n → C) (D : Fin n → Fin n → F) :
    Recorded ((floatMergeLoop L threshold).run (.initial centroids D)).2
      ((floatMergeLoop L threshold).run (.initial centroids D)).1 := by
  apply loop_recorded
  intro S e U events h hs
  obtain ⟨i, j, hij, hn, hi, hj, -, rfl, -, rfl⟩ := floatMergeStep_some hs
  exact h.merge hij hn hi hj _

/-- Over an ordered field the scan is that for the first smallest distance. -/
theorem floatMergeStep_exact {K : Type*} [Field K] [LinearOrder K] (L : Linkage C K) (threshold : K) :
    floatMergeStep (n := n) ⟨L, fun a b => decide (a < b), 1e20⟩ threshold = mergeStep L (.finite threshold) := by
  funext S
  have hscan : nearestPair ⟨L, fun a b => decide (a < b), 1e20⟩ S = bestPair S := by
    unfold nearestPair bestPair FirstMinimum.scan
    congr 1
    funext best p
    cases best with
    | none => rfl
    | some b => simp only [keepNearer, FirstMinimum.keep, decide_eq_true_eq]
  unfold floatMergeStep mergeStep
  split_ifs with hn
  · rfl
  · split
    · next h₁ =>
        split
        · rfl
        · next q h₂ =>
            rw [hscan, h₂] at h₁
            cases h₁
    · next p h₁ =>
        rw [hscan] at h₁
        split
        · next ht =>
            split
            · rfl
            · next q h₂ =>
                rw [h₁] at h₂
                cases h₂
                exact (if_pos ht).symm
        · next ht =>
            split
            · next h₂ =>
                rw [h₁] at h₂
                cases h₂
            · next q h₂ =>
                rw [h₁] at h₂
                cases h₂
                exact (if_neg ht).symm

noncomputable section Special

variable {dim : ℕ}

open ExactFloat

def normalizedFloat (v : Fin dim → ExactFloat ℝ) : Fin dim → ExactFloat ℝ :=
  let norm := (sumLoop (fun i => v i * v i) + finite 1e-12).sqrt
  fun k => v k / norm

def initialDistanceFloat (a b : Fin dim → ExactFloat ℝ) : ExactFloat ℝ :=
  let dot := sumLoop (fun k => a k * b k)
  let dot := if (finite 1).lt dot then finite 1 else dot
  let dsq := finite 2.0 * (finite 1 - dot)
  (if dsq.lt (finite 0) then finite 0 else dsq).sqrt

def euclideanFloat : FloatLinkage (Fin dim → ExactFloat ℝ) (ExactFloat ℝ) where
  blend a sizeA b sizeB := fun k => (a k * finite (sizeA : ℝ) + b k * finite (sizeB : ℝ)) / finite ((sizeA + sizeB : ℕ) : ℝ)
  distance a b := (sumLoop (fun k => (a k - b k) * (a k - b k))).sqrt
  lt := ExactFloat.lt
  sentinel := finite 1e20

def simpleAhcFloat (embeddings : Fin n → Fin dim → ExactFloat ℝ) (threshold : ExactFloat ℝ) : Fin n → ℤ :=
  if n = 0 then fun _ => 0
  else if n = 1 then fun _ => 0
  else
    let normed := fun i => normalizedFloat (embeddings i)
    let distMatrix := fun i j => if i = j then finite 1e20 else initialDistanceFloat (normed i) (normed j)
    buildLabels ((floatMergeLoop euclideanFloat threshold).run (.initial normed distMatrix)).2.parent

def simpleAhcFloatStart (embeddings : Fin n → Fin dim → ExactFloat ℝ) :
    AhcState (Fin dim → ExactFloat ℝ) (ExactFloat ℝ) n :=
  let normed := fun i => normalizedFloat (embeddings i)
  .initial normed (fun i j => if i = j then finite 1e20 else initialDistanceFloat (normed i) (normed j))

def simpleAhcFloatRun (embeddings : Fin n → Fin dim → ExactFloat ℝ) (threshold : ExactFloat ℝ) :
    List (Merge (ExactFloat ℝ) n) × AhcState (Fin dim → ExactFloat ℝ) (ExactFloat ℝ) n :=
  (floatMergeLoop euclideanFloat threshold).run (simpleAhcFloatStart embeddings)

variable (embeddings : Fin n → Fin dim → ExactFloat ℝ) (threshold : ExactFloat ℝ)

theorem simpleAhcFloatRun_recorded :
    Recorded (simpleAhcFloatRun embeddings threshold).2 (simpleAhcFloatRun embeddings threshold).1 :=
  float_recorded _ _ _ _

theorem simpleAhcFloat_eq : simpleAhcFloat embeddings threshold =
    buildLabels (simpleAhcFloatRun embeddings threshold).2.parent := by
  unfold simpleAhcFloat
  split_ifs with h0 h1
  · subst h0
    exact funext (fun i => i.elim0)
  · subst h1
    exact (buildLabels_one _).symm
  · rfl

/-- Whatever the values, the labels number the clusters in the order of their points. -/
theorem simpleAhcFloat_wellNumbered :
    WellNumbered (simpleAhcFloat embeddings threshold)
      (Finset.univ.filter (fun x => (simpleAhcFloatRun embeddings threshold).2.active x = true)).card := by
  rw [simpleAhcFloat_eq]
  exact buildLabels_wellNumbered _ (simpleAhcFloatRun_recorded embeddings threshold).top

/-- Over any ordered field and any square root, and on floats of any values: the loop ends after fewer merges than
points, the pointers track the active clusters through the loop and the pass, and the labels number the merged clusters
in the order of their points. -/
theorem ahc_labels_any {K : Type*} [Field K] [LinearOrder K] (sqrt : K → K) (exact : Fin n → Fin dim → K) (limit : ExactFloat K) :
    ((mergeStep (euclidean sqrt) limit (simpleAhcRun sqrt exact limit).2 = none ∧
        (simpleAhcRun sqrt exact limit).1.length ≤ n - 1) ∧
      (∀ S, Visited (euclidean sqrt) limit (simpleAhcStart sqrt exact) S → Tracks S.active S.parent) ∧
      (∀ m, Tracks (simpleAhcRun sqrt exact limit).2.active (labelPass (simpleAhcRun sqrt exact limit).2.parent m).parent ∧
        ∀ x, (labelPass (simpleAhcRun sqrt exact limit).2.parent m).parent.root x =
          (simpleAhcRun sqrt exact limit).2.parent.root x) ∧
      (∀ p q, simpleAhc sqrt exact limit p = simpleAhc sqrt exact limit q ↔
        MergedTogether (simpleAhcRun sqrt exact limit).1 p q) ∧
      WellNumbered (simpleAhc sqrt exact limit)
        (Finset.univ.filter (fun x => (simpleAhcRun sqrt exact limit).2.active x = true)).card) ∧
    ((floatMergeStep euclideanFloat threshold (simpleAhcFloatRun embeddings threshold).2 = none ∧
        (simpleAhcFloatRun embeddings threshold).1.length ≤ n - 1) ∧
      (∀ S, FloatVisited euclideanFloat threshold (simpleAhcFloatStart embeddings) S → Tracks S.active S.parent) ∧
      (∀ m, Tracks (simpleAhcFloatRun embeddings threshold).2.active
          (labelPass (simpleAhcFloatRun embeddings threshold).2.parent m).parent ∧
        ∀ x, (labelPass (simpleAhcFloatRun embeddings threshold).2.parent m).parent.root x =
          (simpleAhcFloatRun embeddings threshold).2.parent.root x) ∧
      (∀ p q, simpleAhcFloat embeddings threshold p = simpleAhcFloat embeddings threshold q ↔
        MergedTogether (simpleAhcFloatRun embeddings threshold).1 p q) ∧
      WellNumbered (simpleAhcFloat embeddings threshold)
        (Finset.univ.filter (fun x => (simpleAhcFloatRun embeddings threshold).2.active x = true)).card) := by
  have recorded := simpleAhcFloatRun_recorded embeddings threshold
  refine ⟨simpleAhc_labels sqrt exact limit, ⟨(floatMergeLoop euclideanFloat threshold).run_stopped _, recorded.length_le⟩,
    fun S h => floatVisited_tracks _ _ h, recorded.pass, fun p q => ?_, simpleAhcFloat_wellNumbered embeddings threshold⟩
  rw [simpleAhcFloat_eq, buildLabels_eq_iff]
  exact recorded.joined p q

end Special

end PyannoteCpp.SimpleAhc

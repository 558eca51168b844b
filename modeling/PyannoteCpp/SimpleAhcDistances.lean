import Mathlib.Algebra.Order.BigOperators.Ring.Finset
import Mathlib.Analysis.Real.Sqrt
import PyannoteCpp.SimpleAhcCut

set_option autoImplicit false

/-!
# The distances the clustering itself produces

Normalised embeddings and weighted averages of them have length at most one,
so no distance of the real function comes near the scan's initial value.
-/
namespace PyannoteCpp.SimpleAhc
open ReachableStates

variable {n dim : ℕ}

def Short (v : Fin dim → ℝ) : Prop := ∑ k, v k * v k ≤ 1

theorem normalized_short (v : Fin dim → ℝ) : Short (normalized Real.sqrt v) := by
  have hsum : 0 ≤ ∑ k, v k * v k := Finset.sum_nonneg (fun k _ => mul_self_nonneg (v k))
  have hpos : 0 < ∑ k, v k * v k + 1e-12 := by linarith [show (0 : ℝ) < 1e-12 by norm_num]
  have hterm : ∀ k, normalized Real.sqrt v k * normalized Real.sqrt v k =
      v k * v k / (∑ k, v k * v k + 1e-12) := by
    intro k
    rw [normalized, div_mul_div_comm, Real.mul_self_sqrt hpos.le]
  unfold Short
  rw [Finset.sum_congr rfl (fun k _ => hterm k), ← Finset.sum_div, div_le_one hpos]
  norm_num

theorem sq_average_le (a b : ℝ) {s t : ℕ} (hs : 1 ≤ s) :
    (a * s + b * t) / (s + t : ℕ) * ((a * s + b * t) / (s + t : ℕ)) ≤
      (a * a * s + b * b * t) / (s + t : ℕ) := by
  have hs' : (1 : ℝ) ≤ s := by exact_mod_cast hs
  have ht : (0 : ℝ) ≤ t := Nat.cast_nonneg t
  have hpos : (0 : ℝ) < (s + t : ℕ) := by
    push_cast
    linarith
  rw [div_mul_div_comm, div_le_div_iff₀ (mul_pos hpos hpos) hpos]
  have spread : 0 ≤ (s : ℝ) * t * ((a - b) * (a - b)) :=
    mul_nonneg (mul_nonneg (by linarith) ht) (mul_self_nonneg _)
  have gap : (a * a * s + b * b * t) * ((s + t : ℕ) : ℝ) - (a * s + b * t) * (a * s + b * t) =
      (s : ℝ) * t * ((a - b) * (a - b)) := by
    push_cast
    ring
  have bound : (a * s + b * t) * (a * s + b * t) ≤ (a * a * s + b * b * t) * ((s + t : ℕ) : ℝ) := by
    linarith
  calc
    _ ≤ (a * a * s + b * b * t) * ((s + t : ℕ) : ℝ) * ((s + t : ℕ) : ℝ) :=
      mul_le_mul_of_nonneg_right bound hpos.le
    _ = _ := by ring

theorem blend_short {a b : Fin dim → ℝ} (ha : Short a) (hb : Short b) {s t : ℕ} (hs : 1 ≤ s) :
    Short ((euclidean Real.sqrt).blend a s b t) := by
  have hs' : (1 : ℝ) ≤ s := by exact_mod_cast hs
  have ht : (0 : ℝ) ≤ t := Nat.cast_nonneg t
  have hpos : (0 : ℝ) < (s + t : ℕ) := by
    push_cast
    linarith
  have split : ∑ k, (a k * a k * s + b k * b k * t) =
      (∑ k, a k * a k) * s + (∑ k, b k * b k) * t := by
    rw [Finset.sum_add_distrib, Finset.sum_mul, Finset.sum_mul]
  calc
    _ ≤ ∑ k, (a k * a k * s + b k * b k * t) / (s + t : ℕ) :=
      Finset.sum_le_sum (fun k _ => sq_average_le (a k) (b k) hs)
    _ = ((∑ k, a k * a k) * s + (∑ k, b k * b k) * t) / (s + t : ℕ) := by
      rw [← Finset.sum_div, split]
    _ ≤ 1 := by
      rw [div_le_one hpos]
      push_cast
      exact add_le_add (mul_le_of_le_one_left (by linarith) ha) (mul_le_of_le_one_left ht hb)

theorem distance_le {a b : Fin dim → ℝ} (ha : Short a) (hb : Short b) :
    (euclidean Real.sqrt).distance a b ≤ 2 := by
  have hterm : ∀ k, (a k - b k) * (a k - b k) ≤ 2 * (a k * a k) + 2 * (b k * b k) := by
    intro k
    linarith [mul_self_nonneg (a k + b k)]
  have hsum : ∑ k, (a k - b k) * (a k - b k) ≤ 2 * ∑ k, a k * a k + 2 * ∑ k, b k * b k := by
    rw [Finset.mul_sum, Finset.mul_sum, ← Finset.sum_add_distrib]
    exact Finset.sum_le_sum (fun k _ => hterm k)
  unfold Short at ha hb
  refine Real.sqrt_le_iff.2 ⟨by norm_num, ?_⟩
  linarith

theorem initialDistance_le {a b : Fin dim → ℝ} (ha : Short a) (hb : Short b) :
    initialDistance Real.sqrt a b ≤ 2 := by
  have hterm : ∀ k, -(a k * a k) - b k * b k ≤ 2 * (a k * b k) := by
    intro k
    linarith [mul_self_nonneg (a k + b k)]
  have hsum : -(∑ k, a k * a k) - ∑ k, b k * b k ≤ 2 * ∑ k, a k * b k := by
    rw [Finset.mul_sum, ← Finset.sum_neg_distrib, ← Finset.sum_sub_distrib]
    exact Finset.sum_le_sum (fun k _ => hterm k)
  unfold Short at ha hb
  unfold initialDistance
  refine Real.sqrt_le_iff.2 ⟨by norm_num, ?_⟩
  norm_num1
  split_ifs <;> linarith

theorem refresh_cases {C K : Type*} (L : Linkage C K) (centroids : Fin n → C) (active : Fin n → Bool)
    (i a b : Fin n) (D : Fin n → Fin n → K) : refresh L centroids active i D a b = D a b ∨
      ∃ k, refresh L centroids active i D a b = L.distance (centroids i) (centroids k) := by
  unfold refresh
  induction List.finRange n generalizing D with
  | nil => exact Or.inl rfl
  | cons k l ih =>
    rw [List.foldl_cons]
    split_ifs
    · exact ih D
    · rcases ih (setBoth D i k (L.distance (centroids i) (centroids k))) with h | h
      · rw [h]
        unfold setBoth
        split_ifs
        · exact Or.inr ⟨k, rfl⟩
        · exact Or.inl rfl
      · exact Or.inr h

/-- What bounds the distances of every state of the loop. -/
structure Bounded (S : AhcState (Fin dim → ℝ) ℝ n) : Prop where
  short : ∀ k, Short (S.centroids k)
  size : ∀ k, 1 ≤ S.clusterSize k
  dist : ∀ i j, i ≠ j → S.distMatrix i j ≤ 2

theorem distanceMatrix_le {X : Fin n → Fin dim → ℝ} (h : ∀ i, Short (X i)) {i j : Fin n}
    (hij : i ≠ j) : distanceMatrix Real.sqrt X i j ≤ 2 := by
  unfold distanceMatrix
  rw [if_neg hij]
  exact initialDistance_le (h i) (h j)

theorem start_bounded (embeddings : Fin n → Fin dim → ℝ) :
    Bounded (simpleAhcStart Real.sqrt embeddings) := by
  have short := fun i => normalized_short (embeddings i)
  exact ⟨short, fun _ => le_rfl, fun _ _ => distanceMatrix_le short⟩

theorem Bounded.merge {S : AhcState (Fin dim → ℝ) ℝ n} (h : Bounded S) {i j : Fin n} (hij : i < j) :
    Bounded (S.merge (euclidean Real.sqrt) i j hij.le) := by
  have short : ∀ k, Short ((S.merge (euclidean Real.sqrt) i j hij.le).centroids k) := by
    intro k
    change Short (Function.update S.centroids i _ k)
    by_cases hk : k = i
    · rw [hk, Function.update_self]
      exact blend_short (h.short i) (h.short j) (h.size i)
    · rw [Function.update_of_ne hk]
      exact h.short k
  refine ⟨short, fun k => ?_, fun a b hab => ?_⟩
  · change 1 ≤ Function.update S.clusterSize i (S.clusterSize i + S.clusterSize j) k
    by_cases hk : k = i
    · rw [hk, Function.update_self]
      exact (h.size i).trans (Nat.le_add_right _ _)
    · rw [Function.update_of_ne hk]
      exact h.size k
  · rcases refresh_cases (euclidean Real.sqrt) (S.merge (euclidean Real.sqrt) i j hij.le).centroids
      (S.merge (euclidean Real.sqrt) i j hij.le).active i a b S.distMatrix with hr | ⟨k, hr⟩
    · exact hr.trans_le (h.dist a b hab)
    · exact hr.trans_le (distance_le (short i) (short k))

theorem simpleAhc_finite (embeddings : Fin n → Fin dim → ℝ) {S : AhcState (Fin dim → ℝ) ℝ n}
    (h : Reached (euclidean Real.sqrt) (fun i => normalized Real.sqrt (embeddings i))
      (distanceMatrix Real.sqrt (fun i => normalized Real.sqrt (embeddings i))) S) : Finite S := by
  have bounded : Bounded S := by
    refine h.invariant Bounded ?_ ?_
    · rintro S rfl
      exact start_bounded embeddings
    · intro S e U hS hs
      obtain ⟨i, j, hij, -, -, -, -, -, -, rfl⟩ := mergeStep_some hs
      exact hS.merge hij
  intro i j hij _ _
  exact (bounded.dist i j hij.ne).trans_lt (by norm_num)

theorem simpleAhc_eq_iff {K : Type*} [Field K] [LinearOrder K] (sqrt : K → K)
    (embeddings : Fin n → Fin dim → K) (threshold : ExactFloat K) (p q : Fin n) :
    simpleAhc sqrt embeddings threshold p = simpleAhc sqrt embeddings threshold q ↔
      buildLabels (finalState (euclidean sqrt) threshold (fun i => normalized sqrt (embeddings i))
          (distanceMatrix sqrt (fun i => normalized sqrt (embeddings i)))).parent p =
        buildLabels (finalState (euclidean sqrt) threshold (fun i => normalized sqrt (embeddings i))
          (distanceMatrix sqrt (fun i => normalized sqrt (embeddings i)))).parent q := by
  unfold simpleAhc
  split_ifs with h0 h1
  · subst h0
    exact p.elim0
  · subst h1
    exact iff_of_true rfl (congrArg _ (Subsingleton.elim p q))
  · rfl

theorem simpleAhc_cut (embeddings : Fin n → Fin dim → ℝ) (threshold : ExactFloat ℝ) (p : Fin n) :
    ∃ t, dendrogram (euclidean Real.sqrt) (fun i => normalized Real.sqrt (embeddings i))
        (distanceMatrix Real.sqrt (fun i => normalized Real.sqrt (embeddings i))) = [t] ∧
      ∀ q, simpleAhc Real.sqrt embeddings threshold p = simpleAhc Real.sqrt embeddings threshold q ↔
        t.Together (fun v => threshold.lt (.finite v) = false) p q := by
  obtain ⟨t, ht⟩ := dendrogram_single (fun _ => simpleAhc_finite embeddings) p
  refine ⟨t, ht, fun q => ?_⟩
  rw [simpleAhc_eq_iff, buildLabels_eq_iff,
    ← joined_dendrogram (fun _ => simpleAhc_finite embeddings), ht, MergeTree.joined_singleton]
  rfl

/-- Leaving the loop at the first refused minimum gives the cut of the whole merge tree. -/
theorem early_exit_cut {C K : Type*} [Field K] [LinearOrder K] {L : Linkage C K}
    {threshold : ExactFloat K} {centroids : Fin n → C} {D : Fin n → Fin n → K}
    (hfin : ∀ S, Reached L centroids D S → Finite S) (p : Fin n) : ∃ t, dendrogram L centroids D = [t] ∧
    ∀ q, buildLabels (finalState L threshold centroids D).parent p =
      buildLabels (finalState L threshold centroids D).parent q ↔
        t.Together (fun v => threshold.lt (.finite v) = false) p q := by
  obtain ⟨t, ht⟩ := dendrogram_single hfin p
  refine ⟨t, ht, fun q => ?_⟩
  rw [buildLabels_eq_iff, ← joined_dendrogram hfin, ht, MergeTree.joined_singleton]
  rfl

/-- Three directions, the last two of which are further from each other than each is from the first. -/
noncomputable def tripod (i : Fin 3) : Fin 2 → ℝ :=
  if i.val = 0 then ![1, 0] else if i.val = 1 then ![-0.28, 0.96] else ![-0.28, -0.96]

/-- The first merge is at distance `1.6`, and the centroid then lies closer than that to the last point. -/
theorem early_exit_cut_tripod : ∃ t, dendrogram (euclidean Real.sqrt)
      (fun i => normalized Real.sqrt (tripod i)) (distanceMatrix Real.sqrt (fun i => normalized Real.sqrt (tripod i))) = [t] ∧
    ∀ q, buildLabels (finalState (euclidean Real.sqrt) (.finite (79 / 50)) (fun i => normalized Real.sqrt (tripod i))
        (distanceMatrix Real.sqrt (fun i => normalized Real.sqrt (tripod i)))).parent 0 =
      buildLabels (finalState (euclidean Real.sqrt) (.finite (79 / 50)) (fun i => normalized Real.sqrt (tripod i))
        (distanceMatrix Real.sqrt (fun i => normalized Real.sqrt (tripod i)))).parent q ↔
        t.Together (fun v => (ExactFloat.finite (79 / 50 : ℝ)).lt (.finite v) = false) 0 q :=
  early_exit_cut (fun _ => simpleAhc_finite tripod) 0

end PyannoteCpp.SimpleAhc

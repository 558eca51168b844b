import Mathlib.Analysis.InnerProductSpace.PiL2
import PyannoteCpp.SimpleAhcDistances

set_option autoImplicit false

/-!
# What the clustering keeps between two merges

A merge renews one row and one column of the distances, those of the cluster it
grows. The rows of dead clusters go stale and are not read. The first distances
come from inner products, which for unit vectors are the same distances.
-/
namespace PyannoteCpp.SimpleAhc
open ReachableStates

variable {C K : Type*} {n dim : ℕ}

def members (S : AhcState C K n) (k : Fin n) : Finset (Fin n) := Finset.univ.filter (fun p => S.parent.root p = k)

/-- The active clusters are the ends of the chains, and their distances are cached. -/
structure Coherent (L : Linkage C K) (S : AhcState C K n) : Prop where
  top : ∀ k, S.active k = true ↔ S.parent.parent k = k
  cached : ∀ a b, S.active a = true → S.active b = true → a ≠ b →
    S.distMatrix a b = L.distance (S.centroids a) (S.centroids b)

section Refresh

variable {L : Linkage C K} {centroids : Fin n → C} {active : Fin n → Bool} {i k : Fin n}

theorem setBoth_pair (D : Fin n → Fin n → K) (d : K) :
    setBoth D i k d i k = d ∧ setBoth D i k d k i = d :=
  ⟨if_pos (Or.inl ⟨rfl, rfl⟩), if_pos (Or.inr ⟨rfl, rfl⟩)⟩

theorem setBoth_other (D : Fin n → Fin n → K) (d : K) {j : Fin n} (hj : k ≠ j) (hi : k ≠ i) :
    setBoth D i j d i k = D i k ∧ setBoth D i j d k i = D k i := by
  constructor
  · exact if_neg (by simp [hj, hi])
  · exact if_neg (by simp [hj, hi])

/-- The loop reaches every active cluster but `i`, and does not undo what it wrote. -/
theorem foldl_refresh_pair (hk : active k = true) (hi : k ≠ i) (l : List (Fin n)) (D : Fin n → Fin n → K)
    (h : k ∈ l ∨ D i k = L.distance (centroids i) (centroids k) ∧ D k i = L.distance (centroids i) (centroids k)) :
    l.foldl (fun D k => if !active k || k = i then D
        else setBoth D i k (L.distance (centroids i) (centroids k))) D i k = L.distance (centroids i) (centroids k) ∧
      l.foldl (fun D k => if !active k || k = i then D
        else setBoth D i k (L.distance (centroids i) (centroids k))) D k i = L.distance (centroids i) (centroids k) := by
  induction l generalizing D with
  | nil => exact h.resolve_left List.not_mem_nil
  | cons j l ih =>
    rw [List.foldl_cons]
    by_cases same : k = j
    · subst same
      rw [if_neg (by simp [hk, hi])]
      exact ih _ (Or.inr (setBoth_pair D _))
    · refine ih _ (h.imp (fun hmem => (List.mem_cons.1 hmem).resolve_left same) (fun written => ?_))
      split_ifs
      · exact written
      · obtain ⟨row, column⟩ := setBoth_other D (L.distance (centroids i) (centroids j)) same hi
        rw [row, column]
        exact written

theorem refresh_pair (hk : active k = true) (hi : k ≠ i) (D : Fin n → Fin n → K) :
    refresh L centroids active i D i k = L.distance (centroids i) (centroids k) ∧
      refresh L centroids active i D k i = L.distance (centroids i) (centroids k) :=
  foldl_refresh_pair hk hi _ D (Or.inl (List.mem_finRange k))

end Refresh

section Merging

variable {L : Linkage C K} {S : AhcState C K n} {i j : Fin n}

theorem Coherent.merge (symm : ∀ a b, L.distance a b = L.distance b a) (h : Coherent L S) (hij : i < j)
    (hi : S.active i = true) : Coherent L (S.merge L i j hij.le) := by
  have active := fun k => merge_active (L := L) S (k := k) hij.le
  refine ⟨fun k => ?_, fun a b ha hb hab => ?_⟩
  · exact merge_top h.top hij k
  · by_cases hai : a = i
    · subst hai
      exact (refresh_pair hb (Ne.symm hab) _).1
    · by_cases hbi : b = i
      · subst hbi
        exact (refresh_pair ha hab _).2.trans (symm _ _)
      · have ca : (S.merge L i j hij.le).centroids a = S.centroids a := Function.update_of_ne hai ..
        have cb : (S.merge L i j hij.le).centroids b = S.centroids b := Function.update_of_ne hbi ..
        rw [merge_dist S hij.le hai hbi, ca, cb]
        exact h.cached a b ((active a).1 ha).1 ((active b).1 hb).1 hab

theorem mem_members {p k : Fin n} : p ∈ members S k ↔ S.parent.root p = k := by simp [members]

variable (hij : i < j) (hi : S.parent.parent i = i) (hj : S.parent.parent j = j)
include hi hj

theorem members_merged : members (S.merge L i j hij.le) i = (members S i).disjUnion (members S j)
    (Finset.disjoint_left.2 (fun _ hp hq => hij.ne ((mem_members.1 hp).symm.trans (mem_members.1 hq)))) := by
  ext p
  rw [Finset.mem_disjUnion, mem_members, mem_members, mem_members]
  change (S.parent.point j i hij.le).root p = i ↔ _
  rw [S.parent.root_link hi hj hij]
  split_ifs with hp
  · simp [hp]
  · simp [hp]

theorem members_other {k : Fin n} (hki : k ≠ i) (hkj : k ≠ j) :
    members (S.merge L i j hij.le) k = members S k := by
  ext p
  rw [mem_members, mem_members]
  change (S.parent.point j i hij.le).root p = k ↔ _
  rw [S.parent.root_link hi hj hij]
  split_ifs with hp
  · rw [hp]
    exact iff_of_false (Ne.symm hki) (Ne.symm hkj)
  · rfl

end Merging

section Means

noncomputable def mean (X : Fin n → Fin dim → ℝ) (A : Finset (Fin n)) : Fin dim → ℝ := fun d => (∑ p ∈ A, X p d) / A.card

theorem mean_singleton (X : Fin n → Fin dim → ℝ) (p : Fin n) : mean X {p} = X p := by
  funext d
  simp [mean]

theorem blend_mean (X : Fin n → Fin dim → ℝ) {A B : Finset (Fin n)} (h : Disjoint A B) (hA : A.Nonempty)
    (hB : B.Nonempty) :
    (euclidean Real.sqrt).blend (mean X A) A.card (mean X B) B.card = mean X (A.disjUnion B h) := by
  funext d
  have ha : (A.card : ℝ) ≠ 0 := by exact_mod_cast hA.card_pos.ne'
  have hb : (B.card : ℝ) ≠ 0 := by exact_mod_cast hB.card_pos.ne'
  change (mean X A d * A.card + mean X B d * B.card) / ((A.card + B.card : ℕ) : ℝ) = mean X (A.disjUnion B h) d
  unfold mean
  rw [div_mul_cancel₀ _ ha, div_mul_cancel₀ _ hb, Finset.sum_disjUnion, Finset.card_disjUnion]

/-- The centroids of the active clusters are means, and their sizes are counted. -/
structure Averaged (X : Fin n → Fin dim → ℝ) (S : AhcState (Fin dim → ℝ) ℝ n) : Prop where
  size : ∀ k, S.active k = true → S.clusterSize k = (members S k).card
  centroid : ∀ k, S.active k = true → S.centroids k = mean X (members S k)

variable {X : Fin n → Fin dim → ℝ} {S : AhcState (Fin dim → ℝ) ℝ n} {i j : Fin n}

theorem Averaged.merge (h : Averaged X S) (coherent : Coherent (euclidean Real.sqrt) S) (hij : i < j)
    (hi : S.active i = true) (hj : S.active j = true) :
    Averaged X (S.merge (euclidean Real.sqrt) i j hij.le) := by
  have topI := (coherent.top i).1 hi
  have topJ := (coherent.top j).1 hj
  have merged := members_merged (L := euclidean Real.sqrt) hij topI topJ
  have active := fun k => merge_active (L := euclidean Real.sqrt) S (k := k) hij.le
  refine ⟨fun k hk => ?_, fun k hk => ?_⟩
  · change Function.update S.clusterSize i (S.clusterSize i + S.clusterSize j) k = _
    obtain ⟨hk, hkj⟩ := (active k).1 hk
    by_cases hki : k = i
    · rw [hki, Function.update_self, merged, Finset.card_disjUnion, h.size i hi, h.size j hj]
    · rw [Function.update_of_ne hki, members_other hij topI topJ hki hkj, h.size k hk]
  · change Function.update S.centroids i ((euclidean Real.sqrt).blend (S.centroids i) (S.clusterSize i)
      (S.centroids j) (S.clusterSize j)) k = _
    obtain ⟨hk, hkj⟩ := (active k).1 hk
    by_cases hki : k = i
    · have inI : (members S i).Nonempty := ⟨i, mem_members.2 (S.parent.root_of_self topI)⟩
      have inJ : (members S j).Nonempty := ⟨j, mem_members.2 (S.parent.root_of_self topJ)⟩
      rw [hki, Function.update_self, merged, h.centroid i hi, h.centroid j hj, h.size i hi, h.size j hj,
        blend_mean X _ inI inJ]
    · rw [Function.update_of_ne hki, members_other hij topI topJ hki hkj, h.centroid k hk]

end Means

section Start

/-- Normalised with a guard of any size. -/
def normalizedWith {K : Type*} [Field K] (sqrt : K → K) (guard : K) (v : Fin dim → K) : Fin dim → K :=
  fun k => v k / sqrt (∑ i, v i * v i + guard)

/-- What `simple_ahc` starts from when nothing guards the norms. -/
noncomputable def unguardedStart (embeddings : Fin n → Fin dim → ℝ) : AhcState (Fin dim → ℝ) ℝ n :=
  .initial (fun i => normalizedWith Real.sqrt 0 (embeddings i))
    (distanceMatrix Real.sqrt (fun i => normalizedWith Real.sqrt 0 (embeddings i)))

theorem normalizedWith_unit {v : Fin dim → ℝ} (hv : v ≠ 0) :
    ∑ k, normalizedWith Real.sqrt 0 v k * normalizedWith Real.sqrt 0 v k = 1 := by
  obtain ⟨d, hd⟩ := Function.ne_iff.1 hv
  have hnonneg : ∀ k ∈ Finset.univ, 0 ≤ v k * v k := fun k _ => mul_self_nonneg (v k)
  have hpos : 0 < ∑ k, v k * v k := Finset.sum_pos' hnonneg ⟨d, Finset.mem_univ d, mul_self_pos.2 hd⟩
  have hterm : ∀ k, normalizedWith Real.sqrt 0 v k * normalizedWith Real.sqrt 0 v k =
      v k * v k / ∑ k, v k * v k := by
    intro k
    rw [normalizedWith, add_zero, div_mul_div_comm, Real.mul_self_sqrt hpos.le]
  rw [Finset.sum_congr rfl (fun k _ => hterm k), ← Finset.sum_div, div_self hpos.ne']

/-- The clamps do not bite on unit vectors. -/
theorem initialDistance_eq {a b : Fin dim → ℝ} (ha : ∑ k, a k * a k = 1) (hb : ∑ k, b k * b k = 1) :
    initialDistance Real.sqrt a b = (euclidean Real.sqrt).distance a b := by
  have gap : ∑ k, (a k - b k) * (a k - b k) = 2 * (1 - ∑ k, a k * b k) := by
    have hterm : ∀ k, (a k - b k) * (a k - b k) = a k * a k + b k * b k - 2 * (a k * b k) := fun k => by ring
    rw [Finset.sum_congr rfl (fun k _ => hterm k), Finset.sum_sub_distrib, Finset.sum_add_distrib, ha, hb,
      ← Finset.mul_sum]
    ring
  have hgap : 0 ≤ 2 * (1 - ∑ k, a k * b k) := by
    rw [← gap]
    exact Finset.sum_nonneg (fun k _ => mul_self_nonneg _)
  have hdot : ¬∑ k, a k * b k > 1 := by linarith
  change initialDistance Real.sqrt a b = Real.sqrt (∑ k, (a k - b k) * (a k - b k))
  unfold initialDistance
  norm_num only [if_neg hdot, if_neg (not_lt.2 hgap), gap]

theorem euclidean_distance_eq (a b : Fin dim → ℝ) :
    (euclidean Real.sqrt).distance a b = dist (WithLp.toLp 2 a) (WithLp.toLp 2 b) := by
  rw [EuclideanSpace.dist_eq]
  refine congrArg Real.sqrt (Finset.sum_congr rfl (fun k _ => ?_))
  rw [Real.dist_eq, sq_abs, sq]

theorem euclidean_symm (a b : Fin dim → ℝ) :
    (euclidean Real.sqrt).distance a b = (euclidean Real.sqrt).distance b a := by
  rw [euclidean_distance_eq, euclidean_distance_eq, dist_comm]

theorem start_coherent {embeddings : Fin n → Fin dim → ℝ} (nonzero : ∀ i, embeddings i ≠ 0) :
    Coherent (euclidean Real.sqrt) (unguardedStart embeddings) := by
  refine ⟨fun k => iff_of_true rfl rfl, fun a b _ _ hab => ?_⟩
  have start : (unguardedStart embeddings).distMatrix a b = initialDistance Real.sqrt
      (normalizedWith Real.sqrt 0 (embeddings a)) (normalizedWith Real.sqrt 0 (embeddings b)) := if_neg hab
  rw [start, initialDistance_eq (normalizedWith_unit (nonzero a)) (normalizedWith_unit (nonzero b))]
  rfl

theorem start_averaged (embeddings : Fin n → Fin dim → ℝ) :
    Averaged (fun i => normalizedWith Real.sqrt 0 (embeddings i)) (unguardedStart embeddings) := by
  have alone : ∀ k, members (unguardedStart embeddings) k = {k} := by
    intro k
    ext p
    rw [mem_members, Finset.mem_singleton]
    exact Eq.congr (ParentForest.root_discrete p) rfl
  refine ⟨fun k _ => ?_, fun k _ => ?_⟩
  · rw [alone, Finset.card_singleton]
    rfl
  · rw [alone, mean_singleton]
    rfl

end Start

/-- After every merge, centroids are means of the points merged, sizes their numbers, and the
    distances kept for active clusters those of the centroids. -/
theorem simpleAhc_cache (embeddings : Fin n → Fin dim → ℝ) (nonzero : ∀ i, embeddings i ≠ 0)
    (threshold : ExactFloat ℝ) {S : AhcState (Fin dim → ℝ) ℝ n}
    (h : Visited (euclidean Real.sqrt) threshold (unguardedStart embeddings) S) :
    (∀ i, S.active i = true →
      S.centroids i = mean (fun p => normalizedWith Real.sqrt 0 (embeddings p)) (members S i) ∧
        S.clusterSize i = (members S i).card) ∧
    ∀ i j, S.active i = true → S.active j = true → i ≠ j →
      S.distMatrix i j = dist (WithLp.toLp 2 (S.centroids i)) (WithLp.toLp 2 (S.centroids j)) ∧
        S.distMatrix j i = S.distMatrix i j := by
  have kept : Coherent (euclidean Real.sqrt) S ∧
      Averaged (fun p => normalizedWith Real.sqrt 0 (embeddings p)) S := by
    refine h.invariant (fun S => Coherent (euclidean Real.sqrt) S ∧ Averaged _ S) ?_ ?_
    · rintro S rfl
      exact ⟨start_coherent nonzero, start_averaged embeddings⟩
    · intro S e U hS hs
      obtain ⟨i, j, hij, -, hi, hj, -, -, -, rfl⟩ := mergeStep_some hs
      exact ⟨hS.1.merge euclidean_symm hij hi, hS.2.merge hS.1 hij hi hj⟩
  obtain ⟨coherent, averaged⟩ := kept
  refine ⟨fun i hi => ⟨averaged.centroid i hi, averaged.size i hi⟩, fun i j hi hj hij => ?_⟩
  rw [coherent.cached i j hi hj hij, coherent.cached j i hj hi hij.symm]
  exact ⟨euclidean_distance_eq _ _, euclidean_symm _ _⟩

def threePoints (i : Fin 3) (_ : Fin 1) : ℝ := if i.val = 2 then -1 else 1

theorem threePoints_start {i j : Fin 3} (hij : i ≠ j) : (unguardedStart threePoints).distMatrix i j =
    if i.val = 2 ∨ j.val = 2 then 2 else 0 := by
  have unit : ∀ k, normalizedWith Real.sqrt 0 (threePoints k) = threePoints k := by
    intro k
    funext d
    fin_cases k <;> simp [normalizedWith, threePoints]
  have entry : (unguardedStart threePoints).distMatrix i j =
      initialDistance Real.sqrt (threePoints i) (threePoints j) := by
    change distanceMatrix Real.sqrt (fun k => normalizedWith Real.sqrt 0 (threePoints k)) i j = _
    rw [distanceMatrix, if_neg hij, unit, unit]
  have four : Real.sqrt 4 = 2 := by
    rw [show (4 : ℝ) = 2 ^ 2 by norm_num]
    exact Real.sqrt_sq zero_le_two
  rw [entry]
  fin_cases i <;> fin_cases j <;> first | exact absurd rfl hij | norm_num [initialDistance, threePoints, four]

theorem threePoints_step : mergeStep (euclidean Real.sqrt) (.finite (1 / 2)) (unguardedStart threePoints) =
    some (⟨0, 0, 1⟩, (unguardedStart threePoints).merge (euclidean Real.sqrt) 0 1 (by decide)) := by
  have first : (unguardedStart threePoints).distMatrix 0 1 = 0 := threePoints_start (by decide)
  have nearest : bestPair (unguardedStart threePoints) = some (0, 1) := by
    have order : scanOrder (unguardedStart threePoints).active = [(0, 1), (0, 2), (1, 2)] := by
      change scanOrder (fun _ => true) = _
      decide
    have second : (unguardedStart threePoints).distMatrix 0 2 = 2 := threePoints_start (by decide)
    have third : (unguardedStart threePoints).distMatrix 1 2 = 2 := threePoints_start (by decide)
    unfold bestPair
    rw [order]
    norm_num [FirstMinimum.scan, FirstMinimum.keep, first, second, third]
  unfold mergeStep
  rw [if_neg (by decide)]
  split
  · next none =>
    rw [nearest] at none
    cases none
  · next p found =>
    rw [nearest] at found
    cases found
    dsimp only
    rw [first]
    norm_num

/-- After the two equal points were merged. -/
theorem simpleAhc_cache_merged : ∃ S, mergeStep (euclidean Real.sqrt) (.finite (1 / 2)) (unguardedStart threePoints) =
      some (⟨0, 0, 1⟩, S) ∧
    (S.centroids 0 = mean (fun p => normalizedWith Real.sqrt 0 (threePoints p)) (members S 0) ∧
      S.clusterSize 0 = (members S 0).card ∧ S.clusterSize 0 = 2) ∧
    S.distMatrix 0 2 = dist (WithLp.toLp 2 (S.centroids 0)) (WithLp.toLp 2 (S.centroids 2)) ∧
      S.distMatrix 2 0 = S.distMatrix 0 2 := by
  have nonzero : ∀ i, threePoints i ≠ 0 := by
    intro i zero
    have first := congrFun zero 0
    fin_cases i <;> simp [threePoints] at first
  have cache := simpleAhc_cache threePoints nonzero (.finite (1 / 2)) (.step (.start rfl) threePoints_step)
  exact ⟨_, threePoints_step, ⟨(cache.1 0 rfl).1, (cache.1 0 rfl).2, rfl⟩, cache.2 0 2 rfl rfl (by decide)⟩

end PyannoteCpp.SimpleAhc

import PyannoteCpp.AgglomerativeClustering
import PyannoteCpp.CosineGeometry

set_option autoImplicit false

/-!
# The partition kept by the merges and the order of their values

A merge keeps the members, keeps the clusters in the order of their first
members, and cannot bring an average below the value just merged: the average
over a union lies between the averages over its parts.
-/
namespace PyannoteCpp.AgglomerativeClustering

section Positions

variable {α : Type*} (join : α → α → α)

theorem mergeAt_perm {l : List α} {i j : ℕ} (hij : i < j) (hj : j < l.length) :
    ∃ G, l.Perm (l[i] :: l[j] :: G) ∧ (mergeAt join l i j).Perm (join l[i] l[j] :: G) := by
  obtain ⟨A, a, B, b, C, rfl, rfl, rfl, h⟩ := exists_mergeAt join hij hj
  have hb : (A ++ a :: (B ++ b :: C))[A.length + B.length + 1] = b := by
    rw [List.getElem_append_right (by omega)]
    simp [show A.length + B.length + 1 - A.length = B.length + 1 by omega]
  refine ⟨A ++ (B ++ C), ?_, ?_⟩
  · rw [List.getElem_append_right (le_refl _), hb]
    simp only [Nat.sub_self, List.getElem_cons_zero]
    refine List.perm_middle.trans (List.Perm.cons a ?_)
    rw [← List.append_assoc, ← List.append_assoc]
    exact List.perm_middle
  · rw [List.getElem_append_right (le_refl _), hb, h]
    simp only [Nat.sub_self, List.getElem_cons_zero]
    exact List.perm_middle

theorem pairwise_mergeAt {R : α → α → Prop} (left : ∀ a b c, R c a → R c b → R c (join a b))
    (right : ∀ a b c, R a c → R (join a b) c) {l : List α} {i j : ℕ} (hij : i < j)
    (hj : j < l.length) (h : l.Pairwise R) : (mergeAt join l i j).Pairwise R := by
  obtain ⟨A, a, B, b, C, rfl, -, -, hm⟩ := exists_mergeAt join hij hj
  rw [hm]
  simp only [List.pairwise_append, List.pairwise_cons, List.mem_cons, List.mem_append] at h ⊢
  obtain ⟨hA, ⟨ha, hB, ⟨-, hC⟩, hBC⟩, hA'⟩ := h
  refine ⟨hA, ⟨?_, hB, hC, fun x hx y hy => hBC x hx y (Or.inr hy)⟩, ?_⟩
  · rintro y (hy | hy)
    · exact right a b y (ha y (Or.inl hy))
    · exact right a b y (ha y (Or.inr (Or.inr hy)))
  · rintro x hx y (rfl | hy | hy)
    · exact left a b x (hA' x hx a (Or.inl rfl)) (hA' x hx b (Or.inr (Or.inr (Or.inl rfl))))
    · exact hA' x hx y (Or.inr (Or.inl hy))
    · exact hA' x hx y (Or.inr (Or.inr (Or.inr hy)))

end Positions

section Averages

variable {K P : Type*} [Field K] (d : P → P → K)

def crossSum (A B : List P) : K := (A.map (fun i => (B.map (d i)).sum)).sum

def meanDistance (A B : List P) : K := crossSum d A B / (A.length * B.length : ℕ)

variable {d}

theorem crossSum_append_left (A B C : List P) :
    crossSum d (A ++ B) C = crossSum d A C + crossSum d B C := by
  simp [crossSum]

theorem crossSum_append_right (A B C : List P) :
    crossSum d A (B ++ C) = crossSum d A B + crossSum d A C := by
  simp [crossSum, List.sum_map_add]

theorem crossSum_comm (symm : ∀ i j, d i j = d j i) (A B : List P) :
    crossSum d A B = crossSum d B A := by
  induction A with
  | nil => simp [crossSum]
  | cons a A ih =>
    have ha : crossSum d [a] B = crossSum d B [a] := by
      simp only [crossSum, List.map_cons, List.map_nil, List.sum_cons, List.sum_nil, add_zero]
      exact congrArg List.sum (List.map_congr_left (fun j _ => symm a j))
    rw [← List.singleton_append, crossSum_append_left, crossSum_append_right, ih, ha]

theorem meanDistance_comm (symm : ∀ i j, d i j = d j i) (A B : List P) :
    meanDistance d A B = meanDistance d B A := by
  rw [meanDistance, meanDistance, crossSum_comm symm, Nat.mul_comm]

variable [LinearOrder K] [IsStrictOrderedRing K]

theorem le_meanDistance_iff {v : K} {A B : List P} (hA : A ≠ []) (hB : B ≠ []) :
    v ≤ meanDistance d A B ↔ v * (A.length * B.length : ℕ) ≤ crossSum d A B := by
  have hpos : (0 : K) < (A.length * B.length : ℕ) :=
    Nat.cast_pos.2 (Nat.mul_pos (List.length_pos_iff.2 hA) (List.length_pos_iff.2 hB))
  exact le_div_iff₀ hpos

theorem le_meanDistance_append {v : K} {A B C : List P} (hA : A ≠ []) (hB : B ≠ []) (hC : C ≠ [])
    (h₁ : v ≤ meanDistance d A C) (h₂ : v ≤ meanDistance d B C) :
    v ≤ meanDistance d (A ++ B) C := by
  rw [le_meanDistance_iff hA hC] at h₁
  rw [le_meanDistance_iff hB hC] at h₂
  rw [le_meanDistance_iff (by simp [hA]) hC, crossSum_append_left, List.length_append, add_mul,
    Nat.cast_add, mul_add]
  exact add_le_add h₁ h₂

end Averages

variable {K : Type*} [Field K] {n dim : ℕ}

theorem linkageSum_eq (embeddings : Fin n → Fin dim → K) (c₁ c₂ : Cluster n) :
    linkageSum embeddings c₁ c₂ =
      (crossSum (fun i j => cosineDistance (embeddings i) (embeddings j)) c₁.members c₂.members,
        c₁.members.length * c₂.members.length) := by
  have inner : ∀ (i : Fin n) (l : List (Fin n)) (acc : K × ℕ), l.foldl
      (fun acc j => (acc.1 + cosineDistance (embeddings i) (embeddings j), acc.2 + 1)) acc =
      (acc.1 + (l.map (fun j => cosineDistance (embeddings i) (embeddings j))).sum,
        acc.2 + l.length) := by
    intro i l
    induction l with
    | nil => simp
    | cons j l ih =>
      intro acc
      rw [List.foldl_cons, ih]
      simp only [List.map_cons, List.sum_cons, List.length_cons, Prod.mk.injEq]
      exact ⟨by ring, by ring⟩
  have outer : ∀ (l : List (Fin n)) (acc : K × ℕ), l.foldl (fun acc i => c₂.members.foldl
      (fun acc j => (acc.1 + cosineDistance (embeddings i) (embeddings j), acc.2 + 1)) acc) acc =
      (acc.1 + crossSum (fun i j => cosineDistance (embeddings i) (embeddings j)) l c₂.members,
        acc.2 + l.length * c₂.members.length) := by
    intro l
    induction l with
    | nil => simp [crossSum]
    | cons i l ih =>
      intro acc
      rw [List.foldl_cons, inner, ih]
      simp only [crossSum, List.map_cons, List.sum_cons, List.length_cons, Prod.mk.injEq]
      exact ⟨by ring, by ring⟩
  rw [linkageSum, outer]
  simp

theorem cosineDistance_eq (a b : Fin dim → K) : cosineDistance a b = 1 - ∑ i, a i * b i := by
  have sum : ∀ (l : List (Fin dim)) (x : K),
      l.foldl (fun dot i => dot + a i * b i) x = x + (l.map (fun i => a i * b i)).sum := by
    intro l
    induction l with
    | nil => simp
    | cons i l ih =>
      intro x
      rw [List.foldl_cons, ih, List.map_cons, List.sum_cons, add_assoc]
  rw [cosineDistance, sum, zero_add, ← List.sum_ofFn, List.ofFn_eq_map]

theorem cosineDistance_comm (a b : Fin dim → K) : cosineDistance a b = cosineDistance b a := by
  rw [cosineDistance_eq, cosineDistance_eq]
  exact congrArg (1 - ·) (Finset.sum_congr rfl (fun i _ => mul_comm _ _))

theorem cosineDistance_unit {a b : Fin dim → ℝ} (ha : CosineGeometry.length a = 1)
    (hb : CosineGeometry.length b = 1) : cosineDistance a b = CosineGeometry.cosineGap a b := by
  rw [cosineDistance_eq]
  exact (CosineGeometry.dot_gap_iff ha).2 (Or.inl hb)

abbrev gap (embeddings : Fin n → Fin dim → K) (i j : Fin n) : K :=
  cosineDistance (embeddings i) (embeddings j)

theorem averageLinkage_eq (embeddings : Fin n → Fin dim → K) {c₁ c₂ : Cluster n}
    (h₁ : c₁.members ≠ []) (h₂ : c₂.members ≠ []) : averageLinkage embeddings c₁ c₂ =
      meanDistance (gap embeddings) c₁.members c₂.members := by
  have hpos : 0 < c₁.members.length * c₂.members.length :=
    Nat.mul_pos (List.length_pos_iff.2 h₁) (List.length_pos_iff.2 h₂)
  rw [averageLinkage, linkageSum_eq]
  exact if_pos hpos

/-- Every member of `d` comes after some member of `c`. -/
def Cluster.Precedes (c d : Cluster n) : Prop := ∀ b ∈ d.members, ∃ a ∈ c.members, a < b

structure Canonical (clusters : List (Cluster n)) : Prop where
  nonempty : ∀ c ∈ clusters, c.members ≠ []
  once : (clusters.flatMap Cluster.members).Perm (List.finRange n)
  ordered : clusters.Pairwise Cluster.Precedes

theorem initialClusters_canonical (n : ℕ) : Canonical (initialClusters n) where
  nonempty := by simp [initialClusters]
  once := by simp [initialClusters, List.flatMap_map]
  ordered := by
    rw [initialClusters, List.pairwise_map]
    exact (List.pairwise_lt_finRange n).imp (fun h b hb => ⟨_, List.mem_singleton_self _, by simp_all⟩)

theorem Canonical.merge {clusters : List (Cluster n)} (h : Canonical clusters) {i j : ℕ} (hij : i < j)
    (hj : j < clusters.length) : Canonical (mergeAt Cluster.insert clusters i j) := by
  obtain ⟨G, hl, hm⟩ := mergeAt_perm Cluster.insert hij hj
  refine ⟨fun c hc => ?_, ?_, ?_⟩
  · rcases List.mem_cons.1 (hm.mem_iff.1 hc) with rfl | hc
    · have hi := h.nonempty _ (List.getElem_mem (hij.trans hj))
      simp [Cluster.insert, hi]
    · exact h.nonempty c (hl.mem_iff.2 (by simp [hc]))
  · refine ((hm.flatMap_right _).trans ?_).trans h.once
    refine List.Perm.trans ?_ (hl.flatMap_right _).symm
    simp [Cluster.insert]
  · refine pairwise_mergeAt Cluster.insert ?_ ?_ hij hj h.ordered
    · intro a b c ha hb x hx
      rcases List.mem_append.1 hx with hx | hx
      · exact ha x hx
      · exact hb x hx
    · intro a b c ha x hx
      obtain ⟨y, hy, hyx⟩ := ha x hx
      exact ⟨y, List.mem_append_left _ hy, hyx⟩

variable {embeddings : Fin n → Fin dim → K} {threshold : ExactFloat K}

theorem Canonical.pairLinkage_eq {clusters : List (Cluster n)} (h : Canonical clusters)
    (i j : Fin clusters.length) : pairLinkage embeddings clusters (i, j) =
      meanDistance (gap embeddings) (clusters.get i).members (clusters.get j).members :=
  averageLinkage_eq embeddings (h.nonempty _ (List.getElem_mem _)) (h.nonempty _ (List.getElem_mem _))

variable [LinearOrder K]

theorem Canonical.step {clusters next : List (Cluster n)} {e : Merge K} (h : Canonical clusters)
    (hs : mergeStep embeddings threshold clusters = some (e, next)) : Canonical next := by
  obtain ⟨i, j, hij, rfl, -, -, rfl⟩ := mergeStep_some hs
  exact h.merge hij j.isLt

theorem finalClusters_canonical (embeddings : Fin n → Fin dim → K) (threshold : ExactFloat K) :
    Canonical (finalClusters embeddings threshold) :=
  (mergeLoop embeddings threshold).run_invariant (fun _ _ _ => Canonical.step)
    (initialClusters_canonical n)

section Floor

/-- No two clusters are closer than `v`. -/
def Floor (embeddings : Fin n → Fin dim → K) (v : K) (clusters : List (Cluster n)) : Prop :=
  clusters.Pairwise (fun c d => v ≤ meanDistance (gap embeddings) c.members d.members)

theorem floor_of_pairs {clusters : List (Cluster n)} (h : Canonical clusters) {v : K}
    (hv : ∀ q : Fin clusters.length × Fin clusters.length, q.1 < q.2 →
      v ≤ pairLinkage embeddings clusters q) : Floor embeddings v clusters := by
  refine List.pairwise_iff_getElem.2 (fun i j hi hj hij => ?_)
  have hq := hv (⟨i, hi⟩, ⟨j, hj⟩) hij
  rwa [h.pairLinkage_eq] at hq

theorem Floor.le_dist {clusters next : List (Cluster n)} {e : Merge K} (h : Canonical clusters) {v : K}
    (hv : Floor embeddings v clusters)
    (hs : mergeStep embeddings threshold clusters = some (e, next)) : v ≤ e.dist := by
  obtain ⟨i, j, hij, rfl, -, -, -⟩ := mergeStep_some hs
  have hp := List.pairwise_iff_getElem.1 hv i j i.isLt j.isLt hij
  dsimp only
  rwa [h.pairLinkage_eq]

variable [IsStrictOrderedRing K]

/-- Average linkage is reducible: a merge keeps every floor. -/
theorem Floor.merge {clusters : List (Cluster n)} (h : Canonical clusters) {v : K}
    (hv : Floor embeddings v clusters) {i j : ℕ} (hij : i < j) (hj : j < clusters.length) :
    Floor embeddings v (mergeAt Cluster.insert clusters i j) := by
  obtain ⟨G, hl, hm⟩ := mergeAt_perm Cluster.insert hij hj
  have symm : ∀ {c d : Cluster n}, v ≤ meanDistance (gap embeddings) c.members d.members →
      v ≤ meanDistance (gap embeddings) d.members c.members := by
    intro c d hcd
    rwa [meanDistance_comm (fun _ _ => cosineDistance_comm _ _)]
  have before := (hl.pairwise_iff symm).1 hv
  simp only [List.pairwise_cons, List.mem_cons] at before
  obtain ⟨hi, hj', hG⟩ := before
  refine (hm.pairwise_iff symm).2 (List.pairwise_cons.2 ⟨fun c hc => ?_, hG⟩)
  have hne : ∀ c ∈ clusters[i] :: clusters[j] :: G, c.members ≠ [] :=
    fun c hc => h.nonempty c (hl.mem_iff.2 hc)
  exact le_meanDistance_append (hne _ (by simp)) (hne _ (by simp)) (hne c (by simp [hc]))
    (hi c (Or.inr hc)) (hj' c hc)

theorem Floor.step {clusters next : List (Cluster n)} {e : Merge K} (h : Canonical clusters)
    (hs : mergeStep embeddings threshold clusters = some (e, next)) :
    Floor embeddings e.dist next := by
  obtain ⟨i, j, hij, rfl, hall, -, rfl⟩ := mergeStep_some hs
  exact (floor_of_pairs h hall).merge h hij j.isLt

theorem linkageValues_sorted (embeddings : Fin n → Fin dim → K) (threshold : ExactFloat K) :
    (linkageValues embeddings threshold).Pairwise (· ≤ ·) := by
  rw [linkageValues, List.pairwise_map]
  refine (mergeLoop embeddings threshold).run_pairwise (I := Canonical)
    (r := fun e f => e.dist ≤ f.dist) (fun _ _ _ => le_trans)
    (fun _ _ _ => Canonical.step) ?_ (initialClusters_canonical n)
  intro s e u f v hs he hf
  exact (Floor.step hs he).le_dist (hs.step he) hf

end Floor

end PyannoteCpp.AgglomerativeClustering

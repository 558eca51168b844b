import PyannoteCpp.AgglomerativePartition
import PyannoteCpp.MergeTree

set_option autoImplicit false

/-!
# The labels as a cut of the average-linkage dendrogram

The dendrogram is what the same loop builds when no value is refused. The run
under a threshold is the first part of that run, and after it every merge lies
over a pair of clusters the threshold keeps apart.
-/
namespace PyannoteCpp.AgglomerativeClustering
open ExactFloat (Admits)
open MergeTree

variable {K : Type*} {n dim : ℕ}

section Labels

theorem foldl_members (l : List (Fin n)) (k : ℤ) (labels : Fin n → ℤ) (p : Fin n) :
    l.foldl (fun labels idx => Function.update labels idx k) labels p =
      if p ∈ l then k else labels p := by
  induction l generalizing labels with
  | nil => simp
  | cons a l ih =>
    rw [List.foldl_cons, ih]
    by_cases hl : p ∈ l
    · simp [hl]
    · by_cases ha : p = a <;> simp [hl, ha]

theorem foldl_labels {l : List (Cluster n × ℕ)} {p : Fin n} {k : ℕ}
    (hmem : ∃ c ∈ l, p ∈ c.1.members) (hk : ∀ c ∈ l, p ∈ c.1.members → c.2 = k)
    (labels : Fin n → ℤ) : l.foldl (fun labels c => c.1.members.foldl
      (fun labels idx => Function.update labels idx (c.2 : ℤ)) labels) labels p = k := by
  induction l using List.reverseRecOn with
  | nil => simp at hmem
  | append_singleton l c ih =>
    rw [List.foldl_append, List.foldl_cons, List.foldl_nil, foldl_members]
    by_cases hc : p ∈ c.1.members
    · rw [if_pos hc, hk c (by simp) hc]
    · rw [if_neg hc]
      refine ih ?_ (fun d hd => hk d (List.mem_append_left _ hd))
      obtain ⟨d, hd, hp⟩ := hmem
      rcases List.mem_append.1 hd with hd | hd
      · exact ⟨d, hd, hp⟩
      · rw [List.mem_singleton.1 hd] at hp
        exact absurd hp hc

variable {clusters : List (Cluster n)} (h : Canonical clusters)
include h

theorem Canonical.unique {p : Fin n} {k l : ℕ} {hk : k < clusters.length} {hl : l < clusters.length}
    (hp : p ∈ clusters[k].members) (hq : p ∈ clusters[l].members) : k = l := by
  have hnd := (List.nodup_flatMap.1 (h.once.nodup_iff.2 (List.nodup_finRange n))).2
  rcases Nat.lt_trichotomy k l with hkl | hkl | hkl
  · exact absurd hq (List.pairwise_iff_getElem.1 hnd k l hk hl hkl hp)
  · exact hkl
  · exact absurd hp (List.pairwise_iff_getElem.1 hnd l k hl hk hkl hq)

theorem Canonical.exists_member (p : Fin n) : ∃ k : Fin clusters.length, p ∈ clusters[k].members := by
  obtain ⟨c, hc, hp⟩ := List.mem_flatMap.1 (h.once.mem_iff.2 (List.mem_finRange p))
  obtain ⟨k, hk, rfl⟩ := List.mem_iff_getElem.1 hc
  exact ⟨⟨k, hk⟩, hp⟩

theorem Canonical.label_of_mem {p : Fin n} {k : Fin clusters.length}
    (hp : p ∈ clusters[k].members) : writeLabels clusters p = k := by
  refine foldl_labels ⟨(clusters[k], k), List.mk_mem_zipIdx_iff_getElem?.2 (by simp), hp⟩ ?_ _
  rintro ⟨c, l⟩ hc hpc
  obtain ⟨hl, rfl⟩ := List.getElem?_eq_some_iff.1 (List.mk_mem_zipIdx_iff_getElem?.1 hc)
  exact h.unique hpc hp

theorem Canonical.label_eq_iff {p : Fin n} {k : Fin clusters.length} :
    writeLabels clusters p = k ↔ p ∈ clusters[k].members := by
  obtain ⟨l, hl⟩ := h.exists_member p
  constructor
  · intro hp
    rw [h.label_of_mem hl] at hp
    have hkl : l = k := Fin.ext (by exact_mod_cast hp)
    rwa [← hkl]
  · exact h.label_of_mem

theorem Canonical.label_range (p : Fin n) :
    0 ≤ writeLabels clusters p ∧ writeLabels clusters p < clusters.length := by
  obtain ⟨k, hk⟩ := h.exists_member p
  rw [h.label_of_mem hk]
  exact ⟨by omega, by exact_mod_cast k.isLt⟩

theorem Canonical.label_used (k : Fin clusters.length) : ∃ p, writeLabels clusters p = k := by
  obtain ⟨p, hp⟩ := List.exists_mem_of_ne_nil _ (h.nonempty _ (List.getElem_mem k.isLt))
  exact ⟨p, h.label_of_mem hp⟩

theorem Canonical.label_first {p : Fin n} {k : ℤ} (h0 : 0 ≤ k) (hk : k < writeLabels clusters p) :
    ∃ q < p, writeLabels clusters q = k := by
  obtain ⟨l, hl⟩ := h.exists_member p
  obtain ⟨m, rfl⟩ := Int.eq_ofNat_of_zero_le h0
  rw [h.label_of_mem hl] at hk
  have hml : m < l := by exact_mod_cast hk
  obtain ⟨q, hq, hqp⟩ := List.pairwise_iff_getElem.1 h.ordered m l (hml.trans l.isLt) l.isLt hml p hl
  exact ⟨q, hqp, h.label_of_mem (k := ⟨m, hml.trans l.isLt⟩) hq⟩

theorem Canonical.label_eq_label {p q : Fin n} : writeLabels clusters p = writeLabels clusters q ↔
    ∃ c ∈ clusters, p ∈ c.members ∧ q ∈ c.members := by
  obtain ⟨k, hk⟩ := h.exists_member p
  rw [h.label_of_mem hk]
  constructor
  · intro hq
    exact ⟨_, List.getElem_mem k.isLt, hk, h.label_eq_iff.1 hq.symm⟩
  · rintro ⟨c, hc, hp, hq⟩
    obtain ⟨l, hl, rfl⟩ := List.mem_iff_getElem.1 hc
    have hkl : (k : ℕ) = l := h.unique hk hp
    rw [h.label_of_mem (k := ⟨l, hl⟩) hq, hkl]

end Labels

variable [Field K] [LinearOrder K]

theorem agglomerativeClustering_eq (embeddings : Fin n → Fin dim → K) (threshold : ExactFloat K) :
    agglomerativeClustering embeddings threshold =
      writeLabels (finalClusters embeddings threshold) := by
  have h := finalClusters_canonical embeddings threshold
  funext p
  unfold agglomerativeClustering
  split_ifs with h0 h1
  · subst h0
    exact p.elim0
  · subst h1
    by_contra hne
    have hpos : 0 < writeLabels (finalClusters embeddings threshold) p :=
      lt_of_le_of_ne (h.label_range p).1 hne
    obtain ⟨q, hq, -⟩ := h.label_first le_rfl hpos
    omega
  · rfl

def graft (F : List (MergeTree K (Fin n))) (e : Merge K) : List (MergeTree K (Fin n)) :=
  mergeAt (node e.dist) F e.i e.j

def leaves (K : Type*) (n : ℕ) : List (MergeTree K (Fin n)) := (List.finRange n).map leaf

/-- The trees the merges of a run build. -/
def forest (embeddings : Fin n → Fin dim → K) (threshold : ExactFloat K) :
    List (MergeTree K (Fin n)) :=
  ((mergeLoop embeddings threshold).run (initialClusters n)).1.foldl graft (leaves K n)

def dendrogram (embeddings : Fin n → Fin dim → K) : List (MergeTree K (Fin n)) :=
  forest embeddings (.inf false)

/-- The height of every merge is the average distance between the two sides. -/
def AverageLinked (embeddings : Fin n → Fin dim → K) (t : MergeTree K (Fin n)) : Prop :=
  ∀ a l r, node a l r ∈ t.subtrees → a = meanDistance (gap embeddings) l.points r.points

structure Grown (embeddings : Fin n → Fin dim → K) (clusters : List (Cluster n))
    (F : List (MergeTree K (Fin n))) : Prop where
  canonical : Canonical clusters
  points : F.map MergeTree.points = clusters.map Cluster.members
  linked : ∀ t ∈ F, AverageLinked embeddings t

variable {embeddings : Fin n → Fin dim → K} {threshold : ExactFloat K}
  {clusters next : List (Cluster n)} {F : List (MergeTree K (Fin n))} {e : Merge K}

omit [LinearOrder K] in
theorem initial_grown (embeddings : Fin n → Fin dim → K) :
    Grown embeddings (initialClusters n) (leaves K n) where
  canonical := initialClusters_canonical n
  points := by simp [leaves, initialClusters, Function.comp_def]
  linked := by simp [leaves, AverageLinked, subtrees]

omit [LinearOrder K] in
theorem Grown.length_eq (h : Grown embeddings clusters F) : F.length = clusters.length := by
  have hl := congrArg List.length h.points
  rwa [List.length_map, List.length_map] at hl

omit [LinearOrder K] in
theorem Grown.points_getElem (h : Grown embeddings clusters F) {i : ℕ} (hi : i < F.length) :
    F[i].points = (clusters.get ⟨i, h.length_eq ▸ hi⟩).members := by
  have hp := List.getElem_of_eq h.points (i := i) (by rwa [List.length_map])
  rwa [List.getElem_map, List.getElem_map] at hp

/-- One turn, seen on the forest: two trees and the average between them. -/
theorem Grown.turn (h : Grown embeddings clusters F)
    (hs : mergeStep embeddings threshold clusters = some (e, next)) :
    ∃ l r G, F.Perm (l :: r :: G) ∧ (graft F e).Perm (node e.dist l r :: G) ∧
      e.dist = meanDistance (gap embeddings) l.points r.points := by
  obtain ⟨i, j, hij, rfl, -, -, -⟩ := mergeStep_some hs
  have hj : (j : ℕ) < F.length := by
    rw [h.length_eq]
    exact j.isLt
  obtain ⟨G, hF, hG⟩ := mergeAt_perm (node (pairLinkage embeddings clusters (i, j))) hij hj
  refine ⟨_, _, G, hF, hG, ?_⟩
  rw [h.points_getElem, h.points_getElem]
  exact h.canonical.pairLinkage_eq i j

theorem Grown.step (h : Grown embeddings clusters F)
    (hs : mergeStep embeddings threshold clusters = some (e, next)) :
    Grown embeddings next (graft F e) := by
  obtain ⟨l, r, G, hF, hG, hd⟩ := h.turn hs
  obtain ⟨i, j, -, rfl, -, -, rfl⟩ := mergeStep_some hs
  refine ⟨h.canonical.step hs, ?_, fun t ht => ?_⟩
  · rw [graft, map_mergeAt _ _ (· ++ ·) (fun _ _ => rfl), h.points]
    exact (map_mergeAt _ _ (· ++ ·) (fun _ _ => rfl) _ _ _).symm
  · rcases List.mem_cons.1 (hG.mem_iff.1 ht) with rfl | ht
    · intro a s t hst
      rw [subtrees, List.mem_cons, List.mem_append] at hst
      rcases hst with hst | hst | hst
      · cases hst
        exact hd
      · exact h.linked l (hF.mem_iff.2 (by simp)) a s t hst
      · exact h.linked r (hF.mem_iff.2 (by simp)) a s t hst
    · exact h.linked t (hF.mem_iff.2 (by simp [ht]))

theorem forest_grown (embeddings : Fin n → Fin dim → K) (threshold : ExactFloat K) :
    Grown embeddings (finalClusters embeddings threshold) (forest embeddings threshold) :=
  (mergeLoop embeddings threshold).ghost_invariant graft (fun _ _ _ _ => Grown.step)
    (initial_grown embeddings)

theorem forest_within (embeddings : Fin n → Fin dim → K) (threshold : ExactFloat K) :
    ∀ t ∈ forest embeddings threshold, t.Within (Admits threshold) := by
  have h := (mergeLoop embeddings threshold).ghost_invariant graft
    (I := fun clusters F => Grown embeddings clusters F ∧ ∀ t ∈ F, t.Within (Admits threshold))
    (fun s F e u h hs => ?_) (s := initialClusters n) (a := leaves K n)
    ⟨initial_grown embeddings, by simp [leaves, Within]⟩
  · exact h.2
  · obtain ⟨l, r, G, hF, hG, -⟩ := h.1.turn hs
    obtain ⟨i, j, -, -, -, ht, -⟩ := mergeStep_some hs
    refine ⟨h.1.step hs, fun t hmem => ?_⟩
    rcases List.mem_cons.1 (hG.mem_iff.1 hmem) with rfl | hmem
    · exact ⟨ht, h.2 l (hF.mem_iff.2 (by simp)), h.2 r (hF.mem_iff.2 (by simp))⟩
    · exact h.2 t (hF.mem_iff.2 (by simp [hmem]))

/-- Two trees without a refused merge are further apart than the threshold. -/
def Separated (embeddings : Fin n → Fin dim → K) (threshold : ExactFloat K)
    (F : List (MergeTree K (Fin n))) : Prop :=
  F.Pairwise (fun s t => s.Within (Admits threshold) → t.Within (Admits threshold) →
    ¬ Admits threshold (meanDistance (gap embeddings) s.points t.points))

/-- A later turn of the unlimited loop: its merge is refused, and so are those above it. -/
theorem Separated.turn (hsep : Separated embeddings threshold F) (h : Grown embeddings clusters F)
    {t' : ExactFloat K} (hs : mergeStep embeddings t' clusters = some (e, next)) :
    Separated embeddings threshold (graft F e) ∧
      ∀ p q, Joined (Admits threshold) (graft F e) p q ↔ Joined (Admits threshold) F p q := by
  obtain ⟨l, r, G, hF, hG, hd⟩ := h.turn hs
  have symm : ∀ {s t : MergeTree K (Fin n)},
      (s.Within (Admits threshold) → t.Within (Admits threshold) →
        ¬ Admits threshold (meanDistance (gap embeddings) s.points t.points)) →
      t.Within (Admits threshold) → s.Within (Admits threshold) →
        ¬ Admits threshold (meanDistance (gap embeddings) t.points s.points) := by
    intro s t hst ht hs
    rw [meanDistance_comm (fun _ _ => cosineDistance_comm _ _)]
    exact hst hs ht
  have pairs := List.pairwise_cons.1 ((hF.pairwise_iff symm).1 hsep)
  have refused : ¬ (node e.dist l r).Within (Admits threshold) := by
    rintro ⟨ha, hl, hr⟩
    rw [hd] at ha
    exact pairs.1 r List.mem_cons_self hl hr ha
  refine ⟨(hG.pairwise_iff symm).2 (List.pairwise_cons.2 ⟨fun t _ ht => absurd ht refused,
    (List.pairwise_cons.1 pairs.2).2⟩), fun p q => ?_⟩
  exact joined_refused refused (G := G) (fun t => by simp [hF.mem_iff]) (fun t => by simp [hG.mem_iff])

theorem finalClusters_stopped (embeddings : Fin n → Fin dim → K) (threshold : ExactFloat K) :
    mergeStep embeddings threshold (finalClusters embeddings threshold) = none :=
  (mergeLoop embeddings threshold).run_stopped (initialClusters n)

theorem finalClusters_apart (embeddings : Fin n → Fin dim → K) (threshold : ExactFloat K) :
    (finalClusters embeddings threshold).Pairwise (fun c d => threshold.lt (.finite
      (meanDistance (gap embeddings) c.members d.members)) = true) := by
  have h := finalClusters_canonical embeddings threshold
  refine List.pairwise_iff_getElem.2 (fun i j hi hj hij => ?_)
  rcases mergeStep_none (finalClusters_stopped embeddings threshold) with hl | hq
  · omega
  · obtain ⟨d, hd, hle⟩ := hq (⟨i, hi⟩, ⟨j, hj⟩) hij
    have hlt := ExactFloat.lt_finite_of_le hd hle
    rwa [h.pairLinkage_eq] at hlt

theorem forest_separated (embeddings : Fin n → Fin dim → K) (threshold : ExactFloat K) :
    Separated embeddings threshold (forest embeddings threshold) := by
  have h := forest_grown embeddings threshold
  have hap := finalClusters_apart embeddings threshold
  refine List.pairwise_iff_getElem.2 (fun i j hi hj hij _ _ => ?_)
  have hlt := List.pairwise_iff_getElem.1 hap i j (h.length_eq ▸ hi) (h.length_eq ▸ hj) hij
  rw [h.points_getElem, h.points_getElem, Admits, List.get_eq_getElem, List.get_eq_getElem, hlt]
  exact Bool.noConfusion

/-- Without a threshold the loop goes on from where the threshold stopped it. -/
theorem run_unlimited (embeddings : Fin n → Fin dim → K) (threshold : ExactFloat K) :
    (mergeLoop embeddings (.inf false)).run (initialClusters n) =
      (((mergeLoop embeddings threshold).run (initialClusters n)).1 ++
        ((mergeLoop embeddings (.inf false)).run (finalClusters embeddings threshold)).1,
        ((mergeLoop embeddings (.inf false)).run (finalClusters embeddings threshold)).2) := by
  refine (mergeLoop embeddings threshold).run_extend _ (fun s x hs => ?_) _
  change mergeStep embeddings (.inf false) s = some x
  change mergeStep embeddings threshold s = some x at hs
  unfold mergeStep at hs ⊢
  cases hb : bestPair embeddings s with
  | none => rw [hb] at hs; cases hs
  | some p =>
    rw [hb] at hs
    dsimp only at hs ⊢
    split at hs
    · cases hs
    · exact hs

theorem joined_dendrogram (embeddings : Fin n → Fin dim → K) (threshold : ExactFloat K) (p q : Fin n) :
    Joined (Admits threshold) (dendrogram embeddings) p q ↔
      ∃ c ∈ finalClusters embeddings threshold, p ∈ c.members ∧ q ∈ c.members := by
  have grown := forest_grown embeddings threshold
  have late := (mergeLoop embeddings (.inf false)).ghost_invariant graft
    (I := fun clusters F => Grown embeddings clusters F ∧ Separated embeddings threshold F ∧
      ∀ p q, Joined (Admits threshold) F p q ↔
        Joined (Admits threshold) (forest embeddings threshold) p q)
    (fun s F e u h hs => ?_) (s := finalClusters embeddings threshold)
    (a := forest embeddings threshold)
    ⟨grown, forest_separated embeddings threshold, fun p q => Iff.rfl⟩
  · rw [dendrogram, forest, run_unlimited embeddings threshold, List.foldl_append]
    refine (late.2.2 p q).trans ((joined_within (forest_within embeddings threshold)).trans ?_)
    have members : ∀ m : List (Fin n), (∃ t ∈ forest embeddings threshold, t.points = m) ↔
        ∃ c ∈ finalClusters embeddings threshold, c.members = m := by
      intro m
      rw [← List.mem_map, ← List.mem_map, grown.points]
    constructor
    · rintro ⟨t, ht, hp, hq⟩
      obtain ⟨c, hc, hm⟩ := (members _).1 ⟨t, ht, rfl⟩
      exact ⟨c, hc, hm ▸ hp, hm ▸ hq⟩
    · rintro ⟨c, hc, hp, hq⟩
      obtain ⟨t, ht, hm⟩ := (members _).2 ⟨c, hc, rfl⟩
      exact ⟨t, ht, hm ▸ hp, hm ▸ hq⟩
  · obtain ⟨hsep, hj⟩ := h.2.1.turn h.1 hs
    exact ⟨h.1.step hs, hsep, fun p q => (hj p q).trans (h.2.2 p q)⟩

theorem dendrogram_single (embeddings : Fin n → Fin dim → K) (p : Fin n) :
    ∃ t, dendrogram embeddings = [t] := by
  have h := forest_grown embeddings (.inf false)
  obtain ⟨k, -⟩ := h.canonical.exists_member p
  have hk := k.isLt
  refine List.length_eq_one_iff.1 ?_
  change (forest embeddings (.inf false)).length = 1
  rw [h.length_eq]
  rcases mergeStep_none (finalClusters_stopped embeddings (.inf false)) with hl | hq
  · omega
  · by_contra hne
    have two : 1 < (finalClusters embeddings (.inf false)).length := by omega
    obtain ⟨d, hd, -⟩ := hq (⟨0, Nat.zero_lt_of_lt two⟩, ⟨1, two⟩) Nat.zero_lt_one
    exact Bool.noConfusion hd

/-- The labels are a canonical partition, separated by the threshold, and cut the
average-linkage dendrogram there; the merged values never decrease. -/
theorem agglomerativeClustering_cut [IsStrictOrderedRing K] (embeddings : Fin n → Fin dim → K)
    (threshold : ExactFloat K) :
    let labels := agglomerativeClustering embeddings threshold
    let clusters := finalClusters embeddings threshold
    mergeStep embeddings threshold clusters = none ∧
    (clusters.flatMap Cluster.members).Perm (List.finRange n) ∧
    (∀ i, ∃! k : Fin clusters.length, i ∈ clusters[k].members) ∧
    (∀ i (k : Fin clusters.length), labels i = k ↔ i ∈ clusters[k].members) ∧
    (∀ i, 0 ≤ labels i ∧ labels i < clusters.length) ∧
    (∀ k : Fin clusters.length, ∃ i, labels i = k) ∧
    (∀ i k, 0 ≤ k → k < labels i → ∃ j < i, labels j = k) ∧
    clusters.Pairwise (fun c d => threshold.lt (.finite (meanDistance
      (fun i j => cosineDistance (embeddings i) (embeddings j)) c.members d.members)) = true) ∧
    (linkageValues embeddings threshold).Pairwise (· ≤ ·) ∧
    ∀ i, ∃ t, dendrogram embeddings = [t] ∧ AverageLinked embeddings t ∧
      ∀ j, labels i = labels j ↔ t.Together (fun v => threshold.lt (.finite v) = false) i j := by
  have h := finalClusters_canonical embeddings threshold
  dsimp only
  rw [agglomerativeClustering_eq]
  refine ⟨finalClusters_stopped embeddings threshold, h.once, fun i => ?_,
    fun i k => h.label_eq_iff, h.label_range, h.label_used, fun i k => h.label_first,
    finalClusters_apart embeddings threshold, linkageValues_sorted embeddings threshold, fun i => ?_⟩
  · obtain ⟨k, hk⟩ := h.exists_member i
    exact ⟨k, hk, fun l hl => Fin.ext (h.unique hl hk)⟩
  · obtain ⟨t, ht⟩ := dendrogram_single embeddings i
    have linked := (forest_grown embeddings (.inf false)).linked t (by
      change t ∈ dendrogram embeddings
      rw [ht]
      exact List.mem_singleton_self t)
    refine ⟨t, ht, linked, fun j => ?_⟩
    rw [h.label_eq_label, ← joined_dendrogram, ht, joined_singleton]
    rfl

/-- Three embeddings of which two agree: the first gets label zero. -/
theorem agglomerativeClustering_cut_three :
    agglomerativeClustering (![![1], ![-1], ![1]] : Fin 3 → Fin 1 → ℚ) (.finite (1 / 2)) 0 = 0 := by
  obtain ⟨-, -, -, -, range, -, first, -⟩ :=
    agglomerativeClustering_cut (![![1], ![-1], ![1]] : Fin 3 → Fin 1 → ℚ) (.finite (1 / 2))
  by_contra hne
  obtain ⟨j, hj, -⟩ := first 0 0 le_rfl (lt_of_le_of_ne (range 0).1 (Ne.symm hne))
  exact Fin.not_lt_zero j hj

end PyannoteCpp.AgglomerativeClustering

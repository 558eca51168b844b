import PyannoteCpp.CosineGeometry
import PyannoteCpp.StreamingClusteringRuns

set_option autoImplicit false

/-!
# When the compared distance is the cosine distance

The distance function omits both norms, which is sound for unit vectors.
A centre is a unit vector when it is created on the first call, and every
update adds an embedding to it without normalising the sum.
-/
namespace PyannoteCpp.StreamingClustering
open ReachableStates SortContract GreedyMatching CosineGeometry

section Frame

variable {K : Type*} [Field K] [LinearOrder K] {maxSpeakers dim : ℕ}

/-- No speaker with a usable embedding is long, except on the first call. -/
def NoLongSpeaker (σ : OnlineSpeakerClustering K maxSpeakers dim) (call : Call K dim) : Prop :=
  σ.centers ≠ none → ∀ s ∈ σ.activeSpeakers call, hasNan (call.embeddings s) = false →
    s ∉ σ.longSpeakers call

variable {numLocal : ℕ} {embeddings : Fin numLocal → Embedding K dim}
  {longSpeakers : List (Fin numLocal)} {T : Table K numLocal maxSpeakers dim}

theorem assignRemaining_frame (speakers : List (Fin numLocal))
    (h : ∀ s ∈ speakers, hasNan (embeddings s) = false → s ∉ longSpeakers) :
    (assignRemaining cosineDistance embeddings longSpeakers speakers T).centers = T.centers ∧
      (assignRemaining cosineDistance embeddings longSpeakers speakers T).activeCenters = T.activeCenters := by
  induction speakers generalizing T with
  | nil => exact ⟨rfl, rfl⟩
  | cons s rest ih =>
    have tail := ih (T := assignOne cosineDistance embeddings longSpeakers T s)
      (fun t ht => h t (List.mem_cons_of_mem _ ht))
    have head : (assignOne cosineDistance embeddings longSpeakers T s).centers = T.centers ∧
        (assignOne cosineDistance embeddings longSpeakers T s).activeCenters = T.activeCenters := by
      rcases assignOne_cases cosineDistance embeddings longSpeakers T s with
        he | ⟨_, hn, c, hl, _, _⟩ | ⟨_, _, c, _, _, he⟩
      · rw [he]
        exact ⟨rfl, rfl⟩
      · exact absurd hl (h s List.mem_cons_self hn)
      · rw [he]
        exact ⟨rfl, rfl⟩
    exact ⟨tail.1.trans head.1, tail.2.trans head.2⟩

omit [LinearOrder K] in
theorem updateCenters_short (hT : Sound embeddings T) (speakers : List (Fin numLocal))
    (h : ∀ s ∈ speakers, hasNan (embeddings s) = false → s ∉ longSpeakers) :
    (updateCenters embeddings longSpeakers speakers T).centers = T.centers := by
  induction speakers generalizing T with
  | nil => rfl
  | cons s rest ih =>
    have tail := ih (hT.updateOne longSpeakers s) (fun t ht => h t (List.mem_cons_of_mem _ ht))
    refine tail.trans ?_
    unfold updateOne
    split
    · rfl
    · rename_i c hc
      rw [if_neg (h s List.mem_cons_self (hT.mappedFinite s c hc))]

theorem finalTable_short {σ : OnlineSpeakerClustering K maxSpeakers dim} {call : Call K dim}
    {sorted : List (Pair K call.numLocal maxSpeakers)} (h : FiniteCenters σ)
    (hs : σ.Sorts cosineDistance call sorted) (hl : NoLongSpeaker σ call)
    {centers : Fin maxSpeakers → Embedding K dim} (hc : σ.centers = some centers) :
    (σ.finalTable cosineDistance call sorted).centers = centers ∧
      (σ.finalTable cosineDistance call sorted).activeCenters = σ.activeCenters := by
  have short := hl (by rw [hc]; exact Option.some_ne_none _)
  have sound : Sound call.embeddings (assignRemaining cosineDistance call.embeddings (σ.longSpeakers call)
      (σ.activeSpeakers call) (σ.matchedTable call centers sorted)) :=
    (matchedTable_sound h hs hc).assignRemaining (σ.longSpeakers call) (σ.activeSpeakers call)
  have frame := assignRemaining_frame (T := σ.matchedTable call centers sorted)
    (σ.activeSpeakers call) short
  unfold OnlineSpeakerClustering.finalTable
  simp only [hc]
  rw [updateCenters_short sound _ short, (updateCenters_frame ..).2]
  exact frame

end Frame

noncomputable section

variable {maxSpeakers dim : ℕ}

def vector (e : Embedding ℝ dim) : Fin dim → ℝ := fun d => (e d).value

def embed (v : Fin dim → ℝ) : Embedding ℝ dim := fun d => .finite (v d)

theorem embed_distance (u v : Fin dim → ℝ) :
    cosineDistance (embed u) (embed v) = .finite (1 - u ⬝ᵥ v) := cosineDistance_finite u v

def UnitCall (_ : OnlineSpeakerClustering ℝ maxSpeakers dim) (call : Call ℝ dim) : Prop :=
  ∀ s, hasNan (call.embeddings s) = false → length (vector (call.embeddings s)) = 1

def UnitShortCall (σ : OnlineSpeakerClustering ℝ maxSpeakers dim) (call : Call ℝ dim) : Prop :=
  UnitCall σ call ∧ NoLongSpeaker σ call

def Cosine (u v : Fin dim → ℝ) : Prop :=
  ∃ x, cosineDistance (embed u) (embed v) = .finite x ∧ x = cosineGap u v ∧ 0 ≤ x ∧ x ≤ 2

def ScaleFree (u v : Fin dim → ℝ) : Prop :=
  ∀ k : ℝ, 0 < k → cosineDistance (embed u) (embed (k • v)) = cosineDistance (embed u) (embed v)

theorem cosine_iff {u : Fin dim → ℝ} (hu : length u = 1) (v : Fin dim → ℝ) :
    Cosine u v ↔ length v = 1 ∨ u ⬝ᵥ v = 0 := by
  rw [← dot_gap_iff hu]
  constructor
  · rintro ⟨x, hx, hg, _⟩
    rw [embed_distance, ExactFloat.finite.injEq] at hx
    exact hx.trans hg
  · intro h
    exact ⟨_, embed_distance u v, h, h ▸ (cosineGap_mem u v).1, h ▸ (cosineGap_mem u v).2⟩

theorem scaleFree_iff (u v : Fin dim → ℝ) : ScaleFree u v ↔ u ⬝ᵥ v = 0 := by
  rw [← dot_smul_iff]
  refine forall_congr' (fun k => imp_congr_right (fun _ => ?_))
  rw [embed_distance, embed_distance, ExactFloat.finite.injEq, sub_right_inj]

def UnitTable {numLocal : ℕ} (T : Table ℝ numLocal maxSpeakers dim) : Prop :=
  ∀ c, T.activeCenters c = true → length (vector (T.centers c)) = 1

theorem initialAssignment_unit {numLocal : ℕ} {embeddings : Fin numLocal → Embedding ℝ dim}
    (hu : ∀ s, hasNan (embeddings s) = false → length (vector (embeddings s)) = 1)
    (speakers : List (Fin numLocal)) {T : Table ℝ numLocal maxSpeakers dim} (h : UnitTable T) :
    UnitTable (initialAssignment embeddings speakers T) := by
  induction speakers generalizing T with
  | nil => exact h
  | cons s rest ih =>
    rw [initialAssignment]
    split_ifs with hn
    · exact ih h
    · cases getNextCenter T.activeCenters with
      | none => exact h
      | some c =>
        refine ih (fun d hd => ?_)
        by_cases hdc : d = c
        · subst d
          rw [create_centers, Function.update_self]
          exact hu s (by simpa using hn)
        · rw [create_activeCenters, Function.update_of_ne hdc] at hd
          rw [create_centers, Function.update_of_ne hdc]
          exact h d hd

def UnitCenters (σ : OnlineSpeakerClustering ℝ maxSpeakers dim) : Prop :=
  ∀ centers, σ.centers = some centers → ∀ c, σ.activeCenters c = true →
    length (vector (centers c)) = 1

theorem unitCenters_step {σ υ : OnlineSpeakerClustering ℝ maxSpeakers dim} {call : Call ℝ dim}
    (hf : FiniteCenters σ) (h : UnitCenters σ) (ok : UnitShortCall σ call) (hu : Step cosineDistance σ call υ) :
    UnitCenters υ := by
  obtain ⟨sorted, hs, rfl⟩ := hu
  intro centers hc c ha
  change some (σ.finalTable cosineDistance call sorted).centers = some centers at hc
  change (σ.finalTable cosineDistance call sorted).activeCenters c = true at ha
  rw [Option.some.injEq] at hc
  subst hc
  cases hσ : σ.centers with
  | none =>
    have table : UnitTable (σ.finalTable cosineDistance call sorted) := by
      unfold OnlineSpeakerClustering.finalTable
      rw [hσ]
      exact initialAssignment_unit ok.1 _ (fun c hc => by simp at hc)
    exact table c ha
  | some old =>
    obtain ⟨hcen, hact⟩ := finalTable_short hf hs ok.2 hσ
    rw [hact] at ha
    rw [hcen]
    exact h old hσ c ha

theorem unitCenters_reachable {σ : OnlineSpeakerClustering ℝ maxSpeakers dim}
    (h : Reachable Start (Admitted UnitShortCall (Step cosineDistance)) σ) : UnitCenters σ := by
  refine (h.invariant (fun σ => FiniteCenters σ ∧ UnitCenters σ) ?_ ?_).2
  · rintro s ⟨tau, rho, delta, rfl⟩
    have fresh : Reachable Start (Step cosineDistance)
        (OnlineSpeakerClustering.fresh tau rho delta : OnlineSpeakerClustering ℝ maxSpeakers dim) := .start ⟨_, _, _, rfl⟩
    exact ⟨finiteCenters_reachable fresh, fun centers hc => by simp [OnlineSpeakerClustering.fresh] at hc⟩
  · rintro s i u ⟨hf, hu⟩ ⟨ok, hstep⟩
    exact ⟨finiteCenters_step hf hstep, unitCenters_step hf hu ok hstep⟩

/-- For a reachable object and a unit embedding `u`, the distance compared with
    an active centre `v` is the cosine distance exactly when `v` has length one
    or is orthogonal to `u`; it ignores the scale of `v` exactly when it is
    orthogonal. No centre leaves length one while no long speaker is added. -/
theorem compared_distance {σ : OnlineSpeakerClustering ℝ maxSpeakers dim}
    (h : Reachable Start (Admitted UnitCall (Step cosineDistance)) σ)
    (centers : Fin maxSpeakers → Embedding ℝ dim) (hc : σ.centers = some centers)
    (c : Fin maxSpeakers) (ha : σ.activeCenters c = true) :
    ∃ v, centers c = embed v ∧
      (∀ u : Fin dim → ℝ, length u = 1 →
        (Cosine u v ↔ length v = 1 ∨ u ⬝ᵥ v = 0) ∧ (ScaleFree u v ↔ u ⬝ᵥ v = 0)) ∧
      (Reachable Start (Admitted UnitShortCall (Step cosineDistance)) σ →
        length v = 1 ∧ ∀ u : Fin dim → ℝ, length u = 1 → Cosine u v) := by
  have hn := (finiteCenters_reachable h.of_admitted).after centers hc c ha
  refine ⟨vector (centers c), finite_values hn,
    fun u hu => ⟨cosine_iff hu _, scaleFree_iff u _⟩, fun hshort => ?_⟩
  have one := unitCenters_reachable hshort centers hc c ha
  exact ⟨one, fun u hu => (cosine_iff hu _).2 (Or.inl one)⟩

def steadyCall : Call ℝ 1 where
  numFrames := 1
  numLocal := 1
  segmentation := fun _ _ => 1
  embeddings := fun _ _ => 1

def only : Fin steadyCall.numLocal := ⟨0, by decide⟩

def steadyStart : OnlineSpeakerClustering ℝ 1 1 :=
  .fresh (.finite (3 / 5)) (.finite (3 / 10)) (.finite 1)

def steadyOne : OnlineSpeakerClustering ℝ 1 1 :=
  ⟨.finite (3 / 5), .finite (3 / 10), .finite 1, some (fun _ _ => 1), fun _ => true⟩

theorem steady_usable : hasNan (steadyCall.embeddings only) = false := by decide

theorem steady_active {σ : OnlineSpeakerClustering ℝ 1 1} (h : σ.tauActive = .finite (3 / 5)) :
    σ.activeSpeakers steadyCall = [only] := by
  simp [OnlineSpeakerClustering.activeSpeakers, h, only, steadyCall, Call.maxVal,
    List.finRange_succ, ExactFloat.max, ExactFloat.zero_def, ExactFloat.one_def]
  norm_num

theorem steady_long {σ : OnlineSpeakerClustering ℝ 1 1} (h : σ.rhoUpdate = .finite (3 / 10)) :
    σ.longSpeakers steadyCall = [only] := by
  simp [OnlineSpeakerClustering.longSpeakers, h, only, steadyCall, Call.meanVal,
    List.finRange_succ, ExactFloat.zero_def, ExactFloat.one_def, ExactFloat.finite_div]
  norm_num

theorem steady_first : (steadyStart.identify cosineDistance steadyCall []).2 = steadyOne := by
  have hc : getNextCenter (fun _ : Fin 1 => false) = some 0 := by decide
  simp only [OnlineSpeakerClustering.identify, OnlineSpeakerClustering.finalTable, steadyStart,
    OnlineSpeakerClustering.fresh, steady_active, initialAssignment, steady_usable, hc, steadyOne]
  congr 1
  · congr 1
    funext c
    rw [Subsingleton.elim c 0]
    rfl
  · funext c
    rw [Subsingleton.elim c 0]
    rfl

theorem steady_unit (σ : OnlineSpeakerClustering ℝ 1 1) : UnitCall σ steadyCall := by
  intro s _
  rw [length_eq_one_iff]
  change ∑ d : Fin 1, (1 : ℝ) * 1 = 1
  simp

theorem steadyOne_reachable : Reachable Start (Admitted UnitCall (Step cosineDistance)) steadyOne :=
  .step (i := steadyCall) (.start ⟨_, _, _, rfl⟩)
    ⟨steady_unit steadyStart, [], ⟨List.Perm.refl _, fun _ => ⟨List.Perm.refl _, List.Pairwise.nil⟩⟩, steady_first.symm⟩

def steadyPairs : List (Pair ℝ steadyCall.numLocal 1) := [⟨only, 0, .finite 0⟩]

theorem steady_pairs : steadyOne.pairs cosineDistance steadyCall = steadyPairs := by
  have hd : cosineDistance (steadyCall.embeddings only) (fun _ => 1) = .finite 0 := by
    have h := embed_distance (fun _ : Fin 1 => (1 : ℝ)) (fun _ => 1)
    simp only [dotProduct, Finset.univ_unique, Finset.sum_singleton, mul_one, sub_self] at h
    exact h
  simp only [OnlineSpeakerClustering.pairs, steadyOne, steady_active, candidatePairs,
    List.flatMap_cons, steady_usable]
  simp [List.finRange_succ, hd, steadyPairs]

theorem steady_match : (matchPairs steadyOne.deltaNew steadyPairs).partner only = some 0 := by
  have near : (ExactFloat.finite (1 : ℝ)).lt (.finite 0) = false := by norm_num
  simp only [matchPairs, greedy, steadyPairs, steadyOne, near]
  rfl

theorem steady_second : (steadyOne.identify cosineDistance steadyCall steadyPairs).2.centers =
    some (fun _ => embed (fun _ => 2)) := by
  let T := steadyOne.matchedTable steadyCall (fun _ _ => 1) steadyPairs
  have hm : T.mapping only = some 0 := steady_match
  have keep : assignOne cosineDistance steadyCall.embeddings [only] T only = T := if_pos (by rw [hm]; rfl)
  have hT : steadyOne.finalTable cosineDistance steadyCall steadyPairs =
      updateOne steadyCall.embeddings [only] (assignOne cosineDistance steadyCall.embeddings [only] T only) only := by
    simp only [OnlineSpeakerClustering.finalTable, steadyOne, steady_active, steady_long]
    rfl
  change some (steadyOne.finalTable cosineDistance steadyCall steadyPairs).centers = _
  rw [hT, keep, updateOne, hm]
  simp only [List.mem_singleton, if_true]
  congr 1
  funext c d
  rw [Subsingleton.elim c 0, Function.update_self]
  change ExactFloat.finite ((1 : ℝ) + 1) = .finite 2
  norm_num

/-- The same speaker twice: the centre is `(2)` and the compared distance `-1`. -/
theorem compared_distance_negative : ∃ σ : OnlineSpeakerClustering ℝ 1 1,
    Reachable Start (Admitted UnitCall (Step cosineDistance)) σ ∧ σ.centers = some (fun _ => embed (fun _ => 2)) ∧
      σ.activeCenters 0 = true ∧ length (fun _ : Fin 1 => (1 : ℝ)) = 1 ∧
      cosineDistance (embed (fun _ => (1 : ℝ))) (embed (fun _ : Fin 1 => 2)) = .finite (-1) ∧
      ¬ Cosine (fun _ : Fin 1 => 1) (fun _ => 2) := by
  have hd : cosineDistance (embed (fun _ => (1 : ℝ))) (embed (fun _ : Fin 1 => 2)) = .finite (-1) := by
    rw [embed_distance, ExactFloat.finite.injEq]
    simp only [dotProduct, Finset.univ_unique, Finset.sum_singleton]
    norm_num
  refine ⟨(steadyOne.identify cosineDistance steadyCall steadyPairs).2, ?_, steady_second, ?_,
    (length_eq_one_iff _).2 (by simp [dotProduct]), hd, ?_⟩
  · refine .step (i := steadyCall) steadyOne_reachable ⟨steady_unit steadyOne, steadyPairs, ?_, rfl⟩
    rw [OnlineSpeakerClustering.Sorts, steady_pairs]
    exact ⟨List.Perm.refl _, fun _ => ⟨List.Perm.refl _, List.pairwise_singleton _ _⟩⟩
  · change (steadyOne.finalTable cosineDistance steadyCall steadyPairs).activeCenters 0 = true
    simp only [OnlineSpeakerClustering.finalTable, steadyOne]
    rw [(updateCenters_frame ..).2]
    exact assignRemaining_active _ _ rfl
  · rintro ⟨x, hx, _, h0, _⟩
    rw [hd, ExactFloat.finite.injEq] at hx
    linarith

theorem compared_distance_steady : ∃ v, (fun _ => 1 : Embedding ℝ 1) = embed v ∧
    (∀ u : Fin 1 → ℝ, length u = 1 →
      (Cosine u v ↔ length v = 1 ∨ u ⬝ᵥ v = 0) ∧ (ScaleFree u v ↔ u ⬝ᵥ v = 0)) ∧
    (Reachable Start (Admitted UnitShortCall (Step cosineDistance)) steadyOne →
      length v = 1 ∧ ∀ u : Fin 1 → ℝ, length u = 1 → Cosine u v) :=
  compared_distance steadyOne_reachable (fun _ _ => 1) rfl 0 rfl

end
end PyannoteCpp.StreamingClustering

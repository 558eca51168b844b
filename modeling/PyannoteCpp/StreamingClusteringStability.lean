import PyannoteCpp.StreamingClusteringContract

set_option autoImplicit false

/-!
# No speaker and centre would rather have each other

The scan along the sorted pairs leaves a pair below the threshold out only for a
pair that shares its speaker or its centre and is no longer. The phases after the
scan map only speakers that it left over.
-/
namespace PyannoteCpp.StreamingClustering
open ReachableStates SortContract GreedyMatching

variable {K : Type*} [Field K] [LinearOrder K] {maxSpeakers dim numLocal : ℕ}

section Call

variable {σ : OnlineSpeakerClustering K maxSpeakers dim} {call : Call K dim}
  {distance : Embedding K dim → Embedding K dim → ExactFloat K}
  {sorted : List (Pair K call.numLocal maxSpeakers)} {centers : Fin maxSpeakers → Embedding K dim}

theorem identify_of_matched (hc : σ.centers = some centers) {s : Fin call.numLocal} {c : Fin maxSpeakers}
    (h : (matchPairs σ.deltaNew sorted).partner s = some c) : (σ.identify distance call sorted).1 s = some c := by
  change (σ.finalTable distance call sorted).mapping s = some c
  unfold OnlineSpeakerClustering.finalTable
  rw [hc]
  dsimp only
  rw [(updateCenters_frame ..).1]
  exact assignRemaining_keeps _ h

/-- `s` has a centre that is no further than `c`, or `c` a speaker that is no further than `s`. -/
def Settled (distance : Embedding K dim → Embedding K dim → ExactFloat K) (σ : OnlineSpeakerClustering K maxSpeakers dim)
    (call : Call K dim) (sorted : List (Pair K call.numLocal maxSpeakers)) (centers : Fin maxSpeakers → Embedding K dim)
    (s : Fin call.numLocal) (c : Fin maxSpeakers) : Prop :=
  (∃ d, (σ.identify distance call sorted).1 s = some d ∧ σ.activeCenters d = true ∧
    (distance (call.embeddings s) (centers d)).le (distance (call.embeddings s) (centers c)) = true) ∨
  ∃ t, t ≠ s ∧ (σ.identify distance call sorted).1 t = some c ∧
    (distance (call.embeddings t) (centers c)).le (distance (call.embeddings s) (centers c)) = true

instance (σ : OnlineSpeakerClustering K maxSpeakers dim) (sorted : List (Pair K call.numLocal maxSpeakers))
    (s : Fin call.numLocal) (c : Fin maxSpeakers) : Decidable (Settled distance σ call sorted centers s c) :=
  inferInstanceAs (Decidable (_ ∨ _))

/-- Whatever the distance and the tie order, the mapping of a later call has no blocking pair within the threshold,
    provided that every compared distance is a number. -/
theorem identify_stable (numbers : ∀ p ∈ σ.pairs distance call, p.dist.isnan = false)
    (hsort : σ.Sorts distance call sorted) (hc : σ.centers = some centers)
    (s : Fin call.numLocal) (active : σ.tauActive.le (call.maxVal s) = true)
    (whole : hasNan (call.embeddings s) = false) (c : Fin maxSpeakers) (hactive : σ.activeCenters c = true)
    (near : (distance (call.embeddings s) (centers c)).le σ.deltaNew = true) :
    Settled distance σ call sorted centers s c := by
  obtain ⟨perm, rising⟩ := hsort.2.key_le (fun p => p.dist.rank)
    (fun p hp q hq => ExactFloat.lt_rank (numbers p hp) (numbers q hq))
  have number : ∀ p ∈ sorted, p.dist.isnan = false := fun p hp => numbers p (perm.mem_iff.1 hp)
  have upward : ∀ p ∈ sorted, ∀ q ∈ sorted, p.dist.rank ≤ q.dist.rank →
      σ.deltaNew.lt p.dist = true → σ.deltaNew.lt q.dist = true :=
    fun p _ q hq le far => ExactFloat.lt_of_rank_le (number q hq) far le
  let e : Pair K call.numLocal maxSpeakers := ⟨s, c, distance (call.embeddings s) (centers c)⟩
  have he : e ∈ sorted :=
    perm.mem_iff.2 ((mem_pairs hc).2 ⟨List.mem_filter.2 ⟨List.mem_finRange s, active⟩, whole, hactive, rfl⟩)
  have hstop : σ.deltaNew.lt e.dist = false := ExactFloat.not_lt_of_le near
  obtain ⟨f, hf, short, shared, joined⟩ := greedy_stable Pair.s Pair.c (fun p => σ.deltaNew.lt p.dist)
    (fun p : Pair K call.numLocal maxSpeakers => p.dist.rank) sorted rising upward he hstop
  have returned : (σ.identify distance call sorted).1 f.s = some f.c := identify_of_matched hc joined
  obtain ⟨_, _, fActive, fDist⟩ := (mem_pairs hc).1 (perm.mem_iff.1 hf)
  have shorter : f.dist.le e.dist = true := by
    rw [ExactFloat.le_rank (number f hf) (number e he)]
    exact decide_eq_true short
  rw [fDist] at shorter
  change _ = s ∨ _ = c at shared
  by_cases same : f.s = s
  · rw [same] at returned shorter
    exact Or.inl ⟨f.c, returned, fActive, shorter⟩
  · have centre : f.c = c := shared.resolve_left same
    rw [centre] at returned shorter
    exact Or.inr ⟨f.s, same, returned, shorter⟩

end Call

/-- The second speaker would rather have the first centre, to which the first speaker is nearer. -/
theorem identify_stable_calm : ∃ centers, calmCenters.centers = some centers ∧
    Settled (floatDistance singleLimit) calmCenters calmCall calmPairs centers ⟨1, Nat.one_lt_succ_succ 1⟩ 0 :=
  ⟨_, rfl, identify_stable (by decide +kernel) calm_sorts rfl ⟨1, Nat.one_lt_succ_succ 1⟩
    (by decide +kernel) (by decide +kernel) 0 (by decide +kernel) (by decide +kernel)⟩

/-- The first speaker is scanned first with the centre at no distance at all, and the one at distance zero goes to the
    second speaker. -/
theorem identify_stable_skew : Reachable Start (Step (floatDistance singleLimit)) skewCenters ∧
    skewCenters.Sorts (floatDistance singleLimit) skewCall skewPairs ∧
    ∃ centers, skewCenters.centers = some centers ∧ skewCenters.activeCenters 1 = true ∧
      skewCenters.tauActive.le (skewCall.maxVal ⟨0, Nat.succ_pos 2⟩) = true ∧
      hasNan (skewCall.embeddings ⟨0, Nat.succ_pos 2⟩) = false ∧
      (floatDistance singleLimit (skewCall.embeddings ⟨0, Nat.succ_pos 2⟩) (centers 1)).le skewCenters.deltaNew = true ∧
      ¬Settled (floatDistance singleLimit) skewCenters skewCall skewPairs centers ⟨0, Nat.succ_pos 2⟩ 1 := by
  refine ⟨started_reachable _ _, ⟨List.Perm.refl _, fun ordered => absurd ordered skew_unordered⟩, _, rfl, ?_⟩
  decide +kernel

end PyannoteCpp.StreamingClustering

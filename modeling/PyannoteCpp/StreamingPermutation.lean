import PyannoteCpp.StreamingClustering

set_option autoImplicit false

/-!
# From local speakers to global speakers

`permute_segmentation` credits each local speaker to the centre the clustering
chose. With `fallback_local`, which `main` passes as true, a speaker left at
`-1` is credited to the global speaker with its own local number.
-/
namespace PyannoteCpp.StreamingClustering
open ReachableStates SortContract

variable {K : Type*} [Field K] [LinearOrder K] {numFrames numLocal maxSpeakers dim : ℕ}

def targetColumn (mapping : Fin numLocal → Option (Fin maxSpeakers)) (fallbackLocal : Bool)
    (s : Fin numLocal) : Option (Fin maxSpeakers) :=
  match mapping s with
  | some g => some g
  | none => if h : fallbackLocal = true ∧ s.val < maxSpeakers then some ⟨s.val, h.2⟩ else none

def permuteOne (segmentation : Fin numFrames → Fin numLocal → ExactFloat K)
    (mapping : Fin numLocal → Option (Fin maxSpeakers)) (fallbackLocal : Bool)
    (out : Fin numFrames → Fin maxSpeakers → ExactFloat K) (s : Fin numLocal) :
    Fin numFrames → Fin maxSpeakers → ExactFloat K :=
  match targetColumn mapping fallbackLocal s with
  | none => out
  | some g => fun t => Function.update (out t) g ((out t g).max (segmentation t s))

def permuteSegmentation (segmentation : Fin numFrames → Fin numLocal → ExactFloat K)
    (mapping : Fin numLocal → Option (Fin maxSpeakers)) (fallbackLocal : Bool) :
    Fin numFrames → Fin maxSpeakers → ExactFloat K :=
  (List.finRange numLocal).foldl (permuteOne segmentation mapping fallbackLocal) (fun _ _ => 0)

def OnlineSpeakerClustering.globalSeg (σ : OnlineSpeakerClustering K maxSpeakers dim)
    (distance : Embedding K dim → Embedding K dim → ExactFloat K) (call : Call K dim) (sorted : List (Pair K call.numLocal maxSpeakers)) :
    Fin call.numFrames → Fin maxSpeakers → ExactFloat K :=
  permuteSegmentation call.segmentation (σ.identify distance call sorted).1 true

variable {segmentation : Fin numFrames → Fin numLocal → ExactFloat K}
  {mapping : Fin numLocal → Option (Fin maxSpeakers)} {fallbackLocal : Bool}

theorem permuteOne_source (speakers : List (Fin numLocal))
    (out : Fin numFrames → Fin maxSpeakers → ExactFloat K) (t : Fin numFrames) (g : Fin maxSpeakers)
    (h : (0 : ExactFloat K).lt
      (speakers.foldl (permuteOne segmentation mapping fallbackLocal) out t g) = true) :
    (0 : ExactFloat K).lt (out t g) = true ∨ ∃ s ∈ speakers,
      (0 : ExactFloat K).lt (segmentation t s) = true ∧
        targetColumn mapping fallbackLocal s = some g := by
  induction speakers generalizing out with
  | nil => exact Or.inl h
  | cons s rest ih =>
    rcases ih _ h with old | ⟨r, hr, hpos, hg⟩
    · unfold permuteOne at old
      cases hs : targetColumn mapping fallbackLocal s with
      | none =>
        rw [hs] at old
        exact Or.inl old
      | some f =>
        simp only [hs] at old
        by_cases hgf : g = f
        · subst f
          rw [Function.update_self] at old
          exact (ExactFloat.lt_max old).imp id (fun hpos => ⟨s, List.mem_cons_self, hpos, hs⟩)
        · rw [Function.update_of_ne hgf] at old
          exact Or.inl old
    · exact Or.inr ⟨r, List.mem_cons_of_mem _ hr, hpos, hg⟩

theorem permuteSegmentation_source (t : Fin numFrames) (g : Fin maxSpeakers)
    (h : (0 : ExactFloat K).lt (permuteSegmentation segmentation mapping fallbackLocal t g) = true) :
    ∃ s, (0 : ExactFloat K).lt (segmentation t s) = true ∧
      targetColumn mapping fallbackLocal s = some g := by
  rcases permuteOne_source _ _ t g h with old | ⟨s, _, hpos, hg⟩
  · simp [ExactFloat.zero_def] at old
  · exact ⟨s, hpos, hg⟩

omit [Field K] [LinearOrder K] in
theorem targetColumn_some {s : Fin numLocal} {g : Fin maxSpeakers}
    (h : targetColumn mapping fallbackLocal s = some g) :
    mapping s = some g ∨ (mapping s = none ∧ fallbackLocal = true ∧ s.val = g.val) := by
  unfold targetColumn at h
  cases hm : mapping s with
  | some f =>
    rw [hm] at h
    exact Or.inl h
  | none =>
    simp only [hm] at h
    split_ifs at h with hf
    rw [Option.some.injEq] at h
    exact Or.inr ⟨rfl, hf.1, by rw [← h]⟩

/-- Speech credited to a global speaker was uttered by a local speaker that this
    call mapped there, or left unmapped and with that very local number. -/
theorem globalSeg_source (σ : OnlineSpeakerClustering K maxSpeakers dim)
    (distance : Embedding K dim → Embedding K dim → ExactFloat K) (call : Call K dim)
    (sorted : List (Pair K call.numLocal maxSpeakers)) (t : Fin call.numFrames) (g : Fin maxSpeakers)
    (h : (0 : ExactFloat K).lt (σ.globalSeg distance call sorted t g) = true) :
    ∃ s, (0 : ExactFloat K).lt (call.segmentation t s) = true ∧
      ((σ.identify distance call sorted).1 s = some g ∨
        ((σ.identify distance call sorted).1 s = none ∧ s.val = g.val)) := by
  obtain ⟨s, hpos, hg⟩ := permuteSegmentation_source t g h
  exact ⟨s, hpos, (targetColumn_some hg).imp id (fun hn => ⟨hn.1, hn.2.2⟩)⟩

def skippedCall : Call ℚ 1 where
  numFrames := 1
  numLocal := 3
  segmentation := fun _ s => if s.val = 1 then 1 else 0
  embeddings := fun _ _ => .nan

def freshObject : OnlineSpeakerClustering ℚ 20 1 :=
  .fresh (.finite (3 / 5)) (.finite (3 / 10)) (.finite 1)

/-- Global speaker `1` is credited although the call mapped nobody. -/
theorem globalSeg_unchosen : Reachable Start (Step cosineDistance) freshObject ∧ freshObject.Sorts cosineDistance skippedCall [] ∧
    (0 : ExactFloat ℚ).lt (freshObject.globalSeg cosineDistance skippedCall [] ⟨0, by decide⟩ 1) = true ∧
    ∀ s, (freshObject.identify cosineDistance skippedCall []).1 s ≠ some 1 := by
  refine ⟨.start ⟨_, _, _, rfl⟩, ⟨List.Perm.refl _, fun _ => ⟨List.Perm.refl _, List.Pairwise.nil⟩⟩, ?_, ?_⟩
  · decide +kernel
  · decide +kernel

theorem globalSeg_source_skipped : ∃ s, (0 : ExactFloat ℚ).lt
    (skippedCall.segmentation ⟨0, by decide⟩ s) = true ∧
      ((freshObject.identify cosineDistance skippedCall []).1 s = some 1 ∨
        ((freshObject.identify cosineDistance skippedCall []).1 s = none ∧ s.val = (1 : Fin 20).val)) :=
  globalSeg_source freshObject cosineDistance skippedCall [] ⟨0, by decide⟩ 1 (by decide +kernel)

end PyannoteCpp.StreamingClustering

import PyannoteCpp.StreamingClusteringRuns

set_option autoImplicit false

/-!
# Who may share a global speaker within one call

The matching loop and the creation of centres give every speaker a centre of
its own. The nearest-centre branch for the remaining active speakers looks at
all active centres, taken or not, and is the only way to share one.
-/
namespace PyannoteCpp.StreamingClustering
open ReachableStates SortContract GreedyMatching

variable {K : Type*} [Field K] [LinearOrder K] {maxSpeakers dim numLocal : ℕ}

section Rounds

variable (distance : Embedding K dim → Embedding K dim → ExactFloat K)

/-- The round of `s` finds it unmapped and usable, and offers it no new centre. -/
def LeftOver (embeddings : Fin numLocal → Embedding K dim) (longSpeakers : List (Fin numLocal))
    (T : Table K numLocal maxSpeakers dim) (s : Fin numLocal) : Prop :=
  T.mapping s = none ∧ hasNan (embeddings s) = false ∧
    (s ∈ longSpeakers → getNextCenter T.activeCenters = none)

def LeftOverIn (embeddings : Fin numLocal → Embedding K dim) (longSpeakers speakers : List (Fin numLocal))
    (T : Table K numLocal maxSpeakers dim) (s : Fin numLocal) : Prop :=
  ∃ before after, speakers = before ++ s :: after ∧
    LeftOver embeddings longSpeakers (assignRemaining distance embeddings longSpeakers before T) s

def OnlineSpeakerClustering.FallsBack (σ : OnlineSpeakerClustering K maxSpeakers dim)
    (call : Call K dim) (sorted : List (Pair K call.numLocal maxSpeakers))
    (s : Fin call.numLocal) : Prop :=
  ∃ centers, σ.centers = some centers ∧
    LeftOverIn distance call.embeddings (σ.longSpeakers call) (σ.activeSpeakers call)
      (σ.matchedTable call centers sorted) s

end Rounds

def Distinct (T : Table K numLocal maxSpeakers dim) : Prop :=
  ∀ s t c, T.mapping s = some c → T.mapping t = some c → s = t

variable {distance : Embedding K dim → Embedding K dim → ExactFloat K}
  {embeddings : Fin numLocal → Embedding K dim} {T : Table K numLocal maxSpeakers dim}
  {longSpeakers : List (Fin numLocal)}

omit [Field K] [LinearOrder K] in
theorem Sound.unmapped (h : Sound embeddings T) {c : Fin maxSpeakers}
    (hc : T.activeCenters c = false) (s : Fin numLocal) : T.mapping s ≠ some c := by
  intro hs
  have ha := h.mappedActive s c hs
  rw [hc] at ha
  contradiction

omit [Field K] [LinearOrder K] in
theorem Distinct.create (h : Distinct T) (hT : Sound embeddings T) {c : Fin maxSpeakers}
    (hc : T.activeCenters c = false) (s : Fin numLocal) (e : Embedding K dim) :
    Distinct (T.create s c e) := by
  intro t u d ht hu
  rw [create_mapping] at ht hu
  by_cases ets : t = s <;> by_cases eus : u = s
  · exact ets.trans eus.symm
  · subst t
    rw [Function.update_self, Option.some.injEq] at ht
    rw [Function.update_of_ne eus] at hu
    exact absurd (ht ▸ hu) (hT.unmapped hc u)
  · subst u
    rw [Function.update_self, Option.some.injEq] at hu
    rw [Function.update_of_ne ets] at ht
    exact absurd (hu ▸ ht) (hT.unmapped hc t)
  · rw [Function.update_of_ne ets] at ht
    rw [Function.update_of_ne eus] at hu
    exact h t u d ht hu

omit [Field K] [LinearOrder K] in
theorem initialAssignment_distinct (h : Distinct T) (hT : Sound embeddings T)
    (speakers : List (Fin numLocal)) : Distinct (initialAssignment embeddings speakers T) := by
  induction speakers generalizing T with
  | nil => exact h
  | cons s rest ih =>
    rw [initialAssignment]
    split_ifs with hn
    · exact ih h hT
    · cases hc : getNextCenter T.activeCenters with
      | none => exact h
      | some c =>
        have fresh := getNextCenter_inactive c hc
        exact ih (h.create hT fresh s _) (hT.create c (by simpa using hn))

omit [LinearOrder K] in
theorem firstAssignment_distinct (embeddings : Fin numLocal → Embedding K dim)
    (speakers : List (Fin numLocal)) :
    Distinct (initialAssignment embeddings speakers (⟨fun _ _ => 0, fun _ => false, fun _ => none⟩ :
      Table K numLocal maxSpeakers dim)) := by
  refine initialAssignment_distinct ?_ ?_ speakers
  · simp [Distinct]
  · constructor <;> simp

omit [Field K] in
theorem LeftOverIn.snoc {speakers : List (Fin numLocal)} {s x : Fin numLocal}
    (h : LeftOverIn distance embeddings longSpeakers speakers T s) :
    LeftOverIn distance embeddings longSpeakers (speakers ++ [x]) T s := by
  obtain ⟨before, after, rfl, hl⟩ := h
  exact ⟨before, after ++ [x], by simp, hl⟩

omit [Field K] in
theorem assignRemaining_shared (h : Distinct T) (hT : Sound embeddings T)
    (speakers : List (Fin numLocal)) {s t : Fin numLocal} {c : Fin maxSpeakers} (hst : s ≠ t)
    (hs : (assignRemaining distance embeddings longSpeakers speakers T).mapping s = some c)
    (ht : (assignRemaining distance embeddings longSpeakers speakers T).mapping t = some c) :
    LeftOverIn distance embeddings longSpeakers speakers T s ∨
      LeftOverIn distance embeddings longSpeakers speakers T t := by
  induction speakers using List.reverseRecOn generalizing s t c with
  | nil => exact absurd (h s t c hs ht) hst
  | append_singleton speakers x ih =>
    have hU : Sound embeddings (assignRemaining distance embeddings longSpeakers speakers T) :=
      hT.assignRemaining longSpeakers speakers
    have split : assignRemaining distance embeddings longSpeakers (speakers ++ [x]) T =
        assignOne distance embeddings longSpeakers (assignRemaining distance embeddings longSpeakers speakers T) x := by
      simp [assignRemaining]
    rw [split] at hs ht
    have old : ∀ {s t c}, s ≠ t →
        (assignRemaining distance embeddings longSpeakers speakers T).mapping s = some c →
        (assignRemaining distance embeddings longSpeakers speakers T).mapping t = some c →
        LeftOverIn distance embeddings longSpeakers (speakers ++ [x]) T s ∨
          LeftOverIn distance embeddings longSpeakers (speakers ++ [x]) T t :=
      fun hst hs ht => (ih hst hs ht).imp LeftOverIn.snoc LeftOverIn.snoc
    rcases assignOne_cases distance embeddings longSpeakers
        (assignRemaining distance embeddings longSpeakers speakers T) x with
      he | ⟨_, _, d, _, hd, he⟩ | ⟨hm, hn, d, hfull, _, he⟩
    · rw [he] at hs ht
      exact old hst hs ht
    · -- `x` got the inactive slot `d`, so neither shares it with the other
      have fresh := hU.unmapped (getNextCenter_inactive d hd)
      rw [he, create_mapping] at hs ht
      by_cases hsx : s = x
      · subst s
        rw [Function.update_self, Option.some.injEq] at hs
        rw [Function.update_of_ne (Ne.symm hst), ← hs] at ht
        exact absurd ht (fresh t)
      · rw [Function.update_of_ne hsx] at hs
        by_cases htx : t = x
        · subst t
          rw [Function.update_self, Option.some.injEq] at ht
          exact absurd (ht ▸ hs) (fresh s)
        · rw [Function.update_of_ne htx] at ht
          exact old hst hs ht
    · have here : LeftOverIn distance embeddings longSpeakers (speakers ++ [x]) T x :=
        ⟨speakers, [], rfl, hm, hn, hfull⟩
      by_cases hsx : s = x
      · exact Or.inl (hsx ▸ here)
      · by_cases htx : t = x
        · exact Or.inr (htx ▸ here)
        · rw [he, assign_mapping, Function.update_of_ne hsx] at hs
          rw [he, assign_mapping, Function.update_of_ne htx] at ht
          exact old hst hs ht

omit [Field K] in
theorem matchedTable_distinct (σ : OnlineSpeakerClustering K maxSpeakers dim) (call : Call K dim)
    (centers : Fin maxSpeakers → Embedding K dim)
    (sorted : List (Pair K call.numLocal maxSpeakers)) :
    Distinct (σ.matchedTable call centers sorted) := by
  intro s t c hs ht
  exact (greedy_consistent _ _ _ sorted unmatched_consistent).injective s t c hs ht

/-- After every history, whatever the distances are and for every tie order, two speakers of
    one call get the same centre only if the nearest-centre branch placed one of them. -/
theorem identify_shared_falls_back {σ : OnlineSpeakerClustering K maxSpeakers dim}
    (h : Reachable Start (Step distance) σ) (call : Call K dim)
    (sorted : List (Pair K call.numLocal maxSpeakers)) (hsort : σ.Sorts distance call sorted)
    (s t : Fin call.numLocal) (hst : s ≠ t) (c : Fin maxSpeakers)
    (hs : (σ.identify distance call sorted).1 s = some c) (ht : (σ.identify distance call sorted).1 t = some c) :
    σ.FallsBack distance call sorted s ∨ σ.FallsBack distance call sorted t := by
  have hfin := finiteCenters_reachable h
  change (σ.finalTable distance call sorted).mapping s = some c at hs
  change (σ.finalTable distance call sorted).mapping t = some c at ht
  unfold OnlineSpeakerClustering.finalTable at hs ht
  cases hc : σ.centers with
  | none =>
    rw [hc] at hs ht
    exact absurd (firstAssignment_distinct call.embeddings _ s t c hs ht) hst
  | some centers =>
    simp only [hc] at hs ht
    rw [(updateCenters_frame ..).1] at hs ht
    have shared := assignRemaining_shared (matchedTable_distinct σ call centers sorted)
      (matchedTable_sound hfin hsort hc) _ hst hs ht
    exact shared.imp (fun hl => ⟨centers, hc, hl⟩) (fun hl => ⟨centers, hc, hl⟩)

def soloCall : Call ℚ 1 where
  numFrames := 4
  numLocal := 3
  segmentation := fun _ s => if s.val = 0 then 1 else 0
  embeddings := fun s _ => if s.val = 0 then 1 else .nan

def overlapCall : Call ℚ 1 where
  numFrames := 4
  numLocal := 3
  segmentation := fun t s => if s.val = 0 ∨ (s.val = 1 ∧ t.val = 0) then 1 else 0
  embeddings := fun s _ => if s.val ≤ 1 then 1 else .nan

def oneCenter : OnlineSpeakerClustering ℚ 20 1 :=
  ((OnlineSpeakerClustering.fresh (.finite (3 / 5)) (.finite (3 / 10)) (.finite 1)).identify
    cosineDistance soloCall []).2

def overlapSorted : List (Pair ℚ overlapCall.numLocal 20) := oneCenter.pairs cosineDistance overlapCall

theorem oneCenter_reachable : Reachable Start (Step cosineDistance) oneCenter :=
  .step (i := soloCall) (.start ⟨_, _, _, rfl⟩) ⟨[], ⟨List.Perm.refl _, fun _ => ⟨List.Perm.refl _, List.Pairwise.nil⟩⟩, rfl⟩

theorem overlap_sorts : oneCenter.Sorts cosineDistance overlapCall overlapSorted :=
  ⟨List.Perm.refl _, fun _ => ⟨List.Perm.refl _, by unfold Sorted; decide +kernel⟩⟩

theorem overlap_mapping : (oneCenter.identify cosineDistance overlapCall overlapSorted).1 ⟨0, by decide⟩ = some 0 ∧
    (oneCenter.identify cosineDistance overlapCall overlapSorted).1 ⟨1, by decide⟩ = some 0 := by
  decide +kernel

theorem identify_not_injective : Reachable Start (Step cosineDistance) oneCenter ∧
    oneCenter.Sorts cosineDistance overlapCall overlapSorted ∧
    ∃ s t : Fin overlapCall.numLocal, s ≠ t ∧ ∃ c,
      (oneCenter.identify cosineDistance overlapCall overlapSorted).1 s = some c ∧
      (oneCenter.identify cosineDistance overlapCall overlapSorted).1 t = some c :=
  ⟨oneCenter_reachable, overlap_sorts, ⟨0, by decide⟩, ⟨1, by decide⟩, by decide, 0, overlap_mapping⟩

theorem identify_shared_falls_back_overlap :
    oneCenter.FallsBack cosineDistance overlapCall overlapSorted ⟨0, by decide⟩ ∨
      oneCenter.FallsBack cosineDistance overlapCall overlapSorted ⟨1, by decide⟩ :=
  identify_shared_falls_back oneCenter_reachable overlapCall overlapSorted overlap_sorts
    ⟨0, by decide⟩ ⟨1, by decide⟩ (by decide) 0 overlap_mapping.1 overlap_mapping.2

end PyannoteCpp.StreamingClustering

import Mathlib.Data.Matrix.Mul
import PyannoteCpp.StreamingClustering

set_option autoImplicit false

/-!
# What every history of `identify` calls preserves

Active centres hold finite values only, whatever the distances are, and a call
ends with mapped speakers of finite embedding on active centres. Where no
product overflows, every distance a call sorts by is a finite number and
`std::sort` owes its contract.
-/
namespace PyannoteCpp.StreamingClustering
open ReachableStates SortContract GreedyMatching

variable {K : Type*} [Field K] [LinearOrder K] {maxSpeakers dim numLocal : ℕ}
  {distance : Embedding K dim → Embedding K dim → ExactFloat K}

omit [LinearOrder K] in
theorem finite_values {e : Embedding K dim} (h : hasNan e = false) :
    e = fun d => .finite (e d).value := by
  funext d
  obtain ⟨x, hx⟩ := (hasNan_eq_false_iff e).1 h d
  rw [hx]
  rfl

theorem cosineDistance_finite (u v : Fin dim → K) :
    cosineDistance (fun d => .finite (u d)) (fun d => .finite (v d)) =
      .finite (1 - u ⬝ᵥ v) := by
  have dot := ExactFloat.foldl_add_finite (List.finRange dim)
    (fun i => ExactFloat.finite (u i) * ExactFloat.finite (v i)) (fun i => u i * v i) (fun _ _ => rfl) 0
  rw [zero_add, ← Fin.sum_univ_def] at dot
  change ExactFloat.finite 1 - List.foldl _ (ExactFloat.finite 0) _ = _
  rw [dot, ExactFloat.finite_sub]
  rfl

theorem floatDistance_finite {limit : K} {u v : Embedding K dim} (hu : hasNan u = false) (hv : hasNan v = false)
    (hfit : ∀ d, |(u d).value * (v d).value| < limit) : floatDistance limit u v = cosineDistance u v := by
  have product : ∀ d, (u d).floatMul limit (v d) = u d * v d := fun d => by
    rw [finite_values hu, finite_values hv]
    exact ExactFloat.floatMul_finite (hfit d)
  unfold floatDistance cosineDistance
  simp only [product]

/-- The bookkeeping a table keeps throughout a call. -/
structure Sound (embeddings : Fin numLocal → Embedding K dim)
    (T : Table K numLocal maxSpeakers dim) : Prop where
  mappedActive : ∀ s c, T.mapping s = some c → T.activeCenters c = true
  mappedFinite : ∀ s c, T.mapping s = some c → hasNan (embeddings s) = false
  centersFinite : ∀ c, T.activeCenters c = true → hasNan (T.centers c) = false

variable {embeddings : Fin numLocal → Embedding K dim} {T : Table K numLocal maxSpeakers dim}

omit [Field K] [LinearOrder K] in
theorem Sound.create (h : Sound embeddings T) {s : Fin numLocal} (c : Fin maxSpeakers)
    (hs : hasNan (embeddings s) = false) : Sound embeddings (T.create s c (embeddings s)) := by
  refine ⟨fun t d ht => ?_, fun t d ht => ?_, fun d hd => ?_⟩
  · rw [create_activeCenters]
    by_cases hd : d = c
    · rw [hd, Function.update_self]
    · rw [Function.update_of_ne hd]
      rw [create_mapping] at ht
      by_cases hts : t = s
      · subst t
        rw [Function.update_self, Option.some.injEq] at ht
        exact absurd ht.symm hd
      · rw [Function.update_of_ne hts] at ht
        exact h.mappedActive t d ht
  · by_cases hts : t = s
    · exact hts ▸ hs
    · rw [create_mapping, Function.update_of_ne hts] at ht
      exact h.mappedFinite t d ht
  · rw [create_centers]
    by_cases hdc : d = c
    · rw [hdc, Function.update_self]
      exact hs
    · rw [Function.update_of_ne hdc]
      rw [create_activeCenters, Function.update_of_ne hdc] at hd
      exact h.centersFinite d hd

omit [Field K] [LinearOrder K] in
theorem Sound.assign (h : Sound embeddings T) {s : Fin numLocal} {c : Fin maxSpeakers}
    (hs : hasNan (embeddings s) = false) (hc : T.activeCenters c = true) :
    Sound embeddings (T.assign s c) := by
  refine ⟨fun t d ht => ?_, fun t d ht => ?_, h.centersFinite⟩
  · by_cases hts : t = s
    · subst t
      rw [assign_mapping, Function.update_self, Option.some.injEq] at ht
      exact ht ▸ hc
    · rw [assign_mapping, Function.update_of_ne hts] at ht
      exact h.mappedActive t d ht
  · by_cases hts : t = s
    · exact hts ▸ hs
    · rw [assign_mapping, Function.update_of_ne hts] at ht
      exact h.mappedFinite t d ht

omit [Field K] in
theorem nearestStep_active {e : Embedding K dim} {centers : Fin maxSpeakers → Embedding K dim}
    {activeCenters : Fin maxSpeakers → Bool} (l : List (Fin maxSpeakers))
    (best : ExactFloat K × Option (Fin maxSpeakers))
    (hb : ∀ d, best.2 = some d → activeCenters d = true) {d : Fin maxSpeakers}
    (h : (l.foldl (nearestStep distance e centers activeCenters) best).2 = some d) :
    activeCenters d = true := by
  induction l generalizing best with
  | nil => exact hb d h
  | cons a l ih =>
    refine ih _ ?_ h
    intro f hf
    unfold nearestStep at hf
    split_ifs at hf with ha
    · exact hb f hf
    · rw [Option.some.injEq] at hf
      simpa [hf] using ha
    · exact hb f hf

omit [Field K] in
theorem nearestCenter_active {e : Embedding K dim} {centers : Fin maxSpeakers → Embedding K dim}
    {activeCenters : Fin maxSpeakers → Bool} {c : Fin maxSpeakers}
    (h : nearestCenter distance e centers activeCenters = some c) : activeCenters c = true :=
  nearestStep_active _ _ (fun d hd => by simp at hd) h

omit [Field K] in
theorem Sound.assignOne (h : Sound embeddings T) (longSpeakers : List (Fin numLocal))
    (s : Fin numLocal) : Sound embeddings (assignOne distance embeddings longSpeakers T s) := by
  rcases assignOne_cases distance embeddings longSpeakers T s with
    he | ⟨_, hn, c, _, _, he⟩ | ⟨_, hn, c, _, hc, he⟩
  · rw [he]
    exact h
  · rw [he]
    exact h.create c hn
  · rw [he]
    exact h.assign hn (nearestCenter_active hc)

omit [Field K] in
theorem Sound.assignRemaining (h : Sound embeddings T) (longSpeakers speakers : List (Fin numLocal)) :
    Sound embeddings (assignRemaining distance embeddings longSpeakers speakers T) := by
  induction speakers generalizing T with
  | nil => exact h
  | cons s rest ih => exact ih (h.assignOne longSpeakers s)

omit [Field K] in
theorem assignRemaining_active (longSpeakers speakers : List (Fin numLocal)) {c : Fin maxSpeakers}
    (h : T.activeCenters c = true) :
    (assignRemaining distance embeddings longSpeakers speakers T).activeCenters c = true := by
  induction speakers generalizing T with
  | nil => exact h
  | cons s rest ih =>
    refine ih ?_
    rcases assignOne_cases distance embeddings longSpeakers T s with
      he | ⟨_, _, d, _, _, he⟩ | ⟨_, _, d, _, _, he⟩
    · rw [he]
      exact h
    · rw [he, create_activeCenters]
      by_cases hcd : c = d
      · rw [hcd, Function.update_self]
      · rw [Function.update_of_ne hcd]
        exact h
    · rw [he]
      exact h

omit [LinearOrder K] in
theorem hasNan_add {a b : Embedding K dim} (ha : hasNan a = false) (hb : hasNan b = false) :
    hasNan (fun d => a d + b d) = false := by
  rw [hasNan_eq_false_iff] at *
  intro d
  obtain ⟨x, hx⟩ := ha d
  obtain ⟨y, hy⟩ := hb d
  exact ⟨x + y, by rw [hx, hy, ExactFloat.finite_add]⟩

omit [LinearOrder K] in
theorem Sound.updateOne (h : Sound embeddings T) (longSpeakers : List (Fin numLocal))
    (s : Fin numLocal) : Sound embeddings (updateOne embeddings longSpeakers T s) := by
  obtain ⟨hm, ha⟩ := updateOne_frame embeddings longSpeakers T s
  refine ⟨?_, ?_, ?_⟩
  · rw [hm, ha]
    exact h.mappedActive
  · rw [hm]
    exact h.mappedFinite
  · rw [ha]
    intro d hd
    unfold StreamingClustering.updateOne
    split
    · exact h.centersFinite d hd
    · rename_i c hc
      split
      · by_cases hdc : d = c
        · subst d
          simp only [Function.update_self]
          exact hasNan_add (h.centersFinite c hd) (h.mappedFinite s c hc)
        · simp only [Function.update_of_ne hdc]
          exact h.centersFinite d hd
      · exact h.centersFinite d hd

omit [LinearOrder K] in
theorem Sound.updateCenters (h : Sound embeddings T) (longSpeakers speakers : List (Fin numLocal)) :
    Sound embeddings (updateCenters embeddings longSpeakers speakers T) := by
  induction speakers generalizing T with
  | nil => exact h
  | cons s rest ih => exact ih (h.updateOne longSpeakers s)

omit [Field K] [LinearOrder K] in
theorem Sound.initialAssignment (h : Sound embeddings T) (speakers : List (Fin numLocal)) :
    Sound embeddings (initialAssignment embeddings speakers T) := by
  induction speakers generalizing T with
  | nil => exact h
  | cons s rest ih =>
    rw [StreamingClustering.initialAssignment]
    split_ifs with hn
    · exact ih h
    · cases getNextCenter T.activeCenters with
      | none => exact h
      | some c => exact ih (h.create c (by simpa using hn))

/-- Active centres hold finite values, and there are none before the first call. -/
structure FiniteCenters (σ : OnlineSpeakerClustering K maxSpeakers dim) : Prop where
  before : σ.centers = none → ∀ c, σ.activeCenters c = false
  after : ∀ centers, σ.centers = some centers → ∀ c, σ.activeCenters c = true →
    hasNan (centers c) = false

section Calls

variable {σ : OnlineSpeakerClustering K maxSpeakers dim} {call : Call K dim}
  {sorted : List (Pair K call.numLocal maxSpeakers)}

omit [Field K] [LinearOrder K] in
theorem mem_candidatePairs {centers : Fin maxSpeakers → Embedding K dim}
    {activeCenters : Fin maxSpeakers → Bool} {speakers : List (Fin numLocal)}
    {p : Pair K numLocal maxSpeakers} :
    p ∈ candidatePairs distance embeddings centers activeCenters speakers ↔
      p.s ∈ speakers ∧ hasNan (embeddings p.s) = false ∧ activeCenters p.c = true ∧
        p.dist = distance (embeddings p.s) (centers p.c) := by
  simp only [candidatePairs, List.mem_flatMap]
  constructor
  · rintro ⟨s, hs, hp⟩
    split_ifs at hp with hn
    · simp at hp
    · obtain ⟨c, hc, rfl⟩ := List.mem_map.1 hp
      exact ⟨hs, by simpa using hn, (List.mem_filter.1 hc).2, rfl⟩
  · rintro ⟨hs, hn, hc, hd⟩
    refine ⟨p.s, hs, ?_⟩
    rw [if_neg (by simp [hn])]
    refine List.mem_map.2 ⟨p.c, List.mem_filter.2 ⟨List.mem_finRange _, hc⟩, ?_⟩
    rw [← hd]

theorem mem_pairs {centers : Fin maxSpeakers → Embedding K dim} (hc : σ.centers = some centers)
    {p : Pair K call.numLocal maxSpeakers} : p ∈ σ.pairs distance call ↔
      p.s ∈ σ.activeSpeakers call ∧ hasNan (call.embeddings p.s) = false ∧ σ.activeCenters p.c = true ∧
        p.dist = distance (call.embeddings p.s) (centers p.c) := by
  unfold OnlineSpeakerClustering.pairs
  rw [hc]
  exact mem_candidatePairs

theorem matchedTable_sound (h : FiniteCenters σ) (hs : σ.Sorts distance call sorted)
    {centers : Fin maxSpeakers → Embedding K dim} (hc : σ.centers = some centers) :
    Sound call.embeddings (σ.matchedTable call centers sorted) := by
  have edge : ∀ s c, (matchPairs σ.deltaNew sorted).partner s = some c →
      hasNan (call.embeddings s) = false ∧ σ.activeCenters c = true := by
    intro s c hm
    rcases greedy_partner _ _ _ _ _ hm with old | ⟨p, hp, rfl, rfl, _⟩
    · simp [unmatched] at old
    · obtain ⟨_, hn, ha, _⟩ := (mem_pairs hc).1 (hs.1.mem_iff.1 hp)
      exact ⟨hn, ha⟩
  exact ⟨fun s c hm => (edge s c hm).2, fun s c hm => (edge s c hm).1, h.after centers hc⟩

theorem finalTable_sound (h : FiniteCenters σ) (hs : σ.Sorts distance call sorted) :
    Sound call.embeddings (σ.finalTable distance call sorted) := by
  unfold OnlineSpeakerClustering.finalTable
  cases hc : σ.centers with
  | none =>
    refine Sound.initialAssignment ⟨?_, ?_, ?_⟩ _ <;> simp
  | some centers =>
    exact ((matchedTable_sound h hs hc).assignRemaining _ _).updateCenters _ _

end Calls

theorem finiteCenters_step {σ υ : OnlineSpeakerClustering K maxSpeakers dim} {call : Call K dim}
    (h : FiniteCenters σ) (hu : Step distance σ call υ) : FiniteCenters υ := by
  obtain ⟨sorted, hs, rfl⟩ := hu
  refine ⟨fun hc => by simp [OnlineSpeakerClustering.identify] at hc, ?_⟩
  intro centers hc c ha
  simp only [OnlineSpeakerClustering.identify, Option.some.injEq] at hc ha
  exact hc ▸ (finalTable_sound h hs).centersFinite c ha

/-- After every history, whatever the embeddings and the tie orders. -/
theorem finiteCenters_reachable {σ : OnlineSpeakerClustering K maxSpeakers dim}
    (h : Reachable Start (Step distance) σ) : FiniteCenters σ := by
  refine h.invariant FiniteCenters ?_ (fun s i u => finiteCenters_step)
  rintro s ⟨tau, rho, delta, rfl⟩
  exact ⟨fun _ _ => rfl, fun centers hc => by simp [OnlineSpeakerClustering.fresh] at hc⟩

end PyannoteCpp.StreamingClustering

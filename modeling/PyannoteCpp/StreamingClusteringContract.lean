import PyannoteCpp.StreamingClusteringFallback

set_option autoImplicit false

/-!
# What a call of `identify` owes its caller

Only active speakers with a finite embedding are mapped, onto active centres that
stay active and finite. After the first call such a speaker is mapped as soon as
some centre can take it, unless a product in the distances overflows.
-/
namespace PyannoteCpp.StreamingClustering
open ReachableStates SortContract GreedyMatching

variable {K : Type*} [Field K] [LinearOrder K] {maxSpeakers dim numLocal : ℕ}
  {distance : Embedding K dim → Embedding K dim → ExactFloat K} {limit : K}
  {embeddings : Fin numLocal → Embedding K dim} {T : Table K numLocal maxSpeakers dim}
  {longSpeakers : List (Fin numLocal)}

/-- Nobody but `speakers` is mapped. -/
def MapsOnly (speakers : List (Fin numLocal)) (T : Table K numLocal maxSpeakers dim) : Prop :=
  ∀ s c, T.mapping s = some c → s ∈ speakers

omit [Field K] [LinearOrder K] in
theorem mapsOnly_update {speakers : List (Fin numLocal)} (h : MapsOnly speakers T)
    {s : Fin numLocal} (hs : s ∈ speakers) (c : Fin maxSpeakers) (t : Fin numLocal)
    (d : Fin maxSpeakers) (ht : Function.update T.mapping s (some c) t = some d) :
    t ∈ speakers := by
  by_cases hts : t = s
  · rw [hts]
    exact hs
  · rw [Function.update_of_ne hts] at ht
    exact h t d ht

omit [Field K] [LinearOrder K] in
theorem MapsOnly.initialAssignment {speakers : List (Fin numLocal)} (h : MapsOnly speakers T)
    {l : List (Fin numLocal)} (hl : ∀ s ∈ l, s ∈ speakers) :
    MapsOnly speakers (initialAssignment embeddings l T) := by
  induction l generalizing T with
  | nil => exact h
  | cons s rest ih =>
    have tail : ∀ t ∈ rest, t ∈ speakers := fun t ht => hl t (List.mem_cons_of_mem s ht)
    rw [StreamingClustering.initialAssignment]
    split_ifs
    · exact ih h tail
    · cases getNextCenter T.activeCenters with
      | none => exact h
      | some c => exact ih (mapsOnly_update h (hl s List.mem_cons_self) c) tail

omit [Field K] in
theorem MapsOnly.assignOne {speakers : List (Fin numLocal)} (h : MapsOnly speakers T)
    {s : Fin numLocal} (hs : s ∈ speakers) :
    MapsOnly speakers (assignOne distance embeddings longSpeakers T s) := by
  rcases assignOne_cases distance embeddings longSpeakers T s with
    he | ⟨_, _, c, _, _, he⟩ | ⟨_, _, c, _, _, he⟩
  · rw [he]
    exact h
  · rw [he]
    exact mapsOnly_update h hs c
  · rw [he]
    exact mapsOnly_update h hs c

omit [Field K] in
theorem MapsOnly.assignRemaining {speakers : List (Fin numLocal)} (h : MapsOnly speakers T)
    {l : List (Fin numLocal)} (hl : ∀ s ∈ l, s ∈ speakers) :
    MapsOnly speakers (assignRemaining distance embeddings longSpeakers l T) := by
  induction l generalizing T with
  | nil => exact h
  | cons s rest ih =>
    exact ih (h.assignOne (hl s List.mem_cons_self)) (fun t ht => hl t (List.mem_cons_of_mem s ht))

theorem matchedTable_mapsOnly {σ : OnlineSpeakerClustering K maxSpeakers dim} {call : Call K dim}
    {sorted : List (Pair K call.numLocal maxSpeakers)} (hs : σ.Sorts distance call sorted)
    {centers : Fin maxSpeakers → Embedding K dim} (hc : σ.centers = some centers) :
    MapsOnly (σ.activeSpeakers call) (σ.matchedTable call centers sorted) := by
  intro s c hm
  rcases greedy_partner _ _ _ _ _ hm with old | ⟨p, hp, rfl, _, _⟩
  · simp [unmatched] at old
  · exact ((mem_pairs hc).1 (hs.1.mem_iff.1 hp)).1

theorem finalTable_mapsOnly {σ : OnlineSpeakerClustering K maxSpeakers dim} {call : Call K dim}
    {sorted : List (Pair K call.numLocal maxSpeakers)} (hs : σ.Sorts distance call sorted) :
    MapsOnly (σ.activeSpeakers call) (σ.finalTable distance call sorted) := by
  unfold OnlineSpeakerClustering.finalTable
  cases hc : σ.centers with
  | none =>
    apply MapsOnly.initialAssignment _ (fun _ ht => ht)
    intro s c absent
    cases absent
  | some centers =>
    have kept : MapsOnly (σ.activeSpeakers call)
        (assignRemaining distance call.embeddings (σ.longSpeakers call) (σ.activeSpeakers call)
          (σ.matchedTable call centers sorted)) :=
      (matchedTable_mapsOnly hs hc).assignRemaining (fun _ ht => ht)
    intro s c hm
    rw [(updateCenters_frame ..).1] at hm
    exact kept s c hm

/-- Every distance to an active centre, or to one that the call may create, is finite. -/
structure InReach (distance : Embedding K dim → Embedding K dim → ExactFloat K) (embeddings : Fin numLocal → Embedding K dim)
    (T : Table K numLocal maxSpeakers dim) : Prop where
  centers : ∀ s c, hasNan (embeddings s) = false → T.activeCenters c = true →
    (distance (embeddings s) (T.centers c)).IsFinite
  embeddings : ∀ s t, hasNan (embeddings s) = false → hasNan (embeddings t) = false →
    (distance (embeddings s) (embeddings t)).IsFinite

omit [Field K] [LinearOrder K] in
theorem InReach.create (h : InReach distance embeddings T) {s : Fin numLocal} (c : Fin maxSpeakers)
    (hs : hasNan (embeddings s) = false) : InReach distance embeddings (T.create s c (embeddings s)) := by
  refine ⟨fun t d ht hd => ?_, h.embeddings⟩
  rw [create_centers]
  by_cases hdc : d = c
  · rw [hdc, Function.update_self]
    exact h.embeddings t s ht hs
  · rw [create_activeCenters, Function.update_of_ne hdc] at hd
    rw [Function.update_of_ne hdc]
    exact h.centers t d ht hd

omit [Field K] in
theorem InReach.assignOne (h : InReach distance embeddings T) (longSpeakers : List (Fin numLocal)) (s : Fin numLocal) :
    InReach distance embeddings (assignOne distance embeddings longSpeakers T s) := by
  rcases assignOne_cases distance embeddings longSpeakers T s with
    he | ⟨_, hn, c, _, _, he⟩ | ⟨_, _, c, _, _, he⟩
  · rw [he]
    exact h
  · rw [he]
    exact h.create c hn
  · rw [he]
    exact ⟨h.centers, h.embeddings⟩

omit [Field K] in
theorem nearestStep_taken {e : Embedding K dim} {centers : Fin maxSpeakers → Embedding K dim}
    {activeCenters : Fin maxSpeakers → Bool} {best : ExactFloat K × Option (Fin maxSpeakers)}
    (far : best.2 = none → best.1 = .inf false) {a : Fin maxSpeakers} (ha : activeCenters a = true)
    (finite : (distance e (centers a)).IsFinite) :
    (nearestStep distance e centers activeCenters best a).2.isSome = true := by
  obtain ⟨x, hx⟩ := finite
  unfold nearestStep
  rw [ha, hx]
  cases hb : best.2 with
  | none =>
    rw [far hb]
    rfl
  | some c =>
    simp only [Bool.not_true, Bool.false_eq_true, if_false]
    split_ifs
    · rfl
    · rw [hb]
      rfl

omit [Field K] in
theorem nearestStep_isSome {e : Embedding K dim} {centers : Fin maxSpeakers → Embedding K dim}
    {activeCenters : Fin maxSpeakers → Bool}
    (finite : ∀ c, activeCenters c = true → (distance e (centers c)).IsFinite)
    (l : List (Fin maxSpeakers)) {best : ExactFloat K × Option (Fin maxSpeakers)}
    (far : best.2 = none → best.1 = .inf false)
    (some : best.2.isSome ∨ ∃ c ∈ l, activeCenters c = true) :
    (l.foldl (nearestStep distance e centers activeCenters) best).2.isSome = true := by
  induction l generalizing best with
  | nil =>
    rcases some with done | ⟨c, absent, _⟩
    · exact done
    · cases absent
  | cons a l ih =>
    rw [List.foldl_cons]
    by_cases ha : activeCenters a = true
    · have taken := nearestStep_taken far ha (finite a ha)
      apply ih _ (Or.inl taken)
      intro absent
      rw [absent] at taken
      cases taken
    · have skipped : nearestStep distance e centers activeCenters best a = best := by
        unfold nearestStep
        simp [ha]
      rw [skipped]
      apply ih far
      rcases some with done | ⟨c, hc, hca⟩
      · exact Or.inl done
      · rcases List.mem_cons.1 hc with rfl | hc
        · exact absurd hca ha
        · exact Or.inr ⟨c, hc, hca⟩

omit [Field K] in
theorem nearestCenter_isSome {s : Fin numLocal} (hs : hasNan (embeddings s) = false)
    (hT : InReach distance embeddings T) {c : Fin maxSpeakers} (hc : T.activeCenters c = true) :
    (nearestCenter distance (embeddings s) T.centers T.activeCenters).isSome = true :=
  nearestStep_isSome (fun d hd => hT.centers s d hs hd) _ (fun _ => rfl) (Or.inr ⟨c, List.mem_finRange c, hc⟩)

theorem getNextCenter_isSome {activeCenters : Fin maxSpeakers → Bool} {c : Fin maxSpeakers}
    (hc : activeCenters c = false) : (getNextCenter activeCenters).isSome = true := by
  rw [getNextCenter, List.find?_isSome]
  exact ⟨c, List.mem_finRange c, by simp [hc]⟩

/-- Some centre is active, or the speaker is long and a slot is free. -/
def Placeable (longSpeakers : List (Fin numLocal)) (activeCenters : Fin maxSpeakers → Bool)
    (s : Fin numLocal) : Prop :=
  (∃ c, activeCenters c = true) ∨ (s ∈ longSpeakers ∧ ∃ c, activeCenters c = false)

omit [Field K] [LinearOrder K] in
theorem Placeable.mono {before after : Fin maxSpeakers → Bool} {s : Fin numLocal}
    (h : Placeable longSpeakers before s) (grow : ∀ c, before c = true → after c = true) :
    Placeable longSpeakers after s := by
  rcases h with ⟨c, hc⟩ | ⟨long, c, hc⟩
  · exact Or.inl ⟨c, grow c hc⟩
  · cases ha : after c with
    | true => exact Or.inl ⟨c, ha⟩
    | false => exact Or.inr ⟨long, c, ha⟩

omit [Field K] in
theorem assignOne_places (hT : InReach distance embeddings T) {s : Fin numLocal}
    (hs : hasNan (embeddings s) = false)
    (place : Placeable longSpeakers T.activeCenters s) :
    ((assignOne distance embeddings longSpeakers T s).mapping s).isSome = true := by
  unfold assignOne
  by_cases hm : (T.mapping s).isSome
  · rw [if_pos hm]
    exact hm
  rw [if_neg hm, if_neg (by simp [hs])]
  cases hslot : (if s ∈ longSpeakers then getNextCenter T.activeCenters else none) with
  | some c => simp
  | none =>
    obtain ⟨c, hc⟩ : ∃ c, T.activeCenters c = true := by
      rcases place with active | ⟨long, c, free⟩
      · exact active
      · rw [if_pos long] at hslot
        have slot := getNextCenter_isSome free
        rw [hslot] at slot
        cases slot
    have near := nearestCenter_isSome hs hT hc
    cases hnear : nearestCenter distance (embeddings s) T.centers T.activeCenters with
    | some d => simp
    | none =>
      rw [hnear] at near
      cases near

omit [Field K] in
theorem assignOne_keeps {s t : Fin numLocal} {c : Fin maxSpeakers} (ht : T.mapping t = some c) :
    (assignOne distance embeddings longSpeakers T s).mapping t = some c := by
  rcases assignOne_cases distance embeddings longSpeakers T s with
    he | ⟨hm, _, b, _, _, he⟩ | ⟨hm, _, b, _, _, he⟩
  · rw [he]
    exact ht
  · have ne : t ≠ s := by
      intro same
      rw [same, hm] at ht
      cases ht
    rw [he, create_mapping, Function.update_of_ne ne]
    exact ht
  · have ne : t ≠ s := by
      intro same
      rw [same, hm] at ht
      cases ht
    rw [he, assign_mapping, Function.update_of_ne ne]
    exact ht

omit [Field K] in
theorem assignRemaining_keeps (speakers : List (Fin numLocal)) {t : Fin numLocal}
    {c : Fin maxSpeakers} (ht : T.mapping t = some c) :
    (assignRemaining distance embeddings longSpeakers speakers T).mapping t = some c := by
  induction speakers generalizing T with
  | nil => exact ht
  | cons s rest ih => exact ih (assignOne_keeps ht)

omit [Field K] in
theorem assignRemaining_mapping {t : Fin numLocal} (l : List (Fin numLocal))
    (ht : (T.mapping t).isSome = true) :
    ((assignRemaining distance embeddings longSpeakers l T).mapping t).isSome = true := by
  obtain ⟨c, hc⟩ := Option.isSome_iff_exists.1 ht
  rw [assignRemaining_keeps l hc]
  rfl

omit [Field K] in
theorem assignRemaining_places (hT : InReach distance embeddings T) {l : List (Fin numLocal)}
    {s : Fin numLocal} (hl : s ∈ l) (hs : hasNan (embeddings s) = false)
    (place : Placeable longSpeakers T.activeCenters s) :
    ((assignRemaining distance embeddings longSpeakers l T).mapping s).isSome = true := by
  induction l generalizing T with
  | nil => cases hl
  | cons a rest ih =>
    by_cases here : s = a
    · rw [here] at hs place ⊢
      exact assignRemaining_mapping rest (assignOne_places hT hs place)
    · have tail : s ∈ rest := (List.mem_cons.1 hl).resolve_left here
      refine ih (hT.assignOne longSpeakers a) tail (place.mono ?_)
      intro c hc
      exact assignRemaining_active longSpeakers [a] hc

theorem finalTable_active {σ : OnlineSpeakerClustering K maxSpeakers dim} {call : Call K dim}
    {sorted : List (Pair K call.numLocal maxSpeakers)} (h : FiniteCenters σ) {c : Fin maxSpeakers}
    (hc : σ.activeCenters c = true) : (σ.finalTable distance call sorted).activeCenters c = true := by
  unfold OnlineSpeakerClustering.finalTable
  cases hcenters : σ.centers with
  | none =>
    rw [h.before hcenters c] at hc
    cases hc
  | some centers =>
    rw [(updateCenters_frame ..).2]
    exact assignRemaining_active _ _ hc

namespace OnlineSpeakerClustering

structure ProductsFit (limit : K) (σ : OnlineSpeakerClustering K maxSpeakers dim) (call : Call K dim) : Prop where
  centers : ∀ centers, σ.centers = some centers → ∀ s c, hasNan (call.embeddings s) = false → σ.activeCenters c = true →
    ∀ d, |(call.embeddings s d).value * (centers c d).value| < limit
  embeddings : ∀ s t, hasNan (call.embeddings s) = false → hasNan (call.embeddings t) = false →
    ∀ d, |(call.embeddings s d).value * (call.embeddings t d).value| < limit

end OnlineSpeakerClustering

section Fitting

variable {σ : OnlineSpeakerClustering K maxSpeakers dim} {call : Call K dim}
  {sorted : List (Pair K call.numLocal maxSpeakers)}

theorem isFinite_of_fits {u v : Embedding K dim} (hu : hasNan u = false) (hv : hasNan v = false)
    (hfit : ∀ d, |(u d).value * (v d).value| < limit) : (floatDistance limit u v).IsFinite := by
  rw [floatDistance_finite hu hv hfit, finite_values hu, finite_values hv, cosineDistance_finite]
  exact ⟨_, rfl⟩

theorem matchedTable_inReach (h : FiniteCenters σ) (fits : σ.ProductsFit limit call)
    {centers : Fin maxSpeakers → Embedding K dim} (hc : σ.centers = some centers) :
    InReach (floatDistance limit) call.embeddings (σ.matchedTable call centers sorted) :=
  ⟨fun s c hs ha => isFinite_of_fits hs (h.after centers hc c ha) (fits.centers centers hc s c hs ha),
    fun s t hs ht => isFinite_of_fits hs ht (fits.embeddings s t hs ht)⟩

theorem finalTable_places (h : FiniteCenters σ) (fits : σ.ProductsFit limit call) (later : σ.centers ≠ none)
    {s : Fin call.numLocal} (active : s ∈ σ.activeSpeakers call) (finite : hasNan (call.embeddings s) = false)
    (place : Placeable (σ.longSpeakers call) σ.activeCenters s) :
    ((σ.finalTable (floatDistance limit) call sorted).mapping s).isSome = true := by
  unfold OnlineSpeakerClustering.finalTable
  cases hc : σ.centers with
  | none => exact absurd hc later
  | some centers =>
    rw [(updateCenters_frame ..).1]
    exact assignRemaining_places (matchedTable_inReach h fits hc) active finite place

theorem pairs_finite (h : FiniteCenters σ) (fits : σ.ProductsFit limit call) {p : Pair K call.numLocal maxSpeakers}
    (hp : p ∈ σ.pairs (floatDistance limit) call) : p.dist.IsFinite := by
  cases hc : σ.centers with
  | none => simp [OnlineSpeakerClustering.pairs, hc] at hp
  | some centers =>
    obtain ⟨_, hn, ha, hd⟩ := (mem_pairs hc).1 hp
    rw [hd]
    exact isFinite_of_fits hn (h.after centers hc p.c ha) (fits.centers centers hc p.s p.c hn ha)

theorem pairs_strictWeak (h : FiniteCenters σ) (fits : σ.ProductsFit limit call) :
    StrictWeakOn distLt (σ.pairs (floatDistance limit) call) := by
  apply strictWeakOn_key (fun p => p.dist.value)
  intro p hp q hq
  obtain ⟨x, hx⟩ := pairs_finite h fits hp
  obtain ⟨y, hy⟩ := pairs_finite h fits hq
  unfold distLt
  rw [hx, hy]
  rfl

/-- Every call of every history, whatever the embeddings hold. A call is a later one when the centre table has been
    set up. -/
theorem identify_contract (h : Reachable Start (Step (floatDistance limit)) σ) (call : Call K dim)
    (sorted : List (Pair K call.numLocal maxSpeakers)) (hsort : σ.Sorts (floatDistance limit) call sorted) :
    (∀ s c, (σ.identify (floatDistance limit) call sorted).1 s = some c →
      (σ.identify (floatDistance limit) call sorted).2.activeCenters c = true) ∧
    (∀ c, σ.activeCenters c = true → (σ.identify (floatDistance limit) call sorted).2.activeCenters c = true) ∧
    (∀ centers, (σ.identify (floatDistance limit) call sorted).2.centers = some centers →
      ∀ c, (σ.identify (floatDistance limit) call sorted).2.activeCenters c = true → ∀ d, (centers c d).IsFinite) ∧
    (∀ s, σ.tauActive.le (call.maxVal s) = false ∨ hasNan (call.embeddings s) = true →
      (σ.identify (floatDistance limit) call sorted).1 s = none) ∧
    (σ.ProductsFit limit call →
      ((∀ p ∈ σ.pairs (floatDistance limit) call, p.dist.IsFinite) ∧
        StrictWeakOn distLt (σ.pairs (floatDistance limit) call)) ∧
      (σ.centers ≠ none → ∀ s, σ.tauActive.le (call.maxVal s) = true → hasNan (call.embeddings s) = false →
        ((∃ c, σ.activeCenters c = true) ∨
          (σ.rhoUpdate.le (call.meanVal s) = true ∧ ∃ c, σ.activeCenters c = false)) →
        ((σ.identify (floatDistance limit) call sorted).1 s).isSome = true)) := by
  have finite := finiteCenters_reachable h
  have sound := finalTable_sound finite hsort
  refine ⟨sound.mappedActive, fun c hc => finalTable_active finite hc, ?_, ?_, fun fits =>
    ⟨⟨fun p hp => pairs_finite finite fits hp, pairs_strictWeak finite fits⟩, ?_⟩⟩
  · intro centers hcenters c hc
    cases hcenters
    exact (hasNan_eq_false_iff _).1 (sound.centersFinite c hc)
  · intro s left
    cases hm : (σ.identify (floatDistance limit) call sorted).1 s with
    | none => rfl
    | some c =>
      rcases left with quiet | broken
      · have active := (List.mem_filter.1 (finalTable_mapsOnly hsort s c hm)).2
        rw [quiet] at active
        cases active
      · have whole := sound.mappedFinite s c hm
        rw [broken] at whole
        cases whole
  · intro later s active whole place
    refine finalTable_places finite fits later
      (List.mem_filter.2 ⟨List.mem_finRange s, active⟩) whole (place.imp id ?_)
    exact fun h => ⟨List.mem_filter.2 ⟨List.mem_finRange s, h.1⟩, h.2⟩

end Fitting

/-- From this magnitude on a product is rounded past the largest `float`. -/
def singleLimit : ℚ := 2 ^ 128 - 2 ^ 103

def pairCall {dim : ℕ} (e f : Embedding ℚ dim) : Call ℚ dim where
  numFrames := 4
  numLocal := 3
  segmentation := fun t s => if s.val = 0 ∨ (s.val = 1 ∧ t.val = 0) then 1 else 0
  embeddings := fun s => if s.val = 0 then e else if s.val = 1 then f else fun _ => .nan

def started {dim : ℕ} (e f : Embedding ℚ dim) : OnlineSpeakerClustering ℚ 20 dim :=
  ((OnlineSpeakerClustering.fresh (.finite (3 / 5)) (.finite (3 / 10)) (.finite 1)).identify
    (floatDistance singleLimit) (pairCall e f) []).2

theorem started_reachable {dim : ℕ} (e f : Embedding ℚ dim) :
    Reachable Start (Step (floatDistance singleLimit)) (started e f) :=
  .step (i := pairCall e f) (.start ⟨_, _, _, rfl⟩)
    ⟨[], ⟨List.Perm.refl _, fun _ => ⟨List.Perm.refl _, List.Pairwise.nil⟩⟩, rfl⟩

def farCenters : OnlineSpeakerClustering ℚ 20 1 := started (fun _ => .finite (2 ^ 67)) (fun _ => .finite (2 ^ 67))

def farCall : Call ℚ 1 := pairCall (fun _ => .nan) (fun _ => .finite (-2 ^ 67))

def skewCenters : OnlineSpeakerClustering ℚ 20 2 :=
  started (fun d => .finite (if d.val = 0 then 2 ^ 67 else -2 ^ 67)) (fun _ => .finite (1 / 2 ^ 68))

def skewCall : Call ℚ 2 := pairCall (fun _ => .finite (2 ^ 67)) (fun _ => 0)

def skewPairs : List (Pair ℚ skewCall.numLocal 20) := skewCenters.pairs (floatDistance singleLimit) skewCall

example : (farCenters.pairs (floatDistance singleLimit) farCall).map (fun p => p.dist) = [.inf false, .inf false] := by decide +kernel

/-- The distance that is no number compares with neither of two distances that differ. -/
theorem skew_unordered : ¬StrictWeakOn distLt skewPairs := by
  intro ordered
  have missing := ordered.incomparable _ (List.get_mem skewPairs ⟨1, by decide +kernel⟩) _
    (List.get_mem skewPairs ⟨0, by decide +kernel⟩) _ (List.get_mem skewPairs ⟨2, by decide +kernel⟩)
    (by decide +kernel) (by decide +kernel) (by decide +kernel) (by decide +kernel)
  exact absurd missing.1 (by decide +kernel)

/-- Far along the axis of both centres, a short speaker is at no finite distance and stays unmapped. Infinities of both
    signs leave distances that no strict weak order sorts. -/
theorem identify_contract_overflow :
    (Reachable Start (Step (floatDistance singleLimit)) farCenters ∧ farCenters.Sorts (floatDistance singleLimit) farCall
        (farCenters.pairs (floatDistance singleLimit) farCall) ∧
      farCenters.centers ≠ none ∧ farCenters.activeCenters 0 = true ∧
      farCenters.tauActive.le (farCall.maxVal ⟨1, Nat.one_lt_succ_succ 1⟩) = true ∧ hasNan (farCall.embeddings ⟨1, Nat.one_lt_succ_succ 1⟩) = false ∧
      (farCenters.identify (floatDistance singleLimit) farCall (farCenters.pairs (floatDistance singleLimit) farCall)).1 ⟨1, Nat.one_lt_succ_succ 1⟩ = none) ∧
    Reachable Start (Step (floatDistance singleLimit)) skewCenters ∧ ¬StrictWeakOn distLt skewPairs := by
  refine ⟨⟨started_reachable _ _, ⟨List.Perm.refl _, fun _ => ⟨List.Perm.refl _, ?_⟩⟩, ?_, ?_, ?_, ?_, ?_⟩,
    started_reachable _ _, skew_unordered⟩
  · unfold Sorted
    decide +kernel
  · intro absent
    cases absent
  all_goals decide +kernel

def calmCenters : OnlineSpeakerClustering ℚ 20 1 := started (fun _ => .finite 1) (fun _ => .finite (1 / 2))

def calmCall : Call ℚ 1 := pairCall (fun _ => .finite 1) (fun _ => .finite (1 / 4))

def calmPairs : List (Pair ℚ calmCall.numLocal 20) := calmCenters.pairs (floatDistance singleLimit) calmCall

theorem calm_sorts : calmCenters.Sorts (floatDistance singleLimit) calmCall calmPairs :=
  ⟨List.Perm.refl _, fun _ => ⟨List.Perm.refl _, by unfold Sorted; decide +kernel⟩⟩

theorem calm_fits : calmCenters.ProductsFit singleLimit calmCall := by
  constructor
  · intro centers present
    cases present
    decide +kernel
  · decide +kernel

/-- The short speaker is mapped beside the long one. -/
theorem identify_contract_calm :
    ((calmCenters.identify (floatDistance singleLimit) calmCall calmPairs).1 ⟨1, Nat.one_lt_succ_succ 1⟩).isSome = true := by
  have contract := identify_contract (started_reachable _ _) calmCall calmPairs calm_sorts
  exact (contract.2.2.2.2 calm_fits).2 (by decide +kernel) ⟨1, Nat.one_lt_succ_succ 1⟩ (by decide +kernel) (by decide +kernel)
    (Or.inl ⟨0, by decide +kernel⟩)

end PyannoteCpp.StreamingClustering

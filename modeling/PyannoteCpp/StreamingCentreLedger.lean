import PyannoteCpp.StreamingClusteringContract

set_option autoImplicit false

/-!
# What a centre is the sum of

The ledger of a centre enters, call by call, the embedding of every speaker that
created the centre or was assigned to it and updates it. A centre set up by the
first call holds its ledger. One created later is set to the embedding and then
updated by it in the same call.
-/
namespace PyannoteCpp.StreamingClustering
open ReachableStates SortContract GreedyMatching

variable {K : Type*} [Field K] [LinearOrder K] {maxSpeakers dim numLocal : ℕ}

namespace OnlineSpeakerClustering

variable (σ : OnlineSpeakerClustering K maxSpeakers dim)
  (distance : Embedding K dim → Embedding K dim → ExactFloat K) (call : Call K dim)
  (sorted : List (Pair K call.numLocal maxSpeakers))

/-- What a call enters for a centre: each speaker it maps there enters once, if
    the call is the first or the speaker long. -/
def entry (c : Fin maxSpeakers) (d : Fin dim) : K :=
  ∑ s, if (σ.identify distance call sorted).1 s = some c ∧ (σ.centers = none ∨ s ∈ σ.longSpeakers call) then
    (call.embeddings s d).value else 0

/-- The call is the first, or no slot is free, or the matching takes every active
    long speaker with a finite embedding. -/
def OnTime : Prop :=
  σ.centers = none ∨ (∀ c, σ.activeCenters c = true) ∨
    ∀ s ∈ σ.activeSpeakers call, hasNan (call.embeddings s) = false → s ∈ σ.longSpeakers call →
      (matchPairs σ.deltaNew sorted).partner s ≠ none

end OnlineSpeakerClustering

/-- A history of admitted calls with its ledger. -/
inductive Ledgered (distance : Embedding K dim → Embedding K dim → ExactFloat K)
    (ok : (σ : OnlineSpeakerClustering K maxSpeakers dim) → (call : Call K dim) →
      List (Pair K call.numLocal maxSpeakers) → Prop) :
    OnlineSpeakerClustering K maxSpeakers dim → (Fin maxSpeakers → Fin dim → K) → Prop where
  | start {σ : OnlineSpeakerClustering K maxSpeakers dim} (h : Start σ) :
      Ledgered distance ok σ (fun _ _ => 0)
  | call {σ : OnlineSpeakerClustering K maxSpeakers dim} {ledger : Fin maxSpeakers → Fin dim → K}
      (tail : Ledgered distance ok σ ledger) (call : Call K dim)
      (sorted : List (Pair K call.numLocal maxSpeakers)) (sorts : σ.Sorts distance call sorted)
      (admitted : ok σ call sorted) :
      Ledgered distance ok (σ.identify distance call sorted).2
        (fun c d => ledger c d + σ.entry distance call sorted c d)

variable {distance : Embedding K dim → Embedding K dim → ExactFloat K}

theorem Ledgered.reachable
    {ok : (σ : OnlineSpeakerClustering K maxSpeakers dim) → (call : Call K dim) →
      List (Pair K call.numLocal maxSpeakers) → Prop}
    {σ : OnlineSpeakerClustering K maxSpeakers dim} {ledger : Fin maxSpeakers → Fin dim → K}
    (h : Ledgered distance ok σ ledger) : Reachable Start (Step distance) σ := by
  induction h with
  | start h => exact .start h
  | call _ call sorted sorts _ ih => exact .step ih ⟨sorted, sorts, rfl⟩

variable {embeddings : Fin numLocal → Embedding K dim} {T : Table K numLocal maxSpeakers dim}
  {longSpeakers : List (Fin numLocal)}

section Update

omit [LinearOrder K] in
theorem updateOne_center (hT : Sound embeddings T) (s : Fin numLocal) {c : Fin maxSpeakers}
    (hc : T.activeCenters c = true) (d : Fin dim) :
    ((updateOne embeddings longSpeakers T s).centers c d) = .finite ((T.centers c d).value +
      if T.mapping s = some c ∧ s ∈ longSpeakers then (embeddings s d).value else 0) := by
  have old := congrFun (finite_values (hT.centersFinite c hc)) d
  unfold updateOne
  cases hm : T.mapping s with
  | none =>
    rw [if_neg (by simp), add_zero]
    exact old
  | some b =>
    by_cases long : s ∈ longSpeakers
    · simp only [if_pos long]
      by_cases hb : c = b
      · subst b
        rw [Function.update_self, if_pos ⟨rfl, long⟩, old,
          congrFun (finite_values (hT.mappedFinite s c hm)) d]
        rfl
      · have other : ¬(some b = some c ∧ s ∈ longSpeakers) := by
          rintro ⟨same, _⟩
          exact hb (Option.some.inj same).symm
        rw [Function.update_of_ne hb, if_neg other, add_zero]
        exact old
    · simp only [if_neg long]
      rw [if_neg (fun both => long both.2), add_zero]
      exact old

omit [LinearOrder K] in
theorem updateCenters_center (hT : Sound embeddings T) (speakers : List (Fin numLocal))
    {c : Fin maxSpeakers} (hc : T.activeCenters c = true) (d : Fin dim) :
    ((updateCenters embeddings longSpeakers speakers T).centers c d) =
      .finite ((T.centers c d).value + (speakers.map (fun s =>
        if T.mapping s = some c ∧ s ∈ longSpeakers then (embeddings s d).value else 0)).sum) := by
  induction speakers generalizing T with
  | nil =>
    rw [List.map_nil, List.sum_nil, add_zero]
    exact congrFun (finite_values (hT.centersFinite c hc)) d
  | cons s rest ih =>
    obtain ⟨hm, ha⟩ := updateOne_frame embeddings longSpeakers T s
    have tail := ih (hT.updateOne longSpeakers s) (by rw [ha]; exact hc)
    rw [updateOne_center hT s hc d, ExactFloat.value_finite, hm] at tail
    rw [List.map_cons, List.sum_cons, ← add_assoc]
    exact tail

end Update

section Remaining

omit [Field K] in
theorem assignOne_center (s : Fin numLocal) {c : Fin maxSpeakers} (hc : T.activeCenters c = true) :
    (assignOne distance embeddings longSpeakers T s).centers c = T.centers c := by
  rcases assignOne_cases distance embeddings longSpeakers T s with
    he | ⟨_, _, b, _, hb, he⟩ | ⟨_, _, b, _, _, he⟩
  · rw [he]
  · have ne : c ≠ b := by
      intro same
      have fresh := getNextCenter_inactive b hb
      rw [← same, hc] at fresh
      cases fresh
    rw [he, create_centers, Function.update_of_ne ne]
  · rw [he, assign_centers]

omit [Field K] in
theorem assignRemaining_center (speakers : List (Fin numLocal)) {c : Fin maxSpeakers}
    (hc : T.activeCenters c = true) :
    (assignRemaining distance embeddings longSpeakers speakers T).centers c = T.centers c := by
  induction speakers generalizing T with
  | nil => rfl
  | cons s rest ih =>
    have stays : (assignOne distance embeddings longSpeakers T s).activeCenters c = true :=
      assignRemaining_active longSpeakers [s] hc
    exact (ih stays).trans (assignOne_center s hc)

omit [Field K] in
theorem assignOne_places_long {s : Fin numLocal} (unmapped : T.mapping s = none)
    (finite : hasNan (embeddings s) = false) (long : s ∈ longSpeakers)
    (slot : (getNextCenter T.activeCenters).isSome = true) :
    ((assignOne distance embeddings longSpeakers T s).mapping s).isSome = true := by
  obtain ⟨c, hc⟩ := Option.isSome_iff_exists.1 slot
  unfold assignOne
  rw [unmapped, if_neg (by simp), if_neg (by simp [finite]), if_pos long, hc]
  simp

omit [Field K] in
theorem assignRemaining_created (speakers : List (Fin numLocal)) {c : Fin maxSpeakers}
    (before : T.activeCenters c = false)
    (after : (assignRemaining distance embeddings longSpeakers speakers T).activeCenters c = true) :
    ∃ s ∈ longSpeakers, (assignRemaining distance embeddings longSpeakers speakers T).mapping s = some c ∧
      (assignRemaining distance embeddings longSpeakers speakers T).centers c = embeddings s := by
  induction speakers generalizing T with
  | nil =>
    change T.activeCenters c = true at after
    rw [before] at after
    cases after
  | cons s rest ih =>
    have round := assignOne_cases distance embeddings longSpeakers T s
    change (assignRemaining distance embeddings longSpeakers rest
      (assignOne distance embeddings longSpeakers T s)).activeCenters c = true at after
    change ∃ t ∈ longSpeakers, (assignRemaining distance embeddings longSpeakers rest
      (assignOne distance embeddings longSpeakers T s)).mapping t = some c ∧ (assignRemaining distance embeddings
        longSpeakers rest (assignOne distance embeddings longSpeakers T s)).centers c = embeddings t
    rcases round with he | ⟨_, _, b, long, _, he⟩ | ⟨_, _, b, _, _, he⟩
    · rw [he] at after ⊢
      exact ih before after
    · rw [he] at after ⊢
      by_cases hb : c = b
      · subst b
        have now : (T.create s c (embeddings s)).activeCenters c = true := by
          rw [create_activeCenters, Function.update_self]
        refine ⟨s, long, assignRemaining_keeps rest ?_, ?_⟩
        · rw [create_mapping, Function.update_self]
        · rw [assignRemaining_center rest now, create_centers, Function.update_self]
      · have still : (T.create s b (embeddings s)).activeCenters c = false := by
          rw [create_activeCenters, Function.update_of_ne hb]
          exact before
        exact ih still after
    · rw [he] at after ⊢
      exact ih before after

omit [Field K] in
theorem assignRemaining_onTime {speakers : List (Fin numLocal)}
    (quiet : ∀ s ∈ speakers, T.mapping s = none → hasNan (embeddings s) = false →
      s ∈ longSpeakers → getNextCenter T.activeCenters = none) :
    (assignRemaining distance embeddings longSpeakers speakers T).activeCenters = T.activeCenters := by
  induction speakers generalizing T with
  | nil => rfl
  | cons s rest ih =>
    change (assignRemaining distance embeddings longSpeakers rest
      (assignOne distance embeddings longSpeakers T s)).activeCenters = _
    have tail : ∀ t ∈ rest, T.mapping t = none → hasNan (embeddings t) = false →
        t ∈ longSpeakers → getNextCenter T.activeCenters = none :=
      fun t ht => quiet t (List.mem_cons_of_mem s ht)
    rcases assignOne_cases distance embeddings longSpeakers T s with
      he | ⟨hm, hn, c, long, hc, he⟩ | ⟨_, _, c, _, _, he⟩
    · rw [he]
      exact ih tail
    · rw [quiet s List.mem_cons_self hm hn long] at hc
      cases hc
    · rw [he]
      apply ih
      intro t ht hm
      apply tail t ht
      rw [assign_mapping] at hm
      by_cases hts : t = s
      · rw [hts, Function.update_self] at hm
        cases hm
      · rw [Function.update_of_ne hts] at hm
        exact hm

omit [Field K] in
/-- With a free slot, an unmapped long speaker makes some centre active. -/
theorem assignRemaining_late {speakers : List (Fin numLocal)} {s : Fin numLocal}
    (hs : s ∈ speakers) (unmapped : T.mapping s = none) (finite : hasNan (embeddings s) = false)
    (long : s ∈ longSpeakers) {f : Fin maxSpeakers} (free : T.activeCenters f = false) :
    ∃ c, T.activeCenters c = false ∧
      (assignRemaining distance embeddings longSpeakers speakers T).activeCenters c = true := by
  induction speakers generalizing T with
  | nil => cases hs
  | cons a rest ih =>
    change ∃ c, T.activeCenters c = false ∧ (assignRemaining distance embeddings longSpeakers rest
      (assignOne distance embeddings longSpeakers T a)).activeCenters c = true
    have slot := getNextCenter_isSome free
    rcases assignOne_cases distance embeddings longSpeakers T a with
      he | ⟨_, _, c, _, hc, he⟩ | ⟨_, _, c, full, _, he⟩
    · have other : s ≠ a := by
        intro same
        have placed : ((assignOne distance embeddings longSpeakers T s).mapping s).isSome = true :=
          assignOne_places_long unmapped finite long slot
        rw [same] at placed unmapped
        rw [he, unmapped] at placed
        cases placed
      rw [he]
      exact ih ((List.mem_cons.1 hs).resolve_left other) unmapped free
    · refine ⟨c, getNextCenter_inactive c hc, ?_⟩
      rw [he]
      apply assignRemaining_active
      rw [create_activeCenters, Function.update_self]
    · have other : s ≠ a := by
        intro same
        rw [full (same ▸ long)] at slot
        cases slot
      rw [he]
      have still : (T.assign a c).mapping s = none := by
        rw [assign_mapping, Function.update_of_ne other]
        exact unmapped
      exact ih (T := T.assign a c) ((List.mem_cons.1 hs).resolve_left other) still free

end Remaining

section FirstCall

/-- Every active centre is the embedding of a speaker mapped to it. -/
def Held (embeddings : Fin numLocal → Embedding K dim) (T : Table K numLocal maxSpeakers dim) :
    Prop :=
  ∀ c, T.activeCenters c = true → ∃ s, T.mapping s = some c ∧ T.centers c = embeddings s

omit [Field K] [LinearOrder K] in
theorem Held.create (h : Held embeddings T) {s : Fin numLocal} (unmapped : T.mapping s = none)
    (c : Fin maxSpeakers) : Held embeddings (T.create s c (embeddings s)) := by
  intro b hb
  by_cases same : b = c
  · subst b
    refine ⟨s, ?_, ?_⟩
    · rw [create_mapping, Function.update_self]
    · rw [create_centers, Function.update_self]
  · rw [create_activeCenters, Function.update_of_ne same] at hb
    obtain ⟨t, ht, center⟩ := h b hb
    have other : t ≠ s := by
      intro self
      rw [self, unmapped] at ht
      cases ht
    refine ⟨t, ?_, ?_⟩
    · rw [create_mapping, Function.update_of_ne other]
      exact ht
    · rw [create_centers, Function.update_of_ne same]
      exact center

omit [Field K] [LinearOrder K] in
theorem Held.initialAssignment (h : Held embeddings T) {speakers : List (Fin numLocal)}
    (nodup : speakers.Nodup) (unmapped : ∀ s ∈ speakers, T.mapping s = none) :
    Held embeddings (initialAssignment embeddings speakers T) := by
  induction speakers generalizing T with
  | nil => exact h
  | cons s rest ih =>
    obtain ⟨fresh, nodup⟩ := List.nodup_cons.1 nodup
    have tail : ∀ t ∈ rest, T.mapping t = none := fun t ht => unmapped t (List.mem_cons_of_mem s ht)
    rw [StreamingClustering.initialAssignment]
    split_ifs
    · exact ih h nodup tail
    · cases getNextCenter T.activeCenters with
      | none => exact h
      | some c =>
        apply ih (h.create (unmapped s List.mem_cons_self) c) nodup
        intro t ht
        have other : t ≠ s := fun self => fresh (self ▸ ht)
        rw [create_mapping, Function.update_of_ne other]
        exact tail t ht

end FirstCall

section Calls

variable {σ : OnlineSpeakerClustering K maxSpeakers dim} {call : Call K dim}
  {sorted : List (Pair K call.numLocal maxSpeakers)}

theorem finalTable_later {centers : Fin maxSpeakers → Embedding K dim}
    (hc : σ.centers = some centers) : σ.finalTable distance call sorted =
      updateCenters call.embeddings (σ.longSpeakers call) (σ.activeSpeakers call)
        (assignRemaining distance call.embeddings (σ.longSpeakers call) (σ.activeSpeakers call)
          (σ.matchedTable call centers sorted)) := by
  unfold OnlineSpeakerClustering.finalTable
  rw [hc]

variable (σ call) in
theorem activeSpeakers_nodup : (σ.activeSpeakers call).Nodup :=
  (List.nodup_finRange _).filter _

theorem first_entry (first : σ.centers = none) (hs : σ.Sorts distance call sorted) (h : FiniteCenters σ)
    {c : Fin maxSpeakers} (hc : (σ.finalTable distance call sorted).activeCenters c = true) (d : Fin dim) :
    (σ.finalTable distance call sorted).centers c d = .finite (σ.entry distance call sorted c d) := by
  have finite := (finalTable_sound h hs).centersFinite c hc
  have held : Held call.embeddings (⟨fun _ _ => 0, fun _ => false, fun _ => none⟩ :
      Table K call.numLocal maxSpeakers dim) := by simp [Held]
  have table : σ.finalTable distance call sorted = initialAssignment call.embeddings (σ.activeSpeakers call)
      ⟨fun _ _ => 0, fun _ => false, fun _ => none⟩ := by
    unfold OnlineSpeakerClustering.finalTable
    rw [first]
  have mapped : ∀ t b, (σ.identify distance call sorted).1 t = some b ↔
      (σ.finalTable distance call sorted).mapping t = some b := fun _ _ => Iff.rfl
  have own := held.initialAssignment (activeSpeakers_nodup σ call) (fun _ _ => rfl)
  have alone : Distinct (σ.finalTable distance call sorted) := by
    rw [table]
    exact firstAssignment_distinct call.embeddings (σ.activeSpeakers call)
  rw [← table] at own
  obtain ⟨s, hm, center⟩ := own c hc
  rw [congrFun (finite_values finite) d, OnlineSpeakerClustering.entry, Finset.sum_eq_single s]
  · rw [if_pos ⟨(mapped s c).2 hm, Or.inl first⟩, center]
  · intro t _ other
    apply if_neg
    rintro ⟨ht, _⟩
    exact other (alone t s c ((mapped t c).1 ht) hm)
  · intro absent
    exact absurd (Finset.mem_univ s) absent

/-- A later call adds what it enters to the centre its assignment phase left. -/
theorem later_entry {centers : Fin maxSpeakers → Embedding K dim} (hc : σ.centers = some centers)
    (hs : σ.Sorts distance call sorted) (h : FiniteCenters σ) {c : Fin maxSpeakers}
    (active : (σ.finalTable distance call sorted).activeCenters c = true) (d : Fin dim) :
    (σ.finalTable distance call sorted).centers c d =
      .finite (((assignRemaining distance call.embeddings (σ.longSpeakers call) (σ.activeSpeakers call)
        (σ.matchedTable call centers sorted)).centers c d).value + σ.entry distance call sorted c d) := by
  have sound : Sound call.embeddings (assignRemaining distance call.embeddings (σ.longSpeakers call)
      (σ.activeSpeakers call) (σ.matchedTable call centers sorted)) :=
    (matchedTable_sound h hs hc).assignRemaining (σ.longSpeakers call) (σ.activeSpeakers call)
  have only := finalTable_mapsOnly hs
  have mapped : ∀ t, (σ.identify distance call sorted).1 t = (σ.finalTable distance call sorted).mapping t :=
    fun _ => rfl
  rw [OnlineSpeakerClustering.entry]
  simp only [mapped]
  rw [finalTable_later hc] at active only ⊢
  rw [(updateCenters_frame ..).2] at active
  rw [updateCenters_center sound _ active d, ← List.sum_toFinset _ (activeSpeakers_nodup σ call),
    Finset.sum_subset (Finset.subset_univ _)]
  · congr 2
    apply Finset.sum_congr rfl
    intro t _
    rw [(updateCenters_frame ..).1]
    simp [hc]
  · intro t _ outside
    apply if_neg
    rintro ⟨ht, _⟩
    rw [← (updateCenters_frame call.embeddings (σ.longSpeakers call) (σ.activeSpeakers call) _).1]
      at ht
    exact outside (List.mem_toFinset.2 (only t c ht))

theorem entry_inactive (hs : σ.Sorts distance call sorted) (h : FiniteCenters σ) {c : Fin maxSpeakers}
    (idle : (σ.finalTable distance call sorted).activeCenters c = false) (d : Fin dim) :
    σ.entry distance call sorted c d = 0 := by
  apply Finset.sum_eq_zero
  intro t _
  apply if_neg
  rintro ⟨ht, _⟩
  have active := (finalTable_sound h hs).mappedActive t c ht
  rw [idle] at active
  cases active

theorem onTime_active {centers : Fin maxSpeakers → Embedding K dim} (hc : σ.centers = some centers)
    (onTime : σ.OnTime call sorted) :
    (σ.finalTable distance call sorted).activeCenters = σ.activeCenters := by
  rw [finalTable_later hc, (updateCenters_frame ..).2]
  apply assignRemaining_onTime
  intro s active unmapped finite long
  rcases onTime with first | full | matched
  · rw [first] at hc
    cases hc
  · cases slot : getNextCenter (σ.matchedTable call centers sorted).activeCenters with
    | none => rfl
    | some c =>
      have idle := getNextCenter_inactive c slot
      rw [show (σ.matchedTable call centers sorted).activeCenters = σ.activeCenters from rfl,
        full c] at idle
      cases idle
  · exact absurd unmapped (matched s active finite long)

/-- What a call leaves in a centre that was active before it. -/
theorem kept_center {centers : Fin maxSpeakers → Embedding K dim} (hc : σ.centers = some centers)
    (hs : σ.Sorts distance call sorted) (h : FiniteCenters σ) {c : Fin maxSpeakers}
    (active : σ.activeCenters c = true) (d : Fin dim) :
    (σ.finalTable distance call sorted).centers c d =
      .finite ((centers c d).value + σ.entry distance call sorted c d) := by
  rw [later_entry hc hs h (finalTable_active h active) d]
  have stays : (σ.matchedTable call centers sorted).activeCenters c = true := active
  rw [assignRemaining_center _ stays]
  rfl

/-- A call that is not on time creates a centre that holds its creator's embedding
    on top of what the call enters. -/
theorem late_center (h : FiniteCenters σ) (hs : σ.Sorts distance call sorted)
    (late : ¬σ.OnTime call sorted) : ∃ s c, (σ.identify distance call sorted).1 s = some c ∧
      σ.activeCenters c = false ∧ (σ.finalTable distance call sorted).activeCenters c = true ∧
      ∀ d, (σ.finalTable distance call sorted).centers c d =
        .finite (σ.entry distance call sorted c d + (call.embeddings s d).value) := by
  rw [OnlineSpeakerClustering.OnTime] at late
  push Not at late
  obtain ⟨later, ⟨f, free⟩, s, active, finite, long, unmapped⟩ := late
  obtain ⟨centers, hc⟩ := Option.ne_none_iff_exists'.1 later
  have idle : σ.activeCenters f = false := by simpa using free
  have free : (σ.matchedTable call centers sorted).activeCenters f = false := idle
  obtain ⟨c, before, after⟩ := assignRemaining_late active unmapped finite long free
  obtain ⟨t, _, mapped, center⟩ := assignRemaining_created _ before after
  have now : (σ.finalTable distance call sorted).activeCenters c = true := by
    rw [finalTable_later hc, (updateCenters_frame ..).2]
    exact after
  refine ⟨t, c, ?_, before, now, fun d => ?_⟩
  · change (σ.finalTable distance call sorted).mapping t = some c
    rw [finalTable_later hc, (updateCenters_frame ..).1]
    exact mapped
  · rw [later_entry hc hs h now d, center, add_comm]

end Calls

/-- Every active centre holds its ledger, and a free slot has an empty one. -/
structure Booked (σ : OnlineSpeakerClustering K maxSpeakers dim)
    (ledger : Fin maxSpeakers → Fin dim → K) : Prop where
  idle : ∀ c, σ.activeCenters c = false → ∀ d, ledger c d = 0
  held : ∀ centers, σ.centers = some centers → ∀ c, σ.activeCenters c = true →
    ∀ d, centers c d = .finite (ledger c d)

section Step

variable {σ : OnlineSpeakerClustering K maxSpeakers dim} {call : Call K dim}
  {sorted : List (Pair K call.numLocal maxSpeakers)} {ledger : Fin maxSpeakers → Fin dim → K}

theorem Booked.center (b : Booked σ ledger) (h : FiniteCenters σ) (hs : σ.Sorts distance call sorted)
    (onTime : σ.OnTime call sorted) {c : Fin maxSpeakers}
    (active : (σ.finalTable distance call sorted).activeCenters c = true) (d : Fin dim) :
    (σ.finalTable distance call sorted).centers c d =
      .finite (ledger c d + σ.entry distance call sorted c d) := by
  cases hc : σ.centers with
  | none =>
    rw [first_entry hc hs h active, b.idle c (h.before hc c), zero_add]
  | some centers =>
    rw [onTime_active hc onTime] at active
    rw [kept_center hc hs h active, b.held centers hc c active d, ExactFloat.value_finite]

theorem Booked.identify (b : Booked σ ledger) (h : FiniteCenters σ) (hs : σ.Sorts distance call sorted)
    (onTime : σ.OnTime call sorted) :
    Booked (σ.identify distance call sorted).2 (fun c d => ledger c d + σ.entry distance call sorted c d) := by
  constructor
  · intro c idle d
    change (σ.finalTable distance call sorted).activeCenters c = false at idle
    have before : σ.activeCenters c = false := by
      by_contra active
      rw [finalTable_active h (by simpa using active)] at idle
      cases idle
    change ledger c d + σ.entry distance call sorted c d = 0
    rw [b.idle c before d, entry_inactive hs h idle, add_zero]
  · intro centers hc c active d
    cases hc
    exact b.center h hs onTime active d

end Step

theorem Ledgered.booked {σ : OnlineSpeakerClustering K maxSpeakers dim}
    {ledger : Fin maxSpeakers → Fin dim → K}
    (h : Ledgered distance (fun σ call sorted => σ.OnTime call sorted) σ ledger) : Booked σ ledger := by
  induction h with
  | start h =>
    obtain ⟨tau, rho, delta, rfl⟩ := h
    exact ⟨fun _ _ _ => rfl, fun centers absent => by cases absent⟩
  | call tail call sorted sorts onTime ih =>
    exact ih.identify (finiteCenters_reachable tail.reachable) sorts onTime

/-- In every history whose calls are all on time each active centre holds its
    ledger. A call that is not enters some speaker's embedding twice. -/
theorem centres_hold_ledger (distance : Embedding K dim → Embedding K dim → ExactFloat K) :
    (∀ (σ : OnlineSpeakerClustering K maxSpeakers dim) ledger,
      Ledgered distance (fun σ call sorted => σ.OnTime call sorted) σ ledger →
      ∀ centers, σ.centers = some centers → ∀ c, σ.activeCenters c = true →
        ∀ d, centers c d = .finite (ledger c d)) ∧
    ∀ (σ : OnlineSpeakerClustering K maxSpeakers dim) (call : Call K dim)
      (sorted : List (Pair K call.numLocal maxSpeakers)), Reachable Start (Step distance) σ →
      σ.Sorts distance call sorted → ¬σ.OnTime call sorted →
      ∃ centers s c, (σ.identify distance call sorted).2.centers = some centers ∧
        (σ.identify distance call sorted).1 s = some c ∧ σ.activeCenters c = false ∧
        (σ.identify distance call sorted).2.activeCenters c = true ∧
        ∀ d, centers c d = .finite (σ.entry distance call sorted c d + (call.embeddings s d).value) := by
  constructor
  · exact fun σ ledger history => history.booked.held
  · intro σ call sorted reached sorts late
    obtain ⟨s, c, mapped, before, after, center⟩ :=
      late_center (finiteCenters_reachable reached) sorts late
    exact ⟨_, s, c, rfl, mapped, before, after, center⟩

def silentCall : Call ℚ 1 where
  numFrames := 4
  numLocal := 3
  segmentation := fun _ _ => 0
  embeddings := fun _ _ => .nan

def freshClustering : OnlineSpeakerClustering ℚ 20 1 :=
  .fresh (.finite (3 / 5)) (.finite (3 / 10)) (.finite 1)

def startedLate : OnlineSpeakerClustering ℚ 20 1 := (freshClustering.identify cosineDistance silentCall []).2

theorem fresh_sorts : freshClustering.Sorts cosineDistance silentCall [] :=
  ⟨List.Perm.refl _, fun _ => ⟨List.Perm.refl _, List.Pairwise.nil⟩⟩

theorem fresh_solo : freshClustering.Sorts cosineDistance soloCall [] :=
  ⟨List.Perm.refl _, fun _ => ⟨List.Perm.refl _, List.Pairwise.nil⟩⟩

theorem startedLate_sorts : startedLate.Sorts cosineDistance soloCall [] := by
  have none : startedLate.pairs cosineDistance soloCall = [] :=
    List.isEmpty_iff.1 (by decide +kernel)
  rw [OnlineSpeakerClustering.Sorts, none]
  exact ⟨List.Perm.refl _, fun _ => ⟨List.Perm.refl _, List.Pairwise.nil⟩⟩

theorem startedLate_twice : (startedLate.identify cosineDistance soloCall []).2.activeCenters 0 = true ∧
    ((startedLate.identify cosineDistance soloCall []).2.centers.map (fun centers => centers 0 0)) =
      some (.finite 2) := by
  decide +kernel

theorem startedLate_once :
    0 + freshClustering.entry cosineDistance silentCall [] 0 0 + startedLate.entry cosineDistance soloCall [] 0 0 = 1 := by
  decide +kernel

/-- The speaker of the second call is alone, and its centre holds it twice. -/
theorem late_counted_twice : ∃ σ : OnlineSpeakerClustering ℚ 20 1, ∃ ledger,
    Ledgered cosineDistance (fun _ _ _ => True) σ ledger ∧ σ.activeCenters 0 = true ∧
      σ.centers.map (fun centers => centers 0 0) = some (.finite 2) ∧ ledger 0 0 = 1 :=
  ⟨(startedLate.identify cosineDistance soloCall []).2, _,
    .call (.call (.start ⟨_, _, _, rfl⟩) silentCall [] fresh_sorts trivial) soloCall []
      startedLate_sorts trivial,
    startedLate_twice.1, startedLate_twice.2, startedLate_once⟩

/-- The second call matches the first speaker with its centre, which it updates. -/
theorem centres_hold_ledger_updated : ∀ centers,
    (oneCenter.identify cosineDistance overlapCall overlapSorted).2.centers = some centers →
    ∀ c, (oneCenter.identify cosineDistance overlapCall overlapSorted).2.activeCenters c = true →
      ∀ d, centers c d = .finite (0 + freshClustering.entry cosineDistance soloCall [] c d +
        oneCenter.entry cosineDistance overlapCall overlapSorted c d) :=
  (centres_hold_ledger cosineDistance).1 _ _
    (.call (.call (.start ⟨_, _, _, rfl⟩) soloCall [] fresh_solo (Or.inl rfl)) overlapCall overlapSorted overlap_sorts
      (Or.inr (Or.inr (by decide +kernel))))

end PyannoteCpp.StreamingClustering

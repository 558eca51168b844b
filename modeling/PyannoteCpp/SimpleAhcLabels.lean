import PyannoteCpp.SimpleAhcDistances

set_option autoImplicit false

/-!
# The pointers and the labels of the clustering

A merge points the larger of two roots at the smaller one, so every walk up the
pointers ends, and the roots are the active clusters. The label pass shortens
the walks, numbers a root when it first meets one and looks the others up.
-/
namespace PyannoteCpp.SimpleAhc
open ReachableStates

variable {C K : Type*} {n : ℕ}

/-- The walks over the bare array end, and their ends are the active clusters. -/
structure Tracks (active : Fin n → Bool) (F : ParentForest n) : Prop where
  below : ∀ x, F.parent x ≤ x
  top : ∀ x, active x = true ↔ F.parent x = x
  rootWalk : ∀ x : Fin n, ParentForest.rootWalk F.parent (x.val + 1) x = some (F.root x)
  compressWalk : ∀ x : Fin n, ParentForest.compressWalk (F.root x) (x.val + 1) F.parent x =
    some (F.compress (F.root x) x rfl).parent

theorem tracks_of_top {active : Fin n → Bool} {F : ParentForest n}
    (top : ∀ x, active x = true ↔ F.parent x = x) : Tracks active F where
  below := F.parent_le
  top := top
  rootWalk x := F.rootWalk_eq (Nat.lt_succ_self x)
  compressWalk x := F.compressWalk_eq rfl (Nat.lt_succ_self x)

/-- Two points joined by a chain of recorded merges. -/
def MergedTogether (events : List (Merge K n)) : Fin n → Fin n → Prop :=
  Relation.EqvGen (fun a b => ∃ e ∈ events, e.i = a ∧ e.j = b)

section Runs

variable [Field K] [LinearOrder K] (L : Linkage C K) (threshold : ExactFloat K) (centroids : Fin n → C)
  (D : Fin n → Fin n → K)

theorem visited_tracks {S : AhcState C K n} (h : Visited L threshold (.initial centroids D) S) :
    Tracks S.active S.parent := by
  refine tracks_of_top ?_
  refine h.invariant (fun S => ∀ x, S.active x = true ↔ S.parent.parent x = x) ?_ ?_
  · rintro S rfl x
    exact iff_of_true rfl rfl
  · intro S e U hS hs
    obtain ⟨i, j, hij, -, -, -, -, -, -, rfl⟩ := mergeStep_some hs
    exact merge_top hS hij

/-- The pointers say who was merged, and each turn takes one active cluster away. -/
structure Recorded (S : AhcState C K n) (events : List (Merge K n)) : Prop where
  top : ∀ x, S.active x = true ↔ S.parent.parent x = x
  joined : ∀ p q, S.parent.root p = S.parent.root q ↔ MergedTogether events p q
  count : events.length + S.numActive = n
  left : events = [] ∨ 1 ≤ S.numActive

omit [Field K] [LinearOrder K] in
theorem initial_recorded : Recorded (AhcState.initial centroids D) ([] : List (Merge K n)) where
  top x := iff_of_true rfl rfl
  joined p q := by
    change (ParentForest.discrete n).root p = (ParentForest.discrete n).root q ↔ _
    rw [ParentForest.root_discrete, ParentForest.root_discrete]
    constructor
    · rintro rfl
      exact .refl p
    · intro h
      induction h with
      | rel a b hab => simp at hab
      | refl a => rfl
      | symm a b _ ih => exact ih.symm
      | trans a b c _ _ ihab ihbc => exact ihab.trans ihbc
  count := Nat.zero_add n
  left := Or.inl rfl

omit [Field K] [LinearOrder K] in
theorem Recorded.merge {L : Linkage C K} {S : AhcState C K n} {events : List (Merge K n)} (h : Recorded S events)
    {i j : Fin n} (hij : i < j) (hn : 1 < S.numActive) (hi : S.active i = true) (hj : S.active j = true) (d : K) :
    Recorded (S.merge L i j hij.le) (events ++ [⟨d, i, j⟩]) := by
  refine ⟨merge_top h.top hij, fun p q => ?_, ?_, Or.inr ?_⟩
  · have linked := S.parent.link_eqvGen h.joined ((h.top i).1 hi) ((h.top j).1 hj) hij p q
    have same : (fun a b => (∃ e ∈ events ++ [⟨d, i, j⟩], e.i = a ∧ e.j = b)) =
        fun a b => (∃ e ∈ events, e.i = a ∧ e.j = b) ∨ a = i ∧ b = j := by
      funext a b
      simp only [List.mem_append, List.mem_singleton, or_and_right, exists_or, exists_eq_left, eq_comm (a := i),
        eq_comm (a := j)]
    unfold MergedTogether
    rw [same]
    exact linked
  · have count := h.count
    change (events ++ [_]).length + (S.numActive - 1) = n
    rw [List.length_append, List.length_singleton]
    omega
  · change 1 ≤ S.numActive - 1
    omega

omit [Field K] [LinearOrder K] in
theorem loop_recorded (loop : DescendingLoop (AhcState C K n) (Merge K n))
    (turn : ∀ S e U events, Recorded S events → loop.step S = some (e, U) → Recorded U (events ++ [e])) :
    Recorded (loop.run (.initial centroids D)).2 (loop.run (.initial centroids D)).1 := by
  have folded := loop.ghost_invariant (fun events e => events ++ [e]) (fun S events e U h hs => turn S e U events h hs)
    (initial_recorded centroids D)
  have collect : ∀ (l acc : List (Merge K n)), l.foldl (fun events e => events ++ [e]) acc = acc ++ l := by
    intro l
    induction l with
    | nil => exact fun acc => (List.append_nil acc).symm
    | cons e l ih => exact fun acc => (ih _).trans (List.append_assoc acc [e] l)
  rw [collect, List.nil_append] at folded
  exact folded

theorem run_recorded : Recorded ((mergeLoop L threshold).run (.initial centroids D)).2
    ((mergeLoop L threshold).run (.initial centroids D)).1 := by
  apply loop_recorded
  intro S e U events h hs
  obtain ⟨i, j, hij, hn, hi, hj, -, rfl, -, rfl⟩ := mergeStep_some hs
  exact h.merge hij hn hi hj _

omit [Field K] [LinearOrder K] in
theorem Recorded.length_le {S : AhcState C K n} {events : List (Merge K n)} (h : Recorded S events) :
    events.length ≤ n - 1 := by
  have count := h.count
  rcases h.left with none | some
  · rw [none]
    exact Nat.zero_le _
  · omega

end Runs

section Pass

/-- The labels are `0, ..., count - 1`, each met first after all the smaller ones. -/
structure WellNumbered (labels : Fin n → ℤ) (count : ℕ) : Prop where
  range : ∀ v, (∃ i, labels i = v) ↔ 0 ≤ v ∧ v < count
  first : ∀ i v, 0 ≤ v → v < labels i → ∃ j < i, labels j = v

def labelPass (parent : ParentForest n) (m : ℕ) : Labelling n :=
  ((List.finRange n).take m).foldl Labelling.step ⟨parent, fun _ => -1, 0, fun _ => 0⟩

theorem buildLabels_eq_labelPass (parent : ParentForest n) : buildLabels parent = (labelPass parent n).labels := by
  unfold buildLabels labelPass
  rw [List.take_of_length_le (List.length_finRange).le]

theorem labelPass_numbered (F : ParentForest n) (m : ℕ) :
    Numbered F (labelPass F m) ((List.finRange n).take m) := by
  have h := numbered_foldl ((List.finRange n).take m) (start_numbered F)
    ((List.nodup_finRange n).sublist (List.take_sublist m _))
  exact h

/-- No label is skipped, and a point gets a larger one only after the smaller ones. -/
structure InOrder (B : Labelling n) (seen : List (Fin n)) : Prop where
  table : ∀ r, B.rootToLabel r ≠ -1 → 0 ≤ B.rootToLabel r
  used : ∀ v, 0 ≤ v → v < B.nextLabel → ∃ j ∈ seen, B.labels j = v
  bounded : ∀ i ∈ seen, 0 ≤ B.labels i ∧ B.labels i < B.nextLabel
  first : ∀ i ∈ seen, ∀ v, 0 ≤ v → v < B.labels i → ∃ j ∈ seen, j < i ∧ B.labels j = v

theorem InOrder.label {B B' : Labelling n} {seen : List (Fin n)} (h : InOrder B seen) {i : Fin n}
    (later : ∀ j ∈ seen, j < i) {v : ℤ} (hv : 0 ≤ v) (labels : B'.labels = Function.update B.labels i v)
    (table : ∀ r, B'.rootToLabel r ≠ -1 → 0 ≤ B'.rootToLabel r)
    (next : B'.nextLabel = B.nextLabel ∧ v < B.nextLabel ∨ B'.nextLabel = B.nextLabel + 1 ∧ v = B.nextLabel) :
    InOrder B' (seen ++ [i]) := by
  have here : B'.labels i = v := by rw [labels, Function.update_self]
  have old : ∀ j ∈ seen, B'.labels j = B.labels j := by
    intro j hj
    rw [labels, Function.update_of_ne (later j hj).ne]
  have kept : ∀ u, 0 ≤ u → u < B.nextLabel → ∃ j ∈ seen, B'.labels j = u := by
    intro u hu hlt
    obtain ⟨j, hj, hl⟩ := h.used u hu hlt
    exact ⟨j, hj, (old j hj).trans hl⟩
  refine ⟨table, fun u hu hlt => ?_, fun k hk => ?_, fun k hk u hu hlt => ?_⟩
  · by_cases below : u < B.nextLabel
    · obtain ⟨j, hj, hl⟩ := kept u hu below
      exact ⟨j, List.mem_append_left _ hj, hl⟩
    · exact ⟨i, by simp, by omega⟩
  · rcases List.mem_append.1 hk with hk | hk
    · have bound := h.bounded k hk
      rw [old k hk]
      omega
    · rw [List.mem_singleton.1 hk, here]
      omega
  · rcases List.mem_append.1 hk with hk | hk
    · rw [old k hk] at hlt
      obtain ⟨j, hj, hjk, hl⟩ := h.first k hk u hu hlt
      exact ⟨j, List.mem_append_left _ hj, hjk, (old j hj).trans hl⟩
    · rw [List.mem_singleton.1 hk, here] at hlt
      obtain ⟨j, hj, hl⟩ := kept u hu (by omega)
      exact ⟨j, List.mem_append_left _ hj, (later j hj).trans_eq (List.mem_singleton.1 hk).symm, hl⟩

theorem InOrder.step {F : ParentForest n} {B : Labelling n} {seen : List (Fin n)} (h : InOrder B seen)
    (numbered : Numbered F B seen) {i : Fin n} (later : ∀ j ∈ seen, j < i) : InOrder (B.step i) (seen ++ [i]) := by
  have next := numbered.next
  unfold Labelling.step
  dsimp only
  split_ifs with hr
  · refine h.label later next (by rw [Function.update_self]) (fun r hne => ?_) (Or.inr ⟨rfl, rfl⟩)
    by_cases hri : r = B.parent.root i
    · dsimp only
      rw [hri, Function.update_self]
      exact next
    · dsimp only at hne ⊢
      rw [Function.update_of_ne hri] at hne ⊢
      exact h.table r hne
  · exact h.label later (h.table _ hr) rfl h.table (Or.inl ⟨rfl, numbered.below _⟩)

theorem inOrder_foldl {F : ParentForest n} (l : List (Fin n)) {B : Labelling n} {seen : List (Fin n)}
    (h : InOrder B seen) (numbered : Numbered F B seen) (sorted : (seen ++ l).Pairwise (· < ·)) :
    InOrder (l.foldl Labelling.step B) (seen ++ l) := by
  induction l generalizing B seen with
  | nil => rwa [List.append_nil]
  | cons i l ih =>
    have later : ∀ j ∈ seen, j < i := fun j hj =>
      (List.pairwise_append.1 sorted).2.2 j hj i List.mem_cons_self
    have tail := ih (h.step numbered later) (numbered.step (fun hmem => (later i hmem).false))
      (by rwa [List.append_assoc, List.singleton_append])
    rwa [List.append_assoc, List.singleton_append] at tail

theorem labelPass_inOrder (F : ParentForest n) : InOrder (labelPass F n) (List.finRange n) := by
  have start : InOrder (⟨F, fun _ => -1, 0, fun _ => 0⟩ : Labelling n) [] := by
    refine ⟨fun r h => absurd rfl h, fun v hv hlt => ?_, by simp, by simp⟩
    change v < 0 at hlt
    omega
  have h := inOrder_foldl (List.finRange n) start (start_numbered F) (List.pairwise_lt_finRange n)
  unfold labelPass
  rw [List.take_of_length_le (List.length_finRange).le]
  exact h

theorem nextLabel_eq (F : ParentForest n) {active : Fin n → Bool} (top : ∀ x, active x = true ↔ F.parent x = x) :
    (labelPass F n).nextLabel = ((Finset.univ.filter (fun x => active x = true)).card : ℤ) := by
  have order := labelPass_inOrder F
  have next := (labelPass_numbered F n).next
  have same : ∀ p q, (labelPass F n).labels p = (labelPass F n).labels q ↔ F.root p = F.root q := by
    intro p q
    rw [← buildLabels_eq_labelPass]
    exact buildLabels_eq_iff F p q
  have values : (Finset.univ.filter (fun x => active x = true)).image (labelPass F n).labels =
      Finset.Ico 0 (labelPass F n).nextLabel := by
    ext v
    simp only [Finset.mem_image, Finset.mem_filter, Finset.mem_univ, true_and, Finset.mem_Ico]
    constructor
    · rintro ⟨x, -, rfl⟩
      exact order.bounded x (List.mem_finRange x)
    · rintro ⟨hv, hlt⟩
      obtain ⟨j, -, rfl⟩ := order.used v hv hlt
      exact ⟨F.root j, (top _).2 (F.parent_root j), (same _ _).2 (F.root_of_self (F.parent_root j))⟩
  have distinct : Set.InjOn (labelPass F n).labels (Finset.univ.filter (fun x => active x = true)) := by
    intro p hp q hq h
    have hp := F.root_of_self ((top p).1 (Finset.mem_filter.1 hp).2)
    have hq := F.root_of_self ((top q).1 (Finset.mem_filter.1 hq).2)
    rw [← hp, ← hq]
    exact (same p q).1 h
  have card := Finset.card_image_of_injOn distinct
  rw [values, Int.card_Ico, sub_zero] at card
  omega

theorem buildLabels_wellNumbered (F : ParentForest n) {active : Fin n → Bool}
    (top : ∀ x, active x = true ↔ F.parent x = x) :
    WellNumbered (buildLabels F) (Finset.univ.filter (fun x => active x = true)).card := by
  have order := labelPass_inOrder F
  rw [buildLabels_eq_labelPass]
  refine ⟨fun v => ?_, fun i v hv hlt => ?_⟩
  · rw [← nextLabel_eq F top]
    constructor
    · rintro ⟨i, rfl⟩
      exact order.bounded i (List.mem_finRange i)
    · rintro ⟨hv, hlt⟩
      obtain ⟨j, -, hl⟩ := order.used v hv hlt
      exact ⟨j, hl⟩
  · obtain ⟨j, -, hj, hl⟩ := order.first i (List.mem_finRange i) v hv hlt
    exact ⟨j, hj, hl⟩

theorem buildLabels_one (F : ParentForest 1) : buildLabels F = fun _ => 0 := by
  have top : ∀ x, (fun x => decide (F.parent x = x)) x = true ↔ F.parent x = x := fun x => decide_eq_true_iff
  have numbered := buildLabels_wellNumbered F top
  have few := Finset.card_filter_le (Finset.univ : Finset (Fin 1)) (fun x => decide (F.parent x = x) = true)
  rw [Finset.card_univ, Fintype.card_fin] at few
  funext i
  have bound := (numbered.range _).1 ⟨i, rfl⟩
  omega

/-- The label pass keeps the roots, so the pointers track the active clusters through it. -/
theorem Recorded.pass {S : AhcState C K n} {events : List (Merge K n)} (h : Recorded S events) (m : ℕ) :
    Tracks S.active (labelPass S.parent m).parent ∧ ∀ x, (labelPass S.parent m).parent.root x = S.parent.root x := by
  have roots := (labelPass_numbered S.parent m).root
  refine ⟨tracks_of_top (fun x => ?_), roots⟩
  rw [h.top, ParentForest.parent_eq_iff, ParentForest.parent_eq_iff, roots]

end Pass

section Function

variable [Field K] [LinearOrder K] {dim : ℕ} (sqrt : K → K) (embeddings : Fin n → Fin dim → K)
  (threshold : ExactFloat K)

def simpleAhcRun : List (Merge K n) × AhcState (Fin dim → K) K n :=
  (mergeLoop (euclidean sqrt) threshold).run (simpleAhcStart sqrt embeddings)

theorem simpleAhc_eq : simpleAhc sqrt embeddings threshold =
    buildLabels (simpleAhcRun sqrt embeddings threshold).2.parent := by
  unfold simpleAhc
  split_ifs with h0 h1
  · subst h0
    exact funext (fun i => i.elim0)
  · subst h1
    exact (buildLabels_one _).symm
  · rfl

/-- The loop ends after fewer merges than points, the pointers track the active clusters through
    the loop and the pass, and the labels number the merged clusters in the order of their points. -/
theorem simpleAhc_labels :
    (mergeStep (euclidean sqrt) threshold (simpleAhcRun sqrt embeddings threshold).2 = none ∧
      (simpleAhcRun sqrt embeddings threshold).1.length ≤ n - 1) ∧
    (∀ S, Visited (euclidean sqrt) threshold (simpleAhcStart sqrt embeddings) S → Tracks S.active S.parent) ∧
    (∀ m, Tracks (simpleAhcRun sqrt embeddings threshold).2.active
        (labelPass (simpleAhcRun sqrt embeddings threshold).2.parent m).parent ∧
      ∀ x, (labelPass (simpleAhcRun sqrt embeddings threshold).2.parent m).parent.root x =
        (simpleAhcRun sqrt embeddings threshold).2.parent.root x) ∧
    (∀ p q, simpleAhc sqrt embeddings threshold p = simpleAhc sqrt embeddings threshold q ↔
      MergedTogether (simpleAhcRun sqrt embeddings threshold).1 p q) ∧
    WellNumbered (simpleAhc sqrt embeddings threshold)
      (Finset.univ.filter (fun x => (simpleAhcRun sqrt embeddings threshold).2.active x = true)).card := by
  have recorded : Recorded (simpleAhcRun sqrt embeddings threshold).2 (simpleAhcRun sqrt embeddings threshold).1 :=
    run_recorded _ _ _ _
  refine ⟨⟨(mergeLoop (euclidean sqrt) threshold).run_stopped _, recorded.length_le⟩,
    fun S h => visited_tracks _ _ _ _ h, recorded.pass, fun p q => ?_, ?_⟩
  · rw [simpleAhc_eq, buildLabels_eq_iff]
    exact recorded.joined p q
  · rw [simpleAhc_eq]
    exact buildLabels_wellNumbered _ recorded.top

end Function

end PyannoteCpp.SimpleAhc

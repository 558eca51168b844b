import PyannoteCpp.MergeTree
import PyannoteCpp.ReachableStates
import PyannoteCpp.SimpleAhc

set_option autoImplicit false

/-!
# The early exit and the cut of the whole merge tree

Later merges may be cheaper than the one the threshold refused. They do not
matter: two clusters no refused merge has touched are as far apart as when the
loop was left, so every later merge lies over a refused height.
-/
namespace PyannoteCpp.SimpleAhc
open ExactFloat (Admits)
open FirstMinimum MergeTree ReachableStates

variable {C K : Type*} {n : ℕ}

section Labels

/-- After a part of the pass: the table numbers the roots seen so far, one to one. -/
structure Numbered (F : ParentForest n) (B : Labelling n) (seen : List (Fin n)) : Prop where
  root : ∀ i, B.parent.root i = F.root i
  next : 0 ≤ B.nextLabel
  below : ∀ r, B.rootToLabel r < B.nextLabel
  injective : ∀ r s, B.rootToLabel r ≠ -1 → B.rootToLabel r = B.rootToLabel s → r = s
  written : ∀ i ∈ seen, B.rootToLabel (F.root i) ≠ -1 ∧ B.labels i = B.rootToLabel (F.root i)

theorem Numbered.assign {F : ParentForest n} {B : Labelling n} {seen : List (Fin n)}
    (h : Numbered F B seen) {i : Fin n} (hi : i ∉ seen) (hr : B.rootToLabel (F.root i) = -1)
    {parent : ParentForest n} (hroot : ∀ k, parent.root k = F.root k) {table : Fin n → ℤ}
    (htable : table = Function.update B.rootToLabel (F.root i) B.nextLabel) :
    Numbered F ⟨parent, table, B.nextLabel + 1, Function.update B.labels i (table (F.root i))⟩
      (seen ++ [i]) := by
  have next := h.next
  have new : table (F.root i) = B.nextLabel := by rw [htable, Function.update_self]
  have old : ∀ r, r ≠ F.root i → table r = B.rootToLabel r :=
    fun r hri => by rw [htable, Function.update_of_ne hri]
  refine ⟨hroot, Int.le_add_one next, fun r => ?_, fun r s hne heq => ?_, fun k hk => ?_⟩
  · change table r < B.nextLabel + 1
    by_cases hri : r = F.root i
    · rw [hri, new]
      exact Int.lt_add_one_of_le le_rfl
    · rw [old r hri]
      exact (h.below r).trans (Int.lt_add_one_of_le le_rfl)
  · change table r = table s at heq
    change table r ≠ -1 at hne
    by_cases hri : r = F.root i <;> by_cases hsi : s = F.root i
    · rw [hri, hsi]
    · rw [hri, new, old s hsi] at heq
      exact absurd heq (h.below s).ne'
    · rw [hsi, new, old r hri] at heq
      exact absurd heq (h.below r).ne
    · rw [old r hri] at hne heq
      rw [old s hsi] at heq
      exact h.injective r s hne heq
  · change table (F.root k) ≠ -1 ∧ Function.update B.labels i (table (F.root i)) k = table (F.root k)
    rcases List.mem_append.1 hk with hk | hk
    · obtain ⟨hw, hl⟩ := h.written k hk
      have hki : F.root k ≠ F.root i := fun heq => hw (by rw [heq, hr])
      have other : k ≠ i := fun heq => hi (heq ▸ hk)
      rw [old _ hki, Function.update_of_ne other]
      exact ⟨hw, hl⟩
    · rw [List.mem_singleton.1 hk, Function.update_self, new]
      exact ⟨by omega, rfl⟩

theorem Numbered.reuse {F : ParentForest n} {B : Labelling n} {seen : List (Fin n)}
    (h : Numbered F B seen) {i : Fin n} (hi : i ∉ seen) (hr : B.rootToLabel (F.root i) ≠ -1)
    {parent : ParentForest n} (hroot : ∀ k, parent.root k = F.root k) :
    Numbered F ⟨parent, B.rootToLabel, B.nextLabel,
      Function.update B.labels i (B.rootToLabel (F.root i))⟩ (seen ++ [i]) := by
  refine ⟨hroot, h.next, h.below, h.injective, fun k hk => ?_⟩
  rcases List.mem_append.1 hk with hk | hk
  · obtain ⟨hw, hl⟩ := h.written k hk
    have other : k ≠ i := fun heq => hi (heq ▸ hk)
    refine ⟨hw, ?_⟩
    dsimp only
    rw [Function.update_of_ne other]
    exact hl
  · rw [List.mem_singleton.1 hk]
    exact ⟨hr, Function.update_self ..⟩

theorem Numbered.step {F : ParentForest n} {B : Labelling n} {seen : List (Fin n)}
    (h : Numbered F B seen) {i : Fin n} (hi : i ∉ seen) : Numbered F (B.step i) (seen ++ [i]) := by
  have hroot : ∀ k, (B.parent.compress (B.parent.root i) i rfl).root k = F.root k :=
    fun k => (B.parent.root_compress rfl k).trans (h.root k)
  unfold Labelling.step
  dsimp only
  simp only [h.root i] at hroot ⊢
  split_ifs with hr
  · exact h.assign hi hr hroot rfl
  · exact h.reuse hi hr hroot

theorem numbered_foldl {F : ParentForest n} (l : List (Fin n)) {B : Labelling n}
    {seen : List (Fin n)} (h : Numbered F B seen) (hl : (seen ++ l).Nodup) :
    Numbered F (l.foldl Labelling.step B) (seen ++ l) := by
  induction l generalizing B seen with
  | nil => rwa [List.append_nil]
  | cons i l ih =>
    have hi : i ∉ seen := fun hmem =>
      (List.nodup_append.1 hl).2.2 i hmem i List.mem_cons_self rfl
    have step := ih (h.step hi) (by rwa [List.append_assoc, List.singleton_append])
    rwa [List.append_assoc, List.singleton_append] at step

theorem start_numbered (F : ParentForest n) : Numbered F ⟨F, fun _ => -1, 0, fun _ => 0⟩ [] :=
  ⟨fun _ => rfl, le_rfl, fun _ => neg_one_lt_zero, fun _ _ h => absurd rfl h, by simp⟩

/-- Two points share a label exactly when they share a root. -/
theorem buildLabels_eq_iff (F : ParentForest n) (p q : Fin n) :
    buildLabels F p = buildLabels F q ↔ F.root p = F.root q := by
  have h := numbered_foldl (List.finRange n) (start_numbered F) (List.nodup_finRange n)
  obtain ⟨hp, hlp⟩ := h.written p (List.mem_finRange p)
  obtain ⟨-, hlq⟩ := h.written q (List.mem_finRange q)
  unfold buildLabels
  rw [hlp, hlq]
  constructor
  · exact h.injective _ _ hp
  · exact fun hr => congrArg _ hr

end Labels

section Distances

theorem foldl_refresh_other {L : Linkage C K} {centroids : Fin n → C} {active : Fin n → Bool}
    {i a b : Fin n} (ha : a ≠ i) (hb : b ≠ i) (l : List (Fin n)) (D : Fin n → Fin n → K) :
    l.foldl (fun D k => if !active k || k = i then D
      else setBoth D i k (L.distance (centroids i) (centroids k))) D a b = D a b := by
  induction l generalizing D with
  | nil => rfl
  | cons k l ih =>
    rw [List.foldl_cons, ih]
    split_ifs
    · rfl
    · exact if_neg (by simp [ha, hb])

theorem merge_dist {L : Linkage C K} (S : AhcState C K n) {i j a b : Fin n} (h : i ≤ j)
    (ha : a ≠ i) (hb : b ≠ i) : (S.merge L i j h).distMatrix a b = S.distMatrix a b :=
  foldl_refresh_other ha hb _ _

theorem merge_active {L : Linkage C K} (S : AhcState C K n) {i j k : Fin n} (h : i ≤ j) :
    (S.merge L i j h).active k = true ↔ S.active k = true ∧ k ≠ j := by
  change Function.update S.active j false k = true ↔ _
  by_cases hk : k = j
  · simp [hk]
  · simp [hk]

theorem merge_top {L : Linkage C K} {S : AhcState C K n} (top : ∀ k, S.active k = true ↔ S.parent.parent k = k)
    {i j : Fin n} (hij : i < j) (k : Fin n) :
    (S.merge L i j hij.le).active k = true ↔ (S.merge L i j hij.le).parent.parent k = k := by
  rw [merge_active, top]
  change _ ↔ (S.parent.point j i hij.le).parent k = k
  by_cases hk : k = j
  · rw [hk, ParentForest.point_self]
    exact ⟨fun hkj => absurd rfl hkj.2, fun hkj => absurd hkj hij.ne⟩
  · rw [ParentForest.point_other _ _ hk]
    exact and_iff_left hk

end Distances

def graft (T : Fin n → MergeTree K (Fin n)) (e : Merge K n) : Fin n → MergeTree K (Fin n) :=
  Function.update T e.i (node e.dist (T e.i) (T e.j))

def forest (S : AhcState C K n) (T : Fin n → MergeTree K (Fin n)) : List (MergeTree K (Fin n)) :=
  ((List.finRange n).filter (fun k => S.active k)).map T

/-- The active clusters are the roots of the pointers, and hold what points at them. -/
structure Grown (S : AhcState C K n) (T : Fin n → MergeTree K (Fin n)) : Prop where
  count : ((List.finRange n).filter (fun k => S.active k)).length = S.numActive
  top : ∀ k, S.active k = true ↔ S.parent.parent k = k
  points : ∀ k, S.active k = true → ∀ p, p ∈ (T k).points ↔ S.parent.root p = k

theorem mem_forest {S : AhcState C K n} {T : Fin n → MergeTree K (Fin n)} {t : MergeTree K (Fin n)} :
    t ∈ forest S T ↔ ∃ k, S.active k = true ∧ T k = t := by
  simp [forest]

theorem initial_grown (centroids : Fin n → C) (D : Fin n → Fin n → K) :
    Grown (.initial centroids D) (leaf : Fin n → MergeTree K (Fin n)) where
  count := by simp [AhcState.initial]
  top := by simp [AhcState.initial, ParentForest.discrete]
  points := by simp [AhcState.initial]

theorem Grown.merge {L : Linkage C K} {S : AhcState C K n} {T : Fin n → MergeTree K (Fin n)}
    (h : Grown S T) {i j : Fin n} (hij : i < j) (hi : S.active i = true) (hj : S.active j = true) :
    Grown (S.merge L i j hij.le) (graft T ⟨S.distMatrix i j, i, j⟩) := by
  have active := fun k => merge_active (L := L) S (k := k) hij.le
  refine ⟨?_, fun k => ?_, fun k hk p => ?_⟩
  · have hfilter : (List.finRange n).filter (fun k => (S.merge L i j hij.le).active k) =
        ((List.finRange n).filter (fun k => S.active k)).erase j := by
      rw [List.Nodup.erase_eq_filter ((List.nodup_finRange n).filter _), List.filter_filter]
      refine List.filter_congr (fun k _ => ?_)
      rw [Bool.eq_iff_iff, active]
      simp [and_comm]
    rw [hfilter, List.length_erase_of_mem (by simpa using hj), h.count]
    rfl
  · exact merge_top h.top hij k
  · obtain ⟨hk, hkj⟩ := (active k).1 hk
    change _ ↔ (S.parent.point j i hij.le).root p = k
    rw [S.parent.root_link ((h.top i).1 hi) ((h.top j).1 hj) hij, graft]
    by_cases hki : k = i
    · rw [hki, Function.update_self, points_node, List.mem_append, h.points i hi, h.points j hj]
      split_ifs with hp
      · simp [hp]
      · simp [hp]
    · rw [Function.update_of_ne hki, h.points k hk]
      split_ifs with hp
      · rw [hp]
        exact ⟨fun hjk => absurd hjk.symm hkj, fun hik => absurd hik.symm hki⟩
      · rfl

theorem Grown.two_active {S : AhcState C K n} {T : Fin n → MergeTree K (Fin n)} (h : Grown S T)
    (hn : 1 < S.numActive) :
    ∃ i j, i < j ∧ S.active i = true ∧ S.active j = true := by
  rw [← h.count] at hn
  have hlt := List.pairwise_iff_getElem.1 ((List.pairwise_lt_finRange n).filter
    (p := fun k => S.active k)) 0 1 (by omega) hn Nat.zero_lt_one
  have hmem := fun k (hk : k < ((List.finRange n).filter (fun k => S.active k)).length) =>
    (List.mem_filter.1 (List.getElem_mem hk)).2
  exact ⟨_, _, hlt, hmem 0 (by omega), hmem 1 hn⟩

variable [Field K] [LinearOrder K] {L : Linkage C K} {threshold : ExactFloat K}
  {S U : AhcState C K n} {T : Fin n → MergeTree K (Fin n)} {e : Merge K n}

theorem Grown.step (h : Grown S T) (hs : mergeStep L threshold S = some (e, U)) :
    Grown U (graft T e) := by
  obtain ⟨i, j, hij, -, hi, hj, -, rfl, -, rfl⟩ := mergeStep_some hs
  exact h.merge hij hi hj

theorem forest_turn (hs : mergeStep L threshold S = some (e, U)) : ∃ G : List (MergeTree K (Fin n)),
    (∀ t, t ∈ forest S T ↔ t = T e.i ∨ t = T e.j ∨ t ∈ G) ∧
      ∀ t, t ∈ forest U (graft T e) ↔ t = node e.dist (T e.i) (T e.j) ∨ t ∈ G := by
  obtain ⟨i, j, hij, -, hi, hj, -, rfl, -, rfl⟩ := mergeStep_some hs
  refine ⟨((List.finRange n).filter (fun k => S.active k && k ≠ i && k ≠ j)).map T,
    fun t => ?_, fun t => ?_⟩
  · simp only [mem_forest, List.mem_map, List.mem_filter, List.mem_finRange, true_and,
      Bool.and_eq_true, decide_eq_true_eq]
    constructor
    · rintro ⟨k, hk, rfl⟩
      by_cases hki : k = i
      · exact Or.inl (by rw [hki])
      · by_cases hkj : k = j
        · exact Or.inr (Or.inl (by rw [hkj]))
        · exact Or.inr (Or.inr ⟨k, ⟨⟨hk, hki⟩, hkj⟩, rfl⟩)
    · rintro (rfl | rfl | ⟨k, ⟨⟨hk, -⟩, -⟩, rfl⟩)
      · exact ⟨i, hi, rfl⟩
      · exact ⟨j, hj, rfl⟩
      · exact ⟨k, hk, rfl⟩
  · simp only [mem_forest, merge_active, List.mem_map, List.mem_filter, List.mem_finRange, true_and,
      Bool.and_eq_true, decide_eq_true_eq, graft]
    constructor
    · rintro ⟨k, ⟨hk, hkj⟩, rfl⟩
      by_cases hki : k = i
      · exact Or.inl (by rw [hki, Function.update_self])
      · exact Or.inr ⟨k, ⟨⟨hk, hki⟩, hkj⟩, by rw [Function.update_of_ne hki]⟩
    · rintro (rfl | ⟨k, ⟨⟨hk, hki⟩, hkj⟩, rfl⟩)
      · exact ⟨i, ⟨hi, hij.ne⟩, Function.update_self ..⟩
      · exact ⟨k, ⟨hk, hkj⟩, Function.update_of_ne hki _ _⟩

theorem within_step (h : ∀ t ∈ forest S T, t.Within (Admits threshold))
    (hs : mergeStep L threshold S = some (e, U)) :
    ∀ t ∈ forest U (graft T e), t.Within (Admits threshold) := by
  obtain ⟨G, hF, hG⟩ := forest_turn (T := T) hs
  obtain ⟨i, j, -, -, -, -, -, rfl, ht, -⟩ := mergeStep_some hs
  intro t hmem
  rcases (hG t).1 hmem with rfl | hmem
  · exact ⟨ht, h _ ((hF _).2 (Or.inl rfl)), h _ ((hF _).2 (Or.inr (Or.inl rfl)))⟩
  · exact h t ((hF t).2 (Or.inr (Or.inr hmem)))

/-- Two active clusters without a refused merge are further apart than the threshold. -/
def Separated (threshold : ExactFloat K) (S : AhcState C K n) (T : Fin n → MergeTree K (Fin n)) : Prop :=
  ∀ i j, i < j → S.active i = true → S.active j = true → (T i).Within (Admits threshold) →
    (T j).Within (Admits threshold) → ¬ Admits threshold (S.distMatrix i j)

/-- A turn after the exit: the new tree holds a refused merge, the others kept their distances. -/
theorem Separated.turn (h : Separated threshold S T) {t' : ExactFloat K}
    (hs : mergeStep L t' S = some (e, U)) : Separated threshold U (graft T e) ∧
      ∀ p q, Joined (Admits threshold) (forest U (graft T e)) p q ↔
        Joined (Admits threshold) (forest S T) p q := by
  obtain ⟨G, hF, hG⟩ := forest_turn (T := T) hs
  obtain ⟨i, j, hij, -, hi, hj, -, rfl, -, rfl⟩ := mergeStep_some hs
  have refused : ¬ (node (S.distMatrix i j) (T i) (T j)).Within (Admits threshold) := by
    rintro ⟨ha, hl, hr⟩
    exact h i j hij hi hj hl hr ha
  refine ⟨fun a b hab ha hb hwa hwb => ?_, fun p q => joined_refused refused hF hG⟩
  have notMerged : ∀ k, (graft T ⟨S.distMatrix i j, i, j⟩ k).Within (Admits threshold) → k ≠ i := by
    rintro k hk rfl
    rw [graft, Function.update_self] at hk
    exact refused hk
  have hai := notMerged a hwa
  have hbi := notMerged b hwb
  rw [graft, Function.update_of_ne hai] at hwa
  rw [graft, Function.update_of_ne hbi] at hwb
  rw [merge_dist S hij.le hai hbi]
  exact h a b hab ((merge_active S hij.le).1 ha).1 ((merge_active S hij.le).1 hb).1 hwa hwb

/-- Every distance between two active clusters can be found by the scan. -/
def Finite (S : AhcState C K n) : Prop :=
  ∀ i j, i < j → S.active i = true → S.active j = true → S.distMatrix i j < 1e20

theorem Grown.stopped (h : Grown S T) (hfin : Finite S) (hs : mergeStep L threshold S = none) :
    S.numActive ≤ 1 ∨ Separated threshold S T ∧ ∃ v : K, threshold.lt (.finite v) = true := by
  rcases Nat.lt_or_ge 1 S.numActive with hn | hn
  · refine Or.inr ?_
    have below : ∀ p ∈ scanOrder S.active,
        decide (S.distMatrix p.1 p.2 < (1e20 : K)) = true := by
      intro p hp
      obtain ⟨hlt, hi, hj⟩ := mem_scanOrder.1 hp
      exact decide_eq_true (hfin _ _ hlt hi hj)
    have found : bestPair S ≠ none := by
      obtain ⟨i, j, hij, hi, hj⟩ := h.two_active hn
      intro hb
      have hmem : (i, j) ∈ scanOrder S.active := mem_scanOrder.2 ⟨hij, hi, hj⟩
      rw [(scan_eq_none_iff below).1 hb] at hmem
      cases hmem
    unfold mergeStep at hs
    rw [if_neg (by omega)] at hs
    split at hs
    · next hb => exact absurd hb found
    · next p hp =>
        split_ifs at hs with ht
        refine ⟨fun i j hij hi hj _ _ hadm => ?_, _, ht⟩
        have hle := (scan_spec below hp).2 (i, j) (mem_scanOrder.2 ⟨hij, hi, hj⟩)
        rw [Admits, ExactFloat.lt_finite_of_le ht hle] at hadm
        cases hadm
  · exact Or.inl hn

omit [Field K] in
theorem Grown.separated_of_count (h : Grown S T) (hn : S.numActive ≤ 1) : Separated threshold S T := by
  intro i j hij hi hj
  have pair : [i, j].Subperm ((List.finRange n).filter (fun k => S.active k)) :=
    List.subperm_of_subset (by simpa using hij.ne) (by simp [hi, hj])
  have two : 2 ≤ ((List.finRange n).filter (fun k => S.active k)).length := pair.length_le
  rw [h.count] at two
  omega

theorem mergeStep_unlimited {x : Merge K n × AhcState C K n} (hs : mergeStep L threshold S = some x) :
    mergeStep L (.inf false) S = some x := by
  obtain ⟨e, U⟩ := x
  obtain ⟨i, j, hij, hn, -, -, hb, rfl, -, rfl⟩ := mergeStep_some hs
  unfold mergeStep
  rw [if_neg (by omega)]
  split
  · next hb' => rw [hb] at hb'; cases hb'
  · next p hp =>
      rw [hb] at hp
      cases hp
      rfl

def Visited (L : Linkage C K) (threshold : ExactFloat K) (start : AhcState C K n) : AhcState C K n → Prop :=
  Reachable (fun S => S = start) (fun S e U => mergeStep L threshold S = some (e, U))

theorem visited_run (L : Linkage C K) (threshold : ExactFloat K) (start : AhcState C K n) :
    Visited L threshold start ((mergeLoop L threshold).run start).2 :=
  (mergeLoop L threshold).run_invariant (fun _ _ _ h hs => .step h hs) (.start rfl)

/-- The states the loop runs through when nothing is refused. -/
def Reached (L : Linkage C K) (centroids : Fin n → C) (D : Fin n → Fin n → K) :
    AhcState C K n → Prop :=
  Reachable (fun S => S = .initial centroids D) (fun S e U => mergeStep L (.inf false) S = some (e, U))

def finalState (L : Linkage C K) (threshold : ExactFloat K) (centroids : Fin n → C)
    (D : Fin n → Fin n → K) : AhcState C K n :=
  ((mergeLoop L threshold).run (.initial centroids D)).2

def finalTrees (L : Linkage C K) (threshold : ExactFloat K) (centroids : Fin n → C)
    (D : Fin n → Fin n → K) : Fin n → MergeTree K (Fin n) :=
  ((mergeLoop L threshold).run (.initial centroids D)).1.foldl graft leaf

def dendrogram (L : Linkage C K) (centroids : Fin n → C) (D : Fin n → Fin n → K) :
    List (MergeTree K (Fin n)) :=
  forest (finalState L (.inf false) centroids D) (finalTrees L (.inf false) centroids D)

section Runs

variable (L : Linkage C K) (threshold : ExactFloat K) (centroids : Fin n → C) (D : Fin n → Fin n → K)

theorem final_within : Reached L centroids D (finalState L threshold centroids D) ∧
    Grown (finalState L threshold centroids D) (finalTrees L threshold centroids D) ∧
      ∀ t ∈ forest (finalState L threshold centroids D) (finalTrees L threshold centroids D),
        t.Within (Admits threshold) :=
  (mergeLoop L threshold).ghost_invariant graft
    (I := fun S T => Reached L centroids D S ∧ Grown S T ∧ ∀ t ∈ forest S T, t.Within (Admits threshold))
    (fun _ _ _ _ h hs => ⟨.step h.1 (mergeStep_unlimited hs), h.2.1.step hs, within_step h.2.2 hs⟩)
    ⟨.start rfl, initial_grown centroids D, by simp [forest, Within]⟩

variable {L threshold centroids D}

omit [Field K] in
/-- The cut of the forest at the exit is the partition by roots. -/
theorem joined_root (h : Grown S T) (hw : ∀ t ∈ forest S T, t.Within (Admits threshold)) {p q : Fin n} :
    Joined (Admits threshold) (forest S T) p q ↔ S.parent.root p = S.parent.root q := by
  rw [joined_within hw]
  constructor
  · rintro ⟨t, ht, hp, hq⟩
    obtain ⟨k, hk, rfl⟩ := mem_forest.1 ht
    rw [(h.points k hk p).1 hp, (h.points k hk q).1 hq]
  · intro hpq
    have hk : S.active (S.parent.root p) = true := (h.top _).2 (S.parent.parent_root p)
    exact ⟨_, mem_forest.2 ⟨_, hk, rfl⟩, (h.points _ hk p).2 rfl, (h.points _ hk q).2 hpq.symm⟩

variable (hfin : ∀ S, Reached L centroids D S → Finite S)
include hfin

theorem joined_dendrogram (p q : Fin n) : Joined (Admits threshold) (dendrogram L centroids D) p q ↔
    (finalState L threshold centroids D).parent.root p =
      (finalState L threshold centroids D).parent.root q := by
  obtain ⟨hr, hg, hw⟩ := final_within L threshold centroids D
  have hsep : Separated threshold (finalState L threshold centroids D)
      (finalTrees L threshold centroids D) := by
    rcases hg.stopped (hfin _ hr) ((mergeLoop L threshold).run_stopped _) with hn | hs
    · exact hg.separated_of_count hn
    · exact hs.1
  have late := (mergeLoop L (.inf false)).ghost_invariant graft
    (I := fun S T => Separated threshold S T ∧ ∀ p q, Joined (Admits threshold) (forest S T) p q ↔
      Joined (Admits threshold) (forest (finalState L threshold centroids D)
        (finalTrees L threshold centroids D)) p q)
    (fun S T e U h hs => ⟨(h.1.turn hs).1, fun p q => ((h.1.turn hs).2 p q).trans (h.2 p q)⟩)
    ⟨hsep, fun p q => Iff.rfl⟩
  have extend := (mergeLoop L threshold).run_extend (mergeLoop L (.inf false))
    (fun S x hs => mergeStep_unlimited hs) (.initial centroids D)
  rw [dendrogram, finalState, finalTrees, extend, List.foldl_append]
  exact (late.2 p q).trans (joined_root hg hw)

theorem dendrogram_single (p : Fin n) : ∃ t, dendrogram L centroids D = [t] := by
  obtain ⟨hr, hg, -⟩ := final_within L (.inf false) centroids D
  have hp : (finalState L (.inf false) centroids D).active
      ((finalState L (.inf false) centroids D).parent.root p) = true :=
    (hg.top _).2 (ParentForest.parent_root _ p)
  have nonempty : 0 < (dendrogram L centroids D).length :=
    List.length_pos_of_mem (mem_forest.2 ⟨_, hp, rfl⟩)
  have count : (dendrogram L centroids D).length = (finalState L (.inf false) centroids D).numActive := by
    rw [dendrogram, forest, List.length_map, hg.count]
  refine List.length_eq_one_iff.1 ?_
  rcases hg.stopped (hfin _ hr) ((mergeLoop L (.inf false)).run_stopped _) with hn | ⟨-, v, hv⟩
  · omega
  · cases hv

end Runs
end PyannoteCpp.SimpleAhc

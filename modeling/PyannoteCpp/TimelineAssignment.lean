import Mathlib.Data.Fintype.Basic
import Mathlib.Data.List.FinRange
import Mathlib.Tactic

set_option autoImplicit false

/-!
# Which global speaker a local speaker is credited to

`main` keeps one global speaker for each pair of a chunk and a local speaker,
while the clustering labels one embedding for each active run of the pair. The
map is filled in the order of the embeddings, so the last run decides.
-/
namespace PyannoteCpp.TimelineAssignment

structure ChunkEmbedding where
  chunkIdx : ℕ
  localSpeaker : Fin 3
  deriving DecidableEq

abbrev Key := ℕ × Fin 3

def ChunkEmbedding.key (e : ChunkEmbedding) : Key := (e.chunkIdx, e.localSpeaker)

variable {n : ℕ}

def assignmentStep (embeddings : Fin n → ChunkEmbedding) (labels : Fin n → ℕ)
    (m : Key → Option ℕ) (i : Fin n) : Key → Option ℕ :=
  Function.update m (embeddings i).key (some (labels i))

def assignmentMap (embeddings : Fin n → ChunkEmbedding) (labels : Fin n → ℕ) : Key → Option ℕ :=
  (List.finRange n).foldl (assignmentStep embeddings labels) (fun _ => none)

/-- The count derived from the labels, at least one when there is an embedding. -/
def numGlobalSpeakers (labels : Fin n → ℕ) : ℕ :=
  let m := (List.finRange n).foldl (fun m i => if labels i ≥ m then labels i + 1 else m) 0
  if m = 0 ∧ n ≠ 0 then 1 else m

/-- `global_id` in the accumulation loop, with the guard it is used under. -/
def globalId (embeddings : Fin n → ChunkEmbedding) (labels : Fin n → ℕ) (k : Key) : Option ℕ :=
  (assignmentMap embeddings labels k).filter (fun id => id < numGlobalSpeakers labels)

theorem count_bounds (labels : Fin n → ℕ) (l : List (Fin n)) (m : ℕ) :
    m ≤ l.foldl (fun m i => if labels i ≥ m then labels i + 1 else m) m ∧
      ∀ i ∈ l, labels i < l.foldl (fun m i => if labels i ≥ m then labels i + 1 else m) m := by
  induction l generalizing m with
  | nil => simp
  | cons a l ih =>
    obtain ⟨hm, hl⟩ := ih (if labels a ≥ m then labels a + 1 else m)
    have step : m ≤ (if labels a ≥ m then labels a + 1 else m) ∧
        labels a < (if labels a ≥ m then labels a + 1 else m) := by
      split_ifs <;> omega
    simp only [List.foldl_cons, List.mem_cons]
    refine ⟨step.1.trans hm, ?_⟩
    rintro i (rfl | hi)
    · exact lt_of_lt_of_le step.2 hm
    · exact hl i hi

theorem label_lt (labels : Fin n → ℕ) (i : Fin n) : labels i < numGlobalSpeakers labels := by
  have h := (count_bounds labels (List.finRange n) 0).2 i (List.mem_finRange i)
  unfold numGlobalSpeakers
  dsimp only
  split_ifs with hz
  · omega
  · exact h

variable (embeddings : Fin n → ChunkEmbedding) (labels : Fin n → ℕ)

def IsLast (k : Key) (j : Fin n) : Prop :=
  (embeddings j).key = k ∧ ∀ i, (embeddings i).key = k → i ≤ j

theorem exists_isLast (i : Fin n) : ∃ j, IsLast embeddings (embeddings i).key j := by
  have hne : (Finset.univ.filter (fun j => (embeddings j).key = (embeddings i).key)).Nonempty :=
    ⟨i, by simp⟩
  refine ⟨_, (Finset.mem_filter.1 (Finset.max'_mem _ hne)).2, fun j hj => ?_⟩
  exact Finset.le_max' _ j (by simpa using hj)

theorem foldl_last {l : List (Fin n)} (hl : l.Pairwise (· < ·)) (m : Key → Option ℕ) {k : Key}
    {j : Fin n} (hj : j ∈ l) (hk : (embeddings j).key = k)
    (hlast : ∀ i ∈ l, (embeddings i).key = k → i ≤ j) :
    l.foldl (assignmentStep embeddings labels) m k = some (labels j) := by
  induction l using List.reverseRecOn with
  | nil => simp at hj
  | append_singleton l a ih =>
    obtain ⟨hlow, _, hcross⟩ := List.pairwise_append.1 hl
    rw [List.foldl_append, List.foldl_cons, List.foldl_nil, assignmentStep]
    by_cases ha : (embeddings a).key = k
    · have haj : a ≤ j := hlast a (by simp) ha
      have hja : j = a := by
        rcases List.mem_append.1 hj with hj | hj
        · exact absurd (hcross j hj a (by simp)) (not_lt.2 haj)
        · exact List.mem_singleton.1 hj
      rw [ha, Function.update_self, hja]
    · have hj' : j ∈ l := by
        rcases List.mem_append.1 hj with hj | hj
        · exact hj
        · rw [List.mem_singleton.1 hj] at hk
          exact absurd hk ha
      rw [Function.update_of_ne (Ne.symm ha)]
      exact ih hlow hj' (fun i hi => hlast i (List.mem_append_left _ hi))

theorem foldl_absent (l : List (Fin n)) (m : Key → Option ℕ) {k : Key}
    (h : ∀ i ∈ l, (embeddings i).key ≠ k) :
    l.foldl (assignmentStep embeddings labels) m k = m k := by
  induction l generalizing m with
  | nil => rfl
  | cons a l ih =>
    rw [List.foldl_cons, ih _ (fun i hi => h i (List.mem_cons_of_mem _ hi)), assignmentStep,
      Function.update_of_ne (Ne.symm (h a List.mem_cons_self))]

theorem globalId_last {k : Key} {j : Fin n} (h : IsLast embeddings k j) :
    globalId embeddings labels k = some (labels j) := by
  have hm : assignmentMap embeddings labels k = some (labels j) :=
    foldl_last embeddings labels (List.pairwise_lt_finRange n) _ (List.mem_finRange j) h.1
      (fun i _ => h.2 i)
  rw [globalId, hm, Option.filter_some, if_pos (by simpa using label_lt labels j)]

theorem globalId_some {k : Key} {g : ℕ} (h : globalId embeddings labels k = some g) :
    ∃ j, IsLast embeddings k j ∧ labels j = g := by
  by_cases hk : ∃ i, (embeddings i).key = k
  · obtain ⟨i, rfl⟩ := hk
    obtain ⟨j, hj⟩ := exists_isLast embeddings i
    rw [globalId_last embeddings labels hj, Option.some.injEq] at h
    exact ⟨j, hj, h⟩
  · have hm : assignmentMap embeddings labels k = none :=
      foldl_absent embeddings labels _ _ (fun i _ hi => hk ⟨i, hi⟩)
    rw [globalId, hm] at h
    simp at h

/-- The pair of every embedding is credited under the label of its last
    embedding, hence under every label of its own exactly when equal pairs have
    equal labels. A label owns a pair when the last embedding of one has it. -/
theorem assignment_last_write :
    (∀ i, ∃ j, IsLast embeddings (embeddings i).key j ∧
      globalId embeddings labels (embeddings i).key = some (labels j)) ∧
    ((∀ i, globalId embeddings labels (embeddings i).key = some (labels i)) ↔
      ∀ i j, (embeddings i).key = (embeddings j).key → labels i = labels j) ∧
    ∀ g, (∃ k, globalId embeddings labels k = some g) ↔
      ∃ i j, IsLast embeddings (embeddings i).key j ∧ labels j = g := by
  refine ⟨fun i => ?_, ⟨fun h i j hij => ?_, fun h i => ?_⟩, fun g => ⟨?_, ?_⟩⟩
  · obtain ⟨j, hj⟩ := exists_isLast embeddings i
    exact ⟨j, hj, globalId_last embeddings labels hj⟩
  · have hi := h i
    rw [hij, h j, Option.some.injEq] at hi
    exact hi.symm
  · obtain ⟨j, hj⟩ := exists_isLast embeddings i
    rw [globalId_last embeddings labels hj, h j i hj.1]
  · rintro ⟨k, hk⟩
    obtain ⟨j, hj, hg⟩ := globalId_some embeddings labels hk
    refine ⟨j, j, ?_, hg⟩
    rw [hj.1]
    exact hj
  · rintro ⟨i, j, hj, rfl⟩
    exact ⟨_, globalId_last embeddings labels hj⟩

def twoRuns : Fin 2 → ChunkEmbedding := fun _ => ⟨0, 0⟩

def twoLabels : Fin 2 → ℕ := fun i => i.val

/-- Label `0` of the first run is lost, and owns no pair at all. -/
theorem first_run_lost :
    globalId twoRuns twoLabels (twoRuns 0).key ≠ some (twoLabels 0) ∧
      ∀ k, globalId twoRuns twoLabels k ≠ some 0 := by
  refine ⟨by decide, fun k hk => ?_⟩
  obtain ⟨j, hj, hz⟩ := globalId_some twoRuns twoLabels hk
  have last : (1 : Fin 2) ≤ j := hj.2 1 hj.1
  have zero : j.val = 0 := hz
  rw [Fin.le_def, zero] at last
  exact absurd last (by decide)

end PyannoteCpp.TimelineAssignment

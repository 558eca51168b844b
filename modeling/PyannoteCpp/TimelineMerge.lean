import PyannoteCpp.TimelineSegments

set_option autoImplicit false

/-!
# The merged timeline lies between the grid and its small-gap closure

No active frame is lost or doubled, and an inactive frame is covered only when
it lies in a gap of its speaker shorter than the merge distance.
-/
namespace PyannoteCpp.TimelineSegments
open ActiveRuns NeighbourMerge TimelineAccumulation

variable {active : ℕ → ℕ → Bool} {numSpeakers gridFrames : ℕ} {sorted : List FinalSeg}

/-- The segment and the time of frame `t` overlap. -/
def Touches (seg : FinalSeg) (t : ℕ) : Prop :=
  seg.start < (t + 1 : ℕ) * modelFrameDuration ∧ t * modelFrameDuration < seg.stop

instance (seg : FinalSeg) (t : ℕ) : Decidable (Touches seg t) :=
  inferInstanceAs (Decidable (_ ∧ _))

theorem touches_run {s t : ℕ} {p : ℕ × ℕ} : Touches (runSegment s p) t ↔ p.1 ≤ t ∧ t < p.2 := by
  rw [Touches, runSegment, frame_lt, frame_lt, Nat.lt_succ_iff]

theorem chain_cover {a : FinalSeg} {l : List FinalSeg} {t : ℕ}
    (hc : (a :: l).IsChain (fun a b => mergeable a b = true))
    (low : a.start < (t + 1 : ℕ) * modelFrameDuration)
    (high : t * modelFrameDuration < ((a :: l).getLast (by simp)).stop) :
    (∃ x ∈ a :: l, Touches x t) ∨ ∃ x ∈ a :: l, ∃ y ∈ a :: l, mergeable x y = true ∧
      x.stop ≤ t * modelFrameDuration ∧ (t + 1 : ℕ) * modelFrameDuration ≤ y.start := by
  induction l generalizing a with
  | nil => exact Or.inl ⟨a, List.mem_singleton_self a, low, high⟩
  | cons b l ih =>
    rw [List.isChain_cons_cons] at hc
    by_cases inside : t * modelFrameDuration < a.stop
    · exact Or.inl ⟨a, List.mem_cons_self, low, inside⟩
    · by_cases next : b.start < (t + 1 : ℕ) * modelFrameDuration
      · rw [List.getLast_cons_cons] at high
        rcases ih hc.2 next high with ⟨x, hx, touch⟩ | ⟨x, hx, y, hy, between⟩
        · exact Or.inl ⟨x, List.mem_cons_of_mem a hx, touch⟩
        · exact Or.inr ⟨x, List.mem_cons_of_mem a hx, y, List.mem_cons_of_mem a hy, between⟩
      · exact Or.inr ⟨a, List.mem_cons_self, b, List.mem_cons_of_mem a List.mem_cons_self, hc.1,
          not_lt.1 inside, not_lt.1 next⟩

variable (h : Timeline active numSpeakers gridFrames sorted)
include h

theorem Timeline.mem_mergePass {seg : FinalSeg} :
    seg ∈ mergePass sorted ↔ ∃ g ∈ groups sorted, hull extend g = seg := by
  rw [h.mergePass_eq, List.mem_map]

theorem Timeline.hull_contains {g : List FinalSeg} (hg : g ∈ groups sorted) {a : FinalSeg}
    (ha : a ∈ g) : (hull extend g).start ≤ a.start ∧ a.stop ≤ (hull extend g).stop := by
  obtain ⟨hne, speaker, start, stop⟩ := h.hull_group hg
  rw [start, stop]
  constructor
  · have rising := (groups_pairwise h.rising).1 g hg
    cases g with
    | nil => exact absurd rfl hne
    | cons b l =>
      rcases List.mem_cons.1 ha with rfl | hal
      · exact le_rfl
      · exact (List.pairwise_cons.1 rising).1 a hal
  · have later := (groups_pairwise h.later).1 g hg
    have last := List.dropLast_append_getLast hne
    by_cases top : a = g.getLast hne
    · rw [← top]
    · have same := (speaker a ha).trans (speaker _ (List.getLast_mem hne)).symm
      rw [← last, List.pairwise_append] at later
      rw [← last, List.mem_append, List.mem_singleton] at ha
      have before := later.2.2 a (ha.resolve_right top) _ (List.mem_singleton_self _) same
      have long := h.lt (mem_group hg (List.getLast_mem hne))
      exact (before.trans long).le

theorem Timeline.merged_lt {seg : FinalSeg} (hseg : seg ∈ mergePass sorted) :
    seg.start < seg.stop := by
  obtain ⟨g, hg, rfl⟩ := h.mem_mergePass.1 hseg
  obtain ⟨hne, _⟩ := h.hull_group hg
  have first := List.head_mem hne
  obtain ⟨low, high⟩ := h.hull_contains hg first
  exact lt_of_le_of_lt low (lt_of_lt_of_le (h.lt (mem_group hg first)) high)

theorem Timeline.covered {a : FinalSeg} (ha : a ∈ sorted) : ∃ seg ∈ mergePass sorted,
    seg.speaker = a.speaker ∧ seg.start ≤ a.start ∧ a.stop ≤ seg.stop := by
  rw [← List.flatten_splitBy mergeable sorted] at ha
  obtain ⟨g, hg, hag⟩ := List.mem_flatten.1 ha
  obtain ⟨_, speaker, _⟩ := h.hull_group hg
  exact ⟨_, h.mem_mergePass.2 ⟨g, hg, rfl⟩, (speaker a hag).symm, h.hull_contains hg hag⟩

theorem Timeline.merged_later : (mergePass sorted).Pairwise
    (fun a b => a.speaker = b.speaker → a.stop < b.start) := by
  rw [h.mergePass_eq, List.pairwise_map]
  refine (groups_pairwise h.later).2.imp_of_mem ?_
  intro g k hg hk hgk same
  obtain ⟨gne, gspeaker, _, gstop⟩ := h.hull_group hg
  obtain ⟨kne, kspeaker, kstart, _⟩ := h.hull_group hk
  rw [gstop, kstart]
  apply hgk _ (List.getLast_mem gne) _ (List.head_mem kne)
  rw [gspeaker _ (List.getLast_mem gne), kspeaker _ (List.head_mem kne)]
  exact same

theorem Timeline.merged_grid {seg : FinalSeg} (hseg : seg ∈ mergePass sorted) :
    ∃ p, seg = runSegment seg.speaker p := by
  obtain ⟨g, hg, rfl⟩ := h.mem_mergePass.1 hseg
  obtain ⟨hne, _, start, stop⟩ := h.hull_group hg
  obtain ⟨_, i, _, _, _, first⟩ := (h.mem _).1 (mem_group hg (List.head_mem hne))
  obtain ⟨_, _, j, _, _, last⟩ := (h.mem _).1 (mem_group hg (List.getLast_mem hne))
  rw [first] at start
  rw [last] at stop
  refine ⟨(i, j), ?_⟩
  cases hh : hull extend g with
  | mk a b c =>
    rw [hh] at start stop
    change a = _ at start
    change b = _ at stop
    rw [start, stop]
    rfl

theorem Timeline.merged_disjoint {a b : FinalSeg} (ha : a ∈ mergePass sorted)
    (hb : b ∈ mergePass sorted) (hab : a.stop < b.start) (t : ℕ) :
    ¬(Touches a t ∧ Touches b t) := by
  obtain ⟨p, hp⟩ := h.merged_grid ha
  obtain ⟨q, hq⟩ := h.merged_grid hb
  rw [hp, hq, touches_run, touches_run]
  rw [hp, hq] at hab
  have order : p.2 < q.1 := frame_lt.1 hab
  omega

theorem Timeline.group_runs {g : List FinalSeg} (hg : g ∈ groups sorted) {x : FinalSeg}
    (hx : x ∈ g) : ∃ i j, MaximalRun (active (hull extend g).speaker) gridFrames i j ∧
      x = runSegment (hull extend g).speaker (i, j) := by
  obtain ⟨_, speaker, _, _⟩ := h.hull_group hg
  obtain ⟨s, i, j, _, run, hrun⟩ := (h.mem x).1 (mem_group hg hx)
  have hs : s = (hull extend g).speaker := by
    rw [← speaker x hx, hrun]
    rfl
  rw [hs] at run hrun
  exact ⟨i, j, run, hrun⟩

theorem Timeline.inactive_gap {seg : FinalSeg} (hseg : seg ∈ mergePass sorted) {t : ℕ}
    (touch : Touches seg t) (quiet : active seg.speaker t = false) :
    ∃ i j : ℕ, i ≤ t ∧ t < j ∧ j < gridFrames ∧ Gap (active seg.speaker) i j ∧
      ((j : ℚ) - i) * modelFrameDuration < 1 / 10 := by
  obtain ⟨g, hg, rfl⟩ := h.mem_mergePass.1 hseg
  obtain ⟨hne, _, start, stop⟩ := h.hull_group hg
  have cover : (∃ x ∈ g, Touches x t) ∨ ∃ x ∈ g, ∃ y ∈ g, mergeable x y = true ∧
      x.stop ≤ t * modelFrameDuration ∧ (t + 1 : ℕ) * modelFrameDuration ≤ y.start := by
    cases g with
    | nil => exact absurd rfl hne
    | cons a l =>
      apply chain_cover (List.isChain_of_mem_splitBy hg)
      · rw [List.head_cons] at start
        rw [← start]
        exact touch.1
      · rw [← stop]
        exact touch.2
  rcases cover with ⟨x, hx, inside⟩ | ⟨x, hx, y, hy, close, before, after⟩
  · obtain ⟨i, j, run, rfl⟩ := h.group_runs hg hx
    obtain ⟨low, high⟩ := touches_run.1 inside
    have loud := run.1.2.1 t low high
    rw [quiet] at loud
    cases loud
  · obtain ⟨i, p, run, rfl⟩ := h.group_runs hg hx
    obtain ⟨q, j, next, rfl⟩ := h.group_runs hg hy
    have hpt : p ≤ t := frame_le.1 before
    have htq : t < q := frame_le.1 after
    have loud : active (hull extend g).speaker (p - 1) = true :=
      run.1.2.1 (p - 1) (by have := run.1.1; omega) (by have := run.1.1; omega)
    obtain ⟨u, v, hpu, hvq, hut, htv, gap⟩ := exists_gap (by have := run.1.1; omega) loud
      (next.1.2.1 q le_rfl next.1.1) hpt htq quiet
    refine ⟨u, v, hut, htv, ?_, gap, ?_⟩
    · have := next.1.1
      have := next.2.1
      omega
    · have short := (mergeable_iff.1 close).2
      change (q : ℚ) * modelFrameDuration - p * modelFrameDuration < 1 / 10 at short
      have wide : ((v : ℚ) - u) * modelFrameDuration ≤ (q - p) * modelFrameDuration := by
        apply mul_le_mul_of_nonneg_right _ (by norm_num [modelFrameDuration])
        have hv : (v : ℚ) ≤ q := by exact_mod_cast hvq
        have hu : (p : ℚ) ≤ u := by exact_mod_cast hpu
        linarith
      linarith

/-- An active frame lies in exactly one merged segment of its speaker. -/
theorem Timeline.active_once {s t : ℕ} (hs : s < numSpeakers) (ht : t < gridFrames) (ha : active s t = true) :
    (∃ seg ∈ mergePass sorted, seg.speaker = s ∧ seg.start ≤ t * modelFrameDuration ∧
      (t + 1 : ℕ) * modelFrameDuration ≤ seg.stop) ∧
    ((mergePass sorted).filter (fun seg => seg.speaker = s ∧ Touches seg t)).length = 1 := by
  obtain ⟨i, j, hit, htj, run⟩ := exists_maximalRun ha ht
  obtain ⟨seg, hseg, speaker, start, stop⟩ :=
    h.covered ((h.mem (runSegment s (i, j))).2 ⟨s, i, j, hs, run, rfl⟩)
  have low : seg.start ≤ t * modelFrameDuration := start.trans (frame_le.2 hit)
  have high : (t + 1 : ℕ) * modelFrameDuration ≤ seg.stop := le_trans (frame_le.2 htj) stop
  refine ⟨⟨seg, hseg, speaker, low, high⟩, filter_length_one ?_ ⟨seg, hseg, ?_⟩⟩
  · refine h.merged_later.imp_of_mem ?_
    intro a b ha hb hab both
    obtain ⟨⟨sa, ta⟩, sb, tb⟩ := both.imp of_decide_eq_true of_decide_eq_true
    exact h.merged_disjoint ha hb (hab (sa.trans sb.symm)) t ⟨ta, tb⟩
  · apply decide_eq_true
    exact ⟨speaker, lt_of_le_of_lt low (frame_lt.2 (Nat.lt_succ_self t)),
      lt_of_lt_of_le (frame_lt.2 (Nat.lt_succ_self t)) high⟩

omit h

/-- The merged timeline of every activity grid, for every order the sort may leave. -/
theorem merged_sandwich (active : ℕ → ℕ → Bool) (numSpeakers gridFrames : ℕ)
    (sorted : List FinalSeg) (h : Sorts active numSpeakers gridFrames sorted) :
    (∀ s t, s < numSpeakers → t < gridFrames → active s t = true →
      (∃ seg ∈ mergePass sorted, seg.speaker = s ∧ seg.start ≤ t * modelFrameDuration ∧
        (t + 1 : ℕ) * modelFrameDuration ≤ seg.stop) ∧
      ((mergePass sorted).filter (fun seg => seg.speaker = s ∧ Touches seg t)).length = 1) ∧
    (∀ seg ∈ mergePass sorted, seg.start < seg.stop) ∧
    (mergePass sorted).Pairwise (fun a b => a.speaker = b.speaker → a.stop < b.start) ∧
    ∀ seg ∈ mergePass sorted, ∀ t, Touches seg t → active seg.speaker t = false →
      ∃ i j : ℕ, i ≤ t ∧ t < j ∧ j < gridFrames ∧ Gap (active seg.speaker) i j ∧
        ((j : ℚ) - i) * modelFrameDuration < 1 / 10 := by
  have timeline := timeline_of_sorts h
  exact ⟨fun s t hs ht ha => timeline.active_once hs ht ha, fun seg hseg => timeline.merged_lt hseg, timeline.merged_later,
    fun seg hseg t touch quiet => timeline.inactive_gap hseg touch quiet⟩

def pausedGrid : ℕ → ℕ → Bool := fun _ t => t ≠ 1

def pausedSorted : List FinalSeg := [runSegment 0 (0, 1), runSegment 0 (2, 3)]

theorem paused_sorts : Sorts pausedGrid 1 3 pausedSorted := by
  have collected : collectSegments pausedGrid 1 3 = pausedSorted := by
    have pausedRuns : runs (pausedGrid 0) 3 = [(0, 1), (2, 3)] := by decide
    rw [collectSegments_eq, List.range_one, List.flatMap_singleton, pausedRuns]
    rfl
  intro _
  rw [collected]
  refine ⟨List.Perm.refl _, ?_⟩
  rw [pausedSorted, SortContract.Sorted, List.pairwise_pair]
  apply decide_eq_false
  rw [not_lt]
  exact frame_le.2 (Nat.zero_le 2)

theorem merged_sandwich_paused :
    ((mergePass pausedSorted).filter (fun seg => seg.speaker = 0 ∧ Touches seg 2)).length = 1 :=
  ((merged_sandwich pausedGrid 1 3 pausedSorted paused_sorts).1 0 2 Nat.zero_lt_one
    (Nat.lt_succ_self 2) rfl).2

end PyannoteCpp.TimelineSegments

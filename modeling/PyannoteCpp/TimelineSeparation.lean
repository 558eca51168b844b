import PyannoteCpp.TimelineMerge

set_option autoImplicit false

/-!
# When merged segments of one speaker are kept apart

The merge pass looks at the last merged segment only. A short pause is closed
when nothing is sorted between the two runs around it, and stays open when a run
of another speaker is.
-/
namespace PyannoteCpp.TimelineSegments
open ActiveRuns NeighbourMerge SortContract TimelineAccumulation

/-- `a` and `b` are consecutive for their speaker, with `mid` between them. -/
def Between (l : List FinalSeg) (a : FinalSeg) (mid : List FinalSeg) (b : FinalSeg) : Prop :=
  (∃ pre post, l = pre ++ a :: (mid ++ b :: post)) ∧ a.speaker = b.speaker ∧
    ∀ c ∈ mid, c.speaker ≠ a.speaker

def Separated (l : List FinalSeg) : Prop :=
  ∀ a mid b, Between l a mid b → 1 / 10 ≤ b.start - a.stop

/-- No other speaker is sorted into a short pause. -/
def ShortAdjacent (l : List FinalSeg) : Prop :=
  ∀ a mid b, Between l a mid b → b.start - a.stop < 1 / 10 → mid = []

/-- A pause of less than 0.1 s, from `i` to `j`, after a run that started at `h`. -/
structure ShortPause (a : ℕ → Bool) (gridFrames h i j : ℕ) : Prop where
  run : Run a h i
  gap : Gap a i j
  inside : j < gridFrames
  short : ((j : ℚ) - i) * modelFrameDuration < 1 / 10

/-- No run of another speaker starts during a run before a short pause or in the pause. -/
def ClearPauses (active : ℕ → ℕ → Bool) (numSpeakers gridFrames : ℕ) : Prop :=
  ∀ s h i j, s < numSpeakers → ShortPause (active s) gridFrames h i j →
    ∀ u t e, u < numSpeakers → u ≠ s → MaximalRun (active u) gridFrames t e → t < h ∨ j < t

variable {active : ℕ → ℕ → Bool} {numSpeakers gridFrames : ℕ} {sorted : List FinalSeg}

section Sorted

variable (h : Timeline active numSpeakers gridFrames sorted)
include h

theorem Timeline.hull_ends {g : List FinalSeg} (hg : g ∈ groups sorted) :
    (∀ a ∈ g, a.speaker = (hull extend g).speaker) ∧
      (∀ a, g.getLast? = some a → (hull extend g).stop = a.stop) ∧
      ∀ b, g.head? = some b → (hull extend g).start = b.start := by
  obtain ⟨hne, speaker, start, stop⟩ := h.hull_group hg
  refine ⟨speaker, fun a ha => ?_, fun b hb => ?_⟩
  · rw [List.getLast?_eq_some_getLast hne, Option.some.injEq] at ha
    rw [stop, ha]
  · rw [List.head?_eq_some_head hne, Option.some.injEq] at hb
    rw [start, hb]

/-- Consecutive segments of one speaker that are not neighbours end and start
    consecutive merged segments of it. -/
theorem Timeline.between_merged {a b : FinalSeg} {mid : List FinalSeg}
    (hb : Between sorted a mid b) (hmid : mid ≠ []) : ∃ A M B, Between (mergePass sorted) A M B ∧
      A.stop = a.stop ∧ B.start = b.start := by
  obtain ⟨⟨pre, post, hl⟩, same, others⟩ := hb
  have left : ∀ c ∈ mid, mergeable a c = false := by
    intro c hc
    rw [← Bool.not_eq_true, mergeable_iff]
    exact fun hac => others c hc hac.1.symm
  have right : ∀ c ∈ mid, mergeable c b = false := by
    intro c hc
    rw [← Bool.not_eq_true, mergeable_iff]
    exact fun hcb => others c hc (hcb.1.trans same.symm)
  obtain ⟨P, g, M, k, Q, split, hg, hk, hM⟩ :=
    splitBy_around pre post hmid left right
  rw [← hl] at split
  change groups sorted = _ at split
  have mem : ∀ x ∈ g :: (M ++ k :: Q), x ∈ groups sorted := by
    intro x hx
    rw [split]
    exact List.mem_append_right P hx
  obtain ⟨gspeaker, gstop, _⟩ := h.hull_ends (mem g List.mem_cons_self)
  obtain ⟨kspeaker, _, kstart⟩ := h.hull_ends (mem k (by simp))
  have ga := gspeaker a (List.mem_of_getLast? hg)
  have kb := kspeaker b (List.mem_of_mem_head? hk)
  refine ⟨hull extend g, M.map (hull extend), hull extend k,
    ⟨⟨P.map (hull extend), Q.map (hull extend), ?_⟩, ?_, ?_⟩, gstop a hg, kstart b hk⟩
  · rw [h.mergePass_eq, split, List.map_append, List.map_cons, List.map_append, List.map_cons]
  · rw [← ga, ← kb, same]
  · intro c hc
    obtain ⟨m, hm, rfl⟩ := List.mem_map.1 hc
    obtain ⟨mne, mspeaker, _⟩ := h.hull_group (mem m (by simp [hm]))
    have part : m.head mne ∈ mid := by
      rw [← hM]
      exact List.mem_flatten.2 ⟨m, hm, List.head_mem mne⟩
    rw [← mspeaker _ (List.head_mem mne), ← ga]
    exact others _ part

theorem Timeline.between_sorted {A B : FinalSeg} {M : List FinalSeg}
    (hB : Between (mergePass sorted) A M B) : ∃ a mid b, Between sorted a mid b ∧
      a.stop = A.stop ∧ b.start = B.start ∧ (mid = [] → mergeable a b = false) := by
  obtain ⟨⟨pre, post, hl⟩, same, others⟩ := hB
  rw [h.mergePass_eq, List.map_eq_append_iff] at hl
  obtain ⟨P, _, split, _, hcons⟩ := hl
  obtain ⟨g, _, rfl, rfl, happend⟩ := List.map_eq_cons_iff.1 hcons
  obtain ⟨N, _, rfl, rfl, hlast⟩ := List.map_eq_append_iff.1 happend
  obtain ⟨k, Q, rfl, rfl, _⟩ := List.map_eq_cons_iff.1 hlast
  have mem : ∀ x ∈ g :: (N ++ k :: Q), x ∈ groups sorted := by
    intro x hx
    rw [split]
    exact List.mem_append_right P hx
  obtain ⟨gspeaker, gstop, _⟩ := h.hull_ends (mem g List.mem_cons_self)
  obtain ⟨kspeaker, _, kstart⟩ := h.hull_ends (mem k (by simp))
  obtain ⟨gne, kne, place, cut⟩ := splitBy_groups split
  have ga := gspeaker _ (List.getLast_mem gne)
  have kb := kspeaker _ (List.head_mem kne)
  refine ⟨g.getLast gne, N.flatten, k.head kne, ⟨place, ?_, ?_⟩,
    (gstop _ (List.getLast?_eq_some_getLast gne)).symm,
    (kstart _ (List.head?_eq_some_head kne)).symm, cut⟩
  · rw [ga, kb, same]
  · intro c hc
    obtain ⟨m, hm, hcm⟩ := List.mem_flatten.1 hc
    obtain ⟨mspeaker, _⟩ := h.hull_ends (mem m (by simp [hm]))
    rw [mspeaker c hcm, ga]
    exact others _ (List.mem_map.2 ⟨m, hm, rfl⟩)

theorem Timeline.separated_iff : Separated (mergePass sorted) ↔ ShortAdjacent sorted := by
  constructor
  · intro separated a mid b hb short
    by_contra hmid
    obtain ⟨A, M, B, hB, stop, start⟩ := h.between_merged hb hmid
    have wide := separated A M B hB
    rw [stop, start] at wide
    linarith
  · intro adjacent A M B hB
    obtain ⟨a, mid, b, hb, stop, start, cut⟩ := h.between_sorted hB
    by_contra near
    rw [← stop, ← start, not_le] at near
    have close := cut (adjacent a mid b hb near)
    rw [← Bool.not_eq_true, mergeable_iff] at close
    exact close ⟨hb.2.1, near⟩

theorem Timeline.between_gap {s i j p q : ℕ} {mid : List FinalSeg}
    (hb : Between sorted (runSegment s (i, p)) mid (runSegment s (q, j)))
    (run : MaximalRun (active s) gridFrames i p) (next : MaximalRun (active s) gridFrames q j)
    (hs : s < numSpeakers) : Gap (active s) p q := by
  obtain ⟨⟨pre, post, hl⟩, _, others⟩ := hb
  have later := h.later
  rw [hl, List.pairwise_append] at later
  obtain ⟨_, later, cross⟩ := later
  obtain ⟨first, later⟩ := List.pairwise_cons.1 later
  obtain ⟨_, second, _⟩ := List.pairwise_append.1 later
  have order : p < q := frame_lt.1 (first (runSegment s (q, j)) (by simp) rfl)
  have hip := run.1.1
  have hqj := next.1.1
  refine ⟨by omega, order, run.1.2.1 (p - 1) (by omega) (by omega), next.1.2.1 q le_rfl hqj, ?_⟩
  intro t hpt htq
  by_contra loud
  have ht : t < gridFrames := by
    have := next.2.1
    omega
  obtain ⟨u, v, hut, htv, other⟩ := exists_maximalRun (n := gridFrames)
    (by simpa using loud : active s t = true) ht
  have place := (h.mem (runSegment s (u, v))).2 ⟨s, u, v, hs, other, rfl⟩
  rw [hl, List.mem_append, List.mem_cons, List.mem_append, List.mem_cons] at place
  rcases place with low | same | inside | same | high
  · have before : v < i := frame_lt.1 (cross _ low (runSegment s (i, p)) List.mem_cons_self rfl)
    omega
  · have stop : v = p := by
      have hv := congrArg FinalSeg.stop same
      exact le_antisymm (frame_le.1 hv.le) (frame_le.1 hv.ge)
    omega
  · exact others _ inside rfl
  · have start : u = q := by
      have hu := congrArg FinalSeg.start same
      exact le_antisymm (frame_le.1 hu.le) (frame_le.1 hu.ge)
    omega
  · have after : j < u := frame_lt.1 ((List.pairwise_cons.1 second).1 _ high rfl)
    omega

theorem Timeline.clear_adjacent (clear : ClearPauses active numSpeakers gridFrames) :
    ShortAdjacent sorted := by
  intro a mid b hb short
  obtain ⟨⟨pre, post, hl⟩, same, others⟩ := hb
  have place : ∀ x ∈ a :: (mid ++ b :: post), x ∈ sorted := by
    intro x hx
    rw [hl]
    exact List.mem_append_right pre hx
  obtain ⟨s, i, p, hs, run, rfl⟩ := (h.mem a).1 (place a List.mem_cons_self)
  obtain ⟨s', q, j, _, next, rfl⟩ := (h.mem b).1 (place b (by simp))
  change s = s' at same
  subst s'
  have gap := h.between_gap ⟨⟨pre, post, hl⟩, rfl, others⟩ run next hs
  have rising := h.rising
  rw [hl, List.pairwise_append] at rising
  obtain ⟨first, rising⟩ := List.pairwise_cons.1 rising.2.1
  obtain ⟨_, _, cross⟩ := List.pairwise_append.1 rising
  cases mid with
  | nil => rfl
  | cons c mid =>
    obtain ⟨u, t, e, hu, other, rfl⟩ := (h.mem c).1 (place c (by simp))
    have low : i ≤ t := frame_le.1 (first (runSegment u (t, e)) (by simp))
    have high : t ≤ q := frame_le.1 (cross (runSegment u (t, e)) List.mem_cons_self
      (runSegment s (q, j)) List.mem_cons_self)
    have inside : q < gridFrames := lt_of_lt_of_le next.1.1 next.2.1
    have pause : ShortPause (active s) gridFrames i p q := by
      refine ⟨run.1, gap, inside, ?_⟩
      rw [sub_mul]
      exact short
    have outside := clear s i p q hs pause u t e hu (others _ List.mem_cons_self) other
    omega

end Sorted

theorem ShortPause.before {a : ℕ → Bool} {h i j : ℕ} (pause : ShortPause a gridFrames h i j) :
    MaximalRun a gridFrames h i := by
  have hij := pause.gap.2.1
  have inside := pause.inside
  exact ⟨pause.run, by omega, Or.inr (pause.gap.2.2.2.2 i le_rfl hij)⟩

theorem ShortPause.after {a : ℕ → Bool} {h i j : ℕ} (pause : ShortPause a gridFrames h i j) :
    ∃ k, MaximalRun a gridFrames j k := by
  obtain ⟨_, hij, _, loud, quiet⟩ := pause.gap
  obtain ⟨q, k, hq, hk, run⟩ := exists_maximalRun loud pause.inside
  have start : q = j := by
    by_contra ne
    have early := run.1.2.1 (j - 1) (by omega) (by omega)
    rw [quiet (j - 1) (by omega) (by omega)] at early
    cases early
  rw [start] at run
  exact ⟨k, run⟩

theorem Timeline.between_pause (timeline : Timeline active numSpeakers gridFrames sorted)
    {s h i j k : ℕ} (pause : ShortPause (active s) gridFrames h i j)
    {pre mid post : List FinalSeg}
    (hl : sorted = pre ++ runSegment s (h, i) :: (mid ++ runSegment s (j, k) :: post)) :
    Between sorted (runSegment s (h, i)) mid (runSegment s (j, k)) := by
  refine ⟨⟨pre, post, hl⟩, rfl, fun c hc same => ?_⟩
  have later := timeline.later
  rw [hl, List.pairwise_append] at later
  obtain ⟨first, later⟩ := List.pairwise_cons.1 later.2.1
  obtain ⟨_, _, cross⟩ := List.pairwise_append.1 later
  have place : c ∈ sorted := by
    rw [hl]
    simp [hc]
  obtain ⟨v, p, q, _, run, rfl⟩ := (timeline.mem c).1 place
  have hv : v = s := same
  subst v
  have before : i < p := frame_lt.1 (first (runSegment s (p, q)) (by simp [hc]) rfl)
  have after : q < j := frame_lt.1 (cross _ hc (runSegment s (j, k)) List.mem_cons_self rfl)
  have hpq := run.1.1
  have loud := run.1.2.1 p le_rfl hpq
  rw [pause.gap.2.2.2.2 p (by omega) (by omega)] at loud
  cases loud

/-- Of equal starts the rank puts the run before the pause first and the one after it last. -/
def pauseRank (s h : ℕ) (seg : FinalSeg) : ℕ :=
  if seg.speaker = s then (if seg.start = h * modelFrameDuration then 0 else 2) else 1

theorem exists_unclear (unclear : ¬ClearPauses active numSpeakers gridFrames) :
    ∃ sorted, Sorts active numSpeakers gridFrames sorted ∧ ¬ShortAdjacent sorted := by
  rw [ClearPauses] at unclear
  push Not at unclear
  obtain ⟨s, h, i, j, hs, pause, u, t, e, hu, hus, other, low, high⟩ := unclear
  obtain ⟨k, next⟩ := pause.after
  obtain ⟨sorted, sorts, ranked⟩ := exists_sortResult_ranked FinalSeg.start (pauseRank s h)
    startsBefore (collectSegments active numSpeakers gridFrames) (fun a _ b _ => rfl)
  have timeline := timeline_of_sorts sorts
  have rankFirst : pauseRank s h (runSegment s (h, i)) = 0 := by simp [pauseRank, runSegment]
  have rankOther : pauseRank s h (runSegment u (t, e)) = 1 := by
    simp [pauseRank, runSegment, hus]
  have apart : h < j := by
    have := pause.run.1
    have := pause.gap.2.1
    omega
  have rankNext : pauseRank s h (runSegment s (j, k)) = 2 := by
    have ne : (runSegment s (j, k)).start ≠ h * modelFrameDuration :=
      ne_of_gt (frame_lt.2 apart)
    rw [pauseRank, if_neg ne]
    exact if_pos rfl
  obtain ⟨pre, mid, post, hl, inside⟩ := exists_between
    (fun seg => toLex (FinalSeg.start seg, pauseRank s h seg)) ranked
    ((timeline.mem _).2 ⟨s, h, i, hs, pause.before, rfl⟩)
    ((timeline.mem _).2 ⟨s, j, k, hs, next, rfl⟩)
    ((timeline.mem _).2 ⟨u, t, e, hu, other, rfl⟩)
    (by
      rw [Prod.Lex.toLex_lt_toLex, rankFirst, rankOther]
      rcases Nat.lt_or_eq_of_le low with lt | rfl
      · exact Or.inl (frame_lt.2 lt)
      · exact Or.inr ⟨rfl, Nat.zero_lt_one⟩)
    (by
      rw [Prod.Lex.toLex_lt_toLex, rankNext, rankOther]
      rcases Nat.lt_or_eq_of_le high with lt | rfl
      · exact Or.inl (frame_lt.2 lt)
      · exact Or.inr ⟨rfl, Nat.lt_succ_self 1⟩)
  refine ⟨sorted, sorts, fun adjacent => ?_⟩
  have short : (runSegment s (j, k)).start - (runSegment s (h, i)).stop < 1 / 10 := by
    change (j : ℚ) * modelFrameDuration - i * modelFrameDuration < 1 / 10
    rw [← sub_mul]
    exact pause.short
  rw [adjacent _ mid _ (timeline.between_pause pause hl) short] at inside
  simp at inside

/-- For each order of equal starts, and over all of them. -/
theorem merged_separated_iff (active : ℕ → ℕ → Bool) (numSpeakers gridFrames : ℕ) :
    (∀ sorted, Sorts active numSpeakers gridFrames sorted →
      (Separated (mergePass sorted) ↔ ShortAdjacent sorted)) ∧
    ((∀ sorted, Sorts active numSpeakers gridFrames sorted → Separated (mergePass sorted)) ↔
      ClearPauses active numSpeakers gridFrames) := by
  refine ⟨fun sorted sorts => (timeline_of_sorts sorts).separated_iff, ?_, ?_⟩
  · intro separated
    by_contra unclear
    obtain ⟨sorted, sorts, open_pause⟩ := exists_unclear unclear
    exact open_pause ((timeline_of_sorts sorts).separated_iff.1 (separated sorted sorts))
  · intro clear sorted sorts
    have timeline := timeline_of_sorts sorts
    exact timeline.separated_iff.2 (timeline.clear_adjacent clear)

def interruptedGrid : ℕ → ℕ → Bool := fun s t => if s = 0 then t ≠ 1 else t = 1

def interruptedSorted : List FinalSeg :=
  [runSegment 0 (0, 1), runSegment 1 (1, 2), runSegment 0 (2, 3)]

theorem interrupted_sorts : Sorts interruptedGrid 2 3 interruptedSorted := by
  have collected : collectSegments interruptedGrid 2 3 =
      [runSegment 0 (0, 1), runSegment 0 (2, 3), runSegment 1 (1, 2)] := by
    have firstRuns : runs (interruptedGrid 0) 3 = [(0, 1), (2, 3)] := by decide
    have secondRuns : runs (interruptedGrid 1) 3 = [(1, 2)] := by decide
    rw [collectSegments_eq, show List.range 2 = [0, 1] from rfl, List.flatMap_cons,
      List.flatMap_singleton, firstRuns, secondRuns]
    rfl
  intro _
  rw [collected]
  refine ⟨List.Perm.cons _ (List.Perm.swap _ _ _), ?_⟩
  have order : ∀ {s u : ℕ} {p q : ℕ × ℕ}, p.1 ≤ q.1 →
      startsBefore (runSegment u q) (runSegment s p) = false := by
    intro s u p q hpq
    apply decide_eq_false
    rw [not_lt]
    exact frame_le.2 hpq
  rw [interruptedSorted, SortContract.Sorted, List.pairwise_cons, List.pairwise_pair]
  refine ⟨fun b hb => ?_, order (by decide)⟩
  rcases List.mem_pair.1 hb with rfl | rfl
  · exact order (by decide)
  · exact order (by decide)

/-- The pause of one frame stays open behind the other speaker's segment. -/
theorem merged_interrupted :
    Sorts interruptedGrid 2 3 interruptedSorted ∧ ¬Separated (mergePass interruptedSorted) := by
  refine ⟨interrupted_sorts, fun separated => ?_⟩
  have kept : mergePass interruptedSorted = interruptedSorted := rfl
  rw [kept] at separated
  have wide := separated (runSegment 0 (0, 1)) [runSegment 1 (1, 2)] (runSegment 0 (2, 3))
    ⟨⟨[], [], rfl⟩, rfl, fun c hc => by
      rw [List.mem_singleton.1 hc]
      exact Nat.one_ne_zero⟩
  revert wide
  norm_num [runSegment, modelFrameDuration]

end PyannoteCpp.TimelineSegments

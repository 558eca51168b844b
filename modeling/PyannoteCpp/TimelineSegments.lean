import PyannoteCpp.ActiveRuns
import PyannoteCpp.NeighbourMerge
import PyannoteCpp.SortContract
import PyannoteCpp.TimelineAccumulation

set_option autoImplicit false

/-!
# Segments of the activity grid, sorted and merged

Every speaker's runs become segments, the segments of all speakers are sorted
by their start, and one pass merges a segment into the last merged one when that
belongs to the same speaker and ends less than 0.1 s before. Equal starts may be
sorted either way.
-/
namespace PyannoteCpp.TimelineSegments
open ActiveRuns NeighbourMerge SortContract TimelineAccumulation

structure FinalSeg where
  start : ℚ
  stop : ℚ
  speaker : ℕ
  deriving DecidableEq, Inhabited

variable (active : ℕ → ℕ → Bool) (numSpeakers gridFrames : ℕ)

def finalSegments (s : ℕ) : List (ℚ × ℚ) :=
  (scan ((List.range gridFrames).map (fun t : ℕ => (t * modelFrameDuration, active s t)))).finish
    (gridFrames * modelFrameDuration)

def collectSegments : List FinalSeg :=
  (List.range numSpeakers).flatMap fun s =>
    ((finalSegments active gridFrames s).filter (fun seg => 0 < seg.2 - seg.1)).map
      (fun seg => ⟨seg.1, seg.2, s⟩)

def startsBefore (a b : FinalSeg) : Bool := a.start < b.start

def Sorts (sorted : List FinalSeg) : Prop :=
  SortResult startsBefore (collectSegments active numSpeakers gridFrames) sorted

def mergeable (last curr : FinalSeg) : Bool :=
  last.speaker = curr.speaker ∧ curr.start - last.stop < 1 / 10

def extend (last curr : FinalSeg) : FinalSeg := { last with stop := max last.stop curr.stop }

def mergePass : List FinalSeg → List FinalSeg := merge mergeable extend

def runSegment (s : ℕ) (p : ℕ × ℕ) : FinalSeg :=
  ⟨p.1 * modelFrameDuration, p.2 * modelFrameDuration, s⟩

theorem frame_lt {i j : ℕ} : (i : ℚ) * modelFrameDuration < j * modelFrameDuration ↔ i < j := by
  rw [mul_lt_mul_iff_left₀ (by norm_num [modelFrameDuration]), Nat.cast_lt]

theorem frame_le {i j : ℕ} : (i : ℚ) * modelFrameDuration ≤ j * modelFrameDuration ↔ i ≤ j := by
  rw [mul_le_mul_iff_left₀ (by norm_num [modelFrameDuration]), Nat.cast_le]

theorem finalSegments_eq (s : ℕ) : finalSegments active gridFrames s =
    (runs (active s) gridFrames).map
      (Prod.map (fun t : ℕ => t * modelFrameDuration) (fun t : ℕ => t * modelFrameDuration)) := by
  have timed : (List.range gridFrames).map (fun t : ℕ => (t * modelFrameDuration, active s t)) =
      (frames (active s) gridFrames).map (Prod.map (fun t : ℕ => t * modelFrameDuration) id) := by
    rw [frames, List.map_map]
    rfl
  rw [finalSegments, timed, scan_map, runs]
  exact Scan.map_finish (fun t : ℕ => t * modelFrameDuration) _ gridFrames

theorem collectSegments_eq : collectSegments active numSpeakers gridFrames =
    (List.range numSpeakers).flatMap (fun s => (runs (active s) gridFrames).map (runSegment s)) := by
  rw [collectSegments]
  refine List.flatMap_congr fun s _ => ?_
  rw [finalSegments_eq, List.filter_eq_self.2, List.map_map]
  · rfl
  · intro p hp
    obtain ⟨q, hq, rfl⟩ := List.mem_map.1 hp
    have run := (mem_runs.1 hq).1.1
    simpa [frame_lt] using run

theorem mem_collectSegments {seg : FinalSeg} :
    seg ∈ collectSegments active numSpeakers gridFrames ↔
      ∃ s i j, s < numSpeakers ∧ MaximalRun (active s) gridFrames i j ∧
        seg = runSegment s (i, j) := by
  rw [collectSegments_eq, List.mem_flatMap]
  constructor
  · rintro ⟨s, hs, hseg⟩
    obtain ⟨p, hp, rfl⟩ := List.mem_map.1 hseg
    exact ⟨s, p.1, p.2, List.mem_range.1 hs, mem_runs.1 hp, rfl⟩
  · rintro ⟨s, i, j, hs, hrun, rfl⟩
    exact ⟨s, List.mem_range.2 hs, List.mem_map.2 ⟨(i, j), mem_runs.2 hrun, rfl⟩⟩

def Apart (a b : FinalSeg) : Prop :=
  a.speaker = b.speaker → a.stop < b.start ∨ b.stop < a.start

theorem collectSegments_apart : (collectSegments active numSpeakers gridFrames).Pairwise Apart := by
  rw [collectSegments_eq, List.pairwise_flatMap]
  constructor
  · intro s _
    rw [List.pairwise_map]
    refine (runs_apart (active s) gridFrames).imp ?_
    intro p q hpq _
    exact Or.inl (frame_lt.2 hpq)
  · refine List.nodup_range.imp ?_
    intro s u hsu x hx y hy same
    obtain ⟨p, _, rfl⟩ := List.mem_map.1 hx
    obtain ⟨q, _, rfl⟩ := List.mem_map.1 hy
    exact absurd same hsu

/-- What the sort leaves, whatever it does with equal starts. -/
structure Timeline (sorted : List FinalSeg) : Prop where
  mem : ∀ seg, seg ∈ sorted ↔ ∃ s i j, s < numSpeakers ∧
    MaximalRun (active s) gridFrames i j ∧ seg = runSegment s (i, j)
  rising : sorted.Pairwise (fun a b => a.start ≤ b.start)
  later : sorted.Pairwise (fun a b => a.speaker = b.speaker → a.stop < b.start)

variable {active numSpeakers gridFrames} {sorted : List FinalSeg}

theorem Timeline.lt (h : Timeline active numSpeakers gridFrames sorted) {seg : FinalSeg}
    (hs : seg ∈ sorted) : seg.start < seg.stop := by
  obtain ⟨s, i, j, _, run, rfl⟩ := (h.mem seg).1 hs
  exact frame_lt.2 run.1.1

theorem timeline_of_sorts (h : Sorts active numSpeakers gridFrames sorted) :
    Timeline active numSpeakers gridFrames sorted := by
  obtain ⟨perm, rising⟩ := SortResult.key_le FinalSeg.start (fun a _ b _ => rfl) h
  have mem : ∀ seg, seg ∈ sorted ↔ ∃ s i j, s < numSpeakers ∧
      MaximalRun (active s) gridFrames i j ∧ seg = runSegment s (i, j) := fun seg => by
    rw [perm.mem_iff, mem_collectSegments]
  have apart : sorted.Pairwise Apart := by
    refine (perm.pairwise_iff ?_).2 (collectSegments_apart active numSpeakers gridFrames)
    intro a b hab same
    exact (hab same.symm).symm
  refine ⟨mem, rising, (rising.and apart).imp_of_mem ?_⟩
  intro a b _ hb hab same
  rcases hab.2 same with before | after
  · exact before
  · obtain ⟨s, i, j, _, run, rfl⟩ := (mem b).1 hb
    have long : (runSegment s (i, j)).start < (runSegment s (i, j)).stop := frame_lt.2 run.1.1
    have := hab.1
    linarith

def groups (sorted : List FinalSeg) : List (List FinalSeg) := sorted.splitBy mergeable

theorem mergeable_iff {a b : FinalSeg} : mergeable a b = true ↔
    a.speaker = b.speaker ∧ b.start - a.stop < 1 / 10 := decide_eq_true_iff

def visible (seg : FinalSeg) : ℕ × ℚ := (seg.speaker, seg.stop)

theorem mergeable_visible (a b c : FinalSeg) (h : visible a = visible b) :
    mergeable a c = mergeable b c := by
  obtain ⟨hs, ht⟩ := Prod.ext_iff.1 h
  change a.speaker = b.speaker at hs
  change a.stop = b.stop at ht
  rw [mergeable, mergeable, hs, ht]

theorem Timeline.tracks (h : Timeline active numSpeakers gridFrames sorted) :
    sorted.Pairwise (Tracks mergeable extend visible) := by
  refine h.later.imp_of_mem ?_
  intro a b _ hb hab c hc hr
  obtain ⟨hs, ht⟩ := Prod.ext_iff.1 hc
  change c.speaker = a.speaker at hs
  change c.stop = a.stop at ht
  have same := (mergeable_iff.1 hr).1
  have longer : c.stop ≤ b.stop := by
    have := hab same
    have := h.lt hb
    linarith
  exact Prod.ext (hs.trans same) (max_eq_right longer)

theorem Timeline.mergePass_eq (h : Timeline active numSpeakers gridFrames sorted) :
    mergePass sorted = (groups sorted).map (hull extend) :=
  merge_eq mergeable_visible h.tracks.isChain

theorem groups_pairwise {R : FinalSeg → FinalSeg → Prop} (h : sorted.Pairwise R) :
    (∀ g ∈ groups sorted, g.Pairwise R) ∧
      (groups sorted).Pairwise (fun g k => ∀ a ∈ g, ∀ b ∈ k, R a b) := by
  rw [← List.pairwise_flatten, groups, List.flatten_splitBy]
  exact h

theorem mem_group {g : List FinalSeg} (hg : g ∈ groups sorted) {a : FinalSeg} (ha : a ∈ g) :
    a ∈ sorted := by
  rw [← List.flatten_splitBy mergeable sorted]
  exact List.mem_flatten.2 ⟨g, hg, ha⟩

theorem hull_speaker_start (a : FinalSeg) (l : List FinalSeg) :
    (hull extend (a :: l)).speaker = a.speaker ∧ (hull extend (a :: l)).start = a.start := by
  rw [hull]
  induction l using List.reverseRecOn with
  | nil => exact ⟨rfl, rfl⟩
  | append_singleton l b ih =>
    rw [List.foldl_append]
    exact ih

theorem chain_speaker {g : List FinalSeg} (hc : g.IsChain (fun a b => mergeable a b = true)) :
    g.Pairwise (fun a b => a.speaker = b.speaker) := by
  apply List.isChain_iff_pairwise.1
  exact hc.imp (fun a b h => (mergeable_iff.1 h).1)

theorem Timeline.hull_group (h : Timeline active numSpeakers gridFrames sorted)
    {g : List FinalSeg} (hg : g ∈ groups sorted) :
    ∃ hne : g ≠ [], (∀ a ∈ g, a.speaker = (hull extend g).speaker) ∧
      (hull extend g).start = (g.head hne).start ∧ (hull extend g).stop = (g.getLast hne).stop := by
  have hne : g ≠ [] := List.ne_nil_of_mem_splitBy hg
  have chain := List.isChain_of_mem_splitBy hg
  have stop := congrArg Prod.snd
    (tail_hull hne chain ((groups_pairwise h.tracks).1 g hg).isChain)
  refine ⟨hne, ?_, ?_, stop⟩
  · cases g with
    | nil => exact absurd rfl hne
    | cons a l =>
      intro b hb
      rw [(hull_speaker_start a l).1]
      rcases List.mem_cons.1 hb with rfl | hb
      · rfl
      · exact ((List.pairwise_cons.1 (chain_speaker chain)).1 b hb).symm
  · cases g with
    | nil => exact absurd rfl hne
    | cons a l => exact (hull_speaker_start a l).2

end PyannoteCpp.TimelineSegments

import PyannoteCpp.StreamingCoverage

set_option autoImplicit false

/-!
# When every reported segment lies inside the recording

The tracker keeps one run extraction per speaker. Its frames come from windows
that reach past the end of the recording, while a speaker still active after the
loop is closed at that end.
-/
namespace PyannoteCpp.StreamingLoop
open ActiveRuns RoundHalfAway

def Tracker.view (s : ℕ) (tracker : Tracker) : Scan ℚ :=
  ⟨tracker.active s, (tracker.printed.filter (fun seg => seg.speaker = s)).map
    (fun seg => (seg.start, seg.stop))⟩

theorem Tracker.view_speakerStep_self (time : ℚ) (row : ℕ → Bool) (tracker : Tracker) (s : ℕ) :
    (tracker.speakerStep time row s).view s = (tracker.view s).step time (row s) := by
  cases ha : tracker.active s with
  | none => cases hr : row s <;> simp [speakerStep, Scan.step, view, ha, hr]
  | some start => cases hr : row s <;> simp [speakerStep, Scan.step, view, ha, hr]

theorem Tracker.view_speakerStep_ne (time : ℚ) (row : ℕ → Bool) (tracker : Tracker) {s u : ℕ}
    (h : u ≠ s) : (tracker.speakerStep time row u).view s = tracker.view s := by
  cases ha : tracker.active u with
  | none => cases hr : row u <;> simp [speakerStep, view, ha, hr, Function.update_of_ne h.symm]
  | some start =>
    cases hr : row u <;> simp [speakerStep, view, ha, hr, Function.update_of_ne h.symm, h]

theorem Tracker.view_speakers {l : List ℕ} (hl : l.Nodup) (time : ℚ) (row : ℕ → Bool)
    (tracker : Tracker) (s : ℕ) :
    (l.foldl (Tracker.speakerStep time row) tracker).view s =
      if s ∈ l then (tracker.view s).step time (row s) else tracker.view s := by
  induction l generalizing tracker with
  | nil => rfl
  | cons u l ih =>
    obtain ⟨hu, hl⟩ := List.nodup_cons.1 hl
    rw [List.foldl_cons, ih hl]
    by_cases h : u = s
    · subst u
      rw [if_neg hu, if_pos List.mem_cons_self, view_speakerStep_self]
    · rw [view_speakerStep_ne time row tracker h]
      simp [Ne.symm h]

theorem Tracker.view_frames {maxSpeakers s : ℕ} (hs : s < maxSpeakers)
    (frames : List (ℚ × (ℕ → Bool))) (tracker : Tracker) :
    (frames.foldl (Tracker.frameStep maxSpeakers) tracker).view s =
      (frames.map (fun f => (f.1, f.2 s))).foldl (fun s f => s.step f.1 f.2) (tracker.view s) := by
  induction frames generalizing tracker with
  | nil => rfl
  | cons frame frames ih =>
    rw [List.foldl_cons, ih, frameStep, view_speakers List.nodup_range,
      if_pos (List.mem_range.2 hs)]
    rfl

theorem Tracker.printed_speakerStep {time : ℚ} {row : ℕ → Bool} {tracker : Tracker} {s limit : ℕ}
    (hs : s < limit) (h : ∀ seg ∈ tracker.printed, seg.speaker < limit) :
    ∀ seg ∈ (tracker.speakerStep time row s).printed, seg.speaker < limit := by
  intro seg hseg
  rw [speakerStep] at hseg
  cases ha : tracker.active s with
  | none => cases hr : row s <;> exact h seg (by simpa [ha, hr] using hseg)
  | some start =>
    cases hr : row s with
    | true => exact h seg (by simpa [ha, hr] using hseg)
    | false =>
      have hmem : seg ∈ tracker.printed ∨ seg = ⟨start, time, s⟩ := by
        simpa [ha, hr] using hseg
      rcases hmem with old | rfl
      · exact h seg old
      · exact hs

theorem Tracker.printed_frameStep {maxSpeakers : ℕ} {tracker : Tracker}
    (frame : ℚ × (ℕ → Bool)) (h : ∀ seg ∈ tracker.printed, seg.speaker < maxSpeakers) :
    ∀ seg ∈ (tracker.frameStep maxSpeakers frame).printed, seg.speaker < maxSpeakers := by
  have bounded : ∀ s ∈ List.range maxSpeakers, s < maxSpeakers := fun s hs => List.mem_range.1 hs
  rw [frameStep]
  generalize List.range maxSpeakers = l at bounded
  induction l generalizing tracker with
  | nil => exact h
  | cons s l ih =>
    exact ih (printed_speakerStep (bounded s List.mem_cons_self) h)
      (fun u hu => bounded u (List.mem_cons_of_mem s hu))

namespace Program

variable {S : Type*} [Field S] [LinearOrder S] {p : Program S} {n s : ℕ}

theorem printed_speaker (n : ℕ) :
    ∀ seg ∈ (p.stateAt n).tracker.printed, seg.speaker < p.maxSpeakers := by
  induction n with
  | zero => simp [stateAt, init]
  | succ n ih =>
    rw [tracker_stateAt]
    generalize (if p.running (p.stateAt n) then p.focusFrames (p.stateAt n) else []) = frames
    generalize (p.stateAt n).tracker = tracker at ih
    induction frames generalizing tracker with
    | nil => exact ih
    | cons frame frames tail => exact tail _ (Tracker.printed_frameStep frame ih)

theorem view_stateAt (hs : s < p.maxSpeakers) (n : ℕ) :
    (p.stateAt n).tracker.view s = scan ((p.fed n).map (fun f => (f.1, f.2 s))) := by
  induction n with
  | zero => rfl
  | succ n ih =>
    rw [fed, List.range_succ, List.flatMap_append, List.flatMap_singleton, List.map_append, scan,
      List.foldl_append]
    change _ = List.foldl _ (scan ((p.fed n).map _)) _
    rw [← ih, tracker_stateAt, Tracker.view_frames hs]

omit [Field S] [LinearOrder S] in
theorem mem_closed {st : LoopState S} {seg : Segment} :
    (seg.start, seg.stop) ∈ (st.tracker.view seg.speaker).closed ↔ seg ∈ st.tracker.printed := by
  rw [Tracker.view, List.mem_map]
  constructor
  · rintro ⟨⟨start, stop, speaker⟩, hother, same⟩
    obtain ⟨hmem, hspeaker⟩ := List.mem_filter.1 hother
    obtain ⟨hstart, hstop⟩ := Prod.ext_iff.1 same
    change start = seg.start at hstart
    change stop = seg.stop at hstop
    have hspeaker : speaker = seg.speaker := of_decide_eq_true hspeaker
    rw [hstart, hstop, hspeaker] at hmem
    exact hmem
  · intro hmem
    exact ⟨seg, List.mem_filter.2 ⟨hmem, decide_eq_true rfl⟩, rfl⟩

theorem mem_flush {st : LoopState S} {seg : Segment} :
    seg ∈ p.flush st ↔ seg.speaker < p.maxSpeakers ∧
      st.tracker.active seg.speaker = some seg.start ∧ seg.stop = p.endTime := by
  rw [flush, List.mem_filterMap]
  constructor
  · rintro ⟨s, hs, hseg⟩
    obtain ⟨start, active, rfl⟩ := Option.map_eq_some_iff.1 hseg
    exact ⟨List.mem_range.1 hs, active, rfl⟩
  · rintro ⟨hs, active, stop⟩
    refine ⟨seg.speaker, List.mem_range.2 hs, Option.map_eq_some_iff.2 ⟨seg.start, active, ?_⟩⟩
    rw [← stop]

theorem mem_output {st : LoopState S} (bounded : ∀ seg ∈ st.tracker.printed,
    seg.speaker < p.maxSpeakers) {seg : Segment} : seg ∈ p.output st ↔
      seg.speaker < p.maxSpeakers ∧
        (seg.start, seg.stop) ∈ (st.tracker.view seg.speaker).finish p.endTime := by
  rw [output, List.mem_append, mem_flush]
  have opened : (st.tracker.view seg.speaker).opened = st.tracker.active seg.speaker := rfl
  cases ha : st.tracker.active seg.speaker with
  | none =>
    rw [Scan.finish, opened, ha]
    dsimp only
    rw [mem_closed]
    constructor
    · rintro (hmem | ⟨_, absent, _⟩)
      · exact ⟨bounded seg hmem, hmem⟩
      · cases absent
    · exact fun h => Or.inl h.2
  | some start =>
    rw [Scan.finish, opened, ha]
    dsimp only
    rw [List.mem_append, List.mem_singleton, mem_closed, Prod.mk.injEq, Option.some.injEq]
    constructor
    · rintro (hmem | ⟨hs, start_eq, stop_eq⟩)
      · exact ⟨bounded seg hmem, Or.inl hmem⟩
      · exact ⟨hs, Or.inr ⟨start_eq.symm, stop_eq⟩⟩
    · rintro ⟨hs, hmem | ⟨start_eq, stop_eq⟩⟩
      · exact Or.inl hmem
      · exact Or.inr ⟨hs, start_eq.symm, stop_eq⟩

end Program

def convOutputSize (ins : ℤ) (ks : ℕ) (s p d : ℤ) : ℤ := (ins + 2 * p - d * (ks - 1) - 1) / s + 1

def poolOutputSize (ins : ℤ) : ℤ := (ins - 3) / 3 + 1

def segmentationFrames (kernels : ℕ → ℕ) (numSamples : ℤ) : ℤ :=
  poolOutputSize (convOutputSize (poolOutputSize (convOutputSize (poolOutputSize
    (convOutputSize numSamples (kernels 0) 10 0 1)) (kernels 1) 1 0 1)) (kernels 2) 1 0 1)

theorem segmentationFrames_le (kernels : ℕ → ℕ) (numSamples : ℤ) :
    270 * segmentationFrames kernels numSamples ≤ numSamples + 130 := by
  unfold segmentationFrames convOutputSize poolOutputSize
  omega

namespace Program

variable {S : Type*} [Field S] [LinearOrder S] {p : Program S} {n : ℕ}

def Segmented (p : Program S) : Prop :=
  ∃ kernels, (p.numFrames : ℤ) = segmentationFrames kernels (roundAway (p.duration * p.sampleRate))

/-- A frame is longer than a sample, so rounding the step to samples keeps the order of frames. -/
theorem Tiled.drift (h : p.Tiled) (segmented : p.Segmented) :
    p.step < p.hop + p.segResolution / 2 := by
  obtain ⟨kernels, frames⟩ := segmented
  have rate : (0 : ℚ) < p.sampleRate := by exact_mod_cast h.sampleRate_pos
  have count : (0 : ℚ) < p.numFrames := by exact_mod_cast h.numFrames_pos
  have sparse : (p.numFrames : ℚ) < p.duration * p.sampleRate := by
    have bound := segmentationFrames_le kernels (roundAway (p.duration * p.sampleRate))
    have near := roundAway_le (p.duration * p.sampleRate)
    have one := h.numFrames_pos
    rw [← frames] at bound
    have wide : (p.numFrames : ℤ) + 1 ≤ roundAway (p.duration * p.sampleRate) := by omega
    have cast : (p.numFrames : ℚ) + 1 ≤ roundAway (p.duration * p.sampleRate) := by
      exact_mod_cast wide
    linarith
  have sample : 1 / (p.sampleRate : ℚ) < p.segResolution := by
    rw [Setup.segResolution, div_lt_div_iff₀ rate count]
    linarith
  have rounded : p.step - 1 / 2 / p.sampleRate ≤ p.hop := by
    have near := le_roundAway (p.step * p.sampleRate)
    rw [hop, Setup.stepSamples, le_div_iff₀ rate, sub_mul, div_mul_cancel₀ _ rate.ne']
    exact near
  have half : 1 / 2 / (p.sampleRate : ℚ) = 1 / p.sampleRate / 2 := by ring
  linarith

/-- A chunk of 0.1 s, of which the recording fills the first 0.01 s, active in
    all three frames. -/
noncomputable def shortProgram : Program ℝ where
  sampleRate := 16000
  samples := 160
  duration := 1 / 10
  step := 1 / 10
  latencyOption := -1
  numFrames := 3
  maxSpeakers := 20
  weights := hamming
  tauActive := 0.6
  globalSeg _ _ _ := 1

theorem short_tiled : shortProgram.Tiled := by
  apply tiled_of_default <;> norm_num [shortProgram]

theorem short_segmented : shortProgram.Segmented := by
  refine ⟨fun i => if i = 0 then 251 else 5, ?_⟩
  have samples : shortProgram.duration * shortProgram.sampleRate = ((1600 : ℤ) : ℚ) := by
    norm_num [shortProgram]
  rw [samples, roundAway_intCast]
  rfl

end Program

end PyannoteCpp.StreamingLoop

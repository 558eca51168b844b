import PyannoteCpp.StreamingLoop

set_option autoImplicit false

/-!
# The focus windows tile the recording

With the latency between one step and the chunk duration the focus window of a
chunk begins where the one before ended, its frames stay inside it, and the
chunk itself has a frame for each of them.
-/
namespace PyannoteCpp.StreamingLoop.Program
open ActiveRuns RoundHalfAway

variable {S : Type*} [Field S] [LinearOrder S] {p : Program S} {n k t : ℕ}

/-- The regime in which windows lie side by side. -/
structure Tiled (p : Program S) : Prop where
  sampleRate_pos : 0 < p.sampleRate
  numFrames_pos : 0 < p.numFrames
  step_pos : 0 < p.step
  step_le : p.step ≤ p.latency
  latency_le : p.latency ≤ p.duration

theorem tiled_of_default (sampleRate_pos : 0 < p.sampleRate) (numFrames_pos : 0 < p.numFrames)
    (step_pos : 0 < p.step) (default : p.latencyOption < 0) (step_le : p.step ≤ p.duration) :
    p.Tiled := by
  have latency : p.latency = p.step := if_pos default
  exact ⟨sampleRate_pos, numFrames_pos, step_pos, latency.ge, latency.le.trans step_le⟩

theorem Tiled.duration_pos (h : p.Tiled) : 0 < p.duration :=
  lt_of_lt_of_le h.step_pos (h.step_le.trans h.latency_le)

theorem Tiled.resolution_pos (h : p.Tiled) : 0 < p.segResolution :=
  div_pos h.duration_pos (by exact_mod_cast h.numFrames_pos)

theorem Tiled.stepSamples_nonneg (h : p.Tiled) : 0 ≤ p.stepSamples :=
  roundAway_nonneg_of (mul_nonneg h.step_pos.le (Nat.cast_nonneg _))

theorem Tiled.hop_nonneg (h : p.Tiled) : 0 ≤ p.hop :=
  div_nonneg (by exact_mod_cast h.stepSamples_nonneg) (Nat.cast_nonneg _)

theorem Tiled.window_pos (h : p.Tiled) (ran : p.Ran n) :
    p.focusStart (p.stateAt n) < p.focusEnd (p.stateAt n) := by
  have hstep := h.step_pos
  rw [focusEnd_stateAt h.stepSamples_nonneg ran]
  cases n with
  | zero =>
    have := h.latency_le
    rw [focusStart_zero, Nat.cast_zero, zero_mul]
    linarith
  | succ n =>
    rw [focusStart_succ h.stepSamples_nonneg ran]
    linarith

theorem Tiled.frames_fit (h : p.Tiled) (st : LoopState S) (ht : (t : ℤ) < p.targetFrames st) :
    ((t : ℚ) + 1 / 2) * p.segResolution ≤ p.focusEnd st - p.focusStart st := by
  have hres := h.resolution_pos
  have count := roundAway_le ((p.focusEnd st - p.focusStart st) / p.segResolution)
  have last : ((t : ℤ) : ℚ) + 1 ≤ p.targetFrames st := by exact_mod_cast ht
  rw [Int.cast_natCast, targetFrames] at last
  rw [← le_div_iff₀ hres]
  linarith

theorem Tiled.frame_bounds (h : p.Tiled) {f : ℚ × (ℕ → Bool)}
    (hf : f ∈ p.focusFrames (p.stateAt n)) :
    p.focusStart (p.stateAt n) + p.segResolution / 2 ≤ f.1 ∧ f.1 ≤ p.focusEnd (p.stateAt n) := by
  obtain ⟨t, ht, rfl⟩ := List.mem_map.1 hf
  have hres := h.resolution_pos
  have inside : (t : ℤ) < p.targetFrames (p.stateAt n) := by
    have := List.mem_range.1 ht
    omega
  have fit := h.frames_fit (p.stateAt n) inside
  have low : 0 ≤ (t : ℚ) * p.segResolution := mul_nonneg (Nat.cast_nonneg _) hres.le
  change _ ≤ p.frameTime (p.stateAt n) t ∧ p.frameTime (p.stateAt n) t ≤ _
  rw [frameTime]
  constructor <;> linarith

theorem Tiled.fed_increasing (h : p.Tiled) (drift : p.step < p.hop + p.segResolution / 2) (n : ℕ) :
    (p.fed n).Pairwise (fun f g => f.1 < g.1) := by
  have hres := h.resolution_pos
  rw [fed, List.pairwise_flatMap]
  constructor
  · intro k _
    split_ifs
    · rw [focusFrames, List.pairwise_map]
      refine List.pairwise_lt_range.imp ?_
      intro t u htu
      have wider : (t : ℚ) < u := by exact_mod_cast htu
      have scaled := mul_lt_mul_of_pos_right wider hres
      change p.frameTime _ t < p.frameTime _ u
      rw [frameTime, frameTime]
      linarith
    · exact List.Pairwise.nil
  · refine List.pairwise_lt_range.imp ?_
    intro j k hjk f hf g hg
    split_ifs at hf with hj
    · split_ifs at hg with hk
      · have ran := ran_of_running hk
        have upper := (h.frame_bounds hf).2
        have lower := (h.frame_bounds hg).1
        obtain ⟨m, rfl⟩ : ∃ m, k = j + 1 + m := ⟨k - (j + 1), by omega⟩
        have ahead : 0 ≤ (m : ℚ) * p.hop := mul_nonneg (Nat.cast_nonneg _) h.hop_nonneg
        rw [focusEnd_stateAt h.stepSamples_nonneg (ran_of_running hj)] at upper
        rw [show j + 1 + m = j + m + 1 by omega] at ran lower
        rw [focusStart_succ h.stepSamples_nonneg ran] at lower
        push_cast at lower
        linarith
      · simp at hg
    · simp at hf

theorem Tiled.focus_inside (h : p.Tiled) (ran : p.Ran n) :
    p.chunkStartTime (p.stateAt n) ≤ p.focusStart (p.stateAt n) ∧
      p.focusEnd (p.stateAt n) ≤ p.chunkStartTime (p.stateAt n) + p.duration := by
  have := h.step_le
  have := h.latency_le
  constructor
  · cases n with
    | zero =>
      rw [focusStart_zero, chunkStartTime_stateAt h.stepSamples_nonneg ran]
      simp
    | succ n =>
      rw [focusStart_succ h.stepSamples_nonneg ran,
        chunkStartTime_stateAt h.stepSamples_nonneg ran]
      linarith
  · rw [focusEnd]
    linarith

theorem Tiled.newest_source (h : p.Tiled) (ran : p.Ran n)
    (ht : (t : ℤ) < p.targetFrames (p.stateAt n)) : ∃ src, src < p.numFrames ∧
      (p.pushed (p.stateAt n)).source (p.focusStart (p.stateAt n)) t = some src := by
  have frames : p.duration = p.numFrames * p.segResolution := by
    have ne : (p.numFrames : ℚ) ≠ 0 := by exact_mod_cast h.numFrames_pos.ne'
    rw [Setup.segResolution, mul_div_cancel₀ _ ne]
  have hres := h.resolution_pos
  have fit := h.frames_fit (p.stateAt n) ht
  have inside := h.focus_inside ran
  have room : p.focusStart (p.stateAt n) + t * p.segResolution <
      p.chunkStartTime (p.stateAt n) + p.numFrames * p.segResolution := by
    rw [← frames]
    linarith
  change ∃ src, src < (p.pushed (p.stateAt n)).numFrames ∧ _
  exact BufferSeg.exists_source hres inside.1 room

theorem exists_chunks (hs : 0 < p.stepSamples) (samples_pos : 0 < p.samples) :
    ∃ K, 0 < K ∧ p.Ran K ∧ p.running (p.stateAt K) = false ∧
      p.samples ≤ K * p.stepSamples.toNat := by
  have reached : ∃ K, p.samples ≤ K * p.stepSamples.toNat :=
    ⟨p.samples, Nat.le_mul_of_pos_right _ (by omega)⟩
  obtain ⟨K, last, least⟩ : ∃ K, p.samples ≤ K * p.stepSamples.toNat ∧
      ∀ k < K, ¬p.samples ≤ k * p.stepSamples.toNat :=
    ⟨Nat.find reached, Nat.find_spec reached, fun k hk => Nat.find_min reached hk⟩
  refine ⟨K, ?_, fun k hk => (running_iff hs).2 (not_le.1 (least k hk)), ?_, last⟩
  · apply Nat.pos_of_ne_zero
    rintro rfl
    omega
  · rw [← Bool.not_eq_true, running_iff hs, not_lt]
    exact last

theorem endTime_le (h : p.Tiled) {K : ℕ} (last : p.samples ≤ K * p.stepSamples.toNat) :
    p.endTime ≤ K * p.hop := by
  have rate : (0 : ℚ) < p.sampleRate := by exact_mod_cast h.sampleRate_pos
  have total : (p.samples : ℚ) ≤ K * p.stepSamples := by
    rw [← stepSamples_cast h.stepSamples_nonneg]
    exact_mod_cast last
  rw [Setup.endTime, hop, ← mul_div_assoc]
  exact div_le_div_of_nonneg_right total rate.le

section Weights

variable [IsStrictOrderedRing S]

theorem addBuffer_sumW (weights : FrameWeights S) (focusStart : ℚ) (acc : Sums S)
    (buf : BufferSeg S) (t : ℕ) :
    acc.sumW t ≤ (addBuffer weights focusStart acc buf).sumW t ∧
      ((buf.source focusStart t).isSome →
        acc.sumW t < (addBuffer weights focusStart acc buf).sumW t) := by
  simp only [addBuffer]
  cases hsrc : buf.source focusStart t with
  | none => exact ⟨le_rfl, fun absent => by simp at absent⟩
  | some src =>
    have raised := weights.pos buf.numFrames src
    constructor
    · exact le_add_of_nonneg_right raised.le
    · exact fun _ => lt_add_of_pos_right _ raised

theorem sumBuffers_nonneg (weights : FrameWeights S) (buffers : List (BufferSeg S))
    (focusStart : ℚ) (t : ℕ) : 0 ≤ (sumBuffers weights buffers focusStart).sumW t := by
  induction buffers using List.reverseRecOn with
  | nil => exact le_rfl
  | append_singleton buffers buf ih =>
    rw [sumBuffers, List.foldl_append]
    exact ih.trans (addBuffer_sumW weights focusStart _ buf t).1

theorem Tiled.sumW_pos (h : p.Tiled) (ran : p.Ran n)
    (ht : (t : ℤ) < p.targetFrames (p.stateAt n)) :
    0 < (sumBuffers p.weights (p.buffered (p.stateAt n)) (p.focusStart (p.stateAt n))).sumW t := by
  obtain ⟨src, _, hsrc⟩ := h.newest_source ran ht
  rw [buffered, sumBuffers, List.foldl_append]
  refine lt_of_le_of_lt (sumBuffers_nonneg p.weights _ _ t)
    ((addBuffer_sumW p.weights _ _ (p.pushed (p.stateAt n)) t).2 ?_)
  rw [hsrc]
  rfl

/-- The focus windows of the chunks of a run lie side by side from zero to the
    end of the recording, their frames in rising order, each with a frame of the
    newest chunk. -/
theorem focus_windows_tile (p : Program S) (h : p.Tiled) (samples_pos : 0 < p.samples)
    (whole : ∃ m : ℤ, p.step * p.sampleRate = m) :
    ∃ K, 0 < K ∧ p.Ran K ∧ p.running (p.stateAt K) = false ∧
      p.focusStart (p.stateAt 0) = 0 ∧
      (∀ k, k + 1 < K → p.focusStart (p.stateAt (k + 1)) = p.focusEnd (p.stateAt k)) ∧
      (∀ k < K, p.focusStart (p.stateAt k) < p.focusEnd (p.stateAt k)) ∧
      p.endTime ≤ p.focusEnd (p.stateAt (K - 1)) ∧
      (p.fed K).Pairwise (fun f g => f.1 < g.1) ∧
      ∀ k < K, ∀ t : ℕ, (t : ℤ) < p.targetFrames (p.stateAt k) →
        (∃ src, src < p.numFrames ∧
          (p.pushed (p.stateAt k)).source (p.focusStart (p.stateAt k)) t = some src) ∧
        0 < (sumBuffers p.weights (p.buffered (p.stateAt k))
          (p.focusStart (p.stateAt k))).sumW t := by
  obtain ⟨m, whole⟩ := whole
  have hop := hop_eq_step h.sampleRate_pos whole
  have hs := stepSamples_pos h.sampleRate_pos whole h.step_pos
  obtain ⟨K, hK, ran, stopped, last⟩ := exists_chunks hs samples_pos
  refine ⟨K, hK, ran, stopped, focusStart_zero, fun k hk => ?_,
    fun k hk => h.window_pos (ran.mono hk.le), ?_, h.fed_increasing ?_ K, fun k hk t ht =>
      ⟨h.newest_source (ran.mono hk.le) ht, h.sumW_pos (ran.mono hk.le) ht⟩⟩
  · rw [focusStart_succ hs.le (ran.mono hk.le),
      focusEnd_stateAt hs.le (ran.mono (Nat.le_of_succ_le hk.le)), hop]
    push_cast
    ring
  · have covered := endTime_le h last
    have late := h.latency_le
    rw [hop] at covered
    rw [focusEnd_stateAt hs.le (ran.mono (Nat.sub_le K 1)), hop, Nat.cast_pred hK]
    linarith
  · have := h.resolution_pos
    rw [hop]
    linarith

end Weights

/-- Three seconds at the default options, without any speech. -/
noncomputable def quietProgram : Program ℝ where
  sampleRate := 16000
  samples := 48000
  duration := 5
  step := 5 / 2
  latencyOption := -1
  numFrames := 293
  maxSpeakers := 20
  weights := hamming
  tauActive := 0.6
  globalSeg _ _ _ := 0

theorem quiet_tiled : quietProgram.Tiled := by
  apply tiled_of_default <;> norm_num [quietProgram]

theorem quiet_step : quietProgram.step * quietProgram.sampleRate = (40000 : ℤ) := by
  norm_num [quietProgram]

theorem focus_windows_tile_quiet : ∃ K, quietProgram.Ran K ∧
    quietProgram.endTime ≤ quietProgram.focusEnd (quietProgram.stateAt (K - 1)) := by
  obtain ⟨K, _, ran, _, _, _, _, reached, _⟩ := focus_windows_tile quietProgram quiet_tiled
    (by norm_num [quietProgram]) ⟨40000, quiet_step⟩
  exact ⟨K, ran, reached⟩

end PyannoteCpp.StreamingLoop.Program

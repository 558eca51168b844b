import PyannoteCpp.StreamingCoverage

set_option autoImplicit false

/-!
# What the bounded prediction buffer forgets

The buffer is the history of the pushed predictions without its oldest ones. A
prediction is popped only when its chunk ended before the focus window, so it
would not have contributed any more.
-/
namespace PyannoteCpp.StreamingLoop.Program
open RoundHalfAway

variable {S : Type*} [Field S] [LinearOrder S] {p : Program S} {k d j : ℕ}

def history (p : Program S) (n : ℕ) : List (BufferSeg S) :=
  (List.range n).map (fun j => p.pushed (p.stateAt j))

/-- Before iteration `k` the `d` oldest predictions are gone, none of them early. -/
structure Kept (p : Program S) (k d : ℕ) : Prop where
  buffer : (p.stateAt k).predBuffer = (p.history k).drop d
  dropped : d ≤ k
  late : d = 0 ∨ (d : ℤ) + p.numOverlapping ≤ k

theorem history_succ (n : ℕ) :
    p.history (n + 1) = p.history n ++ [p.pushed (p.stateAt n)] := by
  rw [history, List.range_succ, List.map_append]
  rfl

theorem length_history (n : ℕ) : (p.history n).length = n := by
  rw [history, List.length_map, List.length_range]

theorem Kept.buffered (h : p.Kept k d) : p.buffered (p.stateAt k) = (p.history (k + 1)).drop d := by
  have room : d ≤ (p.history k).length := by
    rw [length_history]
    exact h.dropped
  rw [Program.buffered, h.buffer, history_succ, List.drop_append_of_le_length room]

theorem Kept.step (h : p.Kept k d) (run : p.running (p.stateAt k) = true) :
    ∃ e, p.Kept (k + 1) e := by
  have dropped := h.dropped
  have late := h.late
  have unpopped : (p.stateAt (k + 1)).predBuffer = p.buffered (p.stateAt k) →
      ∃ e, p.Kept (k + 1) e := by
    intro kept
    refine ⟨d, ?_, by omega, by omega⟩
    rw [kept, h.buffered]
  rw [stateAt_succ run] at unpopped
  rcases (body_fields (p.stateAt k)).2.2 with kept | kept
  · exact unpopped kept
  · by_cases long : ((p.buffered (p.stateAt k)).length : ℤ) > p.numOverlapping
    · rw [popped, if_pos long] at kept
      rw [h.buffered, List.length_drop, length_history] at long
      refine ⟨d + 1, ?_, by omega, by omega⟩
      rw [stateAt_succ run, kept, h.buffered, List.tail_drop]
    · rw [popped, if_neg long] at kept
      exact unpopped kept

theorem exists_kept (ran : p.Ran k) : ∃ d, p.Kept k d := by
  induction k with
  | zero => exact ⟨0, rfl, le_rfl, Or.inl rfl⟩
  | succ k ih =>
    obtain ⟨d, h⟩ := ih (ran.mono (Nat.le_succ k))
    exact h.step (ran k (Nat.lt_succ_self k))

theorem Kept.forgotten (h : p.Kept k d) (ran : p.Ran k) (step_pos : 0 < p.step)
    (hs : 0 ≤ p.stepSamples) (hop_eq : p.hop = p.step) (hj : j < d) :
    p.duration ≤ p.focusStart (p.stateAt k) - p.chunkStartTime (p.stateAt j) := by
  have positive : d ≠ 0 := by omega
  have late : (d : ℤ) + p.numOverlapping ≤ k := h.late.resolve_left positive
  have one : (1 : ℤ) ≤ p.numOverlapping := le_max_left _ _
  have overlap : p.latency / p.step - 1 / 2 ≤ p.numOverlapping := by
    have rounded : roundAway (p.latency / p.step) ≤ p.numOverlapping := le_max_right _ _
    have near := le_roundAway (p.latency / p.step)
    have cast : ((roundAway (p.latency / p.step) : ℤ) : ℚ) ≤ p.numOverlapping := by
      exact_mod_cast rounded
    linarith
  have latency_le : p.latency ≤ (p.numOverlapping + 1 / 2) * p.step := by
    rw [← div_le_iff₀ step_pos]
    linarith
  have age : (p.numOverlapping : ℚ) + 1 ≤ k - j := by
    have older : p.numOverlapping + 1 ≤ (k : ℤ) - j := by omega
    exact_mod_cast older
  have elapsed : ((p.numOverlapping : ℚ) + 1) * p.step ≤ (k - j) * p.step :=
    mul_le_mul_of_nonneg_right age step_pos.le
  cases k with
  | zero => omega
  | succ k =>
    rw [focusStart_succ hs ran, chunkStartTime_stateAt hs (ran.mono (by omega)), hop_eq]
    linarith

theorem sumBuffers_append_left (weights : FrameWeights S) (focusStart : ℚ)
    {old rest : List (BufferSeg S)} (h : ∀ buf ∈ old, ∀ t, buf.source focusStart t = none) :
    sumBuffers weights (old ++ rest) focusStart = sumBuffers weights rest focusStart := by
  induction old with
  | nil => rfl
  | cons buf old ih =>
    have silent : addBuffer weights focusStart ⟨fun _ _ => 0, fun _ => 0⟩ buf =
        ⟨fun _ _ => 0, fun _ => 0⟩ := by
      simp only [addBuffer, h buf List.mem_cons_self]
    rw [List.cons_append, sumBuffers, List.foldl_cons, silent]
    exact ih (fun b hb => h b (List.mem_cons_of_mem buf hb))

theorem Kept.past_frames (h : p.Kept k d) (ran : p.Ran k) (duration_pos : 0 < p.duration)
    (step_pos : 0 < p.step) (hs : 0 ≤ p.stepSamples) (hop_eq : p.hop = p.step) (hj : j < d) :
    (p.numFrames : ℤ) ≤
      ⌊(p.focusStart (p.stateAt k) - p.chunkStartTime (p.stateAt j)) / p.segResolution⌋ := by
  have forgotten := h.forgotten ran step_pos hs hop_eq hj
  rw [Int.le_floor, Int.cast_natCast, Setup.segResolution]
  by_cases none : p.numFrames = 0
  · rw [none, Nat.cast_zero, div_zero, div_zero]
  · have frames : (0 : ℚ) < p.numFrames := by exact_mod_cast Nat.pos_of_ne_zero none
    rw [le_div_iff₀ (div_pos duration_pos frames), mul_div_cancel₀ _ frames.ne']
    exact forgotten

/-- At every chunk of a run the bounded buffer gives the aggregation of the full
    history: no popped prediction has a frame in the focus window. -/
theorem bounded_aggregation (p : Program S) (sampleRate_pos : 0 < p.sampleRate)
    (duration_pos : 0 < p.duration) (step_pos : 0 < p.step)
    (whole : ∃ m : ℤ, p.step * p.sampleRate = m) (k : ℕ)
    (run : p.running (p.stateAt k) = true) :
    (∃ d, p.buffered (p.stateAt k) = (p.history (k + 1)).drop d ∧
      ∀ j < d, ∀ t : ℕ, (p.numFrames : ℤ) ≤
        ⌊(p.focusStart (p.stateAt k) - (p.pushed (p.stateAt j)).start) / p.segResolution⌋ + t) ∧
    ∀ t s, aggregateBuffers p.weights (p.buffered (p.stateAt k)) (p.focusStart (p.stateAt k)) t s =
      aggregateBuffers p.weights (p.history (k + 1)) (p.focusStart (p.stateAt k)) t s := by
  obtain ⟨m, whole⟩ := whole
  have ran := ran_of_running run
  have hs := (stepSamples_pos sampleRate_pos whole step_pos).le
  have hop_eq := hop_eq_step sampleRate_pos whole
  obtain ⟨d, kept⟩ := exists_kept ran
  have past : ∀ j < d, ∀ t : ℕ, (p.numFrames : ℤ) ≤
      ⌊(p.focusStart (p.stateAt k) - (p.pushed (p.stateAt j)).start) / p.segResolution⌋ + t := by
    intro j hj t
    have base := kept.past_frames ran duration_pos step_pos hs hop_eq hj
    change (p.numFrames : ℤ) ≤
      ⌊(p.focusStart (p.stateAt k) - p.chunkStartTime (p.stateAt j)) / p.segResolution⌋ + t
    omega
  refine ⟨⟨d, kept.buffered, past⟩, fun t s => ?_⟩
  have old : ∀ buf ∈ (p.history (k + 1)).take d, ∀ t,
      buf.source (p.focusStart (p.stateAt k)) t = none := by
    intro buf hbuf t
    rw [history, ← List.map_take, List.take_range] at hbuf
    obtain ⟨j, hj, rfl⟩ := List.mem_map.1 hbuf
    apply BufferSeg.source_none
    exact past j (by have := List.mem_range.1 hj; omega) t
  have sums : sumBuffers p.weights (p.buffered (p.stateAt k)) (p.focusStart (p.stateAt k)) =
      sumBuffers p.weights (p.history (k + 1)) (p.focusStart (p.stateAt k)) := by
    rw [kept.buffered, ← sumBuffers_append_left p.weights _ old, List.take_append_drop]
  rw [aggregateBuffers, aggregateBuffers, sums]

/-- Four frames of a second each and a new chunk every second. -/
def secondsProgram : Program ℚ where
  sampleRate := 2
  samples := 20
  duration := 4
  step := 1
  latencyOption := 2
  numFrames := 4
  maxSpeakers := 2
  weights := .even
  tauActive := 3 / 5
  globalSeg k t _ := (k + t : ℚ) / 8

/-- Three of seven predictions are left, and they alone have frames in the focus window. -/
theorem bounded_aggregation_popped : (secondsProgram.buffered (secondsProgram.stateAt 6)).length = 3 ∧
    aggregateBuffers secondsProgram.weights (secondsProgram.buffered (secondsProgram.stateAt 6))
        (secondsProgram.focusStart (secondsProgram.stateAt 6)) 0 0 =
      aggregateBuffers secondsProgram.weights (secondsProgram.history 7)
        (secondsProgram.focusStart (secondsProgram.stateAt 6)) 0 0 :=
  ⟨by decide +kernel, (bounded_aggregation secondsProgram (by decide) (by decide +kernel) (by decide +kernel)
    ⟨2, by decide +kernel⟩ 6 (by decide +kernel)).2 0 0⟩

end PyannoteCpp.StreamingLoop.Program

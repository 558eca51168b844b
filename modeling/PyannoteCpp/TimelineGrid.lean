import PyannoteCpp.TimelineAccumulation

set_option autoImplicit false

/-!
# The chunks of a recording and the grid they are laid on

Chunks start every second as long as half a window of samples is left. The
grid has a frame for every 270 samples. Times are exact.
-/
namespace PyannoteCpp.TimelineGrid
open RoundHalfAway TimelineAccumulation

def sampleRate : ℕ := 16000

def windowSamples : ℕ := 10 * sampleRate

def stepSamples : ℕ := sampleRate

def totalDur (totalSamples : ℕ) : ℚ := totalSamples / sampleRate

def gridFrames (totalSamples : ℕ) : ℕ := ⌈totalDur totalSamples / modelFrameDuration⌉₊

def chunkAt (numFrames pos chunkIdx : ℕ) : ChunkWindow where
  chunkIdx := chunkIdx
  startTime := pos / sampleRate
  numFrames := numFrames
  start_nonneg := by positivity

/-- The predictions pushed by the loop over the chunks, from `pos` on. -/
def chunkLoop (numFrames totalSamples pos chunkIdx : ℕ) : List ChunkWindow :=
  if pos < totalSamples then
    if min windowSamples (totalSamples - pos) < windowSamples / 2 then []
    else chunkAt numFrames pos chunkIdx :: chunkLoop numFrames totalSamples (pos + stepSamples) (chunkIdx + 1)
  else []
  termination_by totalSamples - pos
  decreasing_by
    have hstep : stepSamples = 16000 := rfl
    omega

def predictions (numFrames totalSamples : ℕ) : List ChunkWindow := chunkLoop numFrames totalSamples 0 0

theorem chunkLoop_mem {numFrames totalSamples : ℕ} (k pos chunkIdx : ℕ)
    (h : pos + stepSamples * k + windowSamples / 2 ≤ totalSamples) :
    chunkAt numFrames (pos + stepSamples * k) (chunkIdx + k) ∈ chunkLoop numFrames totalSamples pos chunkIdx := by
  have hstep : stepSamples = 16000 := rfl
  have hwindow : windowSamples = 160000 := rfl
  induction k generalizing pos chunkIdx with
  | zero =>
    rw [chunkLoop, if_pos (by omega), if_neg (by omega)]
    exact List.mem_cons_self
  | succ k ih =>
    have hrest := ih (pos + stepSamples) (chunkIdx + 1) (by rw [hstep] at *; omega)
    rw [chunkLoop, if_pos (by rw [hstep] at *; omega), if_neg (by rw [hstep] at *; omega)]
    have hpos : pos + stepSamples + stepSamples * k = pos + stepSamples * (k + 1) := by ring
    have hidx : chunkIdx + 1 + k = chunkIdx + (k + 1) := by omega
    rw [hpos, hidx] at hrest
    exact List.mem_cons_of_mem _ hrest

theorem predictions_short (numFrames : ℕ) {totalSamples : ℕ} (h : totalSamples < windowSamples / 2) :
    predictions numFrames totalSamples = [] := by
  have hwindow : windowSamples = 160000 := rfl
  unfold predictions
  rw [chunkLoop]
  split
  · rw [if_pos (by omega)]
  · rfl

theorem lt_gridFrames {g totalSamples : ℕ} : g < gridFrames totalSamples ↔ 270 * g < totalSamples := by
  unfold gridFrames
  rw [Nat.lt_ceil, totalDur, modelFrameDuration, sampleRate, div_div_eq_mul_div]
  rw [show (totalSamples : ℚ) / (16000 : ℕ) * 16000 / 270 = totalSamples / 270 by push_cast; ring,
    lt_div_iff₀ (by norm_num)]
  constructor
  · intro h
    have hq : ((270 * g : ℕ) : ℚ) < totalSamples := by push_cast; linarith
    exact_mod_cast hq
  · intro h
    have hq : ((270 * g : ℕ) : ℚ) < totalSamples := by exact_mod_cast h
    push_cast at hq
    linarith

theorem startGridFrame_near (numFrames pos chunkIdx : ℕ) :
    2 * pos ≤ 540 * (chunkAt numFrames pos chunkIdx).startGridFrame + 270 ∧
      540 * (chunkAt numFrames pos chunkIdx).startGridFrame ≤ 2 * pos + 270 := by
  set x : ℚ := (chunkAt numFrames pos chunkIdx).startTime / modelFrameDuration with hx
  have hvalue : x = pos / 270 := by
    rw [hx, modelFrameDuration]
    change (pos : ℚ) / (16000 : ℕ) / (270 / 16000) = _
    push_cast
    ring
  have hnonneg : 0 ≤ x := by rw [hvalue]; positivity
  have hround := roundAway_nonneg_of hnonneg
  have hlow := le_roundAway x
  have hhigh := roundAway_le x
  have hstart : ((chunkAt numFrames pos chunkIdx).startGridFrame : ℤ) = roundAway x := Int.toNat_of_nonneg hround
  have hcast : ((chunkAt numFrames pos chunkIdx).startGridFrame : ℚ) = roundAway x := by exact_mod_cast congrArg (Int.cast (R := ℚ)) hstart
  rw [← hcast, hvalue] at hlow hhigh
  constructor
  · have hq : ((2 * pos : ℕ) : ℚ) ≤ ((540 * (chunkAt numFrames pos chunkIdx).startGridFrame + 270 : ℕ) : ℚ) := by
      push_cast
      linarith
    exact_mod_cast hq
  · have hq : ((540 * (chunkAt numFrames pos chunkIdx).startGridFrame : ℕ) : ℚ) ≤ ((2 * pos + 270 : ℕ) : ℚ) := by
      push_cast
      linarith
    exact_mod_cast hq

/-- Every frame of the grid is credited by some chunk exactly when half a window was recorded, and a shorter recording
has no chunk. -/
theorem grid_covered_iff {totalSamples : ℕ} (hpos : 0 < totalSamples) :
    ((∀ g < gridFrames totalSamples, ∃ w ∈ predictions 589 totalSamples,
      ∃ t ∈ gridFramesOf (gridFrames totalSamples) w, w.startGridFrame + t = g) ↔
        windowSamples / 2 ≤ totalSamples) ∧
    (totalSamples < windowSamples / 2 → predictions 589 totalSamples = []) := by
  have hstep : stepSamples = 16000 := rfl
  have hwindow : windowSamples = 160000 := rfl
  refine ⟨?_, predictions_short 589⟩
  constructor
  · intro hcovered
    by_contra hshort
    obtain ⟨w, hw, -⟩ := hcovered 0 (lt_gridFrames.mpr hpos)
    rw [predictions_short 589 (not_le.mp hshort)] at hw
    exact absurd hw List.not_mem_nil
  · intro hhalf g hg
    have hsamples := lt_gridFrames.mp hg
    -- the last chunk that starts at or before the frame
    set k := min (270 * g / stepSamples) ((totalSamples - windowSamples / 2) / stepSamples) with hk
    have hk₁ : stepSamples * k ≤ 270 * g := by
      rw [hstep] at *
      omega
    have hmem := @chunkLoop_mem 589 totalSamples k 0 0 (by rw [hstep] at *; omega)
    set w := chunkAt 589 (0 + stepSamples * k) (0 + k) with hw
    have hnear := startGridFrame_near 589 (0 + stepSamples * k) (0 + k)
    rw [← hw] at hnear
    have hframes : w.numFrames = 589 := rfl
    have hlow : w.startGridFrame ≤ g := by omega
    have hhigh : g < w.startGridFrame + 589 := by
      rw [hstep] at *
      omega
    have hsum : w.startGridFrame + (g - w.startGridFrame) = g := by omega
    exact ⟨w, hmem, g - w.startGridFrame, mem_gridFramesOf.mpr ⟨by omega, by omega, by omega⟩, hsum⟩

theorem grid_covered_iff_half :
    ((∀ g < gridFrames 80000, ∃ w ∈ predictions 589 80000,
      ∃ t ∈ gridFramesOf (gridFrames 80000) w, w.startGridFrame + t = g) ↔ windowSamples / 2 ≤ 80000) ∧
    (80000 < windowSamples / 2 → predictions 589 80000 = []) :=
  grid_covered_iff (by decide)

theorem second_left_out :
    predictions 589 16000 = [] ∧ ∃ g < gridFrames 16000, ∀ w ∈ predictions 589 16000,
      ∀ t ∈ gridFramesOf (gridFrames 16000) w, w.startGridFrame + t ≠ g := by
  have hnone := @predictions_short 589 16000 (by decide)
  refine ⟨hnone, 0, lt_gridFrames.mpr (by decide), fun w hw => ?_⟩
  rw [hnone] at hw
  exact absurd hw List.not_mem_nil

end PyannoteCpp.TimelineGrid

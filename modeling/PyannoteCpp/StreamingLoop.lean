import PyannoteCpp.ActiveRuns
import PyannoteCpp.RoundHalfAway
import Mathlib.Analysis.SpecialFunctions.Trigonometric.Basic

set_option autoImplicit false

/-!
# The chunk loop of the streaming program

An iteration pushes the chunk's global segmentation into the prediction buffer,
aggregates the buffer over the focus window of the chunk, feeds the frames of
the window to the activity tracker and pops the oldest prediction when the
buffer is longer than the overlap. Times and option values are exact; the
global segmentations are whatever clustering returned, chunk by chunk.
-/
namespace PyannoteCpp.StreamingLoop
open ActiveRuns RoundHalfAway

structure Setup where
  sampleRate : ℕ
  samples : ℕ
  duration : ℚ
  step : ℚ
  latencyOption : ℚ
  numFrames : ℕ
  maxSpeakers : ℕ

namespace Setup

variable (setup : Setup)

def latency : ℚ := if setup.latencyOption < 0 then setup.step else setup.latencyOption

def stepSamples : ℤ := roundAway (setup.step * setup.sampleRate)

def segResolution : ℚ := setup.duration / setup.numFrames

def numOverlapping : ℤ := max 1 (roundAway (setup.latency / setup.step))

def endTime : ℚ := setup.samples / setup.sampleRate

end Setup

variable {S : Type*} [Field S] [LinearOrder S]

structure FrameWeights (S : Type*) [Field S] [LinearOrder S] where
  weight : ℕ → ℕ → S
  pos : ∀ n i, 0 < weight n i

noncomputable def hamming : FrameWeights ℝ where
  weight n i := if n ≤ 1 then 1 else 0.54 - 0.46 * Real.cos (2.0 * Real.pi * i / (n - 1))
  pos n i := by
    split_ifs
    · exact one_pos
    · have upper := Real.cos_le_one (2.0 * Real.pi * i / (n - 1))
      linarith

/-- Weights under which overlapping chunks are averaged. -/
def FrameWeights.even : FrameWeights ℚ where
  weight _ _ := 1
  pos _ _ := one_pos

structure BufferSeg (S : Type*) where
  start : ℚ
  resolution : ℚ
  numFrames : ℕ
  data : ℕ → ℕ → S

/-- `src`, when it is a frame of the buffered chunk. -/
def BufferSeg.source (buf : BufferSeg S) (focusStart : ℚ) (t : ℕ) : Option ℕ :=
  let src := ⌊(focusStart - buf.start) / buf.resolution⌋ + t
  if src < 0 ∨ src ≥ buf.numFrames then none else some src.toNat

omit [Field S] [LinearOrder S] in
theorem BufferSeg.source_some {buf : BufferSeg S} {focusStart : ℚ} {t src : ℕ}
    (h : ⌊(focusStart - buf.start) / buf.resolution⌋ + t = (src : ℤ)) (hs : src < buf.numFrames) :
    buf.source focusStart t = some src := by
  have inside : ¬((src : ℤ) < 0 ∨ (src : ℤ) ≥ buf.numFrames) := by omega
  rw [source, h, if_neg inside, Int.toNat_natCast]

omit [Field S] [LinearOrder S] in
theorem BufferSeg.exists_source {buf : BufferSeg S} {focusStart : ℚ} {t : ℕ}
    (pos : 0 < buf.resolution) (start : buf.start ≤ focusStart)
    (fit : focusStart + t * buf.resolution < buf.start + buf.numFrames * buf.resolution) :
    ∃ src, src < buf.numFrames ∧ buf.source focusStart t = some src := by
  obtain ⟨x, hx⟩ : ∃ x : ℚ, x = (focusStart - buf.start) / buf.resolution := ⟨_, rfl⟩
  have x_nonneg : 0 ≤ x := by
    rw [hx]
    exact div_nonneg (sub_nonneg.2 start) pos.le
  have x_scaled : x * buf.resolution = focusStart - buf.start := by
    rw [hx, div_mul_cancel₀ _ pos.ne']
  have x_lt : x + t < buf.numFrames := by
    have scaled : (x + t) * buf.resolution < buf.numFrames * buf.resolution := by
      rw [add_mul, x_scaled]
      linarith
    exact lt_of_mul_lt_mul_right scaled pos.le
  have floor_nonneg : 0 ≤ ⌊x⌋ := Int.floor_nonneg.2 x_nonneg
  -- Rounding the shift down before adding `t` only lowers the source index.
  have floor_lt : ⌊x⌋ + t < buf.numFrames := by
    have below : ((⌊x⌋ + t : ℤ) : ℚ) < ((buf.numFrames : ℤ) : ℚ) := by
      have := Int.floor_le x
      push_cast
      linarith
    exact_mod_cast below
  have small : (⌊x⌋ + t).toNat < buf.numFrames := by omega
  refine ⟨(⌊x⌋ + t).toNat, small, source_some ?_ small⟩
  rw [← hx]
  omega

omit [Field S] [LinearOrder S] in
theorem BufferSeg.source_none {buf : BufferSeg S} {focusStart : ℚ} {t : ℕ}
    (h : (buf.numFrames : ℤ) ≤ ⌊(focusStart - buf.start) / buf.resolution⌋ + t) :
    buf.source focusStart t = none := by
  rw [source]
  exact if_pos (Or.inr h)

structure Sums (S : Type*) where
  sum : ℕ → ℕ → S
  sumW : ℕ → S

def addBuffer (weights : FrameWeights S) (focusStart : ℚ) (acc : Sums S) (buf : BufferSeg S) :
    Sums S where
  sum t s :=
    match buf.source focusStart t with
    | none => acc.sum t s
    | some src => acc.sum t s + weights.weight buf.numFrames src * buf.data src s
  sumW t :=
    match buf.source focusStart t with
    | none => acc.sumW t
    | some src => acc.sumW t + weights.weight buf.numFrames src

def sumBuffers (weights : FrameWeights S) (buffers : List (BufferSeg S)) (focusStart : ℚ) :
    Sums S :=
  buffers.foldl (addBuffer weights focusStart) ⟨fun _ _ => 0, fun _ => 0⟩

def aggregateBuffers (weights : FrameWeights S) (buffers : List (BufferSeg S)) (focusStart : ℚ)
    (t s : ℕ) : S :=
  let acc := sumBuffers weights buffers focusStart
  if acc.sumW t ≤ 0 then acc.sum t s else acc.sum t s / acc.sumW t

structure Segment where
  start : ℚ
  stop : ℚ
  speaker : ℕ

/-- `active_start` of the active speakers, and the segments printed so far. -/
structure Tracker where
  active : ℕ → Option ℚ
  printed : List Segment

def Tracker.speakerStep (frameTime : ℚ) (row : ℕ → Bool) (tracker : Tracker) (s : ℕ) : Tracker :=
  match tracker.active s, row s with
  | none, true => { tracker with active := Function.update tracker.active s (some frameTime) }
  | some start, false =>
    ⟨Function.update tracker.active s none, tracker.printed ++ [⟨start, frameTime, s⟩]⟩
  | _, _ => tracker

def Tracker.frameStep (maxSpeakers : ℕ) (tracker : Tracker) (frame : ℚ × (ℕ → Bool)) : Tracker :=
  (List.range maxSpeakers).foldl (Tracker.speakerStep frame.1 frame.2) tracker

structure LoopState (S : Type*) where
  pos : ℕ
  chunkIndex : ℕ
  predBuffer : List (BufferSeg S)
  tracker : Tracker
  broke : Bool

/-- `pos += step_samples`, where a sum below zero wraps around `size_t`. -/
def advance (pos : ℕ) (stepSamples : ℤ) : ℕ :=
  if 0 ≤ pos + stepSamples then (pos + stepSamples).toNat else (pos + stepSamples + 2 ^ 64).toNat

/-- One run of the program: its setup, the speaker threshold and the global
    segmentation of each chunk. -/
structure Program (S : Type*) [Field S] [LinearOrder S] extends Setup where
  weights : FrameWeights S
  tauActive : S
  globalSeg : ℕ → ℕ → ℕ → S

namespace Program

variable (p : Program S)

def init : LoopState S := ⟨0, 0, [], ⟨fun _ => none, []⟩, false⟩

def chunkStartTime (st : LoopState S) : ℚ := st.pos / p.sampleRate

def pushed (st : LoopState S) : BufferSeg S :=
  ⟨p.chunkStartTime st, p.segResolution, p.numFrames, p.globalSeg st.chunkIndex⟩

def buffered (st : LoopState S) : List (BufferSeg S) := st.predBuffer ++ [p.pushed st]

def focusStart (st : LoopState S) : ℚ :=
  if (p.buffered st).length = 1 ∧ |p.chunkStartTime st| < 1 / 1000000 then 0
  else p.chunkStartTime st + p.duration - p.latency

def focusEnd (st : LoopState S) : ℚ := p.chunkStartTime st + p.duration - p.latency + p.step

def targetFrames (st : LoopState S) : ℤ :=
  roundAway ((p.focusEnd st - p.focusStart st) / p.segResolution)

def frameTime (st : LoopState S) (t : ℕ) : ℚ := p.focusStart st + (t + 1 / 2) * p.segResolution

def frameActive (st : LoopState S) (t s : ℕ) : Bool :=
  p.tauActive ≤ aggregateBuffers p.weights (p.buffered st) (p.focusStart st) t s

def focusFrames (st : LoopState S) : List (ℚ × (ℕ → Bool)) :=
  (List.range (p.targetFrames st).toNat).map (fun t => (p.frameTime st t, p.frameActive st t))

def popped (buffers : List (BufferSeg S)) : List (BufferSeg S) :=
  if (buffers.length : ℤ) > p.numOverlapping then buffers.tail else buffers

def body (st : LoopState S) : LoopState S :=
  if p.targetFrames st ≤ 0 then
    { st with
      pos := advance st.pos p.stepSamples
      chunkIndex := st.chunkIndex + 1
      predBuffer := p.buffered st }
  else
    { pos := advance st.pos p.stepSamples
      chunkIndex := st.chunkIndex + 1
      predBuffer := p.popped (p.buffered st)
      tracker := (p.focusFrames st).foldl (Tracker.frameStep p.maxSpeakers) st.tracker
      broke := p.stepSamples ≤ 0 }

def running (st : LoopState S) : Bool := !st.broke && st.pos < p.samples

def stateAt : ℕ → LoopState S
  | 0 => init
  | n + 1 => if p.running (stateAt n) then p.body (stateAt n) else stateAt n

def flush (st : LoopState S) : List Segment :=
  (List.range p.maxSpeakers).filterMap fun s =>
    (st.tracker.active s).map fun start => ⟨start, p.endTime, s⟩

def output (st : LoopState S) : List Segment := st.tracker.printed ++ p.flush st

/-- All frames fed to the tracker in the first `n` iterations. -/
def fed (n : ℕ) : List (ℚ × (ℕ → Bool)) :=
  (List.range n).flatMap fun k =>
    if p.running (p.stateAt k) then p.focusFrames (p.stateAt k) else []

def Ran (n : ℕ) : Prop := ∀ k, k < n → p.running (p.stateAt k) = true

variable {p} {n k : ℕ}

theorem stateAt_succ (h : p.running (p.stateAt n) = true) :
    p.stateAt (n + 1) = p.body (p.stateAt n) := if_pos h

theorem stateAt_stopped (h : p.running (p.stateAt n) = false) (m : ℕ) :
    p.stateAt (n + m) = p.stateAt n := by
  induction m with
  | zero => rfl
  | succ m ih =>
    have still : p.running (p.stateAt (n + m)) = false := by rw [ih, h]
    rw [← Nat.add_assoc, stateAt, if_neg (by simp [still]), ih]

theorem ran_of_running (h : p.running (p.stateAt n) = true) : p.Ran n := by
  intro k hk
  by_contra stopped
  have same := stateAt_stopped (by simpa using stopped) (n - k)
  rw [Nat.add_sub_cancel' hk.le] at same
  rw [same] at h
  exact stopped h

theorem Ran.mono (h : p.Ran n) (hk : k ≤ n) : p.Ran k := fun j hj => h j (by omega)

theorem Ran.succ (h : p.Ran n) (hn : p.running (p.stateAt n) = true) : p.Ran (n + 1) := by
  intro k hk
  by_cases top : k = n
  · rw [top]
    exact hn
  · exact h k (by omega)

theorem body_fields (st : LoopState S) :
    (p.body st).pos = advance st.pos p.stepSamples ∧
      (p.body st).chunkIndex = st.chunkIndex + 1 ∧
      ((p.body st).predBuffer = p.buffered st ∨
        (p.body st).predBuffer = p.popped (p.buffered st)) := by
  unfold body
  split_ifs
  · exact ⟨rfl, rfl, Or.inl rfl⟩
  · exact ⟨rfl, rfl, Or.inr rfl⟩

theorem body_tracker (st : LoopState S) : (p.body st).tracker =
    (p.focusFrames st).foldl (Tracker.frameStep p.maxSpeakers) st.tracker := by
  unfold body
  split_ifs with h
  · rw [focusFrames, Int.toNat_of_nonpos h]
    rfl
  · rfl

theorem tracker_stateAt (n : ℕ) : (p.stateAt (n + 1)).tracker =
    (if p.running (p.stateAt n) then p.focusFrames (p.stateAt n) else []).foldl
      (Tracker.frameStep p.maxSpeakers) (p.stateAt n).tracker := by
  change (if p.running (p.stateAt n) then p.body (p.stateAt n) else p.stateAt n).tracker = _
  split_ifs
  · exact body_tracker _
  · rfl

theorem pos_stateAt (hs : 0 ≤ p.stepSamples) (h : p.Ran n) :
    (p.stateAt n).pos = n * p.stepSamples.toNat := by
  induction n with
  | zero => exact (Nat.zero_mul _).symm
  | succ n ih =>
    have up : 0 ≤ ((n * p.stepSamples.toNat : ℕ) : ℤ) + p.stepSamples := by positivity
    rw [stateAt_succ (h n (Nat.lt_succ_self n)), (body_fields _).1, ih (h.mono (Nat.le_succ n)),
      advance, if_pos up, Nat.succ_mul]
    omega

theorem broke_stateAt (hs : 0 < p.stepSamples) (n : ℕ) : (p.stateAt n).broke = false := by
  induction n with
  | zero => rfl
  | succ n ih =>
    unfold stateAt
    split_ifs
    · unfold body
      split_ifs
      · exact ih
      · exact decide_eq_false (not_le.2 hs)
    · exact ih

theorem running_iff (hs : 0 < p.stepSamples) :
    p.running (p.stateAt k) = true ↔ k * p.stepSamples.toNat < p.samples := by
  have running_eq : ∀ n, p.Ran n →
      (p.running (p.stateAt n) = true ↔ n * p.stepSamples.toNat < p.samples) := by
    intro n ran
    rw [running, broke_stateAt hs, pos_stateAt hs.le ran]
    simp
  constructor
  · intro h
    exact (running_eq k (ran_of_running h)).1 h
  · intro h
    have ran : ∀ n, n ≤ k → p.Ran n := by
      intro n
      induction n with
      | zero => exact fun _ j hj => absurd hj (Nat.not_lt_zero j)
      | succ n ih =>
        intro hn
        have prior := ih (by omega)
        refine prior.succ ((running_eq n prior).2 (lt_of_le_of_lt ?_ h))
        exact Nat.mul_le_mul_right _ (by omega)
    exact (running_eq k (ran k le_rfl)).2 h

theorem predBuffer_nonempty (h : p.Ran (n + 1)) : (p.stateAt (n + 1)).predBuffer ≠ [] := by
  have full : p.buffered (p.stateAt n) ≠ [] := by simp [buffered]
  rw [stateAt_succ (h n (Nat.lt_succ_self n))]
  rcases (body_fields (p.stateAt n)).2.2 with kept | kept
  · rw [kept]
    exact full
  · rw [kept, popped]
    split_ifs with long
    · have one : (1 : ℤ) ≤ p.numOverlapping := le_max_left _ _
      apply List.ne_nil_of_length_pos
      rw [List.length_tail]
      omega
    · exact full

def hop (p : Program S) : ℚ := p.stepSamples / p.sampleRate

section WholeSteps

/-! A step of a whole number of samples is hopped exactly. -/

variable {m : ℤ} (rate : 0 < p.sampleRate) (whole : p.step * p.sampleRate = m)
include whole

theorem stepSamples_eq : p.stepSamples = m := by
  rw [Setup.stepSamples, whole, roundAway_intCast]

include rate

theorem hop_eq_step : p.hop = p.step := by
  have ne : (p.sampleRate : ℚ) ≠ 0 := by exact_mod_cast rate.ne'
  rw [hop, stepSamples_eq whole, ← whole, mul_div_cancel_right₀ _ ne]

theorem stepSamples_pos (step_pos : 0 < p.step) : 0 < p.stepSamples := by
  have rate : (0 : ℚ) < p.sampleRate := by exact_mod_cast rate
  have positive : (0 : ℚ) < m := by
    rw [← whole]
    exact mul_pos step_pos rate
  rw [stepSamples_eq whole]
  exact_mod_cast positive

end WholeSteps

theorem stepSamples_cast (hs : 0 ≤ p.stepSamples) :
    ((p.stepSamples.toNat : ℕ) : ℚ) = (p.stepSamples : ℚ) := by
  exact_mod_cast Int.toNat_of_nonneg hs

theorem chunkStartTime_stateAt (hs : 0 ≤ p.stepSamples) (h : p.Ran n) :
    p.chunkStartTime (p.stateAt n) = n * p.hop := by
  rw [chunkStartTime, pos_stateAt hs h, Nat.cast_mul, stepSamples_cast hs, hop, mul_div_assoc]

theorem focusStart_zero : p.focusStart (p.stateAt 0) = 0 := by
  apply if_pos
  refine ⟨rfl, ?_⟩
  simp [chunkStartTime, stateAt, init]

theorem focusStart_succ (hs : 0 ≤ p.stepSamples) (h : p.Ran (n + 1)) :
    p.focusStart (p.stateAt (n + 1)) = (n + 1 : ℕ) * p.hop + p.duration - p.latency := by
  rw [focusStart, if_neg, chunkStartTime_stateAt hs h]
  rintro ⟨one, _⟩
  rw [buffered, List.length_append, List.length_singleton, Nat.add_eq_right] at one
  exact predBuffer_nonempty h (List.length_eq_zero_iff.1 one)

theorem focusEnd_stateAt (hs : 0 ≤ p.stepSamples) (h : p.Ran n) :
    p.focusEnd (p.stateAt n) = n * p.hop + p.duration - p.latency + p.step := by
  rw [focusEnd, chunkStartTime_stateAt hs h]

end Program

end PyannoteCpp.StreamingLoop

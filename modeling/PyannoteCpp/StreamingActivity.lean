import PyannoteCpp.StreamingReports
import PyannoteCpp.TimedRuns

set_option autoImplicit false

/-!
# The tracker finds the runs of the aggregated activity

The state of the tracker belongs to all focus frames fed so far, whatever window
they came from. Frame times rise over the whole run when a step is a whole number
of samples, and also when the frame count is the segmentation model's.
-/
namespace PyannoteCpp.StreamingLoop.Program
open ActiveRuns

variable {S : Type*} [Field S] [LinearOrder S] {p : Program S} {n s : ℕ}

/-- The focus frames of all windows so far, with the activity of one speaker. -/
def speakerFrames (p : Program S) (n s : ℕ) : List (ℚ × Bool) :=
  (p.fed n).map (fun f => (f.1, f.2 s))

theorem Tiled.drift_whole (h : p.Tiled) {m : ℤ} (whole : p.step * p.sampleRate = m) :
    p.step < p.hop + p.segResolution / 2 := by
  have := h.resolution_pos
  rw [hop_eq_step h.sampleRate_pos whole]
  linarith

theorem Tiled.speakerFrames_rising (h : p.Tiled)
    (clock : (∃ m : ℤ, p.step * p.sampleRate = m) ∨ p.Segmented) (n s : ℕ) :
    (p.speakerFrames n s).Pairwise (fun f g => f.1 < g.1) := by
  rw [speakerFrames, List.pairwise_map]
  rcases clock with ⟨m, whole⟩ | segmented
  · exact h.fed_increasing (h.drift_whole whole) n
  · exact h.fed_increasing (h.drift segmented) n

/-- What is printed for a speaker, with what is still open, after any number of
    iterations. -/
theorem tracked_runs (p : Program S) (h : p.Tiled)
    (clock : (∃ m : ℤ, p.step * p.sampleRate = m) ∨ p.Segmented) (n : ℕ) {s : ℕ}
    (hs : s < p.maxSpeakers) :
    Reported p.endTime (p.speakerFrames n s)
      ⟨(p.stateAt n).tracker.active s,
        ((p.stateAt n).tracker.printed.filter (fun seg => seg.speaker = s)).map
          (fun seg => (seg.start, seg.stop))⟩ := by
  have view := view_stateAt hs n (p := p)
  rw [Tracker.view] at view
  rw [view]
  exact reported_scan p.endTime (h.speakerFrames_rising clock n s)

theorem tracked_runs_short :
    Reported shortProgram.endTime (shortProgram.speakerFrames 1 0)
      ⟨(shortProgram.stateAt 1).tracker.active 0,
        ((shortProgram.stateAt 1).tracker.printed.filter (fun seg => seg.speaker = 0)).map
          (fun seg => (seg.start, seg.stop))⟩ :=
  tracked_runs shortProgram short_tiled (Or.inr short_segmented) 1 (by norm_num [shortProgram])

end PyannoteCpp.StreamingLoop.Program

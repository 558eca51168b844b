import PyannoteCpp.StreamingLoop
import PyannoteCpp.TimelineGrid
import PyannoteCpp.WavTruncation

set_option autoImplicit false

/-!
# The time base of the two programs

Neither program resamples or mixes channels: both count the interleaved samples
of the file, one divides by its own sample rate and one by the rate of the file.
-/
namespace PyannoteCpp.RecordingTimeBase
open WavReader TimelineGrid TimelineAccumulation

/-- A quotient that has no value when the divisor is zero. -/
def quotient (a b : ℚ) : Option ℚ := if b = 0 then none else some (a / b)

def mainTotalDur (wav : WavFile) : ℚ := totalDur wav.data.length

def streamingEndTime (wav : WavFile) : Option ℚ := quotient wav.data.length wav.sampleRate

theorem streamingEndTime_setup {wav : WavFile} (setup : StreamingLoop.Setup)
    (hsamples : setup.samples = wav.data.length) (hrate : setup.sampleRate = wav.sampleRate)
    (hpos : 0 < setup.sampleRate) : streamingEndTime wav = some setup.endTime := by
  have hrateQ : (wav.sampleRate : ℚ) = setup.sampleRate := by rw [← hrate, Int.cast_natCast]
  have hne : (setup.sampleRate : ℚ) ≠ 0 := by exact_mod_cast hpos.ne'
  rw [streamingEndTime, hrateQ, ← hsamples, quotient, if_neg hne, StreamingLoop.Setup.endTime]

/-- The sample frames of the data chunk that the reader reaches: the samples of every channel at one time. -/
def sampleFrames (content : List UInt8) (wav : WavFile) : ℕ := wav.data.length / (fmtFields content).channels

def recordingDuration (content : List UInt8) (wav : WavFile) : Option ℚ :=
  quotient (sampleFrames content wav) (fmtFields content).sampleRate

structure MainTimeBase (content : List UInt8) (wav : WavFile) : Prop where
  totalDur : some (mainTotalDur wav) = recordingDuration content wav
  gridFrames : some (gridFrames wav.data.length) =
    (recordingDuration content wav).map (fun d => ⌈d / modelFrameDuration⌉₊)

structure StreamingTimeBase (content : List UInt8) (wav : WavFile) : Prop where
  endTime : (recordingDuration content wav).isSome ∧ streamingEndTime wav = recordingDuration content wav

theorem toInt32_of_ge {n : ℕ} (hlt : n < 2 ^ 32) (hge : 2 ^ 31 ≤ n) : toInt32 n = (n : ℤ) - 2 ^ 32 := by
  unfold toInt32
  rw [Nat.mod_eq_of_lt hlt, if_neg (not_lt.mpr hge)]

section Accepted

variable {locals : Locals} {content : List UInt8} {wav wav' : WavFile}

theorem accepted_shape (h : readWav locals content wav = .ok (true, wav')) :
    0 < (fmtFields content).channels ∧ (fmtFields content).sampleRate < 2 ^ 32 ∧
      wav'.data.length = sampleFrames content wav' * (fmtFields content).channels ∧
      wav'.sampleRate = toInt32 (fmtFields content).sampleRate := by
  obtain ⟨hids, hlen⟩ := ids_of_readWav locals wav h
  rcases readWav_result locals wav hids hlen with ⟨-, hnone⟩ | ⟨p, turn, -, hread⟩
  · cases hnone.symm.trans h
  obtain ⟨-, hpos, rfl⟩ := (hread _).mp h
  have hwhole : ∃ n, (resultAt locals content p turn).data.length = n * (fmtFields content).channels :=
    ⟨_, readSamples_length _ _ _ _⟩
  obtain ⟨n, hn⟩ := hwhole
  refine ⟨hpos, leValue_take_lt _ 4, ?_, rfl⟩
  rw [sampleFrames, hn, Nat.mul_div_cancel _ hpos]

theorem main_timeBase_iff (h : readWav locals content wav = .ok (true, wav')) :
    MainTimeBase content wav' ↔ (fmtFields content).sampleRate ≠ 0 ∧
      (sampleFrames content wav' = 0 ∨ (fmtFields content).channels * (fmtFields content).sampleRate = 16000) := by
  obtain ⟨-, -, hlength, -⟩ := accepted_shape h
  set frames := sampleFrames content wav' with hframes
  set channels := (fmtFields content).channels with hchannels
  set rate := (fmtFields content).sampleRate with hrate
  have hduration : recordingDuration content wav' = quotient frames rate := rfl
  have htotal : mainTotalDur wav' = (frames * channels : ℚ) / 16000 := by
    rw [mainTotalDur, totalDur, sampleRate, hlength]
    push_cast
    rfl
  by_cases hzero : rate = 0
  · refine iff_of_false (fun hbase => ?_) (fun hbase => hbase.1 hzero)
    have hnone := hbase.totalDur
    rw [hduration, quotient, if_pos (by exact_mod_cast hzero)] at hnone
    cases hnone
  · have hrateQ : (rate : ℚ) ≠ 0 := by exact_mod_cast hzero
    have hsome : recordingDuration content wav' = some ((frames : ℚ) / rate) := by
      rw [hduration, quotient, if_neg hrateQ]
    have hequal : mainTotalDur wav' = (frames : ℚ) / rate ↔ frames = 0 ∨ channels * rate = 16000 := by
      rw [htotal, div_eq_div_iff (by norm_num) hrateQ, mul_assoc, mul_eq_mul_left_iff]
      rw [or_comm]
      norm_cast
    rw [← hequal]
    constructor
    · intro hbase
      exact ⟨hzero, Option.some.inj (hbase.totalDur.trans hsome)⟩
    · intro hboth
      refine ⟨?_, ?_⟩
      · rw [hsome, hboth.2]
      · rw [hsome, Option.map_some, ← hboth.2]
        rfl

theorem streaming_timeBase_iff (h : readWav locals content wav = .ok (true, wav')) :
    StreamingTimeBase content wav' ↔ (fmtFields content).sampleRate ≠ 0 ∧
      (sampleFrames content wav' = 0 ∨
        (fmtFields content).channels = 1 ∧ (fmtFields content).sampleRate < 2 ^ 31) := by
  obtain ⟨hpos, hlt, hlength, hread⟩ := accepted_shape h
  set frames := sampleFrames content wav' with hframes
  set channels := (fmtFields content).channels with hchannels
  set rate := (fmtFields content).sampleRate with hrate
  have hduration : recordingDuration content wav' = quotient frames rate := rfl
  have hend : streamingEndTime wav' = quotient (frames * channels) (toInt32 rate) := by
    rw [streamingEndTime, hlength, hread]
    push_cast
    rfl
  by_cases hzero : rate = 0
  · refine iff_of_false (fun hbase => ?_) (fun hbase => hbase.1 hzero)
    have hnone := hbase.endTime.1
    rw [hduration, quotient, if_pos (by exact_mod_cast hzero)] at hnone
    cases hnone
  · have hrateQ : (0 : ℚ) < rate := by exact_mod_cast Nat.pos_of_ne_zero hzero
    have hsome : recordingDuration content wav' = some ((frames : ℚ) / rate) := by
      rw [hduration, quotient, if_neg hrateQ.ne']
    have hbase : StreamingTimeBase content wav' ↔
        quotient (frames * channels) (toInt32 rate) = some ((frames : ℚ) / rate) := by
      refine ⟨fun hbase => ?_, fun hequal => ⟨by rw [hsome]; rfl, ?_⟩⟩
      · rw [← hend, hbase.endTime.2, hsome]
      · rw [hend, hequal, hsome]
    rw [hbase]
    by_cases hsmall : rate < 2 ^ 31
    · -- the rate is kept, so only the channels count
      rw [toInt32_of_lt hsmall, Int.cast_natCast, quotient, if_neg hrateQ.ne', Option.some.injEq,
        div_left_inj' hrateQ.ne']
      have hcount : (frames * channels : ℚ) = frames ↔ frames = 0 ∨ channels = 1 := by
        rw [mul_right_eq_self₀, or_comm]
        norm_cast
      rw [hcount]
      simp only [ne_eq, hzero, hsmall, not_false_eq_true, and_true, true_and]
    · -- the rate is taken for a negative number
      have hnegZ : toInt32 rate < 0 := by
        rw [toInt32_of_ge hlt (not_lt.mp hsmall)]
        omega
      have hneg : ((toInt32 rate : ℤ) : ℚ) < 0 := by exact_mod_cast hnegZ
      rw [quotient, if_neg hneg.ne, Option.some.injEq]
      constructor
      · intro hequal
        have hleft : (frames * channels : ℚ) / toInt32 rate ≤ 0 :=
          div_nonpos_of_nonneg_of_nonpos (by positivity) hneg.le
        have hright : 0 ≤ (frames : ℚ) / rate := by positivity
        have hquot : (frames : ℚ) / rate = 0 := le_antisymm (hequal ▸ hleft) hright
        have hframesZero : (frames : ℚ) = 0 := (div_eq_zero_iff.mp hquot).resolve_right hrateQ.ne'
        exact ⟨hzero, .inl (by exact_mod_cast hframesZero)⟩
      · rintro ⟨-, hnone | hmono⟩
        · rw [hnone]
          simp
        · exact absurd hmono.2 hsmall

/-- Both programs keep the time base of a recording exactly at one channel and 16 kHz, or without frames. -/
theorem timeBase_iff (h : readWav locals content wav = .ok (true, wav')) :
    (MainTimeBase content wav' ↔ (fmtFields content).sampleRate ≠ 0 ∧ (sampleFrames content wav' = 0 ∨
      (fmtFields content).channels * (fmtFields content).sampleRate = 16000)) ∧
    (StreamingTimeBase content wav' ↔ (fmtFields content).sampleRate ≠ 0 ∧ (sampleFrames content wav' = 0 ∨
      (fmtFields content).channels = 1 ∧ (fmtFields content).sampleRate < 2 ^ 31)) ∧
    (MainTimeBase content wav' ∧ StreamingTimeBase content wav' ↔ (fmtFields content).sampleRate ≠ 0 ∧
      (sampleFrames content wav' = 0 ∨ (fmtFields content).channels = 1 ∧ (fmtFields content).sampleRate = 16000)) := by
  have hmain := main_timeBase_iff h
  have hstreaming := streaming_timeBase_iff h
  refine ⟨hmain, hstreaming, ?_⟩
  rw [hmain, hstreaming]
  constructor
  · rintro ⟨⟨hrate, hproduct⟩, -, hmono⟩
    refine ⟨hrate, ?_⟩
    rcases hproduct with hnone | hproduct
    · exact .inl hnone
    · refine hmono.imp_right (fun ⟨hone, _⟩ => ⟨hone, ?_⟩)
      rwa [hone, one_mul] at hproduct
  · rintro ⟨hrate, hnone | ⟨hone, hrate16⟩⟩
    · exact ⟨⟨hrate, .inl hnone⟩, hrate, .inl hnone⟩
    · exact ⟨⟨hrate, .inr (by rw [hone, hrate16])⟩, hrate, .inr ⟨hone, by rw [hrate16]; decide⟩⟩

end Accepted

def mono : Recording := { stereo with fmt := { stereo.fmt with channels := 1, channels_pos := by decide, channels_lt := by decide } }

def monoWav : WavFile := ⟨[1 / 2, -1 / 2, 1 / 32768, -1 / 32768], 16000, 1, 16⟩

def stereoWav : WavFile := { monoWav with channels := 2 }

theorem mono_read : readWav zeroLocals mono.encode ⟨[], 0, 0, 0⟩ = .ok (true, monoWav) := by
  have hdata : mono.contents.data = monoWav.data := by decide +kernel
  rw [readWav_first zeroLocals _ mono rfl rfl (by decide)]
  exact congrArg (fun data => Except.ok (true, (⟨data, 16000, 1, 16⟩ : WavFile))) hdata

theorem stereo_read : readWav zeroLocals stereo.encode ⟨[], 0, 0, 0⟩ = .ok (true, stereoWav) := by
  have hdata : stereo.contents.data = stereoWav.data := by decide +kernel
  rw [readWav_first zeroLocals _ stereo rfl rfl (by decide)]
  exact congrArg (fun data => Except.ok (true, (⟨data, 16000, 2, 16⟩ : WavFile))) hdata

theorem timeBase_iff_mono :
    (MainTimeBase mono.encode monoWav ↔ (fmtFields mono.encode).sampleRate ≠ 0 ∧
      (sampleFrames mono.encode monoWav = 0 ∨
        (fmtFields mono.encode).channels * (fmtFields mono.encode).sampleRate = 16000)) ∧
    (StreamingTimeBase mono.encode monoWav ↔ (fmtFields mono.encode).sampleRate ≠ 0 ∧
      (sampleFrames mono.encode monoWav = 0 ∨
        (fmtFields mono.encode).channels = 1 ∧ (fmtFields mono.encode).sampleRate < 2 ^ 31)) ∧
    (MainTimeBase mono.encode monoWav ∧ StreamingTimeBase mono.encode monoWav ↔
      (fmtFields mono.encode).sampleRate ≠ 0 ∧ (sampleFrames mono.encode monoWav = 0 ∨
        (fmtFields mono.encode).channels = 1 ∧ (fmtFields mono.encode).sampleRate = 16000)) :=
  timeBase_iff mono_read

/-- Both programs double the time of a stereo recording at 16 kHz. -/
theorem stereo_doubled :
    readWav zeroLocals stereo.encode ⟨[], 0, 0, 0⟩ = .ok (true, stereoWav) ∧
      recordingDuration stereo.encode stereoWav = some (2 / 16000) ∧
      mainTotalDur stereoWav = 4 / 16000 ∧ streamingEndTime stereoWav = some (4 / 16000) := by
  have hframes : sampleFrames stereo.encode stereoWav = 2 := by decide
  have hrate : (fmtFields stereo.encode).sampleRate = 16000 := by decide
  refine ⟨stereo_read, ?_, ?_, ?_⟩
  · rw [recordingDuration, hframes, hrate, quotient, if_neg (by norm_num)]
    norm_num
  · rfl
  · have hsamples : stereoWav.data.length = 4 := rfl
    have hrateInt : stereoWav.sampleRate = 16000 := rfl
    rw [streamingEndTime, hsamples, hrateInt, quotient, if_neg (by norm_num)]
    norm_num

end PyannoteCpp.RecordingTimeBase

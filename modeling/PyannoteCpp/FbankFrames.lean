import Mathlib.Analysis.SpecialFunctions.Log.Base
import Mathlib.Analysis.SpecialFunctions.Pow.Real
import PyannoteCpp.FbankSafety
import PyannoteCpp.FftTransform

set_option autoImplicit false
set_option linter.unusedSectionVars false

/-!
# When the features are defined

The features of a waveform are defined when it has no full frame, and from 100
samples a second on as long as the sizes fit into an `int`. Below that rate the
first full frame divides by the frame shift zero, or cuts frames of a negative
size.
-/
namespace PyannoteCpp.Fbank
open MachineInt CheckedVector CheckedLoops PrefixGrammar

/-- The full frames are those with the numbers below `count`. -/
def FullFrames (size frameLength frameShift : ℤ) (count : ℕ) : Prop :=
  ∀ t : ℕ, t < count ↔ t * frameShift + frameLength ≤ size

variable {F Z : Type} [Zero F] [Add F] [Sub F] [Mul F] [Div F] [LE F] [LT F] [DecidableLE F] [DecidableLT F] [BEq F]
  [One Z] [Add Z] [Sub Z] [Mul Z] (N : Numbers F Z)

/-- A value for each full frame and each of 80 filters, frames of positive size and shift, and no fault. -/
def WellDefined (waveform : List F) (sampleRate : ℤ) : Prop :=
  ∃ count : ℕ, (0 < count → 1 ≤ frameLength sampleRate ∧ 1 ≤ frameShift sampleRate) ∧
    FullFrames waveform.length (frameLength sampleRate) (frameShift sampleRate) count ∧
    Returns (computeFbank N waveform sampleRate 80) (fun v => v.length = count * 80)

section Counting

variable {size frameLength frameShift : ℤ}

theorem fullFrames_iff (hshift : 1 ≤ frameShift) (hsize : frameLength ≤ size) (count : ℕ) :
    FullFrames size frameLength frameShift count ↔ (count : ℤ) = 1 + (size - frameLength) / frameShift := by
  have hframe (t : ℕ) : t * frameShift + frameLength ≤ size ↔ (t : ℤ) < 1 + (size - frameLength) / frameShift := by
    have hdiv := Int.le_ediv_iff_mul_le (a := (t : ℤ)) (b := size - frameLength) (c := frameShift) (by omega)
    omega
  have hpos : 0 ≤ (size - frameLength) / frameShift := Int.ediv_nonneg (by omega) (by omega)
  unfold FullFrames
  simp only [hframe]
  constructor
  · intro h
    have hbound := h (1 + (size - frameLength) / frameShift).toNat
    have hcount := h count
    omega
  · intro h t
    omega

theorem toSize_of_range {n : ℤ} (h : 0 ≤ n) (hn : n < 2 ^ 64) : toSize n = n := Int.emod_eq_of_lt h hn

theorem countFrames_eq (hshift : 1 ≤ frameShift) (hshift' : frameShift < 2 ^ 64) (hlength : 0 ≤ frameLength)
    (hsize : frameLength ≤ size) (hsmall : size < 2 ^ 31) :
    countFrames size frameLength frameShift = .ok (toInt (1 + (size - frameLength) / frameShift)) := by
  have hpos : 0 ≤ (size - frameLength) / frameShift := Int.ediv_nonneg (by omega) (by omega)
  have hle : (size - frameLength) / frameShift ≤ size - frameLength := Int.ediv_le_self _ (by omega)
  have hdiff : toSize (size - frameLength) = size - frameLength := toSize_of_range (by omega) (by omega)
  have hhop : toSize frameShift = frameShift := toSize_of_range (by omega) hshift'
  have htotal : toSize (1 + (size - frameLength) / frameShift) = 1 + (size - frameLength) / frameShift :=
    toSize_of_range (by omega) (by omega)
  unfold countFrames divSize
  rw [toInt_of_inRange (by unfold InRange; omega : InRange size), if_pos hsize, hdiff, hhop, if_neg (by omega), ok_bind,
    htotal]
  rfl

theorem countFrames_short (h : toInt size < frameLength) : countFrames size frameLength frameShift = .ok 0 :=
  if_neg (not_le.2 h)

theorem countFrames_division (h : frameLength ≤ toInt size) (hshift : frameShift = 0) :
    countFrames size frameLength frameShift = .error .divisionByZero := by
  subst hshift
  exact if_pos h

end Counting

section Lengths

theorem writeAt_ensures {v : List F} {i : ℤ} {x : F} : Ensures (writeAt v i x) (fun w => w.length = v.length) := by
  intro w hw
  unfold writeAt at hw
  split_ifs at hw
  cases hw
  exact List.length_set

theorem processFrame_ensures {S : Layout} {waveform window fbank : List F} {filterbank : List (List F)} {t : ℕ} :
    Ensures (processFrame N S waveform filterbank window fbank t) (fun v => v.length = fbank.length) := by
  refine Ensures.of_bind (fun start => Ensures.of_bind (fun frame => Ensures.of_bind (fun sum => ?_)))
  refine Ensures.of_bind (fun frame => Ensures.of_bind (fun frame => Ensures.of_bind (fun frame => ?_)))
  refine Ensures.of_bind (fun powerSpec => ?_)
  refine ensures_foldlM (J := fun v : List F => v.length = fbank.length) (fun v hv i _ => ?_) rfl
  refine Ensures.of_bind (fun row => Ensures.of_bind (fun energy => Ensures.of_bind (fun index w hw => ?_)))
  exact (writeAt_ensures w hw).trans hv

theorem subtractMean_ensures {numFrames nMels : ℤ} {fbank : List F} {i : ℕ} :
    Ensures (subtractMean N numFrames nMels fbank i) (fun v => v.length = fbank.length) := by
  refine Ensures.of_bind (fun sum => ?_)
  refine ensures_foldlM (J := fun v : List F => v.length = fbank.length) (fun v hv t _ => ?_) rfl
  refine Ensures.of_bind (fun index => Ensures.of_bind (fun x w hw => ?_))
  exact (writeAt_ensures w hw).trans hv

theorem checked_ok {r : ℤ} {n : ℤ} (h : checked (fit r) = .ok n) : InRange r ∧ n = r := by
  unfold fit at h
  split_ifs at h with hr
  · cases h
    exact ⟨hr, rfl⟩
  · cases h

theorem features_ok {waveform v : List F} {sampleRate numFrames fftSize : ℤ}
    (h : features N waveform sampleRate numFrames fftSize 80 = .ok v) :
    InRange (numFrames * 80) ∧ (v.length : ℤ) = numFrames * 80 ∧
      ∀ t : ℕ, t < numFrames → InRange (t * frameShift sampleRate) := by
  unfold features mulInt at h
  obtain ⟨size, hsize, h⟩ := except_bind_ok.1 h
  obtain ⟨hrange, rfl⟩ := checked_ok hsize
  obtain ⟨fbank, hfbank, h⟩ := except_bind_ok.1 h
  obtain ⟨hzPoints, -, h⟩ := except_bind_ok.1 h
  obtain ⟨filterbank, -, h⟩ := except_bind_ok.1 h
  obtain ⟨window, -, h⟩ := except_bind_ok.1 h
  obtain ⟨filled, hfilled, h⟩ := except_bind_ok.1 h
  have hallocated : (fbank.length : ℤ) = numFrames * 80 := by
    unfold allocate at hfbank
    split_ifs at hfbank with hneg
    · cases hfbank
      rw [List.length_replicate]
      omega
  have hkept : filled.length = fbank.length :=
    ensures_foldlM (J := fun v : List F => v.length = fbank.length)
      (fun u hu t _ w hw => (processFrame_ensures N w hw).trans hu) rfl filled hfilled
  have hend : v.length = filled.length :=
    ensures_foldlM (J := fun v : List F => v.length = filled.length)
      (fun u hu i _ w hw => (subtractMean_ensures N w hw).trans hu) rfl v h
  refine ⟨hrange, by omega, fun t ht => ?_⟩
  obtain ⟨u, u', hturn⟩ := foldlM_turn hfilled (List.mem_range.2 (by omega : t < numFrames.toNat))
  obtain ⟨start, hstart, -⟩ := except_bind_ok.1 hturn
  exact (checked_ok hstart).1

end Lengths

variable {waveform : List F} {sampleRate : ℤ} (hint : InRange sampleRate)
include hint

theorem growFft_one : Returns (growFft (frameLength sampleRate) 31 1)
    (fun size => ∃ k ≤ 26, size = 2 ^ k ∧ frameLength sampleRate ≤ size) :=
  growFft_returns (K := 0) (frameLength_le hint) (Nat.zero_le 26) (by norm_num)

/-- From 100 samples a second on the features are defined as long as the length and the size of the result fit. -/
theorem wellDefined_of_fits (hrate : 100 ≤ sampleRate) (hlength : frameLength sampleRate ≤ waveform.length)
    (hsmall : waveform.length < 2 ^ 31)
    (hfit : (1 + (waveform.length - frameLength sampleRate) / frameShift sampleRate) * 80 < 2 ^ 31) :
    WellDefined N waveform sampleRate := by
  have hpos := frameLength_pos hrate
  have hshift := frameShift_pos hrate
  have hshift' := frameShift_le hint
  have hq : 1 ≤ 1 + (waveform.length - frameLength sampleRate) / frameShift sampleRate :=
    Int.le_add_of_nonneg_right (Int.ediv_nonneg (by omega) (by omega))
  have hframes := fullFrames_iff hshift hlength
  have hcount := countFrames_eq hshift (by omega) (by omega) hlength (by omega)
  generalize 1 + (waveform.length - frameLength sampleRate) / frameShift sampleRate = q at hfit hq hframes hcount
  have hall := (hframes q.toNat).2 (by omega)
  refine ⟨q.toNat, fun _ => ⟨hpos, hshift⟩, hall, ?_⟩
  unfold computeFbank
  dsimp only
  refine (growFft_one hint).bind (fun fftSize hgrown => ?_)
  obtain ⟨k, hk, hsize, hholds⟩ := hgrown
  rw [List.length_map, hcount, ok_bind, toInt_of_inRange (by unfold InRange; omega), if_neg (by omega)]
  refine (features_returns N hrate ⟨k, hk, hsize⟩ hholds (by norm_num) (by omega) ?_ hfit (fun t ht => ?_)).mono
    (fun v hv => by omega)
  · rwa [List.length_map]
  · rw [List.length_map]
    exact (hall t).1 (by omega)

theorem wellDefined_of_short (hshort : waveform.length < frameLength sampleRate) : WellDefined N waveform sampleRate := by
  have hlength := frameLength_le hint
  have hrate : 0 ≤ sampleRate := by
    by_contra hneg
    have hnonpos : frameLength sampleRate ≤ 0 := samplesIn_nonpos 25 (by norm_num) (by omega)
    omega
  have hhop := frameShift_nonneg hrate
  have hcount : countFrames waveform.length (frameLength sampleRate) (frameShift sampleRate) = .ok 0 := by
    refine countFrames_short ?_
    rw [toInt_of_inRange (by unfold InRange; omega)]
    exact hshort
  refine ⟨0, fun h => absurd h (lt_irrefl 0), fun t => ?_, ?_⟩
  · have hstart : 0 ≤ (t : ℤ) * frameShift sampleRate := mul_nonneg (by omega) hhop
    omega
  · unfold computeFbank
    dsimp only
    refine (growFft_one hint).bind (fun fftSize _ => ?_)
    rw [List.length_map, hcount, ok_bind, if_pos rfl]
    exact returns_ok rfl

theorem fits_of_wellDefined (hlength : frameLength sampleRate ≤ waveform.length) (h : WellDefined N waveform sampleRate) :
    100 ≤ sampleRate ∧ waveform.length < 2 ^ 31 ∧
      (1 + (waveform.length - frameLength sampleRate) / frameShift sampleRate) * 80 < 2 ^ 31 := by
  obtain ⟨count, hsizes, hframes, v, hrun, hv⟩ := h
  have hsome : 0 < count := (hframes 0).2 (by omega)
  obtain ⟨hpos, hshift⟩ := hsizes hsome
  have hrate : 100 ≤ sampleRate := by
    by_contra hlow
    have hnone := frameShift_nonpos (not_le.1 hlow)
    omega
  rw [fullFrames_iff hshift hlength] at hframes
  rw [← hframes]
  unfold computeFbank at hrun
  obtain ⟨fftSize, -, hrun⟩ := except_bind_ok.1 hrun
  obtain ⟨numFrames, hcounted, hrun⟩ := except_bind_ok.1 hrun
  rw [List.length_map] at hcounted
  split_ifs at hrun with hzero
  · cases hrun
    simp only [List.length_nil] at hv
    omega
  · obtain ⟨hrange, hkept, hstarts⟩ := features_ok N hrun
    have hnum : numFrames = count := by omega
    unfold InRange at hrange
    refine ⟨hrate, ?_, by omega⟩
    by_contra hlarge
    -- A longer waveform that is not taken for a shorter one has `2 ^ 32` samples and more.
    have hcut : frameLength sampleRate ≤ toInt waveform.length := by
      by_contra hshort
      rw [countFrames_short (not_le.1 hshort)] at hcounted
      exact hzero (Except.ok.inj hcounted).symm
    have hint' := toInt_inRange (waveform.length : ℤ)
    obtain ⟨w, hw⟩ := toInt_dvd (waveform.length : ℤ)
    have hlength' := frameLength_le hint
    have hshift' := frameShift_le hint
    have hrest := Int.emod_lt_of_pos (waveform.length - frameLength sampleRate) (show 0 < frameShift sampleRate by omega)
    have hsplit := Int.emod_add_ediv_mul (waveform.length - frameLength sampleRate) (frameShift sampleRate)
    have hlast := hstarts (count - 1) (by omega)
    have hstart : ((count - 1 : ℕ) : ℤ) = (waveform.length - frameLength sampleRate) / frameShift sampleRate := by omega
    rw [hstart] at hlast
    unfold InRange at hlast hint'
    omega

omit hint

/-- The features are defined exactly for a waveform shorter than a frame, and, from 100 samples a second on, for one
whose length and number of values fit. -/
theorem wellDefined_iff (waveform : List F) (header : ℕ) : WellDefined N waveform (toInt header) ↔
    waveform.length < frameLength (toInt header) ∨
      (100 ≤ toInt header ∧ waveform.length < 2 ^ 31 ∧
        (1 + (waveform.length - frameLength (toInt header)) / frameShift (toInt header)) * 80 < 2 ^ 31) := by
  have hint := toInt_inRange (header : ℤ)
  rcases lt_or_ge (waveform.length : ℤ) (frameLength (toInt header)) with hshort | hlength
  · exact iff_of_true (wellDefined_of_short N hint hshort) (.inl hshort)
  · constructor
    · exact fun h => .inr (fits_of_wellDefined N hint hlength h)
    · rintro (hshort | ⟨hrate, hsmall, hfit⟩)
      · omega
      · exact wellDefined_of_fits N hint hrate hlength hsmall hfit

/-- Below 100 samples a second the first full frame divides by zero. -/
theorem computeFbank_division (hrate : 0 ≤ sampleRate) (hlow : sampleRate < 100) (hint : InRange sampleRate)
    (hlength : frameLength sampleRate ≤ toInt waveform.length) :
    computeFbank N waveform sampleRate 80 = .error .divisionByZero := by
  have hshift : frameShift sampleRate = 0 := le_antisymm (frameShift_nonpos hlow) (frameShift_nonneg hrate)
  obtain ⟨fftSize, hgrown, -⟩ := growFft_one hint
  unfold computeFbank
  dsimp only
  rw [hgrown, ok_bind, List.length_map, countFrames_division hlength hshift]
  rfl

noncomputable section Exact

def exactNumbers : Numbers ℝ ℂ where
  ofInt n := n
  literal q := q
  log10 := Real.logb 10.0
  pow x y := x ^ y
  cos := Real.cos
  log := Real.log
  pi := Real.pi
  complex x := x
  norm := Complex.normSq
  wm := Fft.twiddle

/-- Half a second at 50 samples a second. -/
theorem halfSecond_undefined : computeFbank exactNumbers (List.replicate 25 0) 50 80 = .error .divisionByZero ∧
    ¬WellDefined exactNumbers (List.replicate 25 0) 50 := by
  have hlength : frameLength 50 ≤ 2 :=
    samplesIn_le 25 (by norm_num) 50 (5 / 4) (by norm_num) le_rfl
      ⟨50, 0, by norm_num, by norm_num⟩ ⟨1250, 0, by norm_num, by norm_num⟩ (by norm_num)
      ⟨5, -2, by norm_num, by norm_num⟩ (by norm_num)
  have hsize : toInt ((List.replicate 25 (0 : ℝ)).length : ℤ) = 25 := by
    rw [List.length_replicate]
    exact toInt_of_inRange (by unfold InRange; norm_num)
  have hstop : computeFbank exactNumbers (List.replicate 25 0) 50 80 = .error .divisionByZero :=
    computeFbank_division exactNumbers (by norm_num) (by norm_num) (by unfold InRange; norm_num) (by rw [hsize]; omega)
  refine ⟨hstop, ?_⟩
  rintro ⟨count, -, -, v, hrun, -⟩
  rw [hstop] at hrun
  cases hrun

end Exact

end PyannoteCpp.Fbank

import PyannoteCpp.Fbank

set_option autoImplicit false
set_option linter.unusedSectionVars false

/-!
# The sizes and indices of the features

From 100 samples a second on both frame sizes are positive, below the frame
shift is not. With positive frame sizes every stage keeps the lengths of its
vectors, and no index leaves them.
-/
namespace PyannoteCpp.Fbank
open MachineInt CheckedVector CheckedLoops BinaryRounding MelFilterbank

section Parameters

theorem truncate_le {q : ℚ} {n : ℤ} (h : 0 ≤ q) (hn : q < n + 1) : truncate q ≤ n := by
  unfold truncate
  rw [if_pos h]
  exact Int.lt_add_one_iff.1 (Int.floor_lt.2 (by push_cast; exact hn))

theorem le_truncate {q : ℚ} {n : ℤ} (hn : 0 ≤ n) (h : n ≤ q) : n ≤ truncate q := by
  have hq : 0 ≤ q := (by exact_mod_cast hn : (0 : ℚ) ≤ n).trans h
  unfold truncate
  rw [if_pos hq]
  exact Int.le_floor.2 h

theorem truncate_nonpos {q : ℚ} (h : q ≤ 0) : truncate q ≤ 0 := by
  unfold truncate
  split_ifs with hq
  · rw [le_antisymm h hq, Int.floor_zero]
  · exact Int.ceil_le.2 (by exact_mod_cast h)

variable (ms : ℤ) {sampleRate : ℤ} (hms : 0 ≤ ms)
include hms

theorem samplesIn_nonpos (h : sampleRate ≤ 0) : samplesIn ms sampleRate ≤ 0 := by
  have hrate : single sampleRate ≤ 0 := roundTo_nonpos (by exact_mod_cast h)
  have hproduct : single (ms * single sampleRate) ≤ 0 :=
    roundTo_nonpos (mul_nonpos_of_nonneg_of_nonpos (by exact_mod_cast hms) hrate)
  exact truncate_nonpos (roundTo_nonpos (div_nonpos_of_nonpos_of_nonneg hproduct (by norm_num)))

/-- A rate that single precision has bounds the samples of every higher rate from below. -/
theorem le_samplesIn (rate : ℤ) {n : ℤ} (hrate : 0 ≤ rate) (h : rate ≤ sampleRate) (hsmall : rate < 2 ^ 24)
    (hproduct : ms * rate < 2 ^ 24) (hn : 0 ≤ n) (hthousand : 1000 * n ≤ ms * rate) : n ≤ samplesIn ms sampleRate := by
  have hnonneg : 0 ≤ ms * rate := mul_nonneg hms hrate
  have hfirst : (rate : ℚ) ≤ single sampleRate :=
    le_roundTo (by norm_num) (by exact_mod_cast hrate) (by exact_mod_cast h)
      (representable_intCast (by rwa [abs_of_nonneg hrate]))
  have hsecond : ((ms * rate : ℤ) : ℚ) ≤ single (ms * single sampleRate) := by
    refine le_roundTo (by norm_num) (by exact_mod_cast hnonneg) ?_
      (representable_intCast (by rwa [abs_of_nonneg hnonneg]))
    push_cast
    exact mul_le_mul_of_nonneg_left hfirst (by exact_mod_cast hms)
  have hquotient : (n : ℚ) ≤ single (ms * single sampleRate) / 1000 := by
    rw [le_div_iff₀ (by norm_num), mul_comm]
    exact (by exact_mod_cast hthousand : (1000 * n : ℚ) ≤ (ms * rate : ℤ)).trans hsecond
  exact le_truncate hn (le_roundTo (by norm_num) (by exact_mod_cast hn) hquotient
    (representable_intCast (by rw [abs_of_nonneg hn]; omega)))

theorem samplesIn_le (rate : ℤ) (bound : ℚ) {n : ℤ} (hrate : 0 ≤ sampleRate) (h : sampleRate ≤ rate)
    (hr : Representable 24 rate) (hproduct : Representable 24 (ms * rate)) (hbound : (ms * rate : ℚ) / 1000 ≤ bound)
    (hb : Representable 24 bound) (hn : bound < n + 1) : samplesIn ms sampleRate ≤ n := by
  have hnonneg : (0 : ℚ) ≤ sampleRate := by exact_mod_cast hrate
  have hmsq : (0 : ℚ) ≤ ms := by exact_mod_cast hms
  have hfirst : single sampleRate ≤ rate := roundTo_le (by norm_num) hnonneg (by exact_mod_cast h) hr
  have hfirst0 : 0 ≤ single sampleRate := roundTo_nonneg hnonneg
  have hsecond : single (ms * single sampleRate) ≤ ms * rate :=
    roundTo_le (by norm_num) (mul_nonneg hmsq hfirst0) (mul_le_mul_of_nonneg_left hfirst hmsq) hproduct
  have hsecond0 : 0 ≤ single (ms * single sampleRate) := roundTo_nonneg (mul_nonneg hmsq hfirst0)
  have hthird : single (single (ms * single sampleRate) / 1000) ≤ bound :=
    roundTo_le (by norm_num) (div_nonneg hsecond0 (by norm_num))
      ((div_le_div_of_nonneg_right hsecond (by norm_num)).trans hbound) hb
  exact truncate_le (roundTo_nonneg (div_nonneg hsecond0 (by norm_num))) (hthird.trans_lt hn)

end Parameters

theorem frameShift_pos {sampleRate : ℤ} (h : 100 ≤ sampleRate) : 1 ≤ frameShift sampleRate :=
  le_samplesIn 10 (by norm_num) 100 (by norm_num) h (by norm_num) (by norm_num) (by norm_num) (by norm_num)

theorem frameLength_pos {sampleRate : ℤ} (h : 100 ≤ sampleRate) : 1 ≤ frameLength sampleRate :=
  le_samplesIn 25 (by norm_num) 100 (by norm_num) h (by norm_num) (by norm_num) (by norm_num) (by norm_num)

theorem frameShift_nonneg {sampleRate : ℤ} (h : 0 ≤ sampleRate) : 0 ≤ frameShift sampleRate :=
  le_samplesIn 10 (by norm_num) 0 le_rfl h (by norm_num) (by norm_num) le_rfl (by norm_num)

theorem frameShift_nonpos {sampleRate : ℤ} (h : sampleRate < 100) : frameShift sampleRate ≤ 0 := by
  rcases le_or_gt sampleRate 0 with hneg | hpos
  · exact samplesIn_nonpos 10 (by norm_num) hneg
  · exact samplesIn_le 10 (by norm_num) 99 (127 / 128) hpos.le (by omega)
      ⟨99, 0, by norm_num, by norm_num⟩ ⟨990, 0, by norm_num, by norm_num⟩ (by norm_num)
      ⟨127, -7, by norm_num, by norm_num⟩ (by norm_num)

theorem frameLength_le {sampleRate : ℤ} (h : InRange sampleRate) : frameLength sampleRate ≤ 2 ^ 26 := by
  unfold InRange at h
  rcases le_or_gt sampleRate 0 with hneg | hpos
  · exact (samplesIn_nonpos 25 (by norm_num) hneg).trans (by norm_num)
  · exact samplesIn_le 25 (by norm_num) (2 ^ 31) (2 ^ 26) hpos.le h.2.le
      ⟨1, 31, by norm_num, by norm_num⟩ ⟨25, 31, by norm_num, by norm_num⟩ (by norm_num)
      ⟨1, 26, by norm_num, by norm_num⟩ (by norm_num)

theorem frameShift_le {sampleRate : ℤ} (h : InRange sampleRate) : frameShift sampleRate ≤ 2 ^ 26 := by
  unfold InRange at h
  rcases le_or_gt sampleRate 0 with hneg | hpos
  · exact (samplesIn_nonpos 10 (by norm_num) hneg).trans (by norm_num)
  · exact samplesIn_le 10 (by norm_num) (2 ^ 31) (2 ^ 26) hpos.le h.2.le
      ⟨1, 31, by norm_num, by norm_num⟩ ⟨10, 31, by norm_num, by norm_num⟩ (by norm_num)
      ⟨1, 26, by norm_num, by norm_num⟩ (by norm_num)

theorem growFft_returns {length : ℤ} (h : length ≤ 2 ^ 26) {turns K : ℕ} (hK : K ≤ 26) (hturns : 26 < K + turns) :
    Returns (growFft length turns (2 ^ K)) (fun size => ∃ k ≤ 26, size = 2 ^ k ∧ length ≤ size) := by
  induction turns generalizing K with
  | zero => omega
  | succ turns ih =>
    unfold growFft
    split_ifs with hshort
    · have hlt : K < 26 := by
        by_contra hnot
        have hK26 : K = 26 := by omega
        rw [hK26] at hshort
        exact absurd h (not_le.2 hshort)
      have hdouble : (2 : ℤ) ^ K * 2 = 2 ^ (K + 1) := (pow_succ 2 K).symm
      have hbound : (2 : ℤ) ^ (K + 1) ≤ 2 ^ 26 := pow_le_pow_right₀ (by norm_num) hlt
      have hpos : (0 : ℤ) < 2 ^ (K + 1) := by positivity
      unfold mulInt
      rw [hdouble, checked_fit (by unfold InRange; omega), ok_bind]
      exact ih hlt (by omega)
    · exact returns_ok ⟨K, hK, rfl, not_lt.1 hshort⟩

section Stages

variable {F Z : Type}

theorem readAt_lt {v : List F} {size : ℤ} (hv : v.length = size) {i : ℕ} (hi : i < size.toNat) :
    Returns (readAt v i) (fun x => x ∈ v) := readAt_returns (by omega)

theorem writeAt_lt {v : List F} {size : ℤ} (hv : v.length = size) {i : ℕ} (hi : i < size.toNat) (x : F) :
    Returns (writeAt v i x) (fun w => w.length = size) := (writeAt_returns (by omega) x).mono (fun w hw => by omega)

theorem allocate_returns {size : ℤ} (h : 0 ≤ size) (x : F) : Returns (allocate size x) (fun v => v.length = size) := by
  unfold allocate
  rw [if_neg (by omega)]
  exact returns_ok (by rw [List.length_replicate]; omega)

theorem updateCells_returns {size : ℤ} {value : ℕ → F → Except Fault F} {v : List F} (hv : v.length = size)
    (hvalue : ∀ i < size.toNat, ∀ x, Returns (value i x) (fun _ => True)) :
    Returns (updateCells size value v) (fun w => w.length = size) := by
  refine returns_foldlM (J := fun w : List F => (w.length : ℤ) = size) (fun w hw i hi => ?_) hv
  have hi := List.mem_range.1 hi
  exact (readAt_lt hw hi).bind (fun x _ => (hvalue i hi x).bind (fun y _ => writeAt_lt hw hi y))

theorem writeCells_returns {size : ℤ} {source : List F} {value : F → Z} {n : ℕ} {v : List Z} (hv : v.length = size)
    (hn : n ≤ size.toNat) (hsource : n ≤ source.length) :
    Returns ((List.range n).foldlM (fun v (i : ℕ) => do
      let x ← readAt source i
      writeAt v i (value x)) v) (fun w => w.length = size) := by
  refine returns_foldlM (J := fun w : List Z => (w.length : ℤ) = size) (fun w hw i hi => ?_) hv
  have hi := List.mem_range.1 hi
  exact (readAt_returns (by omega)).bind (fun x _ => writeAt_lt hw (by omega) _)

variable [Zero F] [Add F] [Sub F] [Mul F] [Div F] [LE F] [LT F] [DecidableLE F] [DecidableLT F] [BEq F]
  [One Z] [Add Z] [Sub Z] [Mul Z] (N : Numbers F Z)

theorem sumCells_returns {size : ℤ} {v : List F} (hv : v.length = size) : Returns (sumCells size v) (fun _ => True) := by
  refine returns_foldlM (J := fun _ => True) (fun sum _ i hi => ?_) trivial
  exact (readAt_lt hv (List.mem_range.1 hi)).bind (fun x _ => returns_ok trivial)

theorem melPoints_returns (sampleRate : ℤ) {nMels : ℤ} (h : 0 ≤ nMels) :
    Returns (melPoints N sampleRate nMels) (fun v => v.length = nMels + 2) := by
  refine (allocate_returns (by omega) 0).bind (fun v hv => ?_)
  refine returns_foldlM (J := fun w : List F => (w.length : ℤ) = nMels + 2) (fun w hw i hi => ?_) hv
  exact writeAt_lt hw (List.mem_range.1 hi) _

def Rows (nMels bins : ℤ) (filterbank : List (List F)) : Prop :=
  filterbank.length = nMels ∧ ∀ row ∈ filterbank, (row.length : ℤ) = bins

theorem melFilterbank_returns {nMels bins : ℤ} (hmels : 0 ≤ nMels) (hbins : 0 ≤ bins) {hzPoints : List F}
    (hpoints : hzPoints.length = nMels + 2) (freq : ℕ → F) :
    Returns (melFilterbank nMels hzPoints bins freq) (Rows nMels bins) := by
  obtain ⟨n, rfl⟩ := Int.eq_ofNat_of_zero_le hmels
  obtain ⟨b, rfl⟩ := Int.eq_ofNat_of_zero_le hbins
  have hlength : hzPoints.length = n + 2 := by omega
  rw [eq_cells hzPoints 0, hlength, melFilterbank_cells]
  refine returns_ok ⟨by rw [length_cells], fun row hrow => ?_⟩
  obtain ⟨i, rfl⟩ := List.mem_ofFn.1 hrow
  rw [length_cells]

theorem hamming_returns {length : ℤ} (h : 0 ≤ length) : Returns (hamming N length) (fun v => v.length = length) :=
  (allocate_returns h 0).bind (fun _ hv => updateCells_returns hv (fun _ _ _ => returns_ok trivial))

theorem cutFrame_returns {waveform : List F} {start length : ℤ} (hstart : 0 ≤ start) (hlength : 0 ≤ length)
    (hend : start + length ≤ waveform.length) (hsmall : waveform.length < 2 ^ 31) :
    Returns (cutFrame waveform start length) (fun v => v.length = length) := by
  refine (allocate_returns hlength 0).bind (fun v hv => updateCells_returns hv (fun i hi _ => ?_))
  unfold addInt
  rw [checked_fit (by unfold InRange; omega), ok_bind]
  exact (readAt_returns (by omega)).mono (fun _ _ => trivial)

theorem preEmphasis_returns {length : ℤ} (h : 1 ≤ length) {frame : List F} (hframe : frame.length = length) :
    Returns (preEmphasis N length frame) (fun v => v.length = length) := by
  have hloop : Returns (((List.range (length - 1).toNat).reverse.map (fun i => i + 1)).foldlM (fun frame (i : ℕ) => do
      let x ← readAt frame i
      let previous ← readAt frame ((i : ℤ) - 1)
      writeAt frame i (x - N.literal 0.97 * previous)) frame) (fun v => v.length = length) := by
    refine returns_foldlM (J := fun w : List F => (w.length : ℤ) = length) (fun w hw i hi => ?_) hframe
    obtain ⟨k, hk, rfl⟩ := List.mem_map.1 hi
    have hk := List.mem_range.1 (List.mem_reverse.1 hk)
    exact (readAt_lt hw (by omega)).bind (fun x _ => (readAt_returns (by omega)).bind (fun p _ =>
      writeAt_lt hw (by omega) _))
  refine hloop.bind (fun v hv => (readAt_returns (by omega)).bind (fun x _ => ?_))
  exact (writeAt_returns (by omega) _).mono (fun w hw => by omega)

structure Layout.Fits (S : Layout) : Prop where
  length_pos : 1 ≤ S.frameLength
  holds : S.frameLength ≤ S.fftSize
  power : ∃ k ≤ 26, S.fftSize = 2 ^ k
  bins_eq : S.bins = S.fftSize / 2 + 1
  mels : 0 ≤ S.nMels

variable {S : Layout}

theorem powerSpectrum_returns (hS : S.Fits) {frame : List F} (hframe : frame.length = S.frameLength) :
    Returns (powerSpectrum N S.frameLength S.fftSize S.bins frame) (fun v => v.length = S.bins) := by
  obtain ⟨k, hk, hpower⟩ := hS.power
  have hpos := hS.length_pos
  have hholds := hS.holds
  have hbins := hS.bins_eq
  have hcast : ((2 ^ k : ℕ) : ℤ) = 2 ^ k := by push_cast; rfl
  refine (allocate_returns (by omega) _).bind (fun v hv => ?_)
  refine (writeCells_returns hv (by omega) (by omega)).bind (fun w hw => ?_)
  refine (Fft.fft_returns N.wm (show k ≤ 30 by omega) (by omega)).bind (fun y hy => ?_)
  refine (allocate_returns (by omega) 0).bind (fun p hp => updateCells_returns hp (fun i hi _ => ?_))
  exact (readAt_returns (by omega)).bind (fun z _ => returns_ok trivial)

theorem melIndex_eq {nMels : ℤ} {t i : ℕ} (hi : i < nMels) (hfit : ((t : ℤ) + 1) * nMels < 2 ^ 31) :
    melIndex nMels t i = .ok (t * nMels + i) ∧ 0 ≤ t * nMels ∧ t * nMels + i < ((t : ℤ) + 1) * nMels := by
  have hrow : 0 ≤ (t : ℤ) * nMels := mul_nonneg (by omega) (by omega)
  rw [add_mul, one_mul] at hfit ⊢
  refine ⟨?_, hrow, by omega⟩
  unfold melIndex mulInt addInt
  rw [checked_fit (by unfold InRange; omega), ok_bind, checked_fit (by unfold InRange; omega)]

theorem melEnergy_returns {bins : ℤ} {powerSpec row : List F} (hpower : powerSpec.length = bins)
    (hrow : row.length = bins) : Returns (melEnergy N bins powerSpec row) (fun _ => True) := by
  refine Returns.bind (P := fun _ => True) (returns_foldlM (J := fun _ => True) (fun sum _ j hj => ?_) trivial)
    (fun _ _ => returns_ok trivial)
  have hj := List.mem_range.1 hj
  exact (readAt_lt hpower hj).bind (fun p _ => (readAt_lt hrow hj).bind (fun w _ => returns_ok trivial))

theorem processFrame_returns (hS : S.Fits) {waveform window fbank : List F} {filterbank : List (List F)} {t : ℕ}
    (hhop : 0 ≤ S.frameShift) (hend : t * S.frameShift + S.frameLength ≤ waveform.length)
    (hsmall : waveform.length < 2 ^ 31) (hrows : Rows S.nMels S.bins filterbank) (hwindow : window.length = S.frameLength)
    (hcells : ((t : ℤ) + 1) * S.nMels ≤ fbank.length) (hfit : fbank.length < 2 ^ 31) :
    Returns (processFrame N S waveform filterbank window fbank t) (fun v => v.length = fbank.length) := by
  have hpos := hS.length_pos
  have hmels := hS.mels
  have hstart : 0 ≤ (t : ℤ) * S.frameShift := mul_nonneg (by omega) hhop
  unfold processFrame mulInt
  rw [checked_fit (by unfold InRange; omega), ok_bind]
  refine (cutFrame_returns hstart (by omega) hend hsmall).bind (fun frame hframe => ?_)
  refine (sumCells_returns hframe).bind (fun sum _ => ?_)
  refine (updateCells_returns hframe (fun _ _ _ => returns_ok trivial)).bind (fun frame hframe => ?_)
  refine (preEmphasis_returns N hpos hframe).bind (fun frame hframe => ?_)
  refine (updateCells_returns hframe (fun i hi x => (readAt_lt hwindow hi).bind (fun w _ => returns_ok trivial))).bind
    (fun frame hframe => ?_)
  refine (powerSpectrum_returns N hS hframe).bind (fun powerSpec hpower => ?_)
  refine returns_foldlM (J := fun v : List F => v.length = fbank.length) (fun v hv i hi => ?_) rfl
  have hi := List.mem_range.1 hi
  obtain ⟨hindex, hrow, hlast⟩ :=
    melIndex_eq (show (i : ℤ) < S.nMels by omega) (show ((t : ℤ) + 1) * S.nMels < 2 ^ 31 by omega)
  refine (readAt_lt hrows.1 hi).bind (fun row hmem => ?_)
  refine (melEnergy_returns N hpower (hrows.2 row hmem)).bind (fun energy _ => ?_)
  rw [hindex, ok_bind]
  exact (writeAt_returns (by omega) _).mono (fun w hw => by omega)

theorem subtractMean_returns {numFrames nMels : ℤ} {fbank : List F} {i : ℕ} (hi : i < nMels)
    (hcells : numFrames * nMels ≤ fbank.length) (hfit : fbank.length < 2 ^ 31) :
    Returns (subtractMean N numFrames nMels fbank i) (fun v => v.length = fbank.length) := by
  have hindex {t : ℕ} (ht : t < numFrames.toNat) :
      melIndex nMels t i = .ok (t * nMels + i) ∧ 0 ≤ (t : ℤ) * nMels ∧ t * nMels + i < (fbank.length : ℤ) := by
    have hrow : ((t : ℤ) + 1) * nMels ≤ numFrames * nMels := mul_le_mul_of_nonneg_right (by omega) (by omega)
    obtain ⟨hok, hpos, hlast⟩ := melIndex_eq hi (by omega : ((t : ℤ) + 1) * nMels < 2 ^ 31)
    exact ⟨hok, hpos, by omega⟩
  refine Returns.bind (P := fun _ => True) (returns_foldlM (J := fun _ => True) (fun sum _ t ht => ?_) trivial)
    (fun sum _ => returns_foldlM (J := fun v : List F => v.length = fbank.length) (fun v hv t ht => ?_) rfl)
  · obtain ⟨hok, hpos, hlast⟩ := hindex (List.mem_range.1 ht)
    rw [hok, ok_bind]
    exact (readAt_returns (by omega)).bind (fun x _ => returns_ok trivial)
  · obtain ⟨hok, hpos, hlast⟩ := hindex (List.mem_range.1 ht)
    rw [hok, ok_bind]
    exact (readAt_returns (by omega)).bind (fun x _ => (writeAt_returns (by omega) _).mono (fun w hw => by omega))

/-- With all its frames inside the waveform the function gives a value for each frame and filter. -/
theorem features_returns {waveform : List F} {sampleRate numFrames fftSize nMels : ℤ} (hrate : 100 ≤ sampleRate)
    (hpower : ∃ k ≤ 26, fftSize = 2 ^ k) (hholds : frameLength sampleRate ≤ fftSize) (hmels : 0 ≤ nMels)
    (hframes : 0 ≤ numFrames) (hsmall : waveform.length < 2 ^ 31) (hfit : numFrames * nMels < 2 ^ 31)
    (hend : ∀ t : ℕ, t < numFrames → t * frameShift sampleRate + frameLength sampleRate ≤ waveform.length) :
    Returns (features N waveform sampleRate numFrames fftSize nMels) (fun v => v.length = numFrames * nMels) := by
  have hlength := frameLength_pos hrate
  have hhop := frameShift_pos hrate
  have hproduct : 0 ≤ numFrames * nMels := mul_nonneg hframes hmels
  have hS : Layout.Fits ⟨frameLength sampleRate, frameShift sampleRate, fftSize, fftSize / 2 + 1, nMels⟩ :=
    ⟨hlength, hholds, hpower, rfl, hmels⟩
  unfold features mulInt
  dsimp only
  rw [checked_fit (by unfold InRange; omega), ok_bind]
  refine (allocate_returns hproduct 0).bind (fun fbank hfbank => ?_)
  refine (melPoints_returns N sampleRate hmels).bind (fun hzPoints hpoints => ?_)
  refine (melFilterbank_returns hmels (by omega) hpoints _).bind (fun filterbank hrows => ?_)
  refine (hamming_returns N (by omega)).bind (fun window hwindow => ?_)
  refine Returns.bind (P := fun v : List F => v.length = numFrames * nMels) ?_ (fun fbank hfbank => ?_)
  · refine returns_foldlM (J := fun v : List F => (v.length : ℤ) = numFrames * nMels) (fun v hv t ht => ?_) hfbank
    have ht := List.mem_range.1 ht
    have hrow : ((t : ℤ) + 1) * nMels ≤ numFrames * nMels := mul_le_mul_of_nonneg_right (by omega) hmels
    exact (processFrame_returns N hS (zero_le_one.trans hhop) (hend t (by omega)) hsmall hrows hwindow
      (hrow.trans_eq hv.symm) (by omega)).mono (fun w hw => by omega)
  · refine returns_foldlM (J := fun v : List F => (v.length : ℤ) = numFrames * nMels) (fun v hv i hi => ?_) hfbank
    have hi := List.mem_range.1 hi
    exact (subtractMean_returns N (by omega) (by omega) (by omega)).mono (fun w hw => by omega)

end Stages

end PyannoteCpp.Fbank

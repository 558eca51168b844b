import PyannoteCpp.BinaryRounding
import PyannoteCpp.Fft
import PyannoteCpp.MelFilterbank

set_option autoImplicit false

/-!
# The filterbank features

`compute_fbank` with every size and index it computes. The frame length and the
frame shift are made from the sample rate in single precision; the samples are
numbers of any kind, and so are the values of the functions of the library.
-/
namespace PyannoteCpp.Fbank
open MachineInt CheckedVector BinaryRounding MelFilterbank

/-- The result of an operation in single precision, for values in its normal range. -/
def single (q : ℚ) : ℚ := roundTo 24 q

/-- `static_cast<int>` of a value that fits. -/
def truncate (q : ℚ) : ℤ := if 0 ≤ q then ⌊q⌋ else ⌈q⌉

def samplesIn (milliseconds : ℚ) (sampleRate : ℤ) : ℤ :=
  truncate (single (single (milliseconds * single sampleRate) / 1000))

def frameLength (sampleRate : ℤ) : ℤ := samplesIn 25 sampleRate

def frameShift (sampleRate : ℤ) : ℤ := samplesIn 10 sampleRate

/-- An `int` or a difference as a `size_t`. -/
def toSize (n : ℤ) : ℤ := n % 2 ^ 64

def divSize (a b : ℤ) : Except Fault ℤ := if b = 0 then .error .divisionByZero else .ok (a / b)

/-- `while (fft_size < frame_length) fft_size *= 2`. Thirty-one turns overflow. -/
def growFft (frameLength : ℤ) : ℕ → ℤ → Except Fault ℤ
  | 0, _ => .error .overflow
  | turns + 1, fftSize =>
    if fftSize < frameLength then do
      let fftSize ← checked (mulInt fftSize 2)
      growFft frameLength turns fftSize
    else pure fftSize

def countFrames (size frameLength frameShift : ℤ) : Except Fault ℤ :=
  if toInt size ≥ frameLength then do
    let quotient ← divSize (toSize (size - frameLength)) (toSize frameShift)
    pure (toInt (toSize (1 + quotient)))
  else pure 0

/-- What the library computes on the numbers. -/
structure Numbers (F Z : Type) where
  ofInt : ℤ → F
  literal : ℚ → F
  log10 : F → F
  pow : F → F → F
  cos : F → F
  log : F → F
  pi : F
  complex : F → Z
  norm : Z → F
  wm : ℕ → Z

variable {F Z : Type} [Zero F] [Add F] [Sub F] [Mul F] [Div F] [LE F] [LT F] [DecidableLE F] [DecidableLT F] [BEq F]
  [One Z] [Add Z] [Sub Z] [Mul Z] (N : Numbers F Z)

def hzToMel (hz : F) : F := N.literal 2595 * N.log10 (N.literal 1 + hz / N.literal 700)

def melToHz (mel : F) : F := N.literal 700 * (N.pow (N.literal 10) (mel / N.literal 2595) - N.literal 1)

/-- `high_freq` starts from 0, which stands for the Nyquist frequency. -/
def highFreq (sampleRate : ℤ) : F :=
  let nyquist := N.ofInt sampleRate / N.literal 2
  let highFreq := N.literal 0
  let highFreq := if highFreq ≤ N.literal 0 then nyquist + highFreq else highFreq
  if highFreq > nyquist then nyquist else highFreq

def melPoints (sampleRate nMels : ℤ) : Except Fault (List F) := do
  let lowMel := hzToMel N (N.literal 20)
  let highMel := hzToMel N (highFreq N sampleRate)
  let hzPoints ← allocate (nMels + 2) 0
  (List.range (nMels + 2).toNat).foldlM (fun hzPoints i =>
    let mel := lowMel + (highMel - lowMel) * N.ofInt (i : ℕ) / N.ofInt (nMels + 1)
    writeAt hzPoints (i : ℕ) (melToHz N mel)) hzPoints

def updateCells (size : ℤ) (value : ℕ → F → Except Fault F) (v : List F) : Except Fault (List F) :=
  (List.range size.toNat).foldlM (fun v (i : ℕ) => do
    let x ← readAt v i
    let y ← value i x
    writeAt v i y) v

def hamming (frameLength : ℤ) : Except Fault (List F) := do
  let window ← allocate frameLength 0
  updateCells frameLength (fun i _ => pure (N.literal 0.54 - N.literal 0.46 *
    N.cos (N.literal 2 * N.pi * N.ofInt i / N.ofInt frameLength))) window

def sumCells (size : ℤ) (v : List F) : Except Fault F :=
  (List.range size.toNat).foldlM (fun sum (i : ℕ) => do
    let x ← readAt v i
    pure (sum + x)) 0

def cutFrame (waveform : List F) (start frameLength : ℤ) : Except Fault (List F) := do
  let frame ← allocate frameLength 0
  updateCells frameLength (fun i _ => do
    let index ← checked (addInt start i)
    readAt waveform index) frame

/-- From the last cell to the second, each less a share of the one before it. -/
def preEmphasis (frameLength : ℤ) (frame : List F) : Except Fault (List F) := do
  let frame ← ((List.range (frameLength - 1).toNat).reverse.map (fun i => i + 1)).foldlM (fun frame (i : ℕ) => do
    let x ← readAt frame i
    let previous ← readAt frame ((i : ℤ) - 1)
    writeAt frame i (x - N.literal 0.97 * previous)) frame
  let x ← readAt frame 0
  writeAt frame 0 (x * (N.literal 1 - N.literal 0.97))

/-- Zero-padded to the size of the transform. -/
def powerSpectrum (frameLength fftSize bins : ℤ) (frame : List F) : Except Fault (List F) := do
  let fftFrame ← allocate fftSize (N.complex (N.literal 0))
  let fftFrame ← (List.range frameLength.toNat).foldlM (fun v (i : ℕ) => do
    let x ← readAt frame i
    writeAt v i (N.complex x)) fftFrame
  let fftFrame ← Fft.fft N.wm fftFrame
  let powerSpec ← allocate bins 0
  updateCells bins (fun i _ => do
    let z ← readAt fftFrame i
    pure (N.norm z)) powerSpec

def melIndex (nMels : ℤ) (t i : ℕ) : Except Fault ℤ := do
  let row ← checked (mulInt t nMels)
  checked (addInt row i)

/-- One filter on a spectrum, with the floor of the logarithm. -/
def melEnergy (bins : ℤ) (powerSpec row : List F) : Except Fault F := do
  let sum ← (List.range bins.toNat).foldlM (fun sum (j : ℕ) => do
    let p ← readAt powerSpec j
    let w ← readAt row j
    pure (sum + p * w)) 0
  let energyFloor := N.literal 1.192092896e-07
  pure (N.log (if sum < energyFloor then energyFloor else sum))

structure Layout where
  frameLength : ℤ
  frameShift : ℤ
  fftSize : ℤ
  bins : ℤ
  nMels : ℤ

def processFrame (S : Layout) (waveform : List F) (filterbank : List (List F)) (window fbank : List F) (t : ℕ) :
    Except Fault (List F) := do
  let start ← checked (mulInt t S.frameShift)
  let frame ← cutFrame waveform start S.frameLength
  let sum ← sumCells S.frameLength frame
  let mean := sum / N.ofInt S.frameLength
  let frame ← updateCells S.frameLength (fun _ x => pure (x - mean)) frame
  let frame ← preEmphasis N S.frameLength frame
  let frame ← updateCells S.frameLength (fun i x => do
    let w ← readAt window i
    pure (x * w)) frame
  let powerSpec ← powerSpectrum N S.frameLength S.fftSize S.bins frame
  (List.range S.nMels.toNat).foldlM (fun fbank i => do
    let row ← readAt filterbank (i : ℕ)
    let energy ← melEnergy N S.bins powerSpec row
    let index ← melIndex S.nMels t i
    writeAt fbank index energy) fbank

def subtractMean (numFrames nMels : ℤ) (fbank : List F) (i : ℕ) : Except Fault (List F) := do
  let sum ← (List.range numFrames.toNat).foldlM (fun sum t => do
    let index ← melIndex nMels t i
    let x ← readAt fbank index
    pure (sum + x)) 0
  let mean := sum / N.ofInt numFrames
  (List.range numFrames.toNat).foldlM (fun fbank t => do
    let index ← melIndex nMels t i
    let x ← readAt fbank index
    writeAt fbank index (x - mean)) fbank

def features (waveform : List F) (sampleRate numFrames fftSize nMels : ℤ) : Except Fault (List F) := do
  let S : Layout := ⟨frameLength sampleRate, frameShift sampleRate, fftSize, fftSize / 2 + 1, nMels⟩
  let size ← checked (mulInt numFrames nMels)
  let fbank ← allocate size 0
  let hzPoints ← melPoints N sampleRate nMels
  let filterbank ← melFilterbank nMels hzPoints S.bins
    (fun j => N.ofInt (j : ℕ) * N.ofInt sampleRate / N.ofInt fftSize)
  let window ← hamming N S.frameLength
  let fbank ← (List.range numFrames.toNat).foldlM (processFrame N S waveform filterbank window) fbank
  (List.range nMels.toNat).foldlM (subtractMean N numFrames nMels) fbank

def computeFbank (waveformIn : List F) (sampleRate nMels : ℤ) : Except Fault (List F) := do
  let waveform := waveformIn.map (fun v => v * N.literal 32768)
  let fftSize ← growFft (frameLength sampleRate) 31 1
  let numFrames ← countFrames waveform.length (frameLength sampleRate) (frameShift sampleRate)
  if numFrames = 0 then pure [] else features N waveform sampleRate numFrames fftSize nMels

end PyannoteCpp.Fbank

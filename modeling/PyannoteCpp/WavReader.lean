import Mathlib.Data.Rat.Defs
import PyannoteCpp.ByteStream

set_option autoImplicit false

/-!
# Reading a WAV file

The file has been opened. What the local variables hold before they are read
into is arbitrary. An operation on `int` that has no value in C++, and a length
that the vector refuses, end the call with a fault. Samples are exact.
-/
namespace PyannoteCpp

structure WavFile where
  data : List ℚ
  sampleRate : ℤ
  channels : ℤ
  bitsPerSample : ℤ

namespace WavReader

inductive Fault where
  | overflow
  | divisionByZero
  | lengthError
  deriving DecidableEq

/-- What the uninitialised variables hold; one `chunk_size` for every turn of the loop and one
`val` for every sample. -/
structure Locals where
  buf : ℕ → UInt8
  fmtChunkSize : ℕ → UInt8
  audioFormat : ℕ → UInt8
  channels : ℕ → UInt8
  sampleRate : ℕ → UInt8
  bitsPerSample : ℕ → UInt8
  chunkSize : ℕ → ℕ → UInt8
  val : ℕ → ℕ → UInt8

-- "RIFF", "WAVE", "fmt " and "data"
def riffId : List UInt8 := [82, 73, 70, 70]
def waveId : List UInt8 := [87, 65, 86, 69]
def fmtId : List UInt8 := [102, 109, 116, 32]
def dataId : List UInt8 := [100, 97, 116, 97]

def toInt32 (n : ℕ) : ℤ := if n % 2 ^ 32 < 2 ^ 31 then ((n % 2 ^ 32 : ℕ) : ℤ) else ((n % 2 ^ 32 : ℕ) : ℤ) - 2 ^ 32

def toInt16 (n : ℕ) : ℤ := if n % 2 ^ 16 < 2 ^ 15 then ((n % 2 ^ 16 : ℕ) : ℤ) else ((n % 2 ^ 16 : ℕ) : ℤ) - 2 ^ 16

def intMul (a b : ℤ) : Except Fault ℤ :=
  if -2 ^ 31 ≤ a * b ∧ a * b < 2 ^ 31 then .ok (a * b) else .error .overflow

/-- An unsigned number over a nonnegative `int`. -/
def uintDiv (n : ℕ) (d : ℤ) : Except Fault ℕ :=
  if d = 0 then .error .divisionByZero else .ok (n / d.toNat)

def resize (data : List ℚ) (n : ℤ) : Except Fault (List ℚ) :=
  if n < 0 then .error .lengthError
  else .ok (data.take n.toNat ++ List.replicate (n.toNat - data.length) 0)

structure FmtFields where
  sampleRate : ℕ
  channels : ℕ
  bitsPerSample : ℕ

def readSamples (locals : Locals) : ℕ → ℕ → ByteStream → List ℚ
  | 0, _, _ => []
  | n + 1, i, f =>
    let r := f.read 2 (locals.val i)
    (toInt16 (leValue r.1) : ℚ) / 32768 :: readSamples locals n (i + 1) r.2

def readData (locals : Locals) (fmt : FmtFields) (chunkSize : ℕ) (f : ByteStream) (wav : WavFile) :
    Except Fault (Bool × WavFile) := do
  let blockBits ← intMul fmt.channels fmt.bitsPerSample
  let quotient ← uintDiv chunkSize (blockBits.tdiv 8)
  let numSamples := toInt32 quotient
  let total ← intMul numSamples fmt.channels
  let data ← resize wav.data total
  let wav : WavFile := ⟨data, toInt32 fmt.sampleRate, fmt.channels, fmt.bitsPerSample⟩
  if fmt.bitsPerSample = 16 then
    pure (true, { wav with data := readSamples locals total.toNat 0 f })
  else pure (false, wav)

def readChunks (locals : Locals) (fmt : FmtFields) (k : ℕ) (f : ByteStream) (wav : WavFile) :
    Except Fault (Bool × WavFile) :=
  let id := f.read 4 locals.buf
  if h : id.2.good = true then
    let size := id.2.read 4 (locals.chunkSize k)
    if id.1 = dataId then readData locals fmt (leValue size.1) size.2 wav
    else readChunks locals fmt (k + 1) (size.2.ignore (leValue size.1)) wav
  else .ok (false, wav)
  termination_by f.rest.length
  decreasing_by
    have hid := ByteStream.rest_lt_of_read_good (by decide) h
    have hsize := (ByteStream.rest_read_length 4 (locals.chunkSize k) _).trans_lt hid
    exact (ByteStream.rest_ignore_length _ _).trans_lt hsize

def readFmt (locals : Locals) (f : ByteStream) : FmtFields × ByteStream :=
  let fmtChunkSize := f.read 4 locals.fmtChunkSize
  let audioFormat := fmtChunkSize.2.read 2 locals.audioFormat
  let channels := audioFormat.2.read 2 locals.channels
  let sampleRate := channels.2.read 4 locals.sampleRate
  let bitsPerSample := (sampleRate.2.ignore 6).read 2 locals.bitsPerSample
  let size := leValue fmtChunkSize.1
  (⟨leValue sampleRate.1, leValue channels.1, leValue bitsPerSample.1⟩,
    if 16 < size then bitsPerSample.2.ignore (size - 16) else bitsPerSample.2)

def readWav (locals : Locals) (content : List UInt8) (wav : WavFile) : Except Fault (Bool × WavFile) :=
  let riff := ByteStream.read 4 locals.buf ⟨content, true⟩
  if riff.1 ≠ riffId then .ok (false, wav)
  else
    let wave := (riff.2.ignore 4).read 4 (fun i => riff.1.getD i 0)
    if wave.1 ≠ waveId then .ok (false, wav)
    else
      let id := wave.2.read 4 (fun i => wave.1.getD i 0)
      if id.1 ≠ fmtId then .ok (false, wav)
      else
        let fmt := readFmt locals id.2
        readChunks locals fmt.1 0 fmt.2 wav

end WavReader
end PyannoteCpp

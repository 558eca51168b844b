import PyannoteCpp.WavFormat

set_option autoImplicit false

/-!
# Writing a WAV file

The writer stores a header with two sizes still zero, appends samples and goes
back to the sizes after every write. A stream that is not open takes nothing. An
open one holds bytes back: `spills` says of the bytes it holds and those it is
given how many it hands on to the file. It hands all of them on when its position
is set and when it is closed.
-/
namespace PyannoteCpp.WavWriter
open WavReader

variable {ν : Type*}

/-- What a header is written from; the product is that of `block_align`, an `int`. -/
structure Format where
  sampleRate : ℕ
  bitsPerSample : ℕ
  channels : ℕ
  sampleRate_lt : sampleRate < 2 ^ 32
  channels_lt : channels < 2 ^ 16
  bitsPerSample_lt : bitsPerSample < 2 ^ 16
  block_lt : channels * bitsPerSample < 2 ^ 31

/-- PCM data is assumed to be normalised. -/
abbrev Sample := { x : ℚ // |x| ≤ 1 }

structure Writer (ν : Type*) where
  files : ν → List UInt8
  /-- The file that is open and the position in it of the first byte that is held. -/
  file : Option (ν × ℕ)
  held : List UInt8
  dataSize : ℕ
  wavFilename : ν

inductive Call (ν : Type*) where
  /-- The last argument tells whether the file can be opened. -/
  | openFile (filename : ν) (format : Format) (opens : Bool)
  | write (data : List Sample)
  | close

/-- Bytes behind the end are preceded by zeros. -/
def overwrite (content : List UInt8) (pos : ℕ) (bytes : List UInt8) : List UInt8 :=
  if bytes = [] then content
  else content.take pos ++ (List.replicate (pos - content.length) 0 ++ (bytes ++ content.drop (pos + bytes.length)))

def truncate (x : ℚ) : ℤ := if 0 ≤ x then ⌊x⌋ else ⌈x⌉

def intSample (x : Sample) : ℤ := truncate (x.val * 32767)

def sampleBytes (x : Sample) : List UInt8 := leBytes 2 (intSample x % 2 ^ 16).toNat

def byteRate (format : Format) : ℕ := format.sampleRate * format.channels * format.bitsPerSample % 2 ^ 32 / 8

def blockAlign (format : Format) : ℕ := format.channels * format.bitsPerSample / 8 % 2 ^ 16

namespace Writer

variable [DecidableEq ν] (w : Writer ν)

def flush : Writer ν :=
  match w.file with
  | none => w
  | some (filename, pos) =>
    { w with
      files := Function.update w.files filename (overwrite (w.files filename) pos w.held)
      file := some (filename, pos + w.held.length)
      held := [] }

def seek (pos : ℕ) : Writer ν := { w.flush with file := w.flush.file.map (fun f => (f.1, pos)) }

def seekEnd : Writer ν := { w.flush with file := w.flush.file.map (fun f => (f.1, (w.flush.files f.1).length)) }

def closeFile : Writer ν := { w.flush with file := none }

variable (spills : List UInt8 → List UInt8 → ℕ)

def put (bytes : List UInt8) : Writer ν :=
  match w.file with
  | none => w
  | some (filename, pos) =>
    let spilled := (w.held ++ bytes).take (spills w.held bytes)
    { w with
      files := Function.update w.files filename (overwrite (w.files filename) pos spilled)
      file := some (filename, pos + spilled.length)
      held := (w.held ++ bytes).drop (spills w.held bytes) }

def writeHeader (format : Format) : Writer ν :=
  let w := w.put spills riffId
  let w := w.put spills [0, 0, 0, 0]
  let w := w.put spills waveId
  let w := w.put spills fmtId
  let w := w.put spills (leBytes 4 16)
  let w := w.put spills (leBytes 2 1)
  let w := w.put spills (leBytes 2 format.channels)
  let w := w.put spills (leBytes 4 format.sampleRate)
  let w := w.put spills (leBytes 4 (byteRate format))
  let w := w.put spills (leBytes 2 (blockAlign format))
  let w := w.put spills (leBytes 2 format.bitsPerSample)
  let w := w.put spills dataId
  w.put spills [0, 0, 0, 0]

def writeSample (x : Sample) : Writer ν :=
  { w.put spills (sampleBytes x) with dataSize := (w.dataSize + 2) % 2 ^ 32 }

def patch : Writer ν :=
  let fileSize := (36 + w.dataSize) % 2 ^ 32
  let w := (w.seek 4).put spills (leBytes 4 fileSize)
  let w := (w.seek 40).put spills (leBytes 4 w.dataSize)
  w.seekEnd

def writeAudio (data : List Sample) : Writer ν :=
  let w := data.foldl (fun w x => w.writeSample spills x) w
  if w.file.isSome then w.patch spills else w

def openWav (filename : ν) (opens : Bool) : Writer ν :=
  let w := if filename ≠ w.wavFilename ∧ w.file.isSome then w.closeFile else w
  if w.file.isSome then w
  else
    { files := if opens then Function.update w.files filename [] else w.files
      file := if opens then some (filename, 0) else none
      held := []
      dataSize := 0
      wavFilename := filename }

def step : Call ν → Writer ν
  | .openFile filename format opens =>
    let w := w.openWav filename opens
    if w.file.isSome then w.writeHeader spills format else w
  | .write data => w.writeAudio spills data
  | .close => w.closeFile

def new (files : ν → List UInt8) (filename : ν) : Writer ν := ⟨files, none, [], 0, filename⟩

end Writer

/-- What one file has been given since it was opened. -/
structure Session where
  format : Format
  written : Bool
  data : List Sample
  data_of_written : written = false → data = []

namespace Session

def dataSize (s : Session) : ℕ := 2 * s.data.length % 2 ^ 32

def fields (format : Format) : List UInt8 :=
  waveId ++ (fmtId ++ (leBytes 4 16 ++ (leBytes 2 1 ++ (leBytes 2 format.channels ++ (leBytes 4 format.sampleRate ++
    (leBytes 4 (byteRate format) ++ (leBytes 2 (blockAlign format) ++ (leBytes 2 format.bitsPerSample ++ dataId))))))))

def riffSize (s : Session) : List UInt8 := if s.written then leBytes 4 ((36 + s.dataSize) % 2 ^ 32) else [0, 0, 0, 0]

def encode (s : Session) : List UInt8 :=
  riffId ++ (s.riffSize ++ (fields s.format ++ (leBytes 4 s.dataSize ++ s.data.flatMap sampleBytes)))

theorem start_data : false = false → ([] : List Sample) = [] := fun _ => rfl

theorem written_data (data : List Sample) : true = false → data = [] := fun h => absurd h (by simp)

def start (format : Format) : Session := ⟨format, false, [], start_data⟩

def append (s : Session) (data : List Sample) : Session := ⟨s.format, true, s.data ++ data, written_data _⟩

end Session

/-- What the files are for: one session each, and at most one going on. -/
structure Recorder (ν : Type*) where
  sessions : ν → Option Session
  current : Option ν

namespace Recorder

variable [DecidableEq ν] (r : Recorder ν)

def start : Recorder ν := ⟨fun _ => none, none⟩

/-- A file is not opened while it is open. -/
def step : Call ν → Option (Recorder ν)
  | .openFile filename format opens =>
    if r.current = some filename then none
    else if opens then some ⟨Function.update r.sessions filename (some (.start format)), some filename⟩
    else some { r with current := none }
  | .write data =>
    match r.current with
    | none => some r
    | some filename =>
      some { r with sessions := Function.update r.sessions filename ((r.sessions filename).map (fun s => s.append data)) }
  | .close => some { r with current := none }

end Recorder

end PyannoteCpp.WavWriter

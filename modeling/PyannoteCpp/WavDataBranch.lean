import PyannoteCpp.WavReader

set_option autoImplicit false

/-!
# Where the data branch is entered

The walk to the data chunk does no arithmetic on the header. It is kept apart
from the branch, so that the numbers the branch works on can be named.
-/
namespace PyannoteCpp.WavReader

/-- The size and the stream with which the loop over the chunks takes the data branch. -/
def enterChunks (locals : Locals) (k : ℕ) (f : ByteStream) : Option (ℕ × ByteStream) :=
  let id := f.read 4 locals.buf
  if h : id.2.good = true then
    let size := id.2.read 4 (locals.chunkSize k)
    if id.1 = dataId then some (leValue size.1, size.2)
    else enterChunks locals (k + 1) (size.2.ignore (leValue size.1))
  else none
  termination_by f.rest.length
  decreasing_by
    have hid := ByteStream.rest_lt_of_read_good (by decide) h
    have hsize := (ByteStream.rest_read_length 4 (locals.chunkSize k) _).trans_lt hid
    exact (ByteStream.rest_ignore_length _ _).trans_lt hsize

/-- The format, the size and the stream with which a file reaches the data branch. -/
def enterWav (locals : Locals) (content : List UInt8) : Option (FmtFields × ℕ × ByteStream) :=
  let riff := ByteStream.read 4 locals.buf ⟨content, true⟩
  if riff.1 ≠ riffId then none
  else
    let wave := (riff.2.ignore 4).read 4 (fun i => riff.1.getD i 0)
    if wave.1 ≠ waveId then none
    else
      let id := wave.2.read 4 (fun i => wave.1.getD i 0)
      if id.1 ≠ fmtId then none
      else
        let fmt := readFmt locals id.2
        (enterChunks locals 0 fmt.2).map (fun entry => (fmt.1, entry))

/-- The data branch on what the walk has found, or the refusal. -/
def runData (locals : Locals) (wav : WavFile) : Option (FmtFields × ℕ × ByteStream) → Except Fault (Bool × WavFile)
  | none => .ok (false, wav)
  | some (fmt, chunkSize, f) => readData locals fmt chunkSize f wav

theorem readChunks_eq (locals : Locals) (fmt : FmtFields) (wav : WavFile) (k : ℕ) (f : ByteStream) :
    readChunks locals fmt k f wav = runData locals wav ((enterChunks locals k f).map (fun entry => (fmt, entry))) := by
  induction k, f using enterChunks.induct locals with
  | case1 k f id hgood hdata =>
    rw [readChunks, enterChunks, dif_pos hgood, dif_pos hgood]
    simp only [show (f.read 4 locals.buf).1 = dataId from hdata, if_true]
    rfl
  | case2 k f id hgood size hdata ih =>
    rw [readChunks, enterChunks, dif_pos hgood, dif_pos hgood]
    simp only [show ¬(f.read 4 locals.buf).1 = dataId from hdata, if_false]
    exact ih
  | case3 k f id hgood =>
    rw [readChunks, enterChunks, dif_neg hgood, dif_neg hgood]
    rfl

theorem readWav_eq (locals : Locals) (content : List UInt8) (wav : WavFile) :
    readWav locals content wav = runData locals wav (enterWav locals content) := by
  unfold readWav enterWav
  dsimp only
  split
  · rfl
  split
  · rfl
  split
  · rfl
  exact readChunks_eq _ _ _ _ _

end PyannoteCpp.WavReader

import PyannoteCpp.WavReader

set_option autoImplicit false

/-!
# Well-formed recordings and what the reader makes of them

A recording is a RIFF file with a format chunk of sixteen-bit samples and a
later data chunk. The reader wants the format chunk first. It does not skip pad
bytes, so it is followed here only over chunks of even size.
-/
namespace PyannoteCpp.WavReader

/-- The bytes of a chunk; RIFF pads an odd body to an even number of bytes. -/
def encodeChunk (id body : List UInt8) (pad : UInt8) : List UInt8 :=
  id ++ (leBytes 4 body.length ++ (body ++ if body.length % 2 = 1 then [pad] else []))

structure Chunk where
  id : List UInt8
  body : List UInt8
  pad : UInt8
  id_length : id.length = 4
  id_ne_fmt : id ≠ fmtId
  id_ne_data : id ≠ dataId
  body_lt : body.length < 2 ^ 32

def Chunk.encode (c : Chunk) : List UInt8 := encodeChunk c.id c.body c.pad

/-- A format chunk of sixteen-bit samples; `rates` are the byte rate and the block alignment. -/
structure FmtChunk where
  audioFormat : ℕ
  channels : ℕ
  sampleRate : ℕ
  rates : List UInt8
  extra : List UInt8
  pad : UInt8
  channels_pos : 0 < channels
  channels_lt : channels < 2 ^ 16
  sampleRate_lt : sampleRate < 2 ^ 32
  rates_length : rates.length = 6
  extra_lt : 16 + extra.length < 2 ^ 32

def FmtChunk.body (fmt : FmtChunk) : List UInt8 :=
  leBytes 2 fmt.audioFormat ++ (leBytes 2 fmt.channels ++ (leBytes 4 fmt.sampleRate ++
    (fmt.rates ++ (leBytes 2 16 ++ fmt.extra))))

def FmtChunk.encode (fmt : FmtChunk) : List UInt8 := encodeChunk fmtId fmt.body fmt.pad

structure Recording where
  riffSize : List UInt8
  before : List Chunk
  fmt : FmtChunk
  between : List Chunk
  data : List UInt8
  dataPad : UInt8
  after : List UInt8
  riffSize_length : riffSize.length = 4
  data_lt : data.length < 2 ^ 32

def Recording.encode (w : Recording) : List UInt8 :=
  riffId ++ (w.riffSize ++ (waveId ++ (w.before.flatMap Chunk.encode ++ (w.fmt.encode ++
    (w.between.flatMap Chunk.encode ++ (encodeChunk dataId w.data w.dataPad ++ w.after))))))

/-- Little-endian samples of sixteen bits, divided by 32768. -/
def samples : List UInt8 → List ℚ
  | b₀ :: b₁ :: bytes => (toInt16 (leValue [b₀, b₁]) : ℚ) / 32768 :: samples bytes
  | _ => []

example : samples [0, 64, 0, 192, 1, 0, 255, 255] = [1 / 2, -1 / 2, 1 / 32768, -1 / 32768] := by
  decide +kernel

def Recording.frames (w : Recording) : List UInt8 :=
  w.data.take (w.data.length / (2 * w.fmt.channels) * (2 * w.fmt.channels))

/-- What a reader should return for a recording. -/
def Recording.contents (w : Recording) : WavFile := ⟨samples w.frames, w.fmt.sampleRate, w.fmt.channels, 16⟩

theorem Recording.frames_eq_data (w : Recording) (h : 2 * w.fmt.channels ∣ w.data.length) :
    w.frames = w.data := by
  unfold Recording.frames
  rw [Nat.div_mul_cancel h, List.take_length]

theorem FmtChunk.body_length (fmt : FmtChunk) : fmt.body.length = 16 + fmt.extra.length := by
  simp only [FmtChunk.body, List.length_append, leBytes_length, fmt.rates_length]
  omega

section Loop

variable (locals : Locals) (fmt : FmtFields) (wav : WavFile)

theorem readChunks_chunk (k : ℕ) (id body rest : List UInt8) (pad : UInt8) (hid : id.length = 4)
    (hbody : body.length < 2 ^ 32) :
    readChunks locals fmt k ⟨encodeChunk id body pad ++ rest, true⟩ wav =
      if id = dataId then
        readData locals fmt body.length ⟨body ++ ((if body.length % 2 = 1 then [pad] else []) ++ rest), true⟩ wav
      else readChunks locals fmt (k + 1)
        ⟨(if body.length % 2 = 1 then [pad] else []) ++ rest, true⟩ wav := by
  have hsize : leValue (leBytes 4 body.length) = body.length := leValue_leBytes 4 _ (by omega)
  rw [readChunks]
  unfold encodeChunk
  simp only [List.append_assoc]
  rw [ByteStream.read_append _ _ _ hid, dif_pos rfl]
  simp only [ByteStream.read_append _ _ _ (leBytes_length 4 _), hsize, ByteStream.ignore_append _ _ rfl]

theorem readChunks_skip (k : ℕ) (c : Chunk) (rest : List UInt8) (heven : c.body.length % 2 = 0) :
    readChunks locals fmt k ⟨c.encode ++ rest, true⟩ wav = readChunks locals fmt (k + 1) ⟨rest, true⟩ wav := by
  unfold Chunk.encode
  rw [readChunks_chunk _ _ _ _ _ _ _ _ c.id_length c.body_lt, if_neg c.id_ne_data, if_neg (by omega)]
  rfl

theorem readChunks_skip_all (k : ℕ) (cs : List Chunk) (rest : List UInt8)
    (heven : ∀ c ∈ cs, c.body.length % 2 = 0) :
    readChunks locals fmt k ⟨cs.flatMap Chunk.encode ++ rest, true⟩ wav =
      readChunks locals fmt (k + cs.length) ⟨rest, true⟩ wav := by
  induction cs generalizing k with
  | nil => rfl
  | cons c cs ih =>
    rw [List.flatMap_cons, List.append_assoc, readChunks_skip _ _ _ _ _ _ (heven c (by simp)),
      ih _ (fun d hd => heven d (by simp [hd])), List.length_cons, Nat.add_assoc, Nat.add_comm 1]

theorem readSamples_append (n i : ℕ) (bytes rest : List UInt8) (h : bytes.length = 2 * n) :
    readSamples locals n i ⟨bytes ++ rest, true⟩ = samples bytes := by
  induction n generalizing i bytes with
  | zero =>
    obtain rfl := List.length_eq_zero_iff.mp h
    rfl
  | succ n ih =>
    match bytes, h with
    | b₀ :: b₁ :: bytes, h =>
      have hread := ByteStream.read_append (locals.val i) [b₀, b₁] (bytes ++ rest)
        (show [b₀, b₁].length = 2 from rfl)
      change (toInt16 (leValue (ByteStream.read 2 _ ⟨[b₀, b₁] ++ (bytes ++ rest), true⟩).1) : ℚ) / 32768 ::
        readSamples locals n (i + 1) (ByteStream.read 2 _ ⟨[b₀, b₁] ++ (bytes ++ rest), true⟩).2 = _
      have hlen : bytes.length = 2 * n := by simp only [List.length_cons] at h; omega
      rw [hread, ih _ _ hlen]
      rfl

theorem toInt32_of_lt {n : ℕ} (h : n < 2 ^ 31) : toInt32 n = n := by
  unfold toInt32
  rw [Nat.mod_eq_of_lt (by omega), if_pos h]

theorem intMul_of_lt {a b : ℕ} (h : a * b < 2 ^ 31) : intMul a b = .ok ((a * b : ℕ) : ℤ) := by
  unfold intMul
  rw [if_pos]
  · push_cast
    rfl
  · have hlt : ((a * b : ℕ) : ℤ) < 2 ^ 31 := by exact_mod_cast h
    push_cast at hlt
    have hnonneg : (0 : ℤ) ≤ a * b := by positivity
    exact ⟨by omega, hlt⟩

theorem ok_bind {α β : Type} (a : α) (next : α → Except Fault β) :
    (Except.ok a >>= next) = next a := rfl

theorem readData_frames {channels chunkSize : ℕ} (sampleRate : ℕ) (f : ByteStream) (hpos : 0 < channels)
    (hlt : channels < 2 ^ 16) (hsize : chunkSize < 2 ^ 32) :
    readData locals ⟨sampleRate, channels, 16⟩ chunkSize f wav =
      .ok (true, ⟨readSamples locals (chunkSize / (2 * channels) * channels) 0 f, toInt32 sampleRate, channels, 16⟩) := by
  set frames := chunkSize / (2 * channels) with hframes
  have hle : frames * (2 * channels) ≤ chunkSize := Nat.div_mul_le_self _ _
  have htotal : frames * channels < 2 ^ 31 := by
    have htwice : frames * (2 * channels) = 2 * (frames * channels) := by ring
    omega
  have hcount : frames < 2 ^ 31 := lt_of_le_of_lt (Nat.le_mul_of_pos_right _ hpos) htotal
  have hblock : ((channels * 16 : ℕ) : ℤ).tdiv 8 = ((2 * channels : ℕ) : ℤ) := by
    rw [Int.tdiv_eq_ediv_of_nonneg (by positivity)]
    omega
  have hblock0 : ((2 * channels : ℕ) : ℤ) ≠ 0 := by omega
  have hdiv : uintDiv chunkSize ((2 * channels : ℕ) : ℤ) = .ok frames := if_neg hblock0
  have hresize : resize wav.data ((frames * channels : ℕ) : ℤ) = .ok _ :=
    if_neg (not_lt.mpr (Int.natCast_nonneg _))
  simp only [readData, intMul_of_lt (show channels * 16 < 2 ^ 31 by omega), ok_bind, hblock, hdiv,
    toInt32_of_lt hcount, intMul_of_lt htotal, hresize, Int.toNat_natCast]
  rfl

theorem readData_sixteen {channels : ℕ} (sampleRate : ℕ) (hpos : 0 < channels) (hlt : channels < 2 ^ 16)
    (body rest : List UInt8) (hbody : body.length < 2 ^ 32) :
    readData locals ⟨sampleRate, channels, 16⟩ body.length ⟨body ++ rest, true⟩ wav =
      .ok (true, ⟨samples (body.take (body.length / (2 * channels) * (2 * channels))),
        toInt32 sampleRate, channels, 16⟩) := by
  set frames := body.length / (2 * channels) with hframes
  have hle : frames * (2 * channels) ≤ body.length := Nat.div_mul_le_self _ _
  have hsplit := List.take_append_drop (frames * (2 * channels)) body
  have hsamples := readSamples_append locals (frames * channels) 0 (body.take (frames * (2 * channels)))
    (body.drop (frames * (2 * channels)) ++ rest) (by rw [List.length_take, Nat.min_eq_left hle]; ring)
  rw [← List.append_assoc, hsplit] at hsamples
  rw [readData_frames locals wav sampleRate _ hpos hlt hbody, hsamples]

end Loop

section Recordings

variable (locals : Locals) (wav : WavFile)

theorem readFmt_append (fmt : FmtChunk) (rest : List UInt8) :
    readFmt locals ⟨leBytes 4 fmt.body.length ++ (fmt.body ++ rest), true⟩ =
      (⟨fmt.sampleRate, fmt.channels, 16⟩, ⟨rest, true⟩) := by
  have hsize : leValue (leBytes 4 fmt.body.length) = 16 + fmt.extra.length := by
    rw [fmt.body_length]
    exact leValue_leBytes 4 _ fmt.extra_lt
  have hchannels : leValue (leBytes 2 fmt.channels) = fmt.channels := leValue_leBytes 2 _ fmt.channels_lt
  have hrate : leValue (leBytes 4 fmt.sampleRate) = fmt.sampleRate := leValue_leBytes 4 _ fmt.sampleRate_lt
  have hbits : leValue (leBytes 2 16) = 16 := rfl
  have hbody : fmt.body ++ rest = leBytes 2 fmt.audioFormat ++ (leBytes 2 fmt.channels ++
      (leBytes 4 fmt.sampleRate ++ (fmt.rates ++ (leBytes 2 16 ++ (fmt.extra ++ rest))))) := by
    simp only [FmtChunk.body, List.append_assoc]
  unfold readFmt
  simp only [ByteStream.read_append _ _ _ (leBytes_length _ _), hbody,
    ByteStream.ignore_append _ _ fmt.rates_length, hsize, hchannels, hrate, hbits]
  refine congrArg (Prod.mk _) ?_
  split
  · exact ByteStream.ignore_append _ _ (by omega)
  · have hextra : fmt.extra = [] := List.length_eq_zero_iff.mp (by omega)
    rw [hextra]
    rfl

theorem readWav_third (riffSize id rest : List UInt8) (hriff : riffSize.length = 4) (hid : id.length = 4) :
    readWav locals (riffId ++ (riffSize ++ (waveId ++ (id ++ rest)))) wav =
      if id ≠ fmtId then .ok (false, wav)
      else readChunks locals (readFmt locals ⟨rest, true⟩).1 0 (readFmt locals ⟨rest, true⟩).2 wav := by
  unfold readWav
  rw [ByteStream.read_append _ riffId _ (show riffId.length = 4 from rfl)]
  dsimp only
  rw [if_neg (not_not.mpr rfl), ByteStream.ignore_append _ _ hriff,
    ByteStream.read_append _ waveId _ (show waveId.length = 4 from rfl)]
  dsimp only
  rw [if_neg (not_not.mpr rfl), ByteStream.read_append _ id _ hid]

theorem readWav_header (riffSize rest : List UInt8) (fmt : FmtChunk) (hriff : riffSize.length = 4)
    (heven : fmt.extra.length % 2 = 0) :
    readWav locals (riffId ++ (riffSize ++ (waveId ++ (fmt.encode ++ rest)))) wav =
      readChunks locals ⟨fmt.sampleRate, fmt.channels, 16⟩ 0 ⟨rest, true⟩ wav := by
  have hfmt : fmt.encode ++ rest = fmtId ++ (leBytes 4 fmt.body.length ++ (fmt.body ++ rest)) := by
    have hpad : ¬fmt.body.length % 2 = 1 := by
      rw [fmt.body_length]
      omega
    unfold FmtChunk.encode encodeChunk
    rw [if_neg hpad, List.append_nil]
    simp only [List.append_assoc]
  rw [hfmt, readWav_third _ _ _ _ _ hriff rfl, if_neg (not_not.mpr rfl), readFmt_append]

theorem readWav_before (w : Recording) (hbefore : w.before ≠ []) :
    readWav locals w.encode wav = .ok (false, wav) := by
  obtain ⟨c, cs, hcs⟩ := List.exists_cons_of_ne_nil hbefore
  unfold Recording.encode
  rw [hcs, List.flatMap_cons]
  unfold Chunk.encode encodeChunk
  simp only [List.append_assoc]
  rw [readWav_third _ _ _ _ _ w.riffSize_length c.id_length, if_pos c.id_ne_fmt]

/-- With the format chunk first and even sizes up to the data chunk, only the rate is converted. -/
theorem readWav_first (w : Recording) (hbefore : w.before = []) (hfmt : w.fmt.extra.length % 2 = 0)
    (hbetween : ∀ c ∈ w.between, c.body.length % 2 = 0) :
    readWav locals w.encode wav =
      .ok (true, { w.contents with sampleRate := toInt32 w.fmt.sampleRate }) := by
  unfold Recording.encode
  rw [hbefore]
  change readWav locals (riffId ++ (w.riffSize ++ (waveId ++ (w.fmt.encode ++ _)))) wav = _
  rw [readWav_header _ _ _ _ _ w.riffSize_length hfmt, readChunks_skip_all _ _ _ _ _ _ hbetween,
    readChunks_chunk _ _ _ _ _ _ _ _ rfl w.data_lt, if_pos rfl,
    readData_sixteen _ _ _ w.fmt.channels_pos w.fmt.channels_lt _ _ w.data_lt]
  rfl

/-- A rate that fits the `int` is kept, and a data chunk of whole frames is read to its end. -/
theorem readWav_encode (w : Recording) (hbefore : w.before = []) (hrate : w.fmt.sampleRate < 2 ^ 31)
    (hfmt : w.fmt.extra.length % 2 = 0) (hbetween : ∀ c ∈ w.between, c.body.length % 2 = 0) :
    readWav locals w.encode wav = .ok (true, w.contents) ∧
      (2 * w.fmt.channels ∣ w.data.length → w.contents.data = samples w.data) := by
  constructor
  · rw [readWav_first locals wav w hbefore hfmt hbetween, toInt32_of_lt hrate]
    rfl
  · intro hwhole
    exact congrArg samples (w.frames_eq_data hwhole)

/-- Two stereo frames, with an even chunk before the data and an odd one after it. -/
def stereo : Recording where
  riffSize := [64, 0, 0, 0]
  before := []
  fmt :=
    { audioFormat := 1, channels := 2, sampleRate := 16000, rates := [0, 250, 0, 0, 4, 0], extra := [], pad := 0
      channels_pos := by decide, channels_lt := by decide, sampleRate_lt := by decide
      rates_length := rfl, extra_lt := by decide }
  between :=
    [{ id := [76, 73, 83, 84], body := [1, 2], pad := 0, id_length := rfl
       id_ne_fmt := by decide, id_ne_data := by decide, body_lt := by decide }]
  data := [0, 64, 0, 192, 1, 0, 255, 255]
  dataPad := 0
  after := [76, 73, 83, 84, 1, 0, 0, 0, 7, 0]
  riffSize_length := rfl
  data_lt := by decide

def zeroLocals : Locals where
  buf _ := 0
  fmtChunkSize _ := 0
  audioFormat _ := 0
  channels _ := 0
  sampleRate _ := 0
  bitsPerSample _ := 0
  chunkSize _ _ := 0
  val _ _ := 0

theorem readWav_encode_stereo :
    readWav zeroLocals stereo.encode ⟨[], 0, 0, 0⟩ = .ok (true, stereo.contents) ∧
      stereo.contents.data = samples stereo.data :=
  (readWav_encode zeroLocals ⟨[], 0, 0, 0⟩ stereo rfl (by decide) rfl (by decide)).imp_right
    (fun h => h ⟨2, rfl⟩)

def junkFirst : Recording :=
  { stereo with
    riffSize := [72, 0, 0, 0]
    riffSize_length := rfl
    before := [{ id := [74, 85, 78, 75], body := [], pad := 0, id_length := rfl
                 id_ne_fmt := by decide, id_ne_data := by decide, body_lt := by decide }] }

def fast : Recording :=
  { stereo with fmt := { stereo.fmt with sampleRate := 2 ^ 31, sampleRate_lt := by decide } }

theorem junkFirst_refused :
    readWav zeroLocals junkFirst.encode ⟨[], 0, 0, 0⟩ = .ok (false, ⟨[], 0, 0, 0⟩) ∧
      readWav zeroLocals fast.encode ⟨[], 0, 0, 0⟩ =
        .ok (true, { fast.contents with sampleRate := -2 ^ 31 }) :=
  ⟨readWav_before zeroLocals _ junkFirst (List.cons_ne_nil _ _),
    readWav_first zeroLocals _ fast rfl rfl (by decide)⟩

end Recordings

end PyannoteCpp.WavReader

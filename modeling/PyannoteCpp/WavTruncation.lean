import PyannoteCpp.WavDataBranch
import PyannoteCpp.WavFormat

set_option autoImplicit false

/-!
# Truncated recordings

The header is read at fixed offsets and the chunks are walked from offset to
offset, so what the reader reaches in a file is stated on the file's bytes. The
loop over the samples does not look at the stream: from a data chunk that ends
early it takes values that are not in the file.
-/
namespace PyannoteCpp

namespace ByteStream

/-- The stream that has delivered the first `p` bytes; past the end it has failed. -/
def atOffset (content : List UInt8) (p : ℕ) : ByteStream := ⟨content.drop p, decide (p ≤ content.length)⟩

theorem atOffset_past {content : List UInt8} {p n : ℕ} (h : content.length < p) :
    atOffset content p = atOffset content (p + n) := by
  unfold atOffset
  rw [List.drop_eq_nil_of_le h.le, List.drop_eq_nil_of_le (by omega), decide_eq_false (by omega),
    decide_eq_false (by omega)]

theorem read_atOffset (n p : ℕ) (old : ℕ → UInt8) (content : List UInt8) :
    (read n old (atOffset content p)).2 = atOffset content (p + n) := by
  by_cases h : p ≤ content.length
  · have hgood : (atOffset content p).good = true := decide_eq_true h
    have hlen : n ≤ content.length - p ↔ p + n ≤ content.length := by omega
    unfold read
    rw [if_pos hgood]
    simp only [atOffset, List.drop_drop, List.length_drop, hlen]
  · have hbad : ¬(atOffset content p).good = true := by simpa [atOffset] using h
    unfold read
    rw [if_neg hbad]
    exact atOffset_past (not_le.mp h)

theorem ignore_atOffset (n p : ℕ) (content : List UInt8) :
    ignore n (atOffset content p) = atOffset content (p + n) := by
  by_cases h : p ≤ content.length
  · have hgood : (atOffset content p).good = true := decide_eq_true h
    have hlen : n ≤ content.length - p ↔ p + n ≤ content.length := by omega
    unfold ignore
    rw [if_pos hgood]
    simp only [atOffset, List.drop_drop, List.length_drop, hlen]
  · have hbad : ¬(atOffset content p).good = true := by simpa [atOffset] using h
    unfold ignore
    rw [if_neg hbad]
    exact atOffset_past (not_le.mp h)

theorem read_atOffset_bytes {n p : ℕ} (old : ℕ → UInt8) {content : List UInt8} (h : p + n ≤ content.length) :
    (read n old (atOffset content p)).1 = (content.drop p).take n := by
  have hlen : ((content.drop p).take n).length = n := by
    rw [List.length_take, List.length_drop]
    omega
  have hread := read_append old ((content.drop p).take n) ((content.drop p).drop n) hlen
  rw [List.take_append_drop] at hread
  unfold atOffset
  rw [decide_eq_true (by omega), hread]

theorem read_length (n : ℕ) (old : ℕ → UInt8) (f : ByteStream) : (read n old f).1.length = n := by
  unfold read
  split <;> simp

end ByteStream

namespace WavReader
open ByteStream

/-- The `n` bytes at offset `p` as a number, when the file has them all. -/
def field? (content : List UInt8) (p n : ℕ) : Option ℕ :=
  if p + n ≤ content.length then some (leValue ((content.drop p).take n)) else none

/-- The first data chunk among the chunks from offset `p` on. -/
def findData (content : List UInt8) (p : ℕ) : Option ℕ :=
  if p + 4 ≤ content.length then
    if (content.drop p).take 4 = dataId then some p
    else if p + 8 ≤ content.length then findData content (p + 8 + leValue ((content.drop (p + 4)).take 4))
    else none
  else none
  termination_by content.length - p
  decreasing_by omega

/-- The data chunk after a format chunk at the start of the file. -/
def dataOffset (content : List UInt8) : Option ℕ :=
  findData content (20 + max 16 (leValue ((content.drop 16).take 4)))

structure HeaderIds (content : List UInt8) : Prop where
  riff : content.take 4 = riffId
  wave : (content.drop 8).take 4 = waveId
  fmt : (content.drop 12).take 4 = fmtId

/-- Every field of the result and the sizes behind them come from bytes of the file, and every
sample from bytes inside the data chunk. -/
structure DecodedFrom (content : List UInt8) (wav : WavFile) : Prop where
  fmtChunkSize : (field? content 16 4).isSome
  channels : (field? content 22 2).map Nat.cast = some wav.channels
  sampleRate : (field? content 24 4).map toInt32 = some wav.sampleRate
  bitsPerSample : (field? content 34 2).map Nat.cast = some wav.bitsPerSample
  data : ∃ p chunkSize, dataOffset content = some p ∧ field? content (p + 4) 4 = some chunkSize ∧
    ∀ i : Fin wav.data.length, 2 * (i : ℕ) + 2 ≤ chunkSize ∧
      (field? content (p + 8 + 2 * i) 2).map (fun v => (toInt16 v : ℚ) / 32768) = some (wav.data.get i)

/-- The data chunk of sixteen-bit samples ends before its size, or before its last whole frame. -/
def Truncated (content : List UInt8) : Prop :=
  HeaderIds content ∧ ∃ p channels, dataOffset content = some p ∧ field? content 22 2 = some channels ∧
    0 < channels ∧ field? content 34 2 = some 16 ∧
    ¬∃ chunkSize, field? content (p + 4) 4 = some chunkSize ∧
      p + 8 + chunkSize / (2 * channels) * (2 * channels) ≤ content.length

theorem field?_some {content : List UInt8} {p n v : ℕ} :
    field? content p n = some v ↔ p + n ≤ content.length ∧ leValue ((content.drop p).take n) = v := by
  unfold field?
  split
  · simp [*]
  · simp [*]

theorem exists_of_bind {α β : Type} {x : Except Fault α} {next : α → Except Fault β} {b : β}
    (h : x >>= next = .ok b) : ∃ a, x = .ok a ∧ next a = .ok b := by
  cases x with
  | error e => cases h
  | ok a => exact ⟨a, rfl, h⟩

theorem leValue_take_lt (bytes : List UInt8) (n : ℕ) : leValue (bytes.take n) < 256 ^ n :=
  (leValue_lt _).trans_le (Nat.pow_le_pow_right (by omega) (List.length_take_le n bytes))

theorem leValue_read_lt (n : ℕ) (old : ℕ → UInt8) (f : ByteStream) : leValue (read n old f).1 < 256 ^ n :=
  (leValue_lt _).trans_eq (congrArg _ (read_length n old f))

section Loop

variable (locals : Locals) (fmt : FmtFields) (wav : WavFile)

theorem enterChunks_failed {content : List UInt8} (k : ℕ) {p : ℕ} (h : content.length < p) :
    enterChunks locals k (atOffset content p) = none := by
  have hbad : ¬(read 4 locals.buf (atOffset content p)).2.good = true := by
    rw [read_atOffset]
    simp only [atOffset, decide_eq_true_eq]
    omega
  rw [enterChunks, dif_neg hbad]

/-- The data branch is taken at the first data chunk, and nowhere when there is none. -/
theorem enterChunks_atOffset (content : List UInt8) (k p : ℕ) :
    (findData content p = none ∧ enterChunks locals k (atOffset content p) = none) ∨
      ∃ q turn, findData content p = some q ∧ q + 4 ≤ content.length ∧
        enterChunks locals k (atOffset content p) =
          some (leValue (read 4 (locals.chunkSize turn) (atOffset content (q + 4))).1,
            atOffset content (q + 8)) := by
  induction p using findData.induct content generalizing k with
  | case1 p hid hdata =>
    refine .inr ⟨p, k, ?_, hid, ?_⟩
    · rw [findData, if_pos hid, if_pos hdata]
    · have hgood : (read 4 locals.buf (atOffset content p)).2.good = true := by
        rw [read_atOffset]
        exact decide_eq_true hid
      rw [enterChunks, dif_pos hgood]
      simp only [read_atOffset, read_atOffset_bytes _ hid, hdata, if_true]
  | case2 p hid hdata hsize ih =>
    have hgood : (read 4 locals.buf (atOffset content p)).2.good = true := by
      rw [read_atOffset]
      exact decide_eq_true hid
    have hnext : findData content p =
        findData content (p + 8 + leValue ((content.drop (p + 4)).take 4)) := by
      rw [findData, if_pos hid, if_neg hdata, if_pos hsize]
    have hstep : enterChunks locals k (atOffset content p) = enterChunks locals (k + 1)
        (atOffset content (p + 8 + leValue ((content.drop (p + 4)).take 4))) := by
      rw [enterChunks, dif_pos hgood]
      simp only [read_atOffset, read_atOffset_bytes _ hid, hdata, if_false,
        read_atOffset_bytes _ (show p + 4 + 4 ≤ content.length by omega), ignore_atOffset]
    rw [hnext, hstep]
    exact ih (k + 1)
  | case3 p hid hdata hsize =>
    refine .inl ⟨by rw [findData, if_pos hid, if_neg hdata, if_neg hsize], ?_⟩
    have hgood : (read 4 locals.buf (atOffset content p)).2.good = true := by
      rw [read_atOffset]
      exact decide_eq_true hid
    -- the size was not read, so the stream has failed when the next id is asked for
    rw [enterChunks, dif_pos hgood]
    simp only [read_atOffset, read_atOffset_bytes _ hid, hdata, if_false, ignore_atOffset]
    have hfailed := fun n => enterChunks_failed locals (k + 1)
      (show content.length < p + 4 + 4 + n by omega)
    exact hfailed _
  | case4 p hid =>
    refine .inl ⟨by rw [findData, if_neg hid], ?_⟩
    have hbad : ¬(read 4 locals.buf (atOffset content p)).2.good = true := by
      rw [read_atOffset]
      simpa [atOffset] using hid
    rw [enterChunks, dif_neg hbad]

theorem readSamples_length (n i : ℕ) (f : ByteStream) : (readSamples locals n i f).length = n := by
  induction n generalizing i f with
  | zero => rfl
  | succ n ih => exact congrArg Nat.succ (ih _ _)

theorem readSamples_get (n i p : ℕ) (content : List UInt8) (j : ℕ) (hj : j < n)
    (h : p + 2 * j + 2 ≤ content.length) :
    (readSamples locals n i (atOffset content p))[j]? =
      some ((toInt16 (leValue ((content.drop (p + 2 * j)).take 2)) : ℚ) / 32768) := by
  induction n generalizing i p j with
  | zero => omega
  | succ n ih =>
    unfold readSamples
    cases j with
    | zero => simp only [List.getElem?_cons_zero, read_atOffset_bytes _ (show p + 2 ≤ content.length by omega), Nat.mul_zero, Nat.add_zero]
    | succ j =>
      have hstep := ih (i + 1) (p + 2) j (by omega) (by omega)
      rw [show p + 2 + 2 * j = p + 2 * (j + 1) by ring] at hstep
      simp only [List.getElem?_cons_succ, read_atOffset]
      exact hstep

theorem readData_true {chunkSize : ℕ} {f : ByteStream} {wav' : WavFile} (hch : fmt.channels < 2 ^ 16)
    (hsize : chunkSize < 2 ^ 32) :
    readData locals fmt chunkSize f wav = .ok (true, wav') ↔ fmt.bitsPerSample = 16 ∧ 0 < fmt.channels ∧
      wav' = ⟨readSamples locals (chunkSize / (2 * fmt.channels) * fmt.channels) 0 f, toInt32 fmt.sampleRate,
        fmt.channels, 16⟩ := by
  by_cases hbits : fmt.bitsPerSample = 16
  · by_cases hpos : 0 < fmt.channels
    · have hfmt : fmt = ⟨fmt.sampleRate, fmt.channels, 16⟩ := by rw [← hbits]
      rw [hfmt, readData_frames locals wav _ f hpos hch hsize]
      simp only [Except.ok.injEq, Prod.mk.injEq, true_and, hpos]
      exact eq_comm
    · have hzero : fmt.channels = 0 := by omega
      have hfault : readData locals fmt chunkSize f wav = .error .divisionByZero := by
        simp only [readData, hzero, hbits]
        rfl
      rw [hfault]
      simp [hpos]
  · refine iff_of_false (fun h => ?_) (fun h => hbits h.1)
    unfold readData at h
    obtain ⟨blockBits, -, h⟩ := exists_of_bind h
    obtain ⟨quotient, -, h⟩ := exists_of_bind h
    obtain ⟨total, -, h⟩ := exists_of_bind h
    obtain ⟨data, -, h⟩ := exists_of_bind h
    rw [if_neg hbits] at h
    cases h

end Loop

section Header

variable (locals : Locals) (wav : WavFile)

/-- The bytes of the format chunk, when the file is long enough to have them. -/
def fmtFields (content : List UInt8) : FmtFields :=
  ⟨leValue ((content.drop 24).take 4), leValue ((content.drop 22).take 2), leValue ((content.drop 34).take 2)⟩

theorem readFmt_past (content : List UInt8) :
    ∃ e, 36 ≤ e ∧ (readFmt locals (atOffset content 16)).2 = atOffset content e := by
  unfold readFmt
  simp only [read_atOffset, ignore_atOffset]
  split
  · exact ⟨_, Nat.le_add_right 36 _, rfl⟩
  · exact ⟨36, le_rfl, rfl⟩

theorem readFmt_atOffset {content : List UInt8} (h : 36 ≤ content.length) :
    readFmt locals (atOffset content 16) =
      (fmtFields content, atOffset content (20 + max 16 (leValue ((content.drop 16).take 4)))) := by
  unfold readFmt
  simp only [read_atOffset, ignore_atOffset, Nat.reduceAdd,
    read_atOffset_bytes _ (show 16 + 4 ≤ content.length by omega),
    read_atOffset_bytes _ (show 22 + 2 ≤ content.length by omega),
    read_atOffset_bytes _ (show 24 + 4 ≤ content.length by omega),
    read_atOffset_bytes _ (show 34 + 2 ≤ content.length by omega)]
  refine congrArg (Prod.mk _) ?_
  split
  · rw [max_eq_right (by omega)]
    exact congrArg _ (by omega)
  · rw [max_eq_left (by omega)]

theorem atOffset_zero (content : List UInt8) : (⟨content, true⟩ : ByteStream) = atOffset content 0 := by
  simp [atOffset]

theorem enterWav_ids {content : List UInt8} (hids : HeaderIds content) (h : 36 ≤ content.length) :
    enterWav locals content = (enterChunks locals 0
      (atOffset content (20 + max 16 (leValue ((content.drop 16).take 4))))).map
        (fun entry => (fmtFields content, entry)) := by
  have hriff := hids.riff
  have hwave := hids.wave
  have hfmt := hids.fmt
  unfold enterWav
  simp only [atOffset_zero, read_atOffset, ignore_atOffset, Nat.reduceAdd, List.drop_zero,
    read_atOffset_bytes _ (show 0 + 4 ≤ content.length by omega),
    read_atOffset_bytes _ (show 8 + 4 ≤ content.length by omega),
    read_atOffset_bytes _ (show 12 + 4 ≤ content.length by omega), hriff, hwave, hfmt,
    readFmt_atOffset locals h]
  simp

theorem readWav_ids {content : List UInt8} (hids : HeaderIds content) (h : 36 ≤ content.length) :
    readWav locals content wav = readChunks locals (fmtFields content) 0
      (atOffset content (20 + max 16 (leValue ((content.drop 16).take 4)))) wav := by
  rw [readWav_eq, enterWav_ids locals hids h, readChunks_eq]

theorem ids_of_enterWav {content : List UInt8} {entry : FmtFields × ℕ × ByteStream}
    (h : enterWav locals content = some entry) : HeaderIds content ∧ 36 ≤ content.length := by
  unfold enterWav at h
  simp only [atOffset_zero, read_atOffset, ignore_atOffset, Nat.reduceAdd] at h
  split at h
  · cases h
  split at h
  · cases h
  split at h
  · cases h
  obtain ⟨e, he, hstream⟩ := readFmt_past locals content
  rw [hstream] at h
  have hlen : 36 ≤ content.length := by
    by_contra hshort
    rw [enterChunks_failed locals 0 (show content.length < e by omega)] at h
    cases h
  simp only [read_atOffset_bytes _ (show 0 + 4 ≤ content.length by omega),
    read_atOffset_bytes _ (show 8 + 4 ≤ content.length by omega),
    read_atOffset_bytes _ (show 12 + 4 ≤ content.length by omega), not_not] at *
  exact ⟨⟨‹_›, ‹_›, ‹_›⟩, hlen⟩

theorem ids_of_readWav {content : List UInt8} {wav' : WavFile}
    (h : readWav locals content wav = .ok (true, wav')) : HeaderIds content ∧ 36 ≤ content.length := by
  rw [readWav_eq] at h
  cases hentry : enterWav locals content with
  | none =>
    rw [hentry] at h
    cases h
  | some entry => exact ids_of_enterWav locals hentry

theorem enterWav_atOffset {content : List UInt8} (hids : HeaderIds content) (hlen : 36 ≤ content.length) :
    (dataOffset content = none ∧ enterWav locals content = none) ∨
      ∃ p turn, dataOffset content = some p ∧ p + 4 ≤ content.length ∧ enterWav locals content =
        some (fmtFields content, leValue (read 4 (locals.chunkSize turn) (atOffset content (p + 4))).1,
          atOffset content (p + 8)) := by
  rw [enterWav_ids locals hids hlen]
  rcases enterChunks_atOffset locals content 0 (20 + max 16 (leValue ((content.drop 16).take 4))) with
    ⟨hnone, henter⟩ | ⟨p, turn, hp, hid, henter⟩
  · exact .inl ⟨hnone, by rw [henter]; rfl⟩
  · exact .inr ⟨p, turn, hp, hid, by rw [henter]; rfl⟩

/-- The result for a data chunk at `p` that is reached in the given turn of the loop. -/
def resultAt (content : List UInt8) (p turn : ℕ) : WavFile :=
  let chunkSize := leValue (read 4 (locals.chunkSize turn) (atOffset content (p + 4))).1
  let fmt := fmtFields content
  ⟨readSamples locals (chunkSize / (2 * fmt.channels) * fmt.channels) 0 (atOffset content (p + 8)),
    toInt32 fmt.sampleRate, fmt.channels, 16⟩

/-- A file with the ids and a whole header is accepted exactly at a data chunk of sixteen-bit samples. -/
theorem readWav_result {content : List UInt8} (hids : HeaderIds content) (hlen : 36 ≤ content.length) :
    (dataOffset content = none ∧ readWav locals content wav = .ok (false, wav)) ∨
      ∃ p turn, dataOffset content = some p ∧ ∀ wav', readWav locals content wav = .ok (true, wav') ↔
        (fmtFields content).bitsPerSample = 16 ∧ 0 < (fmtFields content).channels ∧
          wav' = resultAt locals content p turn := by
  rw [readWav_eq]
  rcases enterWav_atOffset locals hids hlen with ⟨hnone, henter⟩ | ⟨p, turn, hp, -, henter⟩
  · exact .inl ⟨hnone, by rw [henter]; rfl⟩
  · refine .inr ⟨p, turn, hp, fun wav' => ?_⟩
    rw [henter]
    exact readData_true locals _ wav (leValue_take_lt _ 2) (leValue_read_lt 4 _ _)

/-- The sample loop stays inside the file when the whole frames do. -/
theorem resultAt_decoded {content : List UInt8} (hlen : 36 ≤ content.length) {p : ℕ} (turn : ℕ)
    (hp : dataOffset content = some p) (hbits : (fmtFields content).bitsPerSample = 16)
    {chunkSize : ℕ} (hsize : field? content (p + 4) 4 = some chunkSize)
    (hfit : p + 8 + chunkSize / (2 * (fmtFields content).channels) * (2 * (fmtFields content).channels) ≤
      content.length) : DecodedFrom content (resultAt locals content p turn) := by
  obtain ⟨hsizeLen, hsizeVal⟩ := field?_some.mp hsize
  set channels := (fmtFields content).channels with hch
  set total := chunkSize / (2 * channels) * channels with htotal
  have hdouble : chunkSize / (2 * channels) * (2 * channels) = 2 * total := by ring
  have hle : 2 * total ≤ chunkSize := hdouble ▸ Nat.div_mul_le_self _ _
  have hdata : (resultAt locals content p turn).data = readSamples locals total 0 (atOffset content (p + 8)) := by
    unfold resultAt
    simp only [read_atOffset_bytes _ hsizeLen, hsizeVal, htotal, hch]
  refine ⟨?_, ?_, ?_, ?_, p, chunkSize, hp, hsize, fun i => ?_⟩
  · exact Option.isSome_iff_exists.mpr ⟨_, field?_some.mpr ⟨by omega, rfl⟩⟩
  · exact congrArg _ (field?_some.mpr ⟨by omega, rfl⟩)
  · exact congrArg _ (field?_some.mpr ⟨by omega, rfl⟩)
  · refine (congrArg _ (field?_some.mpr ⟨by omega, hbits⟩)).trans rfl
  · have hi : (i : ℕ) < total := i.isLt.trans_eq (by rw [hdata, readSamples_length])
    have hget := readSamples_get locals total 0 (p + 8) content i hi (by omega)
    refine ⟨by omega, ?_⟩
    rw [field?_some.mpr ⟨by omega, rfl⟩, Option.map_some, ← hget, ← hdata]
    exact List.getElem?_eq_getElem i.isLt

/-- Everything returned comes from bytes of the file unless the data chunk is cut short. -/
theorem readWav_decoded_iff (content : List UInt8) :
    (∀ wav', readWav locals content wav = .ok (true, wav') → DecodedFrom content wav') ↔
      ¬Truncated content := by
  constructor
  · rintro hdecoded ⟨hids, p, channels, hp, hch, hpos, hbits, hcut⟩
    obtain ⟨hbitsLen, hbitsVal⟩ := field?_some.mp hbits
    obtain ⟨-, rfl⟩ := field?_some.mp hch
    rcases readWav_result locals wav hids (by omega) with ⟨hnone, -⟩ | ⟨p', turn, hp', hread⟩
    · cases hp.symm.trans hnone
    cases hp.symm.trans hp'
    have hdec := hdecoded _ ((hread _).mpr ⟨hbitsVal, hpos, rfl⟩)
    obtain ⟨q, chunkSize, hq, hsize, hsamples⟩ := hdec.data
    cases hp.symm.trans hq
    obtain ⟨hsizeLen, hsizeVal⟩ := field?_some.mp hsize
    refine hcut ⟨chunkSize, hsize, ?_⟩
    set channels := leValue ((content.drop 22).take 2) with hch
    set total := chunkSize / (2 * channels) * channels with htotal
    have hdouble : chunkSize / (2 * channels) * (2 * channels) = 2 * total := by ring
    have hlength : (resultAt locals content p turn).data.length = total := by
      unfold resultAt
      simp only [readSamples_length, read_atOffset_bytes _ hsizeLen, hsizeVal]
      rfl
    rcases Nat.eq_zero_or_pos total with hzero | hsome
    · omega
    · -- the last sample lies in the file
      have hlast := (hsamples ⟨total - 1, by omega⟩).2
      obtain ⟨v, hv, -⟩ := Option.map_eq_some_iff.mp hlast
      have hin : p + 8 + 2 * (total - 1) + 2 ≤ content.length := (field?_some.mp hv).1
      omega
  · intro hwhole wav' h
    obtain ⟨hids, hlen⟩ := ids_of_readWav locals wav h
    rcases readWav_result locals wav hids hlen with ⟨-, hnone⟩ | ⟨p, turn, hp, hread⟩
    · cases hnone.symm.trans h
    obtain ⟨hbits, hpos, rfl⟩ := (hread _).mp h
    have hfits : ∃ chunkSize, field? content (p + 4) 4 = some chunkSize ∧ p + 8 + chunkSize /
        (2 * (fmtFields content).channels) * (2 * (fmtFields content).channels) ≤ content.length := by
      by_contra hcut
      exact hwhole ⟨hids, p, _, hp, field?_some.mpr ⟨by omega, rfl⟩, hpos, field?_some.mpr ⟨by omega, hbits⟩, hcut⟩
    obtain ⟨chunkSize, hsize, hfit⟩ := hfits
    exact resultAt_decoded locals hlen turn hp hbits hsize hfit

/-- One frame of two is there; a data chunk of four bytes is declared. -/
def cutShort : List UInt8 :=
  riffId ++ [0, 0, 0, 0] ++ waveId ++ fmtId ++ leBytes 4 16 ++ leBytes 2 1 ++ leBytes 2 1 ++ leBytes 4 16000 ++
    [0, 125, 0, 0, 2, 0] ++ leBytes 2 16 ++ dataId ++ leBytes 4 4 ++ [0, 64]

theorem dataOffset_cutShort : dataOffset cutShort = some 36 := by
  unfold dataOffset
  rw [findData, if_pos (by decide), if_pos (by decide)]
  rfl

/-- The second sample of the truncated recording is what the variable happened to hold. -/
theorem cutShort_invented :
    readWav { zeroLocals with val := fun _ _ => 1 } cutShort ⟨[], 0, 0, 0⟩ =
        .ok (true, ⟨[1 / 2, 257 / 32768], 16000, 1, 16⟩) ∧
      ¬DecodedFrom cutShort ⟨[1 / 2, 257 / 32768], 16000, 1, 16⟩ := by
  constructor
  · have hsamples : readSamples { zeroLocals with val := fun _ _ => 1 } 2 0 (atOffset cutShort 44) =
        [1 / 2, 257 / 32768] := by decide +kernel
    rw [readWav_ids _ _ ⟨rfl, rfl, rfl⟩ (by decide), readChunks, dif_pos (by decide)]
    change readData _ ⟨16000, 1, 16⟩ 4 (atOffset cutShort 44) _ = _
    rw [readData_frames _ _ _ _ (by decide) (by decide) (by decide)]
    change Except.ok (true, (⟨readSamples _ 2 0 _, 16000, 1, 16⟩ : WavFile)) = _
    rw [hsamples]
  · intro hdec
    obtain ⟨p, chunkSize, hp, -, hsamples⟩ := hdec.data
    cases dataOffset_cutShort.symm.trans hp
    have hsecond := (hsamples ⟨1, by decide⟩).2
    cases hsecond

end Header

end WavReader
end PyannoteCpp

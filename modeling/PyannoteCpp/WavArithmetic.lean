import PyannoteCpp.WavTruncation

set_option autoImplicit false

/-!
# The arithmetic on the header

Three fields of the header meet in the length of the sample vector. The depth is
looked at after they have, so a header that is about to be refused can still
divide by zero, overflow or ask for a negative length.
-/
namespace PyannoteCpp.WavReader
open ByteStream

def numSamples (fmt : FmtFields) (chunkSize : ℕ) : ℕ := chunkSize / (fmt.channels * fmt.bitsPerSample / 8)

/-- Every operation of the data branch gives the number that it stands for. -/
structure WellDefined (fmt : FmtFields) (chunkSize : ℕ) : Prop where
  blockBits : intMul fmt.channels fmt.bitsPerSample = .ok ((fmt.channels * fmt.bitsPerSample : ℕ) : ℤ)
  quotient : uintDiv chunkSize (((fmt.channels * fmt.bitsPerSample : ℕ) : ℤ).tdiv 8) = .ok (numSamples fmt chunkSize)
  count : toInt32 (numSamples fmt chunkSize) = numSamples fmt chunkSize
  total : intMul (numSamples fmt chunkSize) fmt.channels = .ok ((numSamples fmt chunkSize * fmt.channels : ℕ) : ℤ)
  length : ∀ data, ∃ data', resize data ((numSamples fmt chunkSize * fmt.channels : ℕ) : ℤ) = .ok data'

/-- A frame has at least a byte, and its bits and the samples of the chunk fit an `int`. -/
def Fits (fmt : FmtFields) (chunkSize : ℕ) : Prop :=
  8 ≤ fmt.channels * fmt.bitsPerSample ∧ fmt.channels * fmt.bitsPerSample < 2 ^ 31 ∧
    numSamples fmt chunkSize * fmt.channels < 2 ^ 31

section Branch

variable {fmt : FmtFields} {chunkSize : ℕ}

theorem tdiv_eight (n : ℕ) : (n : ℤ).tdiv 8 = ((n / 8 : ℕ) : ℤ) := by
  rw [Int.tdiv_eq_ediv_of_nonneg (Int.natCast_nonneg n)]
  omega

theorem toInt32_of_ge {n : ℕ} (hn : n < 2 ^ 32) (h : 2 ^ 31 ≤ n) : toInt32 n < 0 := by
  unfold toInt32
  rw [Nat.mod_eq_of_lt hn, if_neg (not_lt.mpr h)]
  omega

theorem channels_pos (h : 8 ≤ fmt.channels * fmt.bitsPerSample) : 0 < fmt.channels :=
  Nat.pos_of_mul_pos_right (show 0 < fmt.channels * fmt.bitsPerSample by omega)

theorem wellDefined_of_fits (h : Fits fmt chunkSize) : WellDefined fmt chunkSize := by
  obtain ⟨hblock, hbits, htotal⟩ := h
  have hpos := channels_pos hblock
  have hcount : numSamples fmt chunkSize < 2 ^ 31 := (Nat.le_mul_of_pos_right _ hpos).trans_lt htotal
  have hdivisor : ((fmt.channels * fmt.bitsPerSample / 8 : ℕ) : ℤ) ≠ 0 := by omega
  refine ⟨intMul_of_lt hbits, ?_, toInt32_of_lt hcount, intMul_of_lt htotal, fun data => ?_⟩
  · rw [tdiv_eight]
    exact if_neg hdivisor
  · exact ⟨_, if_neg (not_lt.mpr (Int.natCast_nonneg _))⟩

theorem readData_of_wellDefined (h : WellDefined fmt chunkSize) (locals : Locals) (f : ByteStream) (wav : WavFile) :
    ∃ result, readData locals fmt chunkSize f wav = .ok result := by
  obtain ⟨data, hdata⟩ := h.length wav.data
  have hbits := h.blockBits
  have htotal := h.total
  push_cast at hbits htotal
  have hquotient := h.quotient
  push_cast at hquotient
  push_cast at hdata
  simp only [readData, hbits, ok_bind, hquotient, h.count, htotal, hdata]
  split
  · exact ⟨_, rfl⟩
  · exact ⟨_, rfl⟩

theorem fits_of_readData {locals : Locals} {f : ByteStream} {wav : WavFile} {result : Bool × WavFile}
    (hsize : chunkSize < 2 ^ 32) (h : readData locals fmt chunkSize f wav = .ok result) : Fits fmt chunkSize := by
  unfold readData at h
  obtain ⟨blockBits, hbits, h⟩ := exists_of_bind h
  obtain ⟨quotient, hquotient, h⟩ := exists_of_bind h
  obtain ⟨total, htotal, h⟩ := exists_of_bind h
  obtain ⟨data, hdata, -⟩ := exists_of_bind h
  unfold intMul at hbits htotal
  unfold uintDiv at hquotient
  unfold resize at hdata
  split at hbits
  case isFalse => cases hbits
  cases hbits
  rename_i hrange
  rw [← Nat.cast_mul, tdiv_eight] at hquotient
  split at hquotient
  case isTrue => cases hquotient
  cases hquotient
  rename_i hdivisor
  split at htotal
  case isFalse => cases htotal
  cases htotal
  rename_i htotal
  split at hdata
  case isTrue => cases hdata
  rename_i hlength
  rw [← Nat.cast_mul] at hrange
  have hblock : 8 ≤ fmt.channels * fmt.bitsPerSample := by omega
  have hlt : fmt.channels * fmt.bitsPerSample < 2 ^ 31 := by exact_mod_cast hrange.2
  have hpos : (0 : ℤ) < fmt.channels := by exact_mod_cast channels_pos hblock
  change ¬toInt32 (numSamples fmt chunkSize) * (fmt.channels : ℤ) < 0 at hlength
  change _ ∧ toInt32 (numSamples fmt chunkSize) * (fmt.channels : ℤ) < 2 ^ 31 at htotal
  -- a count that wrapped is negative, and a channel or more keeps it so
  have hcount : numSamples fmt chunkSize < 2 ^ 31 := by
    by_contra hwrap
    exact hlength (mul_neg_of_neg_of_pos
      (toInt32_of_ge ((Nat.div_le_self _ _).trans_lt hsize) (not_lt.mp hwrap)) hpos)
  rw [toInt32_of_lt hcount] at htotal
  exact ⟨hblock, hlt, by exact_mod_cast htotal.2⟩

theorem wellDefined_iff_fits (hsize : chunkSize < 2 ^ 32) : WellDefined fmt chunkSize ↔ Fits fmt chunkSize := by
  constructor
  · intro h
    obtain ⟨result, hresult⟩ := readData_of_wellDefined h zeroLocals ⟨[], true⟩ ⟨[], 0, 0, 0⟩
    exact fits_of_readData hsize hresult
  · exact wellDefined_of_fits

theorem Fits.mono {size size' : ℕ} (hle : size ≤ size') (h : Fits fmt size') : Fits fmt size := by
  obtain ⟨hblock, hbits, htotal⟩ := h
  exact ⟨hblock, hbits, (Nat.mul_le_mul_right _ (Nat.div_le_div_right hle)).trans_lt htotal⟩

end Branch

section File

theorem leValue_map_mono {old old' : ℕ → UInt8} (h : ∀ i, old i ≤ old' i) (idx : List ℕ) :
    leValue (idx.map old) ≤ leValue (idx.map old') := by
  induction idx with
  | nil => rfl
  | cons i idx ih =>
    have hi := UInt8.le_iff_toNat_le.mp (h i)
    simp only [List.map_cons, leValue]
    omega

/-- What a number is read as grows with what the variable held. -/
theorem leValue_read_mono {old old' : ℕ → UInt8} (h : ∀ i, old i ≤ old' i) (n : ℕ) (f : ByteStream) :
    leValue (read n old f).1 ≤ leValue (read n old' f).1 := by
  unfold ByteStream.read
  split
  · refine leValue_map_mono (fun i => ?_) _
    rw [List.getD_eq_getElem?_getD, List.getD_eq_getElem?_getD]
    cases (f.rest.take n)[i]? with
    | none => exact h i
    | some b => exact Nat.le_refl _
  · exact leValue_map_mono h _

/-- The size of the data chunk at `p`, where the file ends inside it the largest it can be read as. -/
def largestSize (content : List UInt8) (p : ℕ) : ℕ := leValue (read 4 (fun _ => 255) (atOffset content (p + 4))).1

/-- The numbers of the header that reach the data branch fit. -/
def HeaderFits (content : List UInt8) : Prop :=
  HeaderIds content → ∀ p, dataOffset content = some p → Fits (fmtFields content) (largestSize content p)

theorem header_of_dataOffset {content : List UInt8} {p : ℕ} (h : dataOffset content = some p) :
    36 ≤ content.length := by
  unfold dataOffset at h
  rw [findData] at h
  split at h
  · omega
  · cases h

/-- The reader's arithmetic is well defined, whatever the variables held, exactly on headers that fit. -/
theorem readWav_wellDefined_iff (content : List UInt8) :
    (∀ locals wav, (∃ result, readWav locals content wav = .ok result) ∧
      ∀ fmt chunkSize f, enterWav locals content = some (fmt, chunkSize, f) → WellDefined fmt chunkSize) ↔
      HeaderFits content := by
  constructor
  · intro h hids p hp
    let locals : Locals := { zeroLocals with chunkSize := fun _ _ => 255 }
    rcases enterWav_atOffset locals hids (header_of_dataOffset hp) with ⟨hnone, -⟩ | ⟨q, turn, hq, -, henter⟩
    · cases hp.symm.trans hnone
    · cases hp.symm.trans hq
      exact (wellDefined_iff_fits (leValue_read_lt 4 _ _)).mp ((h locals ⟨[], 0, 0, 0⟩).2 _ _ _ henter)
  · intro h locals wav
    have hentry : ∀ fmt chunkSize f, enterWav locals content = some (fmt, chunkSize, f) →
        WellDefined fmt chunkSize := by
      intro fmt chunkSize f hentry
      obtain ⟨hids, hlen⟩ := ids_of_enterWav locals hentry
      rcases enterWav_atOffset locals hids hlen with ⟨-, hnone⟩ | ⟨p, turn, hp, -, henter⟩
      · cases hnone.symm.trans hentry
      · cases henter.symm.trans hentry
        have hle := leValue_read_mono (fun i => show locals.chunkSize turn i ≤ 255 from
          UInt8.le_iff_toNat_le.mpr (by have := (locals.chunkSize turn i).toNat_lt; change _ ≤ 255; omega)) 4
          (atOffset content (p + 4))
        exact wellDefined_of_fits ((h hids p hp).mono hle)
    refine ⟨?_, hentry⟩
    rw [readWav_eq]
    cases hcase : enterWav locals content with
    | none => exact ⟨_, rfl⟩
    | some entry => exact readData_of_wellDefined (hentry _ _ _ hcase) _ _ _

/-- A file that ends after the header of its data chunk. -/
def headerOf (channels bits size : ℕ) : List UInt8 :=
  riffId ++ [0, 0, 0, 0] ++ waveId ++ fmtId ++ leBytes 4 16 ++ leBytes 2 1 ++ leBytes 2 channels ++
    leBytes 4 16000 ++ [0, 0, 0, 0, 0, 0] ++ leBytes 2 bits ++ dataId ++ leBytes 4 size

/-- No channels, a frame of too many bits, and a count that no `int` holds. -/
theorem headerOf_faults :
    readWav zeroLocals (headerOf 0 16 4) ⟨[], 0, 0, 0⟩ = .error .divisionByZero ∧
      readWav zeroLocals (headerOf 65535 65535 4) ⟨[], 0, 0, 0⟩ = .error .overflow ∧
      readWav zeroLocals (headerOf 1 8 (2 ^ 31)) ⟨[], 0, 0, 0⟩ = .error .lengthError := by
  refine ⟨?_, ?_, ?_⟩
  · rw [readWav_ids _ _ ⟨rfl, rfl, rfl⟩ (by decide), readChunks, dif_pos (by decide)]
    change readData _ ⟨16000, 0, 16⟩ 4 _ _ = _
    rfl
  · rw [readWav_ids _ _ ⟨rfl, rfl, rfl⟩ (by decide), readChunks, dif_pos (by decide)]
    change readData _ ⟨16000, 65535, 65535⟩ 4 _ _ = _
    rfl
  · rw [readWav_ids _ _ ⟨rfl, rfl, rfl⟩ (by decide), readChunks, dif_pos (by decide)]
    change readData _ ⟨16000, 1, 8⟩ (leValue [0, 0, 0, 128]) _ _ = _
    have hsize : leValue [0, 0, 0, 128] = 2 ^ 31 := by decide
    simp [readData, hsize, intMul, uintDiv, toInt32, resize, ok_bind]

end File

end PyannoteCpp.WavReader

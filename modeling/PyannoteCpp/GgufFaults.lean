import PyannoteCpp.GgufMemory

set_option autoImplicit false

/-!
# The files that the GGUF reader does not survive

A file ends the reader with a failed assertion, a division by zero, an exception or
overrun memory exactly when it is offending, which is said in terms of its bytes.
-/
namespace PyannoteCpp.Gguf
open PrefixGrammar

section Metadata

variable (lib : CxxLibrary) (locals : ℕ → TensorLocals)

/-- The pair that the alignment is read from, if its index fits an `int`, is not one value of type `uint32`. -/
def AlignmentFault (kvs : List GgufKv) : Prop :=
  ∃ i, ggufFindKey kvs ggufKeyGeneralAlignment = some i ∧ toInt32 i ≠ -1 ∧
    ¬(0 ≤ toInt32 i ∧ ∃ kv, kvs[(toInt32 i).toNat]? = some kv ∧ kv.type = .uint32 ∧ kv.data.length = 4)

theorem ggufGetValU32_ok {kv : GgufKv} (htype : kv.type = .uint32) (hone : kv.data.length = 4) :
    ggufGetValU32 kv = .ok (leValue kv.data) := by
  have hsize : GgufType.size .uint32 = 4 := rfl
  have hne : kv.getNe = .ok 1 := by
    unfold GgufKv.getNe
    simp [htype, hsize, hone]
  have hval : kv.getVal 0 = .ok kv.data := by
    unfold GgufKv.getVal
    simp [htype, hsize, hone, List.take_of_length_le]
  unfold ggufGetValU32
  rw [hne, hval]
  simp [htype, bind, Except.bind, pure, Except.pure]

theorem ggufGetValU32_error {kv : GgufKv} (h : ¬(kv.type = .uint32 ∧ kv.data.length = 4)) :
    ∃ f, ggufGetValU32 kv = .error f := by
  cases hrun : ggufGetValU32 kv with
  | error f => exact ⟨f, rfl⟩
  | ok v =>
    unfold ggufGetValU32 at hrun
    obtain ⟨ne, hne, hrun⟩ := except_bind_ok.mp hrun
    by_cases hone : ne = 1
    · by_cases htype : kv.type = .uint32
      · have hsize : GgufType.size .uint32 = 4 := rfl
        unfold GgufKv.getNe at hne
        rw [htype, hsize, if_neg (by decide), if_neg (by decide)] at hne
        refine absurd ⟨htype, ?_⟩ h
        split at hne
        · cases hne
        · split at hne
          · have hcount := Except.ok.inj hne
            omega
          · cases hne
      · rw [if_neg (not_not.mpr hone), if_pos htype] at hrun
        cases hrun
    · rw [if_pos hone] at hrun
      cases hrun

theorem kvAlignment_error_iff (kvs : List GgufKv) : (∃ f, kvAlignment kvs = .error f) ↔ AlignmentFault kvs := by
  unfold kvAlignment AlignmentFault
  split
  · rename_i hnone
    refine iff_of_false ?_ ?_
    · rintro ⟨_, h⟩
      cases h
    · rintro ⟨i, h, -⟩
      cases hnone.symm.trans h
  · rename_i i hi
    have hsame : ∀ j, ggufFindKey kvs ggufKeyGeneralAlignment = some j ↔ j = i := fun j =>
      ⟨fun h => Option.some.inj (h.symm.trans hi), fun h => h ▸ hi⟩
    simp only [hsame, exists_eq_left]
    split_ifs with hdefault hneg
    · exact iff_of_false (by rintro ⟨_, h⟩; cases h) (fun h => h.1 hdefault)
    · exact iff_of_true ⟨_, rfl⟩ ⟨hdefault, fun h => by omega⟩
    · rw [and_iff_right hdefault]
      split
      · rename_i hnone
        refine iff_of_true ⟨_, rfl⟩ ?_
        rintro ⟨-, kv, h, -⟩
        cases hnone.symm.trans h
      · rename_i kv hkv
        by_cases hvalue : kv.type = .uint32 ∧ kv.data.length = 4
        · rw [ggufGetValU32_ok hvalue.1 hvalue.2]
          exact iff_of_false (by rintro ⟨_, h⟩; cases h) (fun h => h ⟨by omega, kv, hkv, hvalue⟩)
        · refine iff_of_true (ggufGetValU32_error hvalue) ?_
          rintro ⟨-, kv', h, hother⟩
          cases hkv.symm.trans h
          exact hvalue hother

theorem readAlignment_isFault_iff (kvs : List GgufKv) :
    (∃ e, Stop.IsFault e ∧ readAlignment kvs = .error e) ↔ AlignmentFault kvs := by
  rw [← kvAlignment_error_iff]
  unfold readAlignment
  split
  · rename_i f hf
    exact iff_of_true ⟨_, isFault_fault f, rfl⟩ ⟨f, hf⟩
  · rename_i alignment halignment
    refine iff_of_false ?_ (by rintro ⟨f, h⟩; cases halignment.symm.trans h)
    rintro ⟨e, he, h⟩
    split at h
    · cases h
    · cases h
      exact not_isFault _ he

abbrev Metadata := Header × List GgufKv × ℕ × List TensorInfo

/-- Everything up to the data section. -/
def MetaFront (parsed : Metadata) (front : List UInt8) : Prop :=
  ∃ header kvs infos, HeaderFront parsed.1 header ∧ Turns (KvFront lib) parsed.1.nKv [] parsed.2.1 kvs ∧
    readAlignment parsed.2.1 = .ok parsed.2.2.1 ∧
    Turns (InfoFront lib locals) parsed.1.nTensors [] parsed.2.2.2 infos ∧ front = header ++ (kvs ++ infos)

/-- Pairs up to one that the reader does not survive. -/
def PairsFault (n : ℕ) (front : List UInt8) : Prop :=
  ∃ m < n, ∃ kvs before bad, Turns (KvFront lib) m [] kvs before ∧ KvFault lib kvs bad ∧ front = before ++ bad

/-- Tensor infos up to one that the reader does not survive. -/
def InfosFault (n : ℕ) (front : List UInt8) : Prop :=
  ∃ m < n, ∃ infos before bad, Turns (InfoFront lib locals) m [] infos before ∧ InfoFault lib infos bad ∧
    front = before ++ bad

/-- A header, then an offending pair; or all pairs, with an alignment that is no number; or all pairs and then an
offending tensor info. -/
def MetaFault (front : List UInt8) : Prop :=
  ∃ h header body, HeaderFront h header ∧ front = header ++ body ∧
    (PairsFault lib h.nKv body ∨ ∃ kvs pairs rest, Turns (KvFront lib) h.nKv [] kvs pairs ∧ body = pairs ++ rest ∧
      (AlignmentFault kvs ∧ rest = [] ∨
        ∃ alignment, readAlignment kvs = .ok alignment ∧ InfosFault lib locals h.nTensors rest))

theorem accepts_readMeta : Accepts (readMeta lib locals) (MetaFront lib locals) := by
  unfold readMeta
  refine (accepts_readHeader.bind fun header => (accepts_turns (accepts_readKv lib) header.nKv []).bind fun kvs =>
    (accepts_lift (readAlignment kvs)).bind fun alignment =>
    (accepts_turns (accepts_readTensorInfo lib locals) header.nTensors []).map fun infos =>
      (header, kvs, alignment, infos)).congr fun parsed front => ?_
  constructor
  · rintro ⟨h, header, _, hh, ⟨kvs, pairs, _, hk, ⟨alignment, _, _, ⟨ha, rfl⟩, ⟨infos, hi, rfl⟩, rfl⟩, rfl⟩, rfl⟩
    exact ⟨header, pairs, _, hh, hk, ha, hi, rfl⟩
  · obtain ⟨h, kvs, alignment, infos⟩ := parsed
    rintro ⟨header, pairs, tail, hh, hk, ha, hi, rfl⟩
    exact ⟨h, header, _, hh, ⟨kvs, pairs, _, hk, ⟨alignment, [], _, ⟨ha, rfl⟩, ⟨infos, hi, rfl⟩, rfl⟩, rfl⟩, rfl⟩

theorem stopsOn_readMeta : StopsOn Stop.IsFault (readMeta lib locals) (MetaFault lib locals) := by
  unfold readMeta
  refine (StopsOn.after accepts_readHeader safe_readHeader fun header =>
    StopsOn.bind (accepts_turns (accepts_readKv lib) header.nKv [])
      (stopsOn_turns (accepts_readKv lib) (stopsOn_readKv lib) header.nKv []) fun kvs =>
    StopsOn.bind (accepts_lift (readAlignment kvs)) (stopsOn_lift _ (readAlignment kvs)) fun alignment =>
    StopsOn.map (accepts_turns (accepts_readTensorInfo lib locals) header.nTensors [])
      (stopsOn_turns (accepts_readTensorInfo lib locals) (stopsOn_readTensorInfo lib locals) header.nTensors [])
      fun infos => (header, kvs, alignment, infos)).congr fun front => ?_
  simp only [readAlignment_isFault_iff]
  constructor
  · rintro ⟨h, header, body, hh, hbody, rfl⟩
    refine ⟨h, header, body, hh, rfl, ?_⟩
    rcases hbody with hpairs | ⟨kvs, pairs, tail, hk, htail, rfl⟩
    · exact .inl hpairs
    · refine .inr ⟨kvs, pairs, tail, hk, rfl, ?_⟩
      rcases htail with hbad | ⟨alignment, _, rest, ⟨ha, rfl⟩, hrest, rfl⟩
      · exact .inl hbad
      · exact .inr ⟨alignment, ha, hrest⟩
  · rintro ⟨h, header, body, hh, rfl, hbody⟩
    refine ⟨h, header, body, hh, ?_, rfl⟩
    rcases hbody with hpairs | ⟨kvs, pairs, tail, hk, rfl, htail⟩
    · exact .inl hpairs
    · refine .inr ⟨kvs, pairs, tail, hk, ?_, rfl⟩
      rcases htail with hbad | ⟨alignment, ha, hrest⟩
      · exact .inl hbad
      · exact .inr ⟨alignment, [], tail, ⟨ha, rfl⟩, hrest, rfl⟩

theorem infos_length {n : ℕ} {infos : List TensorInfo} {front : List UInt8}
    (h : Turns (InfoFront lib locals) n [] infos front) :
    infos.length = n ∧ infos.length ≤ vectorMax sizeofTensorInfo := by
  have hrun := h.invariant (m := 0) (I := fun k infos => infos.length = k ∧ infos.length ≤ vectorMax sizeofTensorInfo)
    ⟨rfl, Nat.zero_le _⟩ fun {m s t front} hs hstep => by
      obtain ⟨_, _, _, _, _, _, -, -, -, hroom, -, rfl, -⟩ := hstep
      rw [List.length_append, List.length_singleton]
      omega
  simpa using hrun

end Metadata

section Load

variable {lib : CxxLibrary} {locals : ℕ → TensorLocals} {params : InitParams} {content : List UInt8}

def contextOf (parsed : Metadata) (position size : ℕ) : GgufContext :=
  ⟨parsed.1.version, parsed.2.1, parsed.2.2.2, parsed.2.2.1, ggmlPad position parsed.2.2.1, size, none⟩

theorem makeContext_ok_iff {parsed : Metadata} {position : ℕ} {ctx : GgufContext} :
    makeContext parsed position = .ok ctx ↔ ggmlPad position parsed.2.2.1 ≤ int64Max ∧
      ∃ size, LaidOut parsed.2.2.1 0 parsed.2.2.2 size ∧ ctx = contextOf parsed position size := by
  obtain ⟨header, kvs, alignment, infos⟩ := parsed
  unfold makeContext
  dsimp only
  split_ifs with hseek
  · exact iff_of_false (by intro h; cases h) (fun h => by omega)
  · rw [and_iff_right (by omega)]
    refine Iff.trans except_bind_ok (exists_congr fun size => ?_)
    rw [dataSize_ok_iff (by decide)]
    exact and_congr_right' ⟨fun h => (Except.ok.inj h).symm, fun h => congrArg Except.ok h.symm⟩

theorem makeContext_safe {parsed : Metadata} {position : ℕ} {e : Stop} (h : makeContext parsed position = .error e) :
    ¬e.IsFault := by
  obtain ⟨header, kvs, alignment, infos⟩ := parsed
  unfold makeContext at h
  dsimp only at h
  split_ifs at h
  · cases h
    exact not_isFault _
  · rcases except_bind_error.mp h with hsize | ⟨_, -, hnever⟩
    · exact dataSize_safe hsize
    · cases hnever

/-- The bytes up to the data section end in an entry that the reader does not survive, or the blob of an otherwise
good file is requested with a size that wraps around. -/
def Offending (lib : CxxLibrary) (locals : ℕ → TensorLocals) (params : InitParams) (content : List UInt8) : Prop :=
  (∃ front rest, MetaFault lib locals front ∧ content = front ++ rest) ∨
    params.ctx = true ∧ params.noAlloc = false ∧ ∃ parsed front rest size, MetaFront lib locals parsed front ∧
      content = front ++ rest ∧ ggmlPad front.length parsed.2.2.1 ≤ int64Max ∧
      LaidOut parsed.2.2.1 0 parsed.2.2.2 size ∧
      PoolFault parsed.2.2.2.length size (content.length - ggmlPad front.length parsed.2.2.1)

theorem loadTensors_isFault_iff {noAlloc : Bool} {ctx : GgufContext} {rest : List UInt8}
    (hn : ctx.info.length ≤ vectorMax sizeofTensorInfo) (hsize : ctx.size < 2 ^ 64)
    (hempty : ctx.info = [] → ctx.size = 0) :
    (∃ e, Stop.IsFault e ∧ loadTensors noAlloc ctx rest = .error e) ↔
      noAlloc = false ∧ PoolFault ctx.info.length ctx.size rest.length := by
  have hmax : vectorMax sizeofTensorInfo = 26812128014112720 := by decide
  cases noAlloc with
  | true =>
    rw [loadTensors_noAlloc (by omega)]
    exact iff_of_false (by rintro ⟨_, -, h⟩; cases h) (by rintro ⟨h, -⟩; cases h)
  | false =>
    rw [and_iff_right rfl]
    unfold PoolFault
    rcases Nat.lt_or_ge (368 * ctx.info.length + ctx.size + 383) (2 ^ 64) with hfits | hwraps
    · rw [loadTensors_fits hfits]
      refine iff_of_false ?_ (fun h => by omega)
      rintro ⟨e, he, h⟩
      split at h
      · cases h
        exact not_isFault _ he
      · cases h
    · rw [and_iff_right hwraps]
      rcases Nat.lt_or_ge (ctx.size + 383) (2 ^ 64) with hsmall | hlarge
      · rw [loadTensors_pool_wraps (by omega) hsmall hwraps]
        exact iff_of_true ⟨_, isFault_fault _, rfl⟩ (.inl hsmall)
      · have hpos : 0 < ctx.info.length := by
          by_contra hzero
          have hnil := hempty (List.eq_nil_of_length_eq_zero (by omega))
          omega
        rw [loadTensors_blob_wraps (by omega) hsize hpos hlarge, or_iff_right (by omega)]

theorem ggufInit_isFault_iff : (∃ e, Stop.IsFault e ∧ ggufInitFromFileImpl lib locals params content = .error e) ↔
    Offending lib locals params content := by
  have hmeta := accepts_readMeta lib locals content
  unfold ggufInitFromFileImpl Offending
  rw [← stopsOn_readMeta lib locals content]
  constructor
  · rintro ⟨e, he, h⟩
    rcases except_bind_error.mp h with hmetaError | ⟨⟨parsed, rest⟩, hparsed, h⟩
    · exact .inl ⟨e, he, hmetaError⟩
    refine .inr ?_
    obtain ⟨front, hfront, hcontent⟩ := (hmeta parsed rest).mp hparsed
    have hposition : content.length - rest.length = front.length := by
      rw [hcontent, List.length_append, Nat.add_sub_cancel]
    dsimp only at h
    rw [hposition] at h
    rcases except_bind_error.mp h with hcontext | ⟨ctx, hcontext, h⟩
    · exact absurd he (makeContext_safe hcontext)
    obtain ⟨hseek, size, hlaid, rfl⟩ := makeContext_ok_iff.mp hcontext
    obtain ⟨_, _, _, -, -, -, hinfos, -⟩ := id hfront
    have hlength := (infos_length lib locals hinfos).2
    split at h
    · rename_i hctx
      obtain ⟨hno, hpool⟩ := (loadTensors_isFault_iff hlength (hlaid.total_lt (by decide)) (fun hnil => by
        change parsed.2.2.2 = [] at hnil
        rw [hnil] at hlaid
        exact hlaid.empty)).mp ⟨e, he, h⟩
      rw [List.length_drop] at hpool
      exact ⟨hctx, hno, parsed, front, rest, size, hfront, hcontent, hseek, hlaid, hpool⟩
    · cases h
  · rintro (⟨e, he, h⟩ | ⟨hctx, hno, parsed, front, rest, size, hfront, hcontent, hseek, hlaid, hpool⟩)
    · exact ⟨e, he, except_bind_error.mpr (.inl h)⟩
    · have hposition : content.length - rest.length = front.length := by
        rw [hcontent, List.length_append, Nat.add_sub_cancel]
      obtain ⟨_, _, _, -, -, -, hinfos, -⟩ := id hfront
      have hlength := (infos_length lib locals hinfos).2
      have hcontext := makeContext_ok_iff.mpr ⟨hseek, size, hlaid, rfl⟩
      have hload := (@loadTensors_isFault_iff params.noAlloc (contextOf parsed front.length size)
        (content.drop (ggmlPad front.length parsed.2.2.1)) hlength (hlaid.total_lt (by decide)) (fun hnil => by
        change parsed.2.2.2 = [] at hnil
        rw [hnil] at hlaid
        exact hlaid.empty)).mpr ⟨hno, by rwa [List.length_drop]⟩
      obtain ⟨e, he, h⟩ := hload
      refine ⟨e, he, except_bind_error.mpr (.inr ⟨(parsed, rest), (hmeta parsed rest).mpr ⟨front, hfront, hcontent⟩, ?_⟩)⟩
      dsimp only
      rw [hposition]
      refine except_bind_error.mpr (.inr ⟨_, hcontext, ?_⟩)
      rw [if_pos hctx]
      exact h

/-- The reader ends with a context or without one exactly on the files that are not offending. -/
theorem ggufInitFromFileImpl_returns_iff (lib : CxxLibrary) (locals : ℕ → TensorLocals) (params : InitParams)
    (content : List UInt8) :
    (∀ f, ggufInitFromFileImpl lib locals params content ≠ .error (.fault f)) ↔
      ¬Offending lib locals params content := by
  rw [← ggufInit_isFault_iff]
  constructor
  · rintro h ⟨e, he, hrun⟩
    cases e with
    | rejected reason => exact he
    | fault f => exact h f hrun
  · intro h f hrun
    exact h ⟨_, isFault_fault f, hrun⟩

def libstdcxx : CxxLibrary := ⟨2 ^ 62 - 1, le_rfl, by decide⟩

def zeroLocals : ℕ → TensorLocals := fun _ => ⟨none, false⟩

def headerBytes (nTensors nKv : ℕ) : List UInt8 :=
  ggufMagic ++ leBytes 4 ggufVersion ++ leBytes 8 nTensors ++ leBytes 8 nKv

/-- One pair: an empty key and a byte. -/
def emptyKeyFile : List UInt8 := headerBytes 0 1 ++ writeString [] ++ leBytes 4 GgufType.uint8.code ++ [0]

/-- One pair: the alignment as a byte. -/
def byteAlignmentFile : List UInt8 :=
  headerBytes 0 1 ++ writeString ggufKeyGeneralAlignment.bytes ++ leBytes 4 GgufType.uint8.code ++ [32]

/-- One pair: a string of a length that no string has. -/
def longStringFile : List UInt8 :=
  headerBytes 0 1 ++ writeString [107] ++ leBytes 4 GgufType.string.code ++ leBytes 8 (2 ^ 64 - 1)

/-- One tensor with 1 and 0 elements in its dimensions. -/
def zeroDimensionFile : List UInt8 :=
  headerBytes 1 0 ++ writeString [116] ++ leBytes 4 2 ++ leBytes 8 1 ++ leBytes 8 0

theorem small_files_fault :
    ggufInitFromFileImpl libstdcxx zeroLocals ⟨true, false⟩ emptyKeyFile = .error (.fault .assertion) ∧
      ggufInitFromFileImpl libstdcxx zeroLocals ⟨true, false⟩ byteAlignmentFile = .error (.fault .assertion) ∧
      ggufInitFromFileImpl libstdcxx zeroLocals ⟨true, false⟩ longStringFile = .error (.fault .lengthError) ∧
      ggufInitFromFileImpl libstdcxx zeroLocals ⟨true, false⟩ zeroDimensionFile = .error (.fault .divisionByZero) :=
  ⟨rfl, rfl, rfl, rfl⟩

end Load

end PyannoteCpp.Gguf

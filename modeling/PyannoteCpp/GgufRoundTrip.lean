import PyannoteCpp.GgufEncoding
import PyannoteCpp.GgufTable

set_option autoImplicit false

/-!
# Reading back what was written

The writer checks the offsets itself, so a written file needs nothing but pairs and
shapes that the reader takes, and an alignment on which both agree.
-/
namespace PyannoteCpp.Gguf
open PrefixGrammar

def GgmlTensor.bytes (t : GgmlTensor) : List UInt8 :=
  match t.data with
  | none => []
  | some data => (List.range t.nbytes).map data

section Data

variable {alignment : ℕ}

theorem exactPad_eq (x : ℕ) (hpos : 0 < alignment) :
    exactPad x alignment = x + (alignment - x % alignment) % alignment := by
  have hlt := Nat.mod_lt x hpos
  have hdiv := Nat.div_add_mod x alignment
  unfold exactPad
  rcases Nat.eq_zero_or_pos (x % alignment) with hzero | hmore
  · have hquotient : (x + alignment - 1) / alignment = x / alignment := by
      rw [show x + alignment - 1 = alignment - 1 + alignment * (x / alignment) by omega,
        Nat.add_mul_div_left _ _ hpos, Nat.div_eq_of_lt (by omega), Nat.zero_add]
    rw [hquotient, hzero, Nat.sub_zero, Nat.mod_self, Nat.mul_comm]
    omega
  · have hquotient : (x + alignment - 1) / alignment = x / alignment + 1 := by
      rw [show x + alignment - 1 = x % alignment - 1 + alignment * (x / alignment + 1) by rw [Nat.mul_add]; omega,
        Nat.add_mul_div_left _ _ hpos, Nat.div_eq_of_lt (by omega), Nat.zero_add]
    rw [hquotient, Nat.mod_eq_of_lt (by omega), Nat.mul_comm, Nat.mul_add]
    omega

theorem exactPad_add {size x : ℕ} (hpos : 0 < alignment) (hsize : alignment ∣ size) :
    exactPad (size + x) alignment = size + exactPad x alignment := by
  obtain ⟨q, rfl⟩ := hsize
  rw [exactPad_eq _ hpos, exactPad_eq _ hpos, Nat.mul_add_mod]
  omega

theorem padBuf_length (buf : List UInt8) (hpos : 0 < alignment) :
    (padBuf buf alignment).length = exactPad buf.length alignment := by
  unfold padBuf
  rw [List.length_append, List.length_replicate, exactPad_eq _ hpos]

theorem dvd_exactPad (x : ℕ) : alignment ∣ exactPad x alignment := Dvd.intro_left _ rfl

theorem writeTensorData_ok {start : ℕ} {buf out : List UInt8} {ti : TensorInfo}
    (h : writeTensorData start alignment buf ti = .ok out) :
    buf.length - start = ti.offset ∧ ggmlIsContiguous ti.t.type ti.t.ne ti.t.nb = true ∧
      ti.t.bytes.length = ti.t.nbytes ∧ out = padBuf (buf ++ ti.t.bytes) alignment := by
  unfold writeTensorData at h
  unfold GgmlTensor.bytes
  split at h
  · cases h
  rename_i hoffset
  split at h
  · cases h
  rename_i hcontiguous
  refine ⟨not_not.mp hoffset, by simpa using hcontiguous, ?_⟩
  cases hdata : ti.t.data with
  | none =>
    rw [hdata] at h
    dsimp only at h
    split at h
    · rename_i hempty
      cases h
      exact ⟨hempty.2.symm, by rw [List.append_nil]⟩
    · cases h
  | some data =>
    rw [hdata] at h
    cases h
    exact ⟨by simp, rfl⟩

/-- What the loop over the tensors has checked and written. -/
theorem writeTensors_spec {start : ℕ} {infos : List TensorInfo} {buf out : List UInt8} (hpos : 0 < alignment)
    (hbuf : alignment ∣ buf.length) (hle : start ≤ buf.length)
    (h : infos.foldlM (writeTensorData start alignment) buf = .ok out) (hmax : out.length + alignment ≤ 2 ^ 64) :
    buf <+: out ∧ start ≤ out.length ∧ LaidOut alignment (buf.length - start) infos (out.length - start) ∧
      ∀ ti ∈ infos, ggmlIsContiguous ti.t.type ti.t.ne ti.t.nb = true ∧
        (out.drop (start + ti.offset)).take ti.t.nbytes = ti.t.bytes := by
  induction infos generalizing buf with
  | nil =>
    cases h
    exact ⟨List.prefix_rfl, hle, rfl, fun ti hti => nomatch hti⟩
  | cons ti infos ih =>
    rw [List.foldlM_cons] at h
    obtain ⟨mid, hfirst, hrest⟩ := except_bind_ok.mp h
    obtain ⟨hoffset, hcontiguous, hbytes, rfl⟩ := writeTensorData_ok hfirst
    have hlength : (padBuf (buf ++ ti.t.bytes) alignment).length = buf.length + exactPad ti.t.nbytes alignment := by
      rw [padBuf_length _ hpos, List.length_append, hbytes, exactPad_add hpos hbuf]
    have hgrown := Nat.dvd_add hbuf (dvd_exactPad ti.t.nbytes)
    rw [← hlength] at hgrown
    obtain ⟨hbegins, hout, hlaid, hdata⟩ := ih hgrown (by omega) hrest
    have hinside := hbegins.length_le
    have hpadded := le_exactPad ti.t.nbytes hpos
    have hpad : ggmlPad ti.t.nbytes alignment = exactPad ti.t.nbytes alignment := ggmlPad_exact (by omega)
    have hwritten : buf ++ ti.t.bytes <+: out := (List.prefix_append _ _).trans hbegins
    refine ⟨(List.prefix_append _ _).trans hwritten, hout, ⟨hoffset.symm, ?_, ?_⟩,
      List.forall_mem_cons.mpr ⟨⟨hcontiguous, ?_⟩, hdata⟩⟩
    · rw [hpad]
      omega
    · rw [hlength, Nat.sub_add_comm hle] at hlaid
      rwa [hpad]
    · obtain ⟨tail, rfl⟩ := hwritten
      rw [show start + ti.offset = buf.length by omega, List.append_assoc, List.drop_left, ← hbytes, List.take_left]

theorem LaidOut.congr {size total : ℕ} {infos infos' : List TensorInfo} (h : LaidOut alignment size infos total)
    (same : infos'.map (fun ti => (ti.offset, ti.t.nbytes)) = infos.map (fun ti => (ti.offset, ti.t.nbytes))) :
    LaidOut alignment size infos' total := by
  induction infos generalizing size infos' with
  | nil =>
    rw [List.map_nil, List.map_eq_nil_iff] at same
    exact same ▸ h
  | cons ti infos ih =>
    cases infos' with
    | nil => cases same
    | cons ti' infos' =>
      obtain ⟨hhead, htail⟩ := List.cons.inj same
      obtain ⟨hoffset, hbytes⟩ := Prod.mk.inj hhead
      obtain ⟨hsize, hlt, hrest⟩ := h
      refine ⟨hoffset.trans hsize, ?_, ?_⟩
      · rwa [hbytes]
      · rw [hbytes]
        exact ih hrest htail

end Data

section ReadBack

def TensorInfo.entry (ti : TensorInfo) : TensorName × GgmlType × Dims × ℕ := (ti.t.name, ti.t.type, ti.t.ne, ti.offset)

def LoadedTensor.entry (t : LoadedTensor) : TensorName × GgmlType × Dims × Option ℕ := (t.name, t.type, t.ne, t.dataOffset)

/-- A context that can be read again once it has been written. -/
structure Writable (lib : CxxLibrary) (ctx : GgufContext) : Prop where
  version : ctx.version = 2 ∨ ctx.version = 3
  pairs : ∀ kv ∈ ctx.kv, KvOk lib kv
  keys : ctx.kv.Pairwise fun a b => a.key ≠ b.key
  pairsFit : ctx.kv.length ≤ vectorMax sizeofKv
  shapes : ∀ ti ∈ ctx.info, ElementsFit ti.t.ne
  blocks : ∀ ti ∈ ctx.info, ti.t.type.blckSize = 1 ∨ ti.t.nb.b0 = ti.t.type.typeSize
  names : ctx.info.Pairwise fun a b => a.t.name ≠ b.t.name
  infosFit : ctx.info.length ≤ vectorMax sizeofTensorInfo
  alignment : readAlignment (ctx.kv.map GgufKv.normal) = .ok ctx.alignment

/-- The bytes, read again, give the context back. -/
structure ReadsBack (params : InitParams) (ctx : GgufContext) (bytes : List UInt8) (r : InitResult) : Prop where
  version : r.ctx.version = ctx.version
  pairs : r.ctx.kv = ctx.kv.map GgufKv.normal
  alignment : r.ctx.alignment = ctx.alignment
  infos : r.ctx.info.map TensorInfo.entry = ctx.info.map TensorInfo.entry
  sizes : r.ctx.info.map (·.t.nbytes) = ctx.info.map (·.t.nbytes)
  data : ∀ ti ∈ ctx.info, (bytes.drop (r.ctx.offset + ti.offset)).take ti.t.nbytes = ti.t.bytes
  metaPart : ggufWriteToBuf ctx true = .ok (bytes.take r.ctx.offset) ∧ r.ctx.offset ≤ bytes.length
  tensors : params.ctx = true → ∃ tensors, r.tensors = some tensors ∧ tensors.map LoadedTensor.entry =
    ctx.info.map fun ti => (ti.t.name, ti.t.type, ti.t.ne, if params.noAlloc then none else some ti.offset)
  blob : params.ctx = true → params.noAlloc = false → ∃ blob, r.ctx.data = some blob ∧
    ∀ ti ∈ ctx.info, (blob.drop ti.offset).take ti.t.nbytes = ti.t.bytes

variable {lib : CxxLibrary} {ctx : GgufContext} {bytes : List UInt8}

theorem writeTensorMeta_length (ti : TensorInfo) : 32 ≤ (writeTensorMeta ti).length := by
  have hdims : 8 ≤ ((Dims.written ti.t.ne).flatMap (leBytes 8)).length := by
    unfold Dims.written ggmlNDims
    split_ifs <;> simp [leBytes_length]
  unfold writeTensorMeta writeString
  simp only [List.length_append, leBytes_length]
  omega

theorem flatMap_length_le {α β : Type} (f : α → List β) (k : ℕ) (l : List α) (h : ∀ a ∈ l, k ≤ (f a).length) :
    k * l.length ≤ (l.flatMap f).length := by
  induction l with
  | nil => exact Nat.zero_le _
  | cons a l ih =>
    obtain ⟨ha, hl⟩ := List.forall_mem_cons.mp h
    have hrest := ih hl
    rw [List.flatMap_cons, List.length_append, List.length_cons, Nat.mul_succ]
    omega

theorem writeMeta_front (h : Writable lib ctx) (locals : ℕ → TensorLocals) (hoffsets : ∀ ti ∈ ctx.info, ti.offset < 2 ^ 64) :
    ∃ front, writeMeta ctx = .ok (padBuf front ctx.alignment) ∧ 32 * ctx.info.length ≤ front.length ∧
      MetaFront lib locals (⟨ctx.version, ctx.info.length, ctx.kv.length⟩, ctx.kv.map GgufKv.normal, ctx.alignment,
        reread locals ctx.info) front := by
  obtain ⟨fronts, hkvs, hpairs⟩ := writeKvs_turns [] h.pairs (fun _ _ _ hmem => nomatch hmem) h.keys
    (by simpa using h.pairsFit)
  have hinfos := writeInfos_turns lib locals [] (fun ti hti => ⟨h.shapes ti hti, hoffsets ti hti⟩)
    (fun _ _ _ hmem => nomatch hmem) h.names (by simpa using h.infosFit)
  have hmax : vectorMax sizeofTensorInfo ≤ (2 ^ 64 - 1) / sizeofTensorInfo := by decide
  have hmaxKv : vectorMax sizeofKv ≤ (2 ^ 64 - 1) / sizeofKv := by decide
  set header := ggufMagic ++ leBytes 4 ctx.version ++ leBytes 8 ctx.info.length ++ leBytes 8 ctx.kv.length
  refine ⟨header ++ (fronts.flatten ++ ctx.info.flatMap writeTensorMeta), ?_, ?_, header, fronts.flatten,
    ctx.info.flatMap writeTensorMeta, ⟨h.version, ?_, ?_, rfl⟩, hpairs, h.alignment, hinfos, rfl⟩
  · unfold writeMeta
    rw [hkvs, ← List.append_assoc]
    rfl
  · have hlength := flatMap_length_le writeTensorMeta 32 ctx.info fun ti _ => writeTensorMeta_length ti
    simp only [List.length_append]
    omega
  · exact h.infosFit.trans hmax
  · exact h.pairsFit.trans hmaxKv

theorem write_ok {onlyMeta : Bool} (h : ggufWriteToBuf ctx onlyMeta = .ok bytes) :
    bytes.length ≤ vectorMax 1 ∧ ∃ start, writeMeta ctx = .ok start ∧ writeData ctx onlyMeta start = .ok bytes := by
  obtain ⟨start, hstart, h⟩ := except_bind_ok.mp h
  obtain ⟨buf, hbuf, h⟩ := except_bind_ok.mp h
  split at h
  · cases h
  · cases h
    exact ⟨by omega, start, hstart, hbuf⟩

/-- A written file is read again, in every mode. -/
theorem written_readsBack (h : Writable lib ctx) (hwrite : ggufWriteToBuf ctx false = .ok bytes)
    (locals : ℕ → TensorLocals) (params : InitParams) :
    ∃ r, ggufInitFromFileImpl lib locals params bytes = .ok r ∧ ReadsBack params ctx bytes r := by
  obtain ⟨hmax, start, hstart, hdata⟩ := write_ok hwrite
  obtain ⟨halign, hpower⟩ := readAlignment_spec h.alignment
  have halignLt := kvAlignment_lt halign
  have hpos : 0 < ctx.alignment := Nat.pos_of_ne_zero hpower.1
  have hvector : vectorMax 1 = 2 ^ 63 - 1 := by decide
  have hstartDvd : ctx.alignment ∣ start.length := by
    obtain ⟨kvs, -, hpadded⟩ := except_bind_ok.mp hstart
    cases hpadded
    rw [padBuf_length _ hpos]
    exact dvd_exactPad _
  change ctx.info.foldlM (writeTensorData start.length ctx.alignment) start = .ok bytes at hdata
  obtain ⟨hbegins, hle, hlaid, htensors⟩ := writeTensors_spec hpos hstartDvd le_rfl hdata (by omega)
  rw [Nat.sub_self] at hlaid
  have hoffsets : ∀ ti ∈ ctx.info, ti.offset < 2 ^ 64 := fun ti hti => by
    have hbound := (hlaid.bounds.2 ti hti).2
    omega
  obtain ⟨front, hfrontWrite, hfrontLength, hfront⟩ := writeMeta_front h locals hoffsets
  obtain rfl := Except.ok.inj (hfrontWrite.symm.trans hstart)
  have hpadded := padBuf_length front hpos
  have hpadding : front <+: padBuf front ctx.alignment := List.prefix_append _ _
  have hfrontLe := hpadding.length_le
  obtain ⟨tail, hcontent⟩ : ∃ tail, bytes = front ++ tail := by
    obtain ⟨tail, rfl⟩ := hpadding.trans hbegins
    exact ⟨tail, rfl⟩
  have hposition : ggmlPad front.length ctx.alignment = (padBuf front ctx.alignment).length := by
    rw [hpadded]
    exact ggmlPad_exact (by omega)
  -- the reader computes the sizes from the strides it lays out itself
  have hsame : ∀ i, ∀ ti ∈ ctx.info,
      (readInfo locals i ti.t.name ti.t.ne ⟨ti.t.type, ti.t.wholeBlocks⟩ ti.offset).t.nbytes = ti.t.nbytes :=
    fun i ti hti => (ggmlNbytes_of_contiguous (htensors ti hti).1 (h.blocks ti hti)).symm
  have hlaidAgain : LaidOut ctx.alignment 0 (reread locals ctx.info)
      (bytes.length - (padBuf front ctx.alignment).length) :=
    hlaid.congr (reread_map locals fun i ti hti => Prod.ext rfl (hsame i ti hti))
  set parsed : Metadata := (⟨ctx.version, ctx.info.length, ctx.kv.length⟩, ctx.kv.map GgufKv.normal, ctx.alignment,
    reread locals ctx.info) with hparsed
  set size := bytes.length - (padBuf front ctx.alignment).length with hsize
  have hmeta := (accepts_readMeta lib locals bytes parsed tail).mpr ⟨front, hfront, hcontent⟩
  have hcontext : makeContext parsed (bytes.length - tail.length) = .ok (contextOf parsed front.length size) := by
    have hlength : bytes.length - tail.length = front.length := by
      rw [hcontent, List.length_append, Nat.add_sub_cancel]
    have hseek : (2 : ℕ) ^ 63 - 1 = int64Max := rfl
    rw [hlength]
    exact makeContext_ok_iff.mpr ⟨by change ggmlPad front.length ctx.alignment ≤ _; omega, size, hlaidAgain, rfl⟩
  have hrun : ggufInitFromFileImpl lib locals params bytes =
      if params.ctx then loadTensors params.noAlloc (contextOf parsed front.length size)
        (bytes.drop (ggmlPad front.length ctx.alignment)) else pure ⟨contextOf parsed front.length size, none⟩ := by
    unfold ggufInitFromFileImpl
    rw [hmeta]
    change (makeContext parsed (bytes.length - tail.length) >>= fun _ => _) = _
    rw [hcontext]
    rfl
  have hn : (contextOf parsed front.length size).info.length = ctx.info.length := reread_length locals ctx.info
  have hinfosFit := h.infosFit
  have hvectorInfos : vectorMax sizeofTensorInfo = 26812128014112720 := by decide
  have hsizeEq : (contextOf parsed front.length size).size = size := rfl
  -- everything but the tensors of the ggml context is the same in the three modes
  have hback : ∀ r : InitResult, r.ctx = { contextOf parsed front.length size with data := r.ctx.data } →
      (params.ctx = true → ∃ tensors, r.tensors = some tensors ∧ tensors.map LoadedTensor.entry =
        ctx.info.map fun ti => (ti.t.name, ti.t.type, ti.t.ne, if params.noAlloc then none else some ti.offset)) →
      (params.ctx = true → params.noAlloc = false → r.ctx.data = some (bytes.drop (padBuf front ctx.alignment).length)) →
      ReadsBack params ctx bytes r := by
    intro r hr htensorList hblob
    have hoffset : r.ctx.offset = (padBuf front ctx.alignment).length := by
      rw [hr]
      exact hposition
    refine ⟨by rw [hr]; rfl, by rw [hr]; rfl, by rw [hr]; rfl, ?_, ?_, ?_, ?_, htensorList, ?_⟩
    · rw [hr]
      exact reread_map locals fun i ti hti => rfl
    · rw [hr]
      exact reread_map locals hsame
    · rw [hoffset]
      exact fun ti hti => (htensors ti hti).2
    · rw [hoffset]
      refine ⟨?_, hle⟩
      obtain ⟨rest, rfl⟩ := hbegins
      rw [List.take_left]
      unfold ggufWriteToBuf
      rw [hstart]
      exact if_neg (by omega)
    · intro hctx hno
      refine ⟨_, hblob hctx hno, fun ti hti => ?_⟩
      rw [List.drop_drop]
      exact (htensors ti hti).2
  rw [hrun]
  cases hctx : params.ctx with
  | false => exact ⟨_, rfl, hback _ rfl (fun h => by simp [hctx] at h) (fun h => by simp [hctx] at h)⟩
  | true =>
    have hloadedList : ∀ loaded : Bool, params.noAlloc = !loaded →
        ((contextOf parsed front.length size).info.map (loadedTensor loaded)).map LoadedTensor.entry =
          ctx.info.map fun ti => (ti.t.name, ti.t.type, ti.t.ne, if params.noAlloc then none else some ti.offset) := by
      intro loaded hloaded
      rw [List.map_map, hloaded]
      exact reread_map locals fun i ti hti => by cases loaded <;> rfl
    rw [if_pos rfl]
    cases hno : params.noAlloc with
    | true =>
      rw [loadTensors_noAlloc (by omega)]
      exact ⟨_, rfl, hback _ rfl (fun _ => ⟨_, rfl, hloadedList false hno⟩) (fun _ h => by simp [hno] at h)⟩
    | false =>
      have hrest : (bytes.drop (ggmlPad front.length ctx.alignment)).length = size := by
        rw [List.length_drop, hposition]
      rw [loadTensors_fits (by omega), if_neg (by omega)]
      refine ⟨_, rfl, hback _ rfl (fun _ => ⟨_, rfl, hloadedList true hno⟩) (fun _ _ => ?_)⟩
      rw [← hposition]
      exact congrArg some (List.take_of_length_le (by omega))

end ReadBack

end PyannoteCpp.Gguf
